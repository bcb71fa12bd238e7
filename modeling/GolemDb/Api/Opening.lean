import GolemDb.Api.Effects
import GolemDb.Api.Commitment
import GolemDb.Storage.Access
import GolemDb.Storage.Faults

/-!
One opening. It leaves the store or commits what it created (`openStore_cases`). The bytes of an
identity determine the genesis. A store that has the metadata rows of a genesis (`Formatted`) is
refused under any other (`prepare_mismatch`), and under its own it is opened if its state passes the
checks (`prepare_validated`), which a settled state with the reserved cells does
(`runs_validateState`).
-/

namespace GolemDb.Api

open GolemDb.Lib GolemDb.Storage GolemDb.Merkle GolemDb.Cells GolemDb.Index GolemDb.Branch GolemDb.Records

/-! ### Openings that create nothing -/

section Unchanged

variable {H : HashProvider} {σ : Type} [Store σ] {config : OpenConfig}

/-- **What an opening does to a store**: it leaves it, or it commits what it created. -/
lemma openStore_cases (H : HashProvider) (config : OpenConfig) (store : σ) :
    ((openStore H config).exec store).2 = store ∨
    (∃ (info : OpenInfo) (tx : Store.Write σ) (store' : σ), info.created = true ∧
      Prog.Runs (Store.commit tx) store () store' ∧ (openStore H config).exec store = (.ok info, store')) ∨
    ∃ (e : StorageError) (tx : Store.Write σ) (store' : σ),
      (Store.commit tx).exec store = (.error e, store') ∧
        (openStore H config).exec store = (.error (.storage e), store') := by
  show (openStore H config store).2 = store ∨ (∃ _ _ _, _ ∧ _ ∧ openStore H config store = _) ∨
    ∃ _ _ _, _ ∧ openStore H config store = _
  unfold openStore
  cases config.genesis.validate (Store.maxKeySize store) (Store.maxValueSize store) with
  | error e => exact .inl rfl
  | ok u =>
    cases Store.beginWrite store with
    | error e => exact .inl rfl
    | ok tx =>
      rcases hp : (prepare H config).exec tx with ⟨e | info, tx'⟩
      · simp only [hp]
        exact .inl trivial
      · simp only [hp]
        by_cases hc : info.created = true
        · rw [if_pos hc]
          rcases hcommit : (Store.commit tx').exec store with ⟨e | u, store'⟩
          · exact .inr (.inr ⟨e, tx', store', hcommit, rfl⟩)
          · exact .inr (.inl ⟨info, tx', store', hc, hcommit, rfl⟩)
        · rw [if_neg hc]
          exact .inl rfl

/-- **An opening that creates nothing leaves the committed rows**, whatever the store holds and
whichever operation of it fails. -/
lemma openStore_held [FallibleStore σ] (store : σ)
    (hc : ∀ info, ((openStore H config).exec store).1 = .ok info → info.created = false) :
    held ((openStore H config).exec store).2 = held store := by
  rcases openStore_cases H config store with he | ⟨info, tx, store', hcreated, -, he⟩ |
    ⟨e, tx, store', hcommit, he⟩
  · rw [he]
  · rw [hc info (by rw [he])] at hcreated
    cases hcreated
  · rw [he]
    exact FallibleStore.commit_error hcommit

/-- On an unbounded store the store itself stays as it is. -/
lemma openStore_same [LawfulStore σ] (store : σ)
    (hc : ∀ info, ((openStore H config).exec store).1 = .ok info → info.created = false) :
    ((openStore H config).exec store).2 = store := by
  rcases openStore_cases H config store with he | ⟨info, tx, store', hcreated, -, he⟩ |
    ⟨e, tx, store', hcommit, he⟩
  · exact he
  · rw [hc info (by rw [he])] at hcreated
    cases hcreated
  · obtain ⟨store₁, hrun, -⟩ := LawfulStore.commit_eq store tx
    cases (Prod.mk.inj (hcommit.symm.trans hrun)).1

end Unchanged

/-! ### The identity of a deployment -/

section Identity

variable {g g' : Genesis}

/-- Framed bytes are read off the front. -/
lemma framed_append_inj {a b r r' : Bytes} (ha : a.length < 256 ^ 4) (hb : b.length < 256 ^ 4)
    (h : framed a ++ r = framed b ++ r') : a = b ∧ r = r' := by
  unfold framed at h
  rw [List.append_assoc, List.append_assoc] at h
  obtain ⟨hlen, hrest⟩ := List.append_inj h (by rw [beBytes_length, beBytes_length])
  exact List.append_inj hrest (beBytes_inj ha hb hlen)

/-- The lists of cells whose framed encodings agree. -/
lemma framedCells_inj : ∀ {l l' : List (CellKey × CellValue)},
    (∀ e ∈ l, e.1.encode.length < 256 ^ 4 ∧ e.2.encode.length < 256 ^ 4) →
    (∀ e ∈ l', e.1.encode.length < 256 ^ 4 ∧ e.2.encode.length < 256 ^ 4) →
    l.flatMap (fun e => framed e.1.encode ++ framed e.2.encode)
      = l'.flatMap (fun e => framed e.1.encode ++ framed e.2.encode) → l = l' := by
  intro l
  induction l with
  | nil =>
    intro l' _ _ h
    cases l' with
    | nil => rfl
    | cons e l' =>
      have hlen := congrArg List.length h
      simp [framed] at hlen
      omega
  | cons e l ih =>
    intro l' hl hl' h
    cases l' with
    | nil =>
      have hlen := congrArg List.length h
      simp [framed] at hlen
    | cons e' l' =>
      obtain ⟨hk, hv⟩ := hl e (List.mem_cons_self ..)
      obtain ⟨hk', hv'⟩ := hl' e' (List.mem_cons_self ..)
      rw [List.flatMap_cons, List.flatMap_cons, List.append_assoc, List.append_assoc] at h
      obtain ⟨hkey, h⟩ := framed_append_inj hk hk' h
      obtain ⟨hvalue, h⟩ := framed_append_inj hv hv' h
      have he : e = e' := Prod.ext (CellKey.encode_inj hkey) (CellValue.encode_inj hvalue)
      rw [he, ih (fun x hx => hl x (List.mem_cons_of_mem _ hx)) (fun x hx => hl' x (List.mem_cons_of_mem _ hx)) h]

/-- The genesis cells are short. -/
lemma initialCells_short {e : CellKey × CellValue} (he : e ∈ (initialCells g).entries) :
    e.1.encode.length < 256 ^ 4 ∧ e.2.encode.length < 256 ^ 4 := by
  have hmem : e ∈ initialList g := get?_initialCells.mp (OrdMap.mem_entries.mp he)
  rcases List.mem_append.mp hmem with hmem | hmem
  · obtain ⟨s, hs, hmem⟩ := List.mem_flatMap.mp hmem
    have hall : ∀ s ∈ System.ALL, ∀ e ∈ systemCells s, e.1.encode.length < 256 ^ 4 ∧ e.2.encode.length < 256 ^ 4 := by
      decide
    exact hall s hs e hmem
  · simp only [List.mem_cons, List.not_mem_nil, or_false] at hmem
    have hkey : e.1.encode.length < 256 ^ 4 := by
      rcases hmem with rfl | rfl | rfl | rfl
      · show (CellKey.encode ⟨System.PARAMS.id, Reserved.MAX_CELL_NAME_LEN⟩).length < _
        decide
      · show (CellKey.encode ⟨System.PARAMS.id, Reserved.MAX_STR_LEN⟩).length < _
        decide
      · show (CellKey.encode ⟨System.PARAMS.id, Reserved.MAX_BYTES_LEN⟩).length < _
        decide
      · show (CellKey.encode State.allocatorKey).length < _
        decide
    refine ⟨hkey, ?_⟩
    rcases hmem with rfl | rfl | rfl | rfl <;>
      simp [CellValue.encode, CellValue.fromU32, CellValue.fromU64, CellValue.fieldFromTyped]

/-- The limits are read off the genesis cells. -/
lemma cellLimits_of_cells (h : initialCells g = initialCells g') : g.cellLimits = g'.cellLimits := by
  have hparam : ∀ (name : CellName) (n n' : U32), (⟨System.PARAMS.id, name⟩, CellValue.fromU32 n) ∈ initialList g →
      (⟨System.PARAMS.id, name⟩, CellValue.fromU32 n') ∈ initialList g' → n = n' := by
    intro name n n' hn hn'
    have hv := get?_initialCells.mpr hn
    rw [h, get?_initialCells.mpr hn'] at hv
    exact (CellValue.fromU32_inj (Option.some.inj hv)).symm
  have hname := hparam Reserved.MAX_CELL_NAME_LEN g.cellLimits.maxCellNameLen g'.cellLimits.maxCellNameLen
    (List.mem_append_right _ (by simp)) (List.mem_append_right _ (by simp))
  have hstr := hparam Reserved.MAX_STR_LEN g.cellLimits.maxStrLen g'.cellLimits.maxStrLen
    (List.mem_append_right _ (by simp)) (List.mem_append_right _ (by simp))
  have hbytes := hparam Reserved.MAX_BYTES_LEN g.cellLimits.maxBytesLen g'.cellLimits.maxBytesLen
    (List.mem_append_right _ (by simp)) (List.mem_append_right _ (by simp))
  rcases hg : g.cellLimits with ⟨a, b, c⟩
  rcases hg' : g'.cellLimits with ⟨a', b', c'⟩
  rw [hg, hg'] at hname hstr hbytes
  simp only at hname hstr hbytes
  rw [hname, hstr, hbytes]

/-- **The bytes of an identity determine the genesis.** -/
lemma identityBytes_inj (h : identityBytes g (initialCells g) = identityBytes g' (initialCells g')) : g = g' := by
  unfold identityBytes at h
  obtain ⟨h, hcells⟩ := List.append_inj h (by simp)
  obtain ⟨h, -⟩ := List.append_inj h (by simp)
  obtain ⟨h, -⟩ := List.append_inj h (by simp)
  obtain ⟨-, hhash⟩ := List.append_inj h (by simp)
  have hentries := framedCells_inj (fun _ he => initialCells_short he) (fun _ he => initialCells_short he) hcells
  have hlimits : g.cellLimits = g'.cellLimits :=
    cellLimits_of_cells (OrdMap.ext_get fun k => by unfold OrdMap.get?; rw [hentries])
  have hfun : g.hashFunction = g'.hashFunction := by
    cases hg : g.hashFunction <;> cases hg' : g'.hashFunction <;> rw [hg, hg'] at hhash <;> first | rfl | cases hhash
  rcases g with ⟨hash, limits⟩
  rcases g' with ⟨hash', limits'⟩
  obtain rfl : limits = limits' := hlimits
  obtain rfl : hash = hash' := hfun
  rfl

end Identity

/-! ### The metadata of a genesis -/

/-- **The metadata rows of a genesis.** -/
structure Formatted (H : HashProvider) (g : Genesis) (r : Table → Rows) : Prop where
  format : (r SUPERBLOCK).get? (ascii "format") = some (beBytes 4 FORMAT)
  hashFn : (r SUPERBLOCK).get? (ascii "hash_fn") = some (beBytes 2 (hashId g.hashFunction))
  roaring : (r SUPERBLOCK).get? (ascii "roaring") = some (beBytes 2 ROARING)
  genesisId : (r SUPERBLOCK).get? (ascii "genesis_id") = some (identity H g (initialCells g)).1

section Metadata

variable {H : HashProvider} {g : Genesis} {r r' : Table → Rows}

/-- Only the head row may change. -/
lemma Formatted.congr (h : Formatted H g r) (hr : ∀ k, k ≠ HEAD_KEY → (r' SUPERBLOCK).get? k = (r SUPERBLOCK).get? k) :
    Formatted H g r' :=
  ⟨by rw [hr _ (by decide), h.format], by rw [hr _ (by decide), h.hashFn], by rw [hr _ (by decide), h.roaring],
    by rw [hr _ (by decide), h.genesisId]⟩

/-- A creation writes the metadata. -/
lemma WritesGenesis.formatted {τ : Type} [WriteTransaction τ] [LawfulWrite τ] {config : OpenConfig}
    (h : WritesGenesis τ H config r) : Formatted H config.genesis r := by
  obtain ⟨tx, tx', head, -, h, rfl⟩ := h
  obtain ⟨⟨⟩, tx₁, h1, h⟩ := Prog.runs_bind_iff.mp h
  obtain ⟨⟨⟩, tx₂, h2, h⟩ := Prog.runs_bind_iff.mp h
  obtain ⟨⟨⟩, tx₃, h3, h⟩ := Prog.runs_bind_iff.mp h
  obtain ⟨⟨⟩, tx₄, h4, h⟩ := Prog.runs_bind_iff.mp h
  obtain ⟨u, tx₅, h5, h⟩ := Prog.runs_bind_iff.mp h
  obtain ⟨⟨⟩, tx₆, h6, h⟩ := Prog.runs_bind_iff.mp h
  obtain ⟨rfl, rfl⟩ := Prog.runs_pure_iff.mp h
  have hmeta : Formatted H config.genesis (rows tx₄) := by
    have hrows : rows tx₄ SUPERBLOCK = ((((rows tx SUPERBLOCK).insert (ascii "format") (beBytes 4 FORMAT)).insert
        (ascii "hash_fn") (beBytes 2 (hashId config.genesis.hashFunction))).insert (ascii "roaring")
          (beBytes 2 ROARING)).insert (ascii "genesis_id")
            (identity H config.genesis (initialCells config.genesis)).1 := by
      rw [runs_putRow h4, Function.update_self, runs_putRow h3, Function.update_self, runs_putRow h2,
        Function.update_self, runs_putRow h1, Function.update_self]
    refine ⟨?_, ?_, ?_, ?_⟩ <;> rw [hrows] <;> simp only [OrdMap.get?_insert] <;> rfl
  -- the cells are written to other tables, and the head to its own row
  have hcells : rows tx₅ SUPERBLOCK = rows tx₄ SUPERBLOCK :=
    (Cells.apply_keeps ((outside_allows (S := {CELL, CELL_TRIE}) CELL_valid (by simp)).admits _)
      ((outside_allows CELL_TRIE_valid (by simp)).admits _) .empty).runs (Prog.runs_mapError.mp h5) SUPERBLOCK (by
        simp only [Set.mem_insert_iff, Set.mem_singleton_iff]
        decide)
  refine hmeta.congr fun k hk => ?_
  obtain ⟨tx₇, hput, hrows⟩ := LawfulWrite.put_eq SUPERBLOCK_valid tx₅ HEAD_KEY
    (Head.encode ⟨0, u.root.hash H, H.hash []⟩)
  obtain ⟨-, rfl⟩ := (Prog.Runs.mapError hput).unique (Prog.runs_mapError.mp h6)
  rw [hrows, Function.update_self, OrdMap.get?_insert, if_neg hk, hcells]

/-- **A publication keeps the metadata.** -/
lemma Formatted.published {ρ : Type} [ReadTransaction ρ] [LawfulRead ρ] {R : Roaring} {origin : ρ}
    {overlay : CellOverlay}
    {s : SealedCommit} (h : Formatted H g r) (hr : rows origin = r) (hs : compute H R origin overlay = .ok s) :
    Formatted H g (publishedRows r s) := by
  obtain ⟨-, -, -, -, hframe, -⟩ := compute_ok hs
  refine h.congr fun k hk => ?_
  have hsuper := hframe SUPERBLOCK (by simp [sealTables]; decide)
  rw [hr] at hsuper
  rw [publishedRows, if_pos rfl, OrdMap.get?_insert, if_neg hk, hsuper]

variable {τ : Type} [WriteTransaction τ] [LawfulRead τ] {tx : τ} {config : OpenConfig} {head : Head}

/-- A metadata row of the right width is read. -/
lemma runs_metadata {n : ℕ} {key : Bytes} {a : Arr n} (h : (rows tx SUPERBLOCK).get? key = some a.1) :
    Prog.Runs (metadata n key) tx a tx := by
  have hrow : Prog.Runs (getRow SUPERBLOCK key) tx (some a.1) tx := by
    refine Prog.Runs.read ?_
    rw [LawfulRead.get_eq SUPERBLOCK_valid, h, mapError_ok]
  refine hrow.bind ?_
  simp only [toArr?_val]
  exact Prog.Runs.pure a tx

/-- **The first checks of an initialized store**: what remains is to compare the identity and to validate the state. -/
lemma prepare_formatted {H' : HashProvider} (hf : Formatted H g (rows tx)) (hh : HeadIs (rows tx) head) :
    (prepare H' config).exec tx =
      ((if hashId g.hashFunction ≠ hashId config.genesis.hashFunction ∨
          identity H g (initialCells g) ≠ identity H' config.genesis (initialCells config.genesis)
            then throw .genesisMismatch
        else do
          let head ← Prog.read fun tx => (readHeadState tx).mapError OpenError.branch
          validateState H' head (initialCells config.genesis)
          if config.mode = .createNew then throw .alreadyInitialized
          else return OpenInfo.new false head (identity H' config.genesis (initialCells config.genesis)) :
        Prog OpenError τ OpenInfo)).exec tx := by
  have hrow : Prog.Runs (getRow SUPERBLOCK HEAD_KEY) tx (some head.encode) tx := by
    refine Prog.Runs.read ?_
    rw [LawfulRead.get_eq SUPERBLOCK_valid, hh, mapError_ok]
  have hformat : Prog.Runs (metadata 4 (ascii "format")) tx ⟨beBytes 4 FORMAT, beBytes_length ..⟩ tx :=
    runs_metadata hf.format
  have hhash : Prog.Runs (metadata 2 (ascii "hash_fn")) tx ⟨beBytes 2 (hashId g.hashFunction), beBytes_length ..⟩ tx :=
    runs_metadata hf.hashFn
  have hroaring : Prog.Runs (metadata 2 (ascii "roaring")) tx ⟨beBytes 2 ROARING, beBytes_length ..⟩ tx :=
    runs_metadata hf.roaring
  have hid : hashId g.hashFunction = 1 ∨ hashId g.hashFunction = 2 := by
    cases g.hashFunction
    · exact .inl rfl
    · exact .inr rfl
  have hread : ofBe (beBytes 2 (hashId g.hashFunction)) = hashId g.hashFunction :=
    ofBe_beBytes (by rcases hid with h | h <;> rw [h] <;> decide)
  unfold prepare
  rw [hrow.exec_bind, if_neg (by simp), hformat.exec_bind]
  simp only
  rw [if_neg (by decide), hhash.exec_bind]
  simp only [hread]
  rw [if_neg (by rcases hid with h | h <;> simp [h]), hroaring.exec_bind]
  simp only
  rw [if_neg (by decide), (runs_metadata hf.genesisId).exec_bind]

/-- **A store of another genesis is refused.** -/
lemma prepare_mismatch {H' : HashProvider} (hf : Formatted H g (rows tx)) (hh : HeadIs (rows tx) head)
    (hne : hashId g.hashFunction ≠ hashId config.genesis.hashFunction ∨
      identity H g (initialCells g) ≠ identity H' config.genesis (initialCells config.genesis)) :
    (prepare H' config).exec tx = (.error .genesisMismatch, tx) := by
  rw [prepare_formatted hf hh, if_pos hne]
  rfl

/-- **A store of the same genesis is opened** if its state passes the checks, unless a new one was asked for. -/
lemma prepare_validated {tx' : τ} (hf : Formatted H config.genesis (rows tx)) (hh : HeadIs (rows tx) head)
    (hv : Prog.Runs (validateState H head (initialCells config.genesis)) tx () tx') :
    (prepare H config).exec tx = if config.mode = .createNew then (.error .alreadyInitialized, tx')
      else (.ok (OpenInfo.new false head (identity H config.genesis (initialCells config.genesis))), tx') := by
  have hread : Prog.Runs (Prog.read fun tx : τ => (readHeadState tx).mapError OpenError.branch) tx head tx :=
    Prog.Runs.read (by rw [hh.readHeadState, mapError_ok])
  rw [prepare_formatted hf hh, if_neg (by simp), hread.exec_bind, hv.exec_bind]
  split_ifs <;> rfl

end Metadata

/-! ### The checks of a committed state -/

section Validate

variable {H : HashProvider} {R : Roaring} {P : Set Bytes} {τ : Type} [WriteTransaction τ] [LawfulTransaction τ] {tx : τ}
  {g : Genesis} {head : Head} {m expected : CellMap}

lemma runs_getCell (h : rows tx CELL = cellRows m) (k : CellKey) : Prog.Runs (getCell k) tx (m.get? k) tx :=
  Prog.Runs.read (by rw [Cells.get, readValue_cellRows h, mapError_ok])

/-- Committed cells are found. -/
lemma runs_checkExpected (h : rows tx CELL = cellRows m) : ∀ l : List (CellKey × CellValue),
    (∀ e ∈ l, m.get? e.1 = some e.2) → Prog.Runs (checkExpected l) tx () tx := by
  intro l
  induction l with
  | nil => exact fun _ => Prog.Runs.pure () tx
  | cons e l ih =>
    intro hl
    refine (runs_getCell h e.1).bind ?_
    rw [if_neg (by rw [hl e (List.mem_cons_self ..)]; exact fun hne => hne rfl)]
    exact ih fun x hx => hl x (List.mem_cons_of_mem _ hx)

/-- A cursor with so many rows ahead has no other. -/
lemma checkRows_exact {r : Rows} : ∀ (n : ℕ) (p : Position) (c : ReadTransaction.Cursor τ), LawfulCursor.At c r p →
    (rowsAhead true r p).length = n → checkRows n c = .ok false := by
  intro n
  induction n with
  | zero =>
    intro p c hat hlen
    obtain ⟨c', hmove, -⟩ := LawfulCursor.move_eq hat true
    rw [rowMove_eq, List.length_eq_zero_iff.mp hlen, List.head?_nil] at hmove
    have hnext : ReadCursor.next.exec c = (.ok none, c') := hmove
    unfold checkRows cursorNext
    rw [hnext]
    rfl
  | succ n ih =>
    intro p c hat hlen
    obtain ⟨c', hmove, hat'⟩ := LawfulCursor.move_eq hat true
    obtain ⟨e, rest, hrows⟩ := List.exists_cons_of_length_eq_add_one hlen
    have hahead := rowsAhead_settle true r p
    rw [hrows, List.tail_cons] at hahead
    rw [rowMove_eq, hrows, List.head?_cons] at hmove hat'
    rw [rowMove_eq, hrows, List.head?_cons] at hahead
    have hnext : ReadCursor.next.exec c = (.ok (some e), c') := hmove
    unfold checkRows cursorNext
    rw [hnext]
    refine ih _ c' hat' ?_
    rw [hahead]
    rw [hrows, List.length_cons] at hlen
    omega

lemma rowsAhead_start (r : Rows) : rowsAhead true r (.key []) = r.entries := by
  refine List.filter_eq_self.mpr fun e _ => ?_
  simp only [Position.reaches, Dir, if_true, Bool.or_eq_true, decide_eq_true_eq]
  cases he : e.1 with
  | nil => exact .inl rfl
  | cons b l => exact .inr (List.nil_lt_cons b l)

/-- Putting cells that are there changes nothing. -/
lemma perform_puts_same (h : ∀ k v, expected.get? k = some v → m.get? k = some v) :
    perform (expected.entries.map fun e => CellChange.put e.1 e.2) m = m := by
  refine OrdMap.ext_get fun k => ?_
  rw [get?_perform]
  cases hlast : lastOf ((expected.entries.map fun e => CellChange.put e.1 e.2).map CellChange.toPair) k with
  | none => rfl
  | some w =>
    have hmem := mem_of_lastOf hlast
    rw [List.map_map] at hmem
    obtain ⟨e, he, hpair⟩ := List.mem_map.mp hmem
    obtain ⟨rfl, rfl⟩ := Prod.mk.inj hpair
    rw [h e.1 e.2 (OrdMap.mem_entries.mp he)]
    rfl

/-- The genesis cells other than the allocator are still there. -/
lemma EngineKept.genesis_cell {c : CommitId} (h : EngineKept g c m) {k : CellKey} {v : CellValue}
    (hk : (initialCells g).get? k = some v) (hne : k ≠ State.allocatorKey) : m.get? k = some v := by
  rw [← hk]
  rcases mem_initialList (get?_initialCells.mp hk) with ⟨s, hs, rfl⟩ | ⟨s, hs, rfl⟩ | ⟨name, -, rfl⟩ | rfl
  · exact (h.reserved hs).1
  · exact (h.reserved hs).2
  · exact h.params name
  · exact absurd rfl hne

/-- **What the checks of an opening ask for** of committed cells. -/
structure Checked (g : Genesis) (head : Head) (m : CellMap) : Prop where
  consistent : Consistent head.commitId m
  kept : EngineKept g head.commitId m
  zero : head.commitId = 0 → m = initialCells g
  roots : head.commitId ≠ 0 → ∃ prev : Head, m.get? (rootsKey (head.commitId - 1)) = some (rootsValue prev)

/-- The cells besides the genesis ones are there. -/
lemma runs_expectedRoots (hs : Settled H R P (rows tx) ⟨head, m⟩) (hc : Checked g head m)
    (hexp : ∀ k v, expected.get? k = some v → m.get? k = some v) (hzero : head.commitId = 0 → expected = m) :
    ∃ expected', Prog.Runs (expectedRoots H head expected) tx expected' tx ∧
      ∀ k v, expected'.get? k = some v → m.get? k = some v := by
  have hcells : rows tx CELL = cellRows m := hs.holds.cells.table
  unfold expectedRoots
  by_cases h0 : head.commitId = 0
  · refine ⟨expected, ?_, hexp⟩
    obtain ⟨c, hcursor, hat⟩ := LawfulCursor.cursor_eq CELL_valid tx []
    have hrows : checkRows expected.size c = .ok false := by
      refine checkRows_exact _ _ c hat ?_
      rw [rowsAhead_start, hcells, hzero h0]
      exact List.length_map ..
    have hroot : head.indexRoot = H.hash [] := by
      have hhead : head = headOf H R head.commitId m := hs.head
      rw [hhead, hc.zero h0, headOf, cellPostings_initial]
      rfl
    have hread : Prog.Runs (Prog.read fun tx : τ => do
        let cursor ← (ReadTransaction.cursor tx CELL []).mapError OpenError.storage
        checkRows expected.size cursor) tx false tx :=
      Prog.Runs.read (by rw [hcursor, mapError_ok, ok_bind, hrows])
    rw [if_pos h0]
    refine hread.bind ?_
    rw [if_neg (by simp [hroot])]
    exact Prog.Runs.pure expected tx
  · obtain ⟨prev, hprev⟩ := hc.roots h0
    refine ⟨expected.insert (rootsKey (head.commitId - 1)) (rootsValue prev), ?_, fun k v hk => ?_⟩
    · rw [if_neg h0]
      refine (runs_getCell hcells _).bind ?_
      rw [hprev]
      have hlen : (rootsValue prev).asBytes.map List.length = some 64 := by
        show some (prev.stateRoot.1 ++ prev.indexRoot.1).length = _
        rw [List.length_append, prev.stateRoot.2, prev.indexRoot.2]
      have hfield : (rootsValue prev).indexable = false := rfl
      simp only [hlen, hfield]
      exact Prog.Runs.pure _ tx
    · rw [OrdMap.get?_insert] at hk
      split_ifs at hk with hkey
      · rw [hkey, hprev, hk]
      · exact hexp k v hk

lemma initialCells_allocator (g : Genesis) :
    (initialCells g).get? State.allocatorKey = some (CellValue.fromU64 System.FIRST_USER_RECORD_ID) :=
  get?_initialCells.mpr (List.mem_append_right _ (by simp))

lemma filter_user {n : U64} (h : System.FIRST_USER_RECORD_ID ≤ n) :
    (some n).filter (System.FIRST_USER_RECORD_ID ≤ ·) = some n :=
  Option.filter_eq_some_iff.mpr ⟨rfl, decide_eq_true h⟩

/-- **A settled state that has what is asked for passes the checks.** -/
lemma runs_validateState (hinj : Set.InjOn H.hash P) (hs : Settled H R P (rows tx) ⟨head, m⟩) (hc : Checked g head m) :
    ∃ tx', Prog.Runs (validateState H head (initialCells g)) tx () tx' := by
  have hcells : rows tx CELL = cellRows m := hs.holds.cells.table
  have hhead : head = headOf H R head.commitId m := hs.head
  obtain ⟨n, hn, hle, habove⟩ := hc.consistent.allocator
  have hroot : Prog.Runs (Prog.read fun tx : τ => (Cells.reopen H tx head.stateRoot).mapError OpenError.cells) tx
      (cellRoot H m) tx := Prog.Runs.read (by
    rw [show head.stateRoot = (cellRoot H m).hash H from congrArg Head.stateRoot hhead,
      Cells.reopen_eq hinj hs.holds.cells, mapError_ok])
  have hindex : Prog.Runs (Prog.read fun tx : τ => (Index.reopen H tx head.indexRoot).mapError OpenError.index) tx
      (indexRoot H R (cellPostings m)) tx := Prog.Runs.read (by
    rw [show head.indexRoot = (indexRoot H R (cellPostings m)).hash H from congrArg Head.indexRoot hhead,
      reopen_represents hinj hs.holds.index, mapError_ok])
  have hscan : Prog.Runs (Prog.read fun tx : τ => (scanRecord tx n).mapError OpenError.cells) tx [] tx := by
    refine Prog.Runs.read ?_
    have hnone : m.entries.filter (fun e => e.1.recordId = n) = [] := by
      refine List.filter_eq_nil_iff.mpr fun e he => ?_
      rw [decide_eq_true_eq]
      rintro rfl
      exact absurd (habove e.1 e.2 (OrdMap.mem_entries.mp he) hle) (lt_irrefl _)
    rw [scanRecord_cellRows hcells, hnone, mapError_ok]
    rfl
  have hzero : ¬ (head.commitId = 0 ∧ n ≠ System.FIRST_USER_RECORD_ID) := by
    rintro ⟨h0, hne⟩
    rw [hc.zero h0] at hn
    exact hne (CellValue.fromU64_inj (Option.some.inj (hn.symm.trans (initialCells_allocator g))))
  have hexp : ∀ k v, ((initialCells g).insert State.allocatorKey (CellValue.fromU64 n)).get? k = some v →
      m.get? k = some v := by
    intro k v hk
    rw [OrdMap.get?_insert] at hk
    split_ifs at hk with hkey
    · rw [hkey, hn, hk]
    · exact hc.kept.genesis_cell hk hkey
  have hsame : head.commitId = 0 → (initialCells g).insert State.allocatorKey (CellValue.fromU64 n) = m := by
    intro h0
    refine OrdMap.ext_get fun k => ?_
    rw [OrdMap.get?_insert]
    split_ifs with hkey
    · rw [hkey, hn]
    · rw [hc.zero h0]
  obtain ⟨expected, hroots, hexpected⟩ := runs_expectedRoots hs hc hexp hsame
  have hkeys : ∀ c ∈ expected.entries.map (fun e => CellChange.put e.1 e.2), c.toPair.1.encode ∈ P := by
    intro c hmem
    obtain ⟨e, he, rfl⟩ := List.mem_map.mp hmem
    exact key_encode_mem hs.holds.preimages (hexpected e.1 e.2 (OrdMap.mem_entries.mp he))
  obtain ⟨u, tx', happly, -⟩ := apply_committed hinj hs.holds.cells hkeys
    (fun x hx => hs.holds.preimages x (List.mem_append_left _ (perform_puts_same hexpected ▸ hx)))
  refine ⟨tx', ?_⟩
  unfold validateState
  refine hroot.bind (hindex.bind ((runs_getCell hcells _).bind ?_))
  split
  case h_1 hnone => cases hn.symm.trans hnone
  case h_2 allocator hsome =>
    obtain rfl := Option.some.inj (hn.symm.trans hsome)
    split
    case h_1 hnone =>
      rw [fieldU64_fromU64, filter_user hle] at hnone
      cases hnone
    case h_2 nextId hnext =>
      rw [fieldU64_fromU64, filter_user hle] at hnext
      obtain rfl := Option.some.inj hnext
      rw [if_neg hzero]
      refine hscan.bind ((runs_checkExpected hcells _ fun e he => hexp e.1 e.2 (OrdMap.mem_entries.mp he)).bind ?_)
      exact hroots.bind (happly.mapError.bind (Prog.Runs.pure () tx'))

end Validate

end GolemDb.Api
