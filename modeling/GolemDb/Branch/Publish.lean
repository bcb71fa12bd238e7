import GolemDb.Branch.Seal
import GolemDb.Cells.Apply
import GolemDb.Index.Frame

/-!
What a seal and a publication do to the tables, whatever the hash. A seal that succeeds stages the
overlay's cells and the previous commit's roots over the Cell table, and no row of the superblock.
A publication over the same head sets the staged rows over every table and writes the head.
-/

namespace GolemDb.Branch

open GolemDb.Lib GolemDb.Storage GolemDb.Merkle GolemDb.Cells GolemDb.Index

/-! ### The head row -/

lemma SUPERBLOCK_valid : SUPERBLOCK.validate = .ok () := by decide

lemma checkedSucc_lt {n n' : U64} (h : checkedSucc n = some n') : n < n' ∧ ∀ i ≤ n', i ≤ n ∨ i = n' := by
  unfold checkedSucc at h
  split_ifs at h with hlt
  obtain rfl := Option.some.inj h
  refine ⟨Fin.lt_def.mpr (Nat.lt_succ_self _), fun i hi => ?_⟩
  have hi' : i.val ≤ n.val + 1 := hi
  rcases Nat.lt_or_ge n.val i.val with hgt | hle
  · exact .inr (Fin.ext (by simp only; omega))
  · exact .inl hle

lemma checkedSucc_inj {i i' j : U64} (h : checkedSucc i = some j) (h' : checkedSucc i' = some j) : i = i' := by
  unfold checkedSucc at h h'
  split_ifs at h h'
  have := Fin.val_eq_of_eq ((Option.some.inj h).trans (Option.some.inj h').symm)
  exact Fin.ext (by simpa using this)

lemma Head.encode_length (h : Head) : h.encode.length = HEAD_BYTES := by
  simp [Head.encode, HEAD_BYTES, h.stateRoot.2, h.indexRoot.2]

section Head

variable {ρ : Type} [ReadTransaction ρ] {tx : ρ} {h : Head}

/-- A head row that was found reads back. -/
lemma readHeadState_of_get (hr : ReadTransaction.get tx SUPERBLOCK HEAD_KEY = .ok (some h.encode)) :
    readHeadState tx = .ok h := by
  have h8 : takeArr 8 h.encode = ⟨h.commitId.toBeBytes, h.commitId.toBeBytes_length⟩ := by
    have := takeArr_self (⟨h.commitId.toBeBytes, h.commitId.toBeBytes_length⟩ : Arr 8)
      (h.stateRoot.1 ++ h.indexRoot.1)
    rwa [← List.append_assoc] at this
  have h32 : takeArr 32 (h.encode.drop 8) = h.stateRoot := by
    rw [Head.encode, List.append_assoc, List.drop_left' h.commitId.toBeBytes_length]
    exact takeArr_self h.stateRoot _
  have h72 : takeArr 32 (h.encode.drop 40) = h.indexRoot := by
    rw [Head.encode, List.drop_left' (by rw [List.length_append, h.stateRoot.2,
      h.commitId.toBeBytes_length])]
    have := takeArr_self h.indexRoot []
    rwa [List.append_nil] at this
  unfold readHeadState
  rw [hr, mapError_ok, ok_bind]
  simp only
  rw [if_neg (fun hne => hne h.encode_length), h8, h32, h72, U64.fromBeBytes_toBeBytes]
  rfl

/-- A head that was read is the row that was found. -/
lemma get_of_readHeadState (hr : readHeadState tx = .ok h) :
    ReadTransaction.get tx SUPERBLOCK HEAD_KEY = .ok (some h.encode) := by
  unfold readHeadState at hr
  obtain ⟨row, hrow, hr⟩ := bind_eq_ok.mp hr
  rw [mapError_eq_ok.mp hrow]
  cases row with
  | none => cases hr
  | some bytes =>
    simp only [ne_eq, ite_not] at hr
    split_ifs at hr with hlen
    rw [HEAD_BYTES] at hlen
    rw [← pure_eq_ok.mp hr, Head.encode, U64.toBeBytes_fromBeBytes, takeArr_val (by omega),
      takeArr_val (by rw [List.length_drop]; omega), takeArr_val (by rw [List.length_drop]; omega)]
    congr 1
    have h40 : (bytes.drop 8).drop 32 = bytes.drop 40 := by rw [List.drop_drop]
    have hlast : (bytes.drop 40).take 32 = bytes.drop 40 :=
      List.take_of_length_le (by rw [List.length_drop]; omega)
    rw [hlast, ← h40, List.append_assoc, List.take_append_drop, List.take_append_drop]

variable [LawfulRead ρ]

lemma readHeadState_eq (hr : (rows tx SUPERBLOCK).get? HEAD_KEY = some h.encode) :
    readHeadState tx = .ok h :=
  readHeadState_of_get (by rw [LawfulRead.get_eq SUPERBLOCK_valid, hr])

lemma row_of_readHeadState (hr : readHeadState tx = .ok h) :
    (rows tx SUPERBLOCK).get? HEAD_KEY = some h.encode := by
  have hget := get_of_readHeadState hr
  rw [LawfulRead.get_eq SUPERBLOCK_valid] at hget
  exact Except.ok.inj hget

end Head

/-! ### The staged rows -/

/-- Only tables with valid names are staged. -/
def Writes.Valid (w : Writes) : Prop := ∀ t, w.get? t ≠ none → t.validate = .ok ()

/-- The buffer's tables have valid names. -/
def validFrame (ρ : Type) : Prog.Frame (Buffered ρ) where
  rel b b' := b.writes.Valid → b'.writes.Valid
  refl _ h := h
  trans h h' hv := h' (h hv)

lemma valid_stage {ρ : Type} {b : Buffered ρ} {t : Table} (ht : t.validate = .ok ()) (k : Bytes)
    (v : Option Bytes) (hv : b.writes.Valid) : (b.stage t k v).writes.Valid := by
  intro u hu
  by_cases h : u = t
  · exact h ▸ ht
  · refine hv u ?_
    rwa [Buffered.stage, OrdMap.get?_insert, if_neg h] at hu

lemma validFrame_allows {ρ : Type} [ReadTransaction ρ] {t : Table} (ht : t.validate = .ok ()) :
    Allows (validFrame ρ) t := by
  have hput : ∀ k v, Prog.Keeps (validFrame ρ) (Buffered.put t k v) := fun k v =>
    (Prog.Keeps.ofExcept _).bind fun _ b => valid_stage ht k (some v)
  refine ⟨hput, fun k v => ?_, fun k => ?_⟩
  · refine (Prog.Keeps.read _).bind fun found => ?_
    split_ifs
    · exact Prog.Keeps.throw _
    · exact hput k v
  · refine (Prog.Keeps.read _).bind fun found => ?_
    split_ifs
    · exact fun b => valid_stage ht k none
    · exact Prog.Keeps.pure _

/-- A buffer keeps its origin. -/
def originFrame (ρ : Type) : Prog.Frame (Buffered ρ) where
  rel b b' := b'.origin = b.origin
  refl _ := rfl
  trans h h' := h'.trans h

lemma originFrame_allows {ρ : Type} [ReadTransaction ρ] (t : Table) : Allows (originFrame ρ) t := by
  have hput : ∀ k v, Prog.Keeps (originFrame ρ) (Buffered.put t k v) := fun k v =>
    (Prog.Keeps.ofExcept _).bind fun _ b => rfl
  refine ⟨hput, fun k v => ?_, fun k => ?_⟩
  · refine (Prog.Keeps.read _).bind fun found => ?_
    split_ifs
    · exact Prog.Keeps.throw _
    · exact hput k v
  · refine (Prog.Keeps.read _).bind fun found => ?_
    split_ifs
    · exact fun b => rfl
    · exact Prog.Keeps.pure _

/-- The tables a seal may stage. -/
def sealTables : Set Table := {CELL, CELL_TRIE, INDEX, INDEX_TRIE, BITMAP_CONTAINER, BITMAP_TRIE}

lemma sealTables_valid : ∀ t ∈ sealTables, t.validate = .ok () := by
  intro t ht
  simp only [sealTables, Set.mem_insert_iff, Set.mem_singleton_iff] at ht
  rcases ht with rfl | rfl | rfl | rfl | rfl | rfl <;> decide

/-- Staging the updates keeps every frame that allows the tables of a seal. -/
lemma stageUpdates_keeps {H : HashProvider} {R : Roaring} {ρ : Type} [ReadTransaction ρ]
    {F : Prog.Frame (Buffered ρ)} (hF : ∀ t ∈ sealTables, Allows F t) (cellRoot indexRoot : RootRef 32)
    (changes : List CellChange) : Prog.Keeps F (stageUpdates H R cellRoot indexRoot changes) := by
  have hindex : AllowsIndex F :=
    ⟨hF _ (by simp [sealTables]), hF _ (by simp [sealTables]), hF _ (by simp [sealTables]),
      hF _ (by simp [sealTables])⟩
  refine (Prog.Keeps.mapError (Cells.apply_keeps ((hF _ (by simp [sealTables])).admits _)
    ((hF _ (by simp [sealTables])).admits _) _)).bind fun u => (Prog.Keeps.ofExcept _).bind fun ps => ?_
  exact (Prog.Keeps.mapError (Index.apply_keeps (hindex.admits R Set.univ) _ fun _ _ => trivial)).bind
    fun _ => Prog.Keeps.pure _

/-! ### The net changes of a seal -/

/-- The cell with a commit's roots. -/
def rootsValue (head : Head) : CellValue := CellValue.fromBytes (head.stateRoot.1 ++ head.indexRoot.1)

/-- The overlay's entries and the roots of the head it is sealed over. -/
def sealedEntries (overlay : CellOverlay) (head : Head) : Entries :=
  overlay.entries.insert (rootsKey head.commitId) (some (rootsValue head))

lemma changes_toPair (o : CellOverlay) : o.changes.map CellChange.toPair = o.entries.entries := by
  unfold CellOverlay.changes
  rw [List.map_map]
  refine (List.map_congr_left fun e _ => ?_).trans (List.map_id _)
  obtain ⟨k, v | v⟩ := e <;> rfl

lemma netChanges_seal (o : CellOverlay) (key : CellKey) (value : CellValue) :
    netChanges (o.changes ++ [.put key value]) = o.entries.insert key (some value) := by
  refine OrdMap.ext_get fun k => ?_
  apply Option.ext
  intro v
  have hlast : ∀ l : List (CellKey × Option CellValue), lastOf (l ++ [(key, some value)]) k =
      if k = key then some (some value) else lastOf l k := by
    intro l
    induction l with
    | nil =>
      by_cases hk : k = key
      · subst hk
        simp [lastOf]
      · simp [lastOf, hk, Ne.symm hk]
    | cons x l ih =>
      rw [List.cons_append, lastOf_cons, ih, lastOf_cons]
      by_cases hk : k = key <;> simp [hk]
  rw [← OrdMap.mem_entries]
  show (k, v) ∈ Lib.normalize ((o.changes ++ [CellChange.put key value]).map CellChange.toPair) ↔ _
  rw [mem_normalize, List.map_append, changes_toPair]
  show lastOf (o.entries.entries ++ [(key, some value)]) k = some v ↔ _
  rw [hlast, OrdMap.get?_insert]
  by_cases hk : k = key
  · simp [hk]
  · rw [if_neg hk, if_neg hk, lastOf_of_sorted o.entries.sorted, OrdMap.mem_entries]

/-! ### A seal that succeeds -/

section Compute

variable {H : HashProvider} {R : Roaring} {ρ : Type} [ReadTransaction ρ] {origin : ρ}
  {overlay : CellOverlay} {s : SealedCommit}

/-- The runs behind a seal that succeeds. -/
lemma compute_runs (h : compute H R origin overlay = .ok s) : ∃ head cellRoot indexRoot tx,
    readHeadState origin = .ok head ∧ checkedSucc head.commitId = some s.commitId ∧
      Cells.reopen H origin head.stateRoot = .ok cellRoot ∧ Index.reopen H origin head.indexRoot = .ok indexRoot ∧
      ReadTransaction.get origin CELL (rootsKey head.commitId).encode = .ok none ∧
      Prog.Runs (stageUpdates H R cellRoot indexRoot
        (overlay.changes ++ [.put (rootsKey head.commitId) (rootsValue head)])) (Buffered.new origin)
        (s.cells, s.index) tx ∧
      s.stateRoot = s.cells.root.hash H ∧ s.indexRoot = s.index.root.hash H ∧ s.writes = tx.writes := by
  obtain ⟨head, hhead, h⟩ := bind_eq_ok.mp h
  split at h
  · cases h
  · rename_i commitId hsucc
    obtain ⟨cellRoot, hcell, h⟩ := bind_eq_ok.mp h
    obtain ⟨indexRoot, hindex, h⟩ := bind_eq_ok.mp h
    obtain ⟨found, hfound, h⟩ := bind_eq_ok.mp h
    split_ifs at h with hsome
    have hnone : found = none := by simpa using hsome
    subst hnone
    obtain ⟨value, hvalue, h⟩ := bind_eq_ok.mp h
    have hv : value = rootsValue head := by
      have hself := CellValue.new_self (rootsValue head)
      have hnew := (mapError_eq_ok.mp hvalue).symm.trans hself
      exact Except.ok.inj hnew
    subst hv
    split at h
    · cases h
    · rename_i cells index tx hexec
      obtain rfl := pure_eq_ok.mp h
      exact ⟨head, cellRoot, indexRoot, tx, hhead, hsucc, mapError_eq_ok.mp hcell, mapError_eq_ok.mp hindex,
        mapError_eq_ok.mp hfound, hexec, rfl, rfl, rfl⟩

/-- A seal stages tables with valid names alone. -/
lemma compute_valid (h : compute H R origin overlay = .ok s) : s.writes.Valid := by
  obtain ⟨head, cellRoot, indexRoot, tx, -, -, -, -, -, hrun, -, -, hw⟩ := compute_runs h
  rw [hw]
  refine (stageUpdates_keeps (fun u hu => validFrame_allows (sealTables_valid u hu)) _ _ _).runs hrun ?_
  intro t ht
  exact absurd (OrdMap.get?_empty t) ht

variable [LawfulRead ρ]

/-- **A seal that succeeds** raises the commit number by one, stages the overlay and the roots over
the Cell table, and changes no table but its own. -/
theorem compute_ok (h : compute H R origin overlay = .ok s) :
    ∃ head, readHeadState origin = .ok head ∧ checkedSucc head.commitId = some s.commitId ∧
      (rows origin CELL).overlay (s.writes.rowsOf CELL)
        = (rows origin CELL).overlay (stagedCells (sealedEntries overlay head)) ∧
      (∀ t ∉ sealTables, (rows origin t).overlay (s.writes.rowsOf t) = rows origin t) ∧
      s.writes.Valid := by
  obtain ⟨head, cellRoot, indexRoot, tx, hhead, hsucc, -, -, -, hrun, -, -, hw⟩ := compute_runs h
  have horigin : tx.origin = origin :=
    (stageUpdates_keeps (F := originFrame ρ) (fun t _ => originFrame_allows t) _ _ _).runs hrun
  have hrows : ∀ t, rows tx t = (rows origin t).overlay (s.writes.rowsOf t) := by
    intro t
    show (rows tx.origin t).overlay (tx.writes.rowsOf t) = _
    rw [horigin, hw]
  have hnew : ∀ t, rows (Buffered.new origin) t = rows origin t := fun t => rfl
  refine ⟨head, hhead, hsucc, ?_, fun t ht => ?_, compute_valid h⟩
  · obtain ⟨u, tx₁, hcells, hrest⟩ := Prog.runs_bind_iff.mp hrun
    obtain ⟨hcell, -⟩ := Cells.apply_rows (Prog.runs_mapError.mp hcells)
    have hkept : rows tx CELL = rows tx₁ CELL := by
      have hk : Prog.Keeps (Outside ({INDEX, INDEX_TRIE, BITMAP_CONTAINER, BITMAP_TRIE} : Set Table) :
          Prog.Frame (Buffered ρ)) (do
            let postings ← Prog.ofExcept (postingsOf u.changedCells)
            let indexUpdate ← Prog.mapError BranchError.index (Index.apply H R indexRoot postings)
            return (u, indexUpdate)) :=
        (Prog.Keeps.ofExcept _).bind fun _ => (Prog.Keeps.mapError (Index.apply_keeps (AllowsIndex.admits
          ⟨outside_allows INDEX_valid (by simp), outside_allows INDEX_TRIE_valid (by simp),
            outside_allows BITMAP_CONTAINER_valid (by simp), outside_allows BITMAP_TRIE_valid (by simp)⟩
          R Set.univ) _ fun _ _ => trivial)).bind fun _ => Prog.Keeps.pure _
      refine hk.runs hrest CELL ?_
      simp only [Set.mem_insert_iff, Set.mem_singleton_iff]
      decide
    rw [← hrows, hkept, hcell, hnew, netChanges_seal]
    rfl
  · rw [← hrows]
    exact ((stageUpdates_keeps (fun u hu => outside_allows (sealTables_valid u hu) hu) _ _ _).runs hrun t
      ht).trans (hnew t)

end Compute

/-! ### Publication -/

section Stage

variable {τ : Type} [WriteTransaction τ] [LawfulWrite τ]

lemma runs_replayRows {t : Table} (ht : t.validate = .ok ()) : ∀ (l : List (Bytes × Option Bytes)) (tx : τ),
    ∃ tx', Prog.Runs (l.foldlM (replayRow t) ()) tx () tx' ∧
      rows tx' = Function.update (rows tx) t (l.foldl (fun r e => r.set e.1 e.2) (rows tx t)) := by
  intro l
  induction l with
  | nil => exact fun tx => ⟨tx, Prog.Runs.pure () tx, by simp⟩
  | cons e l ih =>
    intro tx
    obtain ⟨tx₁, h1, hrows₁⟩ : ∃ tx₁, Prog.Runs (replayRow t () e) tx () tx₁ ∧
        rows tx₁ = Function.update (rows tx) t ((rows tx t).set e.1 e.2) := by
      unfold replayRow
      cases e.2 with
      | some value =>
        obtain ⟨tx₁, h1, h2⟩ := LawfulWrite.put_eq ht tx e.1 value
        exact ⟨tx₁, h1.mapError, h2⟩
      | none =>
        obtain ⟨tx₁, h1, h2⟩ := LawfulWrite.delete_eq ht tx e.1
        exact ⟨tx₁, h1.mapError.bind (Prog.Runs.pure () tx₁), h2⟩
    obtain ⟨tx', h2, hrows⟩ := ih tx₁
    refine ⟨tx', ?_, ?_⟩
    · rw [List.foldlM_cons]
      exact h1.bind h2
    · rw [hrows, hrows₁, Function.update_self, Function.update_idem, List.foldl_cons]

/-- Staged rows set over a table after table are set over every table. -/
lemma foldl_staged : ∀ (l : List (Table × StagedRows)) (hl : l.Pairwise fun a b => a.1 < b.1)
    (r : Table → Rows) (t : Table),
    l.foldl (fun r e => Function.update r e.1 ((r e.1).overlay e.2)) r t
      = (r t).overlay (Writes.rowsOf ⟨l, hl⟩ t) := by
  intro l
  induction l with
  | nil => exact fun _ r t => rfl
  | cons e l ih =>
    intro hel r t
    obtain ⟨he, hl⟩ := List.pairwise_cons.mp hel
    rw [List.foldl_cons, ih hl]
    by_cases ht : e.1 = t
    · subst ht
      -- later tables have greater names
      have hnone : Writes.rowsOf ⟨l, hl⟩ e.1 = OrdMap.empty := by
        unfold Writes.rowsOf OrdMap.get?
        rw [List.find?_eq_none.mpr]
        · rfl
        · intro x hx
          simpa using ne_of_gt (he x hx)
      have hsome : Writes.rowsOf ⟨e :: l, hel⟩ e.1 = e.2 := by
        simp [Writes.rowsOf, OrdMap.get?]
      rw [hnone, hsome, Function.update_self]
      rfl
    · have hsame : Writes.rowsOf ⟨e :: l, hel⟩ t = Writes.rowsOf ⟨l, hl⟩ t := by
        simp [Writes.rowsOf, OrdMap.get?, ht]
      rw [hsame, Function.update_of_ne (Ne.symm ht)]

lemma Writes.Valid.mem {w : Writes} (hw : w.Valid) {e : Table × StagedRows} (he : e ∈ w.entries) :
    e.1.validate = .ok () :=
  hw e.1 (by rw [OrdMap.mem_entries.mp he]; simp)

/-- The replay sets the staged rows over every table. -/
lemma runs_replay {w : Writes} (hw : w.Valid) (tx : τ) :
    ∃ tx', Prog.Runs (replay w) tx () tx' ∧ ∀ t, rows tx' t = (rows tx t).overlay (w.rowsOf t) := by
  have h : ∀ (l : List (Table × StagedRows)), (∀ e ∈ l, e.1.validate = .ok ()) → ∀ tx : τ, ∃ tx',
      Prog.Runs (l.foldlM (fun _ e => e.2.entries.foldlM (replayRow e.1) ()) ()) tx () tx' ∧
        rows tx' = l.foldl (fun r e => Function.update r e.1 ((r e.1).overlay e.2)) (rows tx) := by
    intro l
    induction l with
    | nil => exact fun _ tx => ⟨tx, Prog.Runs.pure () tx, rfl⟩
    | cons e l ih =>
      intro hv tx
      obtain ⟨tx₁, h1, hrows₁⟩ := runs_replayRows (hv e (List.mem_cons_self ..)) e.2.entries tx
      obtain ⟨tx', h2, hrows⟩ := ih (fun x hx => hv x (List.mem_cons_of_mem _ hx)) tx₁
      refine ⟨tx', by rw [List.foldlM_cons]; exact h1.bind h2, ?_⟩
      rw [hrows, hrows₁]
      rfl
  obtain ⟨tx', hrun, hrows⟩ := h w.entries (fun e he => hw.mem he) tx
  exact ⟨tx', hrun, fun t => by rw [hrows, foldl_staged w.entries w.sorted]⟩

/-- The tables after a publication: the staged rows over every table, and the new head. -/
def publishedRows (r : Table → Rows) (s : SealedCommit) (t : Table) : Rows :=
  if t = SUPERBLOCK then ((r t).overlay (s.writes.rowsOf t)).insert HEAD_KEY
    (Head.encode ⟨s.commitId, s.stateRoot, s.indexRoot⟩)
  else (r t).overlay (s.writes.rowsOf t)

/-- **Staging over the head the branch began at** sets the staged rows and the head. -/
theorem stage_runs {origin : CommitId} {s : SealedCommit} {tx : τ} (hhead : readHead tx = .ok origin)
    (hw : s.writes.Valid) :
    ∃ tx', Prog.Runs (stage origin s) tx () tx' ∧ rows tx' = publishedRows (rows tx) s := by
  obtain ⟨tx₁, h1, hrows₁⟩ := runs_replay hw tx
  obtain ⟨tx₂, h2, hrows₂⟩ := LawfulWrite.put_eq SUPERBLOCK_valid tx₁ HEAD_KEY
    (Head.encode ⟨s.commitId, s.stateRoot, s.indexRoot⟩)
  refine ⟨tx₂, ?_, ?_⟩
  · refine (Prog.Runs.read (a := origin) hhead).bind ?_
    rw [if_neg (fun h => h rfl)]
    exact h1.bind h2.mapError
  · funext t
    rw [hrows₂, publishedRows]
    by_cases ht : t = SUPERBLOCK
    · subst ht
      rw [Function.update_self, if_pos rfl, hrows₁]
    · rw [Function.update_of_ne ht, if_neg ht, hrows₁]

end Stage

end GolemDb.Branch
