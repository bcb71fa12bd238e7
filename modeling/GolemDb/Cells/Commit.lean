import GolemDb.Storage.Memory
import GolemDb.Cells.Apply
import GolemDb.Merkle.Reach

/-!
The Cell table under its trie. A state of cells is a table of rows and the branches of the tree that
commits to them (`Committed`). A batch over such a state performs its changes in order, reports the
cells that differ and returns the root of the new table; where a touched row disagrees with the
commitment it fails with `RootMismatch` and writes nothing (`apply_spec`). The digest alone gives
the root back (`reopen_eq`).
-/

namespace GolemDb.Cells

open GolemDb.Lib GolemDb.Storage GolemDb.Merkle

/-! ### The batch as a function of the cells -/

/-- The cells after the changes, in their order. -/
def perform (changes : List CellChange) (m : CellMap) : CellMap :=
  changes.foldl (fun m c => m.set c.toPair.1 c.toPair.2) m

lemma get?_perform (changes : List CellChange) (m : CellMap) (k : CellKey) :
    (perform changes m).get? k = (lastOf (changes.map CellChange.toPair) k).getD (m.get? k) := by
  rw [perform, ← get?_foldl_set_last, List.foldl_map]

/-- The net changes do what the changes do. -/
lemma overlay_netChanges (changes : List CellChange) (m : CellMap) :
    m.overlay (netChanges changes) = perform changes m := by
  refine OrdMap.ext_get fun k => ?_
  rw [OrdMap.get?_overlay, get?_perform, netChanges]
  have hnorm : (⟨normalizeChanges changes, normalize_sorted _⟩ : OrdMap CellKey (Option CellValue)).get? k
      = lastOf (changes.map CellChange.toPair) k := get?_normalize _ k
  rw [hnorm]

/-- **The cells that differ**, in key order, with their values before and after. -/
structure IsDiff (m m' : CellMap) (changed : List CellValueChange) : Prop where
  sorted : changed.Pairwise fun a b => a.key < b.key
  mem : ∀ c, c ∈ changed ↔ c.before = m.get? c.key ∧ c.after = m'.get? c.key ∧ c.before ≠ c.after

lemma IsDiff.unique {m m' : CellMap} {l l' : List CellValueChange} (h : IsDiff m m' l)
    (h' : IsDiff m m' l') : l = l' := by
  have hnodup : ∀ {l : List CellValueChange}, (l.Pairwise fun a b => a.key < b.key) → l.Nodup := fun hl =>
    hl.imp fun hab he => absurd (he ▸ hab) (lt_irrefl _)
  have hperm : l.Perm l' := (List.perm_ext_iff_of_nodup (hnodup h.sorted) (hnodup h'.sorted)).mpr fun c => by
    rw [h.mem, h'.mem]
  exact hperm.eq_of_pairwise (fun a b _ _ hab hba => absurd hab (lt_asymm hba)) h.sorted h'.sorted

lemma IsDiff.eq_nil {m : CellMap} {l : List CellValueChange} (h : IsDiff m m l) : l = [] :=
  List.eq_nil_iff_forall_not_mem.mpr fun c hc => by
    obtain ⟨hb, ha, hne⟩ := (h.mem c).mp hc
    exact hne (hb.trans ha.symm)

/-! ### Committed cells -/

section Committed

variable (H : HashProvider)

/-- The root of a map of cells. -/
def cellRoot (m : CellMap) : RootRef 32 := flatRoot (cellTrie H) CELL_LEAF_DOMAIN (cellRows m)

/-- What is hashed for a map of cells. -/
def cellPreimages (m : CellMap) : List Bytes := flatPreimages (cellTrie H) CELL_LEAF_DOMAIN (cellRows m)

/-- **The Cell table holds the cells and the branches of their tree.** -/
structure Committed (P : Set Bytes) (r : Table → Rows) (m : CellMap) : Prop where
  table : r CELL = cellRows m
  commits : Commits (cellTrie H) CELL_LEAF_DOMAIN P (r CELL_TRIE) (cellRows m)

variable {H} {P : Set Bytes} {m : CellMap}

lemma separates_cells (hinj : Set.InjOn H.hash P) : Separates (cellTrie H) CELL_LEAF_DOMAIN P :=
  ⟨CELL_TRIE_valid, hinj, by show (0x00 : UInt8) ≠ 0x01; decide⟩

lemma CELL_ne_CELL_TRIE : CELL ≠ CELL_TRIE := by decide

lemma leaf_eq (key : Bytes) (value : CellValue) :
    CellTrie.leaf H (H.hash key) value = ⟨H.hash key, leafHash H CELL_LEAF_DOMAIN key value.encode⟩ := by
  simp [CellTrie.leaf, HashProvider.hashParts, leafHash, leafPreimage]

/-- What the trie has under a key. -/
lemma get_commitment {ρ : Type} [ReadTransaction ρ] [LawfulRead ρ] {tx : ρ} (hinj : Set.InjOn H.hash P)
    (h : Committed H P (rows tx) m) {k : CellKey} (hk : k.encode ∈ P) :
    (cellTrie H).get tx (cellRoot H m) (H.hash k.encode)
      = .ok ((m.get? k).map (CellTrie.leaf H (H.hash k.encode))) := by
  have hget := (Trie.reads_refTree (T := cellTrie H) CELL_TRIE_valid h.commits.stored).1 (H.hash k.encode)
  rw [cellRoot, flatRoot]
  have hmap : (commitMap (cellTrie H).hasher CELL_LEAF_DOMAIN (cellRows m)).get? (H.hash k.encode)
      = ((cellRows m).get? k.encode).map (leafHash H CELL_LEAF_DOMAIN k.encode) :=
    get?_commitMap hinj (key_mem h.commits.preimages) hk
  refine hget.trans ?_
  rw [hmap, get?_cellRows, Option.map_map, Option.map_map]
  refine congrArg _ (congrArg (fun f => (m.get? k).map f) (funext fun v => ?_))
  exact (leaf_eq k.encode v).symm

/-- The row under a key is what the trie commits to. -/
lemma check_committed {ρ : Type} [ReadTransaction ρ] [LawfulRead ρ] {tx : ρ} (hinj : Set.InjOn H.hash P)
    (h : Committed H P (rows tx) m) {k : CellKey} (hk : k.encode ∈ P) :
    CellTrie.check H tx (cellRoot H m) k.encode (m.get? k) = .ok () := by
  unfold CellTrie.check
  simp only
  rw [get_commitment hinj h hk, mapError_ok, ok_bind, if_neg (not_not.mpr rfl)]

end Committed

/-! ### Batches over committed cells -/

section Apply

variable {H : HashProvider} {P : Set Bytes} {m : CellMap} {τ : Type} [WriteTransaction τ] [LawfulWrite τ] {tx : τ}

omit [LawfulWrite τ] in
/-- The loop of the checks succeeds where every check does, and lists the changes. -/
lemma checks_run (root : RootRef 32) : ∀ (l : List (CellKey × Option CellValue)) (acc : List (Bytes × CellValueChange)),
    (∀ c ∈ l, ∃ before, readValue tx c.1.encode = .ok before ∧ CellTrie.check H tx root c.1.encode before = .ok ()) →
    Prog.Runs (l.foldlM (checkNext H root) acc) tx (acc ++ l.filterMap (changeAt tx)) tx := by
  intro l
  induction l with
  | nil =>
    intro acc _
    rw [List.filterMap_nil, List.append_nil]
    exact Prog.Runs.pure acc tx
  | cons c l ih =>
    intro acc h
    obtain ⟨before, hread, hcheck⟩ := h c (List.mem_cons_self ..)
    have hchange : checkChange H tx root c.1 c.2 = .ok (changeAt tx c) := by
      unfold checkChange changeAt
      rw [hread, ok_bind, hcheck]
      rfl
    have hrest := fun acc => ih acc fun x hx => h x (List.mem_cons_of_mem _ hx)
    rw [List.foldlM_cons]
    have hstep : Prog.Runs (checkNext H root acc c) tx (acc ++ (changeAt tx c).toList) tx := by
      refine Prog.Runs.bind (Prog.Runs.read hchange) ?_
      cases changeAt tx c with
      | none =>
        rw [Option.toList_none, List.append_nil]
        exact Prog.Runs.pure acc tx
      | some x => exact Prog.Runs.pure _ tx
    refine hstep.bind ?_
    have htail := hrest (acc ++ (changeAt tx c).toList)
    rw [List.filterMap_cons]
    rw [List.append_assoc] at htail
    cases hc : changeAt tx c with
    | none => simpa [hc] using htail
    | some x => simpa [hc] using htail

/-- The change of a key against its cell. -/
lemma changeAt_eq (h : rows tx CELL = cellRows m) (c : CellKey × Option CellValue) :
    changeAt tx c = if m.get? c.1 ≠ c.2 then some (c.1.encode, ⟨c.1, m.get? c.1, c.2⟩) else none := by
  rw [changeAt, readValue_cellRows h]

/-- **The changes a batch reports are the cells that differ.** -/
lemma isDiff_changes (h : rows tx CELL = cellRows m) (changes : List CellChange) :
    IsDiff m (perform changes m) (((netChanges changes).entries.filterMap (changeAt tx)).map Prod.snd) := by
  have hmem : ∀ x, x ∈ ((netChanges changes).entries.filterMap (changeAt tx)).map Prod.snd ↔
      ∃ k v, lastOf (changes.map CellChange.toPair) k = some v ∧ m.get? k ≠ v ∧ x = ⟨k, m.get? k, v⟩ := by
    intro x
    rw [List.mem_map]
    constructor
    · rintro ⟨y, hy, rfl⟩
      obtain ⟨⟨k, v⟩, hin, hat⟩ := List.mem_filterMap.mp hy
      rw [changeAt_eq h] at hat
      split_ifs at hat with hne
      obtain rfl := Option.some.inj hat
      exact ⟨k, v, mem_normalize.mp hin, hne, rfl⟩
    · rintro ⟨k, v, hlast, hne, rfl⟩
      refine ⟨(k.encode, ⟨k, m.get? k, v⟩), List.mem_filterMap.mpr ⟨(k, v), mem_normalize.mpr hlast, ?_⟩, rfl⟩
      rw [changeAt_eq h]
      exact if_pos hne
  refine ⟨?_, fun x => ?_⟩
  · rw [List.pairwise_map, List.pairwise_filterMap]
    refine (netChanges changes).sorted.imp fun {a b} hab x hx y hy => ?_
    rw [changeAt_eq h] at hx hy
    split_ifs at hx hy
    obtain rfl := Option.some.inj hx
    obtain rfl := Option.some.inj hy
    exact hab
  · rw [hmem]
    constructor
    · rintro ⟨k, v, hlast, hne, rfl⟩
      exact ⟨rfl, by rw [get?_perform, hlast]; rfl, hne⟩
    · rintro ⟨hb, ha, hne⟩
      rw [get?_perform] at ha
      cases hlast : lastOf (changes.map CellChange.toPair) x.key with
      | none =>
        rw [hlast] at ha
        exact absurd (hb.trans ha.symm) hne
      | some v =>
        rw [hlast] at ha
        obtain ⟨key, before, after⟩ := x
        simp only at ha hb hlast hne
        obtain rfl : after = v := ha
        exact ⟨key, after, hlast, hb ▸ hne, by rw [hb]⟩

/-- The rows of the changes lead from table to table. -/
lemma foldl_changes (h : rows tx CELL = cellRows m) (changes : List CellChange) :
    (((netChanges changes).entries.filterMap (changeAt tx)).map fun c => (c.1, c.2.after.map CellValue.encode)).foldl
      (fun F c => F.set c.1 c.2) (cellRows m) = cellRows (perform changes m) := by
  have hread : ∀ c ∈ (netChanges changes).entries, ∃ before, readValue tx c.1.encode = .ok before :=
    fun c _ => ⟨_, readValue_cellRows h c.1⟩
  rw [changes_eq hread, ← overlay_netChanges, ← overlay_cellRows, h]
  refine OrdMap.foldl_set_filter _ _ (stagedCells (netChanges changes)).sorted _ fun e _ hp => ?_
  simpa using hp

/-- **What a batch leads to.** -/
structure Applied (H : HashProvider) (P : Set Bytes) (tx tx' : τ) (m m' : CellMap) (u : CellsUpdate) : Prop where
  root : u.root = cellRoot H m'
  changed : IsDiff m m' u.changedCells
  committed : Committed H P (rows tx') m'
  frame : ∀ t, t ≠ CELL → t ≠ CELL_TRIE → rows tx' t = rows tx t
  still : m' = m → tx' = tx
  grown : (cellTrie H).RowsGrow (refTree (commitMap H CELL_LEAF_DOMAIN (cellRows m'))) (rows tx CELL_TRIE)
    (rows tx' CELL_TRIE)

theorem apply_committed (hinj : Set.InjOn H.hash P) (h : Committed H P (rows tx) m) {changes : List CellChange}
    (hkeys : ∀ c ∈ changes, c.toPair.1.encode ∈ P) (hP : ∀ x ∈ cellPreimages H (perform changes m), x ∈ P) :
    ∃ u tx', Prog.Runs (apply H (cellRoot H m) changes) tx u tx' ∧ Applied H P tx tx' m (perform changes m) u := by
  have hlast : ∀ c ∈ (netChanges changes).entries, c.1.encode ∈ P := by
    intro c hc
    have hmem := mem_of_lastOf (mem_normalize.mp hc)
    obtain ⟨change, hchange, hpair⟩ := List.mem_map.mp hmem
    have := hkeys change hchange
    rwa [hpair] at this
  have hchecks := checks_run (H := H) (cellRoot H m) (netChanges changes).entries [] fun c hc =>
    ⟨_, readValue_cellRows h.table c.1, check_committed hinj h (hlast c hc)⟩
  have hdiff := isDiff_changes h.table changes
  have hfold := foldl_changes h.table changes
  rw [List.nil_append] at hchecks
  obtain ⟨checked, hchecked⟩ : ∃ l, l = (netChanges changes).entries.filterMap (changeAt tx) := ⟨_, rfl⟩
  rw [← hchecked] at hchecks hdiff hfold
  have hedits : (checked.map fun c => (c.1, c.2.after)).map (fun c =>
        (H.hash c.1, c.2.map fun value => (CellTrie.leaf H (H.hash c.1) value).hash))
      = (checked.map fun c => (c.1, c.2.after.map CellValue.encode)).map fun c =>
        ((cellTrie H).hasher.hash c.1, c.2.map (leafHash (cellTrie H).hasher CELL_LEAF_DOMAIN c.1)) := by
    rw [List.map_map, List.map_map]
    refine List.map_congr_left fun c _ => Prod.ext rfl ?_
    simp only [Function.comp_apply, Option.map_map]
    exact congrArg (fun f => c.2.after.map f) (funext fun v => by rw [leaf_eq]; rfl)
  have hmem : ∀ c ∈ checked.map fun c => (c.1, c.2.after.map CellValue.encode), c.1 ∈ P := by
    intro c hc
    obtain ⟨x, hx, rfl⟩ := List.mem_map.mp hc
    rw [hchecked] at hx
    obtain ⟨e, he, hat⟩ := List.mem_filterMap.mp hx
    rw [changeAt_eq h.table] at hat
    split_ifs at hat
    obtain rfl := Option.some.inj hat
    exact hlast e he
  obtain ⟨tx₁, hset, hcommits, hgrows⟩ := h.commits.apply (separates_cells hinj) hfold hmem hP
  have hframe := hgrows.frame
  have hrunSet : Prog.Runs (CellTrie.set H (cellRoot H m) (checked.map fun c => (c.1, c.2.after))) tx
      (cellRoot H (perform changes m)) tx₁ := by
    unfold CellTrie.set
    simp only
    rw [hedits]
    exact hset.mapError
  obtain ⟨tx₂, hwrite, hrows⟩ := runs_writeValues checked tx₁
  have hrun :
      Prog.Runs (apply H (cellRoot H m) changes) tx ⟨cellRoot H (perform changes m), checked.map Prod.snd⟩ tx₂ :=
    hchecks.bind (hrunSet.bind (hwrite.bind (Prog.Runs.pure _ tx₂)))
  refine ⟨_, tx₂, hrun, rfl, hdiff, ⟨?_, ?_⟩, fun t ht ht' => ?_, fun hsame => ?_, ?_⟩
  · rw [hrows, Function.update_self, hframe CELL CELL_ne_CELL_TRIE, h.table, hfold]
  · rw [hrows, Function.update_of_ne (by decide)]
    exact hcommits
  · rw [hrows, Function.update_of_ne ht, hframe t ht']
  · -- nothing differs: the trie is read and no row is written
    rw [hsame] at hdiff hrunSet
    have hnil : checked = [] := List.map_eq_nil_iff.mp hdiff.eq_nil
    rw [hnil] at hrunSet hwrite
    have hkeep : Prog.Runs (CellTrie.set H (cellRoot H m) []) tx (cellRoot H m) tx :=
      (Trie.apply_nil (T := cellTrie H) CELL_TRIE_valid h.commits.stored).mapError
    obtain ⟨-, rfl⟩ := hkeep.unique hrunSet
    exact (Prog.runs_pure_iff.mp hwrite).2
  · rw [hrows, Function.update_of_ne (by decide)]
    exact hgrows.rowsGrow

/-! ### Batches over tables that disagree -/

omit [LawfulWrite τ] in
/-- The loop of the checks fails at the first key whose row and commitment disagree. -/
lemma checks_mismatch (root : RootRef 32) :
    ∀ (l : List (CellKey × Option CellValue)) (acc : List (Bytes × CellValueChange)),
    (∀ c ∈ l, ∃ before found, readValue tx c.1.encode = .ok before ∧
      (cellTrie H).get tx root (H.hash c.1.encode) = .ok found) →
    (∃ c ∈ l, ∃ before found, readValue tx c.1.encode = .ok before ∧
      (cellTrie H).get tx root (H.hash c.1.encode) = .ok found ∧
        found ≠ before.map (CellTrie.leaf H (H.hash c.1.encode))) →
    (l.foldlM (checkNext H root) acc).exec tx = (.error .rootMismatch, tx) := by
  intro l
  induction l with
  | nil => exact fun _ _ ⟨c, hc, _⟩ => absurd hc (by simp)
  | cons c l ih =>
    intro acc hread hdis
    obtain ⟨before, found, hbefore, hfound⟩ := hread c (List.mem_cons_self ..)
    have hcheck : checkChange H tx root c.1 c.2
        = if found ≠ before.map (CellTrie.leaf H (H.hash c.1.encode))
          then .error .rootMismatch else .ok (changeAt tx c) := by
      unfold checkChange CellTrie.check changeAt
      simp only [hbefore, ok_bind, hfound, mapError_ok]
      split_ifs <;> rfl
    rw [List.foldlM_cons, Prog.exec_bind]
    by_cases hne : found ≠ before.map (CellTrie.leaf H (H.hash c.1.encode))
    · rw [if_pos hne] at hcheck
      have hfail : (checkNext H root acc c).exec tx = (.error .rootMismatch, tx) := by
        unfold checkNext
        have hexec : (Prog.read fun tx : τ => checkChange H tx root c.1 c.2).exec tx = (.error .rootMismatch, tx) :=
          Prod.ext hcheck rfl
        rw [Prog.exec_bind, hexec]
      rw [hfail]
    · rw [if_neg hne] at hcheck
      have hpass : ∃ acc', Prog.Runs (checkNext H root acc c) tx acc' tx := by
        cases hat : changeAt tx c with
        | none =>
          rw [hat] at hcheck
          exact ⟨acc, Prog.Runs.bind (Prog.Runs.read (f := fun tx => checkChange H tx root c.1 c.2) hcheck)
            (Prog.Runs.pure acc tx)⟩
        | some x =>
          rw [hat] at hcheck
          exact ⟨_, Prog.Runs.bind (Prog.Runs.read (f := fun tx => checkChange H tx root c.1 c.2) hcheck)
            (Prog.Runs.pure _ tx)⟩
      obtain ⟨acc', hpass⟩ := hpass
      have hpass' : (checkNext H root acc c).exec tx = (.ok acc', tx) := hpass
      rw [hpass']
      refine ih acc' (fun x hx => hread x (List.mem_cons_of_mem _ hx)) ?_
      obtain ⟨x, hx, before', found', hb, hf, hne'⟩ := hdis
      rcases List.mem_cons.mp hx with rfl | hx
      · rw [hbefore] at hb
        rw [hfound] at hf
        obtain rfl := Except.ok.inj hb
        obtain rfl := Except.ok.inj hf
        exact absurd hne' hne
      · exact ⟨x, hx, before', found', hb, hf, hne'⟩

/-- The row and the commitment of a key, where both can be read. -/
def Reads (H : HashProvider) (tx : τ) (root : RootRef 32) (k : CellKey) (before : Option CellValue)
    (found : Option (LeafRef 32)) : Prop :=
  readValue tx k.encode = .ok before ∧ (cellTrie H).get tx root (H.hash k.encode) = .ok found

omit [LawfulWrite τ] in
/-- **A batch over a key whose row and commitment disagree** fails and writes nothing, also where the
change is none. -/
theorem apply_mismatch {root : RootRef 32} {changes : List CellChange}
    (hread : ∀ c ∈ changes, ∃ before found, Reads H tx root c.toPair.1 before found)
    (hdis : ∃ c ∈ changes, ∃ before found, Reads H tx root c.toPair.1 before found ∧
      found ≠ before.map (CellTrie.leaf H (H.hash c.toPair.1.encode))) :
    (apply H root changes).exec tx = (.error .rootMismatch, tx) := by
  have hfail : ((normalizeChanges changes).foldlM (checkNext H root) []).exec tx = (.error .rootMismatch, tx) :=
    checks_mismatch root (normalizeChanges changes) [] (fun c hc => ?_) ?_
  · unfold apply
    rw [Prog.exec_bind, hfail]
  · obtain ⟨change, hchange, hpair⟩ := List.mem_map.mp (mem_of_lastOf (mem_normalize.mp hc))
    obtain ⟨before, found, hb, hf⟩ := hread change hchange
    rw [hpair] at hb hf
    exact ⟨before, found, hb, hf⟩
  · obtain ⟨change, hchange, before, found, ⟨hb, hf⟩, hne⟩ := hdis
    cases hlast : lastOf (changes.map CellChange.toPair) change.toPair.1 with
    | none => exact absurd rfl (lastOf_eq_none.mp hlast change.toPair (List.mem_map_of_mem hchange))
    | some v => exact ⟨(change.toPair.1, v), mem_normalize.mpr hlast, before, found, hb, hf, hne⟩

end Apply

/-- **The specification of a batch.** Over committed cells it succeeds: the cells are those after
the changes in their order, the report lists those that differ, the root is that of the new table,
and where nothing differs nothing is written. Where a touched row and the commitment disagree it
fails with `RootMismatch` and writes nothing. -/
theorem apply_spec {H : HashProvider} {P : Set Bytes} (hinj : Set.InjOn H.hash P) {τ : Type} [WriteTransaction τ]
    [LawfulWrite τ] {tx : τ} {m : CellMap} (h : Committed H P (rows tx) m) {changes : List CellChange}
    (hkeys : ∀ c ∈ changes, c.toPair.1.encode ∈ P) (hP : ∀ x ∈ cellPreimages H (perform changes m), x ∈ P) :
    (∃ u tx', Prog.Runs (apply H (cellRoot H m) changes) tx u tx' ∧ Applied H P tx tx' m (perform changes m) u) ∧
    ∀ (tx₁ : τ) (root : RootRef 32) (changes₁ : List CellChange),
      (∀ c ∈ changes₁, ∃ before found, Reads H tx₁ root c.toPair.1 before found) →
      (∃ c ∈ changes₁, ∃ before found, Reads H tx₁ root c.toPair.1 before found ∧
        found ≠ before.map (CellTrie.leaf H (H.hash c.toPair.1.encode))) →
      (apply H root changes₁).exec tx₁ = (.error .rootMismatch, tx₁) :=
  ⟨apply_committed hinj h hkeys hP, fun _ _ _ => apply_mismatch⟩

def batchKey : CellKey := ⟨64, ascii "a"⟩

/-- Three changes of one cell. -/
def batchChanges : List CellChange := [.put batchKey (.fromU64 1), .delete batchKey, .put batchKey (.fromU64 2)]

/-- A table with the cell, under an empty trie. -/
def batchForeign : MemoryWriteTransaction :=
  ⟨OrdMap.empty.insert CELL (cellRows (perform batchChanges OrdMap.empty))⟩

theorem apply_spec_demo :
    (∃ u tx', Prog.Runs (apply Trie.polyHash .empty batchChanges) (⟨OrdMap.empty⟩ : MemoryWriteTransaction) u tx' ∧
      u.root = cellRoot Trie.polyHash (perform batchChanges OrdMap.empty) ∧
      rows tx' CELL = cellRows (perform batchChanges OrdMap.empty)) ∧
    (apply Trie.polyHash .empty [.put batchKey (.fromU64 2)]).exec batchForeign
      = (.error .rootMismatch, batchForeign) := by
  have hlist : ∀ a ∈ batchKey.encode :: cellPreimages Trie.polyHash (perform batchChanges OrdMap.empty),
      ∀ b ∈ batchKey.encode :: cellPreimages Trie.polyHash (perform batchChanges OrdMap.empty),
        Trie.polyHash.hash a = Trie.polyHash.hash b → a = b := by decide +kernel
  have hinj : Set.InjOn Trie.polyHash.hash
      {x | x ∈ batchKey.encode :: cellPreimages Trie.polyHash (perform batchChanges OrdMap.empty)} :=
    fun a ha b hb => hlist a ha b hb
  have hstart : Committed Trie.polyHash
      {x | x ∈ batchKey.encode :: cellPreimages Trie.polyHash (perform batchChanges OrdMap.empty)}
      (rows (⟨OrdMap.empty⟩ : MemoryWriteTransaction)) OrdMap.empty :=
    ⟨rfl, commits_empty (List.mem_cons_of_mem _ (List.mem_cons_self ..))⟩
  have hread : Reads Trie.polyHash batchForeign .empty batchKey (some (.fromU64 2)) none :=
    ⟨by decide +kernel, rfl⟩
  obtain ⟨⟨u, tx', hrun, hu⟩, hmismatch⟩ := @apply_spec _ _ hinj _ _ _ _ _ hstart batchChanges
    (fun c hc => by
      have hkey : c.toPair.1 = batchKey := by
        simp only [batchChanges, List.mem_cons, List.not_mem_nil, or_false] at hc
        rcases hc with rfl | rfl | rfl <;> rfl
      rw [hkey]
      exact List.mem_cons_self ..)
    fun x hx => List.mem_cons_of_mem _ hx
  refine ⟨⟨u, tx', hrun, hu.root, hu.committed.table⟩, hmismatch batchForeign .empty [.put batchKey (.fromU64 2)] ?_ ?_⟩
  · intro c hc
    obtain rfl := List.mem_singleton.mp hc
    exact ⟨_, _, hread⟩
  · exact ⟨_, List.mem_singleton_self _, _, _, hread, nofun⟩

/-! ### Roots from digests -/

section Reopen

variable {ρ : Type} [ReadTransaction ρ] [LawfulCursor ρ] {tx : ρ}

lemma rowNext_start (r : Rows) : rowNext r (.key []) = r.entries.head? := by
  unfold rowNext OrdMap.firstGe
  cases r.entries with
  | nil => rfl
  | cons e l => exact List.find?_cons_of_pos (decide_eq_true (not_lt.mp (List.not_lt_nil _)))

/-- The first move of a cursor over a table. -/
lemma cursor_first (tx : ρ) {t : Table} (ht : t.validate = .ok ()) : ∃ c c' : ReadTransaction.Cursor ρ,
    ReadTransaction.cursor tx t [] = .ok c ∧ cursorNext c = .ok ((rows tx t).entries.head?, c') ∧
      LawfulCursor.At c' (rows tx t) (settle (rows tx t).entries.head? .after) := by
  obtain ⟨c, hc, hat⟩ := LawfulCursor.cursor_eq ht tx []
  obtain ⟨c', hnext, hat'⟩ := LawfulCursor.next_eq hat
  rw [rowNext_start] at hnext hat'
  have hexec : ReadCursor.next.exec c = (.ok (rows tx t).entries.head?, c') := hnext
  exact ⟨c, c', hc, by rw [cursorNext, hexec], hat'⟩

/-- The second move over a table of one row. -/
lemma cursor_second {t : Table} {e : Entry} (he : (rows tx t).entries = [e]) {c : ReadTransaction.Cursor ρ}
    (h : LawfulCursor.At c (rows tx t) (.at e.1)) : ∃ c', cursorNext c = .ok (none, c') := by
  obtain ⟨c', hnext, -⟩ := LawfulCursor.next_eq h
  have hnone : rowNext (rows tx t) (.at e.1) = none := by
    simp [rowNext, OrdMap.firstGt, he]
  rw [hnone] at hnext
  have hexec : ReadCursor.next.exec c = (.ok none, c') := hnext
  exact ⟨c', by rw [cursorNext, hexec]⟩

variable {H : HashProvider} {P : Set Bytes} {m : CellMap}

lemma reopen_empty (h : (rows tx CELL).entries = []) : reopen H tx (H.hash []) = .ok .empty := by
  obtain ⟨c, c', hcursor, hfirst, -⟩ := cursor_first tx CELL_valid
  rw [h] at hfirst
  unfold reopen CellTrie.reopen
  rw [if_pos rfl, hcursor, mapError_ok, ok_bind, hfirst, mapError_ok, ok_bind]
  rfl

lemma reopen_leaf {key : CellKey} {value : CellValue} (h : (rows tx CELL).entries = [(key.encode, value.encode)])
    (hne : leafHash H CELL_LEAF_DOMAIN key.encode value.encode ≠ H.hash [])
    (hnone : (rows tx CELL_TRIE).get? (leafHash H CELL_LEAF_DOMAIN key.encode value.encode).1 = none) :
    reopen H tx (leafHash H CELL_LEAF_DOMAIN key.encode value.encode)
      = .ok (.leaf ⟨H.hash key.encode, leafHash H CELL_LEAF_DOMAIN key.encode value.encode⟩) := by
  obtain ⟨c, c', hcursor, hfirst, hat⟩ := cursor_first tx CELL_valid
  rw [h, List.head?_cons] at hfirst hat
  obtain ⟨c'', hsecond⟩ := cursor_second h hat
  unfold reopen CellTrie.reopen
  rw [if_neg hne, LawfulRead.get_eq CELL_TRIE_valid, hnone, mapError_ok, ok_bind]
  simp only
  unfold CellTrie.reopenSingleton
  rw [hcursor, mapError_ok, ok_bind, hfirst, mapError_ok, ok_bind]
  simp only [hsecond, mapError_ok, ok_bind, Option.isSome_none, Bool.false_eq_true, if_false, CellKey.decode_encode,
    CellValue.parse_encode, leaf_eq, ne_eq, not_true_eq_false]
  rfl

lemma reopen_branch {hash : Hash} {bytes : Bytes} (hne : hash ≠ H.hash [])
    (hrow : (rows tx CELL_TRIE).get? hash.1 = some bytes)
    (hvalid : (cellTrie H).validateRoot tx (.branch hash) = .ok ()) : reopen H tx hash = .ok (.branch hash) := by
  unfold reopen CellTrie.reopen
  rw [if_neg hne, LawfulRead.get_eq CELL_TRIE_valid, hrow, mapError_ok, ok_bind]
  simp only [hvalid, mapError_ok, ok_bind]
  rfl

/-- **A root is recovered from its digest.** -/
theorem reopen_eq (hinj : Set.InjOn H.hash P) (h : Committed H P (rows tx) m) :
    reopen H tx ((cellRoot H m).hash H) = .ok (cellRoot H m) := by
  have hkind : RootKind (cellTrie H) CELL_LEAF_DOMAIN (rows tx CELL_TRIE) (cellRows m) (cellRoot H m) :=
    h.commits.kind (separates_cells hinj)
  generalize cellRoot H m = root at hkind
  cases hkind with
  | empty hrows => exact reopen_empty (h.table ▸ hrows)
  | leaf k v hrows hne hnone =>
    obtain ⟨⟨key, value⟩, -, hkv⟩ := List.map_eq_singleton_iff.mp hrows
    obtain ⟨rfl, rfl⟩ := Prod.mk.inj hkv
    exact reopen_leaf (h.table ▸ hrows) hne hnone
  | branch hash bytes hne hrow hvalid => exact reopen_branch hne hrow (hvalid ρ tx rfl)

end Reopen

end GolemDb.Cells
