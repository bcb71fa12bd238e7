import GolemDb.Branch.Admission
import GolemDb.Branch.Attributes

/-!
Sealing a committed state. A state is a map of cells and its index, each in its tables under the
trie that commits to it (`Holds`). A seal over such a state succeeds: its roots and its reports are
those of the map that the branch shows with the roots of the head, and the staged rows lead to
tables that hold this map (`compute_holds`).
-/

namespace GolemDb.Branch

open GolemDb.Lib GolemDb.Storage GolemDb.Merkle GolemDb.Cells GolemDb.Index

/-! ### States -/

section States

variable (H : HashProvider) (R : Roaring)

/-- What is hashed for a state. -/
def statePreimages (m : CellMap) : List Bytes := cellPreimages H m ++ indexPreimages H R (cellPostings m)

/-- **The head over a map of cells.** -/
def headOf (c : CommitId) (m : CellMap) : Head :=
  ⟨c, (cellRoot H m).hash H, (indexRoot H R (cellPostings m)).hash H⟩

/-- **The tables hold a map of cells and its index.** -/
structure Holds (P : Set Bytes) (r : Table → Rows) (m : CellMap) : Prop where
  cells : Committed H P r m
  index : Represents H R (cellPostings m) P r

/-- Every attribute has a user name. -/
def Named (m : CellMap) : Prop := ∀ k v, m.get? k = some v → v.indexable = true → UserName k.name

/-- **The tries grew by a state**: no branch or container is gone, and the new ones belong to it. -/
structure Gained (m : CellMap) (r r' : Table → Rows) : Prop where
  cells : (cellTrie H).RowsGrow (refTree (commitMap H CELL_LEAF_DOMAIN (cellRows m))) (r CELL_TRIE) (r' CELL_TRIE)
  index : (indexTrie H).RowsGrow (refTree (commitMap H INDEX_LEAF_DOMAIN (termRows (digests H R (cellPostings m)))))
    (r INDEX_TRIE) (r' INDEX_TRIE)
  sets : SetsGrow H R (cellPostings m) r r'

variable {H R} {P : Set Bytes} {r r' : Table → Rows} {m m' : CellMap}

/-- Only the tables of a seal matter. -/
lemma Holds.congr (h : Holds H R P r m) (hr : ∀ t ∈ sealTables, r' t = r t) : Holds H R P r' m := by
  have hcell := hr CELL (by simp [sealTables])
  have hcells := hr CELL_TRIE (by simp [sealTables])
  refine ⟨⟨hcell.trans h.cells.table, hcells ▸ h.cells.commits⟩, h.index.congr fun t ht => hr t ?_⟩
  rcases ht with rfl | rfl | rfl | rfl <;> simp [sealTables]

/-- The term of an attribute is hashed for its state. -/
lemma term_mem (hP : ∀ x ∈ statePreimages H R m, x ∈ P) {k : CellKey} {v : CellValue} {t : IndexTerm}
    (hk : m.get? k = some v) (ht : attributeTerm k v = some t) : t.bytes ∈ P := by
  have hmem : k.recordId ∈ (cellPostings m).ids t := mem_cellPostings.mpr ⟨k, v, hk, rfl, ht⟩
  have hne : (cellPostings m).ids t ≠ OrdMap.empty := fun he => OrdSet.not_mem_empty k.recordId (he ▸ hmem)
  have hrow : (termRows (digests H R (cellPostings m))).get? t.bytes
      = some ((setRoot H R ((cellPostings m).ids t)).hash H).1 := by
    rw [get?_termRows, get?_digests, setDigest, if_neg hne]
    rfl
  have hflat : ∀ x ∈ flatPreimages (indexTrie H) INDEX_LEAF_DOMAIN (termRows (digests H R (cellPostings m))), x ∈ P :=
    fun x hx => hP x (List.mem_append_right _ (List.mem_append_left _ hx))
  exact key_mem hflat _ (OrdMap.mem_entries.mpr hrow)

lemma key_encode_mem (hP : ∀ x ∈ statePreimages H R m, x ∈ P) {k : CellKey} {v : CellValue} (hk : m.get? k = some v) :
    k.encode ∈ P := by
  have hrow : (cellRows m).get? k.encode = some v.encode := by
    rw [get?_cellRows, hk]
    rfl
  have hflat : ∀ x ∈ flatPreimages (cellTrie H) CELL_LEAF_DOMAIN (cellRows m), x ∈ P :=
    fun x hx => hP x (List.mem_append_left _ hx)
  exact key_mem hflat _ (OrdMap.mem_entries.mpr hrow)

lemma Holds.preimages (h : Holds H R P r m) : ∀ x ∈ statePreimages H R m, x ∈ P := by
  intro x hx
  rcases List.mem_append.mp hx with hx | hx
  · exact h.cells.commits.preimages x hx
  · rcases List.mem_append.mp hx with hx | hx
    · exact h.index.commits.preimages x hx
    · obtain ⟨e, he, hx⟩ := List.mem_flatMap.mp hx
      have hids : (cellPostings m).ids e.1 = e.2 := by
        rw [Postings.ids, OrdMap.mem_entries.mp he, Option.getD_some]
      exact (h.index.held e.1).preimages x (hids ▸ hx)

end States

/-! ### The postings of changed cells -/

/-- Where every attribute has a user name the changed cells have postings, under their own terms. -/
lemma postingsOf_named {m m' : CellMap} {changed : List CellValueChange} (hm : Named m) (hm' : Named m')
    (hdiff : ∀ c ∈ changed, c.before = m.get? c.key ∧ c.after = m'.get? c.key) :
    ∃ ps, postingsOf changed = .ok ps ∧ ∀ p ∈ ps, ∃ k v, (m.get? k = some v ∨ m'.get? k = some v) ∧
      attributeTerm k v = some p.term := by
  have hterm : ∀ {m : CellMap}, Named m → ∀ k, term k (m.get? k) = .ok ((m.get? k).bind (attributeTerm k)) := by
    intro m hm k
    cases hv : m.get? k with
    | none => rfl
    | some v => exact term_userName (hm k v hv)
  suffices ∀ acc : List PostingChange, ∃ ps, changed.foldlM (fun acc change => do
        let postings ← postingsOfChange change
        return acc ++ postings) acc = Except.ok (ε := BranchError) (acc ++ ps) ∧ ∀ p ∈ ps, ∃ k v,
          (m.get? k = some v ∨ m'.get? k = some v) ∧ attributeTerm k v = some p.term by
    obtain ⟨ps, hps, hall⟩ := this []
    exact ⟨ps, hps, hall⟩
  induction changed with
  | nil => exact fun acc => ⟨[], by rw [List.append_nil]; rfl, List.forall_mem_nil _⟩
  | cons c changed ih =>
    intro acc
    obtain ⟨hb, ha⟩ := hdiff c (List.mem_cons_self ..)
    obtain ⟨qs, hqs, hq⟩ : ∃ qs, postingsOfChange c = .ok qs ∧ ∀ p ∈ qs, ∃ k v,
        (m.get? k = some v ∨ m'.get? k = some v) ∧ attributeTerm k v = some p.term := by
      unfold postingsOfChange
      rw [hb, ha, hterm hm, hterm hm', ok_bind, ok_bind]
      split_ifs with hsame
      · exact ⟨[], rfl, List.forall_mem_nil _⟩
      · refine ⟨_, rfl, fun p hp => ?_⟩
        rcases List.mem_append.mp hp with hp | hp
        · obtain ⟨t, ht, rfl⟩ := Option.map_eq_some_iff.mp (Option.mem_toList.mp hp)
          obtain ⟨v, hv, ht⟩ := Option.bind_eq_some_iff.mp ht
          exact ⟨c.key, v, .inl hv, ht⟩
        · obtain ⟨t, ht, rfl⟩ := Option.map_eq_some_iff.mp (Option.mem_toList.mp hp)
          obtain ⟨v, hv, ht⟩ := Option.bind_eq_some_iff.mp ht
          exact ⟨c.key, v, .inr hv, ht⟩
    obtain ⟨ps, hps, hp⟩ := ih (fun x hx => hdiff x (List.mem_cons_of_mem _ hx)) (acc ++ qs)
    refine ⟨qs ++ ps, ?_, fun p h => (List.mem_append.mp h).elim (hq p) (hp p)⟩
    rw [List.foldlM_cons, hqs, ok_bind, ← List.append_assoc]
    exact hps

/-- The cells that differ lead from map to map. -/
lemma foldl_isDiff {m m' : CellMap} {changed : List CellValueChange} (h : IsDiff m m' changed) :
    changed.foldl (fun m c => m.set c.key c.after) m = m' := by
  have hsorted : (changed.map fun c => (c.key, c.after)).Pairwise fun a b => a.1 < b.1 := List.pairwise_map.mpr h.sorted
  have hmap : changed.foldl (fun m c => m.set c.key c.after) m
      = (changed.map fun c => (c.key, c.after)).foldl (fun m e => m.set e.1 e.2) m := by rw [List.foldl_map]
  refine OrdMap.ext_get fun k => ?_
  rw [hmap, get?_foldl_set_last]
  by_cases hne : m.get? k = m'.get? k
  · have hnone : lastOf (changed.map fun c => (c.key, c.after)) k = none := lastOf_eq_none.mpr fun e he hk => by
      obtain ⟨c, hc, rfl⟩ := List.mem_map.mp he
      obtain ⟨hb, ha, hdiff⟩ := (h.mem c).mp hc
      rw [show c.key = k from hk] at hb ha
      exact hdiff (by rw [hb, ha, hne])
    rw [hnone, Option.getD_none, hne]
  · have hmem : (k, m'.get? k) ∈ changed.map fun c => (c.key, c.after) :=
      List.mem_map.mpr ⟨⟨k, m.get? k, m'.get? k⟩, (h.mem _).mpr ⟨rfl, rfl, hne⟩, rfl⟩
    rw [(lastOf_of_sorted hsorted).mpr hmem, Option.getD_some]

/-! ### Staging the updates -/

section Stage

variable {H : HashProvider} {R : Roaring} {P : Set Bytes} {ρ : Type} [ReadTransaction ρ] [LawfulRead ρ]
  {tx : Buffered ρ} {m m' : CellMap}

/-- **What a seal has staged**: the roots, the reports and the tables of the new map. -/
structure StagedTo (H : HashProvider) (R : Roaring) (P : Set Bytes) (m m' : CellMap) (cells : CellsUpdate)
    (index : IndexUpdate) (r r' : Table → Rows) : Prop where
  cellRoot : cells.root = cellRoot H m'
  indexRoot : index.root = indexRoot H R (cellPostings m')
  changedCells : IsDiff m m' cells.changedCells
  changedTerms : IsTermDiff H R (cellPostings m) (cellPostings m') index.changedTerms
  holds : Holds H R P r' m'
  gained : Gained H R m' r r'

/-- **The updates of a batch over a state.** -/
theorem stageUpdates_holds (hinj : Set.InjOn H.hash P) (h : Holds H R P (rows tx) m) {changes : List CellChange}
    (hkeys : ∀ c ∈ changes, c.toPair.1.encode ∈ P) (hm : Named m) (hm' : Named m') (hafter : perform changes m = m')
    (hP : ∀ x ∈ statePreimages H R m', x ∈ P) :
    ∃ cells index tx', Prog.Runs (stageUpdates H R (cellRoot H m) (indexRoot H R (cellPostings m)) changes) tx
      (cells, index) tx' ∧ StagedTo H R P m m' cells index (rows tx) (rows tx') := by
  obtain ⟨cells, tx₁, hrun₁, hcells⟩ := apply_committed hinj h.cells hkeys fun x hx =>
    hP x (List.mem_append_left _ (hafter ▸ hx))
  rw [hafter] at hcells
  have hother : ∀ t, t ≠ CELL → t ≠ CELL_TRIE → rows tx₁ t = rows tx t := hcells.frame
  have hindex₁ : Represents H R (cellPostings m) P (rows tx₁) := h.index.congr fun t ht => by
    rcases ht with rfl | rfl | rfl | rfl <;> exact hother _ (by decide) (by decide)
  obtain ⟨ps, hps, hterms⟩ := postingsOf_named hm hm' fun c hc =>
    ⟨((hcells.changed.mem c).mp hc).1, ((hcells.changed.mem c).mp hc).2.1⟩
  have hperform : Postings.perform ps (cellPostings m) = cellPostings m' := by
    rw [perform_postings _ m ps hcells.changed.sorted (fun c hc => ((hcells.changed.mem c).mp hc).1) hps,
      foldl_isDiff hcells.changed]
  obtain ⟨index, tx₂, hrun₂, hindex⟩ := apply_postings hinj hindex₁ (fun p (hp : p ∈ ps) => by
    obtain ⟨k, v, hk | hk, ht⟩ := hterms p hp
    · exact term_mem h.preimages hk ht
    · exact term_mem hP hk ht) hperform fun x hx => hP x (List.mem_append_right _ hx)
  have hkept : ∀ t, t ≠ INDEX → t ≠ INDEX_TRIE → t ≠ BITMAP_TRIE → t ≠ BITMAP_CONTAINER → rows tx₂ t = rows tx₁ t :=
    hindex.frame
  refine ⟨cells, index, tx₂, ?_, hcells.root, hindex.root, hcells.changed, hindex.changed,
    ⟨⟨?_, ?_⟩, hindex.represents⟩, ⟨?_, ?_, ?_⟩⟩
  · exact hrun₁.mapError.bind ((Prog.Runs.ofExcept hps).bind (hrun₂.mapError.bind (Prog.Runs.pure _ tx₂)))
  · rw [hkept CELL (by decide) (by decide) (by decide) (by decide)]
    exact hcells.committed.table
  · rw [hkept CELL_TRIE (by decide) (by decide) (by decide) (by decide)]
    exact hcells.committed.commits
  · rw [hkept CELL_TRIE (by decide) (by decide) (by decide) (by decide)]
    exact hcells.grown
  · have hgrown := hindex.grown
    rwa [hother INDEX_TRIE (by decide) (by decide)] at hgrown
  · have hsets := hindex.sets
    refine ⟨fun u hu k v hk => hsets.kept u hu k v ?_, fun k v hk => ?_, fun k v hk => ?_⟩
    · rw [hother u (by rcases hu with rfl | rfl <;> decide) (by rcases hu with rfl | rfl <;> decide)]
      exact hk
    · have := hsets.branches k v hk
      rwa [hother BITMAP_TRIE (by decide) (by decide)] at this
    · have := hsets.containers k v hk
      rwa [hother BITMAP_CONTAINER (by decide) (by decide)] at this

end Stage

/-! ### Sealing -/

section Compute

variable {H : HashProvider} {R : Roaring} {P : Set Bytes} {ρ : Type} [ReadTransaction ρ] [LawfulCursor ρ] {origin : ρ}
  {m : CellMap} {c c' : CommitId} {overlay : CellOverlay}

/-- The map that a seal leads to: what the branch shows, and the roots of the head. -/
def sealedCells (H : HashProvider) (R : Roaring) (c : CommitId) (m : CellMap) (overlay : CellOverlay) : CellMap :=
  (m.overlay overlay.entries).insert (rootsKey c) (rootsValue (headOf H R c m))

/-- What a seal hashes besides the state it is over. -/
def sealPreimages (H : HashProvider) (R : Roaring) (c : CommitId) (m : CellMap) (overlay : CellOverlay) : List Bytes :=
  overlay.entries.keys.map CellKey.encode ++ statePreimages H R (sealedCells H R c m overlay)

lemma perform_seal (head : Head) : perform (overlay.changes ++ [.put (rootsKey c) (rootsValue head)]) m
    = (m.overlay overlay.entries).insert (rootsKey c) (rootsValue head) := by
  rw [← overlay_netChanges, netChanges_seal, OrdMap.overlay_insert]
  rfl

lemma key_of_changes {head : Head} {x : CellChange}
    (hx : x ∈ overlay.changes ++ [.put (rootsKey c) (rootsValue head)]) :
    x.toPair.1 ∈ overlay.entries.keys ∨ x.toPair.1 = rootsKey c := by
  rcases List.mem_append.mp hx with hx | hx
  · refine .inl ?_
    have hpair : x.toPair ∈ overlay.entries.entries := by
      rw [← changes_toPair]
      exact List.mem_map_of_mem hx
    exact List.mem_map_of_mem hpair
  · obtain rfl := List.mem_singleton.mp hx
    exact .inr rfl

/-- **A seal over a committed state succeeds**, and its result is that of the map it leads to. -/
theorem compute_holds (hinj : Set.InjOn H.hash P) (h : Holds H R P (rows origin) m)
    (hhead : HeadIs (rows origin) (headOf H R c m)) (hsucc : checkedSucc c = some c')
    (hfree : m.get? (rootsKey c) = none)
    (hm : Named m) (hm' : Named (sealedCells H R c m overlay)) (hP : ∀ x ∈ sealPreimages H R c m overlay, x ∈ P) :
    ∃ s, compute H R origin overlay = .ok s ∧ s.commitId = c' ∧
      s.stateRoot = (cellRoot H (sealedCells H R c m overlay)).hash H ∧
      s.indexRoot = (indexRoot H R (cellPostings (sealedCells H R c m overlay))).hash H ∧
      StagedTo H R P m (sealedCells H R c m overlay) s.cells s.index (rows origin)
        fun t => (rows origin t).overlay (s.writes.rowsOf t) := by
  have hroots : (sealedCells H R c m overlay).get? (rootsKey c) = some (rootsValue (headOf H R c m)) := by
    rw [sealedCells, OrdMap.get?_insert, if_pos rfl]
  have hstate : ∀ x ∈ statePreimages H R (sealedCells H R c m overlay), x ∈ P := fun x hx =>
    hP x (List.mem_append_right _ hx)
  have hnew : Holds H R P (rows (Buffered.new origin)) m := h
  obtain ⟨cells, index, tx, hrun, hstaged⟩ := stageUpdates_holds hinj hnew
    (fun x (hx : x ∈ overlay.changes ++ [.put (rootsKey c) (rootsValue (headOf H R c m))]) => by
      rcases key_of_changes hx with hx | hx
      · exact hP _ (List.mem_append_left _ (List.mem_map_of_mem hx))
      · rw [hx]
        exact key_encode_mem hstate hroots) hm hm' (perform_seal _) hstate
  refine ⟨⟨c', cells.root.hash H, index.root.hash H, cells, index, tx.intoWrites⟩, ?_, rfl, ?_, ?_, ?_⟩
  · have hread : readHeadState origin = .ok (headOf H R c m) := readHeadState_eq hhead
    have hcell : Cells.reopen H origin (headOf H R c m).stateRoot = .ok (cellRoot H m) := Cells.reopen_eq hinj h.cells
    have hindex : Index.reopen H origin (headOf H R c m).indexRoot = .ok (indexRoot H R (cellPostings m)) :=
      reopen_represents hinj h.index
    have hget : ReadTransaction.get origin CELL (rootsKey c).encode = .ok none := by
      rw [LawfulRead.get_eq CELL_valid, h.cells.table, get?_cellRows, hfree]
      rfl
    have hvalue : CellValue.new .bytes ((headOf H R c m).stateRoot.1 ++ (headOf H R c m).indexRoot.1) false
        = .ok (rootsValue (headOf H R c m)) := CellValue.new_self (rootsValue (headOf H R c m))
    have hexec : (stageUpdates H R (cellRoot H m) (indexRoot H R (cellPostings m))
        (overlay.changes ++ [.put (rootsKey c) (rootsValue (headOf H R c m))])).exec (Buffered.new origin)
          = (.ok (cells, index), tx) := hrun
    unfold compute
    simp only [hread, ok_bind, show (headOf H R c m).commitId = c from rfl, hsucc, hcell, hindex, mapError_ok, hget,
      Option.isSome_none, Bool.false_eq_true, if_false, hvalue, hexec]
    rfl
  · rw [← hstaged.cellRoot]
  · rw [← hstaged.indexRoot]
  · have horigin : tx.origin = origin :=
      (stageUpdates_keeps (F := originFrame ρ) (fun t _ => originFrame_allows t) _ _ _).runs hrun
    have hrows : rows tx = fun t => (rows origin t).overlay (tx.writes.rowsOf t) := by
      funext t
      show (rows tx.origin t).overlay (tx.writes.rowsOf t) = _
      rw [horigin]
    rw [hrows] at hstaged
    exact hstaged

end Compute

end GolemDb.Branch
