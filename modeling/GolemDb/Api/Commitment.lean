import GolemDb.Api.Runs
import GolemDb.Branch.Commitment

/-!
What the roots commit to along a run. Where the hash separates what a run has hashed, every
committed state is settled: its tables hold its cells and its index under their tries, and the head
carries the two roots (`Settled`). The genesis state is settled and a publication leads from one
settled state to the next.
-/

namespace GolemDb.Api

open GolemDb.Lib GolemDb.Storage GolemDb.Merkle GolemDb.Cells GolemDb.Index GolemDb.Branch GolemDb.Records

/-! ### What a run hashes -/

/-- The cells of a Cell table. -/
def cellsOf (r : Rows) : CellMap :=
  (r.entries.filterMap fun e => (decodeRow (.ok e)).toOption).foldl (fun m e => m.insert e.1 e.2) OrdMap.empty

lemma cellsOf_cellRows (m : CellMap) : cellsOf (cellRows m) = m := by
  have hentries : ((cellRows m).entries.filterMap fun e => (decodeRow (.ok e)).toOption) = m.entries := by
    have hmap : (cellRows m).entries = m.entries.map fun e => (e.1.encode, e.2.encode) := rfl
    rw [hmap, List.filterMap_map]
    refine (List.filterMap_congr fun e _ => ?_).trans List.filterMap_some
    show (decodeRow (.ok (e.1.encode, e.2.encode))).toOption = some e
    simp [decodeRow, Pure.pure, Except.pure, Except.toOption]
  have hnodup : (m.entries.map Prod.fst).Nodup :=
    (List.pairwise_map.mpr m.sorted : (m.entries.map Prod.fst).Pairwise (· < ·)).imp ne_of_lt
  refine OrdMap.ext_get fun k => Option.ext fun v => ?_
  rw [cellsOf, hentries, OrdMap.get?_foldl_insert _ hnodup, OrdMap.mem_entries]
  simp

section Preimages

variable (H : HashProvider) (R : Roaring) {σ : Type} [Store σ] [LawfulStore σ]

/-- What a call hashes besides the committed state: a seal over the head hashes the keys of the
branch and the state it leads to. -/
def Op.preimages (op : Op) (db : Branches σ) : List Bytes :=
  match op with
  | sealBranch b | commit b =>
    match db.branches.get? b, Branches.head db with
    | some st, .ok c => if st.commitId = c then sealPreimages H R c (cellsOf (tables db.store CELL)) st.overlay else []
    | _, _ => []
  | _ => []

/-- What the calls of a run hash. -/
def occurring : List Op → Branches σ → List Bytes
  | [], _ => []
  | op :: ops, db => op.preimages H R db ++ occurring ops (op.exec H R db)

/-- **The preimages of a run** from genesis. -/
def runPreimages (g : Genesis) (ops : List Op) (db : Branches σ) : List Bytes :=
  statePreimages H R (initialCells g) ++ occurring H R ops db

variable {H R}

lemma occurring_append (ops ops' : List Op) (db : Branches σ) :
    occurring H R (ops ++ ops') db = occurring H R ops db ++ occurring H R ops' (run H R ops db) := by
  induction ops generalizing db with
  | nil => rfl
  | cons op ops ih => rw [List.cons_append, occurring, ih, occurring, List.append_assoc]; rfl

/-- A longer run hashes more. -/
lemma occurring_mono {part ops : List Op} (h : part <+: ops) (db : Branches σ) :
    ∀ x ∈ occurring H R part db, x ∈ occurring H R ops db := by
  obtain ⟨rest, rfl⟩ := h
  rw [occurring_append]
  exact fun x hx => List.mem_append_left _ hx

/-- A seal hashes what a commit does. -/
lemma runPreimages_seal (g : Genesis) (ops : List Op) (b : BranchId) (db : Branches σ) :
    runPreimages H R g (ops ++ [.sealBranch b]) db = runPreimages H R g (ops ++ [.commit b]) db := by
  rw [runPreimages, runPreimages, occurring_append, occurring_append]
  rfl

lemma occurring_concat {part ops : List Op} {op : Op} (h : part ++ [op] <+: ops) (db : Branches σ) :
    ∀ x ∈ op.preimages H R (run H R part db), x ∈ occurring H R ops db := by
  intro x hx
  refine occurring_mono h db x ?_
  rw [occurring_append]
  exact List.mem_append_right _ (List.mem_append_left _ hx)

/-- A seal over the head of a branch. -/
lemma preimages_over {db : Branches σ} {b : BranchId} {st : BranchState} {head : Head} {m : CellMap}
    (hh : HeadIs (tables db.store) head) (hcells : tables db.store CELL = cellRows m)
    (hb : db.branches.get? b = some st)
    (hc : st.commitId = head.commitId) (op : Op) (hop : op = .sealBranch b ∨ op = .commit b) :
    op.preimages H R db = sealPreimages H R head.commitId m st.overlay := by
  have hhead : Branches.head db = .ok head.commitId := by
    obtain ⟨origin, horigin, hrows⟩ := LawfulStore.beginRead_eq db.store
    rw [Branches.head, horigin, mapError_ok, ok_bind, HeadIs.readHead (by rw [hrows]; exact hh)]
  rcases hop with rfl | rfl
  all_goals
    unfold Op.preimages
    simp only [hb, hhead, hc, if_true, hcells, cellsOf_cellRows]

/-- What a seal of a run hashes. -/
lemma sealPreimages_subset {g : Genesis} {part ops : List Op} {db : Branches σ} {op : Op} {b : BranchId}
    {st : BranchState} {head : Head} {m : CellMap} (hh : HeadIs (tables (run H R part db).store) head)
    (hcells : tables (run H R part db).store CELL = cellRows m) (hb : (run H R part db).branches.get? b = some st)
    (hc : st.commitId = head.commitId) (hop : op = .sealBranch b ∨ op = .commit b) (hpart : part ++ [op] <+: ops) :
    ∀ x ∈ sealPreimages H R head.commitId m st.overlay, x ∈ runPreimages H R g ops db := by
  rw [← preimages_over hh hcells hb hc op hop]
  exact fun x hx => List.mem_append_right _ (occurring_concat hpart db x hx)

end Preimages

/-! ### Settled states -/

/-- **A settled state**: its tables hold its cells and its index, and the head has their roots. -/
structure Settled (H : HashProvider) (R : Roaring) (P : Set Bytes) (r : Table → Rows) (v : Version) : Prop where
  holds : Holds H R P r v.cells
  head : v.head = headOf H R v.head.commitId v.cells

section Genesis

variable {H : HashProvider} {R : Roaring} {P : Set Bytes} {g : Genesis}

lemma cellPostings_initial (g : Genesis) : cellPostings (initialCells g) = Postings.empty := by
  refine Postings.ext_ids fun t => OrdSet.ext fun r => ?_
  rw [mem_cellPostings, Postings.ids_empty]
  refine ⟨fun ⟨k, v, hk, _, ht⟩ => ?_, fun h => absurd h (OrdSet.not_mem_empty r)⟩
  have hfield := initialList_fields (get?_initialCells.mp hk)
  rw [(term_eq_some.mp (attributeTerm_eq_some.mp ht)).1] at hfield
  cases hfield

lemma perform_genesisChanges (g : Genesis) : perform (genesisChanges g) OrdMap.empty = initialCells g := by
  rw [← overlay_netChanges, genesisChanges, overlay_netChanges_puts]

/-- The preimages of a state hold no bytes. -/
lemma nil_mem_statePreimages (m : CellMap) : [] ∈ statePreimages H R m :=
  List.mem_append_left _ (List.mem_append_left _ (List.mem_cons_self ..))

/-- **The batch of the genesis cells** on empty tables. -/
lemma apply_genesis {τ : Type} [WriteTransaction τ] [LawfulWrite τ] (hinj : Set.InjOn H.hash P)
    (hP : ∀ x ∈ statePreimages H R (initialCells g), x ∈ P) {tx tx' : τ} {u : CellsUpdate}
    (hempty : ∀ t, t ≠ SUPERBLOCK → rows tx t = OrdMap.empty)
    (hrun : Prog.Runs (Cells.apply H .empty (genesisChanges g)) tx u tx') :
    u.root = cellRoot H (initialCells g) ∧ Holds H R P (rows tx') (initialCells g) ∧
      Gained H R (initialCells g) (rows tx) (rows tx') := by
  have hnil : [] ∈ P := hP _ (nil_mem_statePreimages _)
  have hstart : Committed H P (rows tx) OrdMap.empty := by
    refine ⟨hempty CELL (by decide), ?_⟩
    rw [hempty CELL_TRIE (by decide)]
    exact commits_empty hnil
  have hkeys : ∀ c ∈ genesisChanges g, c.toPair.1.encode ∈ P := by
    intro c hc
    obtain ⟨e, he, rfl⟩ := List.mem_map.mp hc
    exact key_encode_mem hP (OrdMap.mem_entries.mp he)
  obtain ⟨u', tx₁, hrun₁, happlied⟩ := apply_committed hinj hstart hkeys fun x hx =>
    hP x (List.mem_append_left _ (perform_genesisChanges g ▸ hx))
  rw [perform_genesisChanges] at happlied
  obtain ⟨rfl, rfl⟩ := hrun₁.unique hrun
  have hindex : ∀ t, t ≠ SUPERBLOCK → t ≠ CELL → t ≠ CELL_TRIE → rows tx₁ t = OrdMap.empty := fun t h0 h1 h2 =>
    (happlied.frame t h1 h2).trans (hempty t h0)
  have hblank : Represents H R Postings.empty P fun _ => OrdMap.empty := represents_empty hnil fun _ => rfl
  refine ⟨happlied.root, ⟨happlied.committed, ?_⟩, happlied.grown, ?_, ?_⟩
  · rw [cellPostings_initial]
    refine hblank.congr fun t ht => ?_
    rcases ht with rfl | rfl | rfl | rfl <;> exact hindex _ (by decide) (by decide) (by decide)
  · rw [happlied.frame _ (by decide) (by decide)]
    exact ⟨fun _ _ h => h, fun _ _ h => .inl h⟩
  · refine ⟨fun t ht k v hk => ?_, fun k v hk => .inl ?_, fun k v hk => .inl ?_⟩
    · rcases ht with rfl | rfl
      all_goals
        rw [happlied.frame _ (by decide) (by decide)]
        exact hk
    all_goals
      rw [happlied.frame _ (by decide) (by decide)] at hk
      exact hk

/-- **The genesis state is settled.** -/
theorem Initialized.settled {τ : Type} [WriteTransaction τ] [LawfulWrite τ] (hinj : Set.InjOn H.hash P)
    (hP : ∀ x ∈ statePreimages H R (initialCells g), x ∈ P) {r : Table → Rows} (h : Initialized τ H g r) {head : Head}
    (hhead : HeadIs r head) : Settled H R P r ⟨head, initialCells g⟩ := by
  obtain ⟨tx, tx', u, hempty, hrun, hzero, hrows⟩ := h
  obtain ⟨hroot, hholds, -⟩ := apply_genesis hinj hP hempty hrun
  obtain rfl := HeadIs.unique hhead hzero
  refine ⟨hholds.congr fun t ht => hrows t fun he => ?_, ?_⟩
  · subst he
    exact absurd ht (by simp [sealTables]; decide)
  · show (⟨0, u.root.hash H, H.hash []⟩ : Head) = headOf H R 0 (initialCells g)
    rw [headOf, hroot, cellPostings_initial]
    rfl

end Genesis

/-! ### Publications -/

section Publish

variable {H : HashProvider} {R : Roaring} {P : Set Bytes} {σ : Type} [Store σ] [LawfulStore σ] {g : Genesis}
  {hist : History} {head : Head} {db : Branches σ}

lemma named_of_consistent {c : CommitId} {m : CellMap} (h : Consistent c m) : Named m :=
  fun k v hk hi => (h.attributes k v hk hi).2

/-- The roots of a head are a field. -/
lemma named_sealed {c : CommitId} {m : CellMap} {overlay : CellOverlay} (h : Consistent c (m.overlay overlay.entries)) :
    Named (sealedCells H R c m overlay) := by
  intro k v hk hi
  rw [sealedCells, OrdMap.get?_insert] at hk
  split_ifs at hk with hkey
  · obtain rfl := Option.some.inj hk
    cases hi
  · exact (h.attributes k v hk hi).2

/-- **A branch over a settled head seals**, and its rows lead to the next settled state. -/
theorem Inv.seals (hinj : Set.InjOn H.hash P) (h : Inv H R g (Settled H R P) hist head db) {b : BranchId}
    {st : BranchState} (hb : db.branches.get? b = some st) (hc : st.commitId = head.commitId) {c : CommitId}
    (hsucc : checkedSucc head.commitId = some c)
    (hP : ∀ x ∈ sealPreimages H R head.commitId (hist head.commitId).cells st.overlay, x ∈ P) {origin : Store.Read σ}
    (hr : rows origin = tables db.store) :
    ∃ s, compute H R origin st.overlay = .ok s ∧ s.commitId = c ∧
      Settled H R P (publishedRows (tables db.store) s) (Inv.nextVersion hist head st.overlay s) ∧
      StagedTo H R P (hist head.commitId).cells (Inv.nextVersion hist head st.overlay s).cells s.cells s.index
        (tables db.store) fun t => (tables db.store t).overlay (s.writes.rowsOf t) := by
  have hgood := h.good
  have hhead : head = headOf H R head.commitId (hist head.commitId).cells := by
    have := hgood.head
    rwa [h.last] at this
  have hcons := h.chain.consistent _ (le_refl head.commitId)
  have hvis := (h.branches b st hb).working.visible
  rw [hc] at hvis
  have hfree : (hist head.commitId).cells.get? (rootsKey head.commitId) = none := by
    by_contra hne
    exact absurd (hcons.roots _ hne) (lt_irrefl _)
  obtain ⟨s, hs, hid, hstate, hindex, hstaged⟩ := compute_holds hinj (hr ▸ hgood.holds)
    (by rw [hr, ← hhead]; exact h.head_is) hsucc hfree (named_of_consistent hcons) (named_sealed hvis.consistent) hP
  rw [hr] at hstaged
  have hcells : (Inv.nextVersion hist head st.overlay s).cells
      = sealedCells H R head.commitId (hist head.commitId).cells st.overlay := by
    rw [Inv.nextVersion, nextCells, h.last, sealedCells, ← hhead]
  refine ⟨s, hs, hid, ⟨?_, ?_⟩, ?_⟩
  · rw [hcells]
    refine hstaged.holds.congr fun t ht => if_neg fun he => ?_
    subst he
    exact absurd ht (by simp [sealTables]; decide)
  · rw [hcells]
    show (⟨s.commitId, s.stateRoot, s.indexRoot⟩ : Head) = headOf H R s.commitId _
    rw [hstate, hindex, headOf]
  · rw [hcells]
    exact hstaged

/-- A publication is a settled state. -/
lemma Inv.publishes_settled (hinj : Set.InjOn H.hash P) (h : Inv H R g (Settled H R P) hist head db) {b : BranchId}
    (hP : ∀ x ∈ (Op.commit b).preimages H R db, x ∈ P) : Inv.Publishes H R (Settled H R P) hist head db b := by
  intro st origin s hb hc hr hs
  have hsucc := (h.managed.compute_head hr hs).1
  rw [preimages_over h.head_is h.cells hb hc _ (.inr rfl)] at hP
  obtain ⟨s', hs', -, hsettled, -⟩ := h.seals hinj hb hc hsucc hP hr
  obtain rfl := Except.ok.inj (hs'.symm.trans hs)
  exact hsettled

/-- **Every state of a run is settled.** -/
theorem run_settled {config : OpenConfig} (h : Created H config db) (ops : List Op) (hinj : Set.InjOn H.hash P)
    (hP : ∀ x ∈ runPreimages H R config.genesis ops db, x ∈ P) :
    ∃ hist head, Inv H R config.genesis (Settled H R P) hist head (run H R ops db) ∧
      HistoryOf H R ops db hist head.commitId := by
  obtain ⟨hist, head, hinv, hzero⟩ := h.inv (R := R) fun head hhead =>
    h.initialized.1.settled hinj (fun x hx => hP x (List.mem_append_left _ hx)) hhead
  refine hinv.run hzero ops fun part b hpart hist head hinv => hinv.publishes_settled hinj fun x hx => ?_
  exact hP x (List.mem_append_right _ (occurring_concat hpart _ x hx))

lemma runPreimages_mono {part ops : List Op} (hpart : part <+: ops) :
    ∀ x ∈ runPreimages H R g part db, x ∈ runPreimages H R g ops db := by
  intro x hx
  rcases List.mem_append.mp hx with hx | hx
  · exact List.mem_append_left _ hx
  · exact List.mem_append_right _ (occurring_mono hpart _ x hx)

end Publish

end GolemDb.Api
