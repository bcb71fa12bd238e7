import GolemDb.Api.Roots

/-!
No garbage rows. A batch of a trie inserts branches that the new root leads to, so along a run every
row of a trie is led to by a root of some committed state, and every container is a leaf of one.
-/

namespace GolemDb.Api

open GolemDb.Lib GolemDb.Storage GolemDb.Merkle GolemDb.Cells GolemDb.Index GolemDb.Branch GolemDb.Records

/-! ### Rows under roots -/

section Accounted

variable (H : HashProvider) (R : Roaring)

/-- **Every row of the tries is reached** from a root of one of the states. -/
structure Accounted (states : Set CellMap) (r : Table → Rows) : Prop where
  cells : ∀ k v, (r CELL_TRIE).get? k = some v → ∃ m ∈ states, RowReached (r CELL_TRIE) (cellRoot H m) k
  index : ∀ k v, (r INDEX_TRIE).get? k = some v → ∃ m ∈ states, RowReached (r INDEX_TRIE)
    (indexRoot H R (cellPostings m)) k
  branches : ∀ k v, (r BITMAP_TRIE).get? k = some v → ∃ m ∈ states, ∃ t,
    RowReached (r BITMAP_TRIE) (setRoot H R ((cellPostings m).ids t)) k
  containers : ∀ k v, (r BITMAP_CONTAINER).get? k = some v → ∃ m ∈ states, ∃ t, ∃ l : LeafRef 6,
    k = l.hash.1 ∧ Reach (r BITMAP_TRIE) (setRoot H R ((cellPostings m).ids t)) (.leaf l)

variable {H R} {states states' : Set CellMap} {r r' : Table → Rows} {P : Set Bytes} {m : CellMap}

lemma Accounted.mono (h : Accounted H R states r) (hsub : states ⊆ states') : Accounted H R states' r := by
  refine ⟨fun k v hk => ?_, fun k v hk => ?_, fun k v hk => ?_, fun k v hk => ?_⟩
  · exact (h.cells k v hk).imp fun m hm => ⟨hsub hm.1, hm.2⟩
  · exact (h.index k v hk).imp fun m hm => ⟨hsub hm.1, hm.2⟩
  · exact (h.branches k v hk).imp fun m hm => ⟨hsub hm.1, hm.2⟩
  · exact (h.containers k v hk).imp fun m hm => ⟨hsub hm.1, hm.2⟩

/-- Only the tables of a seal matter. -/
lemma Accounted.congr (h : Accounted H R states r) (hr : ∀ t ∈ sealTables, r' t = r t) : Accounted H R states r' := by
  have hcells := hr CELL_TRIE (by simp [sealTables])
  have hterms := hr INDEX_TRIE (by simp [sealTables])
  have hsets := hr BITMAP_TRIE (by simp [sealTables])
  have hcontainers := hr BITMAP_CONTAINER (by simp [sealTables])
  refine ⟨?_, ?_, ?_, ?_⟩
  · rw [hcells]
    exact h.cells
  · rw [hterms]
    exact h.index
  · rw [hsets]
    exact h.branches
  · rw [hsets, hcontainers]
    exact h.containers

/-- **What a state added is reached from its roots**, and the rest as before. -/
theorem Accounted.gained (h : Accounted H R states r) (hg : Gained H R m r r') (hh : Holds H R P r' m)
    (hm : m ∈ states') (hsub : states ⊆ states') : Accounted H R states' r' := by
  have hsets : ∀ k v, (r BITMAP_TRIE).get? k = some v → (r' BITMAP_TRIE).get? k = some v := hg.sets.kept _ (.inl rfl)
  refine ⟨fun k v hk => ?_, fun k v hk => ?_, fun k v hk => ?_, fun k v hk => ?_⟩
  · rcases hg.cells.fresh k v hk with hold | ⟨b, hb, rfl⟩
    · obtain ⟨m', hm', hreach⟩ := h.cells k v hold
      exact ⟨m', hsub hm', hreach.mono hg.cells.kept⟩
    · exact ⟨m, hm, _, rfl, Trie.reach_branch hh.cells.commits.stored hb⟩
  · rcases hg.index.fresh k v hk with hold | ⟨b, hb, rfl⟩
    · obtain ⟨m', hm', hreach⟩ := h.index k v hold
      exact ⟨m', hsub hm', hreach.mono hg.index.kept⟩
    · exact ⟨m, hm, _, rfl, Trie.reach_branch hh.index.commits.stored hb⟩
  · rcases hg.sets.branches k v hk with hold | ⟨t, b, hb, rfl⟩
    · obtain ⟨m', hm', t, hreach⟩ := h.branches k v hold
      exact ⟨m', hsub hm', t, hreach.mono hsets⟩
    · exact ⟨m, hm, t, _, rfl, Trie.reach_branch (hh.index.held t).stored hb⟩
  · rcases hg.sets.containers k v hk with hold | ⟨t, x, hx, rfl⟩
    · obtain ⟨m', hm', t, l, hl, hreach⟩ := h.containers k v hold
      exact ⟨m', hsub hm', t, l, hl, hreach.mono hsets⟩
    · exact ⟨m, hm, t, _, rfl, Trie.reach_leaf (hh.index.held t).stored (mem_leaves_setTree.mpr ⟨x, hx, rfl⟩)⟩

end Accounted

/-! ### The tables along a run -/

section Runs

variable {H : HashProvider} {R : Roaring} {σ : Type} [Store σ] [LawfulStore σ] {g : Genesis} {Good : StateProp}
  {hist : History} {head : Head} {db : Branches σ}

/-- **A call leaves the committed tables or publishes a seal over them.** -/
theorem Inv.step_tables (h : Inv H R g Good hist head db) (op : Op) :
    tables (op.exec H R db).store = tables db.store ∨
    ∃ (b : BranchId) (st : BranchState) (origin : Store.Read σ) (s : SealedCommit), op = .commit b ∧
      db.branches.get? b = some st ∧ st.commitId = head.commitId ∧ rows origin = tables db.store ∧
      compute H R origin st.overlay = .ok s ∧ tables (op.exec H R db).store = publishedRows (tables db.store) s := by
  have hstart : Inv H R g (fun r _ => r = tables db.store ∨ ∃ (b : BranchId) (st : BranchState) (origin : Store.Read σ)
      (s : SealedCommit), op = .commit b ∧ db.branches.get? b = some st ∧ st.commitId = head.commitId ∧
        rows origin = tables db.store ∧ compute H R origin st.overlay = .ok s ∧ r = publishedRows (tables db.store) s)
      hist head db := ⟨h.head_is, h.last, h.cells, h.chain, .inl rfl, h.branches⟩
  obtain ⟨hist', head', h', -⟩ := hstart.step op fun b hop st origin s hb hc hr hs =>
    .inr ⟨b, st, origin, s, hop, hb, hc, hr, hs, rfl⟩
  exact h'.good

variable (H R)

/-- **A committed state of a run**: the cells of the store after a part of the run, under a head with
their roots. -/
def Occurs (ops : List Op) (db : Branches σ) (m : CellMap) : Prop :=
  ∃ part, part <+: ops ∧ tables (run H R part db).store CELL = cellRows m ∧
    ∃ c, HeadIs (tables (run H R part db).store) (headOf H R c m)

variable {H R}

lemma Occurs.prefix {part ops : List Op} {m : CellMap} (h : Occurs H R part db m) (hpart : part <+: ops) :
    Occurs H R ops db m :=
  let ⟨p, hp, hrest⟩ := h
  ⟨p, hp.trans hpart, hrest⟩

lemma occurs_last {P : Set Bytes} {ops : List Op} (h : Inv H R g (Settled H R P) hist head (run H R ops db)) :
    Occurs H R ops db (hist head.commitId).cells := by
  have hroots := h.good.head
  rw [h.last] at hroots
  exact ⟨ops, List.prefix_rfl, h.cells, head.commitId, by rw [← hroots]; exact h.head_is⟩

/-- **Along a run every row of the tries is reached** from a root of a state that was committed. -/
theorem run_accounted {config : OpenConfig} {P : Set Bytes} (h : Created H config db) (ops : List Op)
    (hinj : Set.InjOn H.hash P) (hP : ∀ x ∈ runPreimages H R config.genesis ops db, x ∈ P) :
    Accounted H R {m | Occurs H R ops db m} (tables (run H R ops db).store) := by
  induction ops using List.reverseRecOn with
  | nil =>
    obtain ⟨hist, head, hinv, -⟩ := run_settled h [] hinj hP
    obtain ⟨tx, tx', u, hempty, hrun, hhead, hrows⟩ := h.initialized.1
    obtain ⟨-, hholds, hgained⟩ := apply_genesis hinj (fun x hx => hP x (List.mem_append_left _ hx)) hempty hrun
    have hblank : Accounted H R ∅ (rows tx) := by
      refine ⟨fun k v hk => ?_, fun k v hk => ?_, fun k v hk => ?_, fun k v hk => ?_⟩
      all_goals
        rw [hempty _ (by decide), OrdMap.get?_empty] at hk
        cases hk
    have hcells := h.initialized.1.cells
    have hoccurs : Occurs H R [] db (initialCells config.genesis) := by
      have := occurs_last hinv
      rwa [cellRows_inj (hinv.cells.symm.trans hcells)] at this
    refine (hblank.gained hgained hholds hoccurs (Set.empty_subset _)).congr fun t ht => hrows t fun he => ?_
    subst he
    exact absurd ht (by simp [sealTables]; decide)
  | append_singleton ops op ih =>
    have hprefix : ops <+: ops ++ [op] := List.prefix_append _ _
    have hops : ∀ x ∈ runPreimages H R config.genesis ops db, x ∈ P := fun x hx => hP x (runPreimages_mono hprefix x hx)
    have hold := ih hops
    have hsub : {m | Occurs H R ops db m} ⊆ {m | Occurs H R (ops ++ [op]) db m} := fun m hm => hm.prefix hprefix
    obtain ⟨hist, head, hinv, -⟩ := run_settled h ops hinj hops
    rw [run_concat]
    rcases hinv.step_tables op with he | ⟨b, st, origin, s, rfl, hb, hc, hr, hs, he⟩
    · rw [he]
      exact hold.mono hsub
    · have hsealed : ∀ x ∈ sealPreimages H R head.commitId (hist head.commitId).cells st.overlay, x ∈ P := fun x hx =>
        hP x (sealPreimages_subset hinv.head_is hinv.cells hb hc (.inr rfl) List.prefix_rfl x hx)
      obtain ⟨s', hs', -, hsettled, hstaged⟩ := hinv.seals hinj hb hc (hinv.managed.compute_head hr hs).1 hsealed hr
      obtain rfl := Except.ok.inj (hs'.symm.trans hs)
      have hoccurs : Occurs H R (ops ++ [.commit b]) db (Inv.nextVersion hist head st.overlay s').cells := by
        obtain ⟨hist', head', hinv', -⟩ := run_settled h _ hinj hP
        have hlast := occurs_last hinv'
        have hcells := hinv'.cells
        rw [run_concat, he, hsettled.holds.cells.table] at hcells
        rwa [← cellRows_inj hcells] at hlast
      rw [he]
      refine (hold.gained hstaged.gained hstaged.holds hoccurs hsub).congr fun t ht => if_neg fun he => ?_
      subst he
      exact absurd ht (by simp [sealTables]; decide)

/-- **No garbage rows.** What a batch of a trie inserts is reachable from the root it returns, and
along a run every row of the tries is reachable from the roots of a committed state. -/
theorem run_no_garbage {config : OpenConfig} (h : Created H config db) (ops : List Op)
    (hinj : Set.InjOn H.hash {x | x ∈ runPreimages H R config.genesis ops db}) :
    (∀ {N : ℕ} {T : Trie N} {τ : Type} [WriteTransaction τ] [LawfulWrite τ] {P : Set Bytes} {B : Set (LeafRef N)},
      T.Assumes P B → ∀ {M : OrdMap (Arr N) Hash} {edits : List (Edit N)} {tx : τ}, T.Sound P B (rows tx T.table) →
      T.Stored (rows tx T.table) (refTree M) → T.Fits P B (refTree (setAll M edits)) →
      ∃ root tx', Prog.Runs (T.apply (T.ref (refTree M)) edits) tx root tx' ∧ ∀ k v,
        (rows tx' T.table).get? k = some v →
        (rows tx T.table).get? k = none → RowReached (rows tx' T.table) root k) ∧
    Accounted H R {m | Occurs H R ops db m} (tables (run H R ops db).store) :=
  ⟨fun hA => Trie.apply_reachable hA, run_accounted h ops hinj fun _ hx => hx⟩

theorem run_no_garbage_demo :
    Accounted Trie.polyHash arrayRoaring {m | Occurs Trie.polyHash arrayRoaring rootOps demoDb m}
    (tables (run Trie.polyHash arrayRoaring rootOps demoDb).store) :=
  (run_no_garbage demoDb_created rootOps rootOps_injOn).2

end Runs

end GolemDb.Api
