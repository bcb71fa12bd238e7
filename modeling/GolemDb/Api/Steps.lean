import GolemDb.Records.Lineage
import GolemDb.Api.Runs

/-!
What the calls of a run do to what the branches show. A property of maps that holds over the cells
a branch begins at, and that every successful mutation keeps, holds of every live branch of a run
and of every map a commit published (`Created.run_keeps`). A mutation through the API changes the
branch it names and nothing else (`Wrote`).
-/

namespace GolemDb.Api

open GolemDb.Lib GolemDb.Storage GolemDb.Merkle GolemDb.Cells GolemDb.Index GolemDb.Branch GolemDb.Records

/-- A property of what a branch shows over the cells of a commit. -/
abbrev ShownProp := CommitId → CellMap → CellMap → Prop

/-- **A property of branches**: it holds at the start, and successful mutations keep it. -/
structure Shown (I : ShownProp) : Prop where
  start : ∀ {c m}, Consistent c m → I c m m
  mutate : ∀ {c base m m'} (u : Mutation), Visible c base m → I c base m → System.byKey u.key = none →
    Prog.Runs u.group.runOn m () m' → I c base m'

section Steps

variable {H : HashProvider} {R : Roaring} {σ : Type} [Store σ] [LawfulStore σ] {g : Genesis} {Good : StateProp}
  {hist : History} {head : Head} {db : Branches σ} {I : ShownProp}

/-- The branches show maps with the property, and so does every state a rollback can return to. -/
def ShowsWith (I : ShownProp) (hist : History) (st : BranchState) : Prop :=
  Working (fun m => Visible st.commitId (hist st.commitId).cells m ∧ I st.commitId (hist st.commitId).cells m)
    (hist st.commitId).cells st.overlay

/-- The branches of the next manager show maps with the property, and its store is as it was. -/
abbrev Carries (I : ShownProp) (hist : History) (db db' : Branches σ) : Prop :=
  db'.Each (ShowsWith I hist) ∧ db'.store = db.store

/-- A call that changes the overlay of an open branch keeps the property, if the overlay does. -/
lemma Inv.shows_overlay (h : Inv H R g Good hist head db) (hs : db.Each (ShowsWith I hist)) {α : Type} {b : BranchId}
    {operation : BranchState → Store.Read σ → α × BranchState}
    (hop : ∀ (st : BranchState) (origin : Store.Read σ), st.commitId = head.commitId →
      rows origin CELL = cellRows (hist head.commitId).cells →
      (operation st origin).2 = st ∨ st.sealed = none ∧ ∃ o, (operation st origin).2 = { st with overlay := o } ∧
        (ShowsWith I hist st → ShowsWith I hist { st with overlay := o })) :
    Carries I hist db ((Branches.withBranch b operation).exec db).2 :=
  overlay_each h.head_is hs fun st origin _ hc hr => hop st origin hc (by rw [hr, h.cells])

/-- A mutation keeps the property. -/
lemma Inv.shows_mutate (h : Inv H R g Good hist head db) (hI : Shown I) (hs : db.Each (ShowsWith I hist)) {α : Type}
    (b : BranchId) (u : Mutation) (group : CellOperation RecordError α)
    (hgroup : ∀ m a m', Prog.Runs group.runOn m a m' → Prog.Runs u.group.runOn m () m') :
    Carries I hist db (((do
      Prog.ofExcept (rejectReserved u.key)
      Prog.mapError RecordError.ofOperation (Branches.write b group)) :
        Prog RecordError (Branches σ) α).exec db).2 := by
  rcases exec_rejectReserved u.key (Prog.mapError RecordError.ofOperation (Branches.write b group)) db with
    ⟨-, he⟩ | ⟨hK, he⟩
  · rw [he]
    exact ⟨hs, rfl⟩
  · rw [he, Prog.exec_mapError, Branches.write, exec_ofExcept_self, Prog.exec_mapError]
    refine h.shows_overlay hs fun st origin hc hr => ?_
    unfold BranchState.requireOpen
    cases hsealed : st.sealed with
    | some s => exact .inl rfl
    | none =>
      refine .inr ⟨rfl, (st.overlay.write origin group).2, rfl, fun hw => ?_⟩
      rw [← hc] at hr
      exact hw.write hr fun m a m' hm hrun =>
        ⟨hm.1.mutate hK (hgroup m a m' hrun), hI.mutate u hm.1 hm.2 hK (hgroup m a m' hrun)⟩

/-- **A commit that publishes**: the branch was over the head, and the new Cell table holds what it showed, with
the roots of the head. -/
structure Publication (H : HashProvider) (R : Roaring) (hist : History) (head : Head) (db db' : Branches σ)
    (b : BranchId) (st : BranchState) (s : SealedCommit) : Prop where
  found : db.branches.get? b = some st
  current : st.commitId = head.commitId
  succ : checkedSucc head.commitId = some s.commitId
  rest : db'.branches = db.branches.erase b
  managed : Managed H R ⟨s.commitId, s.stateRoot, s.indexRoot⟩
    (((hist head.commitId).cells.overlay st.overlay.entries).insert (rootsKey head.commitId) (rootsValue head)) db'

/-- **Every call keeps the property** and leaves the store as it is, but for a commit that publishes. -/
theorem Inv.shows_step (h : Inv H R g Good hist head db) (hI : Shown I) (hs : db.Each (ShowsWith I hist)) (op : Op) :
    Carries I hist db (op.exec H R db) ∨
    (op.exec H R db).Each (ShowsWith I hist) ∧ ∃ b st s, op = .commit b ∧
      Publication H R hist head db (op.exec H R db) b st s := by
  cases op with
  | begin =>
    refine .inl (begin_each h.head_is hs ?_)
    have hcons := h.chain.consistent _ (le_refl head.commitId)
    exact Working.new ⟨hcons.visible, hI.start hcons⟩
  | create b K values =>
    exact .inl (h.shows_mutate hI hs b (.create K values) _ fun m a m' hr => on_bind hr)
  | patch b K changes => exact .inl (h.shows_mutate hI hs b (.patch K changes) _ fun m a m' hr => hr)
  | delete b K => exact .inl (h.shows_mutate hI hs b (.delete K) _ fun m a m' hr => hr)
  | get target K projection =>
    cases target with
    | head => exact .inl ⟨hs, rfl⟩
    | commit c => exact .inl ⟨hs, rfl⟩
    | branch b =>
      left
      show Carries I hist db ((Prog.mapError RecordError.ofOperation
        (Branches.read b (readBranchRecord K projection))).exec db).2
      rw [Prog.exec_mapError, Branches.read, exec_ofExcept, Prog.exec_mapError]
      exact h.shows_overlay hs fun st origin _ _ => .inl rfl
  | branchInfo b => exact .inl (h.shows_overlay hs fun st origin _ _ => .inl rfl)
  | checkpoint b =>
    left
    show Carries I hist db ((Branches.checkpoint b).exec db).2
    rw [Branches.checkpoint, exec_ofExcept_self]
    refine h.shows_overlay hs fun st origin _ _ => ?_
    unfold BranchState.requireOpen
    cases st.sealed with
    | some s => exact .inl rfl
    | none => exact .inr ⟨rfl, _, rfl, fun hw => hw.checkpoint⟩
  | rollback b =>
    left
    show Carries I hist db ((Branches.rollback b).exec db).2
    rw [Branches.rollback, exec_ofExcept_self]
    refine h.shows_overlay hs fun st origin _ _ => ?_
    unfold BranchState.requireOpen
    cases st.sealed with
    | some s => exact .inl rfl
    | none => exact .inr ⟨rfl, _, rfl, fun hw => hw.rollback⟩
  | sealBranch b => exact .inl (seal_each h.head_is hs b fun st origin s _ _ _ hw => hw)
  | commit b =>
    rcases h.managed.commit b with ⟨e, he⟩ | he | ⟨st, origin, s, store', hb, hc, hr, hcomp, -, he, hm⟩
    · have hexec : Op.exec H R (.commit b) db = db := congrArg Prod.snd he
      exact .inl ⟨by rw [hexec]; exact hs, by rw [hexec]⟩
    · have hexec : Op.exec H R (.commit b) db = db.without b := congrArg Prod.snd he
      exact .inl ⟨by rw [hexec]; exact hs.without b, by rw [hexec]; rfl⟩
    · have hexec : Op.exec H R (.commit b) db = { db.without b with store := store' } := congrArg Prod.snd he
      rw [hexec]
      exact .inr ⟨hs.without b, b, st, s, rfl, hb, hc, (h.managed.compute_head hr hcomp).1, rfl, hm⟩
  | discard b => exact .inl (discard_each h.head_is hs b)
  | reopen config =>
    left
    show Carries I hist db (Api.reopen H config db)
    rcases (reopen_cases h.head_is : Api.reopen H config db = db ∨ _) with he | he
    · rw [he]
      exact ⟨hs, rfl⟩
    · rw [he]
      refine ⟨fun b st hb => ?_, rfl⟩
      cases (show none = some st from hb)

/-- The maps the commits published have the property over the commits before them. -/
def PublishedBy (I : ShownProp) (hist : History) (last : CommitId) : Prop :=
  ∀ i j, checkedSucc i = some j → j ≤ last → ∃ shown, Visible i (hist i).cells shown ∧ I i (hist i).cells shown ∧
    (hist j).cells = nextCells (hist i) shown

/-- The property is kept along the history that a call extends. -/
lemma Inv.shows_extend (h : Inv H R g Good hist head db) (hI : Shown I) (hs : db.Each (ShowsWith I hist))
    (hp : PublishedBy I hist head.commitId) (op : Op) {hist' : History} {head' : Head}
    (h' : Inv H R g Good hist' head' (op.exec H R db)) (hext : Extends hist head.commitId hist' head'.commitId) :
    (op.exec H R db).Each (ShowsWith I hist') ∧ PublishedBy I hist' head'.commitId := by
  have hold : ∀ i j, checkedSucc i = some j → j ≤ head.commitId →
      ∃ shown, Visible i (hist' i).cells shown ∧ I i (hist' i).cells shown ∧
        (hist' j).cells = nextCells (hist' i) shown := by
    intro i j hij hj
    rw [hext.same i (le_trans (checkedSucc_lt hij).1.le hj), hext.same j hj]
    exact hp i j hij hj
  -- the branches left are over commits of the old history
  have hsame : ∀ {db' : Branches σ}, db'.Each (ShowsWith I hist) → (∀ b st, db'.branches.get? b = some st →
      st.commitId ≤ head.commitId) → db'.Each (ShowsWith I hist') := by
    intro db' hs' hle b st hb
    have hst := hs' b st hb
    unfold ShowsWith at hst ⊢
    rwa [hext.same _ (hle b st hb)]
  rcases h.shows_step hI hs op with ⟨hs', hstore⟩ | ⟨hs', b, st, s, -, hpub⟩
  · obtain rfl : head' = head := by
      have hh := h'.head_is
      rw [hstore] at hh
      exact HeadIs.unique hh h.head_is
    exact ⟨hsame hs' fun b st hb => (h'.branches b st hb).le, hold⟩
  · refine ⟨hsame hs' fun b' st' hb' => ?_, fun i j hij hj => ?_⟩
    · have hb₀ : (db.branches.erase b).get? b' = some st' := hpub.rest ▸ hb'
      rw [OrdMap.get?_erase] at hb₀
      split_ifs at hb₀
      exact (h.branches b' st' hb₀).le
    · rcases hext.single j hj with hj | rfl
      · exact hold i j hij hj
      · -- the published commit follows the head
        have hhead := HeadIs.unique h'.head_is hpub.managed.head_is
        have hi : i = head.commitId := by
          refine checkedSucc_inj hij ?_
          rw [hhead]
          exact hpub.succ
        subst hi
        have hst := (hs b st hpub.found).visible
        rw [hpub.current] at hst
        refine ⟨(hist head.commitId).cells.overlay st.overlay.entries, ?_, ?_, ?_⟩
        · rw [hext.same _ le_rfl]
          exact hst.1
        · rw [hext.same _ le_rfl]
          exact hst.2
        · rw [hext.same _ le_rfl, nextCells, h.last]
          exact cellRows_inj (h'.cells.symm.trans hpub.managed.cells)

/-- **The property holds after every run** of the branches and of what was published. -/
theorem Created.run_keeps {config : OpenConfig} (h : Created H config db) (hI : Shown I) (ops : List Op) :
    ∃ hist head, Inv H R config.genesis (fun _ _ => True) hist head (Api.run H R ops db) ∧
      HistoryOf H R ops db hist head.commitId ∧ (Api.run H R ops db).Each (ShowsWith I hist) ∧
      PublishedBy I hist head.commitId := by
  obtain ⟨hist₀, head₀, hinv₀, hzero⟩ : ∃ hist head, Inv H R config.genesis (fun _ _ => True) hist head db ∧
      head.commitId = 0 := h.inv fun _ _ => trivial
  have hnone : db.Each (ShowsWith I hist₀) := by
    intro b st hb
    rw [h.initialized.2] at hb
    cases hb
  have hfirst : PublishedBy I hist₀ head₀.commitId := by
    intro i j hij hj
    have hlt := lt_of_lt_of_le (checkedSucc_lt hij).1 hj
    rw [hzero] at hlt
    exact absurd hlt (Fin.not_lt_zero i)
  refine hinv₀.run_with (Q := fun hist head db => db.Each (ShowsWith I hist) ∧ PublishedBy I hist head.commitId)
    hzero ⟨hnone, hfirst⟩ ops (fun _ _ _ _ _ _ _ _ _ _ _ _ _ => trivial) fun op h₁ hQ h₂ hext => ?_
  exact h₁.shows_extend hI hQ.1 hQ.2 op h₂ hext

end Steps

/-! ### The effect of a group -/

section Wrote

variable {σ : Type} [Store σ] [LawfulStore σ] {head : Head} {db : Branches σ} {cells : CellMap} {ε α : Type}

/-- **What a group does to the manager**: nothing, the loss of a stale branch, or, on a branch over the head, what
the group makes of the cells the branch shows. -/
inductive Wrote (cells : CellMap) (db : Branches σ) (head : Head) (b : BranchId) (group : CellOperation ε α) :
    Except (OperationError ε) α × Branches σ → Prop
  | absent (e : BranchError) (hb : db.branches.get? b = none) : Wrote cells db head b group (.error (.branch e), db)
  | stale (st : BranchState) (e : BranchError) (hb : db.branches.get? b = some st) (hc : st.commitId ≠ head.commitId) :
      Wrote cells db head b group (.error (.branch e), db.without b)
  | kept (st : BranchState) (e : OperationError ε) (hb : db.branches.get? b = some st)
      (hc : st.commitId = head.commitId)
      (hfail : st.sealed = none → ∃ fault, (group.runOn (cells.overlay st.overlay.entries)).1 = .error fault ∧
        e = fault.toOperationError) : Wrote cells db head b group (.error e, db.withState b st)
  | done (st : BranchState) (o : CellOverlay) (a : α) (hb : db.branches.get? b = some st)
      (hc : st.commitId = head.commitId) (hs : st.sealed = none)
      (hrun : Prog.Runs group.runOn (cells.overlay st.overlay.entries) a (cells.overlay o.entries)) :
      Wrote cells db head b group (.ok a, db.withState b ⟨st.commitId, o, none⟩)

/-- The outcomes of a call with a result of its own. -/
lemma exec_withBranch (hh : HeadIs (tables db.store) head) (b : BranchId)
    (f : BranchState → Store.Read σ → Except (OperationError ε) α × BranchState) :
    (∃ e, db.branches.get? b = none ∧
      (Prog.mapError OperationError.branch (Branches.withBranch b f) >>= fun r => Prog.ofExcept r).exec db
        = (.error (.branch e), db)) ∨
    (∃ e st, db.branches.get? b = some st ∧ st.commitId ≠ head.commitId ∧
      (Prog.mapError OperationError.branch (Branches.withBranch b f) >>= fun r => Prog.ofExcept r).exec db
        = (.error (.branch e), db.without b)) ∨
    ∃ (st : BranchState) (origin : Store.Read σ), db.branches.get? b = some st ∧ st.commitId = head.commitId ∧
      rows origin = tables db.store ∧
      (Prog.mapError OperationError.branch (Branches.withBranch b f) >>= fun r => Prog.ofExcept r).exec db
        = ((f st origin).1, db.withState b (f st origin).2) := by
  rw [Prog.exec_bind, Prog.exec_mapError]
  unfold Branches.withBranch
  rcases withSlot_cases hh b .handleInvalid (fun state origin => do
      Branches.setBranch b (some (f state origin).2)
      return (f state origin).1) with ⟨hb, he⟩ | ⟨st, hb, hc, he⟩ | ⟨st, origin, hb, hc, hr, he⟩
  · rw [he]
    exact .inl ⟨_, hb, rfl⟩
  · rw [he]
    exact .inr (.inl ⟨_, st, hb, hc, rfl⟩)
  · rw [he]
    exact .inr (.inr ⟨st, origin, hb, hc, hr, rfl⟩)

/-- **The outcomes of a group.** -/
theorem write_wrote (hh : HeadIs (tables db.store) head) (hcells : tables db.store CELL = cellRows cells) (b : BranchId)
    (group : CellOperation ε α) : Wrote cells db head b group ((Branches.write b group).exec db) := by
  unfold Branches.write
  rcases exec_withBranch hh b _ with ⟨e, hb, he⟩ | ⟨e, st, hb, hc, he⟩ | ⟨st, origin, hb, hc, hr, he⟩
  · rw [he]
    exact .absent e hb
  · rw [he]
    exact .stale st e hb hc
  · rw [he]
    have horigin : rows origin CELL = cellRows cells := by rw [hr, hcells]
    cases hs : st.sealed with
    | some s =>
      have hopen : st.requireOpen = .error .sealed := by rw [BranchState.requireOpen, hs]; rfl
      simp only [hopen]
      exact .kept st _ hb hc fun hn => by rw [hs] at hn; cases hn
    | none =>
      have hopen : st.requireOpen = .ok () := by rw [BranchState.requireOpen, hs]; rfl
      simp only [hopen]
      have hresult := write_result horigin group st.overlay
      cases hw : (st.overlay.write origin group).1 with
      | error fault =>
        rw [hw] at hresult
        rw [write_error hw]
        have hkept : Wrote cells db head b group (.error fault.toOperationError, db.withState b st) :=
          .kept st _ hb hc fun _ => ⟨fault, hresult.symm, rfl⟩
        rwa [← hs]
      | ok a =>
        have hrun := run_runOn horigin group st.overlay
        rw [write_ok hw] at hrun
        exact .done st _ a hb hc hs (Prod.ext hrun.1.symm hrun.2.symm)

end Wrote

end GolemDb.Api
