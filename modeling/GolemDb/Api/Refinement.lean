import GolemDb.Api.Abstract
import GolemDb.Api.Capacity

/-!
The code against the abstract database. Seals and commits take the branch to the next number unless
there is none, a committed read sees the contents of the head, and the store opens again under its own
genesis alone; so every call is answered as the abstract database answers it, along every run
(`run_refines`).
-/

namespace GolemDb.Api

open GolemDb.Lib GolemDb.Storage GolemDb.Merkle GolemDb.Cells GolemDb.Index GolemDb.Branch GolemDb.Records

section Represents

variable {H : HashProvider} {R : Roaring} {σ : Type} [Store σ] [LawfulStore σ] {cells : CellMap} {head : Head}
  {db : Branches σ} {a : AbstractDb} {b : BranchId}

/-! ### Seals and commits -/

/-- **Sealing a branch.** -/
theorem Represented.sealBranch (h : Represented head cells db a) (hseal : SealsBranches H R head db b) :
    Answered (((Branches.sealBranch H R b).exec db).1.map SealedCommit.commitId,
      ((Branches.sealBranch H R b).exec db).2)
      (AbstractDb.joined id (a.edit b Draft.sealDraft).1, (a.edit b Draft.sealDraft).2) := by
  refine answered_unwrapped (h.edit b fun st origin d hb hc hr hd hof => ?_)
  have hst := hseal st origin hb hc hr
  unfold Draft.sealDraft
  rw [hd]
  cases hsucc : checkedSucc head.commitId with
  | none =>
    rw [hsucc] at hst
    simp only [hst]
    exact ⟨rfl, hc, hd, hof⟩
  | some c =>
    rw [hsucc] at hst
    obtain ⟨s, hs, hnum, -⟩ := hst
    simp only [hs]
    exact ⟨congrArg Except.ok hnum, hc, trivial, rfl, hof.machine⟩

/-- The publication of a sealed branch over the head. -/
lemma commitSlot_runs {st st' : BranchState} {origin : Store.Read σ} {s : SealedCommit}
    (hh : HeadIs (tables db.store) head)
    (hs : st.sealState H R origin = .ok (s, st')) (hc : st'.commitId = head.commitId) (hw : s.writes.Valid) :
    ∃ store', (Branches.commitSlot H R b st origin).exec db = (.ok s.commitId, { db.without b with store := store' }) ∧
      tables store' = publishedRows (tables db.store) s := by
  have hh' : HeadIs (tables (db.withState b st').store) head := hh
  obtain ⟨store', hpub, htables⟩ := publish_runs hh' hw
  rw [← hc] at hpub
  have hremove : Prog.Runs (Branches.settleCommit b (.ok s.commitId))
      { db.withState b st' with store := store' } s.commitId
      { db.without b with store := store' } := by
    show (Except.ok s.commitId,
      ({ db with store := store', branches := (db.branches.set b (some st')).set b none } : Branches σ)) = _
    rw [OrdMap.set_set]
    rfl
  have hout : Prog.Runs (Prog.outcome (Branches.publish st'.commitId s) : Prog BranchError (Branches σ) _)
      (db.withState b st') (.ok s.commitId) { db.withState b st' with store := store' } := by
    show (Except.ok ((Branches.publish st'.commitId s).exec (db.withState b st')).1, _) = _
    rw [hpub]
  exact ⟨store',
    (Prog.Runs.ofExcept hs).bind ((show Prog.Runs (Branches.setBranch b (some st')) db () (db.withState b st')
    from rfl).bind (hout.bind hremove)), htables⟩

/-- **Committing a branch** publishes the contents it shows. -/
theorem Represented.commit (h : Represented head cells db a) (hm : Managed H R head cells db)
    (hseal : SealsBranches H R head db b) : Matched id ((Branches.commit H R b).exec db) (a.commit b) := by
  refine h.withDraft b _ fun st origin d hb hc hadm hr hd hof => ?_
  have hst := hseal st origin hb hc hr
  rw [hd]
  cases hsucc : checkedSucc head.commitId with
  | none =>
    rw [hsucc] at hst
    have hfail : (Branches.commitSlot H R b st origin).exec db = (.error .commitNumberExhausted, db) := by
      unfold Branches.commitSlot
      rw [hst]
      rfl
    rw [hfail]
    exact ⟨rfl, head, cells, h⟩
  | some c =>
    rw [hsucc] at hst
    obtain ⟨s, hs, rfl, hvalid, origin', hr', hcomp⟩ := hst
    obtain ⟨store', hrun, htables⟩ := commitSlot_runs (b := b) h.head_is hs hc hvalid
    obtain ⟨-, hcells⟩ := hm.compute_head hr' hcomp
    obtain ⟨hvis, hcont⟩ := hof.shows
    rw [hrun]
    refine ⟨rfl, ⟨s.commitId, s.stateRoot, s.indexRoot⟩, _, ?_, ?_, rfl, hcont.published hvis.consistent head,
      h.next, fun b' => ?_⟩
    · show (tables store' SUPERBLOCK).get? HEAD_KEY = _
      rw [htables, publishedRows, if_pos rfl, OrdMap.get?_insert, if_pos rfl]
    · show tables store' CELL = _
      rw [htables, publishedRows, if_neg (by decide), hcells]
    · -- the branches that are left began at earlier commits
      have hrel : Option.Rel (Alike head.commitId cells) ((db.branches.erase b).get? b') ((a.drafts.erase b).get? b') :=
        (h.without b).drafts b'
      have hlt : ∀ st', (db.branches.erase b).get? b' = some st' → st'.commitId < s.commitId := fun st' hst' =>
        lt_of_le_of_lt ((hm.branches.without b) b' st' hst').le (checkedSucc_lt hsucc).1
      show Option.Rel _ ((db.branches.erase b).get? b') ((a.drafts.erase b).get? b')
      generalize (db.branches.erase b).get? b' = x at hrel hlt ⊢
      generalize (a.drafts.erase b).get? b' = y at hrel ⊢
      cases hrel with
      | none => exact .none
      | some hr => exact .some ⟨hr.1, fun hc' => absurd hc' (hlt _ rfl).ne⟩

/-- Dropping a branch. -/
lemma Represented.discard (h : Represented head cells db a) : Matched id ((Branches.discard b).exec db) (a.discard b) :=
  h.withDraft b _ fun _ _ _ _ _ _ _ _ _ => ⟨rfl, head, cells, h.without b⟩

/-! ### Committed reads -/

/-- **Reading a user's record of the head.** -/
theorem Represented.readCommitted (h : Represented head cells db a) (hcons : Consistent head.commitId cells)
    {K : RecordKey} (hK : System.byKey K = none) (projection : Option (List CellName)) :
    Records.readCommitted db.store none K projection = a.committed.record K projection ∧
    ∀ c, Records.readCommitted db.store (some c) K projection
      = if c ≠ a.head then .error (.commitUnavailable c a.head) else a.committed.record K projection := by
  obtain ⟨tx, htx, hrows⟩ := LawfulStore.beginRead_eq db.store
  have hread : readHead tx = .ok head.commitId := HeadIs.readHead (by rw [hrows]; exact h.head_is)
  have hdone : readCommittedByKey tx K projection = a.committed.record K projection := by
    rw [readCommittedByKey_eq (by rw [hrows, h.table]), h.committed.recordOf hcons hK]
  refine ⟨?_, fun c => ?_⟩
  · unfold Records.readCommitted committedSnapshot
    rw [htx, mapError_ok, ok_bind, hread, mapError_ok, ok_bind]
    exact hdone
  · unfold Records.readCommitted committedSnapshot
    rw [htx, mapError_ok, ok_bind, hread, mapError_ok, ok_bind, h.number]
    by_cases hc : c ≠ head.commitId
    · simp only
      rw [if_pos hc, if_pos hc]
      rfl
    · simp only
      rw [if_neg hc, if_neg hc]
      exact hdone

end Represents

/-! ### The invariant of runs -/

section Runs

variable {H : HashProvider} {R : Roaring} {σ : Type} [Store σ] [LawfulStore σ] {head : Head}
  {hist : History} {g : Genesis} {P : Set Bytes} {db : Branches σ} {a : AbstractDb} {Good : StateProp}

/-- A settled database seals its branches over the head. -/
lemma Inv.sealsBranches (hinj : Set.InjOn H.hash P) (h : Inv H R g (Settled H R P) hist head db)
    {b : BranchId} {op : Op}
    (hop : op = .sealBranch b ∨ op = .commit b) (hP : ∀ x ∈ op.preimages H R db, x ∈ P) :
    SealsBranches H R head db b := by
  intro st origin hb hc hr
  cases hs : st.sealed with
  | some s =>
    obtain ⟨origin', hr', hcomp⟩ := (h.branches b st hb).sealed s hs hc
    obtain ⟨-, -, -, -, -, hvalid⟩ := compute_ok hcomp
    rw [(h.managed.compute_head hr' hcomp).1]
    refine ⟨s, ?_, rfl, hvalid, origin', hr', hcomp⟩
    unfold BranchState.sealState
    rw [hs]
    simp only [← hs]
  | none =>
    cases hsucc : checkedSucc head.commitId with
    | none =>
      have hread : readHeadState origin = .ok head := readHeadState_eq (by rw [hr]; exact h.head_is)
      unfold BranchState.sealState compute
      rw [hs, hread]
      simp only [ok_bind, hsucc]
      rfl
    | some c =>
      rw [preimages_over h.head_is h.cells hb hc op hop] at hP
      obtain ⟨s, hcomp, hnum, -⟩ := h.seals hinj hb hc hsucc hP hr
      obtain ⟨-, -, -, -, -, hvalid⟩ := compute_ok hcomp
      refine ⟨s, ?_, hnum, hvalid, origin, hr, hcomp⟩
      unfold BranchState.sealState
      rw [hs, hcomp]
      rfl

/-- The outcome of opening a store of a run again. -/
def reopening (H : HashProvider) (g : Genesis) (head : Head) (maxKey maxValue : ℕ) (config : OpenConfig) :
    Except OpenError OpenInfo :=
  match config.genesis.validate maxKey maxValue with
  | .error e => .error e
  | .ok () =>
    if config.genesis ≠ g then .error .genesisMismatch
    else if config.mode = .createNew then .error .alreadyInitialized
    else .ok (OpenInfo.new false head (identity H g (initialCells g)))

/-- **How the store of a run opens again**, whatever the configuration. -/
lemma Inv.openStore_eq [WriterCursor σ] (hinj : Set.InjOn H.hash P)
    (h : Inv H R g (fun r v => Settled H R P r v ∧ Formatted H g r) hist head db)
    (hvalid : g.validate (Store.maxKeySize db.store) (Store.maxValueSize db.store) = .ok ()) (config : OpenConfig)
    (hids : ∀ g', g' = g ∨ g' = config.genesis → identityBytes g' (initialCells g') ∈ P) :
    (openStore H config).exec db.store
      = (reopening H g head (Store.maxKeySize db.store) (Store.maxValueSize db.store) config, db.store) := by
  unfold reopening
  cases hv : config.genesis.validate (Store.maxKeySize db.store) (Store.maxValueSize db.store) with
  | error e =>
    show openStore H config db.store = _
    unfold openStore
    rw [hv]
  | ok u =>
    obtain ⟨L, hL⟩ := WriterCursor.lawful (σ := σ)
    obtain ⟨tx, htx, hrows⟩ := LawfulStore.beginWrite_eq db.store
    rw [← hL] at hrows
    have hversion : hist head.commitId = ⟨head, (hist head.commitId).cells⟩ := by
      show (⟨(hist head.commitId).head, (hist head.commitId).cells⟩ : Version) = _
      rw [h.last]
    have hsettled := h.good.1
    rw [hversion] at hsettled
    obtain ⟨hsame, hother⟩ := reopens_of_settled hinj hrows hsettled h.good.2 h.head_is h.checked
    by_cases hne : config.genesis = g
    · obtain ⟨tx', hp⟩ := hsame config.mode
      have hconfig : config = ⟨g, config.mode⟩ := by rw [← hne]
      rw [if_neg (not_not.mpr hne), hconfig]
      refine openStore_of_prepare ⟨g, config.mode⟩ htx hvalid hp fun info he => ?_
      split_ifs at he
      rw [← Except.ok.inj he]
      rfl
    · rw [if_pos hne]
      refine openStore_of_prepare config htx hv (hother H config hne (fun _ => rfl) (hinj.mono fun x hx => ?_))
        (by rintro _ ⟨⟩)
      rcases hx with rfl | rfl
      · exact hids g (.inl rfl)
      · exact hids config.genesis (.inr rfl)

/-- **Opening again** is matched: a refused opening changes nothing, another one loses the branches alone. -/
lemma Represented.reopen {cells : CellMap} (hr : Represented head cells db a) (settings : Settings)
    {config : OpenConfig} (hopen : (openStore H config).exec db.store
      = (reopening H settings.genesis head settings.maxKey settings.maxValue config, db.store)) :
    Op.outcome H R (.reopen config) db = .opened (a.reopen settings config).1 ∧
      ∃ head cells, Represented head cells (Op.exec H R (.reopen config) db) (a.reopen settings config).2 := by
  have hout : Op.outcome H R (.reopen config) db = .opened
      ((reopening H settings.genesis head settings.maxKey settings.maxValue config).map OpenInfo.commitId) := by
    show Outcome.opened (((openStore H config).exec db.store).1.map OpenInfo.commitId) = _
    rw [hopen]
  have hexec : Op.exec H R (.reopen config) db
      = match reopening H settings.genesis head settings.maxKey settings.maxValue config with
        | .error _ => db
        | .ok _ => ⟨db.store, OrdMap.empty, db.nextBranchId⟩ := by
    show Api.reopen H config db = _
    unfold Api.reopen
    rw [hopen]
    cases reopening H settings.genesis head settings.maxKey settings.maxValue config with
    | error e => rfl
    | ok info => simp only [new_existing hr.head_is]
  rw [hout, hexec]
  unfold reopening AbstractDb.reopen
  cases config.genesis.validate settings.maxKey settings.maxValue with
  | error e => exact ⟨rfl, _, _, hr⟩
  | ok u =>
    simp only
    by_cases hne : config.genesis ≠ settings.genesis
    · rw [if_pos hne, if_pos hne]
      exact ⟨rfl, _, _, hr⟩
    · rw [if_neg hne, if_neg hne]
      by_cases hmode : config.mode = .createNew
      · rw [if_pos hmode, if_pos hmode]
        exact ⟨rfl, _, _, hr⟩
      · rw [if_neg hmode, if_neg hmode]
        exact ⟨congrArg (fun c => Outcome.opened (.ok c)) hr.number.symm, head, _, hr.head_is, hr.table,
          hr.number, hr.committed, hr.next, fun b => .none⟩

/-- A read that the abstract database answers: reserved records show how the engine stores the others. -/
def Op.Plain : Op → Prop
  | .get _ key _ => System.byKey key = none
  | _ => True

/-- **Every call is answered as the abstract database answers it.** -/
theorem Inv.step_refines [WriterCursor σ] (hinj : Set.InjOn H.hash P)
    (h : Inv H R g (fun r v => Settled H R P r v ∧ Formatted H g r) hist head db)
    (hr : Represented head (hist head.commitId).cells db a) (op : Op) (hplain : op.Plain)
    (hP : ∀ x ∈ op.preimages H R db, x ∈ P)
    (hvalid : g.validate (Store.maxKeySize db.store) (Store.maxValueSize db.store) = .ok ())
    (hids : ∀ config, op = .reopen config → ∀ g', g' = g ∨ g' = config.genesis →
      identityBytes g' (initialCells g') ∈ P) :
    op.outcome H R db = (a.step ⟨g, Store.maxKeySize db.store, Store.maxValueSize db.store⟩ op).1 ∧
      ∃ head cells, Represented head cells (op.exec H R db)
        (a.step ⟨g, Store.maxKeySize db.store, Store.maxValueSize db.store⟩ op).2 := by
  have hcons := h.chain.consistent _ (le_refl head.commitId)
  have hl := h.chain.limits _ (le_refl head.commitId)
  have hset : Inv H R g (Settled H R P) hist head db := h.mono fun _ _ hg => hg.1
  have answered : ∀ {ε α : Type} {out : Except ε α × Branches σ} {out' : Except ε α × AbstractDb}
      {wrap : Except ε α → Outcome},
      Answered out out' → wrap out.1 = wrap out'.1 ∧ ∃ head cells, Represented head cells out.2 out'.2 := by
    rintro ε α out out' wrap ⟨hres, hrep⟩
    exact ⟨congrArg wrap hres, hrep⟩
  cases op with
  | begin => exact answered (hr.begin hcons)
  | create b K values =>
    exact answered (hr.mutate (u := .create K values) hl fun hK m s hm hml hs => create_mirrors hs hm hml hK values)
  | patch b K changes =>
    exact answered (hr.mutate (u := .patch K changes) hl fun hK m s hm hml hs => patch_mirrors hs hm hml hK changes)
  | delete b K => exact answered (hr.mutate (u := .delete K) hl fun hK m s hm hml hs => delete_mirrors hs hm hml hK)
  | get target K projection =>
    cases target with
    | head => exact ⟨congrArg Outcome.found (hr.readCommitted hcons hplain projection).1, _, _, hr⟩
    | commit c => exact ⟨congrArg Outcome.found ((hr.readCommitted hcons hplain projection).2 c), _, _, hr⟩
    | branch b => exact answered (hr.read hplain projection)
  | branchInfo b => exact ⟨congrArg Outcome.info hr.branchInfo.1, hr.branchInfo.2⟩
  | checkpoint b => exact answered hr.checkpoint
  | rollback b => exact answered hr.rollback
  | sealBranch b => exact answered (hr.sealBranch (hset.sealsBranches hinj (.inl rfl) hP))
  | commit b =>
    obtain ⟨hres, hrep⟩ := hr.commit hset.managed (hset.sealsBranches hinj (.inr rfl) hP)
    rw [Except.map_id] at hres
    exact ⟨congrArg Outcome.numbered hres, hrep⟩
  | discard b =>
    obtain ⟨hres, hrep⟩ := hr.discard (b := b)
    rw [Except.map_id] at hres
    exact ⟨congrArg Outcome.done hres, hrep⟩
  | reopen config => exact hr.reopen ⟨g, _, _⟩ (h.openStore_eq hinj hvalid config (hids config rfl))

/-- The identities that the openings of a run compare. -/
def identityPreimages (g : Genesis) (ops : List Op) : List Bytes :=
  identityBytes g (initialCells g) :: ops.filterMap fun op =>
    match op with
    | .reopen config => some (identityBytes config.genesis (initialCells config.genesis))
    | _ => none

lemma mem_identityPreimages {ops : List Op} {config : OpenConfig} (h : .reopen config ∈ ops) {g' : Genesis}
    (hg : g' = g ∨ g' = config.genesis) : identityBytes g' (initialCells g') ∈ identityPreimages g ops := by
  rcases hg with rfl | rfl
  · exact List.mem_cons_self ..
  · exact List.mem_cons_of_mem _ (List.mem_filterMap.mpr ⟨_, h, rfl⟩)

/-- The answers to calls from a settled state on, and the state after them. -/
lemma Inv.refines [WriterCursor σ] (hinj : Set.InjOn H.hash P) {settings : Settings} (hgenesis : settings.genesis = g)
    (hvalid : g.validate settings.maxKey settings.maxValue = .ok ()) (ops : List Op) :
    ∀ {hist : History} {head : Head} {db : Branches σ} {a : AbstractDb},
      Inv H R g (fun r v => Settled H R P r v ∧ Formatted H g r) hist head db →
      Represented head (hist head.commitId).cells db a →
      (∀ part, part <+: ops → Store.maxKeySize (Api.run H R part db).store = settings.maxKey ∧
        Store.maxValueSize (Api.run H R part db).store = settings.maxValue) →
      (∀ op ∈ ops, op.Plain) → (∀ x ∈ occurring H R ops db, x ∈ P) →
      (∀ config, .reopen config ∈ ops → ∀ g', g' = g ∨ g' = config.genesis → identityBytes g' (initialCells g') ∈ P) →
      outcomes H R ops db = a.answers settings ops ∧ ∃ hist head,
        Inv H R g (fun r v => Settled H R P r v ∧ Formatted H g r) hist head (Api.run H R ops db) ∧
        Represented head (hist head.commitId).cells (Api.run H R ops db) (a.after settings ops) := by
  induction ops with
  | nil => exact fun h hr _ _ _ _ => ⟨rfl, _, _, h, hr⟩
  | cons op ops ih =>
    intro hist head db a h hr hlimits hplain hP hids
    obtain ⟨hkey, hvalue⟩ : Store.maxKeySize db.store = settings.maxKey ∧
        Store.maxValueSize db.store = settings.maxValue := hlimits [] List.nil_prefix
    have hsettings : (⟨g, Store.maxKeySize db.store, Store.maxValueSize db.store⟩ : Settings) = settings := by
      rw [hkey, hvalue, ← hgenesis]
    obtain ⟨hout, head₁, cells₁, hr₁⟩ := h.step_refines hinj hr op (hplain op (List.mem_cons_self ..))
      (fun x hx => hP x (List.mem_append_left _ hx)) (by rw [hkey, hvalue]; exact hvalid)
      (fun config he => hids config (he ▸ List.mem_cons_self ..))
    rw [hsettings] at hout hr₁
    obtain ⟨hist', head', h', -⟩ := h.step op fun b hb st origin s hst hc hrows hs =>
      ⟨(h.mono fun _ _ hg => hg.1).publishes_settled hinj
        (fun x hx => hP x (List.mem_append_left _ (hb ▸ hx))) st origin s hst hc hrows hs, h.good.2.published hrows hs⟩
    obtain rfl := HeadIs.unique hr₁.head_is h'.head_is
    obtain rfl := cellRows_inj (hr₁.table.symm.trans h'.cells)
    obtain ⟨hrest, hafter⟩ := ih h' hr₁
      (fun part hpart => hlimits (op :: part) (List.cons_prefix_cons.mpr ⟨rfl, hpart⟩))
      (fun x hx => hplain x (List.mem_cons_of_mem _ hx))
      (fun x hx => hP x (List.mem_append_right _ hx)) fun config he => hids config (List.mem_cons_of_mem _ he)
    rw [outcomes, AbstractDb.answers, hout, hrest]
    exact ⟨rfl, hafter⟩

section Created

variable [WriterCursor σ] {config : OpenConfig}

/-- The answers of a created database to calls, and its state after them. -/
lemma Created.refines (h : Created H config db) (ops : List Op) (hplain : ∀ op ∈ ops, op.Plain)
    (hvalid : config.genesis.validate (Store.maxKeySize db.store) (Store.maxValueSize db.store) = .ok ())
    (hlimits : ∀ part, part <+: ops → Store.maxKeySize (Api.run H R part db).store = Store.maxKeySize db.store ∧
      Store.maxValueSize (Api.run H R part db).store = Store.maxValueSize db.store)
    (hinj : Set.InjOn H.hash P) (hP : ∀ x ∈ runPreimages H R config.genesis ops db, x ∈ P)
    (hids : ∀ x ∈ identityPreimages config.genesis ops, x ∈ P) {settings : Settings}
    (hsettings : settings = ⟨config.genesis, Store.maxKeySize db.store, Store.maxValueSize db.store⟩) :
    outcomes H R ops db = (AbstractDb.new db.nextBranchId).answers settings ops ∧ ∃ hist head,
      Inv H R config.genesis (fun r v => Settled H R P r v ∧ Formatted H config.genesis r) hist head
        (Api.run H R ops db) ∧
      Represented head (hist head.commitId).cells (Api.run H R ops db)
        ((AbstractDb.new db.nextBranchId).after settings ops) := by
  obtain ⟨store, info, hopen, hc⟩ := h.opened
  have hformat : Formatted H config.genesis (tables db.store) := (openStore_writes hopen hc).formatted
  obtain ⟨hist, head, hinv, hzero⟩ : ∃ hist head, Inv H R config.genesis
      (fun r v => Settled H R P r v ∧ Formatted H config.genesis r) hist head db ∧ head.commitId = 0 :=
    h.inv fun head hhead => ⟨h.initialized.1.settled hinj (fun x hx => hP x (List.mem_append_left _ hx)) hhead, hformat⟩
  subst hsettings
  refine Inv.refines hinj rfl hvalid ops hinv ?_ hlimits hplain
    (fun x hx => hP x (List.mem_append_right _ hx))
    fun config' he g' hg => hids _ (mem_identityPreimages he hg)
  have hcells : (hist head.commitId).cells = initialCells config.genesis := by rw [hzero, hinv.chain.genesis]
  refine ⟨hinv.head_is, hinv.cells, hzero.symm, ?_, rfl, fun b => ?_⟩
  · rw [hcells]
    exact hasContents_initial config.genesis
  · rw [h.initialized.2]
    exact .none

/-- **The API refines the abstract database.** From a created database whose ceilings admit its genesis and do not
change along the run, every sequence of calls, on any branches and with reopenings under any configuration, is
answered as the abstract database answers it. -/
theorem run_refines (h : Created H config db) (ops : List Op) (hplain : ∀ op ∈ ops, op.Plain)
    (hvalid : config.genesis.validate (Store.maxKeySize db.store) (Store.maxValueSize db.store) = .ok ())
    (hlimits : ∀ part, part <+: ops → Store.maxKeySize (run H R part db).store = Store.maxKeySize db.store ∧
      Store.maxValueSize (run H R part db).store = Store.maxValueSize db.store)
    (hinj : Set.InjOn H.hash {x | x ∈ runPreimages H R config.genesis ops db ++ identityPreimages config.genesis ops}) :
    outcomes H R ops db = (AbstractDb.new db.nextBranchId).answers
      ⟨config.genesis, Store.maxKeySize db.store, Store.maxValueSize db.store⟩ ops :=
  (h.refines ops hplain hvalid hlimits hinj (fun _ hx => List.mem_append_left _ hx)
    (fun _ hx => List.mem_append_right _ hx) rfl).1

end Created

/-! ### A run in memory -/

/-- Two branches race: one creates a record, deletes it and takes that back. -/
def refinedOps : List Op :=
  [.begin, .begin, .create 0 demoKey rootCells, .checkpoint 0, .delete 0 demoKey,
    .get (.branch 0) demoKey none, .rollback 0,
    .commit 0, .delete 1 demoKey, .get .head demoKey none, .reopen ⟨demoConfig.genesis, .createNew⟩, .reopen demoConfig]

lemma refinedOps_plain : ∀ op ∈ refinedOps, op.Plain := by
  have hkey : System.byKey demoKey = none := by decide
  simp [refinedOps, Op.Plain, hkey]

/-- The polynomial hash separates what the run hashes. -/
lemma refinedOps_injOn : Set.InjOn Trie.polyHash.hash
    {x | x ∈ runPreimages Trie.polyHash arrayRoaring demoConfig.genesis refinedOps demoDb ++
      identityPreimages demoConfig.genesis refinedOps} :=
  polyHash_injOn (by decide +kernel)

end Runs

theorem run_refines_demo : outcomes Trie.polyHash arrayRoaring refinedOps demoDb
    = [.began (.ok 0), .began (.ok 1), .created (.ok demoKey), .done (.ok ()), .mutated (.ok ()),
      .found (.error .notFound), .done (.ok ()), .numbered (.ok 1), .mutated (.error (.branch .handleInvalid)),
      .found (.ok ⟨demoKey, rootCells.insert Reserved.KEY (CellValue.fromBytes32 demoKey)⟩),
        .opened (.error .alreadyInitialized), .opened (.ok 1)] := by
  have hlimits : ∀ store : MemoryStore, Store.maxKeySize store = Store.maxKeySize demoDb.store ∧
      Store.maxValueSize store = Store.maxValueSize demoDb.store := fun _ => ⟨rfl, rfl⟩
  exact (run_refines demoDb_created refinedOps refinedOps_plain (by decide) (fun _ _ => hlimits _)
    refinedOps_injOn).trans (by decide +kernel)

end GolemDb.Api
