import GolemDb.Api.Roots
import GolemDb.Branch.Linear

/-!
The database under concurrent calls. Calls of the API on any branches of any managers, over one
created store, are interleaved step by step. They are linearizable, so what holds of every state
that atomic calls reach holds of every state an interleaving reaches: each committed state is the
next of one history, and the open branches show consistent cells.
-/

namespace GolemDb.Api

open GolemDb.Lib GolemDb.Storage GolemDb.Merkle GolemDb.Cells GolemDb.Index GolemDb.Branch GolemDb.Records

/-! ### Calls as requests -/

/-- A group whose result is not looked at. -/
def erase {ε α : Type} : CellOperation ε α → CellOperation Unit Unit
  | .done (.ok _) => .done (.ok ())
  | .done (.error _) => .done (.error ())
  | .panic => .panic
  | .get key next => .get key fun r => erase (next r)
  | .scan pfx next => .scan pfx fun r => erase (next r)
  | .set key value next => .set key value (erase next)

/-- A mutation of a reserved key is rejected before it reaches the manager. -/
def mutation {α : Type} (b : BranchId) (key : RecordKey) (group : CellOperation RecordError α) :
    Option (BranchId × Request) :=
  match System.byKey key with
  | some _ => none
  | none => some (b, .ordinary (.write (erase group)))

/-- **The request to the manager** that a call of the API makes. -/
def Op.request : Op → Option (BranchId × Request)
  | .begin => none
  | .create b key values => mutation b key (createGroup key values)
  | .patch b key changes => mutation b key (patchGroup key changes)
  | .delete b key => mutation b key (deleteGroup key)
  | .get (.branch b) key projection => some (b, .ordinary (.read (erase (readBranchRecord key projection))))
  | .get _ _ _ => none
  | .branchInfo b => some (b, .ordinary .branchInfo)
  | .checkpoint b => some (b, .ordinary .checkpoint)
  | .rollback b => some (b, .ordinary .rollback)
  | .sealBranch b => some (b, .ordinary .sealBranch)
  | .commit b => some (b, .commit)
  | .discard b => some (b, .discard)
  | .reopen _ => none

/-- A step of a client of the API: it begins a branch, makes a call, or goes on with one. -/
def ApiLabel : Label → Prop
  | .begin _ _ => True
  | .call _ _ b req => ∃ op : Op, op.request = some (b, req)
  | .advance _ => True

section Requests

variable {H : HashProvider} {R : Roaring} {σ : Type} [Store σ] {db : Branches σ} {b : BranchId} {ε α β : Type}

lemma erase_run {ρ : Type} [ReadTransaction ρ] (origin : ρ) (op : CellOperation ε α) : ∀ o : CellOverlay,
    ((erase op).run origin o).2 = (op.run origin o).2 ∧
      (((erase op).run origin o).1 = .ok () ↔ ∃ a, (op.run origin o).1 = .ok a) := by
  induction op with
  | done r =>
    intro o
    cases r with
    | ok a => exact ⟨rfl, fun _ => ⟨a, rfl⟩, fun _ => rfl⟩
    | error e => exact ⟨rfl, by rintro ⟨⟩, by rintro ⟨_, ⟨⟩⟩⟩
  | panic => exact fun o => ⟨rfl, by rintro ⟨⟩, by rintro ⟨_, ⟨⟩⟩⟩
  | get key next ih => exact fun o => ih _ o
  | scan pfx next ih => exact fun o => ih _ o
  | set key value next ih => exact fun o => ih (o.set key value)

/-- **A group leaves in a branch what it leaves when its result is dropped.** -/
lemma erase_write {ρ : Type} [ReadTransaction ρ] (origin : ρ) (op : CellOperation ε α) (o : CellOverlay) :
    (o.write origin (erase op)).2 = (o.write origin op).2 := by
  obtain ⟨hoverlay, hok⟩ := erase_run origin op o
  unfold CellOverlay.write
  rcases he : (erase op).run origin o with ⟨r | ⟨⟩, o₁⟩ <;> rcases hrun : op.run origin o with ⟨r' | a, o₂⟩ <;>
    rw [he, hrun] at hoverlay hok <;> obtain rfl : o₁ = o₂ := hoverlay
  · rfl
  · cases hok.mpr ⟨a, rfl⟩
  · obtain ⟨_, ⟨⟩⟩ := hok.mp rfl
  · rfl

variable [LawfulStore σ] {head : Head}

/-- Calls that change a branch alike leave the manager alike. -/
lemma withBranch_alike (hh : HeadIs (tables db.store) head) {f : BranchState → Store.Read σ → α × BranchState}
    {f' : BranchState → Store.Read σ → β × BranchState} (hf : ∀ st origin, (f st origin).2 = (f' st origin).2) :
    ((Branches.withBranch b f).exec db).2 = ((Branches.withBranch b f').exec db).2 := by
  cases hb : db.branches.get? b with
  | none => rw [Branches.withBranch, Branches.withBranch, withSlot_missing hb, withSlot_missing hb]
  | some st =>
    obtain ⟨origin, hbegin, hrows⟩ := LawfulStore.beginRead_eq db.store
    have hread : readHead origin = .ok head.commitId := HeadIs.readHead (by rw [hrows]; exact hh)
    by_cases hc : st.commitId = head.commitId
    · have hadm : Admits db st origin := ⟨hbegin, by rw [hread, hc]⟩
      rw [withBranch_admits hb hadm, withBranch_admits hb hadm, hf]
    · rw [Branches.withBranch, Branches.withBranch, withSlot_stale hb hbegin hread (Ne.symm hc),
        withSlot_stale hb hbegin hread (Ne.symm hc)]

lemma erase_exec_write (hh : HeadIs (tables db.store) head) (group : CellOperation ε α) :
    ((Branches.write b (erase group)).exec db).2 = ((Branches.write b group).exec db).2 := by
  rw [Branches.write, Branches.write, exec_ofExcept_self, exec_ofExcept_self, Prog.exec_mapError, Prog.exec_mapError]
  refine withBranch_alike hh fun st origin => ?_
  cases st.requireOpen with
  | error e => rfl
  | ok u => exact congrArg (fun o => { st with overlay := o }) (erase_write origin group st.overlay)

lemma erase_exec_read (hh : HeadIs (tables db.store) head) (group : CellOperation ε α) :
    ((Branches.read b (erase group)).exec db).2 = ((Branches.read b group).exec db).2 := by
  rw [Branches.read, Branches.read, exec_ofExcept, exec_ofExcept, Prog.exec_mapError, Prog.exec_mapError]
  exact withBranch_alike hh fun st origin => rfl

lemma mutation_exec (hh : HeadIs (tables db.store) head) {key : RecordKey} {group : CellOperation RecordError α}
    {b' : BranchId} {req : Request} (hreq : mutation b key group = some (b', req)) :
    (req.exec H R b' db).2 = (((do
      Prog.ofExcept (rejectReserved key)
      Prog.mapError RecordError.ofOperation (Branches.write b group)) :
        Prog RecordError (Branches σ) α).exec db).2 := by
  unfold mutation at hreq
  cases hkey : System.byKey key with
  | some s =>
    rw [hkey] at hreq
    cases hreq
  | none =>
    rw [hkey] at hreq
    obtain ⟨rfl, rfl⟩ := Prod.mk.inj (Option.some.inj hreq)
    rcases exec_rejectReserved key (Prog.mapError RecordError.ofOperation (Branches.write b group)) db with
      ⟨hne, -⟩ | ⟨-, he⟩
    · exact absurd hkey hne
    · rw [he, Prog.exec_mapError]
      exact erase_exec_write hh group

/-- **The request of a call does to the manager what the call does.** -/
theorem Op.request_exec (hh : HeadIs (tables db.store) head) {op : Op} {req : Request}
    (hreq : op.request = some (b, req)) : (req.exec H R b db).2 = op.exec H R db := by
  cases op with
  | begin => cases hreq
  | create b' key values => exact mutation_exec hh hreq
  | patch b' key changes => exact mutation_exec hh hreq
  | delete b' key => exact mutation_exec hh hreq
  | get target key projection =>
    cases target with
    | head => cases hreq
    | commit c => cases hreq
    | branch b' =>
      obtain ⟨rfl, rfl⟩ := Prod.mk.inj (Option.some.inj hreq)
      show _ = ((Prog.mapError RecordError.ofOperation (Branches.read b' (readBranchRecord key projection))).exec db).2
      rw [Prog.exec_mapError]
      exact erase_exec_read hh _
  | branchInfo b' =>
    obtain ⟨rfl, rfl⟩ := Prod.mk.inj (Option.some.inj hreq)
    rfl
  | checkpoint b' =>
    obtain ⟨rfl, rfl⟩ := Prod.mk.inj (Option.some.inj hreq)
    rfl
  | rollback b' =>
    obtain ⟨rfl, rfl⟩ := Prod.mk.inj (Option.some.inj hreq)
    rfl
  | sealBranch b' =>
    obtain ⟨rfl, rfl⟩ := Prod.mk.inj (Option.some.inj hreq)
    rfl
  | commit b' =>
    obtain ⟨rfl, rfl⟩ := Prod.mk.inj (Option.some.inj hreq)
    rfl
  | discard b' =>
    obtain ⟨rfl, rfl⟩ := Prod.mk.inj (Option.some.inj hreq)
    rfl
  | reopen config => cases hreq

end Requests

/-! ### The invariant of many managers -/

section Managers

variable {H : HashProvider} {R : Roaring} {σ : Type} [Store σ] [LawfulStore σ] {g : Genesis} {Good : StateProp}
  {hist hist' : History} {head head' : Head} {a a' : Managers σ} {p : Point}

/-- **Every manager satisfies the invariant of runs** over the one history, and a branch that is about to begin
begins at a state of it. -/
structure ManagersInv (H : HashProvider) (R : Roaring) (g : Genesis) (Good : StateProp) (hist : History) (head : Head)
    (a : Managers σ) : Prop where
  each : ∀ m, Inv H R g Good hist head (a.manager m)
  heads : ∀ c n, a.heads c = some n → n ≤ head.commitId

/-- Only a commit touches the store. -/
lemma Request.exec_store {db : Branches σ} {b : BranchId} (hh : HeadIs (tables db.store) head) {req : Request}
    (hreq : req ≠ .commit) : (req.exec H R b db).2.store = db.store := by
  cases hb : db.branches.get? b with
  | none => rw [req.exec_missing hb]
  | some st =>
    obtain ⟨origin, hbegin, hrows⟩ := LawfulStore.beginRead_eq db.store
    have hread : readHead origin = .ok head.commitId := HeadIs.readHead (by rw [hrows]; exact hh)
    by_cases hc : st.commitId = head.commitId
    · have hadm : Admits db st origin := ⟨hbegin, by rw [hread, hc]⟩
      cases req with
      | ordinary op =>
        rw [Request.exec_ordinary hb hadm]
        rfl
      | commit => exact absurd rfl hreq
      | discard =>
        rw [Request.exec_discard hb hadm]
        rfl
    · rw [req.exec_stale hb hbegin hread (Ne.symm hc)]
      rfl

/-- **A request keeps the invariant**, when what it publishes has the property; the tables stay or the head is a
later one. -/
lemma Inv.request {db : Branches σ} {b : BranchId} {req : Request} (h : Inv H R g Good hist head db)
    (hreq : ∃ op : Op, op.request = some (b, req))
    (hpub : tables (req.exec H R b db).2.store ≠ tables db.store → Inv.Publishes H R Good hist head db b) :
    ∃ hist' head', Inv H R g Good hist' head' (req.exec H R b db).2 ∧ Extends hist head.commitId hist' head'.commitId ∧
      (tables (req.exec H R b db).2.store = tables db.store ∨ head.commitId < head'.commitId) := by
  by_cases hcommit : req = .commit
  · subst hcommit
    have hexec : (Request.commit.exec H R b db).2 = ((Branches.commit H R b).exec db).2 := rfl
    rw [hexec] at hpub ⊢
    rcases h.managed.commit b with ⟨e, he⟩ | he | ⟨st, origin, s, store', hb, hc, hr, hcomp, ht, he, hm⟩
    · rw [he]
      exact ⟨hist, head, h, Extends.refl _ _, .inl rfl⟩
    · rw [he]
      exact ⟨hist, head, h.quiet ⟨h.branches.without b, rfl⟩, Extends.refl _ _, .inl rfl⟩
    · have hlt := (checkedSucc_lt (h.managed.compute_head hr hcomp).1).1
      rw [he] at hpub ⊢
      have hne : tables store' ≠ tables db.store := fun hsame => by
        have hhead : HeadIs (tables store') ⟨s.commitId, s.stateRoot, s.indexRoot⟩ := hm.head_is
        rw [hsame] at hhead
        exact hlt.ne (congrArg Head.commitId (HeadIs.unique h.head_is hhead))
      obtain ⟨hinv, hext⟩ := h.published hb hc hr hcomp ht (hpub hne st origin s hb hc hr hcomp) hm
      exact ⟨_, _, hinv, hext, .inr hlt⟩
  · obtain ⟨op, hop⟩ := hreq
    have hexec := Op.request_exec (H := H) (R := R) h.head_is hop
    obtain ⟨hist', head', hinv, hext⟩ := h.step (R := R) op fun b' hb' => by
      subst hb'
      obtain ⟨-, rfl⟩ := Prod.mk.inj (Option.some.inj hop)
      exact absurd rfl hcommit
    rw [← hexec] at hinv
    exact ⟨hist', head', hinv, hext, .inl (by rw [Request.exec_store h.head_is hcommit])⟩

/-- **A manager whose store was published to by another.** Its branches fall behind the head. -/
lemma Inv.beside {db db' : Branches σ} (h : Inv H R g Good hist head db) (h' : Inv H R g Good hist' head' db')
    (hext : Extends hist head.commitId hist' head'.commitId)
    (hstore : tables db'.store = tables db.store ∨ head.commitId < head'.commitId) :
    Inv H R g Good hist' head' { db with store := db'.store } := by
  refine ⟨h'.head_is, h'.last, h'.cells, h'.chain, h'.good, fun b st hb => ?_⟩
  have hok := h.branches b st hb
  refine ⟨⟨hok.le.trans hext.le, fun s hs hc => ?_⟩, ?_⟩
  · rcases hstore with hsame | hlt
    · have hhead : head' = head := HeadIs.unique (hsame ▸ h'.head_is) h.head_is
      obtain ⟨origin, hr, hcomp⟩ := hok.sealed s hs (by rw [hc, hhead])
      exact ⟨origin, hr.trans hsame.symm, hcomp⟩
    · exact absurd (hok.le.trans_lt hlt) (not_lt.mpr hc.ge)
  · rw [hext.same _ hok.le]
    exact hok.working

/-- **A step of the managers keeps the invariant**, when what a commit publishes has the property. -/
theorem ManagersInv.step (h : ManagersInv H R g Good hist head a) (hs : Managers.Step H R a p a')
    (hcall : ∀ c x, p = .called c x → ∃ op : Op, op.request = some (x.branch, x.request))
    (hpub : ∀ c x, p = .called c x → tables a'.store ≠ tables a.store →
      Inv.Publishes H R Good hist head (a.manager x.manager) x.branch) :
    ∃ hist' head', ManagersInv H R g Good hist' head' a' ∧ Extends hist head.commitId hist' head'.commitId := by
  cases hs with
  | headRead c m n hnew hhead =>
    refine ⟨hist, head, ⟨h.each, fun c' n' hc' => ?_⟩, Extends.refl _ _⟩
    have hc' : Function.update a.heads c (some n) c' = some n' := hc'
    rw [Function.update_apply] at hc'
    split_ifs at hc' with hc
    · obtain rfl := Option.some.inj hc'
      obtain ⟨origin, hbegin, hrows⟩ := LawfulStore.beginRead_eq a.store
      have hread : (a.manager m).head = .ok head.commitId := by
        show Branches.head ⟨a.store, a.branches m, 0⟩ = _
        rw [Branches.head, hbegin, mapError_ok, ok_bind, HeadIs.readHead (by rw [hrows]; exact (h.each m).head_is)]
      rw [Except.ok.inj (hhead.symm.trans hread)]
    · exact h.heads c' n' hc'
  | began c m b n hread hfresh =>
    refine ⟨hist, head, ⟨fun m' => ?_, h.heads⟩, Extends.refl _ _⟩
    have hle := h.heads c n hread
    by_cases hm : m' = m
    · subst hm
      refine (h.each m').quiet ⟨fun b' st hb' => ?_, rfl⟩
      have hb' : (Function.update a.branches m' ((a.branches m').insert b ⟨n, CellOverlay.new, none⟩) m').get? b'
          = some st := hb'
      rw [Function.update_self, OrdMap.get?_insert] at hb'
      split_ifs at hb' with hb
      · obtain rfl := Option.some.inj hb'
        exact ⟨⟨hle, by rintro _ ⟨⟩⟩, Working.new ((h.each m').chain.consistent _ hle).visible⟩
      · exact (h.each m').branches b' st hb'
    · show Inv H R g Good hist head ⟨a.store, Function.update a.branches m _ m', 0⟩
      rw [Function.update_of_ne hm]
      exact h.each m'
  | called c m b req hnew =>
    obtain ⟨hist', head', hinv, hext, hstore⟩ := (h.each m).request (hcall c _ rfl) (hpub c _ rfl)
    refine ⟨hist', head', ⟨fun m' => ?_, fun c' n hc' => (h.heads c' n hc').trans hext.le⟩, hext⟩
    show Inv H R g Good hist' head' ⟨_, Function.update a.branches m _ m', 0⟩
    by_cases hm : m' = m
    · rw [hm, Function.update_self]
      exact hinv.quiet ⟨hinv.branches, rfl⟩
    · rw [Function.update_of_ne hm]
      exact (h.each m').beside hinv hext hstore

end Managers

/-! ### Interleavings -/

section Interleavings

variable {H : HashProvider} {R : Roaring} {σ : Type} [Store σ] [LawfulStore σ] {g : Genesis} {Good : StateProp}
  {hist : History} {head : Head} {w w' : World σ} {es es' : List Emission} {l : Label} {labels : List Label}
  {a : Managers σ}

/-- **The history of an interleaving**: after every part of it the committed state is the one of its number, and every
number up to the last was reached. -/
structure InterleavingOf (H : HashProvider) (R : Roaring) (labels : List Label) (w₀ : World σ) (hist : History)
    (last : CommitId) : Prop where
  state : ∀ part, part <+: labels → ∀ w es, w₀.run H R part = some (w, es) → ∃ c ≤ last,
    HeadIs (tables w.store) (hist c).head ∧ (hist c).head.commitId = c ∧ tables w.store CELL = cellRows (hist c).cells
  reached : ∀ c ≤ last, ∃ part, part <+: labels ∧ ∃ w es, w₀.run H R part = some (w, es) ∧
    HeadIs (tables w.store) (hist c).head ∧ tables w.store CELL = cellRows (hist c).cells

/-- What a step publishes has the property, whichever manager it is published on. -/
def StepPublishes (H : HashProvider) (R : Roaring) (g : Genesis) (Good : StateProp) (w : World σ)
    (es : List Emission) : Prop :=
  ∀ c b n st, es = [.published c b st.commitId n] → w.entries b = some ⟨some st, some c⟩ →
    ∀ hist head (db : Branches σ), Inv H R g Good hist head db → db.store = w.store →
      (∀ st', db.branches.get? b = some st' → st'.commitId = st.commitId ∧ st'.overlay = st.overlay) →
      Inv.Publishes H R Good hist head db b

omit [LawfulStore σ] in
/-- The state that the atomic managers have of a branch whose call is not answered. -/
lemma Pc.Shows.sealing {pc : Pc σ} {b : BranchId} {st : BranchState} {o : Option BranchState} (hlive : pc.live = some b)
    (hnew : pc.Answered H R st none) (h : pc.Shows H R b st o) : Pc.Sealing st o := by
  have hsame : o = some st → Pc.Sealing st o := fun ho => ⟨st, ho, rfl, rfl, .inr rfl⟩
  cases pc with
  | locked m b' req => exact hsame h
  | ready m b' req origin =>
    cases req with
    | ordinary op => cases (show none = some _ from hnew)
    | commit => exact hsame h
    | discard => cases (show none = some _ from hnew)
  | sealed m b' n s => exact h
  | writing m b' n s tx => exact h
  | checked m b' n s tx => exact h
  | replayed m b' n s tx => exact h
  | headed m b' n s tx => exact h
  | _ => cases hlive

omit [LawfulStore σ] in
/-- A call is answered once. -/
lemma results_of_called {a' : Managers σ} {c : CallId} {x : Branch.Answer} (h : Managers.Step H R a (.called c x) a') :
    a.results c = none ∧ a'.results c = some x := by
  cases h with
  | called c m b req hnew => exact ⟨hnew, Function.update_self ..⟩

/-- **What is published is the branch of the call that is answered.** -/
lemma publishes_of_step {seen : List Emission} {a' : Managers σ} {c : CallId} {x : Branch.Answer}
    (hlin : w.Linear H R labels seen a) (hs : w.step H R (.advance c) = some (w', es))
    (hstep : Managers.Step H R a (.called c x) a') (hlin' : w'.Linear H R (labels ++ [.advance c]) (seen ++ es) a')
    (hne : tables a'.store ≠ tables a.store) (hgood : StepPublishes H R g Good w es)
    (hinv : ManagersInv H R g Good hist head a) :
    Inv.Publishes H R Good hist head (a.manager x.manager) x.branch := by
  obtain ⟨head₀, hfits⟩ := hlin.fits
  rw [hlin'.sim.agrees.store, hlin.sim.agrees.store] at hne
  obtain ⟨hunanswered, hanswer⟩ := results_of_called hstep
  cases hfits.moved hlin.wf hs with
  | keeps c' b slot pc _ hstore => exact absurd hstore hne
  | publishes c' m b st s hwriter hentry hsealed hhead hstore hentries hcalls =>
    have hlive := hlin.held b st c' hentry
    have hc : c' = c := by
      by_contra hc
      obtain ⟨pc, hcalls', -⟩ := World.moves_advance (show w.advance H R c = some (w', _) from hs)
      have hsame : w.calls c' = .removing m b (.committed s.commitId) := by
        rw [← Function.update_of_ne hc pc w.calls, ← hcalls', hcalls, Function.update_self]
      rw [hsame] at hlive
      cases hlive
    subst hc
    have hx : ∃ req, a'.results c' = some ⟨m, b, req, .committed s.commitId⟩ := by
      have htracks := hlin'.sim.calls c'
      rw [hcalls, Function.update_self] at htracks
      exact htracks.answered st (by rintro _ ⟨⟩)
    obtain ⟨req, hx⟩ := hx
    obtain rfl := Option.some.inj (hanswer.symm.trans hx)
    refine hgood c' b s.commitId st rfl hentry hist head (a.manager m)
      (hinv.each m) hlin.sim.agrees.store fun st' hst' => ?_
    cases hr : w.registry m b with
    | false =>
      rw [show (a.manager m).branches = a.branches m from rfl, hlin.sim.agrees.absent m b hr] at hst'
      cases hst'
    | true =>
      have hanswered := (hlin.sim.calls c').answered st fun b' hb' => by
        obtain rfl := Option.some.inj (hlive.symm.trans hb')
        exact hentry
      rw [hunanswered] at hanswered
      obtain ⟨before, hbefore, hcommit, hoverlay, -⟩ :=
        Pc.Shows.sealing hlive hanswered (hlin.sim.agrees.shown m b _ hr hentry)
      obtain rfl := Option.some.inj (hbefore.symm.trans hst')
      exact ⟨hcommit, hoverlay⟩

lemma ManagersInv.state (h : ManagersInv H R g Good hist head a) : HeadIs (tables a.store) (hist head.commitId).head ∧
    (hist head.commitId).head.commitId = head.commitId ∧ tables a.store CELL = cellRows (hist head.commitId).cells :=
  (h.each 0).state

/-- **A step of the calls keeps the invariant**, and extends the history. -/
lemma ManagersInv.advance {seen : List Emission} (h : ManagersInv H R g Good hist head a)
    (hlin : w.Linear H R labels seen a) (hs : w.step H R l = some (w', es))
    (hlabels : ∀ l' ∈ labels ++ [l], ApiLabel l')
    (hgood : StepPublishes H R g Good w es) : ∃ hist' head' a', w'.Linear H R (labels ++ [l]) (seen ++ es) a' ∧
      ManagersInv H R g Good hist' head' a' ∧ Extends hist head.commitId hist' head'.commitId := by
  obtain ⟨o, a', hof, hstutter, hlin', -⟩ := hlin.step hs
  cases o with
  | none =>
    obtain rfl : a' = a := hstutter
    exact ⟨hist, head, a', hlin', h, Extends.refl _ _⟩
  | some p =>
    have hstep : Managers.Step H R a p a' := hstutter
    have hcall : ∀ c x, p = .called c x → ∃ op : Op, op.request = some (x.branch, x.request) := by
      rintro c x rfl
      exact hlabels _ (hlin'.answers c x (results_of_called hstep).2)
    have hpub : ∀ c x, p = .called c x → tables a'.store ≠ tables a.store →
        Inv.Publishes H R Good hist head (a.manager x.manager) x.branch := by
      rintro c x rfl hne
      obtain rfl : l = .advance c := hof _ rfl
      exact publishes_of_step hlin hs hstep hlin' hne hgood h
    obtain ⟨hist', head', h', hext⟩ := h.step hstep hcall hpub
    exact ⟨hist', head', a', hlin', h', hext⟩

/-- **One more label** extends the history of an interleaving. -/
lemma InterleavingOf.concat {w₀ : World σ} {hist' : History} {last last' : CommitId}
    (h : InterleavingOf H R labels w₀ hist last) (hext : Extends hist last hist' last')
    (hrun : w₀.run H R (labels ++ [l]) = some (w, es)) (hstate : HeadIs (tables w.store) (hist' last').head ∧
      (hist' last').head.commitId = last' ∧ tables w.store CELL = cellRows (hist' last').cells) :
    InterleavingOf H R (labels ++ [l]) w₀ hist' last' := by
  refine ⟨fun part hpart w₁ es₁ hw => ?_, fun c hc => ?_⟩
  · rcases List.prefix_concat_iff.mp hpart with rfl | hpart
    · obtain ⟨rfl, rfl⟩ := Prod.mk.inj (Option.some.inj (hrun.symm.trans hw))
      exact ⟨last', le_rfl, hstate⟩
    · obtain ⟨c, hc, hold⟩ := h.state part hpart w₁ es₁ hw
      refine ⟨c, hc.trans hext.le, ?_⟩
      rwa [hext.same c hc]
  · rcases hext.single c hc with hc | rfl
    · obtain ⟨part, hpart, w₁, es₁, hw, hold⟩ := h.reached c hc
      refine ⟨part, hpart.trans (List.prefix_append _ _), w₁, es₁, hw, ?_⟩
      rwa [hext.same c hc]
    · exact ⟨_, List.prefix_rfl, w, es, hrun, hstate.1, hstate.2.2⟩

/-- The history before the first label. -/
lemma ManagersInv.start {store : σ} (h : ManagersInv H R g Good hist head (Managers.start store))
    (hzero : head.commitId = 0)
    (next : BranchId) : InterleavingOf H R [] (World.start store next) hist head.commitId := by
  refine ⟨fun part hpart w es hw => ?_, fun c hc => ?_⟩
  · obtain rfl := List.prefix_nil.mp hpart
    obtain ⟨rfl, rfl⟩ := Prod.mk.inj (Option.some.inj hw)
    exact ⟨head.commitId, le_rfl, h.state⟩
  · have hc0 : c = head.commitId := by
      rw [hzero] at hc ⊢
      exact le_antisymm hc (Fin.zero_le c)
    subst hc0
    exact ⟨[], List.prefix_rfl, _, _, rfl, h.state.1, h.state.2.2⟩

/-- **The invariant holds after every interleaving**, and the interleaving has a history. -/
theorem interleaving_inv {store : σ} {next : BranchId} (h : ManagersInv H R g Good hist head (Managers.start store))
    (hzero : head.commitId = 0) (hlabels : ∀ l ∈ labels, ApiLabel l)
    (hgood : ∀ part l w es w' es', part ++ [l] <+: labels → (World.start store next).run H R part = some (w, es) →
      w.step H R l = some (w', es') → StepPublishes H R g Good w es')
    (hrun : (World.start store next).run H R labels = some (w, es)) :
    ∃ hist head a, w.Linear H R labels es a ∧ ManagersInv H R g Good hist head a ∧
      InterleavingOf H R labels (World.start store next) hist head.commitId := by
  -- by induction on the part of the labels that has run
  have hinduct : ∀ {part : List Label} {w es}, runMachine (World.step H R) part (World.start store next)
      = some (w, es) →
      part <+: labels → ∃ hist head a, World.Linear H R part es w a ∧ ManagersInv H R g Good hist head a ∧
        InterleavingOf H R part (World.start store next) hist head.commitId := by
    refine runMachine_induct (I := fun part es w => part <+: labels → ∃ hist head a, World.Linear H R part es w a ∧
      ManagersInv H R g Good hist head a ∧ InterleavingOf H R part (World.start store next) hist head.commitId)
      (fun _ => ⟨hist, head, _, World.linear_start (h.each 0).head_is next, h, h.start hzero next⟩) ?_
    intro part es₁ w₁ l w₂ es₂ hpart ih hs hpre
    obtain ⟨hist₁, head₁, a₁, hlin, hinv, hof⟩ := ih ((List.prefix_append _ _).trans hpre)
    have hrun₁ : (World.start store next).run H R part = some (w₁, es₁) := by
      rw [World.run_eq]
      exact hpart
    have hrun₂ : (World.start store next).run H R (part ++ [l]) = some (w₂, es₁ ++ es₂) := by
      rw [World.run_eq]
      exact runMachine_concat.mpr ⟨w₁, es₁, es₂, hpart, hs, rfl⟩
    obtain ⟨hist₂, head₂, a₂, hlin₂, hinv₂, hext⟩ := hinv.advance hlin hs (fun l' hl' => hlabels l' (hpre.subset hl'))
      (hgood part l w₁ es₁ w₂ es₂ hpre hrun₁ hs)
    have hstate := hinv₂.state
    rw [hlin₂.sim.agrees.store] at hstate
    exact ⟨hist₂, head₂, a₂, hlin₂, hinv₂, hof.concat hext hrun₂ hstate⟩
  rw [World.run_eq] at hrun
  exact hinduct hrun List.prefix_rfl

/-- The managers over a created store. -/
lemma Created.managers {config : OpenConfig} {db : Branches σ} (h : Created H config db)
    (hgood : ∀ head, HeadIs (tables db.store) head → Good (tables db.store) ⟨head, initialCells config.genesis⟩) :
    ∃ hist head, ManagersInv H R config.genesis Good hist head (Managers.start db.store) ∧ head.commitId = 0 := by
  obtain ⟨hist, head, hinv, hzero⟩ := h.inv (R := R) hgood
  exact ⟨hist, head, ⟨fun m => hinv.quiet ⟨by rintro _ _ ⟨⟩, rfl⟩, by rintro _ _ ⟨⟩⟩, hzero⟩

/-- **Every interleaving has one consistent history.** Calls of the API on any branches of any managers over a
created store are interleaved step by step. What is committed after any part of the interleaving is a state of
one chain of commits from genesis, each over what its branch showed; in each of them, and in what a branch shows
that nobody works on, keys and records are identified; and each holds the roots of the commits before it. -/
theorem interleaving_consistent {config : OpenConfig} {db : Branches σ} (h : Created H config db) (next : BranchId)
    (hlabels : ∀ l ∈ labels, ApiLabel l) (hrun : (World.start db.store next).run H R labels = some (w, es)) :
    ∃ hist last, Chain config.genesis hist last ∧ InterleavingOf H R labels (World.start db.store next) hist last ∧
      (∀ c ≤ last, Identified (hist c).cells ∧
        ∀ name v, name ≠ Reserved.KEY → ((hist c).cells.get? ⟨System.ROOTS.id, name⟩ = some v ↔
          ∃ k < c, name = k.toBeBytes ∧ v = CellValue.fromBytes
            ((hist k).head.stateRoot.1 ++ (hist k).head.indexRoot.1))) ∧
      ∀ m b st, w.registry m b = true → w.entries b = some ⟨some st, none⟩ → st.commitId ≤ last ∧
        Identified ((hist st.commitId).cells.overlay st.overlay.entries) := by
  obtain ⟨hist₀, head₀, hstart, hzero⟩ : ∃ hist head,
      ManagersInv H R config.genesis (fun _ _ => True) hist head (Managers.start db.store) ∧ head.commitId = 0 :=
    h.managers fun _ _ => trivial
  obtain ⟨hist, head, a, hlin, hinv, hof⟩ := interleaving_inv hstart hzero hlabels
    (fun _ _ _ _ _ _ _ _ _ _ _ _ _ _ _ _ _ _ _ _ _ _ _ _ _ _ _ _ => trivial) hrun
  have hchain := (hinv.each 0).chain
  refine ⟨hist, head.commitId, hchain, hof, fun c hc =>
    ⟨identified_of_consistent (hchain.consistent c hc), hchain.roots c hc⟩, fun m b st hr he => ?_⟩
  have hok := (hinv.each m).branches b st (hlin.sim.agrees.shown m b _ hr he)
  exact ⟨hok.le, identified_of_consistent hok.working.visible.consistent⟩

end Interleavings

/-! ### What an interleaving hashes -/

section Hashed

variable (H : HashProvider) (R : Roaring) {σ : Type} [Store σ] [LawfulStore σ]

/-- What the seal of a publication has hashed over the committed state. -/
def publicationPreimages (w : World σ) : List Emission → List Bytes
  | [.published _ b origin _] =>
    match w.entries b with
    | some ⟨some st, _⟩ => sealPreimages H R origin (cellsOf (tables w.store CELL)) st.overlay
    | _ => []
  | _ => []

/-- **What the publications of an interleaving hash.** -/
def hashedAlong : List Label → World σ → List Bytes
  | [], _ => []
  | l :: labels, w =>
    match w.step H R l with
    | none => []
    | some (w', es) => publicationPreimages H R w es ++ hashedAlong labels w'

/-- The preimages of an interleaving from genesis. -/
def interleavingPreimages (g : Genesis) (labels : List Label) (w : World σ) : List Bytes :=
  statePreimages H R (initialCells g) ++ hashedAlong H R labels w

variable {H R} {w w' : World σ} {es es' : List Emission} {l : Label} {labels : List Label} {g : Genesis} {P : Set Bytes}

/-- A publication hashes what its interleaving hashes. -/
lemma publicationPreimages_subset : ∀ {part : List Label} {w₀ : World σ} {es : List Emission}, part ++ [l] <+: labels →
    w₀.run H R part = some (w, es) → w.step H R l = some (w', es') →
    ∀ x ∈ publicationPreimages H R w es', x ∈ hashedAlong H R labels w₀ := by
  induction labels with
  | nil =>
    intro part w₀ es hpart
    exact absurd (List.prefix_nil.mp hpart) (by simp)
  | cons l' labels ih =>
    intro part w₀ es hpart hrun hs x hx
    cases part with
    | nil =>
      obtain ⟨rfl, rfl⟩ := Prod.mk.inj (Option.some.inj hrun)
      obtain ⟨rfl, -⟩ := List.cons_prefix_cons.mp hpart
      rw [hashedAlong, hs]
      exact List.mem_append_left _ hx
    | cons l₁ part =>
      obtain ⟨rfl, hrest⟩ := List.cons_prefix_cons.mp hpart
      rw [World.run] at hrun
      rw [hashedAlong]
      cases hs₁ : w₀.step H R l₁ with
      | none =>
        rw [hs₁] at hrun
        cases hrun
      | some p =>
        rw [hs₁] at hrun
        obtain ⟨q, hq, hp⟩ := Option.map_eq_some_iff.mp hrun
        obtain ⟨rfl, -⟩ := Prod.mk.inj hp
        exact List.mem_append_right _ (ih hrest hq hs x hx)

/-- **A publication is settled** where the hash separates what it hashes. -/
lemma stepPublishes_settled (hinj : Set.InjOn H.hash P) (hP : ∀ x ∈ publicationPreimages H R w es, x ∈ P) :
    StepPublishes H R g (Settled H R P) w es := by
  rintro c b n st rfl hentry hist head db hinv hstore hb st' origin s hb' hc hr hs
  obtain ⟨hcommit, hoverlay⟩ := hb st' hb'
  refine hinv.publishes_settled hinj (b := b) (fun x hx => hP x ?_) st' origin s hb' hc hr hs
  rw [preimages_over hinv.head_is hinv.cells hb' hc _ (.inr rfl), hoverlay] at hx
  have hshow : publicationPreimages H R w [.published c b st.commitId n]
      = sealPreimages H R st.commitId (cellsOf (tables w.store CELL)) st.overlay := by
    simp only [publicationPreimages, hentry]
  rw [hshow, ← hcommit, hc, ← hstore, hinv.cells, cellsOf_cellRows]
  exact hx

/-- What is committed after an interleaving is settled, where the hash separates what it has hashed. -/
lemma interleaving_settled {config : OpenConfig} {db : Branches σ} (h : Created H config db) (next : BranchId)
    (hlabels : ∀ l ∈ labels, ApiLabel l) (hrun : (World.start db.store next).run H R labels = some (w, es))
    (hinj : Set.InjOn H.hash P)
    (hP : ∀ x ∈ interleavingPreimages H R config.genesis labels (World.start db.store next), x ∈ P) :
    ∃ head m, HeadIs (tables w.store) head ∧ Consistent head.commitId m ∧ Settled H R P (tables w.store) ⟨head, m⟩ := by
  obtain ⟨hist₀, head₀, hstart, hzero⟩ : ∃ hist head,
      ManagersInv H R config.genesis (Settled H R P) hist head (Managers.start db.store) ∧ head.commitId = 0 :=
    h.managers fun head hhead => h.initialized.1.settled hinj (fun x hx => hP x (List.mem_append_left _ hx)) hhead
  obtain ⟨hist, head, a, hlin, hinv, -⟩ := interleaving_inv hstart hzero hlabels
    (fun part l w es w' es' hpart hrun hs => stepPublishes_settled hinj fun x hx =>
      hP x (List.mem_append_right _ (publicationPreimages_subset hpart hrun hs x hx))) hrun
  have hlast := hinv.each 0
  have hstore : (a.manager 0).store = w.store := hlin.sim.agrees.store
  have hsettled := hlast.good
  rw [hstore] at hsettled
  refine ⟨head, (hist head.commitId).cells, hstore ▸ hlast.head_is, hlast.chain.consistent _ le_rfl, hsettled.holds, ?_⟩
  have hhead := hsettled.head
  rw [hlast.last] at hhead
  exact hhead

/-- **Roots and index hold in every interleaving.** Where the hash separates what the genesis state and the publications
have hashed, the committed tables hold their cells and the index of their attributes under their tries, and the head has
the two roots, whose digests open again: the head is the one that its cells have, however the calls were interleaved. -/
theorem interleaving_roots {config : OpenConfig} {db : Branches σ} (h : Created H config db) (next : BranchId)
    (hlabels : ∀ l ∈ labels, ApiLabel l) (hrun : (World.start db.store next).run H R labels = some (w, es))
    (hinj : Set.InjOn H.hash {x | x ∈ interleavingPreimages H R config.genesis labels (World.start db.store next)}) :
    ∃ head, HeadIs (tables w.store) head ∧ RootsMatch H R (tables w.store) head ∧
      ∃ m : CellMap, Identified m ∧ tables w.store CELL = cellRows m ∧ head = headOf H R head.commitId m ∧
        Represents H R (cellPostings m)
          {x | x ∈ interleavingPreimages H R config.genesis labels (World.start db.store next)}
          (tables w.store) := by
  obtain ⟨head, m, hhead, hcons, hsettled⟩ := interleaving_settled h next hlabels hrun hinj fun _ hx => hx
  exact ⟨head, hhead, hsettled.rootsMatch hinj, m, identified_of_consistent hcons, hsettled.holds.cells.table,
    hsettled.head, hsettled.holds.index⟩

end Hashed

/-! ### A race in memory -/

/-- Two managers begin branches 0 and 1 and create a record under one key in each; the first commits, and the
second finds its branch behind the head. -/
def racingLabels : List Label :=
  let create := Request.ordinary (.write (erase (createGroup demoKey rootCells)))
  [.begin 0 0, .begin 1 1, .advance 0, .advance 1, .advance 0, .advance 1, .advance 0, .advance 1, .call 2 0 0 create,
    .call 3 1 1 create] ++ [2, 3, 2, 3, 2, 3, 2, 3].map .advance ++ [.call 4 0 0 .commit,
      .call 5 1 1 (.ordinary .checkpoint)] ++
    [4, 5, 4, 5, 4, 4, 4, 4, 4, 4, 4, 5, 5, 4].map .advance

lemma racingLabels_api : ∀ l ∈ racingLabels, ApiLabel l := by
  have hadvance : ∀ cs : List CallId, ∀ l ∈ cs.map Label.advance, ApiLabel l := by
    intro cs l hl
    obtain ⟨c, -, rfl⟩ := List.mem_map.mp hl
    trivial
  have hcreate : ∀ c m b, ApiLabel (.call c m b (.ordinary (.write (erase (createGroup demoKey rootCells))))) :=
    fun c m b =>
    ⟨.create b demoKey rootCells, rfl⟩
  unfold racingLabels
  simp only [List.forall_mem_append, List.forall_mem_cons]
  refine ⟨⟨⟨⟨trivial, trivial, trivial, trivial, trivial, trivial, trivial, trivial, hcreate .., hcreate .., ?_⟩,
    hadvance _⟩,
    ⟨.commit 0, rfl⟩, ⟨.checkpoint 1, rfl⟩, ?_⟩, hadvance _⟩ <;> exact fun _ hl => absurd hl List.not_mem_nil

/-- What the race shows, and that the polynomial hash separates what it hashes. -/
lemma racingLabels_evaluated :
    ((World.start demoDb.store 0).run Trie.polyHash arrayRoaring racingLabels).map (fun p => p.2.filter fun e =>
      e = .published 4 0 0 1 ∨ e = .returned 5 1 (.error (.branch .handleInvalid)))
      = some [.published 4 0 0 1, .returned 5 1 (.error (.branch .handleInvalid))] ∧
    ((interleavingPreimages Trie.polyHash arrayRoaring demoConfig.genesis racingLabels (World.start demoDb.store 0)).map
      fun x => (polyNumber x, x)).Pairwise fun p q => p.1 = q.1 → p.2 = q.2 := by
  decide +kernel

lemma racingLabels_run : ∃ w es, (World.start demoDb.store 0).run Trie.polyHash arrayRoaring racingLabels
    = some (w, es) ∧ .published 4 0 0 1 ∈ es ∧ .returned 5 1 (.error (.branch .handleInvalid)) ∈ es := by
  obtain ⟨⟨w, es⟩, hrun, hshown⟩ := Option.map_eq_some_iff.mp racingLabels_evaluated.1
  have hmem : ∀ e ∈ ([.published 4 0 0 1, .returned 5 1 (.error (.branch .handleInvalid))] : List Emission), e ∈ es :=
    fun e he => by
      rw [← hshown] at he
      exact (List.mem_filter.mp he).1
  exact ⟨w, es, hrun, hmem _ (by simp), hmem _ (by simp)⟩

lemma racingLabels_injOn : Set.InjOn Trie.polyHash.hash {x | x ∈ interleavingPreimages Trie.polyHash arrayRoaring
    demoConfig.genesis racingLabels (World.start demoDb.store 0)} :=
  polyHash_injOn racingLabels_evaluated.2

theorem interleaving_consistent_demo : ∃ w es hist last,
    (World.start demoDb.store 0).run Trie.polyHash arrayRoaring racingLabels = some (w, es) ∧
    .published 4 0 0 1 ∈ es ∧ Chain demoConfig.genesis hist last ∧
    InterleavingOf Trie.polyHash arrayRoaring racingLabels (World.start demoDb.store 0) hist last ∧
    ∀ c ≤ last, Identified (hist c).cells := by
  obtain ⟨w, es, hrun, hpub, -⟩ := racingLabels_run
  obtain ⟨hist, last, hchain, hof, hstates, -⟩ := interleaving_consistent demoDb_created 0 racingLabels_api hrun
  exact ⟨w, es, hist, last, hrun, hpub, hchain, hof, fun c hc => (hstates c hc).1⟩

theorem interleaving_roots_demo : ∃ w es head,
    (World.start demoDb.store 0).run Trie.polyHash arrayRoaring racingLabels = some (w, es) ∧
    .published 4 0 0 1 ∈ es ∧ HeadIs (tables w.store) head ∧
      RootsMatch Trie.polyHash arrayRoaring (tables w.store) head := by
  obtain ⟨w, es, hrun, hpub, -⟩ := racingLabels_run
  obtain ⟨head, hhead, hmatch, -⟩ := interleaving_roots demoDb_created 0 racingLabels_api hrun racingLabels_injOn
  exact ⟨w, es, head, hrun, hpub, hhead, hmatch⟩

end GolemDb.Api
