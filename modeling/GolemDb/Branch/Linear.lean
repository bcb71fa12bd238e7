import GolemDb.Branch.Matching

/-!
Calls under concurrency are linearizable. Over a store that does not fail, a call's whole effect is
that of one atomic step, taken at one of the call's own steps: when it finds no branch, when it
checks the head under the branch's lock, when a commit loses the race inside the writer, or when
it publishes. A run of the concurrent managers is matched by the atomic steps at these places, with
the same replies, the same store and the same branches (`run_linearizable`).
-/

namespace GolemDb.Branch

open GolemDb.Lib GolemDb.Storage GolemDb.Merkle GolemDb.Cells GolemDb.Index

/-! ### One step -/

section Step

variable {H : HashProvider} {R : Roaring} {σ : Type} [Store σ] {w w' : World σ} {a a' : Managers σ} {c : CallId}
  {m : ManagerId} {b : BranchId} {es : List Emission} {l : Label} {pc : Pc σ} {st : BranchState} {head : Head}

/-- The managers after a call is answered. -/
def Managers.answered (a : Managers σ) (c : CallId) (x : Answer) (store : σ) (o : Option BranchState) : Managers σ :=
  { a with
    store := store
    branches := Function.update a.branches x.manager ((a.branches x.manager).set x.branch o)
    results := Function.update a.results c (some x) }

lemma Managers.Step.answers {req : Request} {reply : Reply} {store : σ} {o : Option BranchState}
    (hnew : a.results c = none)
    (hexec : req.exec H R b (a.manager m) = (reply, ⟨store, (a.branches m).set b o, 0⟩)) :
    Managers.Step H R a (.called c ⟨m, b, req, reply⟩) (a.answered c ⟨m, b, req, reply⟩ store o) := by
  have hstep := Managers.Step.called (H := H) (R := R) a c m b req hnew
  rw [hexec] at hstep
  exact hstep

/-- **The atomic step is the call's own**: it answers what the call was asked, and the branch it begins is shown. -/
def Point.Of (c : CallId) (pc : Pc σ) (es : List Emission) : Point → Prop
  | headRead c' _ _ => c' = c
  | began c' _ b _ => c' = c ∧ .began c' b ∈ es
  | called c' x => c' = c ∧ pc.asked = some (x.manager, x.branch, x.request)

/-- **What is shown was done atomically**: a branch that is shown to begin begins at the atomic step, and what is
returned has been answered. -/
def Emission.Told (o : Option Point) (a : Managers σ) : Emission → Prop
  | began c b => ∃ m n, o = some (.began c m b n)
  | returned c b reply => ∃ m req, a.results c = some ⟨m, b, req, reply⟩
  | _ => True

/-- **A step of a call is matched** by at most one atomic step of the call, which has done what is shown. -/
def World.Matched (H : HashProvider) (R : Roaring) (w : World σ) (a : Managers σ) (c : CallId) (w' : World σ)
    (es : List Emission) : Prop :=
  ∃ o a', (∀ p, o = some p → p.Of c (w.calls c) es) ∧ Stutters (Managers.Step H R) a o a' ∧ w'.Sim H R a' ∧
    ∀ e ∈ es, e.Told o a'

lemma World.Sim.matched (h : w'.Sim H R a) (hes : ∀ e ∈ es, e.Told none a) : w.Matched H R a c w' es :=
  ⟨none, a, by rintro _ ⟨⟩, rfl, h, hes⟩

lemma World.Sim.answers {req : Request} {reply : Reply} {o : Option BranchState}
    (h : w'.Sim H R (a.answered c ⟨m, b, req, reply⟩ w'.store o)) (hasked : (w.calls c).asked = some (m, b, req))
    (hnew : a.results c = none)
    (hexec : req.exec H R b (a.manager m) = (reply, ⟨w'.store, (a.branches m).set b o, 0⟩))
    (hes : ∀ e ∈ es, e.Told (some (.called c ⟨m, b, req, reply⟩)) (a.answered c ⟨m, b, req, reply⟩ w'.store o)) :
    w.Matched H R a c w' es := by
  refine ⟨some (.called c ⟨m, b, req, reply⟩), _, fun p hp => ?_, Managers.Step.answers hnew hexec, h, hes⟩
  rw [← Option.some.inj hp]
  exact ⟨rfl, hasked⟩

/-- Under the lock of its branch the call goes on, and the atomic calls have nothing to do. -/
lemma World.Sim.stutters (h : w.Sim H R a) (hwf : w.Wf) (hheld : w.Held) {holder : Option CallId}
    (he : w.entries b = some ⟨some st, holder⟩) (hholder : ∀ c', holder = some c' → c' = c)
    (hreg : w.registry m b = true)
    {slot : Slot} (hstore : w'.store = w.store) (hentries : w'.entries = Function.update w.entries b (some slot))
    (hregistry : w'.registry = w.registry) (hcalls : w'.calls = Function.update w.calls c pc)
    (hold : ∀ b', (w.calls c).live = some b' → b' = b)
    (hshown : slot.Shows H R w'.calls b ((a.branches m).get? b)) (hpc : w'.Tracks H R a c pc) : w'.Sim H R a := by
  refine h.goes hwf hheld he hholder hreg hentries hregistry hcalls hold
    (by rw [hstore]; exact h.agrees.store) ?_ rfl hshown
    rfl (fun _ _ => rfl) (fun _ _ hw => by rwa [hstore]) hpc
  rw [OrdMap.set_self, Function.update_eq_self]

/-- The entry that a call works on is its manager's. -/
lemma placed_of {slot : Slot} (he : w.entries b = some slot) (hreg : w.registry m b = true) :
    ∀ m' b', some (m, b) = some (m', b') → w.Placed m' b' := by
  rintro _ _ ⟨⟩
  exact ⟨by rw [he]; exact Option.some_ne_none _, fun _ _ _ => hreg⟩

lemma Pc.begins_of_live (h : pc.live = some b) (o : Option CommitId) : pc.Begins o := by
  cases pc <;> first | exact trivial | cases h

lemma Pc.writesOn_of_not_writes {store : σ} (h : ¬ pc.writes = true) : pc.WritesOn store := by
  cases pc <;> first | exact trivial | exact absurd rfl h

/-- An empty entry has no branch behind it. -/
lemma World.Sim.emptied (h : w.Sim H R a) {holder : Option CallId} (he : w.entries b = some ⟨none, holder⟩)
    (m : ManagerId) :
    (a.branches m).get? b = none := by
  cases hr : w.registry m b with
  | true => exact h.agrees.shown m b _ hr he
  | false => exact h.agrees.absent m b hr

lemma World.Matched.of_eq {p : World σ × List Emission} (hm : w.Matched H R a c p.1 p.2) (hs : some p = some (w', es)) :
    w.Matched H R a c w' es := by
  obtain rfl := Option.some.inj hs
  exact hm

/-- A call starts, and the atomic calls have nothing to do. -/
lemma World.Sim.starts (h : w.Sim H R a) (hheld : w.Held) (hold : w.calls c = .idle)
    (hpc : pc.place = none ∧ pc.live = none ∧ (a.heads c = none → pc.Begins (a.heads c)) ∧
      (a.results c = none → ∀ st, pc.Answered H R st (a.results c)) ∧ pc.WritesOn w.store) :
    (w.goto c pc).Sim H R a := by
  have htracks := h.calls c
  rw [hold] at htracks
  obtain ⟨hplace, hlive, hbegins, hanswered, hwrites⟩ := hpc
  refine h.aside hheld rfl rfl rfl rfl (by rw [hold]; rfl) rfl rfl rfl (fun _ _ => rfl) (fun _ _ => rfl)
    ⟨fun m b hp => ?_, hbegins htracks.begins, fun st _ => hanswered (htracks.answered st (by rintro _ ⟨⟩)) st, hwrites⟩
  rw [hplace] at hp
  cases hp

/-- A call that finds no branch is answered with that. -/
lemma World.Sim.missing (h : w.Sim H R a) (hheld : w.Held) {req : Request} (hold : (w.calls c).live = none)
    (hasked : (w.calls c).asked = some (m, b, req)) (hnew : a.results c = none) (hnone : (a.branches m).get? b = none) :
    w.Matched H R a c (w.finish c b .handleInvalid).1 (w.finish c b .handleInvalid).2 := by
  have hbranches : Function.update a.branches m ((a.branches m).set b none) = a.branches := by
    rw [← hnone, OrdMap.set_self, Function.update_eq_self]
  have hexec : req.exec H R b (a.manager m) = (.handleInvalid, ⟨w.store, (a.branches m).set b none, 0⟩) := by
    rw [Request.exec_missing hnone, ← hnone, OrdMap.set_self, ← h.agrees.store]
    rfl
  refine World.Sim.answers (o := none) ?_ hasked hnew hexec
    (List.forall_mem_singleton.mpr ⟨m, req, Function.update_self ..⟩)
  exact h.aside hheld rfl rfl rfl rfl hold h.agrees.store.symm hbranches rfl (fun _ _ => rfl)
    (fun _ hne => Function.update_of_ne hne ..) (World.tracks_done _ _ _)

/-- **A branch begins** at the head that was read. -/
lemma World.Sim.begins {n : CommitId} (h : w.Sim H R a) (hwf : w.Wf) (hheld : w.Held)
    (hpc : w.calls c = .inserting m b n) (hs : w.advance H R c = some (w', es)) : w.Matched H R a c w' es := by
  have htracks := h.calls c
  rw [hpc] at htracks
  simp only [World.advance, hpc] at hs
  obtain ⟨rfl, rfl⟩ := Prod.mk.inj (Option.some.inj hs)
  have hfresh : b ∉ a.used := fun hb => h.agrees.used b hb (hwf.inserting c m b n hpc).2.1
  refine ⟨some (.began c m b n), _, fun p hp => ?_, .began a c m b n htracks.begins hfresh,
    h.insert hwf hheld hpc rfl rfl rfl rfl, List.forall_mem_singleton.mpr ⟨m, n, rfl⟩⟩
  rw [← Option.some.inj hp]
  exact ⟨rfl, List.mem_singleton_self _⟩

/-- A call looks up its entry. -/
lemma World.Sim.looks (h : w.Sim H R a) (hheld : w.Held) {req : Request} (hpc : w.calls c = .looking m b req)
    (hs : w.advance H R c = some (w', es)) : w.Matched H R a c w' es := by
  have htracks := h.calls c
  rw [hpc] at htracks
  have hnew := htracks.answered ⟨0, CellOverlay.new, none⟩ (by rintro _ ⟨⟩)
  simp only [World.advance, hpc] at hs
  split_ifs at hs with hreg
  · obtain ⟨rfl, rfl⟩ := Prod.mk.inj (Option.some.inj hs)
    refine World.Sim.matched (h.aside hheld rfl rfl rfl rfl (by rw [hpc]; rfl) rfl rfl rfl (fun _ _ => rfl)
      (fun _ _ => rfl) ⟨?_, trivial, fun _ _ => hnew, trivial⟩) (List.forall_mem_nil _)
    rintro _ _ ⟨⟩
    exact ⟨h.agrees.made m b hreg, fun _ _ _ => hreg⟩
  · exact (h.missing hheld (by rw [hpc]; rfl) (by rw [hpc]; rfl) hnew
      (h.agrees.absent m b (by simpa using hreg))).of_eq hs

/-- A call takes the lock of its branch, or finds that it was consumed. -/
lemma World.Sim.waits (h : w.Sim H R a) (hwf : w.Wf) (hheld : w.Held) {req : Request}
    (hpc : w.calls c = .waiting m b req) (hs : w.advance H R c = some (w', es)) : w.Matched H R a c w' es := by
  have htracks := h.calls c
  rw [hpc] at htracks
  have hnew := htracks.answered ⟨0, CellOverlay.new, none⟩ (by rintro _ ⟨⟩)
  simp only [World.advance, hpc] at hs
  split at hs
  · rename_i he
    exact (h.missing hheld (by rw [hpc]; rfl) (by rw [hpc]; rfl) hnew (h.emptied he m)).of_eq hs
  · rename_i st he
    have hreg := (htracks.place m b rfl).2 st _ he
    obtain ⟨rfl, rfl⟩ := Prod.mk.inj (Option.some.inj hs)
    refine World.Sim.matched (h.stutters hwf hheld he (by rintro _ ⟨⟩) hreg rfl rfl rfl rfl ?_ ?_
      ⟨placed_of (Function.update_self ..) hreg, trivial, fun _ _ => hnew, trivial⟩) (List.forall_mem_nil _)
    · rw [hpc]
      rintro _ ⟨⟩
    · show (Function.update w.calls c _ c).Shows H R b _ _
      rw [Function.update_self]
      exact h.agrees.shown m b _ hreg he
  · cases hs

variable [LawfulStore σ]

/-- A snapshot of the store shows the head. -/
lemma snapshot_reads {store : σ} (hh : HeadIs (tables store) head) :
    ∃ origin, Store.beginRead store = .ok origin ∧ rows origin = tables store ∧
      readHead origin = .ok head.commitId := by
  obtain ⟨origin, hbegin, hrows⟩ := LawfulStore.beginRead_eq store
  exact ⟨origin, hbegin, hrows, HeadIs.readHead (by rwa [hrows])⟩

/-- A seal that a commit is publishing is what an atomic commit computes. -/
lemma Pc.Sealing.computes {o : Option BranchState} (h : Pc.Sealing st o) (hst : st.Fits H R σ (tables w.store) head)
    {s : SealedCommit} (hs : st.sealed = some s) (hhead : st.commitId = head.commitId) {origin : Store.Read σ}
    (hrows : rows origin = tables w.store) :
    ∃ before st', o = some before ∧ before.commitId = st.commitId ∧ before.sealState H R origin = .ok (s, st') ∧
      st'.commitId = before.commitId := by
  obtain ⟨before, rfl, hcommit, hoverlay, hsealed⟩ := h
  rcases hsealed with hnone | rfl
  · obtain ⟨origin', horigin', hcompute⟩ := hst.sealed s hs hhead
    refine ⟨before, { before with sealed := some s }, rfl, hcommit, ?_, rfl⟩
    have hrows' : rows origin = rows origin' := hrows.trans horigin'.symm
    unfold BranchState.sealState
    rw [hnone, hoverlay, compute_congr hrows' st.overlay, hcompute]
    rfl
  · refine ⟨before, before, rfl, rfl, ?_, rfl⟩
    unfold BranchState.sealState
    rw [hs]

end Step

/-! ### Under the lock of a branch -/

section Work

variable {H : HashProvider} {R : Roaring} {σ : Type} [Store σ] {w w' : World σ} {a : Managers σ} {c : CallId}
  {m : ManagerId} {b : BranchId} {es : List Emission} {pc pc' : Pc σ} {st st' : BranchState} {slot : Slot}
  {o : Option BranchState} {req : Request} {reply : Reply} {head : Head}

/-- **A call at work** under the lock of its branch, beside the atomic calls. -/
structure World.AtWork (H : HashProvider) (R : Roaring) (w : World σ) (a : Managers σ) (c : CallId) (m : ManagerId)
    (b : BranchId) (st : BranchState) (pc : Pc σ) : Prop where
  sim : w.Sim H R a
  wf : w.Wf
  held : w.Held
  phase : w.calls c = pc
  live : pc.live = some b
  place : pc.place = some (m, b)
  entry : w.entries b = some ⟨some st, some c⟩

namespace World.AtWork

lemma self (h : w.AtWork H R a c m b st pc) : ∀ b', (w.calls c).live = some b' → b' = b := fun b' hb' => by
  rw [h.phase, h.live] at hb'
  exact (Option.some.inj hb').symm

lemma registered (h : w.AtWork H R a c m b st pc) : w.registry m b = true :=
  ((h.sim.calls c).place m b (by rw [h.phase, h.place])).2 st _ h.entry

lemma shown (h : w.AtWork H R a c m b st pc) : pc.Shows H R b st ((a.branches m).get? b) := by
  have hshown := h.sim.agrees.shown m b _ h.registered h.entry
  rwa [Slot.Shows, h.phase] at hshown

lemma answered (h : w.AtWork H R a c m b st pc) : pc.Answered H R st (a.results c) := by
  rw [← h.phase]
  exact (h.sim.calls c).answered st fun b' hb' => by rw [h.self b' hb', h.entry]

lemma writes (h : w.AtWork H R a c m b st pc) : pc.WritesOn w.store := by
  rw [← h.phase]
  exact (h.sim.calls c).writes

/-- The entry stays as it is. -/
lemma still (h : w.AtWork H R a c m b st pc) :
    w.entries = Function.update w.entries b (some ⟨some st, some c⟩) := by
  rw [← h.entry, Function.update_eq_self]

lemma manager (h : w.AtWork H R a c m b st pc) (branches : OrdMap BranchId BranchState) :
    (⟨a.store, branches, 0⟩ : Branches σ) = ⟨w.store, branches, 0⟩ := by
  rw [h.sim.agrees.store]

/-- A call that stays at work agrees with the atomic calls. -/
lemma tracks {a' : Managers σ} (h : w.AtWork H R a c m b st pc)
    (hentries : w'.entries = Function.update w.entries b (some ⟨some st', some c⟩))
    (hregistry : w'.registry = w.registry) (hplace : pc'.place = some (m, b)) (hlive : pc'.live = some b)
    (hanswered : pc'.Answered H R st' (a'.results c)) (hwrites : pc'.WritesOn w'.store) : w'.Tracks H R a' c pc' := by
  have hat : w'.entries b = some ⟨some st', some c⟩ := by rw [hentries, Function.update_self]
  refine ⟨?_, Pc.begins_of_live hlive _, fun st₁ hst₁ => ?_, hwrites⟩
  · rw [hplace]
    exact placed_of hat (by rw [hregistry]; exact h.registered)
  · obtain rfl : st' = st₁ := Option.some.inj (Slot.mk.inj (Option.some.inj (hat.symm.trans (hst₁ b hlive)))).1
    exact hanswered

/-- **The call leaves its branch**, or goes on with it: the atomic calls have nothing to do. -/
lemma stutters (h : w.AtWork H R a c m b st pc) (hstore : w'.store = w.store)
    (hentries : w'.entries = Function.update w.entries b (some slot)) (hregistry : w'.registry = w.registry)
    (hcalls : w'.calls = Function.update w.calls c pc') (hshown : slot.Shows H R w'.calls b ((a.branches m).get? b))
    (hpc : w'.Tracks H R a c pc') (hes : ∀ e ∈ es, e.Told none a) : w.Matched H R a c w' es :=
  World.Sim.matched (h.sim.stutters h.wf h.held h.entry (fun _ hc' => (Option.some.inj hc').symm) h.registered hstore
    hentries hregistry hcalls h.self hshown hpc) hes

/-- **The call goes on** with its branch. -/
lemma goesOn (h : w.AtWork H R a c m b st pc) (hstore : w'.store = w.store)
    (hentries : w'.entries = Function.update w.entries b (some ⟨some st', some c⟩))
    (hregistry : w'.registry = w.registry) (hcalls : w'.calls = Function.update w.calls c pc')
    (hplace : pc'.place = some (m, b)) (hlive : pc'.live = some b)
    (hshown : pc'.Shows H R b st' ((a.branches m).get? b)) (hanswered : pc'.Answered H R st' (a.results c))
    (hwrites : pc'.WritesOn w.store) (hes : ∀ e ∈ es, e.Told none a) : w.Matched H R a c w' es := by
  refine h.stutters hstore hentries hregistry hcalls ?_
    (h.tracks hentries hregistry hplace hlive hanswered (by rwa [hstore])) hes
  rwa [Slot.Shows, hcalls, Function.update_self]

/-- **A call that has been answered returns**, and releases the lock. -/
lemma releases (h : w.AtWork H R a c m b st pc) (hshown : (a.branches m).get? b = some st')
    (hresult : a.results c = some ⟨m, b, req, reply⟩) (hes : ∀ e ∈ es, e.Told none a) :
    w.Matched H R a c (w.release c b st' reply).1 (es ++ (w.release c b st' reply).2) :=
  h.stutters rfl rfl rfl rfl hshown (World.tracks_done _ _ _)
    (List.forall_mem_append.mpr ⟨hes, List.forall_mem_singleton.mpr ⟨m, req, hresult⟩⟩)

/-- **The call is answered** at this step. -/
lemma answers (h : w.AtWork H R a c m b st pc) (hasked : pc.asked = some (m, b, req)) (hnew : a.results c = none)
    (hexec : req.exec H R b (a.manager m) = (reply, ⟨w'.store, (a.branches m).set b o, 0⟩))
    (hentries : w'.entries = Function.update w.entries b (some slot)) (hregistry : w'.registry = w.registry)
    (hcalls : w'.calls = Function.update w.calls c pc') (hshown : slot.Shows H R w'.calls b o)
    (hwrites : ∀ c' ≠ c, (w.calls c').WritesOn w.store → (w.calls c').WritesOn w'.store)
    (hpc : w'.Tracks H R (a.answered c ⟨m, b, req, reply⟩ w'.store o) c pc')
    (hes : ∀ e ∈ es, e.Told (some (.called c ⟨m, b, req, reply⟩)) (a.answered c ⟨m, b, req, reply⟩ w'.store o)) :
    w.Matched H R a c w' es :=
  World.Sim.answers (h.sim.goes h.wf h.held h.entry (fun _ hc' => (Option.some.inj hc').symm) h.registered hentries
    hregistry hcalls h.self rfl rfl rfl hshown rfl (fun _ hne => Function.update_of_ne hne ..) hwrites hpc)
    (by rw [h.phase, hasked]) hnew hexec hes

/-- **The call is answered, and goes on** to leave the branch as it was answered. -/
lemma answersOn (h : w.AtWork H R a c m b st pc) (hasked : pc.asked = some (m, b, req)) (hnew : a.results c = none)
    (hexec : req.exec H R b (a.manager m) = (reply, ⟨a.store, (a.branches m).set b o, 0⟩))
    (hplace : pc'.place = some (m, b)) (hlive : pc'.live = some b) (hshown : pc'.Shows H R b st o)
    (hanswered : pc'.Answered H R st (some ⟨m, b, req, reply⟩)) (hwrites : pc'.WritesOn w.store)
    (hes : ∀ e ∈ es, e.Told (some (.called c ⟨m, b, req, reply⟩)) (a.answered c ⟨m, b, req, reply⟩ w.store o)) :
    w.Matched H R a c (w.goto c pc') es := by
  refine h.answers hasked hnew (by rw [hexec, h.manager]; rfl) h.still rfl rfl ?_ (fun _ _ hw => hw)
    (h.tracks h.still rfl hplace hlive ?_ hwrites) hes
  · show (Function.update w.calls c pc' c).Shows H R b st o
    rwa [Function.update_self]
  · show pc'.Answered H R st (Function.update a.results c _ c)
    rwa [Function.update_self]

/-- **The call is answered, and has consumed its branch.** -/
lemma consumes (h : w.AtWork H R a c m b st pc) (hasked : pc.asked = some (m, b, req)) (hnew : a.results c = none)
    (hexec : req.exec H R b (a.manager m) = (reply, ⟨w'.store, (a.branches m).set b none, 0⟩))
    (hentries : w'.entries = Function.update w.entries b (some ⟨none, some c⟩)) (hregistry : w'.registry = w.registry)
    (hcalls : w'.calls = Function.update w.calls c (.removing m b reply))
    (hwrites : ∀ c' ≠ c, (w.calls c').WritesOn w.store → (w.calls c').WritesOn w'.store)
    (hes : ∀ e ∈ es, e.Told (some (.called c ⟨m, b, req, reply⟩)) (a.answered c ⟨m, b, req, reply⟩ w'.store none)) :
    w.Matched H R a c w' es :=
  h.answers hasked hnew hexec hentries hregistry hcalls rfl hwrites
    ⟨by rintro _ _ ⟨⟩, trivial, fun _ _ => ⟨req, Function.update_self ..⟩, trivial⟩ hes

/-- **A call that is admitted is answered**, but a commit that seals its branch. -/
lemma admitted {origin : Store.Read σ} {n k : CommitId} (h : w.AtWork H R a c m b st (.locked m b req))
    (hadm : Admits (a.manager m) st origin) :
    w.Matched H R a c (w.goto c (.ready m b req origin)) [.observed c b n k] := by
  have hshown : (a.branches m).get? b = some st := h.shown
  cases req with
  | ordinary op =>
    exact h.answersOn rfl h.answered (Request.exec_ordinary hshown hadm op) rfl rfl rfl rfl trivial
      (List.forall_mem_singleton.mpr trivial)
  | discard =>
    exact h.answersOn rfl h.answered (Request.exec_discard hshown hadm) rfl rfl rfl rfl trivial
      (List.forall_mem_singleton.mpr trivial)
  | commit =>
    cases hseal : st.sealState H R origin with
    | error e =>
      have hexec : Request.commit.exec H R b (a.manager m)
          = (.error (.branch e), ⟨a.store, (a.branches m).set b (some st), 0⟩) := by
        rw [← hshown, OrdMap.set_self]
        exact Request.exec_commit_error hshown hadm hseal
      refine h.answersOn rfl h.answered hexec rfl rfl rfl ?_ trivial (List.forall_mem_singleton.mpr trivial)
      rw [Pc.Answered, hseal]
      rfl
    | ok p =>
      refine h.goesOn rfl h.still rfl rfl rfl rfl hshown ?_ trivial (List.forall_mem_singleton.mpr trivial)
      rw [Pc.Answered, hseal]
      exact h.answered

/-- An ordinary call was answered before, and returns. -/
lemma ordinary {op : Ordinary} {origin : Store.Read σ} (h : w.AtWork H R a c m b st (.ready m b (.ordinary op) origin))
    (hs : w.work H R c b st = some (w', es)) : w.Matched H R a c w' es := by
  simp only [World.work, h.phase] at hs
  obtain ⟨rfl, rfl⟩ := Prod.mk.inj (Option.some.inj hs)
  refine h.releases h.shown h.answered (List.forall_mem_append.mpr ⟨fun e he => ?_, fun e he => ?_⟩)
  · obtain ⟨act, -, rfl⟩ := List.mem_map.mp he
    trivial
  · split_ifs at he
    · rw [List.mem_singleton.mp he]
      trivial
    · exact absurd he List.not_mem_nil

/-- A discard was answered before, and has consumed its branch. -/
lemma discard {origin : Store.Read σ} (h : w.AtWork H R a c m b st (.ready m b .discard origin))
    (hs : w.work H R c b st = some (w', es)) : w.Matched H R a c w' es := by
  simp only [World.work, h.phase] at hs
  obtain ⟨rfl, rfl⟩ := Prod.mk.inj (Option.some.inj hs)
  exact h.stutters rfl rfl rfl rfl h.shown ⟨by rintro _ _ ⟨⟩, trivial, fun _ _ => ⟨.discard, h.answered⟩, trivial⟩
    (List.forall_mem_singleton.mpr trivial)

/-- A commit seals its branch, or was answered before. -/
lemma commit {origin : Store.Read σ} (h : w.AtWork H R a c m b st (.ready m b .commit origin))
    (hs : w.work H R c b st = some (w', es)) : w.Matched H R a c w' es := by
  have hanswered : a.results c = Pc.failed m b (st.sealState H R origin) := h.answered
  simp only [World.work, h.phase] at hs
  split at hs
  · rename_i e hseal
    rw [hseal] at hanswered
    obtain ⟨rfl, rfl⟩ := Prod.mk.inj (Option.some.inj hs)
    exact h.releases h.shown hanswered (List.forall_mem_nil _)
  · rename_i s st' hseal
    rw [hseal] at hanswered
    obtain ⟨rfl, rfl⟩ := Prod.mk.inj (Option.some.inj hs)
    obtain ⟨hwhere, rfl⟩ := sealState_ok hseal
    refine h.goesOn rfl rfl rfl rfl rfl rfl ⟨st, h.shown, rfl, rfl, ?_⟩ hanswered trivial
      (List.forall_mem_singleton.mpr trivial)
    rcases hwhere with hsome | ⟨hnone, -⟩
    · right
      rw [← hsome]
    · exact .inl hnone

variable [LawfulStore σ]

/-- **A call that finds its branch behind the head** is refused, and consumes the branch. -/
lemma refused {before : BranchState} {n k : CommitId} (h : w.AtWork H R a c m b st pc) (hfits : w.Fits H R head)
    (hbefore : (a.branches m).get? b = some before) (hne : head.commitId ≠ before.commitId)
    (hasked : pc.asked = some (m, b, req)) (hnew : a.results c = none) (hstore : w'.store = w.store)
    (hentries : w'.entries = Function.update w.entries b (some ⟨none, some c⟩)) (hregistry : w'.registry = w.registry)
    (hcalls : w'.calls = Function.update w.calls c (.removing m b (.error (.branch req.stale)))) :
    w.Matched H R a c w' [.observed c b n k] := by
  obtain ⟨origin, hbegin, -, hread⟩ := snapshot_reads (show HeadIs (tables w.store) head from hfits.head_is)
  rw [← h.sim.agrees.store] at hbegin
  have hexec : req.exec H R b (a.manager m) = _ := Request.exec_stale hbefore hbegin hread hne req
  refine h.consumes hasked hnew ?_ hentries hregistry hcalls (fun _ _ hw => by rwa [hstore])
    (List.forall_mem_singleton.mpr trivial)
  rw [hexec, hstore, ← h.manager]
  rfl

/-- The head is checked in a fresh snapshot. -/
lemma locked (h : w.AtWork H R a c m b st (.locked m b req)) (hfits : w.Fits H R head)
    (hs : w.work H R c b st = some (w', es)) : w.Matched H R a c w' es := by
  obtain ⟨origin, hbegin, -, hread⟩ := snapshot_reads (show HeadIs (tables w.store) head from hfits.head_is)
  simp only [World.work, h.phase, hbegin, mapError_ok, hread] at hs
  split_ifs at hs with hne
  · obtain ⟨rfl, rfl⟩ := Prod.mk.inj (Option.some.inj hs)
    exact h.refused hfits h.shown hne rfl h.answered rfl rfl rfl rfl
  · obtain ⟨rfl, rfl⟩ := Prod.mk.inj (Option.some.inj hs)
    rw [← h.sim.agrees.store] at hbegin
    exact h.admitted ⟨hbegin, by rw [hread, not_ne_iff.mp hne]⟩

/-- A sealed commit waits for the store's writer. -/
lemma sealed {n : CommitId} {s : SealedCommit} (h : w.AtWork H R a c m b st (.sealed m b n s))
    (hs : w.work H R c b st = some (w', es)) : w.Matched H R a c w' es := by
  obtain ⟨tx, hbegin, -⟩ := LawfulStore.beginWrite_eq w.store
  simp only [World.work, h.phase, hbegin, mapError_ok] at hs
  split at hs
  · cases hs
  · obtain ⟨rfl, rfl⟩ := Prod.mk.inj (Option.some.inj hs)
    exact h.goesOn rfl h.still rfl rfl rfl rfl h.shown h.answered hbegin (List.forall_mem_nil _)

/-- What the call has of the tables and its branch. -/
lemma fitting (h : w.AtWork H R a c m b st pc) (hfits : w.Fits H R head) : pc.Fits (tables w.store) head st := by
  have hcall := hfits.call c b st (by rw [h.phase, h.live]) h.entry
  rwa [h.phase] at hcall

/-- A commit checks the head in the writer, and may lose the race. -/
lemma writing {n : CommitId} {s : SealedCommit} {tx : Store.Write σ}
    (h : w.AtWork H R a c m b st (.writing m b n s tx)) (hfits : w.Fits H R head)
    (hs : w.work H R c b st = some (w', es)) : w.Matched H R a c w' es := by
  obtain ⟨rfl, -, -⟩ := h.fitting hfits
  have hread : readHead tx = .ok head.commitId := by
    obtain ⟨tx₀, hbegin, hrows⟩ := LawfulStore.beginWrite_eq w.store
    obtain rfl := Except.ok.inj (hbegin.symm.trans h.writes)
    exact HeadIs.readHead (by rw [hrows]; exact hfits.head_is)
  simp only [World.work, h.phase, hread] at hs
  split_ifs at hs with hne
  · obtain ⟨before, hbefore, hcommit, -⟩ := h.shown
    obtain ⟨rfl, rfl⟩ := Prod.mk.inj (Option.some.inj hs)
    exact h.refused hfits hbefore (by rwa [hcommit]) rfl h.answered rfl rfl rfl rfl
  · obtain ⟨rfl, rfl⟩ := Prod.mk.inj (Option.some.inj hs)
    exact h.goesOn rfl h.still rfl rfl rfl rfl h.shown h.answered h.writes (List.forall_mem_singleton.mpr trivial)

/-- The rows of the seal are replayed. -/
lemma checked {n : CommitId} {s : SealedCommit} {tx : Store.Write σ}
    (h : w.AtWork H R a c m b st (.checked m b n s tx)) (hfits : w.Fits H R head)
    (hs : w.work H R c b st = some (w', es)) : w.Matched H R a c w' es := by
  obtain ⟨rfl, hsealed, hhead, -⟩ := h.fitting hfits
  obtain ⟨_, -, hcompute⟩ := (hfits.branch b st _ h.entry).sealed s hsealed hhead.symm
  obtain ⟨tx', hreplay, -⟩ := runs_replay (compute_valid hcompute) tx
  simp only [World.work, h.phase, show (replay s.writes).exec tx = _ from hreplay] at hs
  obtain ⟨rfl, rfl⟩ := Prod.mk.inj (Option.some.inj hs)
  exact h.goesOn rfl h.still rfl rfl rfl rfl h.shown h.answered ⟨tx, h.writes, hreplay⟩ (List.forall_mem_nil _)

/-- The head is written. -/
lemma replayed {n : CommitId} {s : SealedCommit} {tx : Store.Write σ}
    (h : w.AtWork H R a c m b st (.replayed m b n s tx)) (hs : w.work H R c b st = some (w', es)) :
    w.Matched H R a c w' es := by
  obtain ⟨tx₀, hbegin, hreplay⟩ := h.writes
  obtain ⟨tx', hput, -⟩ := LawfulWrite.put_eq SUPERBLOCK_valid tx HEAD_KEY
    (Head.encode ⟨s.commitId, s.stateRoot, s.indexRoot⟩)
  have hwrite : Prog.Runs (writeHead ⟨s.commitId, s.stateRoot, s.indexRoot⟩) tx () tx' := Prog.runs_mapError.mpr hput
  simp only [World.work, h.phase, show (writeHead ⟨s.commitId, s.stateRoot, s.indexRoot⟩).exec tx = _ from hwrite] at hs
  obtain ⟨rfl, rfl⟩ := Prod.mk.inj (Option.some.inj hs)
  exact h.goesOn rfl h.still rfl rfl rfl rfl h.shown h.answered ⟨tx₀, tx, hbegin, hreplay, hwrite⟩
    (List.forall_mem_nil _)

/-- **A commit publishes**, and is answered. -/
lemma headed {n : CommitId} {s : SealedCommit} {tx : Store.Write σ}
    (h : w.AtWork H R a c m b st (.headed m b n s tx)) (hfits : w.Fits H R head)
    (hs : w.work H R c b st = some (w', es)) : w.Matched H R a c w' es := by
  obtain ⟨rfl, hsealed, hhead, -⟩ := h.fitting hfits
  have hheadIs : HeadIs (tables w.store) head := hfits.head_is
  obtain ⟨tx₀, tx₁, hbegin, hreplay, hwrite⟩ := h.writes
  obtain ⟨store', hcommit, -⟩ := LawfulStore.commit_eq w.store tx
  simp only [World.work, h.phase, show (Store.commit tx).exec w.store = _ from hcommit] at hs
  obtain ⟨rfl, rfl⟩ := Prod.mk.inj (Option.some.inj hs)
  obtain ⟨origin, hbegin₀, hrows, hread⟩ := snapshot_reads hheadIs
  obtain ⟨before, st', hbefore, hsame, hseal, hst'⟩ :=
    Pc.Sealing.computes h.shown (hfits.branch b st _ h.entry) hsealed hhead.symm hrows
  have hat : (a.manager m).store = w.store := h.sim.agrees.store
  have hreadTx : readHead tx₀ = .ok before.commitId := by
    obtain ⟨tx₂, hbegin₂, hrows₂⟩ := LawfulStore.beginWrite_eq w.store
    obtain rfl := Except.ok.inj (hbegin₂.symm.trans hbegin)
    rw [hsame, ← hhead]
    exact HeadIs.readHead (by rwa [hrows₂])
  have hexec : Request.commit.exec H R b (a.manager m) = _ := Request.exec_commit hbefore
    ⟨by rw [hat, hbegin₀], by rw [hread, hhead, hsame]⟩ hseal hst' (by rw [hat, hbegin]) hreadTx hreplay hwrite
    (by rw [hat]; exact hcommit)
  refine h.consumes rfl h.answered hexec rfl rfl rfl (fun c' hne _ => ?_) (List.forall_mem_singleton.mpr trivial)
  -- nobody else has the writer
  refine Pc.writesOn_of_not_writes fun hw => hne ?_
  have hw' := hfits.writer c' hw
  rw [hfits.writer c (by rw [h.phase]; rfl)] at hw'
  exact (Option.some.inj hw').symm

end World.AtWork

variable [LawfulStore σ]

/-- **One step under a branch's lock** is matched. -/
theorem World.Sim.work (h : w.Sim H R a) (hwf : w.Wf) (hheld : w.Held) (hfits : w.Fits H R head)
    (hlive : (w.calls c).live = some b) (he : w.entries b = some ⟨some st, some c⟩)
    (hs : w.work H R c b st = some (w', es)) : w.Matched H R a c w' es := by
  have hat : ∀ {m pc}, w.calls c = pc → pc.place = some (m, b) → w.AtWork H R a c m b st pc := fun hpc hplace =>
    ⟨h, hwf, hheld, hpc, hpc ▸ hlive, hplace, he⟩
  cases hpc : w.calls c with
  | locked m b' req =>
    obtain rfl : b' = b := Option.some.inj (by rwa [hpc] at hlive)
    exact (hat hpc rfl).locked hfits hs
  | ready m b' req origin =>
    obtain rfl : b' = b := Option.some.inj (by rwa [hpc] at hlive)
    cases req with
    | ordinary op => exact (hat hpc rfl).ordinary hs
    | commit => exact (hat hpc rfl).commit hs
    | discard => exact (hat hpc rfl).discard hs
  | sealed m b' n s =>
    obtain rfl : b' = b := Option.some.inj (by rwa [hpc] at hlive)
    exact (hat hpc rfl).sealed hs
  | writing m b' n s tx =>
    obtain rfl : b' = b := Option.some.inj (by rwa [hpc] at hlive)
    exact (hat hpc rfl).writing hfits hs
  | checked m b' n s tx =>
    obtain rfl : b' = b := Option.some.inj (by rwa [hpc] at hlive)
    exact (hat hpc rfl).checked hfits hs
  | replayed m b' n s tx =>
    obtain rfl : b' = b := Option.some.inj (by rwa [hpc] at hlive)
    exact (hat hpc rfl).replayed hs
  | headed m b' n s tx =>
    obtain rfl : b' = b := Option.some.inj (by rwa [hpc] at hlive)
    exact (hat hpc rfl).headed hfits hs
  | _ =>
    rw [hpc] at hlive
    cases hlive

/-- **A begin call reads the head.** -/
lemma World.Sim.readsHead (h : w.Sim H R a) (hheld : w.Held) (hfits : w.Fits H R head)
    (hpc : w.calls c = .beginning m) (hs : w.advance H R c = some (w', es)) : w.Matched H R a c w' es := by
  have htracks := h.calls c
  rw [hpc] at htracks
  obtain ⟨origin, hbegin, -, hread⟩ := snapshot_reads (show HeadIs (tables w.store) head from hfits.head_is)
  simp only [World.advance, hpc, hbegin, mapError_ok, hread] at hs
  obtain ⟨rfl, rfl⟩ := Prod.mk.inj (Option.some.inj hs)
  have hhead : (a.manager m).head = .ok head.commitId := by
    unfold Branches.head Managers.manager
    rw [h.agrees.store, hbegin]
    exact hread
  refine ⟨some (.headRead c m head.commitId), _, fun p hp => ?_,
    .headRead a c m head.commitId htracks.begins hhead, ?_, List.forall_mem_nil _⟩
  · rw [← Option.some.inj hp]
    rfl
  · exact h.aside hheld rfl rfl rfl rfl (by rw [hpc]; rfl) rfl rfl rfl (fun _ hne => Function.update_of_ne hne ..)
      (fun _ _ => rfl) ⟨by rintro _ _ ⟨⟩, Function.update_self ..,
        fun st _ => htracks.answered st (by rintro _ ⟨⟩), trivial⟩

/-- **One step of a call** is matched. -/
theorem World.Sim.advance (h : w.Sim H R a) (hwf : w.Wf) (hheld : w.Held) (hfits : w.Fits H R head)
    (hs : w.advance H R c = some (w', es)) : w.Matched H R a c w' es := by
  have htracks := h.calls c
  have hs₀ := hs
  unfold World.advance at hs
  split at hs
  · rename_i m hpc
    exact h.readsHead hheld hfits hpc hs₀
  · rename_i m n hpc
    rw [hpc] at htracks
    split at hs
    · obtain ⟨rfl, rfl⟩ := Prod.mk.inj (Option.some.inj hs)
      exact World.Sim.matched (h.aside hheld rfl rfl rfl rfl (by rw [hpc]; rfl) rfl rfl rfl (fun _ _ => rfl)
        (fun _ _ => rfl) (World.tracks_done _ _ _)) (List.forall_mem_singleton.mpr trivial)
    · obtain ⟨rfl, rfl⟩ := Prod.mk.inj (Option.some.inj hs)
      exact World.Sim.matched (h.aside hheld rfl rfl rfl rfl (by rw [hpc]; rfl) rfl rfl rfl (fun _ _ => rfl)
        (fun _ _ => rfl) ⟨by rintro _ _ ⟨⟩, htracks.begins, fun st _ => htracks.answered st (by rintro _ ⟨⟩),
          trivial⟩) (List.forall_mem_nil _)
  · rename_i m b n hpc
    exact h.begins hwf hheld hpc hs₀
  · rename_i m b req hpc
    exact h.looks hheld hpc hs₀
  · rename_i m b req hpc
    exact h.waits hwf hheld hpc hs₀
  · rename_i m b reply hpc
    rw [hpc] at htracks
    have hresult := htracks.answered ⟨0, CellOverlay.new, none⟩ (by rintro _ ⟨⟩)
    obtain ⟨rfl, rfl⟩ := Prod.mk.inj (Option.some.inj hs)
    exact World.Sim.matched (h.remove hwf hheld (hwf.removing c m b reply hpc) (by rw [hpc]; rfl) rfl rfl rfl rfl)
      (List.forall_mem_singleton.mpr ⟨m, hresult⟩)
  · rename_i m b reply hpc
    rw [hpc] at htracks
    have hdropping := hwf.dropping c m b reply hpc
    have hresult := htracks.answered ⟨0, CellOverlay.new, none⟩ (by rintro _ ⟨⟩)
    obtain ⟨rfl, rfl⟩ := Prod.mk.inj (Option.some.inj hs)
    refine World.Sim.matched (h.remove hwf hheld hdropping (by rw [hpc]; rfl) rfl rfl ?_ rfl)
      (List.forall_mem_singleton.mpr ⟨m, hresult⟩)
    rw [← hdropping, Function.update_eq_self]
    rfl
  · split at hs
    · cases hs
    · rename_i b hlive
      obtain ⟨st, he⟩ := hwf.live c b hlive
      rw [he] at hs
      exact h.work hwf hheld hfits hlive he hs

end Work

/-! ### Runs -/

section Runs

variable {H : HashProvider} {R : Roaring} {σ : Type} [Store σ] {w w' : World σ} {a : Managers σ} {c : CallId}
  {b : BranchId} {es : List Emission} {l : Label} {st : BranchState} {head : Head} {labels : List Label}

/-- **What a call is asked is what it was called with.** -/
lemma World.asked_step (hs : w.step H R l = some (w', es)) {c' : CallId} {m : ManagerId} {b : BranchId} {req : Request}
    (hasked : (w'.calls c').asked = some (m, b, req)) :
    (w.calls c').asked = some (m, b, req) ∨ l = .call c' m b req := by
  cases l with
  | begin c m =>
    simp only [World.step] at hs
    split at hs
    · obtain ⟨rfl, -⟩ := Prod.mk.inj (Option.some.inj hs)
      have hasked : (Function.update w.calls c (.beginning _) c').asked = some _ := hasked
      rw [Function.update_apply] at hasked
      split_ifs at hasked
      · cases hasked
      · exact .inl hasked
    · cases hs
  | call c m' b' req' =>
    simp only [World.step] at hs
    split at hs
    · obtain ⟨rfl, -⟩ := Prod.mk.inj (Option.some.inj hs)
      have hasked : (Function.update w.calls c (.looking m' b' req') c').asked = some (m, b, req) := hasked
      rw [Function.update_apply] at hasked
      split_ifs at hasked with hc
      · obtain ⟨rfl, rfl, rfl⟩ := Prod.mk.inj (Option.some.inj hasked)
        exact .inr (by rw [hc])
      · exact .inl hasked
    · cases hs
  | advance c =>
    obtain ⟨pc, hcalls, hnext⟩ := World.moves_advance (show w.advance H R c = _ from hs)
    rw [hcalls, Function.update_apply] at hasked
    split_ifs at hasked with hc
    · rcases hnext.asked with hpc | hpc
      · rw [hpc] at hasked
        cases hasked
      · left
        rw [hc, ← hpc]
        exact hasked
    · exact .inl hasked

/-- An atomic step answers its own call, once. -/
lemma Managers.Step.results {a a' : Managers σ} {p : Point} (h : Managers.Step H R a p a') :
    (∀ c x, a.results c = some x → a'.results c = some x) ∧
      ∀ c x, a'.results c = some x → a.results c = some x ∨ p = .called c x := by
  cases h with
  | headRead c m n hnew hhead => exact ⟨fun _ _ hx => hx, fun _ _ hx => .inl hx⟩
  | began c m b n hread hfresh => exact ⟨fun _ _ hx => hx, fun _ _ hx => .inl hx⟩
  | called c m b req hnew =>
    refine ⟨fun c' x hx => ?_, fun c' x hx => ?_⟩
    · have hne : c' ≠ c := by
        rintro rfl
        rw [hnew] at hx
        cases hx
      exact (Function.update_of_ne hne ..).trans hx
    · have hx : Function.update a.results c _ c' = some x := hx
      rw [Function.update_apply] at hx
      split_ifs at hx with hc
      · right
        rw [hc, ← Option.some.inj hx]
      · exact .inl hx

variable [LawfulStore σ]

/-- **The simulation along a run**, with what was asked and what was returned so far. -/
structure World.Linear (H : HashProvider) (R : Roaring) (labels : List Label) (es : List Emission) (w : World σ)
    (a : Managers σ) : Prop where
  sim : w.Sim H R a
  wf : w.Wf
  held : w.Held
  fits : ∃ head, w.Fits H R head
  asked : ∀ c m b req, (w.calls c).asked = some (m, b, req) → .call c m b req ∈ labels
  answers : ∀ c x, a.results c = some x → .call c x.manager x.branch x.request ∈ labels
  returned : ∀ c b reply, .returned c b reply ∈ es → ∃ m req, a.results c = some ⟨m, b, req, reply⟩

/-- The atomic step is one of the call that the label advances. -/
def OfLabel (l : Label) (p : Point) : Prop := l = .advance p.call

/-- The branches that are shown to begin are those that begin at the points. -/
def Begun (points : List (Option Point)) (es : List Emission) : Prop :=
  ∀ c b, .began c b ∈ es ↔ ∃ m n, some (Point.began c m b n) ∈ points

lemma Begun.append {points points' : List (Option Point)} {es' : List Emission} (h : Begun points es)
    (h' : Begun points' es') : Begun (points ++ points') (es ++ es') := by
  intro c b
  simp only [List.mem_append, h c b, h' c b, exists_or]

lemma begun_none : Begun [none] [] := fun c b =>
  ⟨fun hin => absurd hin List.not_mem_nil, by rintro ⟨m, n, hp⟩; cases List.mem_singleton.mp hp⟩

/-- **Every step is matched**, and a branch that it shows to begin begins there. -/
theorem World.Linear.step {seen : List Emission} (h : w.Linear H R labels seen a) (hs : w.step H R l = some (w', es)) :
    ∃ o a', (∀ p, o = some p → OfLabel l p) ∧ Stutters (Managers.Step H R) a o a' ∧
      w'.Linear H R (labels ++ [l]) (seen ++ es) a' ∧ Begun [o] es := by
  obtain ⟨head, hfits⟩ := h.fits
  have hfits' := (hfits.step h.wf hs).1
  have hasked : ∀ c m b req, (w'.calls c).asked = some (m, b, req) → .call c m b req ∈ labels ++ [l] :=
    fun c m b req hq => (World.asked_step hs hq).elim
      (fun hq => List.mem_append_left _ (h.asked c m b req hq)) fun hl => List.mem_append_right _ (by simp [hl])
  have hstays : w'.Sim H R a → es = [] → w'.Linear H R (labels ++ [l]) (seen ++ es) a := fun hsim hes =>
    ⟨hsim, h.wf.step hs, h.held.step h.wf hs, hfits', hasked, fun c x hx => List.mem_append_left _ (h.answers c x hx),
      fun c b reply hin => h.returned c b reply (by rwa [hes, List.append_nil] at hin)⟩
  cases l with
  | begin c m =>
    have hs' := hs
    simp only [World.step] at hs'
    split at hs'
    · rename_i hold
      obtain ⟨rfl, rfl⟩ := Prod.mk.inj (Option.some.inj hs')
      exact ⟨none, a, by rintro _ ⟨⟩, rfl, hstays (h.sim.starts h.held hold
        ⟨rfl, rfl, fun hheads => hheads, fun hr _ => hr, trivial⟩) rfl, begun_none⟩
    · cases hs'
  | call c m b req =>
    have hs' := hs
    simp only [World.step] at hs'
    split at hs'
    · rename_i hold
      obtain ⟨rfl, rfl⟩ := Prod.mk.inj (Option.some.inj hs')
      exact ⟨none, a, by rintro _ ⟨⟩, rfl, hstays (h.sim.starts h.held hold
        ⟨rfl, rfl, fun _ => trivial, fun hr _ => hr, trivial⟩) rfl, begun_none⟩
    · cases hs'
  | advance c =>
    obtain ⟨o, a', hof, hstutter, hsim, htold⟩ := h.sim.advance h.wf h.held hfits (show w.advance H R c = _ from hs)
    have hresults : (∀ c x, a.results c = some x → a'.results c = some x) ∧
        ∀ c x, a'.results c = some x → a.results c = some x ∨ o = some (.called c x) := by
      cases o with
      | none =>
        obtain rfl : a' = a := hstutter
        exact ⟨fun _ _ hx => hx, fun _ _ hx => .inl hx⟩
      | some p =>
        have hstep : Managers.Step H R a p a' := hstutter
        exact ⟨hstep.results.1, fun c x hx => (hstep.results.2 c x hx).imp_right fun hp => by rw [hp]⟩
    refine ⟨o, a', fun p hp => ?_, hstutter,
      ⟨hsim, h.wf.step hs, h.held.step h.wf hs, hfits', hasked, fun c' x hx => ?_, fun c' b reply hin => ?_⟩,
      fun c' b => ⟨fun hin => ?_, ?_⟩⟩
    · have hp' := hof p hp
      cases p with
      | headRead c' m n => exact congrArg _ (show c' = c from hp').symm
      | began c' m b n => exact congrArg _ (show c' = c from hp'.1).symm
      | called c' x => exact congrArg _ (show c' = c from hp'.1).symm
    · rcases hresults.2 c' x hx with hold | hp
      · exact List.mem_append_left _ (h.answers c' x hold)
      · obtain ⟨rfl, hq⟩ := hof _ hp
        exact List.mem_append_left _ (h.asked _ _ _ _ hq)
    · rcases List.mem_append.mp hin with hin | hin
      · obtain ⟨m, req, hx⟩ := h.returned c' b reply hin
        exact ⟨m, req, hresults.1 c' _ hx⟩
      · exact htold _ hin
    · obtain ⟨m, n, rfl⟩ := htold _ hin
      exact ⟨m, n, List.mem_singleton_self _⟩
    · rintro ⟨m, n, hp⟩
      exact (hof _ (List.mem_singleton.mp hp).symm).2

/-- **The concurrent managers are simulated by atomic calls.** -/
theorem simulates_atomic : Simulates (World.step H R) (Managers.Step H R) OfLabel
    (fun labels points es (w : World σ) a => w.Linear H R labels es a ∧ Begun points es) := by
  refine ⟨fun h hs => ?_⟩
  obtain ⟨o, a', hof, hstutter, hlinear, hbegun⟩ := h.1.step hs
  exact ⟨o, a', hof, hstutter, hlinear, h.2.append hbegun⟩

lemma World.linear_start {store : σ} (hh : HeadIs (tables store) head) (next : BranchId) :
    (World.start store next).Linear H R [] [] (Managers.start store) := by
  refine ⟨⟨⟨rfl, by rintro _ _ ⟨⟩, by rintro _ _ _ ⟨⟩, by rintro _ _ _ ⟨⟩, fun _ _ _ => rfl, by rintro _ ⟨⟩⟩,
    fun c => ?_⟩,
    World.wf_start store next, by rintro _ _ _ ⟨⟩, ⟨head, World.fits_start hh next⟩, by rintro _ _ _ _ ⟨⟩,
      by rintro _ _ ⟨⟩,
    fun _ _ _ hin => absurd hin List.not_mem_nil⟩
  exact ⟨by rintro _ _ ⟨⟩, rfl, fun _ _ => rfl, trivial⟩

/-- **Calls are linearizable.** In every interleaving of any calls on any branches of any managers over one
initialized store that does not fail, each call acts as one atomic step of its own manager, at one of its own steps:
the atomic steps in that order start from the same store, end in the same store and with the same branches wherever
nobody is at work, begin the branches that are shown to begin, each for its own call, and answer every call that
returned what it returned, to what it was called with. -/
theorem run_linearizable (H : HashProvider) (R : Roaring) {store : σ} (hh : HeadIs (tables store) head)
    (next : BranchId) (hrun : (World.start store next).run H R labels = some (w, es)) :
    ∃ (points : List (Option Point)) (a : Managers σ),
      Matches (Managers.Step H R) OfLabel (Managers.start store) labels points a ∧
      a.store = w.store ∧
      (∀ m b st, w.registry m b = true → w.entries b = some ⟨some st, none⟩ → (a.branches m).get? b = some st) ∧
      (∀ m b, w.registry m b = false → (a.branches m).get? b = none) ∧
      (∀ c b, .began c b ∈ es ↔ ∃ m n, some (Point.began c m b n) ∈ points) ∧
      (∀ c b reply, .returned c b reply ∈ es → ∃ m req, a.results c = some ⟨m, b, req, reply⟩) ∧
      ∀ c x, a.results c = some x → .call c x.manager x.branch x.request ∈ labels := by
  rw [World.run_eq] at hrun
  have hnone : Begun [] [] := fun c b => by simp
  obtain ⟨points, a, hmatch, hlinear, hbegun⟩ :=
    (simulates_atomic (H := H) (R := R)).run ⟨World.linear_start hh next, hnone⟩ hrun
  exact ⟨points, a, hmatch, hlinear.sim.agrees.store, fun m b st hr he => hlinear.sim.agrees.shown m b _ hr he,
    hlinear.sim.agrees.absent, hbegun, hlinear.returned, hlinear.answers⟩

end Runs

theorem run_linearizable_demo : ∃ w es,
    (World.start handleStore 0).run Trie.polyHash arrayRoaring raceLabels = some (w, es) ∧
    es = [.began 0 0, .began 1 1, .observed 2 0 0 0, .observed 3 1 0 0, .sealed 2 0, .sealed 3 1, .observed 2 0 0 0,
      .published 2 0 0 1, .observed 3 1 0 1, .returned 3 1 (.error (.branch .conflict)), .returned 2 0 (.committed 1)] ∧
    ∃ (points : List (Option Point)) (a : Managers MemoryStore),
      Matches (Managers.Step Trie.polyHash arrayRoaring) OfLabel (Managers.start handleStore) raceLabels points a ∧
      a.store = w.store ∧
      (∀ m b st, w.registry m b = true → w.entries b = some ⟨some st, none⟩ → (a.branches m).get? b = some st) ∧
      (∀ m b, w.registry m b = false → (a.branches m).get? b = none) ∧
      (∀ c b, .began c b ∈ es ↔ ∃ m n, some (Point.began c m b n) ∈ points) ∧
      (∀ c b reply, .returned c b reply ∈ es → ∃ m req, a.results c = some ⟨m, b, req, reply⟩) ∧
      ∀ c x, a.results c = some x → .call c x.manager x.branch x.request ∈ raceLabels := by
  have hes : ((World.start handleStore 0).run Trie.polyHash arrayRoaring raceLabels).map Prod.snd
      = some [.began 0 0, .began 1 1, .observed 2 0 0 0, .observed 3 1 0 0, .sealed 2 0, .sealed 3 1, .observed 2 0 0 0,
        .published 2 0 0 1, .observed 3 1 0 1, .returned 3 1 (.error (.branch .conflict)),
        .returned 2 0 (.committed 1)] := by decide +kernel
  obtain ⟨⟨w, es⟩, hrun, hshown⟩ := Option.map_eq_some_iff.mp hes
  exact ⟨w, es, hrun, hshown, run_linearizable Trie.polyHash arrayRoaring
    (show HeadIs (tables handleStore) ⟨0, Trie.polyHash.hash [], Trie.polyHash.hash []⟩ from rfl) 0 hrun⟩

end GolemDb.Branch
