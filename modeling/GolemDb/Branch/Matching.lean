import GolemDb.Branch.Serial
import GolemDb.Branch.Moves
import GolemDb.Branch.Determined
import GolemDb.Branch.Atomic

/-!
The concurrent managers beside the atomic ones. A branch that nobody works on is the same in both;
one that a call has been answered on, and not yet changed, shows in the atomic managers what the
call will leave; and a commit that has sealed its branch is not there yet (`World.Sim`). A step of
one call on one entry leaves the rest of this alone.
-/

namespace GolemDb.Branch

open GolemDb.Lib GolemDb.Storage GolemDb.Merkle GolemDb.Cells GolemDb.Index

/-! ### The relation -/

namespace Pc

variable (H : HashProvider) (R : Roaring) {σ : Type} [Store σ]

/-- The manager and the branch of a call that has found its entry. -/
def place : Pc σ → Option (ManagerId × BranchId)
  | .waiting m b _ => some (m, b)
  | .locked m b _ => some (m, b)
  | .ready m b _ _ => some (m, b)
  | .sealed m b _ _ => some (m, b)
  | .writing m b _ _ _ => some (m, b)
  | .checked m b _ _ _ => some (m, b)
  | .replayed m b _ _ _ => some (m, b)
  | .headed m b _ _ _ => some (m, b)
  | _ => none

/-- A branch that was sealed by a commit, or not yet. -/
def Sealing (st : BranchState) (o : Option BranchState) : Prop :=
  ∃ before, o = some before ∧ before.commitId = st.commitId ∧ before.overlay = st.overlay ∧
    (before.sealed = none ∨ before = st)

/-- The state of the branch that the call works on, as the atomic calls have left it. -/
def Shows (b : BranchId) (st : BranchState) (o : Option BranchState) : Pc σ → Prop
  | .ready _ _ (.ordinary op) origin => o = some (op.perform H R b st origin).2.1
  | .ready _ _ .discard _ => o = none
  | .sealed _ _ _ _ => Sealing st o
  | .writing _ _ _ _ _ => Sealing st o
  | .checked _ _ _ _ _ => Sealing st o
  | .replayed _ _ _ _ _ => Sealing st o
  | .headed _ _ _ _ _ => Sealing st o
  | _ => o = some st

/-- The answer of a commit whose seal fails. -/
def failed (m : ManagerId) (b : BranchId) : Except BranchError (SealedCommit × BranchState) → Option Answer
  | .ok _ => none
  | .error e => some ⟨m, b, .commit, .error (.branch e)⟩

/-- **What the call has been answered** by the atomic calls. -/
def Answered (st : BranchState) (x : Option Answer) : Pc σ → Prop
  | .ready m b (.ordinary op) origin => x = some ⟨m, b, .ordinary op, (op.perform H R b st origin).1⟩
  | .ready m b .discard _ => x = some ⟨m, b, .discard, .done⟩
  | .ready m b .commit origin => x = failed m b (st.sealState H R origin)
  | .removing m b reply => ∃ req, x = some ⟨m, b, req, reply⟩
  | .dropping m b reply => ∃ req, x = some ⟨m, b, req, reply⟩
  | .done => True
  | _ => x = none

/-- The head that the call begins a branch at. -/
def Begins (o : Option CommitId) : Pc σ → Prop
  | .idle => o = none
  | .beginning _ => o = none
  | .allocating _ n => o = some n
  | .inserting _ _ n => o = some n
  | _ => True

/-- The writer's transaction is that of an atomic commit on the store. -/
def WritesOn (store : σ) : Pc σ → Prop
  | .writing _ _ _ _ tx => Store.beginWrite store = .ok tx
  | .checked _ _ _ _ tx => Store.beginWrite store = .ok tx
  | .replayed _ _ _ s tx => ∃ tx₀, Store.beginWrite store = .ok tx₀ ∧ Prog.Runs (replay s.writes) tx₀ () tx
  | .headed _ _ _ s tx => ∃ tx₀ tx₁, Store.beginWrite store = .ok tx₀ ∧ Prog.Runs (replay s.writes) tx₀ () tx₁ ∧
      Prog.Runs (writeHead ⟨s.commitId, s.stateRoot, s.indexRoot⟩) tx₁ () tx
  | _ => True

end Pc

section Relation

variable (H : HashProvider) (R : Roaring) {σ : Type} [Store σ]

/-- The state behind an entry, as the atomic calls have left it. -/
def Slot.Shows (slot : Slot) (calls : CallId → Pc σ) (b : BranchId) (o : Option BranchState) : Prop :=
  match slot with
  | ⟨none, _⟩ => o = none
  | ⟨some st, none⟩ => o = some st
  | ⟨some st, some c⟩ => (calls c).Shows H R b st o

/-- The call that holds the lock of a branch works on it. -/
def World.Held (w : World σ) : Prop := ∀ b st c, w.entries b = some ⟨some st, some c⟩ → (w.calls c).live = some b

/-- The entry of the branch is made, and the manager has it while it is live. -/
def World.Placed (w : World σ) (m : ManagerId) (b : BranchId) : Prop :=
  w.entries b ≠ none ∧ ∀ st holder, w.entries b = some ⟨some st, holder⟩ → w.registry m b = true

/-- The call agrees with the atomic calls. -/
structure World.Tracks (w : World σ) (a : Managers σ) (c : CallId) (pc : Pc σ) : Prop where
  place : ∀ m b, pc.place = some (m, b) → w.Placed m b
  begins : pc.Begins (a.heads c)
  answered : ∀ st, (∀ b, pc.live = some b → w.entries b = some ⟨some st, some c⟩) → pc.Answered H R st (a.results c)
  writes : pc.WritesOn w.store

/-- The branches agree with those of the atomic calls. -/
structure World.Agrees (w : World σ) (a : Managers σ) : Prop where
  store : a.store = w.store
  made : ∀ m b, w.registry m b = true → w.entries b ≠ none
  owner : ∀ m m' b, w.registry m b = true → w.registry m' b = true → m = m'
  shown : ∀ m b slot, w.registry m b = true → w.entries b = some slot → slot.Shows H R w.calls b ((a.branches m).get? b)
  absent : ∀ m b, w.registry m b = false → (a.branches m).get? b = none
  used : ∀ b ∈ a.used, w.entries b ≠ none

/-- **The simulation** of the concurrent managers by atomic calls. -/
structure World.Sim (w : World σ) (a : Managers σ) : Prop where
  agrees : w.Agrees H R a
  calls : ∀ c, w.Tracks H R a c (w.calls c)

end Relation

/-! ### What a step leaves alone -/

section Frame

variable {H : HashProvider} {R : Roaring} {σ : Type} [Store σ] {w w' : World σ} {a a' : Managers σ} {c : CallId}
  {m : ManagerId} {b : BranchId} {es : List Emission} {l : Label} {pc : Pc σ}

/-- **Every step keeps the holders of locks at work.** -/
lemma World.Held.step (h : w.Held) (hwf : w.Wf) (hs : w.step H R l = some (w', es)) : w'.Held := by
  -- a step of a call, which alone may hold the one entry that changes
  have hone : ∀ {w' : World σ} {c : CallId} {b : BranchId} {slot : Slot} {pc : Pc σ},
      w'.entries = Function.update w.entries b (some slot) → w'.calls = Function.update w.calls c pc →
      (∀ b', (w.calls c).live = some b' → b' = b) →
      (∀ st c', slot = ⟨some st, some c'⟩ → c' = c ∧ pc.live = some b) → w'.Held := by
    intro w' c b slot pc hentries hcalls hold hslot b' st c' he
    rw [hentries, Function.update_apply] at he
    split_ifs at he with hb
    · obtain ⟨rfl, hlive⟩ := hslot st c' (Option.some.inj he)
      rw [hcalls, Function.update_self, hb, hlive]
    · have hlive := h b' st c' he
      have hne : c' ≠ c := by
        rintro rfl
        exact hb (hold b' hlive)
      rwa [hcalls, Function.update_of_ne hne]
  have hquiet : ∀ {w' : World σ} {c : CallId} {pc : Pc σ}, w'.entries = w.entries →
      w'.calls = Function.update w.calls c pc → (w.calls c).live = none → w'.Held := by
    intro w' c pc hentries hcalls hold b' st c' he
    rw [hentries] at he
    have hlive := h b' st c' he
    have hne : c' ≠ c := by
      rintro rfl
      rw [hold] at hlive
      cases hlive
    rwa [hcalls, Function.update_of_ne hne]
  cases hwf.stepped hs with
  | queue c pc es hold hpc hes => exact hquiet rfl rfl (Pc.outside_live hold)
  | allocate c m commitId next hold hnext => exact hquiet rfl rfl (Pc.outside_live hold)
  | insert w' c m b commitId hold hentries hcalls hnext =>
    refine hone hentries hcalls (fun b' hb' => ?_) fun st c' hslot => ?_
    · rw [hold] at hb'
      cases hb'
    · cases (Slot.mk.inj hslot).2
  | lock c m b req st hold he =>
    refine hone rfl rfl (fun b' hb' => ?_) fun st' c' hslot => ?_
    · rw [Pc.outside_live hold] at hb'
      cases hb'
    · exact ⟨(Option.some.inj (Slot.mk.inj hslot).2).symm, rfl⟩
  | work w' c b st es hold he hw =>
    have hself : ∀ b', (w.calls c).live = some b' → b' = b := fun b' hb' => Option.some.inj (hb'.symm.trans hold)
    cases hw with
    | stays st' pc _ hentries hcalls hreg hnext hpc _ _ =>
      exact hone hentries hcalls hself fun st₁ c' hslot => ⟨(Option.some.inj (Slot.mk.inj hslot).2).symm, hpc⟩
    | releases st' es reply hentries hcalls hreg hnext _ _ =>
      refine hone hentries hcalls hself fun st₁ c' hslot => ?_
      cases (Slot.mk.inj hslot).2
    | consumes holder pc es hentries hcalls hreg hnext hpc _ =>
      refine hone hentries hcalls hself fun st₁ c' hslot => ?_
      cases (Slot.mk.inj hslot).1
  | remove w' c b reply hold hentries hcalls hnext =>
    refine hone hentries hcalls (fun b' hb' => ?_) fun st c' hslot => ?_
    · rw [Pc.live_eq_none hold] at hb'
      cases hb'
    · cases (Slot.mk.inj hslot).1

/-- Another call's step does not change what a slot shows. -/
lemma Slot.Shows.other {slot : Slot} {o : Option BranchState} (h : slot.Shows H R w.calls b o)
    (hcalls : w'.calls = Function.update w.calls c pc) (hne : ∀ st, slot ≠ ⟨some st, some c⟩) :
    slot.Shows H R w'.calls b o := by
  obtain ⟨_ | st, _ | c'⟩ := slot
  · exact h
  · exact h
  · exact h
  · have hne' : c' ≠ c := by
      rintro rfl
      exact hne st rfl
    show (w'.calls c').Shows H R b st o
    rw [hcalls, Function.update_of_ne hne']
    exact h

/-- A call that takes no step agrees as before. -/
lemma World.Tracks.other (h : w.Tracks H R a c pc) (hheads : a'.heads c = a.heads c)
    (hresults : a'.results c = a.results c)
    (hentry : ∀ b, pc.live = some b → w'.entries b = w.entries b) (hplaced : ∀ m b, w.Placed m b → w'.Placed m b)
    (hwrites : pc.WritesOn w.store → pc.WritesOn w'.store) : w'.Tracks H R a' c pc := by
  refine ⟨fun m b hp => hplaced m b (h.place m b hp), hheads ▸ h.begins, fun st hst => ?_, hwrites h.writes⟩
  rw [hresults]
  exact h.answered st fun b hb => (hentry b hb).symm.trans (hst b hb)

/-- **A call that holds no lock goes on**: the branches are as they were. -/
lemma World.Sim.aside (h : w.Sim H R a) (hheld : w.Held) (hstore : w'.store = w.store)
    (hentries : w'.entries = w.entries)
    (hregistry : w'.registry = w.registry) (hcalls : w'.calls = Function.update w.calls c pc)
    (hold : (w.calls c).live = none) (hstore' : a'.store = a.store) (hbranches : a'.branches = a.branches)
    (hused : a'.used = a.used) (hheads : ∀ c' ≠ c, a'.heads c' = a.heads c')
    (hresults : ∀ c' ≠ c, a'.results c' = a.results c') (hpc : w'.Tracks H R a' c pc) : w'.Sim H R a' := by
  have hplaced : ∀ m b, w.Placed m b → w'.Placed m b := fun m b hp => by
    rwa [World.Placed, hentries, hregistry]
  refine ⟨⟨by rw [hstore', hstore, h.agrees.store], fun m b => ?_, fun m m' b => ?_, fun m b slot hr he => ?_,
    fun m b => ?_, fun b => ?_⟩, fun c' => ?_⟩
  · rw [hentries, hregistry]
    exact h.agrees.made m b
  · rw [hregistry]
    exact h.agrees.owner m m' b
  · rw [hregistry] at hr
    rw [hentries] at he
    rw [hbranches]
    refine (h.agrees.shown m b slot hr he).other hcalls fun st hst => ?_
    rw [hst] at he
    cases hold.symm.trans (hheld b st c he)
  · rw [hregistry, hbranches]
    exact h.agrees.absent m b
  · rw [hused, hentries]
    exact h.agrees.used b
  · by_cases hc : c' = c
    · subst hc
      rw [hcalls, Function.update_self]
      exact hpc
    · rw [hcalls, Function.update_of_ne hc]
      exact (h.calls c').other (hheads c' hc) (hresults c' hc) (fun b _ => by rw [hentries]) hplaced fun hw =>
        by rwa [hstore]

/-- **A call goes on under the lock of its branch**, takes it or leaves it: the other branches are as they were. -/
lemma World.Sim.goes (h : w.Sim H R a) (hwf : w.Wf) (hheld : w.Held) {st : BranchState} {holder : Option CallId}
    (he : w.entries b = some ⟨some st, holder⟩) (hholder : ∀ c', holder = some c' → c' = c)
    (hreg : w.registry m b = true)
    {slot : Slot} {o : Option BranchState} (hentries : w'.entries = Function.update w.entries b (some slot))
    (hregistry : w'.registry = w.registry) (hcalls : w'.calls = Function.update w.calls c pc)
    (hold : ∀ b', (w.calls c).live = some b' → b' = b) (hstore : a'.store = w'.store)
    (hbranches : a'.branches = Function.update a.branches m ((a.branches m).set b o)) (hused : a'.used = a.used)
    (hshown : slot.Shows H R w'.calls b o) (hheads : a'.heads = a.heads)
    (hresults : ∀ c' ≠ c, a'.results c' = a.results c')
    (hwrites : ∀ c' ≠ c, (w.calls c').WritesOn w.store → (w.calls c').WritesOn w'.store)
    (hpc : w'.Tracks H R a' c pc) : w'.Sim H R a' := by
  have hentry : ∀ {b'}, b' ≠ b → w'.entries b' = w.entries b' := fun hne => by rw [hentries, Function.update_of_ne hne]
  have hat : w'.entries b = some slot := by rw [hentries, Function.update_self]
  have hbranch : ∀ m' b', ¬ (m' = m ∧ b' = b) → (a'.branches m').get? b' = (a.branches m').get? b' :=
    fun m' b' hne => by
    rw [hbranches, Function.update_apply]
    split_ifs with hm
    · subst hm
      rw [OrdMap.get?_set, if_neg fun hb => hne ⟨rfl, hb⟩]
    · rfl
  have hplaced : ∀ m' b', w.Placed m' b' → w'.Placed m' b' := fun m' b' hp => by
    refine ⟨?_, fun st' holder' he' => ?_⟩
    · by_cases hb : b' = b
      · rw [hb, hat]
        exact Option.some_ne_none _
      · rw [hentry hb]
        exact hp.1
    · rw [hregistry]
      by_cases hb : b' = b
      · subst hb
        exact hp.2 st holder he
      · exact hp.2 st' holder' ((hentry hb).symm.trans he')
  refine ⟨⟨hstore, fun m' b' hr => ?_, fun m₁ m₂ b' => ?_, fun m' b' slot' hr he' => ?_, fun m' b' hr => ?_,
    fun b' hb' => ?_⟩, fun c' => ?_⟩
  · rw [hregistry] at hr
    by_cases hb : b' = b
    · rw [hb, hat]
      exact Option.some_ne_none _
    · rw [hentry hb]
      exact h.agrees.made m' b' hr
  · rw [hregistry]
    exact h.agrees.owner m₁ m₂ b'
  · rw [hregistry] at hr
    by_cases hb : b' = b
    · subst hb
      obtain rfl := h.agrees.owner m' m b' hr hreg
      obtain rfl := Option.some.inj (hat.symm.trans he')
      rw [hbranches, Function.update_self, OrdMap.get?_set, if_pos rfl]
      exact hshown
    · rw [hbranch m' b' fun hmb => hb hmb.2]
      rw [hentry hb] at he'
      refine (h.agrees.shown m' b' slot' hr he').other hcalls fun st' hst' => ?_
      rw [hst'] at he'
      exact hb (hold b' (hheld b' st' c he'))
  · rw [hregistry] at hr
    rw [hbranch m' b' fun hmb => ?_]
    · exact h.agrees.absent m' b' hr
    · rw [hmb.1, hmb.2, hreg] at hr
      cases hr
  · rw [hused] at hb'
    by_cases hb : b' = b
    · rw [hb, hat]
      exact Option.some_ne_none _
    · rw [hentry hb]
      exact h.agrees.used b' hb'
  · by_cases hc : c' = c
    · subst hc
      rw [hcalls, Function.update_self]
      exact hpc
    · rw [hcalls, Function.update_of_ne hc]
      refine (h.calls c').other (by rw [hheads]) (hresults c' hc)
        (fun b' hlive => hentry fun hb => ?_) hplaced (hwrites c' hc)
      -- nobody else works on the branch
      subst hb
      exact hc (hholder c' ((hwf.alone he).1 c' hlive))

/-- A call that is over agrees with anything. -/
lemma World.tracks_done (w : World σ) (a : Managers σ) (c : CallId) : w.Tracks H R a c .done :=
  ⟨by rintro _ _ ⟨⟩, trivial, fun _ _ => trivial, trivial⟩

/-- **A branch begins** under a number that nobody has used. -/
lemma World.Sim.insert (h : w.Sim H R a) (hwf : w.Wf) (hheld : w.Held) {n : CommitId}
    (hold : w.calls c = .inserting m b n)
    (hstore : w'.store = w.store)
    (hregistry : w'.registry = Function.update w.registry m (Function.update (w.registry m) b true))
    (hentries : w'.entries = Function.update w.entries b (some ⟨some ⟨n, CellOverlay.new, none⟩, none⟩))
    (hcalls : w'.calls = Function.update w.calls c .done) :
    w'.Sim H R { a with
      branches := Function.update a.branches m ((a.branches m).insert b ⟨n, CellOverlay.new, none⟩)
      used := Set.insert b a.used } := by
  obtain ⟨-, hnone, -⟩ := hwf.inserting c m b n hold
  have hentry : ∀ {b'}, b' ≠ b → w'.entries b' = w.entries b' := fun hne => by rw [hentries, Function.update_of_ne hne]
  have hat : w'.entries b = some ⟨some ⟨n, CellOverlay.new, none⟩, none⟩ := by rw [hentries, Function.update_self]
  have hnew : ∀ m', w.registry m' b = false := fun m' => by
    by_contra hr
    exact h.agrees.made m' b (by simpa using hr) hnone
  have hreg : ∀ m' b', w'.registry m' b' = if m' = m ∧ b' = b then true else w.registry m' b' := fun m' b' => by
    rw [hregistry, Function.update_apply]
    by_cases hm : m' = m
    · subst hm
      rw [if_pos rfl, Function.update_apply]
      by_cases hb : b' = b
      · rw [if_pos hb, if_pos ⟨rfl, hb⟩]
      · rw [if_neg hb, if_neg fun hmb => hb hmb.2]
    · rw [if_neg hm, if_neg fun hmb => hm hmb.1]
  have hbranch :
      ∀ m' b', ((Function.update a.branches m ((a.branches m).insert b ⟨n, CellOverlay.new, none⟩)) m').get? b'
      = if m' = m ∧ b' = b then some ⟨n, CellOverlay.new, none⟩ else (a.branches m').get? b' := fun m' b' => by
    rw [Function.update_apply]
    by_cases hm : m' = m
    · subst hm
      rw [if_pos rfl, OrdMap.get?_insert]
      by_cases hb : b' = b
      · rw [if_pos hb, if_pos ⟨rfl, hb⟩]
      · rw [if_neg hb, if_neg fun hmb => hb hmb.2]
    · rw [if_neg hm, if_neg fun hmb => hm hmb.1]
  have hplaced : ∀ m' b', w.Placed m' b' → w'.Placed m' b' := fun m' b' hp => by
    have hb : b' ≠ b := by
      rintro rfl
      exact hp.1 hnone
    refine ⟨by rw [hentry hb]; exact hp.1, fun st holder he => ?_⟩
    rw [hreg, if_neg fun hmb => hb hmb.2]
    exact hp.2 st holder ((hentry hb).symm.trans he)
  refine ⟨⟨by rw [hstore]; exact h.agrees.store, fun m' b' hr => ?_, fun m₁ m₂ b' h₁ h₂ => ?_,
    fun m' b' slot hr he => ?_, fun m' b' hr => ?_, fun b' hb' => ?_⟩, fun c' => ?_⟩
  · by_cases hb : b' = b
    · rw [hb, hat]
      exact Option.some_ne_none _
    · rw [hreg, if_neg fun hmb => hb hmb.2] at hr
      rw [hentry hb]
      exact h.agrees.made m' b' hr
  · by_cases hb : b' = b
    · -- nobody else has the new branch
      subst hb
      rw [hreg, hnew] at h₁ h₂
      simp only [and_true, Bool.if_false_right, Bool.and_true, decide_eq_true_eq] at h₁ h₂
      rw [h₁, h₂]
    · rw [hreg, if_neg fun hmb => hb hmb.2] at h₁ h₂
      exact h.agrees.owner m₁ m₂ b' h₁ h₂
  · show slot.Shows H R w'.calls b' (OrdMap.get? _ b')
    rw [hbranch]
    by_cases hb : b' = b
    · subst hb
      rw [hreg, hnew] at hr
      simp only [and_true, Bool.if_false_right, Bool.and_true, decide_eq_true_eq] at hr
      obtain rfl := Option.some.inj (hat.symm.trans he)
      rw [if_pos ⟨hr, rfl⟩]
      rfl
    · rw [hreg, if_neg fun hmb => hb hmb.2] at hr
      rw [if_neg fun hmb => hb hmb.2]
      rw [hentry hb] at he
      refine (h.agrees.shown m' b' slot hr he).other hcalls fun st' hst' => ?_
      rw [hst'] at he
      have hlive := hheld b' st' c he
      rw [hold] at hlive
      cases hlive
  · show OrdMap.get? _ b' = none
    rw [hreg] at hr
    rw [hbranch]
    split_ifs at hr ⊢
    exact h.agrees.absent m' b' hr
  · by_cases hb : b' = b
    · rw [hb, hat]
      exact Option.some_ne_none _
    · rw [hentry hb]
      exact h.agrees.used b' (hb'.resolve_left hb)
  · by_cases hc : c' = c
    · rw [hc, hcalls, Function.update_self]
      exact World.tracks_done _ _ _
    · rw [hcalls, Function.update_of_ne hc]
      refine (h.calls c').other rfl rfl (fun b' hlive => hentry fun hb => ?_) hplaced fun hw => by rwa [hstore]
      subst hb
      obtain ⟨st, he⟩ := hwf.live c' b' hlive
      rw [hnone] at he
      cases he

/-- **A consumed branch is removed.** -/
lemma World.Sim.remove (h : w.Sim H R a) (hwf : w.Wf) (hheld : w.Held) {holder : Option CallId}
    (he : w.entries b = some ⟨none, holder⟩) (hold : (w.calls c).live = none)
    (hstore : w'.store = w.store)
    (hregistry : w'.registry = Function.update w.registry m (Function.update (w.registry m) b false))
    (hentries : w'.entries = Function.update w.entries b (some ⟨none, none⟩))
    (hcalls : w'.calls = Function.update w.calls c .done) :
    w'.Sim H R a := by
  have hentry : ∀ {b'}, b' ≠ b → w'.entries b' = w.entries b' := fun hne => by rw [hentries, Function.update_of_ne hne]
  have hat : w'.entries b = some ⟨none, none⟩ := by rw [hentries, Function.update_self]
  have hreg : ∀ m' b', w'.registry m' b' = true → w.registry m' b' = true := fun m' b' hr => by
    rw [hregistry, Function.update_apply] at hr
    split_ifs at hr with hm
    · rw [hm]
      rw [Function.update_apply] at hr
      split_ifs at hr
      exact hr
    · exact hr
  have hkept : ∀ m' b', b' ≠ b → w'.registry m' b' = w.registry m' b' := fun m' b' hb => by
    rw [hregistry, Function.update_apply]
    split_ifs with hm
    · rw [Function.update_of_ne hb, hm]
    · rfl
  have hgone : ∀ m', (a.branches m').get? b = none := fun m' => by
    cases hr : w.registry m' b with
    | true => exact h.agrees.shown m' b _ hr he
    | false => exact h.agrees.absent m' b hr
  have hplaced : ∀ m' b', w.Placed m' b' → w'.Placed m' b' := fun m' b' hp => by
    by_cases hb : b' = b
    · subst hb
      refine ⟨by rw [hat]; exact Option.some_ne_none _, fun st holder' he' => ?_⟩
      rw [hat] at he'
      cases (Slot.mk.inj (Option.some.inj he')).1
    · refine ⟨by rw [hentry hb]; exact hp.1, fun st holder' he' => ?_⟩
      rw [hkept m' b' hb]
      exact hp.2 st holder' ((hentry hb).symm.trans he')
  refine ⟨⟨by rw [hstore]; exact h.agrees.store, fun m' b' hr => ?_, fun m₁ m₂ b' h₁ h₂ => ?_,
    fun m' b' slot hr he' => ?_, fun m' b' hr => ?_, fun b' hb' => ?_⟩, fun c' => ?_⟩
  · by_cases hb : b' = b
    · rw [hb, hat]
      exact Option.some_ne_none _
    · rw [hentry hb]
      exact h.agrees.made m' b' (hreg m' b' hr)
  · exact h.agrees.owner m₁ m₂ b' (hreg _ _ h₁) (hreg _ _ h₂)
  · by_cases hb : b' = b
    · subst hb
      obtain rfl := Option.some.inj (hat.symm.trans he')
      exact hgone m'
    · rw [hentry hb] at he'
      refine (h.agrees.shown m' b' slot (hreg m' b' hr) he').other hcalls fun st' hst' => ?_
      rw [hst'] at he'
      cases hold.symm.trans (hheld b' st' c he')
  · by_cases hb : b' = b
    · rw [hb]
      exact hgone m'
    · rw [hkept m' b' hb] at hr
      exact h.agrees.absent m' b' hr
  · by_cases hb : b' = b
    · rw [hb, hat]
      exact Option.some_ne_none _
    · rw [hentry hb]
      exact h.agrees.used b' hb'
  · by_cases hc : c' = c
    · rw [hc, hcalls, Function.update_self]
      exact World.tracks_done _ _ _
    · rw [hcalls, Function.update_of_ne hc]
      refine (h.calls c').other rfl rfl (fun b' hlive => hentry fun hb => ?_) hplaced fun hw => by rwa [hstore]
      subst hb
      obtain ⟨st, he'⟩ := hwf.live c' b' hlive
      rw [he] at he'
      cases (Slot.mk.inj (Option.some.inj he')).1

end Frame

end GolemDb.Branch
