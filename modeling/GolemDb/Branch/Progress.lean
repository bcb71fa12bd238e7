import GolemDb.Branch.Matching

/-!
Calls under concurrency come to an end, whatever the store does. The lock of a branch is held by a
call at work on it and the store's writer by a call inside it, so a call that waits waits for one
that can go on; and every step brings one call closer to its return. However the calls are scheduled,
they are all answered after a bounded number of steps (`run_completes`).
-/

namespace GolemDb.Branch

open GolemDb.Lib GolemDb.Storage GolemDb.Merkle GolemDb.Cells GolemDb.Index

section Progress

variable {H : HashProvider} {R : Roaring} {σ : Type} [Store σ] {w w' : World σ} {c : CallId} {b : BranchId}
  {es : List Emission} {l : Label} {st : BranchState} {labels : List Label}

/-! ### Who holds what -/

/-- The store's writer is held by a call inside it. -/
def World.Owned (w : World σ) : Prop := ∀ c, w.writer = some c → (w.calls c).writes = true

/-- The entries that managers and waiting calls know are made. -/
structure World.Made (w : World σ) : Prop where
  registry : ∀ m b, w.registry m b = true → w.entries b ≠ none
  waiting : ∀ c m b req, w.calls c = .waiting m b req → w.entries b ≠ none

/-- The writer is kept by the call that has it, or let go. -/
lemma World.Owned.inside (h : w.Owned) {p : World σ × List Emission} (hs : some p = some (w', es)) {pc : Pc σ}
    (hcalls : p.1.calls = Function.update w.calls c pc)
    (hw : p.1.writer = none ∨ p.1.writer = some c ∧ pc.writes = true ∨
      p.1.writer = w.writer ∧ (pc.writes = true ∨ (w.calls c).writes = false)) : w'.Owned := by
  obtain rfl := Option.some.inj hs
  intro c' hc'
  rcases hw with hnone | ⟨hself, hpc⟩ | ⟨hsame, hold⟩
  · rw [hnone] at hc'
    cases hc'
  · rw [hself] at hc'
    obtain rfl := Option.some.inj hc'
    rw [hcalls, Function.update_self, hpc]
  · rw [hsame] at hc'
    have hwrites := h c' hc'
    rw [hcalls, Function.update_apply]
    split_ifs with hc
    · rcases hold with hpc | hold
      · exact hpc
      · rw [hc, hold] at hwrites
        cases hwrites
    · exact hwrites

/-- A step of a call that is not inside the writer. -/
lemma World.Owned.outside (h : w.Owned) {p : World σ × List Emission} (hs : some p = some (w', es)) {pc pc₀ : Pc σ}
    (hold : w.calls c = pc₀) (hout : pc₀.writes = false) (hcalls : p.1.calls = Function.update w.calls c pc)
    (hwriter : p.1.writer = w.writer) : w'.Owned :=
  h.inside hs hcalls (.inr (.inr ⟨hwriter, .inr (by rw [hold, hout])⟩))

lemma World.Owned.abandon (h : w.Owned) (m : ManagerId) (e : BranchError) (store : σ)
    (hs : some ({ w with store := store }.abandon c m b st e) = some (w', es)) : w'.Owned := by
  unfold World.abandon at hs
  simp only at hs
  split_ifs at hs
  · exact h.inside hs rfl (.inl rfl)
  · exact h.inside hs rfl (.inl rfl)

lemma World.Owned.work (h : w.Owned) (hs : w.work H R c b st = some (w', es)) : w'.Owned := by
  unfold World.work at hs
  split at hs
  · rename_i hpc
    split at hs
    · exact h.outside hs hpc rfl rfl rfl
    · split at hs
      · exact h.outside hs hpc rfl rfl rfl
      · split_ifs at hs
        · exact h.outside hs hpc rfl rfl rfl
        · exact h.outside hs hpc rfl rfl rfl
  · rename_i hpc
    exact h.outside hs hpc rfl rfl rfl
  · rename_i hpc
    exact h.outside hs hpc rfl rfl rfl
  · rename_i hpc
    split at hs
    · exact h.outside hs hpc rfl rfl rfl
    · exact h.outside hs hpc rfl rfl rfl
  · -- the writer is taken
    rename_i hpc
    split at hs
    · cases hs
    · split at hs
      · exact h.outside hs hpc rfl rfl rfl
      · exact h.inside hs rfl (.inr (.inl ⟨rfl, rfl⟩))
  · rename_i hpc
    split at hs
    · exact h.abandon _ _ w.store hs
    · split_ifs at hs
      · exact h.inside hs rfl (.inl rfl)
      · exact h.inside hs rfl (.inr (.inr ⟨rfl, .inl rfl⟩))
  · split at hs
    · exact h.abandon _ _ w.store hs
    · exact h.inside hs rfl (.inr (.inr ⟨rfl, .inl rfl⟩))
  · split at hs
    · exact h.abandon _ _ w.store hs
    · exact h.inside hs rfl (.inr (.inr ⟨rfl, .inl rfl⟩))
  · split at hs
    · exact h.abandon _ _ _ hs
    · exact h.inside hs rfl (.inl rfl)
  · cases hs

lemma World.Owned.step (h : w.Owned) (hs : w.step H R l = some (w', es)) : w'.Owned := by
  cases l with
  | begin c m =>
    simp only [World.step] at hs
    split at hs
    · rename_i hpc
      exact h.outside hs hpc rfl rfl rfl
    · cases hs
  | call c m b req =>
    simp only [World.step] at hs
    split at hs
    · rename_i hpc
      exact h.outside hs hpc rfl rfl rfl
    · cases hs
  | advance c =>
    simp only [World.step, World.advance] at hs
    split at hs
    · rename_i hpc
      split at hs
      · exact h.outside hs hpc rfl rfl rfl
      · split at hs
        · exact h.outside hs hpc rfl rfl rfl
        · exact h.outside hs hpc rfl rfl rfl
    · rename_i hpc
      split at hs
      · exact h.outside hs hpc rfl rfl rfl
      · exact h.outside hs hpc rfl rfl rfl
    · rename_i hpc
      exact h.outside hs hpc rfl rfl rfl
    · rename_i hpc
      split_ifs at hs
      · exact h.outside hs hpc rfl rfl rfl
      · exact h.outside hs hpc rfl rfl rfl
    · rename_i hpc
      split at hs
      · exact h.outside hs hpc rfl rfl rfl
      · exact h.outside hs hpc rfl rfl rfl
      · cases hs
    · rename_i hpc
      exact h.outside hs hpc rfl rfl rfl
    · rename_i hpc
      exact h.outside hs hpc rfl rfl rfl
    · split at hs
      · cases hs
      · split at hs
        · exact h.work hs
        · cases hs

/-- An entry that is made is there for good. -/
lemma Stepped.entries_ne_none (h : Stepped w w' es) (hb : w.entries b ≠ none) : w'.entries b ≠ none := by
  have hupdate : ∀ {b' : BranchId} {slot : Slot}, w'.entries = Function.update w.entries b' (some slot) →
      w'.entries b ≠ none := by
    intro b' slot he
    rw [he, Function.update_apply]
    split_ifs
    · exact Option.some_ne_none _
    · exact hb
  cases h with
  | queue => exact hb
  | allocate => exact hb
  | insert w' c m b commitId hold hentries => exact hupdate hentries
  | lock c m b req st hold he => exact hupdate rfl
  | work w' c b st es hold he hw =>
    cases hw with
    | stays st' pc _ hentries => exact hupdate hentries
    | releases st' es reply hentries => exact hupdate hentries
    | consumes holder pc es hentries => exact hupdate hentries
  | remove w' c b reply hold hentries => exact hupdate hentries

lemma registry_update {registry : ManagerId → BranchId → Bool} {m m' : ManagerId} {b b' : BranchId} {known : Bool}
    (h : Function.update registry m (Function.update (registry m) b known) m' b' = true) :
    registry m' b' = true ∨ b' = b ∧ known = true := by
  rw [Function.update_apply] at h
  split_ifs at h with hm
  · rw [Function.update_apply] at h
    split_ifs at h with hb
    · exact .inr ⟨hb, h⟩
    · exact .inl (hm ▸ h)
  · exact .inl h

/-- A manager learns only of a branch whose entry is made. -/
lemma World.Wf.registry_step (h : w.Wf) (hs : w.step H R l = some (w', es)) {m : ManagerId} {b : BranchId}
    (hr : w'.registry m b = true) : w.registry m b = true ∨ w'.entries b ≠ none := by
  cases l with
  | begin c m' =>
    simp only [World.step] at hs
    split at hs
    · obtain ⟨rfl, -⟩ := Prod.mk.inj (Option.some.inj hs)
      exact .inl hr
    · cases hs
  | call c m' b' req =>
    simp only [World.step] at hs
    split at hs
    · obtain ⟨rfl, -⟩ := Prod.mk.inj (Option.some.inj hs)
      exact .inl hr
    · cases hs
  | advance c =>
    simp only [World.step, World.advance] at hs
    split at hs
    · split at hs
      · obtain ⟨rfl, -⟩ := Prod.mk.inj (Option.some.inj hs)
        exact .inl hr
      · split at hs
        · obtain ⟨rfl, -⟩ := Prod.mk.inj (Option.some.inj hs)
          exact .inl hr
        · obtain ⟨rfl, -⟩ := Prod.mk.inj (Option.some.inj hs)
          exact .inl hr
    · split at hs
      · obtain ⟨rfl, -⟩ := Prod.mk.inj (Option.some.inj hs)
        exact .inl hr
      · obtain ⟨rfl, -⟩ := Prod.mk.inj (Option.some.inj hs)
        exact .inl hr
    · rename_i m' b' n hpc
      obtain ⟨rfl, -⟩ := Prod.mk.inj (Option.some.inj hs)
      rcases registry_update hr with hr | ⟨rfl, -⟩
      · exact .inl hr
      · right
        show Function.update w.entries b _ b ≠ none
        rw [Function.update_self]
        exact Option.some_ne_none _
    · split_ifs at hs
      · obtain ⟨rfl, -⟩ := Prod.mk.inj (Option.some.inj hs)
        exact .inl hr
      · obtain ⟨rfl, -⟩ := Prod.mk.inj (Option.some.inj hs)
        exact .inl hr
    · split at hs
      · obtain ⟨rfl, -⟩ := Prod.mk.inj (Option.some.inj hs)
        exact .inl hr
      · obtain ⟨rfl, -⟩ := Prod.mk.inj (Option.some.inj hs)
        exact .inl hr
      · cases hs
    · obtain ⟨rfl, -⟩ := Prod.mk.inj (Option.some.inj hs)
      exact (registry_update hr).imp_right fun hb => by cases hb.2
    · obtain ⟨rfl, -⟩ := Prod.mk.inj (Option.some.inj hs)
      exact (registry_update hr).imp_right fun hb => by cases hb.2
    · split at hs
      · cases hs
      · rename_i b' hlive
        obtain ⟨st, he⟩ := h.live c b' hlive
        rw [he] at hs
        left
        cases work_worked he hs with
        | stays st' pc _ hentries hcalls hregistry => rwa [hregistry] at hr
        | releases st' es reply hentries hcalls hregistry => rwa [hregistry] at hr
        | consumes holder pc es hentries hcalls hregistry => rwa [hregistry] at hr

lemma World.Made.step (h : w.Made) (hwf : w.Wf) (hs : w.step H R l = some (w', es)) : w'.Made := by
  have hkept : ∀ {b}, w.entries b ≠ none → w'.entries b ≠ none := (hwf.stepped hs).entries_ne_none
  refine ⟨fun m b hr => (hwf.registry_step hs hr).elim (fun hr => hkept (h.registry m b hr)) id,
    fun c' m b req hc' => ?_⟩
  have hother : ∀ {c pc}, w'.calls = Function.update w.calls c pc → (pc = .waiting m b req → w.entries b ≠ none) →
      w'.entries b ≠ none := by
    intro c pc hcalls hpc
    rw [hcalls, Function.update_apply] at hc'
    split_ifs at hc' with hc
    · exact hkept (hpc hc')
    · exact hkept (h.waiting c' m b req hc')
  cases l with
  | begin c m' =>
    simp only [World.step] at hs
    split at hs
    · obtain ⟨rfl, -⟩ := Prod.mk.inj (Option.some.inj hs)
      exact hother rfl (by rintro ⟨⟩)
    · cases hs
  | call c m' b' req' =>
    simp only [World.step] at hs
    split at hs
    · obtain ⟨rfl, -⟩ := Prod.mk.inj (Option.some.inj hs)
      exact hother rfl (by rintro ⟨⟩)
    · cases hs
  | advance c =>
    have hadvance : w.advance H R c = some (w', es) := hs
    obtain ⟨pc, hcalls, hnext⟩ := World.moves_advance hadvance
    refine hother hcalls fun hpc => ?_
    subst hpc
    -- only a call that has found the branch waits for it
    generalize hold : w.calls c = pc₀ at hnext
    cases hnext with
    | found =>
      unfold World.advance at hadvance
      rw [hold] at hadvance
      simp only at hadvance
      split_ifs at hadvance with hr
      · exact h.registry m b hr
      · have hdone := congrArg (fun w => World.calls w c) (Prod.mk.inj (Option.some.inj hadvance)).1
        rw [hcalls, Function.update_self] at hdone
        have hdone : Function.update w.calls c .done c = .waiting m b req := hdone
        rw [Function.update_self] at hdone
        cases hdone

/-! ### No call is stuck -/

lemma World.advance_of_live (hwf : w.Wf) (hlive : (w.calls c).live = some b)
    (hwork : ∀ st, ∃ p, w.work H R c b st = some p) :
    ∃ p, w.advance H R c = some p := by
  obtain ⟨st, he⟩ := hwf.live c b hlive
  obtain ⟨p, hp⟩ := hwork st
  refine ⟨p, ?_⟩
  unfold World.advance
  cases hpc : w.calls c with
  | locked | ready | sealed | writing | checked | replayed | headed =>
    rw [hpc] at hlive
    simp only [hlive, he, hp]
  | _ =>
    rw [hpc] at hlive
    cases hlive

/-- **A call inside the writer can go on.** -/
lemma World.advance_of_writes (hwf : w.Wf) (hc : (w.calls c).writes = true) : ∃ p, w.advance H R c = some p := by
  have hlive : ∃ b, (w.calls c).live = some b := by
    cases hpc : w.calls c with
    | writing | checked | replayed | headed => exact ⟨_, rfl⟩
    | _ =>
      rw [hpc] at hc
      cases hc
  obtain ⟨b, hlive⟩ := hlive
  refine World.advance_of_live hwf hlive fun st => ?_
  unfold World.work
  cases hpc : w.calls c with
  | writing m b' origin s tx =>
    simp only
    split
    · exact ⟨_, rfl⟩
    · split_ifs
      · exact ⟨_, rfl⟩
      · exact ⟨_, rfl⟩
  | checked m b' origin s tx =>
    simp only
    split
    · exact ⟨_, rfl⟩
    · exact ⟨_, rfl⟩
  | replayed m b' origin s tx =>
    simp only
    split
    · exact ⟨_, rfl⟩
    · exact ⟨_, rfl⟩
  | headed m b' origin s tx =>
    simp only
    split
    · exact ⟨_, rfl⟩
    · exact ⟨_, rfl⟩
  | _ =>
    rw [hpc] at hc
    cases hc

/-- A call that holds the lock of a branch can go on, or waits for the store's writer, and then the call inside it
can. -/
lemma World.advance_of_holder (hwf : w.Wf) (howned : w.Owned) (hlive : (w.calls c).live = some b) :
    ∃ c' p, w.advance H R c' = some p := by
  by_cases hw : (w.calls c).writes = true
  · exact ⟨c, World.advance_of_writes hwf hw⟩
  · cases hpc : w.calls c with
    | sealed m b' origin s =>
      cases hwriter : w.writer with
      | some c' => exact ⟨c', World.advance_of_writes hwf (howned c' hwriter)⟩
      | none =>
        refine ⟨c, World.advance_of_live hwf hlive fun st => ?_⟩
        unfold World.work
        rw [hpc]
        simp only [hwriter]
        split
        · exact ⟨_, rfl⟩
        · exact ⟨_, rfl⟩
    | locked m b' req =>
      refine ⟨c, World.advance_of_live hwf hlive fun st => ?_⟩
      unfold World.work
      rw [hpc]
      simp only
      split
      · exact ⟨_, rfl⟩
      · split
        · exact ⟨_, rfl⟩
        · split_ifs
          · exact ⟨_, rfl⟩
          · exact ⟨_, rfl⟩
    | ready m b' req origin =>
      refine ⟨c, World.advance_of_live hwf hlive fun st => ?_⟩
      unfold World.work
      rw [hpc]
      cases req with
      | ordinary op => exact ⟨_, rfl⟩
      | discard => exact ⟨_, rfl⟩
      | commit =>
        simp only
        split
        · exact ⟨_, rfl⟩
        · exact ⟨_, rfl⟩
    | writing | checked | replayed | headed =>
      rw [hpc] at hw
      exact absurd rfl hw
    | _ =>
      rw [hpc] at hlive
      cases hlive

/-- The call has not started, or is over. -/
def Pc.quiet (pc : Pc σ) : Prop := pc = .idle ∨ pc = .done

/-- **While a call is not over, some call can go on.** -/
theorem World.can_advance (hwf : w.Wf) (hheld : w.Held) (hmade : w.Made) (howned : w.Owned) (hc : ¬ (w.calls c).quiet) :
    ∃ c' p, w.advance H R c' = some p := by
  have hself : ∀ {p}, w.advance H R c = some p → ∃ c' p, w.advance H R c' = some p := fun hp => ⟨c, _, hp⟩
  cases hpc : w.calls c with
  | idle => exact absurd (.inl hpc) hc
  | done => exact absurd (.inr hpc) hc
  | beginning m =>
    cases hp : w.advance H R c with
    | some p => exact hself hp
    | none =>
      unfold World.advance at hp
      rw [hpc] at hp
      simp only at hp
      split at hp
      · cases hp
      · split at hp
        · cases hp
        · cases hp
  | allocating m n =>
    cases hp : w.advance H R c with
    | some p => exact hself hp
    | none =>
      unfold World.advance at hp
      rw [hpc] at hp
      simp only at hp
      split at hp
      · cases hp
      · cases hp
  | inserting m b n => exact ⟨c, _, by unfold World.advance; rw [hpc]⟩
  | looking m b req =>
    cases hp : w.advance H R c with
    | some p => exact hself hp
    | none =>
      unfold World.advance at hp
      rw [hpc] at hp
      simp only at hp
      split_ifs at hp
  | waiting m b req =>
    -- the lock is free, or its holder can go on
    cases he : w.entries b with
    | none => exact absurd he (hmade.waiting c m b req hpc)
    | some slot =>
      obtain ⟨_ | st, _ | c'⟩ := slot
      · exact ⟨c, w.finish c b .handleInvalid, by unfold World.advance; rw [hpc]; simp only [he]⟩
      · obtain ⟨m', reply, hc'⟩ := hwf.emptied c' b he
        exact ⟨c', _, by unfold World.advance; rw [hc']⟩
      · exact ⟨c, ((w.setSlot b ⟨some st, some c⟩).goto c (.locked m b req), []),
          by unfold World.advance; rw [hpc]; simp only [he]⟩
      · exact World.advance_of_holder hwf howned (hheld b st c' he)
  | removing m b reply => exact ⟨c, _, by unfold World.advance; rw [hpc]⟩
  | dropping m b reply => exact ⟨c, _, by unfold World.advance; rw [hpc]⟩
  | locked | ready | sealed | writing | checked | replayed | headed =>
    exact World.advance_of_holder hwf howned (by rw [hpc]; rfl)

/-! ### Every call is answered -/

/-- The call that takes the step. -/
def Label.caller : Label → CallId
  | .begin c _ => c
  | .call c _ _ _ => c
  | .advance c => c

/-- A step of a call that has started. -/
def Advances (l : Label) : Prop := ∃ c, l = .advance c

/-- Nobody is stuck, and nobody but the calls that started is at work. -/
structure World.Steady (labels : List Label) (w : World σ) : Prop where
  wf : w.Wf
  held : w.Held
  made : w.Made
  owned : w.Owned
  idle : ∀ c, (∀ l ∈ labels, l.caller ≠ c) → w.calls c = .idle

/-- **What is known after any steps**: every call that started is on its way or over. -/
structure World.Serves (labels : List Label) (es : List Emission) (w : World σ) : Prop where
  steady : w.Steady labels
  called : ∀ c m b req, .call c m b req ∈ labels → (w.calls c).handle = some b ∨ ∃ reply, .returned c b reply ∈ es
  begun : ∀ c m, .begin c m ∈ labels → (w.calls c).starting = true ∨ (∃ b, .began c b ∈ es) ∨ ∃ e, .refused c e ∈ es

lemma World.serves_start (store : σ) (next : BranchId) : (World.start store next).Serves [] [] :=
  ⟨⟨World.wf_start store next, by rintro _ _ _ ⟨⟩, ⟨by rintro _ _ ⟨⟩, by rintro _ _ _ _ ⟨⟩⟩, by rintro _ ⟨⟩,
    fun _ _ => rfl⟩, fun _ _ _ _ hin => absurd hin List.not_mem_nil, fun _ _ hin => absurd hin List.not_mem_nil⟩

/-- A call that goes on, or has shown its end, is served. -/
lemma World.Serves.step {seen : List Emission} (h : w.Serves labels seen) (hs : w.step H R l = some (w', es)) :
    w'.Serves (labels ++ [l]) (seen ++ es) := by
  have hmoves : ∃ pc, w'.calls = Function.update w.calls l.caller pc ∧
      ((∀ m, l = .begin l.caller m → pc.starting = true) ∧
        (∀ m b req, l = .call l.caller m b req → pc.handle = some b)) ∧
      (∀ b, (w.calls l.caller).handle = some b → pc.handle = some b ∨ ∃ reply, .returned l.caller b reply ∈ es) ∧
      ((w.calls l.caller).starting = true →
        pc.starting = true ∨ (∃ b, .began l.caller b ∈ es) ∨ ∃ e, .refused l.caller e ∈ es) := by
    cases l with
    | begin c m =>
      simp only [World.step] at hs
      split at hs
      · rename_i hpc
        obtain ⟨rfl, rfl⟩ := Prod.mk.inj (Option.some.inj hs)
        refine ⟨_, rfl, ⟨fun _ _ => rfl, by rintro _ _ _ ⟨⟩⟩, fun b hb => ?_, fun hb => ?_⟩
        · rw [Label.caller, hpc] at hb
          cases hb
        · rw [Label.caller, hpc] at hb
          cases hb
      · cases hs
    | call c m b req =>
      simp only [World.step] at hs
      split at hs
      · rename_i hpc
        obtain ⟨rfl, rfl⟩ := Prod.mk.inj (Option.some.inj hs)
        refine ⟨_, rfl, ⟨by rintro _ ⟨⟩, ?_⟩, fun b hb => ?_, fun hb => ?_⟩
        · rintro _ _ _ ⟨⟩
          rfl
        · rw [Label.caller, hpc] at hb
          cases hb
        · rw [Label.caller, hpc] at hb
          cases hb
      · cases hs
    | advance c =>
      obtain ⟨pc, hcalls, hnext⟩ := World.moves_advance (show w.advance H R c = _ from hs)
      exact ⟨pc, hcalls, ⟨by rintro _ ⟨⟩, by rintro _ _ _ ⟨⟩⟩, fun b hb => hnext.handle hb, hnext.starting⟩
  obtain ⟨pc, hcalls, ⟨hbegin, hcall⟩, hhandle, hstarting⟩ := hmoves
  have hsteady := h.steady
  refine ⟨⟨hsteady.wf.step hs, hsteady.held.step hsteady.wf hs, hsteady.made.step hsteady.wf hs, hsteady.owned.step hs,
    fun c hc => ?_⟩, fun c m b req hin => ?_, fun c m hin => ?_⟩
  · have hne : c ≠ l.caller := fun he => hc l (List.mem_append_right _ (List.mem_singleton_self l)) he.symm
    rw [hcalls, Function.update_of_ne hne]
    exact hsteady.idle c fun x hx => hc x (List.mem_append_left _ hx)
  · rw [hcalls, Function.update_apply]
    rcases List.mem_append.mp hin with hin | hin
    · rcases h.called c m b req hin with hb | ⟨reply, hr⟩
      · split_ifs with hc
        · subst hc
          rcases hhandle b hb with hb | ⟨reply, hr⟩
          · exact .inl hb
          · exact .inr ⟨reply, List.mem_append_right _ hr⟩
        · exact .inl hb
      · exact .inr ⟨reply, List.mem_append_left _ hr⟩
    · obtain rfl := List.mem_singleton.mp hin
      rw [if_pos (show c = Label.caller (.call c m b req) from rfl)]
      exact .inl (hcall m b req rfl)
  · rw [hcalls, Function.update_apply]
    rcases List.mem_append.mp hin with hin | hin
    · rcases h.begun c m hin with hb | hseen
      · split_ifs with hc
        · subst hc
          exact (hstarting hb).imp_right fun hseen => hseen.imp
            (fun hb => hb.imp fun _ hx => List.mem_append_right _ hx)
            fun he => he.imp fun _ hx => List.mem_append_right _ hx
        · exact .inl hb
      · exact .inr (hseen.imp (fun hb => hb.imp fun _ hx => List.mem_append_left _ hx)
          fun he => he.imp fun _ hx => List.mem_append_left _ hx)
    · obtain rfl := List.mem_singleton.mp hin
      rw [if_pos (show c = Label.caller (.begin c m) from rfl)]
      exact .inl (hbegin m rfl)

lemma World.Serves.run : ∀ {more labels : List Label} {w w' : World σ} {es seen : List Emission}, w.Serves labels seen →
    runMachine (World.step H R) more w = some (w', es) → w'.Serves (labels ++ more) (seen ++ es) := by
  intro more
  induction more with
  | nil =>
    intro labels w w' es seen h hr
    obtain ⟨rfl, rfl⟩ := Prod.mk.inj (Option.some.inj hr)
    rwa [List.append_nil, List.append_nil]
  | cons l more ih =>
    intro labels w w' es seen h hr
    rw [runMachine] at hr
    cases hs : w.step H R l with
    | none =>
      rw [hs] at hr
      cases hr
    | some p =>
      rw [hs] at hr
      obtain ⟨q, hrest, hp⟩ := Option.map_eq_some_iff.mp hr
      obtain ⟨rfl, rfl⟩ := Prod.mk.inj hp
      have h' := ih (h.step (show w.step H R l = some (p.1, p.2) from hs)) (show _ = some (q.1, q.2) from hrest)
      rwa [List.append_assoc, List.append_assoc] at h'

/-- The calls of a run. -/
def callers (labels : List Label) : Finset CallId := (labels.map Label.caller).toFinset

/-- The steps left to the calls. -/
def World.left (labels : List Label) (w : World σ) : ℕ := ∑ c ∈ callers labels, (w.calls c).rank

lemma Pc.rank_le (pc : Pc σ) : pc.rank ≤ 10 := by
  cases pc <;> simp only [Pc.rank] <;> omega

lemma World.left_le (w : World σ) (labels : List Label) : w.left labels ≤ 10 * (callers labels).card := by
  refine (Finset.sum_le_card_nsmul _ _ 10 fun c _ => (w.calls c).rank_le).trans_eq ?_
  rw [smul_eq_mul, mul_comm]

/-- **Every step of a call lowers what is left to do.** -/
lemma World.Steady.step (h : w.Steady labels) (ha : Advances l) (hs : w.step H R l = some (w', es)) :
    w'.Steady labels ∧ w'.left labels < w.left labels := by
  obtain ⟨c, rfl⟩ := ha
  obtain ⟨pc, hcalls, hnext⟩ := World.moves_advance (show w.advance H R c = _ from hs)
  have hlt := hnext.rank_lt
  have hstarted : ¬ ∀ l ∈ labels, l.caller ≠ c := fun hc => by
    rw [h.idle c hc] at hlt
    exact absurd hlt (Nat.not_lt_zero _)
  have hc : c ∈ callers labels := by
    by_contra hc
    exact hstarted fun l hl he => hc (List.mem_toFinset.mpr (List.mem_map.mpr ⟨l, hl, he⟩))
  refine ⟨⟨h.wf.step hs, h.held.step h.wf hs, h.made.step h.wf hs, h.owned.step hs, fun c' hc' => ?_⟩,
    Finset.sum_lt_sum (fun c' _ => ?_) ⟨c, hc, ?_⟩⟩
  · have hne : c' ≠ c := by
      rintro rfl
      exact hstarted hc'
    rw [hcalls, Function.update_of_ne hne]
    exact h.idle c' hc'
  · rw [hcalls, Function.update_apply]
    split_ifs with hc'
    · rw [hc']
      exact hlt.le
    · exact le_rfl
  · rw [hcalls, Function.update_self]
    exact hlt

/-- A call that is on its way is not over. -/
lemma Pc.quiet.handle {pc : Pc σ} (h : pc.quiet) : pc.handle = none ∧ pc.starting = false := by
  rcases h with rfl | rfl <;> exact ⟨rfl, rfl⟩

/-- **No call is lost, and none waits for ever**, whatever the store does. After any calls on any branches of any
managers, however their steps are scheduled from there: no more than ten steps for each call that started are
left; where no call can take a step all calls are over; and then every call on a branch has returned, and every
call that began a branch has begun it or was refused. Some schedule leads there. -/
theorem run_completes (H : HashProvider) (R : Roaring) (store : σ) (next : BranchId)
    (hrun : (World.start store next).run H R labels = some (w, es)) :
    (∀ more w' es', (∀ l ∈ more, Advances l) → w.run H R more = some (w', es') →
      more.length ≤ 10 * (callers labels).card ∧
      ((∀ c, w'.advance H R c = none) → (∀ c, (w'.calls c).quiet) ∧
        (∀ c m b req, .call c m b req ∈ labels → ∃ reply, .returned c b reply ∈ es ++ es') ∧
        ∀ c m, .begin c m ∈ labels → (∃ b, .began c b ∈ es ++ es') ∨ ∃ e, .refused c e ∈ es ++ es')) ∧
    ∃ more w' es', (∀ l ∈ more, Advances l) ∧ w.run H R more = some (w', es') ∧ ∀ c, w'.advance H R c = none := by
  rw [World.run_eq] at hrun
  have hserves : w.Serves labels es := (World.serves_start store next).run hrun
  have hstep : ∀ {w₁ : World σ} {l} {w₂ : World σ} {es₂}, World.Steady labels w₁ → Advances l →
      World.step H R w₁ l = some (w₂, es₂) →
      World.Steady labels w₂ ∧ w₂.left labels < w₁.left labels := fun h ha hs => h.step ha hs
  refine ⟨fun more w' es' hmore hr => ?_, ?_⟩
  · rw [World.run_eq] at hr
    obtain ⟨hsteady, hle⟩ := runMachine_length_le hstep hserves.steady hmore hr
    refine ⟨by have := w.left_le labels; omega, fun hstuck => ?_⟩
    have hquiet : ∀ c, (w'.calls c).quiet := fun c => by
      by_contra hc
      obtain ⟨c', p, hp⟩ := World.can_advance (H := H) (R := R) hsteady.wf hsteady.held hsteady.made hsteady.owned hc
      rw [hstuck c'] at hp
      cases hp
    have hserves' := hserves.run hr
    refine ⟨hquiet, fun c m b req hin => ?_, fun c m hin => ?_⟩
    · rcases hserves'.called c m b req (List.mem_append_left _ hin) with hb | hreply
      · rw [(hquiet c).handle.1] at hb
        cases hb
      · exact hreply
    · rcases hserves'.begun c m (List.mem_append_left _ hin) with hb | hseen
      · rw [(hquiet c).handle.2] at hb
        cases hb
      · exact hseen
  · have hgo : ∀ w₁ : World σ, w₁.Steady labels → ¬ (∀ c, w₁.advance H R c = none) →
        ∃ l w₂ es₂, Advances l ∧ World.step H R w₁ l = some (w₂, es₂) := fun w₁ _ hd => by
      obtain ⟨c, hc⟩ := not_forall.mp hd
      obtain ⟨p, hp⟩ := Option.ne_none_iff_exists'.mp hc
      exact ⟨.advance c, p.1, p.2, ⟨c, rfl⟩, hp⟩
    obtain ⟨more, w', es', hmore, hr, hdone⟩ := runMachine_completes hstep hgo _ w hserves.steady le_rfl
    exact ⟨more, w', es', hmore, by rw [World.run_eq]; exact hr, hdone⟩

end Progress

theorem run_completes_demo : ∃ w es,
    (World.start handleStore 0).run Trie.polyHash arrayRoaring handleLabels = some (w, es) ∧
    es = [.began 0 0, .observed 1 0 0 0, .sealed 1 0, .observed 1 0 0 0, .published 1 0 0 1] ∧
    (∀ more w' es', (∀ l ∈ more, Advances l) → w.run Trie.polyHash arrayRoaring more = some (w', es') →
      more.length ≤ 10 * (callers handleLabels).card ∧
      ((∀ c, w'.advance Trie.polyHash arrayRoaring c = none) → (∀ c, (w'.calls c).quiet) ∧
        (∀ c m b req, .call c m b req ∈ handleLabels → ∃ reply, .returned c b reply ∈ es ++ es') ∧
        ∀ c m, .begin c m ∈ handleLabels → (∃ b, .began c b ∈ es ++ es') ∨ ∃ e, .refused c e ∈ es ++ es')) ∧
    ∃ more w' es', (∀ l ∈ more, Advances l) ∧ w.run Trie.polyHash arrayRoaring more = some (w', es') ∧
      ∀ c, w'.advance Trie.polyHash arrayRoaring c = none := by
  have hes : ((World.start handleStore 0).run Trie.polyHash arrayRoaring handleLabels).map Prod.snd
      = some [.began 0 0, .observed 1 0 0 0, .sealed 1 0, .observed 1 0 0 0, .published 1 0 0 1] := by decide +kernel
  obtain ⟨⟨w, es⟩, hrun, hshown⟩ := Option.map_eq_some_iff.mp hes
  exact ⟨w, es, hrun, hshown, run_completes Trie.polyHash arrayRoaring handleStore 0 hrun⟩

end GolemDb.Branch
