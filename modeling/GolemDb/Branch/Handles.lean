import GolemDb.Storage.Memory
import GolemDb.Merkle.History
import GolemDb.Branch.Lifecycle

/-!
The life of a branch handle. A step that shows the end of a handle leaves its entry empty
(`World.Wf.ends`), and an empty entry stays empty: every other call on it, also one that was already
queued, returns `HandleInvalid`, runs nothing and changes nothing. A sealed branch is only read, and
no number is handed out twice (`handle_lifecycle`).
-/

namespace GolemDb.Branch

open GolemDb.Lib GolemDb.Storage GolemDb.Merkle GolemDb.Cells GolemDb.Index

/-! ### The life of a handle -/

section Life

variable {H : HashProvider} {R : Roaring} {σ : Type} [Store σ] {w w' : World σ} {c c' : CallId} {b : BranchId}
  {es : List Emission} {l : Label} {labels : List Label}

/-- The handle is over, and `c` ended it. -/
def World.Ended (w : World σ) (c : CallId) (b : BranchId) : Prop :=
  (∃ holder, w.entries b = some ⟨none, holder⟩) ∧ ∀ c', (w.calls c').dead = some b → c' = c

/-- **What is seen of a handle that is over**: nothing is done on it, and every call but the one
that ended it is refused. -/
def Over (c : CallId) (b : BranchId) : Emission → Prop
  | .began _ b' => b' ≠ b
  | .observed _ b' _ _ => b' ≠ b
  | .acted _ b' _ => b' ≠ b
  | .sealed _ b' => b' ≠ b
  | .published _ b' _ _ => b' ≠ b
  | .discarded _ b' => b' ≠ b
  | .refused _ _ => True
  | .returned c' b' reply => b' = b → c' ≠ c → reply = .handleInvalid

/-- A sealed branch keeps its overlay for as long as it lives. -/
def World.Frozen (w : World σ) (b : BranchId) (overlay : CellOverlay) : Prop :=
  ∃ slot, w.entries b = some slot ∧ ∀ st, slot.state = some st → st.overlay = overlay ∧ st.sealed.isSome = true

/-- A branch that is only read. -/
def OnlyRead (b : BranchId) (e : Emission) : Prop := ∀ c act, e = .acted c b act → act = .read

/-- The numbers that begin calls returned. -/
def begun (es : List Emission) : List BranchId :=
  es.filterMap fun
    | .began _ b => some b
    | _ => none

lemma not_final_handleInvalid : ¬ Reply.handleInvalid.Final := not_final_error nofun

lemma Shows.over {st st' : BranchState} {e : Emission} {b' : BranchId} (h : Shows c' b' st st' e) (hne : b' ≠ b) :
    Over c b e := by
  cases h <;> exact hne

lemma Ends.over {e : Emission} {b' : BranchId} (h : Ends c' b' e) (hne : b' ≠ b) : Over c b e := by
  cases h with
  | returned reply hr => exact fun he => absurd he hne
  | _ => exact hne

lemma Ends.unique {e : Emission} {b' : BranchId} (h : Ends c b e) (h' : Ends c' b' e) : c' = c ∧ b' = b := by
  cases h <;> cases h' <;> exact ⟨rfl, rfl⟩

lemma Shows.not_ends {st st' : BranchState} {e : Emission} {b' : BranchId} (h : Shows c' b' st st' e) :
    ¬ Ends c b e := by
  intro he
  cases h with
  | observed head =>
    cases he with
    | observed _ _ hne => exact hne rfl
  | acted act _ => cases he
  | sealed _ => cases he

lemma Worked.entries_of_ne {st : BranchState} {b' : BranchId} (h : Worked w c b st w' es) (hne : b' ≠ b) :
    w'.entries b' = w.entries b' := by
  cases h with
  | stays _ _ _ hentries => rw [hentries, Function.update_of_ne hne]
  | releases _ _ _ hentries => rw [hentries, Function.update_of_ne hne]
  | consumes _ _ _ hentries => rw [hentries, Function.update_of_ne hne]

lemma Worked.over {st : BranchState} {b' : BranchId} (h : Worked w c' b' st w' es) (hne : b' ≠ b) :
    ∀ e ∈ es, Over c b e := by
  cases h with
  | stays _ _ _ _ _ _ _ _ _ hes => exact fun e he => (hes e he).over hne
  | releases _ es reply _ _ _ _ _ hes _ =>
    intro e he
    rcases List.mem_append.mp he with he | he
    · exact (hes e he).over hne
    · rw [List.mem_singleton.mp he]
      exact fun hb => absurd hb hne
  | consumes _ _ _ _ _ _ _ _ hes => exact fun e he => (hes e he).over hne

/-- Of the calls, only the one that works may come to have consumed the branch it works on. -/
lemma Worked.dead {st : BranchState} {b' : BranchId} (h : Worked w c b st w' es) {c₁ : CallId}
    (hc : (w'.calls c₁).dead = some b') : (w.calls c₁).dead = some b' ∨ c₁ = c ∧ b' = b := by
  have hat : ∀ {pc : Pc σ}, w'.calls = Function.update w.calls c pc → (pc.dead = some b' → b' = b) →
      (w.calls c₁).dead = some b' ∨ c₁ = c ∧ b' = b := by
    intro pc hcalls hpc
    rw [hcalls] at hc
    by_cases he : c₁ = c
    · subst he
      rw [Function.update_self] at hc
      exact .inr ⟨rfl, hpc hc⟩
    · rw [Function.update_of_ne he] at hc
      exact .inl hc
  cases h with
  | stays _ pc _ _ hcalls _ _ hlive _ _ =>
    refine hat hcalls fun hd => ?_
    rw [Pc.dead_eq_none hlive] at hd
    cases hd
  | releases _ _ _ _ hcalls => exact hat hcalls nofun
  | consumes _ pc _ _ hcalls _ _ hpc _ =>
    refine hat hcalls fun hd => ?_
    rcases hpc with ⟨m, reply, -, rfl⟩ | ⟨m, reply, -, rfl⟩
    · exact (Option.some.inj hd).symm
    · exact (Option.some.inj hd).symm

/-- **A handle that is over stays over**, and every step shows so. -/
theorem World.Ended.step (he : w.Ended c b) (h : w.Wf) (hs : w.step H R l = some (w', es)) :
    w'.Ended c b ∧ ∀ e ∈ es, Over c b e := by
  obtain ⟨⟨holder, hentry⟩, hdead⟩ := he
  have hcalls : ∀ {w'' : World σ} {c₁ : CallId} {pc : Pc σ}, w''.calls = Function.update w.calls c₁ pc →
      pc.dead = none → ∀ c', (w''.calls c').dead = some b → c' = c := by
    intro w'' c₁ pc hupd hpc c' hc'
    rw [hupd, Function.update_apply] at hc'
    split_ifs at hc' with heq
    · rw [hpc] at hc'
      cases hc'
    · exact hdead c' hc'
  cases h.stepped hs with
  | queue c₁ pc es hold hpc hes =>
    refine ⟨⟨⟨holder, hentry⟩, hcalls rfl (Pc.outside_dead hpc)⟩, fun e hin => ?_⟩
    rcases hes e hin with ⟨b', rfl⟩ | ⟨err, rfl⟩
    · exact fun _ _ => rfl
    · trivial
  | allocate c₁ m commitId next hold hnext => exact ⟨⟨⟨holder, hentry⟩, hcalls rfl rfl⟩, nofun⟩
  | insert w' c₁ m b₁ commitId hold hentries hupd hnext =>
    have hne : b₁ ≠ b := by
      rintro rfl
      rw [(h.inserting c₁ m b₁ commitId hold).2.1] at hentry
      cases hentry
    refine ⟨⟨⟨holder, by rw [hentries, Function.update_of_ne hne.symm, hentry]⟩, hcalls hupd rfl⟩, fun e hin => ?_⟩
    rw [List.mem_singleton.mp hin]
    exact hne
  | lock c₁ m b₁ req st hold hst =>
    have hne : b₁ ≠ b := by
      rintro rfl
      rw [hst] at hentry
      cases (Slot.mk.inj (Option.some.inj hentry)).1
    refine ⟨⟨⟨holder, ?_⟩, hcalls rfl rfl⟩, nofun⟩
    rw [← hentry]
    exact Function.update_of_ne hne.symm ..
  | work w' c₁ b₁ st es hold hst hw =>
    have hne : b₁ ≠ b := by
      rintro rfl
      rw [hst] at hentry
      cases (Slot.mk.inj (Option.some.inj hentry)).1
    refine ⟨⟨⟨holder, by rw [hw.entries_of_ne hne.symm, hentry]⟩, fun c' hc' => ?_⟩, hw.over hne⟩
    rcases hw.dead hc' with hd | ⟨-, hb⟩
    · exact hdead c' hd
    · exact absurd hb.symm hne
  | remove w' c₁ b₁ reply hold hentries hupd hnext =>
    by_cases hb : b₁ = b
    · subst hb
      obtain rfl := hdead c₁ hold
      refine ⟨⟨⟨none, by rw [hentries, Function.update_self]⟩, hcalls hupd rfl⟩, fun e hin => ?_⟩
      rw [List.mem_singleton.mp hin]
      exact fun _ hne => absurd rfl hne
    · refine ⟨⟨⟨holder, by rw [hentries, Function.update_of_ne (Ne.symm hb), hentry]⟩, hcalls hupd rfl⟩,
        fun e hin => ?_⟩
      rw [List.mem_singleton.mp hin]
      exact fun he => absurd he hb

/-- A step that shows the end of a handle ends it. -/
theorem World.Wf.ends (h : w.Wf) (hs : w.step H R l = some (w', es)) {e : Emission} (hin : e ∈ es) (he : Ends c b e) :
    w'.Ended c b := by
  cases h.stepped hs with
  | queue c₁ pc es hold hpc hes =>
    rcases hes e hin with ⟨b', rfl⟩ | ⟨err, rfl⟩
    · cases he with
      | returned _ hfinal => exact absurd hfinal not_final_handleInvalid
    · cases he
  | allocate c₁ m commitId next hold hnext => cases hin
  | insert w' c₁ m b₁ commitId hold hentries hupd hnext =>
    rw [List.mem_singleton.mp hin] at he
    cases he
  | lock c₁ m b₁ req st hold hst => cases hin
  | work w' c₁ b₁ st es hold hst hw =>
    have halone := (h.alone hst).2
    cases hw with
    | stays _ _ _ _ _ _ _ _ _ hes => exact absurd he (hes e hin).not_ends
    | releases _ es reply _ _ _ _ _ hes hreply =>
      rcases List.mem_append.mp hin with hin | hin
      · exact absurd he (hes e hin).not_ends
      · rw [List.mem_singleton.mp hin] at he
        cases he with
        | returned _ hfinal => exact absurd hfinal hreply
    | consumes holder pc _ hentries hcalls _ _ hpc hes =>
      obtain ⟨rfl, rfl⟩ := he.unique (hes e hin)
      refine ⟨⟨holder, by rw [hentries, Function.update_self]⟩, fun c' hc' => ?_⟩
      by_contra hne
      rw [hcalls, Function.update_of_ne hne] at hc'
      exact halone c' hc'
  | remove w' c₁ b₁ reply hold hentries hupd hnext =>
    rw [List.mem_singleton.mp hin] at he
    cases he with
    | returned _ _ =>
      refine ⟨⟨none, by rw [hentries, Function.update_self]⟩, fun c' hc' => ?_⟩
      rw [hupd, Function.update_apply] at hc'
      split_ifs at hc' with heq
      · cases hc'
      · exact h.only _ c' _ hold hc'

/-- **A sealed branch is only read**, and keeps its overlay. -/
theorem World.Frozen.step {o : CellOverlay} (hf : w.Frozen b o) (h : w.Wf) (hs : w.step H R l = some (w', es)) :
    w'.Frozen b o ∧ ∀ e ∈ es, OnlyRead b e := by
  obtain ⟨slot, hslot, hstate⟩ := hf
  cases h.stepped hs with
  | queue c₁ pc es hold hpc hes =>
    refine ⟨⟨slot, hslot, hstate⟩, fun e hin c act he => ?_⟩
    rcases hes e hin with ⟨b', rfl⟩ | ⟨err, rfl⟩ <;> cases he
  | allocate c₁ m commitId next hold hnext => exact ⟨⟨slot, hslot, hstate⟩, nofun⟩
  | insert w' c₁ m b₁ commitId hold hentries hupd hnext =>
    have hne : b ≠ b₁ := by
      rintro rfl
      rw [(h.inserting c₁ m b commitId hold).2.1] at hslot
      cases hslot
    refine ⟨⟨slot, by rw [hentries, Function.update_of_ne hne, hslot], hstate⟩, fun e hin c act he => ?_⟩
    rw [List.mem_singleton.mp hin] at he
    cases he
  | lock c₁ m b₁ req st hold hst =>
    refine ⟨?_, nofun⟩
    by_cases hb : b = b₁
    · subst hb
      obtain rfl := Option.some.inj (hslot.symm.trans hst)
      exact ⟨⟨some st, some c₁⟩, Function.update_self .., hstate⟩
    · exact ⟨slot, (Function.update_of_ne hb ..).trans hslot, hstate⟩
  | work w' c₁ b₁ st es hold hst hw =>
    by_cases hb : b = b₁
    · subst hb
      obtain rfl := Option.some.inj (hslot.symm.trans hst)
      obtain ⟨ho, hsome⟩ := hstate st rfl
      have hshows : ∀ {st' : BranchState} {e : Emission}, Shows c₁ b st st' e → OnlyRead b e := by
        rintro st' e he c act rfl
        cases he with
        | acted _ hopen =>
          by_contra hne
          rw [hopen hne] at hsome
          cases hsome
      have hkeep : ∀ {st' : BranchState}, Kept st st' → ∀ st'', some st' = some st'' →
          st''.overlay = o ∧ st''.sealed.isSome = true := by
        intro st' hkept st'' he
        obtain rfl := Option.some.inj he
        obtain ⟨ho', hsome'⟩ := hkept hsome
        exact ⟨ho'.trans ho, hsome'⟩
      cases hw with
      | stays st' _ _ hentries _ _ _ _ hkept hes =>
        exact ⟨⟨_, by rw [hentries, Function.update_self], hkeep hkept⟩, fun e hin => hshows (hes e hin)⟩
      | releases st' es reply hentries _ _ _ hkept hes _ =>
        refine ⟨⟨_, by rw [hentries, Function.update_self], hkeep hkept⟩, fun e hin => ?_⟩
        rcases List.mem_append.mp hin with hin | hin
        · exact hshows (hes e hin)
        · rintro c act rfl
          cases List.mem_singleton.mp hin
      | consumes holder _ _ hentries _ _ _ _ hes =>
        refine ⟨⟨_, by rw [hentries, Function.update_self], fun _ he => by cases he⟩, ?_⟩
        rintro e hin c act rfl
        cases hes _ hin
    · refine ⟨⟨slot, by rw [hw.entries_of_ne hb, hslot], hstate⟩, ?_⟩
      rintro e hin c act rfl
      exact absurd rfl (hw.over (c := c₁) (Ne.symm hb) _ hin)
  | remove w' c₁ b₁ reply hold hentries hupd hnext =>
    refine ⟨?_, fun e hin c act he => ?_⟩
    · by_cases hb : b = b₁
      · subst hb
        exact ⟨_, by rw [hentries, Function.update_self], fun _ he => by cases he⟩
      · exact ⟨slot, by rw [hentries, Function.update_of_ne hb, hslot], hstate⟩
    · rw [List.mem_singleton.mp hin] at he
      cases he

/-- A step that shows a sealed branch leaves it sealed. -/
theorem World.Wf.seals (h : w.Wf) (hs : w.step H R l = some (w', es)) (hin : .sealed c b ∈ es) :
    ∃ o, w'.Frozen b o := by
  cases h.stepped hs with
  | queue c₁ pc es hold hpc hes => rcases hes _ hin with ⟨b', he⟩ | ⟨err, he⟩ <;> cases he
  | allocate c₁ m commitId next hold hnext => cases hin
  | insert w' c₁ m b₁ commitId hold hentries hupd hnext => cases List.mem_singleton.mp hin
  | lock c₁ m b₁ req st hold hst => cases hin
  | work w' c₁ b₁ st es hold hst hw =>
    have hat : ∀ {st' : BranchState} {holder : Option CallId}, Shows c₁ b₁ st st' (.sealed c b) →
        w'.entries = Function.update w.entries b₁ (some ⟨some st', holder⟩) → ∃ o, w'.Frozen b o := by
      intro st' holder hshow hentries
      cases hshow with
      | sealed hsome =>
        refine ⟨st'.overlay, _, by rw [hentries, Function.update_self], ?_⟩
        rintro _ ⟨⟩
        exact ⟨rfl, hsome⟩
    cases hw with
    | stays st' _ _ hentries _ _ _ _ _ hes => exact hat (hes _ hin) hentries
    | releases st' es reply hentries _ _ _ _ hes _ =>
      rcases List.mem_append.mp hin with hin | hin
      · exact hat (hes _ hin) hentries
      · cases List.mem_singleton.mp hin
    | consumes _ _ _ _ _ _ _ _ hes => cases hes _ hin
  | remove w' c₁ b₁ reply hold hentries hupd hnext => cases List.mem_singleton.mp hin

/-! ### Runs -/

lemma World.run_cons {w₁ : World σ} {es₁ : List Emission} (hs : w.step H R l = some (w₁, es₁))
    (hr : w₁.run H R labels = some (w', es)) : w.run H R (l :: labels) = some (w', es₁ ++ es) := by
  rw [World.run, hs]
  simp only [hr]
  rfl

/-- What every step keeps, a run keeps. -/
lemma World.run_keeps {I : World σ → Prop} {Q : Emission → Prop}
    (step : ∀ {w w' : World σ} {l : Label} {es : List Emission}, I w → w.Wf → w.step H R l = some (w', es) → I w' ∧
      ∀ e ∈ es, Q e) :
    ∀ {labels : List Label} {w w' : World σ} {es : List Emission}, I w → w.Wf → w.run H R labels = some (w', es) →
      I w' ∧ w'.Wf ∧ ∀ e ∈ es, Q e := by
  intro labels
  induction labels with
  | nil =>
    intro w w' es hI h hr
    obtain ⟨rfl, rfl⟩ := Prod.mk.inj (Option.some.inj hr)
    exact ⟨hI, h, nofun⟩
  | cons l labels ih =>
    intro w w' es hI h hr
    rw [World.run] at hr
    cases hs : w.step H R l with
    | none =>
      rw [hs] at hr
      cases hr
    | some p =>
      obtain ⟨w₁, es₁⟩ := p
      rw [hs] at hr
      obtain ⟨⟨w₂, es₂⟩, hrun, hp⟩ := Option.map_eq_some_iff.mp hr
      obtain ⟨rfl, rfl⟩ := Prod.mk.inj hp
      obtain ⟨hI₁, hes₁⟩ := step hI h hs
      obtain ⟨hI₂, hwf, hes₂⟩ := ih hI₁ (h.step hs) hrun
      refine ⟨hI₂, hwf, fun e he => ?_⟩
      rcases List.mem_append.mp he with he | he
      · exact hes₁ e he
      · exact hes₂ e he

/-- What one step brings about and every step keeps holds at the end of the run. -/
lemma World.run_brings {I : World σ → Prop} {P : Emission → Prop}
    (brings : ∀ {w w' : World σ} {l : Label} {es : List Emission}, w.Wf → w.step H R l = some (w', es) →
      (∃ e ∈ es, P e) → I w')
    (keeps : ∀ {w w' : World σ} {l : Label} {es : List Emission}, I w → w.Wf → w.step H R l = some (w', es) → I w') :
    ∀ {labels : List Label} {w w' : World σ} {es : List Emission}, w.Wf → w.run H R labels = some (w', es) →
      (∃ e ∈ es, P e) → I w' := by
  intro labels
  induction labels with
  | nil =>
    rintro w w' es h hr ⟨e, he, -⟩
    obtain ⟨rfl, rfl⟩ := Prod.mk.inj (Option.some.inj hr)
    cases he
  | cons l labels ih =>
    rintro w w' es h hr ⟨e, he, hP⟩
    rw [World.run] at hr
    cases hs : w.step H R l with
    | none =>
      rw [hs] at hr
      cases hr
    | some p =>
      obtain ⟨w₁, es₁⟩ := p
      rw [hs] at hr
      obtain ⟨⟨w₂, es₂⟩, hrun, hp⟩ := Option.map_eq_some_iff.mp hr
      obtain ⟨rfl, rfl⟩ := Prod.mk.inj hp
      rcases List.mem_append.mp he with he | he
      · have hI := brings h hs ⟨e, he, hP⟩
        exact (run_keeps (fun hI h hs => ⟨keeps hI h hs, fun _ _ => trivial⟩) hI (h.step hs) hrun).1
      · exact ih (h.step hs) hrun ⟨e, he, hP⟩

/-! ### Numbers -/

lemma begun_append (es es' : List Emission) : begun (es ++ es') = begun es ++ begun es' := List.filterMap_append

lemma mem_begun {b : BranchId} : b ∈ begun es ↔ ∃ c, .began c b ∈ es := by
  unfold begun
  rw [List.mem_filterMap]
  constructor
  · rintro ⟨e, he, hb⟩
    cases e with
    | began c b' =>
      obtain rfl := Option.some.inj hb
      exact ⟨c, he⟩
    | _ => cases hb
  · exact fun ⟨c, he⟩ => ⟨_, he, rfl⟩

lemma begun_eq_nil (h : ∀ c b, .began c b ∉ es) : begun es = [] :=
  List.eq_nil_iff_forall_not_mem.mpr fun b hb => by
    obtain ⟨c, hc⟩ := mem_begun.mp hb
    exact h c b hc

/-- A step makes at most one branch, of a number whose entry was not there, and removes no entry. -/
lemma World.Wf.begins (h : w.Wf) (hs : w.step H R l = some (w', es)) :
    (begun es).Nodup ∧ (∀ b ∈ begun es, w.entries b = none ∧ w'.entries b ≠ none) ∧
      ∀ b, w.entries b ≠ none → w'.entries b ≠ none := by
  have hquiet : (∀ c b, .began c b ∉ es) → (begun es).Nodup ∧
      ∀ b ∈ begun es, w.entries b = none ∧ w'.entries b ≠ none := by
    intro hno
    rw [begun_eq_nil hno]
    exact ⟨List.nodup_nil, nofun⟩
  have hupd : ∀ {entries : BranchId → Option Slot} {b₁ : BranchId} {slot : Slot},
      entries = Function.update w.entries b₁ (some slot) → ∀ b, w.entries b ≠ none → entries b ≠ none := by
    rintro entries b₁ slot rfl b hb
    rw [Function.update_apply]
    split_ifs
    · nofun
    · exact hb
  cases h.stepped hs with
  | queue c₁ pc es hold hpc hes =>
    obtain ⟨h₁, h₂⟩ := hquiet fun c b hin => by rcases hes _ hin with ⟨b', he⟩ | ⟨err, he⟩ <;> cases he
    exact ⟨h₁, h₂, fun b hb => hb⟩
  | allocate c₁ m commitId next hold hnext => exact ⟨List.nodup_nil, nofun, fun b hb => hb⟩
  | insert w' c₁ m b₁ commitId hold hentries hcalls hnext =>
    refine ⟨List.nodup_singleton b₁, fun b hb => ?_, hupd hentries⟩
    obtain rfl : b = b₁ := List.mem_singleton.mp hb
    refine ⟨(h.inserting c₁ m b commitId hold).2.1, ?_⟩
    rw [hentries, Function.update_self]
    nofun
  | lock c₁ m b₁ req st hold hst => exact ⟨List.nodup_nil, nofun, hupd rfl⟩
  | work w' c₁ b₁ st es hold hst hw =>
    cases hw with
    | stays st' _ _ hentries _ _ _ _ _ hes =>
      obtain ⟨h₁, h₂⟩ := hquiet fun c b hin => by cases hes _ hin
      exact ⟨h₁, h₂, hupd hentries⟩
    | releases st' es reply hentries _ _ _ _ hes _ =>
      obtain ⟨h₁, h₂⟩ := hquiet fun c b hin => by
        rcases List.mem_append.mp hin with hin | hin
        · cases hes _ hin
        · cases List.mem_singleton.mp hin
      exact ⟨h₁, h₂, hupd hentries⟩
    | consumes holder _ _ hentries _ _ _ _ hes =>
      obtain ⟨h₁, h₂⟩ := hquiet fun c b hin => by cases hes _ hin
      exact ⟨h₁, h₂, hupd hentries⟩
  | remove w' c₁ b₁ reply hold hentries hcalls hnext =>
    obtain ⟨h₁, h₂⟩ := hquiet fun c b hin => by cases List.mem_singleton.mp hin
    exact ⟨h₁, h₂, hupd hentries⟩

/-- **No number is handed out twice.** -/
theorem begun_nodup : ∀ {labels : List Label} {w w' : World σ} {es}, w.Wf → w.run H R labels = some (w', es) →
    (begun es).Nodup ∧ ∀ b ∈ begun es, w.entries b = none := by
  intro labels
  induction labels with
  | nil =>
    intro w w' es h hr
    obtain ⟨rfl, rfl⟩ := Prod.mk.inj (Option.some.inj hr)
    exact ⟨List.nodup_nil, nofun⟩
  | cons l labels ih =>
    intro w w' es h hr
    rw [World.run] at hr
    cases hs : w.step H R l with
    | none =>
      rw [hs] at hr
      cases hr
    | some p =>
      obtain ⟨w₁, es₁⟩ := p
      rw [hs] at hr
      obtain ⟨⟨w₂, es₂⟩, hrun, hp⟩ := Option.map_eq_some_iff.mp hr
      obtain ⟨rfl, rfl⟩ := Prod.mk.inj hp
      obtain ⟨hnd, hnew, hkept⟩ := h.begins hs
      obtain ⟨hnd', hnew'⟩ := ih (h.step hs) hrun
      rw [begun_append]
      refine ⟨hnd.append hnd' fun b hb hb' => (hnew b hb).2 (hnew' b hb'), fun b hb => ?_⟩
      rcases List.mem_append.mp hb with hb | hb
      · exact (hnew b hb).1
      · by_contra hne
        exact hkept b hne (hnew' b hb)

/-! ### Queued calls -/

/-- A call on a handle that is over changes nothing but itself. -/
lemma World.Ended.idle (he : w.Ended c b) (hq : (w.calls c').queued = some b)
    (hs : w.advance H R c' = some (w', es)) : ∃ pc, w' = w.goto c' pc := by
  obtain ⟨⟨holder, hentry⟩, -⟩ := he
  cases hpc : w.calls c' with
  | looking m b' req =>
    simp only [World.advance, hpc] at hs
    split_ifs at hs
    · exact ⟨_, (Prod.mk.inj (Option.some.inj hs)).1.symm⟩
    · exact ⟨_, (Prod.mk.inj (Option.some.inj hs)).1.symm⟩
  | waiting m b' req =>
    rw [hpc] at hq
    obtain rfl := Option.some.inj hq
    simp only [World.advance, hpc, hentry] at hs
    cases holder with
    | none => exact ⟨_, (Prod.mk.inj (Option.some.inj hs)).1.symm⟩
    | some c₁ => cases hs
  | _ => rw [hpc] at hq; cases hq

/-- The steps of two calls. -/
def OfCalls (c c' : CallId) (l : Label) : Prop := l = .advance c ∨ l = .advance c'

/-- A call that waits at a handle that is over is refused, once the call that ended it is through. -/
lemma World.Ended.waiting_refused (he : w.Ended c b) (h : w.Wf) {m : ManagerId} {req : Request}
    (hc : w.calls c' = .waiting m b req) :
    ∃ labels w' es, (∀ l ∈ labels, OfCalls c c' l) ∧ w.run H R labels = some (w', es) ∧
      .returned c' b .handleInvalid ∈ es := by
  obtain ⟨⟨holder, hentry⟩, hdead⟩ := he
  have hfree : ∀ {w : World σ}, w.entries b = some ⟨none, none⟩ → w.calls c' = .waiting m b req →
      w.step H R (.advance c') = some (w.finish c' b .handleInvalid) := by
    intro w hentry hc
    simp only [World.step, World.advance, hc, hentry]
  cases holder with
  | none =>
    exact ⟨[.advance c'], _, _, fun l hl => .inr (List.mem_singleton.mp hl), World.run_cons (hfree hentry hc) rfl,
      List.mem_singleton_self _⟩
  | some c₁ =>
    -- the call that ended it still holds the lock
    obtain ⟨m', reply, hc₁⟩ := h.emptied c₁ b hentry
    obtain rfl : c₁ = c := hdead c₁ (by rw [hc₁]; rfl)
    have hne : c' ≠ c₁ := by
      rintro rfl
      rw [hc] at hc₁
      cases hc₁
    have hs : ∃ w₁ es₁, w.step H R (.advance c₁) = some (w₁, es₁) ∧ w₁.entries b = some ⟨none, none⟩ ∧
        w₁.calls c' = .waiting m b req := by
      simp only [World.step, World.advance, hc₁]
      refine ⟨_, _, rfl, Function.update_self .., ?_⟩
      rw [← hc]
      exact Function.update_of_ne hne ..
    obtain ⟨w₁, es₁, hs, hentry', hc'⟩ := hs
    refine ⟨[.advance c₁, .advance c'], _, _, fun l hl => ?_,
      World.run_cons hs (World.run_cons (hfree hentry' hc') rfl),
      List.mem_append_right _ (List.mem_singleton_self _)⟩
    rcases List.mem_pair.mp hl with rfl | rfl
    · exact .inl rfl
    · exact .inr rfl

/-- **A call queued on a handle that is over is refused**, once the call that ended it is through. -/
theorem World.Ended.refused (he : w.Ended c b) (h : w.Wf) (hq : (w.calls c').queued = some b) :
    ∃ labels w' es, (∀ l ∈ labels, OfCalls c c' l) ∧ w.run H R labels = some (w', es) ∧
      .returned c' b .handleInvalid ∈ es := by
  cases hpc : w.calls c' with
  | looking m b' req =>
    rw [hpc] at hq
    obtain rfl := Option.some.inj hq
    by_cases hreg : w.registry m b' = true
    · have hs : w.step H R (.advance c') = some (w.goto c' (.waiting m b' req), []) := by
        simp only [World.step, World.advance, hpc, hreg, if_true]
      obtain ⟨he', -⟩ := he.step h hs
      obtain ⟨labels, w', es, hl, hrun, hin⟩ := he'.waiting_refused (h.step hs) (Function.update_self ..)
      exact ⟨.advance c' :: labels, w', _, List.forall_mem_cons.mpr ⟨.inr rfl, hl⟩, World.run_cons hs hrun, hin⟩
    · have hs : w.step H R (.advance c') = some (w.finish c' b' .handleInvalid) := by
        simp only [World.step, World.advance, hpc, hreg]
        rfl
      exact ⟨[.advance c'], _, _, fun l hl => .inr (List.mem_singleton.mp hl), World.run_cons hs rfl,
        List.mem_singleton_self _⟩
  | waiting m b' req =>
    rw [hpc] at hq
    obtain rfl := Option.some.inj hq
    exact he.waiting_refused h hpc
  | _ => rw [hpc] at hq; cases hq

/-- **The life of a branch handle**, in every run of any calls on any branches of any managers over
one store. Once `c` has ended a handle, nothing is done on it, every other call on it is refused,
also one already queued, and changes nothing but itself; a sealed branch is only read; and no two
begin calls return one number. -/
theorem handle_lifecycle (H : HashProvider) (R : Roaring) {σ : Type} [Store σ] (store : σ) (next : BranchId)
    {labels₁ labels₂ : List Label} {w₁ w₂ : World σ} {es₁ es₂ : List Emission}
    (h₁ : (World.start store next).run H R labels₁ = some (w₁, es₁)) (h₂ : w₁.run H R labels₂ = some (w₂, es₂)) :
    (∀ c b, (∃ e ∈ es₁, Ends c b e) →
      (∀ e ∈ es₂, Over c b e) ∧
      ∀ c', (w₂.calls c').queued = some b →
        (∀ w₃ es₃, w₂.advance H R c' = some (w₃, es₃) → ∃ pc, w₃ = w₂.goto c' pc) ∧
        ∃ labels w₃ es₃, (∀ l ∈ labels, OfCalls c c' l) ∧ w₂.run H R labels = some (w₃, es₃) ∧
          .returned c' b .handleInvalid ∈ es₃) ∧
    (∀ c b, .sealed c b ∈ es₁ → (∀ e ∈ es₂, OnlyRead b e) ∧ ∃ overlay, w₁.Frozen b overlay ∧ w₂.Frozen b overlay) ∧
    (begun es₁).Nodup := by
  have hstart := World.wf_start store next
  have hwf : w₁.Wf := (World.run_keeps (I := fun _ => True) (Q := fun _ => True)
    (fun _ _ _ => ⟨trivial, fun _ _ => trivial⟩) trivial hstart h₁).2.1
  refine ⟨fun c b hends => ?_, fun c b hseal => ?_, (begun_nodup hstart h₁).1⟩
  · have hended : w₁.Ended c b := World.run_brings (I := fun w => w.Ended c b) (P := Ends c b)
      (fun h hs ⟨e, hin, he⟩ => h.ends hs hin he) (fun he h hs => (he.step h hs).1) hstart h₁ hends
    obtain ⟨hended₂, hwf₂, hover⟩ := World.run_keeps (I := fun w => w.Ended c b) (Q := Over c b)
      (fun he h hs => he.step h hs) hended hwf h₂
    exact ⟨hover, fun c' hq => ⟨fun w₃ es₃ hs => hended₂.idle hq hs, hended₂.refused hwf₂ hq⟩⟩
  · obtain ⟨o, hfrozen⟩ : ∃ o, w₁.Frozen b o := World.run_brings (I := fun w => ∃ o, w.Frozen b o)
      (P := fun e => e = .sealed c b) (fun h hs ⟨e, hin, he⟩ => h.seals hs (he ▸ hin))
      (fun ⟨o, hf⟩ h hs => ⟨o, (hf.step h hs).1⟩) hstart h₁ ⟨_, hseal, rfl⟩
    obtain ⟨hfrozen₂, -, honly⟩ := World.run_keeps (I := fun w => w.Frozen b o) (Q := OnlyRead b)
      (fun hf h hs => hf.step h hs) hfrozen hwf h₂
    exact ⟨honly, o, hfrozen, hfrozen₂⟩

end Life

/-- A store with the head of an empty state. -/
def handleStore : MemoryStore :=
  ⟨OrdMap.empty.insert SUPERBLOCK (OrdMap.empty.insert HEAD_KEY
    (Head.encode ⟨0, Trie.polyHash.hash [], Trie.polyHash.hash []⟩))⟩

/-- Call 0 begins branch 0, call 1 commits it, and call 2 is queued on it meanwhile. -/
def handleLabels : List Label :=
  [.begin 0 0, .advance 0, .advance 0, .advance 0, .call 1 0 0 .commit, .call 2 0 0 (.ordinary .branchInfo), .advance 1,
    .advance 2, .advance 1, .advance 1, .advance 1, .advance 1, .advance 1, .advance 1, .advance 1, .advance 1]

theorem handle_lifecycle_demo : ∃ w₁ es₁ w₂ es₂,
    (World.start handleStore 0).run Trie.polyHash arrayRoaring handleLabels = some (w₁, es₁) ∧
    w₁.run Trie.polyHash arrayRoaring [.advance 1, .advance 2] = some (w₂, es₂) ∧
    es₁ = [.began 0 0, .observed 1 0 0 0, .sealed 1 0, .observed 1 0 0 0, .published 1 0 0 1] ∧
    es₂ = [.returned 1 0 (.committed 1), .returned 2 0 .handleInvalid] ∧
    (∀ e ∈ es₂, Over 1 0 e) ∧ (∀ e ∈ es₂, OnlyRead 0 e) ∧ (begun es₁).Nodup := by
  have hes₁ : ((World.start handleStore 0).run Trie.polyHash arrayRoaring handleLabels).map Prod.snd
      = some [.began 0 0, .observed 1 0 0 0, .sealed 1 0, .observed 1 0 0 0, .published 1 0 0 1] := by decide +kernel
  have hes₂ : (((World.start handleStore 0).run Trie.polyHash arrayRoaring handleLabels).bind fun p =>
      p.1.run Trie.polyHash arrayRoaring [.advance 1, .advance 2]).map Prod.snd
      = some [.returned 1 0 (.committed 1), .returned 2 0 .handleInvalid] := by decide +kernel
  obtain ⟨⟨w₁, es₁⟩, h₁, hshown₁⟩ := Option.map_eq_some_iff.mp hes₁
  rw [h₁, Option.bind_some] at hes₂
  obtain ⟨⟨w₂, es₂⟩, h₂, hshown₂⟩ := Option.map_eq_some_iff.mp hes₂
  obtain ⟨hends, hseals, hnodup⟩ := handle_lifecycle Trie.polyHash arrayRoaring handleStore 0 h₁ h₂
  simp only at hshown₁ hshown₂
  have hpub : .published 1 0 0 1 ∈ es₁ := by rw [hshown₁]; decide
  have hseal : .sealed 1 0 ∈ es₁ := by rw [hshown₁]; decide
  exact ⟨w₁, es₁, w₂, es₂, h₁, h₂, hshown₁, hshown₂, (hends 1 0 ⟨_, hpub, .published 0 1⟩).1,
    (hseals 1 0 hseal).1, hnodup⟩

end GolemDb.Branch
