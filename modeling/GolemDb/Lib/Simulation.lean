import Mathlib.Data.List.Forall2
import Mathlib.Data.List.Induction
import Mathlib.Data.List.ReduceOption

/-!
Machines and simulations between them. A machine takes labelled steps, each of which shows some
events; steps that lower a rank come to an end. A machine is simulated by a relation of abstract
steps when every step of it is matched by at most one abstract step, one that belongs to its label; a
run is then matched by the abstract steps of its own steps, in their order. The relation may look at
the labels taken, the abstract steps that matched them and the events shown so far.
-/

namespace GolemDb.Lib

variable {σ ℓ ε α π : Type}

/-! ### Runs -/

/-- Steps in order, with what they show. -/
def runMachine (step : σ → ℓ → Option (σ × List ε)) : List ℓ → σ → Option (σ × List ε)
  | [], s => some (s, [])
  | l :: ls, s =>
    match step s l with
    | none => none
    | some (s', es) => (runMachine step ls s').map fun p => (p.1, es ++ p.2)

/-- Abstract steps in order. -/
inductive Steps (Step : α → π → α → Prop) : α → List π → α → Prop
  | nil (a : α) : Steps Step a [] a
  | cons {a a₁ a' : α} {p : π} {ps : List π} (h : Step a p a₁) (hs : Steps Step a₁ ps a') : Steps Step a (p :: ps) a'

/-- One abstract step, or none. -/
def Stutters (Step : α → π → α → Prop) (a : α) (o : Option π) (a' : α) : Prop :=
  match o with
  | none => a' = a
  | some p => Step a p a'

variable {step : σ → ℓ → Option (σ × List ε)} {Step : α → π → α → Prop}

lemma Stutters.steps {a a₁ a' : α} {o : Option π} {ps : List π} (h : Stutters Step a o a₁) (hs : Steps Step a₁ ps a') :
    Steps Step a (o.toList ++ ps) a' := by
  cases o with
  | none =>
    obtain rfl : a₁ = a := h
    exact hs
  | some p => exact .cons h hs

/-- What abstract steps keep holds after any of them. -/
lemma Steps.keeps {I : α → Prop} (hI : ∀ {a p a'}, Step a p a' → I a → I a') {a a' : α} {ps : List π}
    (h : Steps Step a ps a') (ha : I a) : I a' := by
  induction h with
  | nil => exact ha
  | cons h _ ih => exact ih (hI h ha)

/-- A run ends with its last step. -/
lemma runMachine_concat :
    ∀ {ls : List ℓ} {l : ℓ} {s s' : σ} {es : List ε}, runMachine step (ls ++ [l]) s = some (s', es) ↔
    ∃ s₁ es₁ es₂, runMachine step ls s = some (s₁, es₁) ∧ step s₁ l = some (s', es₂) ∧ es = es₁ ++ es₂ := by
  intro ls
  induction ls with
  | nil =>
    intro l s s' es
    rw [List.nil_append, runMachine]
    cases hs : step s l with
    | none => simp [runMachine, hs]
    | some p => simp [runMachine, hs, Prod.ext_iff, eq_comm]
  | cons l' ls ih =>
    intro l s s' es
    rw [List.cons_append, runMachine, runMachine]
    cases step s l' with
    | none => simp
    | some p =>
      simp only [Option.map_eq_some_iff, Prod.mk.injEq, Prod.exists]
      constructor
      · rintro ⟨s₂, es₂, hrun, rfl, rfl⟩
        obtain ⟨s₁, es₁, es', hpart, hs, rfl⟩ := ih.mp hrun
        exact ⟨s₁, _, es', ⟨s₁, es₁, hpart, rfl, rfl⟩, hs, (List.append_assoc ..).symm⟩
      · rintro ⟨_, _, es', ⟨s₁, es₁, hpart, rfl, rfl⟩, hs, rfl⟩
        exact ⟨s', es₁ ++ es', ih.mpr ⟨s₁, es₁, es', hpart, hs, rfl⟩, rfl, (List.append_assoc ..).symm⟩

/-- **Induction along a run**, over what it has done so far. -/
theorem runMachine_induct {I : List ℓ → List ε → σ → Prop} {s : σ} (hstart : I [] [] s)
    (hstep : ∀ {ls es s₁ l s₂ es₂}, runMachine step ls s = some (s₁, es) → I ls es s₁ → step s₁ l = some (s₂, es₂) →
      I (ls ++ [l]) (es ++ es₂) s₂) :
        ∀ {ls : List ℓ} {s' : σ} {es : List ε}, runMachine step ls s = some (s', es) → I ls es s' := by
  intro ls
  induction ls using List.reverseRecOn with
  | nil =>
    intro s' es hrun
    obtain ⟨rfl, rfl⟩ := Prod.mk.inj (Option.some.inj hrun)
    exact hstart
  | append_singleton ls l ih =>
    intro s' es hrun
    obtain ⟨s₁, es₁, es₂, hpart, hs, rfl⟩ := runMachine_concat.mp hrun
    exact hstep hpart (ih hpart) hs

/-! ### Ranked runs -/

section Ranked

variable {I : σ → Prop} {P : ℓ → Prop} {rank : σ → ℕ}
  (hI : ∀ {s l s' es}, I s → P l → step s l = some (s', es) → I s' ∧ rank s' < rank s)

include hI

/-- **Steps that lower a rank** are no more than the rank. -/
theorem runMachine_length_le : ∀ {ls : List ℓ} {s s' : σ} {es : List ε}, I s → (∀ l ∈ ls, P l) →
    runMachine step ls s = some (s', es) → I s' ∧ ls.length + rank s' ≤ rank s := by
  intro ls
  induction ls with
  | nil =>
    intro s s' es hs _ hrun
    obtain ⟨rfl, -⟩ := Prod.mk.inj (Option.some.inj hrun)
    exact ⟨hs, by simp⟩
  | cons l ls ih =>
    intro s s' es hs hls hrun
    rw [runMachine] at hrun
    cases hstep : step s l with
    | none =>
      rw [hstep] at hrun
      cases hrun
    | some p =>
      rw [hstep] at hrun
      obtain ⟨q, hrest, hp⟩ := Option.map_eq_some_iff.mp hrun
      obtain ⟨rfl, -⟩ := Prod.mk.inj hp
      obtain ⟨h₁, hlt⟩ := hI hs (hls l (List.mem_cons_self ..)) (show step s l = some (p.1, p.2) from hstep)
      obtain ⟨h', hle⟩ := ih h₁ (fun x hx => hls x (List.mem_cons_of_mem _ hx)) (show _ = some (q.1, q.2) from hrest)
      refine ⟨h', ?_⟩
      rw [List.length_cons]
      omega

/-- **A machine that can always go on until it is done** gets there. -/
theorem runMachine_completes {Done : σ → Prop}
    (hgo : ∀ s, I s → ¬ Done s → ∃ l s' es, P l ∧ step s l = some (s', es)) :
    ∀ (n : ℕ) (s : σ), I s → rank s ≤ n → ∃ ls s' es, (∀ l ∈ ls, P l) ∧
      runMachine step ls s = some (s', es) ∧ Done s' := by
  have hdone : ∀ {s}, Done s → ∃ ls s' es, (∀ l ∈ ls, P l) ∧ runMachine step ls s = some (s', es) ∧ Done s' :=
    fun {s} hs => ⟨[], s, [], fun _ hl => absurd hl List.not_mem_nil, rfl, hs⟩
  intro n
  induction n with
  | zero =>
    intro s hs hn
    by_cases hd : Done s
    · exact hdone hd
    · obtain ⟨l, s', es, hl, hstep⟩ := hgo s hs hd
      have := (hI hs hl hstep).2
      omega
  | succ n ih =>
    intro s hs hn
    by_cases hd : Done s
    · exact hdone hd
    · obtain ⟨l, s₁, es₁, hl, hstep⟩ := hgo s hs hd
      obtain ⟨h₁, hlt⟩ := hI hs hl hstep
      obtain ⟨ls, s', es, hls, hrun, hd'⟩ := ih s₁ h₁ (by omega)
      refine ⟨l :: ls, s', es₁ ++ es, fun x hx => ?_, ?_, hd'⟩
      · rcases List.mem_cons.mp hx with rfl | hx
        · exact hl
        · exact hls x hx
      · rw [runMachine, hstep]
        simp only [hrun, Option.map_some]

end Ranked

/-! ### Simulations -/

/-- **A simulation**: every step of the machine is matched by at most one abstract step, of its own label. -/
structure Simulates (step : σ → ℓ → Option (σ × List ε)) (Step : α → π → α → Prop) (Of : ℓ → π → Prop)
    (Rel : List ℓ → List (Option π) → List ε → σ → α → Prop) : Prop where
  step : ∀ {ls os es s a l s' es'}, Rel ls os es s a → step s l = some (s', es') →
    ∃ o a', (∀ p, o = some p → Of l p) ∧ Stutters Step a o a' ∧ Rel (ls ++ [l]) (os ++ [o]) (es ++ es') s' a'

/-- The abstract steps of a run, each at the place of its own step. -/
structure Matches (Step : α → π → α → Prop) (Of : ℓ → π → Prop) (a : α) (ls : List ℓ)
    (points : List (Option π)) (a' : α) :
    Prop where
  own : List.Forall₂ (fun l o => ∀ p, o = some p → Of l p) ls points
  steps : Steps Step a points.reduceOption a'

/-- **A run of a simulated machine** is matched, step by step. -/
theorem Simulates.run {Of : ℓ → π → Prop} {Rel : List ℓ → List (Option π) → List ε → σ → α → Prop}
    (h : Simulates step Step Of Rel) :
    ∀ {ls ls₀ : List ℓ} {os₀ : List (Option π)} {es es₀ : List ε} {s s' : σ} {a : α}, Rel ls₀ os₀ es₀ s a →
      runMachine step ls s = some (s', es) →
      ∃ points a', Matches Step Of a ls points a' ∧ Rel (ls₀ ++ ls) (os₀ ++ points) (es₀ ++ es) s' a' := by
  intro ls
  induction ls with
  | nil =>
    intro ls₀ os₀ es es₀ s s' a hrel hrun
    obtain ⟨rfl, rfl⟩ := Prod.mk.inj (Option.some.inj hrun)
    refine ⟨[], a, ⟨.nil, .nil a⟩, ?_⟩
    rwa [List.append_nil, List.append_nil, List.append_nil]
  | cons l ls ih =>
    intro ls₀ os₀ es es₀ s s' a hrel hrun
    rw [runMachine] at hrun
    cases hs : step s l with
    | none =>
      rw [hs] at hrun
      cases hrun
    | some p =>
      rw [hs] at hrun
      obtain ⟨q, hrest, hp⟩ := Option.map_eq_some_iff.mp hrun
      obtain ⟨rfl, rfl⟩ := Prod.mk.inj hp
      obtain ⟨o, a₁, hown, hstutter, hrel₁⟩ := h.step hrel (show step s l = some (p.1, p.2) from hs)
      obtain ⟨points, a', hmatch, hrel'⟩ := ih hrel₁ (show runMachine step ls p.1 = some (q.1, q.2) from hrest)
      refine ⟨o :: points, a', ⟨.cons hown hmatch.own, ?_⟩, ?_⟩
      · have hsteps := hstutter.steps hmatch.steps
        cases o with
        | none => exact hsteps
        | some x => exact hsteps
      · rwa [List.append_assoc, List.append_assoc, List.append_assoc] at hrel'

end GolemDb.Lib
