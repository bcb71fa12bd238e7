import GolemDb.Lib.Prog

/-!
Properties of programs that every construct keeps. What holds of the reads and the writes a program
is made of then holds of the program, whatever it does with their results. Two such properties:
to keep a frame, and to respect a relation between states, that is to give related states the same
result and related states again.
-/

namespace GolemDb.Lib.Prog

variable {ε ε' σ α β : Type}

/-- **A property of programs that every construct keeps.** -/
structure Closed (σ : Type) where
  Holds : ∀ {ε α : Type}, Prog ε σ α → Prop
  pure : ∀ {ε α : Type} (a : α), Holds (Pure.pure a : Prog ε σ α)
  throw : ∀ {ε α : Type} (e : ε), Holds (MonadExcept.throw e : Prog ε σ α)
  /-- The rest of a program is met with what its first part returns. -/
  bind_post : ∀ {ε α β : Type} {Q : α → Prop} {c : Prog ε σ α} {f : α → Prog ε σ β}, Holds c →
    Post (fun _ => True) Q c → (∀ a, Q a → Holds (f a)) → Holds (c >>= f)
  mapError : ∀ {ε ε' α : Type} {f : ε → ε'} {c : Prog ε σ α}, Holds c → Holds (Prog.mapError f c)
  outcome : ∀ {ε ε' α : Type} {c : Prog ε σ α}, Holds c → Holds (Prog.outcome c : Prog ε' σ (Except ε α))

namespace Closed

variable {C : Closed σ} {c : Prog ε σ α} {f : α → Prog ε σ β}

lemma Holds.bind (h : C.Holds c) (hf : ∀ a, C.Holds (f a)) : C.Holds (c >>= f) :=
  C.bind_post h (Post.any c) fun a _ => hf a

lemma ofExcept (e : Except ε α) : C.Holds (Prog.ofExcept e : Prog ε σ α) := by
  cases e with
  | ok a => exact C.pure a
  | error e => exact C.throw e

/-- The rest of a program after a computation that succeeded. -/
lemma ofExcept_bind {e : Except ε α} (h : ∀ a, e = .ok a → C.Holds (f a)) :
    C.Holds (Prog.ofExcept e >>= f : Prog ε σ β) :=
  C.bind_post (ofExcept e) (Post.ofExcept (Meets.self e)) h

lemma foldlM_mem {f : β → α → Prog ε σ β} :
    ∀ (l : List α) (b : β), (∀ a ∈ l, ∀ b, C.Holds (f b a)) → C.Holds (l.foldlM f b) := by
  intro l
  induction l with
  | nil => exact fun b _ => C.pure b
  | cons a l ih =>
    intro b h
    rw [List.foldlM_cons]
    exact (h a (List.mem_cons_self ..) b).bind fun b' => ih b' fun x hx => h x (List.mem_cons_of_mem _ hx)

lemma foldlM {f : β → α → Prog ε σ β} (h : ∀ b a, C.Holds (f b a)) (l : List α) (b : β) : C.Holds (l.foldlM f b) :=
  foldlM_mem l b fun a _ b => h b a

end Closed

/-! ### Frames -/

/-- To keep a frame. -/
def Closed.keeps (F : Frame σ) : Closed σ where
  Holds c := Keeps F c
  pure := Keeps.pure
  throw := Keeps.throw
  bind_post := Keeps.bind_post
  mapError := Keeps.mapError
  outcome := Keeps.outcome

/-! ### Relations -/

/-- **The program respects the relation**: from related states it gives the same result and ends in
related states. -/
def Respects (S : σ → σ → Prop) (c : Prog ε σ α) : Prop :=
  ∀ s s', S s s' → (c.exec s).1 = (c.exec s').1 ∧ S (c.exec s).2 (c.exec s').2

namespace Respects

variable {S : σ → σ → Prop} {c : Prog ε σ α} {s s' : σ}

/-- A read respects the relation if it cannot tell related states apart. -/
lemma read {f : σ → Except ε α} (h : ∀ s s', S s s' → f s = f s') : Respects S (Prog.read f) :=
  fun s s' hs => ⟨h s s' hs, hs⟩

lemma bind_post {Q : α → Prop} {f : α → Prog ε σ β} (h : Respects S c) (hQ : Post (fun _ => True) Q c)
    (hf : ∀ a, Q a → Respects S (f a)) : Respects S (c >>= f) := by
  intro s s' hs
  obtain ⟨hres, hend⟩ := h s s' hs
  have hpost := hQ s
  rw [exec_bind, exec_bind]
  cases hc : c.exec s with
  | mk r t =>
    cases hc' : c.exec s' with
    | mk r' t' =>
      rw [hc, hc'] at hres hend
      rw [hc] at hpost
      obtain rfl : r = r' := hres
      cases r with
      | error e => exact ⟨rfl, hend⟩
      | ok a => exact hf a hpost t t' hend

lemma mapError {f : ε → ε'} (h : Respects S c) : Respects S (Prog.mapError f c) := by
  intro s s' hs
  obtain ⟨hres, hend⟩ := h s s' hs
  rw [exec_mapError, exec_mapError, hres]
  exact ⟨rfl, hend⟩

lemma outcome (h : Respects S c) : Respects S (Prog.outcome c : Prog ε' σ (Except ε α)) := by
  intro s s' hs
  obtain ⟨hres, hend⟩ := h s s' hs
  exact ⟨congrArg Except.ok hres, hend⟩

/-- Runs from related states agree. -/
lemma runs {a a' : α} {t t' : σ} (h : Respects S c) (hs : S s s') (hr : Runs c s a t) (hr' : Runs c s' a' t') :
    a = a' ∧ S t t' := by
  have hboth := h s s' hs
  rw [hr, hr'] at hboth
  exact ⟨Except.ok.inj hboth.1, hboth.2⟩

end Respects

/-- To respect a relation. -/
def Closed.respects (S : σ → σ → Prop) : Closed σ where
  Holds c := Respects S c
  pure _ := fun _ _ hs => ⟨rfl, hs⟩
  throw _ := fun _ _ hs => ⟨rfl, hs⟩
  bind_post := Respects.bind_post
  mapError := Respects.mapError
  outcome := Respects.outcome

end GolemDb.Lib.Prog
