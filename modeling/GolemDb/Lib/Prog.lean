import Mathlib.Tactic

/-!
Programs that read and write a state and may fail. A failure keeps the state it happened in, as
a mutable borrow does. `Runs c s a s'` says that the program `c` started in `s` succeeds with
`a` and leaves `s'`; the rules of this file take a run apart along the program.
-/

namespace GolemDb.Lib

/-! ### Results -/

section Results

variable {ε ε' α β : Type}

lemma bind_eq_ok {x : Except ε α} {f : α → Except ε β} {b : β} :
    (x >>= f) = .ok b ↔ ∃ a, x = .ok a ∧ f a = .ok b := by
  cases x <;> simp [Bind.bind, Except.bind]

@[simp] lemma ok_bind (a : α) (f : α → Except ε β) : (Except.ok a >>= f) = f a := rfl

lemma pure_eq_ok {a b : α} : (pure a : Except ε α) = .ok b ↔ a = b := by
  simp [Pure.pure, Except.pure]

@[simp] lemma mapError_eq_ok {x : Except ε α} {f : ε → ε'} {a : α} :
    x.mapError f = .ok a ↔ x = .ok a := by
  cases x <;> simp [Except.mapError]

@[simp] lemma mapError_ok (f : ε → ε') (a : α) : (Except.ok a).mapError f = .ok a := rfl

lemma map_eq_ok {x : Except ε α} {f : α → β} {b : β} : x.map f = .ok b ↔ ∃ a, x = .ok a ∧ f a = b := by
  cases x <;> simp [Except.map]

/-- A guard that was passed. -/
lemma guard_eq_ok {c : Prop} [Decidable c] {e : ε} {x : Except ε α} {a : α} :
    (if c then .error e else x) = .ok a ↔ ¬ c ∧ x = .ok a := by
  by_cases hc : c <;> simp [hc]

/-- Every entry of a list mapped with success is the result of one. -/
lemma mem_of_mapM {f : α → Except ε β} {l : List α} :
    ∀ {bs : List β}, l.mapM f = .ok bs → ∀ b ∈ bs, ∃ a ∈ l, f a = .ok b := by
  induction l with
  | nil =>
    intro bs h b hb
    rw [List.mapM_nil] at h
    obtain rfl := pure_eq_ok.mp h
    simp at hb
  | cons a l ih =>
    intro bs h b hb
    rw [List.mapM_cons] at h
    obtain ⟨b₁, hb₁, h⟩ := bind_eq_ok.mp h
    obtain ⟨bs₁, hbs, h⟩ := bind_eq_ok.mp h
    obtain rfl := pure_eq_ok.mp h
    rcases List.mem_cons.mp hb with rfl | hb
    · exact ⟨a, List.mem_cons_self .., hb₁⟩
    · obtain ⟨a', ha', hfa'⟩ := ih hbs b hb
      exact ⟨a', List.mem_cons_of_mem _ ha', hfa'⟩

/-- Every entry of a list mapped with success has its result there. -/
lemma result_of_mapM {f : α → Except ε β} {l : List α} :
    ∀ {bs : List β}, l.mapM f = .ok bs → ∀ a ∈ l, ∃ b ∈ bs, f a = .ok b := by
  induction l with
  | nil => exact fun _ a ha => absurd ha List.not_mem_nil
  | cons a l ih =>
    intro bs h a' ha'
    rw [List.mapM_cons] at h
    obtain ⟨b₁, hb₁, h⟩ := bind_eq_ok.mp h
    obtain ⟨bs₁, hbs, h⟩ := bind_eq_ok.mp h
    obtain rfl := pure_eq_ok.mp h
    rcases List.mem_cons.mp ha' with rfl | ha'
    · exact ⟨b₁, List.mem_cons_self .., hb₁⟩
    · obtain ⟨b, hb, hfb⟩ := ih hbs a' ha'
      exact ⟨b, List.mem_cons_of_mem _ hb, hfb⟩

end Results

/-! ### Programs -/

/-- A program over the state `σ` with errors `ε`; the state survives an error. -/
abbrev Prog (ε σ α : Type) := ExceptT ε (StateM σ) α

namespace Prog

variable {ε σ α β : Type}

/-- The outcome of a program from a state, and the state it leaves. -/
def exec (c : Prog ε σ α) (s : σ) : Except ε α × σ := c s

/-- A read of the state that may fail and writes nothing. -/
def read (f : σ → Except ε α) : Prog ε σ α := fun s => (f s, s)

/-- A computation that neither reads nor writes the state. -/
def ofExcept (e : Except ε α) : Prog ε σ α := read fun _ => e

/-- The same program with its errors renamed, as `?` does through a `From` conversion. -/
def mapError {ε' : Type} (f : ε → ε') (c : Prog ε σ α) : Prog ε' σ α := fun s =>
  match c.exec s with
  | (.ok a, s') => (.ok a, s')
  | (.error e, s') => (.error (f e), s')

/-- The outcome of a program, as a value: an error does not stop the caller. -/
def outcome (c : Prog ε σ α) {ε' : Type} : Prog ε' σ (Except ε α) := fun s =>
  (.ok (c.exec s).1, (c.exec s).2)

/-- **A successful run** of `c` from `s` to `s'` with the result `a`. -/
def Runs (c : Prog ε σ α) (s : σ) (a : α) (s' : σ) : Prop := c.exec s = (.ok a, s')

/-! ### The rules -/

section Rules

variable {s s' : σ} {a : α} {b : β}

@[simp] lemma runs_pure : Runs (pure b : Prog ε σ β) s b s' ↔ s' = s := by
  constructor
  · intro h
    exact (congrArg Prod.snd h).symm
  · rintro rfl
    rfl

lemma Runs.pure (a : α) (s : σ) : Runs (Pure.pure a : Prog ε σ α) s a s := rfl

lemma runs_pure_iff {c : α} : Runs (Pure.pure c : Prog ε σ α) s a s' ↔ a = c ∧ s' = s := by
  constructor
  · intro h
    exact ⟨(Except.ok.inj (congrArg Prod.fst h)).symm, (congrArg Prod.snd h).symm⟩
  · rintro ⟨rfl, rfl⟩
    rfl

lemma exec_bind (c : Prog ε σ α) (f : α → Prog ε σ β) (s : σ) :
    (c >>= f).exec s = match c.exec s with
      | (.ok a, s₁) => (f a).exec s₁
      | (.error e, s₁) => (.error e, s₁) := by
  show (ExceptT.bindCont f (c.exec s).1) (c.exec s).2 = _
  rcases c.exec s with ⟨e | a, s₁⟩ <;> rfl

lemma exec_mapError {ε' : Type} (f : ε → ε') (c : Prog ε σ α) (s : σ) :
    (Prog.mapError f c).exec s = ((c.exec s).1.mapError f, (c.exec s).2) := by
  show (match c.exec s with
    | (.ok a, s') => (Except.ok a, s')
    | (.error e, s') => (.error (f e), s')) = _
  rcases c.exec s with ⟨e | a, s₁⟩ <;> rfl

lemma runs_mapError {ε' : Type} {f : ε → ε'} {c : Prog ε σ α} :
    Runs (Prog.mapError f c) s a s' ↔ Runs c s a s' := by
  unfold Runs
  rw [exec_mapError]
  rcases c.exec s with ⟨e | b, s₁⟩ <;> simp [Except.mapError]

lemma runs_ofExcept {e : Except ε α} : Runs (Prog.ofExcept e) s a s' ↔ e = .ok a ∧ s' = s := by
  show (e, s) = (.ok a, s') ↔ _
  rw [Prod.mk.injEq]
  exact and_congr_right fun _ => eq_comm

lemma not_runs_throw {e : ε} : ¬ Runs (throw e : Prog ε σ α) s a s' := by
  intro h
  cases congrArg Prod.fst h

/-- A guard that throws was passed. -/
lemma runs_guard {p : Prop} [Decidable p] {e : ε} {c : Prog ε σ α} (h : Runs (if p then throw e else c) s a s') :
    ¬ p ∧ Runs c s a s' := by
  by_cases hp : p
  · rw [if_pos hp] at h
    exact absurd h not_runs_throw
  · rw [if_neg hp] at h
    exact ⟨hp, h⟩

lemma runs_bind_iff {c : Prog ε σ α} {f : α → Prog ε σ β} :
    Runs (c >>= f) s b s' ↔ ∃ a s₁, Runs c s a s₁ ∧ Runs (f a) s₁ b s' := by
  unfold Runs
  rw [exec_bind]
  rcases h : c.exec s with ⟨e | a, s₁⟩
  · simp
  · simp

lemma Runs.bind {c : Prog ε σ α} {f : α → Prog ε σ β} {s₁ : σ} (h : Runs c s a s₁)
    (h' : Runs (f a) s₁ b s') : Runs (c >>= f) s b s' :=
  runs_bind_iff.mpr ⟨a, s₁, h, h'⟩

/-- After a run the rest of the program goes on. -/
lemma Runs.exec_bind {c : Prog ε σ α} {s₁ : σ} (h : Runs c s a s₁) (f : α → Prog ε σ β) :
    (c >>= f).exec s = (f a).exec s₁ := by
  have hexec : c.exec s = (.ok a, s₁) := h
  rw [Prog.exec_bind, hexec]

lemma runs_read {f : σ → Except ε α} : Runs (read f) s a s' ↔ f s = .ok a ∧ s' = s := by
  show (f s, s) = (.ok a, s') ↔ _
  rw [Prod.mk.injEq]
  exact and_congr_right fun _ => eq_comm

lemma Runs.read {f : σ → Except ε α} (h : f s = .ok a) : Runs (Prog.read f) s a s :=
  runs_read.mpr ⟨h, rfl⟩

lemma Runs.ofExcept {e : Except ε α} (h : e = .ok a) : Runs (Prog.ofExcept e) s a s :=
  Runs.read h

lemma Runs.mapError {ε' : Type} {f : ε → ε'} {c : Prog ε σ α} (h : Runs c s a s') :
    Runs (Prog.mapError f c) s a s' :=
  runs_mapError.mpr h

lemma Runs.outcome {ε' : Type} (c : Prog ε σ α) (s : σ) :
    Runs (Prog.outcome c : Prog ε' σ (Except ε α)) s (c.exec s).1 (c.exec s).2 := rfl

/-- A program has one outcome. -/
lemma Runs.unique {c : Prog ε σ α} {a' : α} {s₁ : σ} (h : Runs c s a s') (h' : Runs c s a' s₁) :
    a = a' ∧ s' = s₁ := by
  have he := h.symm.trans h'
  exact ⟨Except.ok.inj (congrArg Prod.fst he), congrArg Prod.snd he⟩

/-- **The loop rule**: an invariant of the entries still to come, the accumulator and the
state, kept by every turn, holds at the end of a loop that succeeds. -/
theorem runs_foldlM {f : β → α → Prog ε σ β} (I : List α → β → σ → Prop)
    (step : ∀ a l b s, I (a :: l) b s → ∃ b' s', Runs (f b a) s b' s' ∧ I l b' s') :
    ∀ l b s, I l b s → ∃ b' s', Runs (l.foldlM f b) s b' s' ∧ I [] b' s' := by
  intro l
  induction l with
  | nil =>
    intro b s h
    exact ⟨b, s, Runs.pure b s, h⟩
  | cons a l ih =>
    intro b s h
    obtain ⟨b₁, s₁, hr, hI⟩ := step a l b s h
    obtain ⟨b', s', hr', hI'⟩ := ih b₁ s₁ hI
    exact ⟨b', s', by rw [List.foldlM_cons]; exact hr.bind hr', hI'⟩

/-- **The slot loop rule**: a loop that visits distinct slots once each, and gives each its own
value. `R` relates the states before and after, and `Q` says what is known of a finished slot. -/
theorem runs_foldlM_slots {γ κ : Type} [DecidableEq κ] {f : (κ → α) → γ → Prog ε σ (κ → α)}
    (G : κ → γ) (R : σ → σ → Prop) (hrefl : ∀ s, R s s) (htrans : ∀ {a b c}, R a b → R b c → R a c)
    (Q : κ → α → σ → Prop) (hQ : ∀ {k a s s'}, Q k a s → R s s' → Q k a s') (acc₀ : κ → α) (s₀ : σ) :
    ∀ (ks : List κ), ks.Nodup →
      (∀ k ∈ ks, ∀ acc s, R s₀ s → acc k = acc₀ k →
        ∃ a s', Runs (f acc (G k)) s (Function.update acc k a) s' ∧ Q k a s' ∧ R s s') →
      ∀ acc s, R s₀ s → (∀ k ∈ ks, acc k = acc₀ k) →
        ∃ acc' s', Runs ((ks.map G).foldlM f acc) s acc' s' ∧ R s s' ∧ (∀ k ∈ ks, Q k (acc' k) s') ∧
          ∀ k, k ∉ ks → acc' k = acc k := by
  intro ks
  induction ks with
  | nil =>
    intro _ _ acc s _ _
    exact ⟨acc, s, Runs.pure acc s, hrefl s, by simp, fun _ _ => rfl⟩
  | cons k ks ih =>
    intro hnd step acc s hs hacc
    obtain ⟨hk, hnd⟩ := List.nodup_cons.mp hnd
    obtain ⟨a, s₁, hr, hq, h₁⟩ := step k (List.mem_cons_self ..) acc s hs (hacc k (List.mem_cons_self ..))
    have hne : ∀ x ∈ ks, x ≠ k := by
      rintro x hx rfl
      exact hk hx
    obtain ⟨acc', s', hr', h', hall, hother⟩ := ih hnd
      (fun x hx => step x (List.mem_cons_of_mem _ hx)) (Function.update acc k a) s₁ (htrans hs h₁)
      (fun x hx => by rw [Function.update_of_ne (hne x hx)]; exact hacc x (List.mem_cons_of_mem _ hx))
    refine ⟨acc', s', by rw [List.map_cons, List.foldlM_cons]; exact hr.bind hr', htrans h₁ h', ?_, ?_⟩
    · intro x hx
      rcases List.mem_cons.mp hx with rfl | hx
      · rw [hother x hk, Function.update_self]
        exact hQ hq h'
      · exact hall x hx
    · intro x hx
      rw [hother x fun h => hx (List.mem_cons_of_mem _ h), Function.update_of_ne]
      rintro rfl
      exact hx (List.mem_cons_self ..)

end Rules

/-! ### Frames -/

/-- A relation that every part of a program keeps between the states before and after it. -/
structure Frame (σ : Type) where
  rel : σ → σ → Prop
  refl : ∀ s, rel s s
  trans : ∀ {a b c}, rel a b → rel b c → rel a c

/-- **The program keeps the frame**, whatever its outcome. -/
def Keeps (F : Frame σ) (c : Prog ε σ α) : Prop := ∀ s, F.rel s (c.exec s).2

namespace Keeps

variable {F : Frame σ} {ε' : Type}

lemma pure (a : α) : Keeps F (Pure.pure a : Prog ε σ α) := fun s => F.refl s

lemma throw (e : ε) : Keeps F (MonadExcept.throw e : Prog ε σ α) := fun s => F.refl s

lemma read (f : σ → Except ε α) : Keeps F (Prog.read f) := fun s => F.refl s

lemma ofExcept (e : Except ε α) : Keeps F (Prog.ofExcept e : Prog ε σ α) := fun s => F.refl s

lemma bind {c : Prog ε σ α} {f : α → Prog ε σ β} (h : Keeps F c) (hf : ∀ a, Keeps F (f a)) :
    Keeps F (c >>= f) := by
  intro s
  have h1 := h s
  rw [Prog.exec_bind]
  rcases hc : c.exec s with ⟨e | a, s'⟩
  · rw [hc] at h1
    exact h1
  · rw [hc] at h1
    exact F.trans h1 (hf a s')

lemma mapError {f : ε → ε'} {c : Prog ε σ α} (h : Keeps F c) : Keeps F (Prog.mapError f c) := by
  intro s
  rw [Prog.exec_mapError]
  exact h s

lemma outcome {c : Prog ε σ α} (h : Keeps F c) : Keeps F (Prog.outcome c : Prog ε' σ (Except ε α)) :=
  fun s => h s

lemma foldlM_mem {f : β → α → Prog ε σ β} :
    ∀ (l : List α) (b : β), (∀ a ∈ l, ∀ b, Keeps F (f b a)) → Keeps F (l.foldlM f b) := by
  intro l
  induction l with
  | nil => exact fun b _ => pure b
  | cons a l ih =>
    intro b h
    rw [List.foldlM_cons]
    exact (h a (List.mem_cons_self ..) b).bind fun b' => ih b' fun x hx => h x (List.mem_cons_of_mem _ hx)

lemma foldlM {f : β → α → Prog ε σ β} (h : ∀ b a, Keeps F (f b a)) (l : List α) (b : β) :
    Keeps F (l.foldlM f b) := foldlM_mem l b fun a _ b => h b a

lemma runs {c : Prog ε σ α} {s s' : σ} {a : α} (h : Keeps F c) (hr : Runs c s a s') : F.rel s s' := by
  have := h s
  rwa [hr] at this

end Keeps

/-! ### Postconditions -/

/-- The outcome is a result with `Q` or an error with `E`. -/
def Meets (E : ε → Prop) (Q : α → Prop) : Except ε α → Prop
  | .ok a => Q a
  | .error e => E e

/-- **Every outcome of the program** is a result with `Q` or an error with `E`. -/
def Post (E : ε → Prop) (Q : α → Prop) (c : Prog ε σ α) : Prop := ∀ s, Meets E Q (c.exec s).1

section Post

variable {E : ε → Prop} {Q Q' : α → Prop} {R : β → Prop}

lemma Meets.imp {r : Except ε α} (h : Meets E Q r) (hQ : ∀ a, Q a → Q' a) : Meets E Q' r := by
  cases r with
  | ok a => exact hQ a h
  | error e => exact h

lemma Meets.any (r : Except ε α) : Meets (fun _ => True) (fun _ => True) r := by
  cases r <;> exact True.intro

/-- What an outcome is. -/
lemma Meets.self (r : Except ε α) : Meets (fun _ => True) (fun a => r = .ok a) r := by
  cases r with
  | ok a => rfl
  | error e => exact True.intro

lemma Meets.bind {r : Except ε α} {f : α → Except ε β} (h : Meets E Q r)
    (hf : ∀ a, Q a → Meets E R (f a)) : Meets E R (r >>= f) := by
  cases r with
  | ok a => exact hf a h
  | error e => exact h

lemma Meets.mapError {ε' : Type} {r : Except ε' α} {f : ε' → ε} (h : ∀ e, E (f e)) :
    Meets E (fun _ => True) (r.mapError f) := by
  cases r with
  | ok a => trivial
  | error e => exact h e

lemma Meets.ne_error {r : Except ε α} {e : ε} (h : Meets E Q r) (he : ¬ E e) : r ≠ .error e := by
  rintro rfl
  exact he h

namespace Post

lemma pure {a : α} (h : Q a) : Post E Q (Pure.pure a : Prog ε σ α) := fun _ => h

lemma throw {e : ε} (h : E e) : Post E Q (MonadExcept.throw e : Prog ε σ α) := fun _ => h

lemma read {f : σ → Except ε α} (h : ∀ s, Meets E Q (f s)) : Post E Q (Prog.read f) := h

lemma ofExcept {r : Except ε α} (h : Meets E Q r) : Post E Q (Prog.ofExcept r : Prog ε σ α) :=
  fun _ => h

lemma any (c : Prog ε σ α) : Post (fun _ => True) (fun _ => True) c := fun _ => Meets.any _

lemma outcome {ε' : Type} (c : Prog ε' σ α) :
    Post E (fun _ => True) (Prog.outcome c : Prog ε σ (Except ε' α)) := fun _ => trivial

lemma imp {c : Prog ε σ α} (h : Post E Q c) (hQ : ∀ a, Q a → Q' a) : Post E Q' c :=
  fun s => (h s).imp hQ

lemma bind {c : Prog ε σ α} {f : α → Prog ε σ β} (h : Post E Q c) (hf : ∀ a, Q a → Post E R (f a)) :
    Post E R (c >>= f) := by
  intro s
  have hc := h s
  rw [Prog.exec_bind]
  rcases hx : c.exec s with ⟨e | a, s'⟩
  · rw [hx] at hc
    exact hc
  · rw [hx] at hc
    exact hf a hc s'

lemma of_ok {r : Except ε α} {a : α} {f : α → Prog ε σ β} (h : r = .ok a) (hf : Post E R (f a)) :
    Post E R (Prog.ofExcept r >>= f) := by
  subst h
  exact hf

lemma mapError {ε' : Type} {f : ε' → ε} {c : Prog ε' σ α} (h : ∀ e, E (f e)) :
    Post E (fun _ => True) (Prog.mapError f c) := by
  intro s
  rw [exec_mapError]
  exact Meets.mapError h

/-- A loop whose turns all meet the postcondition. -/
lemma foldlM {f : β → α → Prog ε σ β} :
    ∀ (l : List α) (b : β), (∀ a ∈ l, ∀ b, R b → Post E R (f b a)) → R b → Post E R (l.foldlM f b) := by
  intro l
  induction l with
  | nil => exact fun b _ hb => pure hb
  | cons a l ih =>
    intro b h hb
    rw [List.foldlM_cons]
    exact (h a (List.mem_cons_self ..) b hb).bind fun b' hb' =>
      ih b' (fun x hx => h x (List.mem_cons_of_mem _ hx)) hb'

/-- A loop that visits distinct slots once each and changes no other slot. -/
lemma foldlM_slots {γ κ : Type} {f : (κ → α) → γ → Prog ε σ (κ → α)} (G : κ → γ) (acc₀ : κ → α) :
    ∀ (ks : List κ), ks.Nodup →
      (∀ k ∈ ks, ∀ acc, acc k = acc₀ k → Post E (fun acc' => ∀ x, x ≠ k → acc' x = acc x) (f acc (G k))) →
      ∀ acc, (∀ k ∈ ks, acc k = acc₀ k) → Post E (fun _ => True) ((ks.map G).foldlM f acc) := by
  intro ks
  induction ks with
  | nil => exact fun _ _ acc _ => pure trivial
  | cons k ks ih =>
    intro hnd step acc hacc
    obtain ⟨hk, hnd⟩ := List.nodup_cons.mp hnd
    rw [List.map_cons, List.foldlM_cons]
    refine (step k (List.mem_cons_self ..) acc (hacc k (List.mem_cons_self ..))).bind fun acc' h' => ?_
    refine ih hnd (fun x hx => step x (List.mem_cons_of_mem _ hx)) acc' fun x hx => ?_
    rw [h' x (fun he => hk (he ▸ hx))]
    exact hacc x (List.mem_cons_of_mem _ hx)

end Post

/-- The rest of a program is met with what its first part returns. -/
lemma Keeps.bind_post {F : Frame σ} {c : Prog ε σ α} {f : α → Prog ε σ β} (h : Keeps F c)
    (hQ : Post (fun _ => True) Q c) (hf : ∀ a, Q a → Keeps F (f a)) : Keeps F (c >>= f) := by
  intro s
  have h1 := h s
  have h2 := hQ s
  rw [Prog.exec_bind]
  rcases hc : c.exec s with ⟨e | a, s'⟩
  · rw [hc] at h1
    exact h1
  · rw [hc] at h1 h2
    exact F.trans h1 (hf a h2 s')

end Post

end Prog

end GolemDb.Lib
