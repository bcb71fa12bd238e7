import GolemDb.Storage.Basic

/-!
Frames of storage programs. A frame `Allows` a table when every write of the table keeps it, and
`Admits` the rows of a table that a predicate describes when a write of such a row keeps it; a
program that writes such rows alone then keeps the frame. `Outside S` is the frame of the tables
outside `S`, which stay as they are.
-/

namespace GolemDb.Storage

open GolemDb.Lib

section Frames

variable {τ : Type} [WriteTransaction τ]

/-- Every write of the table keeps the frame. -/
structure Allows (F : Prog.Frame τ) (t : Table) : Prop where
  put : ∀ k v, Prog.Keeps F (WriteTransaction.put t k v)
  insert : ∀ k v, Prog.Keeps F (WriteTransaction.insert t k v)
  delete : ∀ k, Prog.Keeps F (WriteTransaction.delete t k)

/-- The frame is kept by a write of every row of the table that `P` describes, and by every
deletion. -/
structure Admits (F : Prog.Frame τ) (t : Table) (P : Bytes → Bytes → Prop) : Prop where
  put : ∀ {k v}, P k v → Prog.Keeps F (WriteTransaction.put t k v)
  insert : ∀ {k v}, P k v → Prog.Keeps F (WriteTransaction.insert t k v)
  delete : ∀ k, Prog.Keeps F (WriteTransaction.delete t k)

lemma Allows.admits {F : Prog.Frame τ} {t : Table} (h : Allows F t) (P : Bytes → Bytes → Prop) :
    Admits F t P :=
  ⟨fun _ => h.put _ _, fun _ => h.insert _ _, h.delete⟩

lemma Admits.mono {F : Prog.Frame τ} {t : Table} {P Q : Bytes → Bytes → Prop} (h : Admits F t P)
    (hQ : ∀ k v, Q k v → P k v) : Admits F t Q :=
  ⟨fun hv => h.put (hQ _ _ hv), fun hv => h.insert (hQ _ _ hv), h.delete⟩

variable [LawfulWrite τ]

/-- **The tables outside `S` stay as they are.** -/
def Outside (S : Set Table) : Prog.Frame τ where
  rel tx tx' := ∀ u, u ∉ S → rows tx' u = rows tx u
  refl _ _ _ := rfl
  trans h h' u hu := (h' u hu).trans (h u hu)

lemma outside_allows {S : Set Table} {t : Table} (ht : t.validate = .ok ()) (hS : t ∈ S) :
    Allows (Outside S : Prog.Frame τ) t := by
  have hne : ∀ u, u ∉ S → u ≠ t := by
    rintro u hu rfl
    exact hu hS
  refine ⟨fun k v tx u hu => ?_, fun k v tx u hu => ?_, fun k tx u hu => ?_⟩
  · obtain ⟨tx', hr, hrows⟩ := LawfulWrite.put_eq ht tx k v
    rw [hr]
    show rows tx' u = _
    rw [hrows, Function.update_of_ne (hne u hu)]
  · cases hk : (rows tx t).get? k with
    | none =>
      obtain ⟨tx', hr, hrows⟩ := LawfulWrite.insert_eq ht tx k v hk
      rw [hr]
      show rows tx' u = _
      rw [hrows, Function.update_of_ne (hne u hu)]
    | some w =>
      obtain ⟨tx', hr, hrows⟩ := LawfulWrite.insert_exists ht tx k v (by rw [hk]; simp)
      rw [hr]
      show rows tx' u = _
      rw [hrows]
  · obtain ⟨tx', hr, hrows⟩ := LawfulWrite.delete_eq ht tx k
    rw [hr]
    show rows tx' u = _
    rw [hrows, Function.update_of_ne (hne u hu)]

/-- **Every row keeps the property** that the rows of a table have. -/
def Rowwise (P : Bytes → Bytes → Prop) : Prog.Frame τ where
  rel tx tx' := (∀ t k v, (rows tx t).get? k = some v → P k v) → ∀ t k v, (rows tx' t).get? k = some v → P k v
  refl _ h := h
  trans h h' hv := h' (h hv)

lemma rowwise_set {P : Bytes → Bytes → Prop} {tx tx' : τ} {t : Table} {k : Bytes} {w : Option Bytes}
    (hrows : rows tx' = Function.update (rows tx) t ((rows tx t).set k w)) (hw : ∀ v, w = some v → P k v) :
    (Rowwise P : Prog.Frame τ).rel tx tx' := by
  intro h u j v hv
  rw [hrows] at hv
  by_cases hu : u = t
  · subst hu
    rw [Function.update_self, OrdMap.get?_set] at hv
    split_ifs at hv with hj
    · exact hj ▸ hw v hv
    · exact h u j v hv
  · rw [Function.update_of_ne hu] at hv
    exact h u j v hv

lemma rowwise_admits {P : Bytes → Bytes → Prop} {t : Table} (ht : t.validate = .ok ()) :
    Admits (Rowwise P : Prog.Frame τ) t P := by
  refine ⟨fun {k v} hv tx => ?_, fun {k v} hv tx => ?_, fun k tx => ?_⟩
  · obtain ⟨tx', hr, hrows⟩ := LawfulWrite.put_eq ht tx k v
    rw [hr]
    refine rowwise_set (w := some v) hrows fun w hw => ?_
    obtain rfl := Option.some.inj hw
    exact hv
  · cases hk : (rows tx t).get? k with
    | none =>
      obtain ⟨tx', hr, hrows⟩ := LawfulWrite.insert_eq ht tx k v hk
      rw [hr]
      refine rowwise_set (w := some v) hrows fun w hw => ?_
      obtain rfl := Option.some.inj hw
      exact hv
    | some w =>
      obtain ⟨tx', hr, hrows⟩ := LawfulWrite.insert_exists ht tx k v (by rw [hk]; simp)
      rw [hr]
      intro h u j v hv
      exact h u j v (by rw [← hrows]; exact hv)
  · obtain ⟨tx', hr, hrows⟩ := LawfulWrite.delete_eq ht tx k
    rw [hr]
    exact rowwise_set (k := k) (w := none) hrows nofun

end Frames

end GolemDb.Storage
