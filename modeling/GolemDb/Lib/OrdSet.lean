import GolemDb.Lib.OrdMap

/-!
Ordered finite sets: maps to the unit type. The members are listed in strictly ascending order,
so two sets with the same members are equal (`OrdSet.ext`).
-/

namespace GolemDb.Lib

/-- A finite set whose members are listed in strictly ascending order. -/
abbrev OrdSet (κ : Type) [LinearOrder κ] := OrdMap κ Unit

namespace OrdSet

variable {κ : Type} [LinearOrder κ]

instance : Membership κ (OrdSet κ) := ⟨fun s k => s.get? k = some ()⟩

lemma mem_def {s : OrdSet κ} {k : κ} : k ∈ s ↔ s.get? k = some () := Iff.rfl

instance (s : OrdSet κ) (k : κ) : Decidable (k ∈ s) := inferInstanceAs (Decidable (s.get? k = some ()))

/-- The members in ascending order. -/
def toList (s : OrdSet κ) : List κ := s.keys

@[simp] lemma mem_toList {s : OrdSet κ} {k : κ} : k ∈ s.toList ↔ k ∈ s := by
  rw [toList, OrdMap.mem_keys, mem_def]
  cases s.get? k <;> simp

lemma toList_sorted (s : OrdSet κ) : s.toList.Pairwise (· < ·) := List.pairwise_map.mpr s.sorted

lemma not_mem_iff {s : OrdSet κ} {k : κ} : k ∉ s ↔ s.get? k = none := by
  rw [mem_def]
  cases s.get? k <;> simp

theorem ext {s s' : OrdSet κ} (h : ∀ k, k ∈ s ↔ k ∈ s') : s = s' := by
  refine OrdMap.ext_get fun k => ?_
  by_cases hk : k ∈ s
  · rw [mem_def.mp hk, mem_def.mp ((h k).mp hk)]
  · rw [not_mem_iff.mp hk, not_mem_iff.mp fun h' => hk ((h k).mpr h')]

@[simp] lemma not_mem_empty (k : κ) : k ∉ (OrdMap.empty : OrdSet κ) := by
  simp [mem_def]

/-- Add a member. -/
def add (s : OrdSet κ) (k : κ) : OrdSet κ := OrdMap.insert s k ()

/-- Put a member in or out. -/
def assign (s : OrdSet κ) (k : κ) (present : Bool) : OrdSet κ :=
  if present then s.add k else OrdMap.erase s k

@[simp] lemma mem_add {s : OrdSet κ} {k j : κ} : j ∈ s.add k ↔ j = k ∨ j ∈ s := by
  rw [mem_def, add, OrdMap.get?_insert, mem_def]
  by_cases h : j = k <;> simp [h]

@[simp] lemma mem_erase {s : OrdSet κ} {k j : κ} : j ∈ (OrdMap.erase s k : OrdSet κ) ↔ j ≠ k ∧ j ∈ s := by
  rw [mem_def, OrdMap.get?_erase, mem_def]
  by_cases h : j = k <;> simp [h]

lemma mem_assign {s : OrdSet κ} {k j : κ} {present : Bool} :
    j ∈ s.assign k present ↔ if j = k then present = true else j ∈ s := by
  unfold assign
  cases present <;> by_cases h : j = k <;> simp [h]

/-- The set of a list. -/
def ofList (l : List κ) : OrdSet κ := l.foldl add OrdMap.empty

lemma mem_foldl_add {l : List κ} {s : OrdSet κ} {k : κ} : k ∈ l.foldl add s ↔ k ∈ l ∨ k ∈ s := by
  induction l generalizing s with
  | nil => simp
  | cons a l ih =>
    rw [List.foldl_cons, ih, mem_add, List.mem_cons]
    tauto

@[simp] lemma mem_ofList {l : List κ} {k : κ} : k ∈ ofList l ↔ k ∈ l := by
  rw [ofList, mem_foldl_add]
  simp

/-- The union, the members of the second set added to the first. -/
def union (s s' : OrdSet κ) : OrdSet κ := s'.toList.foldl add s

@[simp] lemma mem_union {s s' : OrdSet κ} {k : κ} : k ∈ s.union s' ↔ k ∈ s ∨ k ∈ s' := by
  rw [union, mem_foldl_add, mem_toList]
  tauto

lemma isEmpty_iff {s : OrdSet κ} : s.isEmpty = true ↔ ∀ k, k ∉ s := by
  rw [OrdMap.isEmpty_iff]
  exact forall_congr' fun k => not_mem_iff.symm

lemma eq_empty_iff {s : OrdSet κ} : s = OrdMap.empty ↔ ∀ k, k ∉ s := by
  constructor
  · rintro rfl k
    exact not_mem_empty k
  · intro h
    exact ext fun k => iff_of_false (h k) (not_mem_empty k)

end OrdSet

end GolemDb.Lib
