import GolemDb.Lib.Bytes

/-!
Ordered maps with finitely many keys, as association lists in strictly ascending key order.

The order of the entries is part of the type, so two maps with the same lookups are equal
(`OrdMap.ext_get`), the entries list every key once and in order, and the neighbours of a key
(`firstGe`, `lastLe` and their strict forms) are found by scanning.
-/

namespace GolemDb.Lib

/-- A finite map whose entries are listed in strictly ascending key order. -/
structure OrdMap (κ ν : Type) [LinearOrder κ] where
  entries : List (κ × ν)
  sorted : entries.Pairwise (fun a b => a.1 < b.1)

namespace OrdMap

section Ops

variable {κ ν : Type} [LinearOrder κ]

instance [DecidableEq ν] : DecidableEq (OrdMap κ ν) := fun a b =>
  decidable_of_iff (a.entries = b.entries) (by cases a; cases b; simp)

def empty : OrdMap κ ν := ⟨[], List.Pairwise.nil⟩

instance : Inhabited (OrdMap κ ν) := ⟨empty⟩

/-- The value under `k`. -/
def get? (m : OrdMap κ ν) (k : κ) : Option ν := (m.entries.find? (fun e => e.1 = k)).map Prod.snd

def contains (m : OrdMap κ ν) (k : κ) : Bool := (m.get? k).isSome

def isEmpty (m : OrdMap κ ν) : Bool := m.entries.isEmpty

def size (m : OrdMap κ ν) : ℕ := m.entries.length

/-- Put `(k, v)` in its place of an ordered list, over an entry with the same key. -/
def insertEntry (k : κ) (v : ν) : List (κ × ν) → List (κ × ν)
  | [] => [(k, v)]
  | e :: l => if k < e.1 then (k, v) :: e :: l else if k = e.1 then (k, v) :: l
      else e :: insertEntry k v l

lemma mem_insertEntry {k : κ} {v : ν} {l : List (κ × ν)} {e : κ × ν} (h : e ∈ insertEntry k v l) :
    e = (k, v) ∨ e ∈ l := by
  induction l with
  | nil => simpa [insertEntry] using h
  | cons x l ih =>
    unfold insertEntry at h
    split_ifs at h with h1 h2
    · simpa using h
    · rcases List.mem_cons.mp h with rfl | h
      · exact Or.inl rfl
      · exact Or.inr (List.mem_cons_of_mem _ h)
    · rcases List.mem_cons.mp h with rfl | h
      · exact Or.inr (List.mem_cons_self ..)
      · rcases ih h with rfl | h
        · exact Or.inl rfl
        · exact Or.inr (List.mem_cons_of_mem _ h)

lemma insertEntry_sorted (k : κ) (v : ν) {l : List (κ × ν)}
    (h : l.Pairwise (fun a b => a.1 < b.1)) :
    (insertEntry k v l).Pairwise (fun a b => a.1 < b.1) := by
  induction l with
  | nil => simp [insertEntry]
  | cons x l ih =>
    obtain ⟨hx, hl⟩ := List.pairwise_cons.mp h
    unfold insertEntry
    split_ifs with h1 h2
    · refine List.pairwise_cons.mpr ⟨fun e he => ?_, h⟩
      rcases List.mem_cons.mp he with rfl | he
      · exact h1
      · exact lt_trans h1 (hx e he)
    · refine List.pairwise_cons.mpr ⟨fun e he => ?_, hl⟩
      rw [h2]
      exact hx e he
    · refine List.pairwise_cons.mpr ⟨fun e he => ?_, ih hl⟩
      rcases mem_insertEntry he with rfl | he
      · exact lt_of_le_of_ne (not_lt.mp h1) (Ne.symm h2)
      · exact hx e he

/-- Set the value under `k`. -/
def insert (m : OrdMap κ ν) (k : κ) (v : ν) : OrdMap κ ν :=
  ⟨insertEntry k v m.entries, insertEntry_sorted k v m.sorted⟩

/-- Drop the entry under `k`. -/
def erase (m : OrdMap κ ν) (k : κ) : OrdMap κ ν :=
  ⟨m.entries.filter (fun e => e.1 ≠ k), m.sorted.filter _⟩

/-- Set the value under `k`, or drop it for `none`. -/
def set (m : OrdMap κ ν) (k : κ) : Option ν → OrdMap κ ν
  | some v => m.insert k v
  | none => m.erase k

/-- The entry with the least key that is at least `k`. -/
def firstGe (m : OrdMap κ ν) (k : κ) : Option (κ × ν) := m.entries.find? (fun e => k ≤ e.1)

/-- The entry with the least key above `k`. -/
def firstGt (m : OrdMap κ ν) (k : κ) : Option (κ × ν) := m.entries.find? (fun e => k < e.1)

/-- The entry with the greatest key that is at most `k`. -/
def lastLe (m : OrdMap κ ν) (k : κ) : Option (κ × ν) := m.entries.reverse.find? (fun e => e.1 ≤ k)

/-- The entry with the greatest key below `k`. -/
def lastLt (m : OrdMap κ ν) (k : κ) : Option (κ × ν) := m.entries.reverse.find? (fun e => e.1 < k)

/-- The keys, in ascending order. -/
def keys (m : OrdMap κ ν) : List κ := m.entries.map Prod.fst

/-! ### Lookups -/

lemma find?_key_eq {l : List (κ × ν)} (h : l.Pairwise (fun a b => a.1 < b.1)) {k : κ} {v : ν} :
    (l.find? (fun e => e.1 = k)).map Prod.snd = some v ↔ (k, v) ∈ l := by
  induction l with
  | nil => simp
  | cons x l ih =>
    obtain ⟨hx, hl⟩ := List.pairwise_cons.mp h
    by_cases hk : x.1 = k
    · rw [List.find?_cons_of_pos (by simpa using hk)]
      constructor
      · intro hv
        have : x = (k, v) := Prod.ext hk (by simpa using hv)
        exact this ▸ List.mem_cons_self ..
      · intro hm
        rcases List.mem_cons.mp hm with h0 | hm
        · simp [← h0]
        · exact absurd (hx _ hm) (by simp [hk])
    · rw [List.find?_cons_of_neg (by simpa using hk), ih hl]
      constructor
      · exact List.mem_cons_of_mem _
      · intro hm
        rcases List.mem_cons.mp hm with h0 | hm
        · exact absurd (by rw [← h0]) hk
        · exact hm

theorem mem_entries {m : OrdMap κ ν} {k : κ} {v : ν} : (k, v) ∈ m.entries ↔ m.get? k = some v :=
  (find?_key_eq m.sorted).symm

lemma mem_keys {m : OrdMap κ ν} {k : κ} : k ∈ m.keys ↔ m.get? k ≠ none := by
  simp only [keys, List.mem_map, Prod.exists, mem_entries, exists_and_right, exists_eq_right,
    ne_eq, ← Option.isSome_iff_ne_none, Option.isSome_iff_exists]

@[simp] lemma get?_empty (k : κ) : (empty : OrdMap κ ν).get? k = none := rfl

/-- Two lists in strictly ascending key order with the same members are equal. -/
lemma eq_of_sorted {l l' : List (κ × ν)} (hl : l.Pairwise fun a b => a.1 < b.1)
    (hl' : l'.Pairwise fun a b => a.1 < b.1) (h : ∀ e, e ∈ l ↔ e ∈ l') : l = l' := by
  have hnd : ∀ l : List (κ × ν), l.Pairwise (fun a b => a.1 < b.1) → l.Nodup := fun l hs =>
    hs.imp fun hab heq => absurd hab (by rw [heq]; exact lt_irrefl _)
  have hperm : l.Perm l' := (List.perm_ext_iff_of_nodup (hnd l hl) (hnd l' hl')).mpr h
  exact hperm.eq_of_pairwise (fun a b _ _ h1 h2 => absurd (lt_trans h1 h2) (lt_irrefl _)) hl hl'

/-- **Two maps with the same lookups are equal.** -/
theorem ext_get {m m' : OrdMap κ ν} (h : ∀ k, m.get? k = m'.get? k) : m = m' := by
  have heq : m.entries = m'.entries := eq_of_sorted m.sorted m'.sorted fun ⟨k, v⟩ => by
    rw [mem_entries, mem_entries, h]
  cases m
  cases m'
  simpa using heq

lemma get?_insertEntry (k : κ) (v : ν) (l : List (κ × ν)) (j : κ) :
    ((insertEntry k v l).find? (fun e => e.1 = j)).map Prod.snd =
      if j = k then some v else (l.find? (fun e => e.1 = j)).map Prod.snd := by
  induction l with
  | nil =>
    by_cases h : j = k
    · simp [insertEntry, h]
    · simp [insertEntry, h, Ne.symm h]
  | cons x l ih =>
    unfold insertEntry
    by_cases hj : j = k
    · subst hj
      rw [if_pos rfl] at ih ⊢
      split_ifs with h1 h2
      · simp
      · simp
      · rw [List.find?_cons_of_neg (by simpa using Ne.symm h2), ih]
    · have hkj : ¬ k = j := Ne.symm hj
      rw [if_neg hj] at ih ⊢
      split_ifs with h1 h2
      · rw [List.find?_cons_of_neg (by simpa using hkj)]
      · rw [List.find?_cons_of_neg (by simpa using hkj),
          List.find?_cons_of_neg (by simpa [← h2] using hkj)]
      · by_cases hx : x.1 = j
        · rw [List.find?_cons_of_pos (by simpa using hx), List.find?_cons_of_pos (by simpa using hx)]
        · rw [List.find?_cons_of_neg (by simpa using hx),
            List.find?_cons_of_neg (by simpa using hx), ih]

@[simp] theorem get?_insert (m : OrdMap κ ν) (k : κ) (v : ν) (j : κ) :
    (m.insert k v).get? j = if j = k then some v else m.get? j :=
  get?_insertEntry k v m.entries j

@[simp] theorem get?_erase (m : OrdMap κ ν) (k j : κ) :
    (m.erase k).get? j = if j = k then none else m.get? j := by
  by_cases h : j = k
  · subst h
    rw [if_pos rfl, ← Option.not_isSome_iff_eq_none, Option.isSome_iff_exists]
    rintro ⟨v, hv⟩
    have := mem_entries.mpr hv
    simp [erase] at this
  · rw [if_neg h]
    apply Option.ext
    intro v
    rw [← mem_entries, ← mem_entries]
    simp [erase, h]

@[simp] theorem get?_set (m : OrdMap κ ν) (k : κ) (v : Option ν) (j : κ) :
    (m.set k v).get? j = if j = k then v else m.get? j := by
  cases v <;> simp [set]

lemma set_self (m : OrdMap κ ν) (k : κ) : m.set k (m.get? k) = m :=
  ext_get fun j => by by_cases h : j = k <;> simp [h]

lemma set_set (m : OrdMap κ ν) (k : κ) (v w : Option ν) : (m.set k v).set k w = m.set k w :=
  ext_get fun j => by by_cases h : j = k <;> simp [h]

lemma isEmpty_iff {m : OrdMap κ ν} : m.isEmpty = true ↔ ∀ k, m.get? k = none := by
  constructor
  · intro h k
    have : m.entries = [] := List.isEmpty_iff.mp h
    simp [get?, this]
  · intro h
    have : m = empty := ext_get fun k => by rw [h, get?_empty]
    rw [this]
    rfl

end Ops

/-! ### Relabelling -/

section Relabel

variable {κ κ' ν ν' : Type} [LinearOrder κ] [LinearOrder κ']

/-- The map with its keys and values relabelled, by a strictly increasing `f` on the keys. -/
def relabel (f : κ → κ') (hf : StrictMono f) (g : ν → ν') (m : OrdMap κ ν) : OrdMap κ' ν' :=
  ⟨m.entries.map fun e => (f e.1, g e.2), List.pairwise_map.mpr (m.sorted.imp fun h => hf h)⟩

variable {f : κ → κ'} {hf : StrictMono f} {g : ν → ν'} {m : OrdMap κ ν}

lemma get?_relabel_eq_some {j : κ'} {w : ν'} :
    (m.relabel f hf g).get? j = some w ↔ ∃ k v, j = f k ∧ w = g v ∧ m.get? k = some v := by
  rw [← mem_entries, relabel, List.mem_map]
  constructor
  · rintro ⟨⟨k, v⟩, hm, he⟩
    obtain ⟨rfl, rfl⟩ := Prod.mk.inj he
    exact ⟨k, v, rfl, rfl, mem_entries.mp hm⟩
  · rintro ⟨k, v, rfl, rfl, hm⟩
    exact ⟨(k, v), mem_entries.mpr hm, rfl⟩

@[simp] theorem get?_relabel (k : κ) : (m.relabel f hf g).get? (f k) = (m.get? k).map g := by
  apply Option.ext
  intro w
  rw [get?_relabel_eq_some, Option.map_eq_some_iff]
  constructor
  · rintro ⟨k', v, hk, rfl, hm⟩
    exact ⟨v, hf.injective hk ▸ hm, rfl⟩
  · rintro ⟨v, hm, rfl⟩
    exact ⟨k, v, rfl, rfl, hm⟩

lemma relabel_set (k : κ) (v : Option ν) :
    (m.set k v).relabel f hf g = (m.relabel f hf g).set (f k) (v.map g) := by
  refine ext_get fun j => ?_
  rw [get?_set]
  apply Option.ext
  intro w
  rw [get?_relabel_eq_some]
  by_cases hj : j = f k
  · subst hj
    rw [if_pos rfl, Option.map_eq_some_iff]
    constructor
    · rintro ⟨k', x, hk, rfl, hm⟩
      rw [get?_set, if_pos (hf.injective hk).symm] at hm
      exact ⟨x, hm, rfl⟩
    · rintro ⟨x, rfl, rfl⟩
      exact ⟨k, x, rfl, rfl, by simp⟩
  · rw [if_neg hj, get?_relabel_eq_some]
    constructor
    · rintro ⟨k', x, rfl, rfl, hm⟩
      rw [get?_set, if_neg fun h => hj (by rw [h])] at hm
      exact ⟨k', x, rfl, rfl, hm⟩
    · rintro ⟨k', x, rfl, rfl, hm⟩
      exact ⟨k', x, rfl, rfl, by rw [get?_set, if_neg fun h => hj (by rw [h]), hm]⟩

end Relabel

end OrdMap

end GolemDb.Lib
