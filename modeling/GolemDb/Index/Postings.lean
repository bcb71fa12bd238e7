import GolemDb.Index.Table
import GolemDb.Index.Bitmaps

/-!
The map of posting sets that an index stands for. A set that loses its last id is dropped
(`Postings.nonempty`), so an absent term and an empty set are one. The digests of the sets are the
rows of the Index table, and `Represents` says that the four tables hold a map.
-/

namespace GolemDb.Index

open GolemDb.Lib GolemDb.Storage GolemDb.Merkle GolemDb.Cells

/-! ### Maps of posting sets -/

/-- **The posting sets of terms**, none of them empty. -/
@[ext]
structure Postings where
  sets : OrdMap IndexTerm (OrdSet U64)
  nonempty : ∀ t S, sets.get? t = some S → S ≠ OrdMap.empty

def PostingChange.recordId : PostingChange → U64
  | add _ id => id
  | remove _ id => id

def PostingChange.present : PostingChange → Bool
  | add _ _ => true
  | remove _ _ => false

lemma PostingChange.toPair_eq (c : PostingChange) :
    c.toPair = (toLex (c.term, toLex (split c.recordId)), c.present) := by
  cases c <;> rfl

namespace Postings

/-- The ids of a term; an absent term has none. -/
def ids (M : Postings) (t : IndexTerm) : OrdSet U64 := (M.sets.get? t).getD OrdMap.empty

/-- No term has an id. -/
def empty : Postings := ⟨OrdMap.empty, fun t S h => by rw [OrdMap.get?_empty] at h; cases h⟩

/-- The map with the ids of one term replaced; an empty set is dropped. -/
def put (M : Postings) (t : IndexTerm) (S : OrdSet U64) : Postings where
  sets := M.sets.set t (if S = OrdMap.empty then none else some S)
  nonempty := by
    intro t' S' h
    rw [OrdMap.get?_set] at h
    split_ifs at h with ht hS
    · obtain rfl := Option.some.inj h
      exact hS
    · exact M.nonempty t' S' h

/-- One change. -/
def assign (M : Postings) (c : PostingChange) : Postings := M.put c.term ((M.ids c.term).assign c.recordId c.present)

/-- The changes in their order. -/
def perform (changes : List PostingChange) (M : Postings) : Postings := changes.foldl assign M

variable {M M' : Postings}

lemma get?_eq (M : Postings) (t : IndexTerm) :
    M.sets.get? t = if M.ids t = OrdMap.empty then none else some (M.ids t) := by
  unfold ids
  cases h : M.sets.get? t with
  | none => rfl
  | some S =>
    rw [Option.getD_some, if_neg (M.nonempty t S h)]

lemma ext_ids (h : ∀ t, M.ids t = M'.ids t) : M = M' :=
  Postings.ext (OrdMap.ext_get fun t => by rw [get?_eq, get?_eq, h])

@[simp] lemma ids_empty (t : IndexTerm) : empty.ids t = OrdMap.empty := by
  rw [ids, empty, OrdMap.get?_empty, Option.getD_none]

lemma ids_put (M : Postings) (t t' : IndexTerm) (S : OrdSet U64) :
    (M.put t S).ids t' = if t' = t then S else M.ids t' := by
  unfold ids put
  rw [OrdMap.get?_set]
  split_ifs with ht hS
  · rw [hS, Option.getD_none]
  · rfl
  · rfl

lemma ids_assign (M : Postings) (c : PostingChange) (t : IndexTerm) :
    (M.assign c).ids t = if t = c.term then (M.ids t).assign c.recordId c.present else M.ids t := by
  rw [assign, ids_put]
  split_ifs with ht
  · rw [ht]
  · rfl

lemma perform_append (changes rest : List PostingChange) (M : Postings) :
    perform (changes ++ rest) M = perform rest (perform changes M) := List.foldl_append ..

end Postings

/-! ### Batches by term -/

/-- The pairs of one term. -/
def ofTerm (t : IndexTerm) (l : List (PostingKey × Bool)) : List (PostingKey × Bool) :=
  l.filter fun e => (ofLex e.1).1 = t

lemma assigned_cons (S : OrdSet U64) (c : ℕ × Offset × Bool) (changes : List (ℕ × Offset × Bool)) :
    assigned S (c :: changes) = assigned (S.assign (BitmapContainer.id c.1 c.2.1.val) c.2.2) changes := rfl

/-- The ids of a term after a batch are those after its own changes. -/
lemma ids_perform (changes : List PostingChange) (M : Postings) (t : IndexTerm) : (Postings.perform changes M).ids t
    = assigned (M.ids t) ((ofTerm t (changes.map PostingChange.toPair)).map postingOf) := by
  induction changes generalizing M with
  | nil => rfl
  | cons c changes ih =>
    rw [Postings.perform, List.foldl_cons, ← Postings.perform, ih, Postings.ids_assign, List.map_cons, ofTerm, ofTerm]
    have hterm : (ofLex c.toPair.1).1 = c.term := by rw [PostingChange.toPair_eq]; rfl
    by_cases ht : t = c.term
    · rw [if_pos ht, List.filter_cons_of_pos (by rw [hterm, ht]; exact decide_eq_true rfl), List.map_cons,
        assigned_cons]
      have hpost : postingOf c.toPair = ((split c.recordId).1, (split c.recordId).2, c.present) := by
        rw [PostingChange.toPair_eq]
        rfl
      simp only [hpost, id_split]
    · rw [if_neg ht, List.filter_cons_of_neg (by rw [hterm, decide_eq_true_eq]; exact fun he => ht he.symm)]

/-- A batch whose paths are in range assigns the last value of each id. -/
lemma mem_assigned (t : IndexTerm) :
    ∀ (l : List (PostingKey × Bool)) (S : OrdSet U64), (∀ e ∈ l, (postingOf e).1 ≤ MAX_PATH) →
    ∀ v, v ∈ assigned S ((ofTerm t l).map postingOf) ↔ (lastOf l (toLex (t, toLex (split v)))).getD
      (decide (v ∈ S)) = true := by
  intro l
  induction l with
  | nil => exact fun S _ v => by simp [ofTerm, assigned, lastOf]
  | cons e l ih =>
    intro S hl v
    have hrest := fun x hx => hl x (List.mem_cons_of_mem _ hx)
    have he := hl e (List.mem_cons_self ..)
    rw [lastOf_cons]
    by_cases ht : (ofLex e.1).1 = t
    · rw [ofTerm, List.filter_cons_of_pos (by simpa using ht), ← ofTerm, List.map_cons, assigned_cons, ih _ hrest]
      have hkey : e.1 = toLex (t, toLex (split v)) ↔ v = BitmapContainer.id (postingOf e).1 (postingOf e).2.1.val := by
        constructor
        · intro hk
          unfold postingOf
          rw [hk]
          exact (id_split v).symm
        · rintro rfl
          rw [split_id he, ← ht]
          rfl
      cases hlast : lastOf l (toLex (t, toLex (split v))) with
      | some b => rfl
      | none =>
        rw [Option.none_or, Option.getD_none, decide_eq_true_eq, OrdSet.mem_assign]
        by_cases hv : v = BitmapContainer.id (postingOf e).1 (postingOf e).2.1.val
        · rw [if_pos hv, if_pos (hkey.mpr hv)]
          rfl
        · rw [if_neg hv, if_neg fun hk => hv (hkey.mp hk), Option.getD_none, decide_eq_true_eq]
    · rw [ofTerm, List.filter_cons_of_neg (by simpa using ht), ← ofTerm, ih _ hrest]
      have hkey : e.1 ≠ toLex (t, toLex (split v)) := by
        intro hk
        rw [hk] at ht
        exact ht rfl
      rw [if_neg hkey, Option.or_none]

/-- The normalized changes of a batch. -/
def netPostings (changes : List PostingChange) : List (PostingKey × Bool) :=
  normalize (changes.map PostingChange.toPair)

lemma mem_netPostings {changes : List PostingChange} {e : PostingKey × Bool} (h : e ∈ netPostings changes) :
    ∃ c ∈ changes, e = c.toPair := by
  obtain ⟨c, hc, he⟩ := List.mem_map.mp (mem_of_lastOf (mem_normalize.mp h))
  exact ⟨c, hc, he.symm⟩

/-- **The ids of a term after a batch are those after its net changes.** -/
lemma assigned_netPostings (changes : List PostingChange) (M : Postings) (t : IndexTerm) :
    assigned (M.ids t) ((ofTerm t (netPostings changes)).map postingOf) = (Postings.perform changes M).ids t := by
  have hpath : ∀ c : PostingChange, (postingOf c.toPair).1 ≤ MAX_PATH := by
    intro c
    rw [PostingChange.toPair_eq]
    exact path_le c.recordId
  refine OrdSet.ext fun v => ?_
  rw [ids_perform, mem_assigned t _ _ (fun e he => by obtain ⟨c, -, rfl⟩ := mem_netPostings he; exact hpath c),
    mem_assigned t _ _ (fun e he => by obtain ⟨c, -, rfl⟩ := List.mem_map.mp he; exact hpath c), netPostings,
      lastOf_normalize]

end GolemDb.Index
