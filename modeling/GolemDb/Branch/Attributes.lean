import GolemDb.Branch.Seal
import GolemDb.Index.Commit

/-!
The index of a map of cells. An attribute stands under the term of its name, type and payload
(`mem_cellPostings`), so a term and a record id name one cell. The postings a seal derives from the
cells that changed lead from the index of the old map to that of the new one
(`perform_postingsOf`).
-/

namespace GolemDb.Branch

open GolemDb.Lib GolemDb.Storage GolemDb.Merkle GolemDb.Cells GolemDb.Index

/-! ### The term of a cell -/

/-- The term of an attribute; fields have none. -/
def attributeTerm (k : CellKey) (v : CellValue) : Option IndexTerm :=
  match term k (some v) with
  | .ok t => t
  | .error _ => none

section Term

variable {k k' : CellKey} {v v' : CellValue} {t : IndexTerm}

lemma term_eq_some : term k (some v) = .ok (some t) ↔
    v.indexable = true ∧ TermParts k.name v.ty v.value ∧ t.bytes = termBytes k.name v.ty v.value := by
  unfold term
  by_cases hi : v.indexable = true
  · simp only [hi, if_true, true_and]
    constructor
    · intro h
      obtain ⟨t', ht', h⟩ := bind_eq_ok.mp h
      obtain rfl := Option.some.inj (pure_eq_ok.mp h)
      exact IndexTerm.fromCellName_ok (mapError_eq_ok.mp ht')
    · rintro ⟨hparts, hbytes⟩
      obtain ⟨t', ht', hbytes'⟩ := IndexTerm.fromCellName_userName hparts.1 (show v.ty ≠ .bytes from hparts.2.1)
      obtain rfl : t' = t := IndexTerm.ext_bytes (hbytes'.trans hbytes.symm)
      rw [ht', mapError_ok, ok_bind]
      rfl
  · simp [hi]

lemma attributeTerm_eq_some : attributeTerm k v = some t ↔ term k (some v) = .ok (some t) := by
  unfold attributeTerm
  cases term k (some v) with
  | error e => simp
  | ok found => simp

/-- A user name makes a term of every attribute. -/
lemma term_userName (hn : v.indexable = true → UserName k.name) : term k (some v) = .ok (attributeTerm k v) := by
  by_cases hi : v.indexable = true
  · obtain ⟨t, -, hbytes⟩ := IndexTerm.fromCellName_userName (hn hi) (v.ordered hi)
    have ht : term k (some v) = .ok (some t) := term_eq_some.mpr ⟨hi, ⟨hn hi, v.ordered hi, v.valid⟩, hbytes⟩
    rw [ht, attributeTerm_eq_some.mpr ht]
  · have hnone : term k (some v) = .ok none := by
      unfold term
      simp [hi]
    unfold attributeTerm
    rw [hnone]

/-- A term has the name of its cell. -/
lemma name_eq_of_term (h : attributeTerm k v = some t) (h' : attributeTerm k' v' = some t) : k.name = k'.name := by
  obtain ⟨-, hp, hb⟩ := term_eq_some.mp (attributeTerm_eq_some.mp h)
  obtain ⟨-, hp', hb'⟩ := term_eq_some.mp (attributeTerm_eq_some.mp h')
  exact (IndexTerm.termBytes_inj hp.1 hp'.1 (hb.symm.trans hb')).1

/-- **A term and a record id name one cell.** -/
lemma key_eq_of_term (h : attributeTerm k v = some t) (h' : attributeTerm k' v' = some t)
    (hid : k.recordId = k'.recordId) : k = k' := by
  have hname := name_eq_of_term h h'
  cases k
  cases k'
  simp_all

end Term

/-! ### The index of a map -/

/-- Put a cell into the index. -/
def addCell (M : Postings) (e : CellKey × CellValue) : Postings :=
  match attributeTerm e.1 e.2 with
  | some t => M.assign (.add t e.1.recordId)
  | none => M

/-- **The index of a map of cells.** -/
def cellPostings (m : CellMap) : Postings := m.entries.foldl addCell Postings.empty

section Assign

variable {M : Postings} {t t' : IndexTerm} {r id : U64}

lemma mem_ids_add : r ∈ (M.assign (.add t' id)).ids t ↔ (t' = t ∧ r = id) ∨ r ∈ M.ids t := by
  have hids : (M.assign (.add t' id)).ids t = if t = t' then (M.ids t).assign id true else M.ids t :=
    Postings.ids_assign ..
  rw [hids]
  by_cases ht : t = t'
  · rw [if_pos ht, OrdSet.mem_assign]
    by_cases hr : r = id <;> simp [ht, hr]
  · rw [if_neg ht]
    simp [Ne.symm ht]

lemma mem_ids_remove : r ∈ (M.assign (.remove t' id)).ids t ↔ ¬ (t' = t ∧ r = id) ∧ r ∈ M.ids t := by
  have hids : (M.assign (.remove t' id)).ids t = if t = t' then (M.ids t).assign id false else M.ids t :=
    Postings.ids_assign ..
  rw [hids]
  by_cases ht : t = t'
  · rw [if_pos ht, OrdSet.mem_assign]
    by_cases hr : r = id <;> simp [ht, hr]
  · rw [if_neg ht]
    simp [Ne.symm ht]

lemma mem_ids_added (ta : Option IndexTerm) :
    r ∈ (Postings.perform (ta.map fun t => PostingChange.add t id).toList M).ids t ↔ (ta = some t ∧ r = id) ∨
      r ∈ M.ids t := by
  cases ta with
  | none => simp [Postings.perform]
  | some t' =>
    rw [Option.map_some, Option.toList_some, Postings.perform, List.foldl_cons, List.foldl_nil, mem_ids_add,
      Option.some.injEq]

lemma mem_ids_removed (tb : Option IndexTerm) :
    r ∈ (Postings.perform (tb.map fun t => PostingChange.remove t id).toList M).ids t ↔
      ¬ (tb = some t ∧ r = id) ∧ r ∈ M.ids t := by
  cases tb with
  | none => simp [Postings.perform]
  | some t' =>
    rw [Option.map_some, Option.toList_some, Postings.perform, List.foldl_cons, List.foldl_nil, mem_ids_remove,
      Option.some.injEq]

end Assign

lemma mem_foldl_addCell {t : IndexTerm} {r : U64} : ∀ (l : List (CellKey × CellValue)) (M : Postings),
    r ∈ (l.foldl addCell M).ids t ↔ (∃ e ∈ l, e.1.recordId = r ∧ attributeTerm e.1 e.2 = some t) ∨ r ∈ M.ids t := by
  intro l
  induction l with
  | nil => exact fun M => by simp
  | cons e l ih =>
    intro M
    have hstep : r ∈ (addCell M e).ids t ↔ (e.1.recordId = r ∧ attributeTerm e.1 e.2 = some t) ∨ r ∈ M.ids t := by
      unfold addCell
      cases ht : attributeTerm e.1 e.2 with
      | none => simp
      | some t' =>
        simp only
        rw [mem_ids_add, Option.some.injEq]
        exact or_congr_left ⟨fun h => ⟨h.2.symm, h.1⟩, fun h => ⟨h.2, h.1.symm⟩⟩
    rw [List.foldl_cons, ih, hstep, List.exists_mem_cons_iff, ← or_assoc]
    exact or_congr_left or_comm

/-- **The ids of a term** are the records with an attribute of that term. -/
theorem mem_cellPostings {m : CellMap} {t : IndexTerm} {r : U64} :
    r ∈ (cellPostings m).ids t ↔ ∃ k v, m.get? k = some v ∧ k.recordId = r ∧ attributeTerm k v = some t := by
  unfold cellPostings
  rw [mem_foldl_addCell, Postings.ids_empty]
  constructor
  · rintro (⟨e, he, hr, ht⟩ | hr)
    · exact ⟨e.1, e.2, OrdMap.mem_entries.mp he, hr, ht⟩
    · exact absurd hr (OrdSet.not_mem_empty r)
  · rintro ⟨k, v, hk, hr, ht⟩
    exact .inl ⟨(k, v), OrdMap.mem_entries.mpr hk, hr, ht⟩

/-! ### The postings of a seal -/

/-- The cell after a change is the only one that can stand under its term and id. -/
lemma mem_cellPostings_set {m : CellMap} {k : CellKey} {t : IndexTerm} {r : U64} (after : Option CellValue) :
    r ∈ (cellPostings (m.set k after)).ids t ↔ (r = k.recordId ∧ (after.bind (attributeTerm k)) = some t) ∨
      ((∃ j v, j ≠ k ∧ m.get? j = some v ∧ j.recordId = r ∧ attributeTerm j v = some t)) := by
  rw [mem_cellPostings]
  constructor
  · rintro ⟨j, v, hj, hr, ht⟩
    rw [OrdMap.get?_set] at hj
    split_ifs at hj with hjk
    · subst hjk
      exact .inl ⟨hr.symm, by rw [hj]; exact ht⟩
    · exact .inr ⟨j, v, hjk, hj, hr, ht⟩
  · rintro (⟨hr, ht⟩ | ⟨j, v, hjk, hj, hr, ht⟩)
    · obtain ⟨v, hv, ht⟩ := Option.bind_eq_some_iff.mp ht
      exact ⟨k, v, by rw [OrdMap.get?_set, if_pos rfl, hv], hr.symm, ht⟩
    · exact ⟨j, v, by rw [OrdMap.get?_set, if_neg hjk, hj], hr, ht⟩

/-- The postings of one cell lead from the index with the old value to that with the new one. -/
lemma perform_change {m : CellMap} {k : CellKey} {after : Option CellValue} {ps : List PostingChange}
    (h : postingsOfChange ⟨k, m.get? k, after⟩ = .ok ps) :
    Postings.perform ps (cellPostings m) = cellPostings (m.set k after) := by
  have hterm : ∀ {v : Option CellValue} {t : Option IndexTerm}, term k v = .ok t → v.bind (attributeTerm k) = t := by
    intro v t ht
    cases v with
    | none => exact Except.ok.inj ht
    | some v =>
      rw [Option.bind_some, attributeTerm, ht]
  obtain ⟨tb, htb, h⟩ := bind_eq_ok.mp h
  obtain ⟨ta, hta, h⟩ := bind_eq_ok.mp h
  have hb := hterm htb
  have ha := hterm hta
  have hold : ∀ t r, r ∈ (cellPostings m).ids t ↔ (r = k.recordId ∧ tb = some t) ∨
      ∃ j v, j ≠ k ∧ m.get? j = some v ∧ j.recordId = r ∧ attributeTerm j v = some t := by
    intro t r
    have hset := mem_cellPostings_set (m := m) (k := k) (t := t) (r := r) (m.get? k)
    rwa [OrdMap.set_self, hb] at hset
  have hnew : ∀ t r, r ∈ (cellPostings (m.set k after)).ids t ↔ (r = k.recordId ∧ ta = some t) ∨
      ∃ j v, j ≠ k ∧ m.get? j = some v ∧ j.recordId = r ∧ attributeTerm j v = some t := by
    intro t r
    rw [mem_cellPostings_set, ha]
  -- no other cell of the record has a term of this one
  have hother : ∀ {v : Option CellValue} {t r}, v.bind (attributeTerm k) = some t → r = k.recordId →
      ¬ ∃ j w, j ≠ k ∧ m.get? j = some w ∧ j.recordId = r ∧ attributeTerm j w = some t := by
    rintro v t r ht rfl ⟨j, w, hjk, -, hr, hw⟩
    obtain ⟨v', -, ht⟩ := Option.bind_eq_some_iff.mp ht
    exact hjk (key_eq_of_term hw ht hr)
  refine Postings.ext_ids fun t => OrdSet.ext fun r => ?_
  split_ifs at h with hsame
  · obtain rfl := pure_eq_ok.mp h
    rw [Postings.perform, List.foldl_nil, hold, hnew, show tb = ta from hsame]
  · obtain rfl := pure_eq_ok.mp h
    rw [Postings.perform_append, mem_ids_added, mem_ids_removed, hold, hnew]
    constructor
    · rintro (⟨ht, hr⟩ | ⟨hn, ⟨hr, ht⟩ | ho⟩)
      · exact .inl ⟨hr, ht⟩
      · exact absurd ⟨ht, hr⟩ hn
      · exact .inr ho
    · rintro (⟨hr, ht⟩ | ho)
      · exact .inl ⟨ht, hr⟩
      · exact .inr ⟨fun hx => hother (hb.trans hx.1) hx.2 ho, .inr ho⟩

/-- **The postings of the changed cells** lead from the index of the map to that of the map after them. -/
theorem perform_postings : ∀ (changed : List CellValueChange) (m : CellMap) (ps : List PostingChange),
    (changed.Pairwise fun a b => a.key < b.key) → (∀ c ∈ changed, c.before = m.get? c.key) →
      postingsOf changed = .ok ps →
    Postings.perform ps (cellPostings m) = cellPostings (changed.foldl (fun m c => m.set c.key c.after) m) := by
  suffices ∀ (changed : List CellValueChange) (m m₀ : CellMap) (acc ps : List PostingChange),
      (changed.Pairwise fun a b => a.key < b.key) → (∀ c ∈ changed, c.before = m.get? c.key) →
      Postings.perform acc (cellPostings m₀) = cellPostings m →
      changed.foldlM (fun acc change => do
        let postings ← postingsOfChange change
        return acc ++ postings) acc = .ok ps →
      Postings.perform ps (cellPostings m₀) = cellPostings (changed.foldl (fun m c => m.set c.key c.after) m) from
    fun changed m ps hsorted hbefore h => this changed m m [] ps hsorted hbefore rfl h
  intro changed
  induction changed with
  | nil =>
    intro m m₀ acc ps _ _ hacc h
    rw [← pure_eq_ok.mp h]
    exact hacc
  | cons c changed ih =>
    intro m m₀ acc ps hsorted hbefore hacc h
    obtain ⟨hlt, hsorted⟩ := List.pairwise_cons.mp hsorted
    rw [List.foldlM_cons] at h
    obtain ⟨acc', hstep, h⟩ := bind_eq_ok.mp h
    obtain ⟨postings, hpost, hstep⟩ := bind_eq_ok.mp hstep
    obtain rfl := pure_eq_ok.mp hstep
    have hc : c = ⟨c.key, m.get? c.key, c.after⟩ := by
      rw [← hbefore c (List.mem_cons_self ..)]
    rw [hc] at hpost
    refine ih (m.set c.key c.after) m₀ (acc ++ postings) ps hsorted (fun x hx => ?_) ?_ h
    · rw [OrdMap.get?_set, if_neg (hlt x hx).ne']
      exact hbefore x (List.mem_cons_of_mem _ hx)
    · rw [Postings.perform_append, hacc, perform_change hpost]

end GolemDb.Branch
