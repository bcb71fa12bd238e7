import GolemDb.Lib.OrdMap

/-!
A map with an overlay: the entries of the overlay set values or hide them, and keys without an
entry fall through. `overlay` is the map that shows; the merge of the two ordered lists of entries
lists it in order (`mergeOver_filter`).
-/

namespace GolemDb.Lib

section Over

variable {κ ν : Type} [LinearOrder κ]

namespace OrdMap

/-- The map with the overlay's entries set over it. -/
def overlay (base : OrdMap κ ν) (entries : OrdMap κ (Option ν)) : OrdMap κ ν :=
  entries.entries.foldl (fun m e => m.set e.1 e.2) base

lemma get?_foldl_set : ∀ (l : List (κ × Option ν)), l.Pairwise (fun a b => a.1 < b.1) →
    ∀ (base : OrdMap κ ν) (k : κ), (l.foldl (fun m e => m.set e.1 e.2) base).get? k =
      ((l.find? fun e => e.1 = k).map Prod.snd).getD (base.get? k) := by
  intro l
  induction l with
  | nil => intro _ base k; rfl
  | cons e l ih =>
    intro hl base k
    obtain ⟨he, hl⟩ := List.pairwise_cons.mp hl
    rw [List.foldl_cons, ih hl, get?_set]
    by_cases hk : e.1 = k
    · have hnone : l.find? (fun x => x.1 = k) = none := by
        rw [List.find?_eq_none]
        intro x hx
        simpa [← hk] using (ne_of_gt (he x hx))
      rw [List.find?_cons_of_pos (by simpa using hk), hnone, if_pos hk.symm]
      rfl
    · rw [List.find?_cons_of_neg (by simpa using hk), if_neg (Ne.symm hk)]

/-- Entries that change nothing can be left out. -/
lemma foldl_set_filter (p : κ × Option ν → Bool) : ∀ (l : List (κ × Option ν)),
    l.Pairwise (fun a b => a.1 < b.1) → ∀ base : OrdMap κ ν,
    (∀ e ∈ l, p e = false → base.get? e.1 = e.2) →
    (l.filter p).foldl (fun m e => m.set e.1 e.2) base = l.foldl (fun m e => m.set e.1 e.2) base := by
  intro l
  induction l with
  | nil => exact fun _ _ _ => rfl
  | cons e l ih =>
    intro hl base h
    obtain ⟨he, hl⟩ := List.pairwise_cons.mp hl
    have htail : ∀ x ∈ l, p x = false → (base.set e.1 e.2).get? x.1 = x.2 := by
      intro x hx hp
      rw [get?_set, if_neg (ne_of_gt (he x hx))]
      exact h x (List.mem_cons_of_mem _ hx) hp
    by_cases hp : p e = true
    · rw [List.filter_cons_of_pos hp, List.foldl_cons, List.foldl_cons]
      exact ih hl _ htail
    · have hself : base.set e.1 e.2 = base := by
        rw [← h e (List.mem_cons_self ..) (by simpa using hp), set_self]
      rw [List.filter_cons_of_neg hp, List.foldl_cons, hself]
      exact ih hl _ (hself ▸ htail)

theorem get?_overlay (base : OrdMap κ ν) (entries : OrdMap κ (Option ν)) (k : κ) :
    (base.overlay entries).get? k = (entries.get? k).getD (base.get? k) :=
  get?_foldl_set entries.entries entries.sorted base k

/-- Insertions of distinct keys into an empty map. -/
lemma get?_foldl_insert : ∀ (l : List (κ × ν)), (l.map Prod.fst).Nodup → ∀ (base : OrdMap κ ν) (k : κ) (v : ν),
    (l.foldl (fun m e => m.insert e.1 e.2) base).get? k = some v ↔
      (k, v) ∈ l ∨ k ∉ l.map Prod.fst ∧ base.get? k = some v := by
  intro l
  induction l with
  | nil => intro _ base k v; simp
  | cons e l ih =>
    intro hl base k v
    obtain ⟨he, hl⟩ := List.nodup_cons.mp hl
    rw [List.foldl_cons, ih hl, get?_insert, List.map_cons, List.mem_cons, List.mem_cons, not_or]
    by_cases hk : k = e.1
    · subst hk
      have hnot : (e.1, v) ∉ l := fun hm => he (List.mem_map.mpr ⟨_, hm, rfl⟩)
      simp only [hnot, he, not_false_eq_true, if_true, Option.some.injEq, true_and, false_or, or_false,
        not_true_eq_false, false_and]
      exact ⟨fun h => Prod.ext rfl h.symm, fun h => (congrArg Prod.snd h).symm⟩
    · have hne : (k, v) ≠ e := fun h => hk (congrArg Prod.fst h)
      simp [hk, hne]

lemma overlay_insert (base : OrdMap κ ν) (entries : OrdMap κ (Option ν)) (k : κ) (v : Option ν) :
    base.overlay (entries.insert k v) = (base.overlay entries).set k v := by
  refine ext_get fun j => ?_
  rw [get?_overlay, get?_insert, get?_set, get?_overlay]
  by_cases h : j = k <;> simp [h]

end OrdMap

/-! ### The merge -/

/-- Merge one entry of the origin with the overlay; `rest` merges the entries after it. -/
def mergeEntry (e : κ × ν) (rest : List (κ × Option ν) → List (κ × ν)) :
    List (κ × Option ν) → List (κ × ν)
  | [] => e :: rest []
  | (k, v) :: overlay =>
    if e.1 < k then e :: rest ((k, v) :: overlay)
    else if e.1 = k then (v.map (Prod.mk k)).toList ++ rest overlay
    else (v.map (Prod.mk k)).toList ++ mergeEntry e rest overlay

/-- Merge the entries of a map with those of an overlay. -/
def mergeOver : List (κ × ν) → List (κ × Option ν) → List (κ × ν)
  | [], overlay => overlay.flatMap fun e => (e.2.map (Prod.mk e.1)).toList
  | e :: origin, overlay => mergeEntry e (mergeOver origin) overlay

/-- What the merge of ordered lists yields: ordered entries, those of the origin without an
entry of the overlay and the overlay's values. -/
lemma mergeOver_spec : ∀ (origin : List (κ × ν)) (overlay : List (κ × Option ν)),
    origin.Pairwise (fun a b => a.1 < b.1) → overlay.Pairwise (fun a b => a.1 < b.1) →
    (mergeOver origin overlay).Pairwise (fun a b => a.1 < b.1) ∧
      ∀ k v, (k, v) ∈ mergeOver origin overlay ↔
        (k, some v) ∈ overlay ∨ (k, v) ∈ origin ∧ ∀ w, (k, w) ∉ overlay := by
  intro origin
  induction origin with
  | nil =>
    intro overlay _ ho
    have hmem : ∀ k v, (k, v) ∈ mergeOver [] overlay ↔ (k, some v) ∈ overlay := by
      intro k v
      rw [mergeOver, List.mem_flatMap]
      constructor
      · rintro ⟨⟨k', w⟩, he, hm⟩
        cases w with
        | none => simp at hm
        | some w =>
          obtain ⟨rfl, rfl⟩ : k = k' ∧ v = w := by simpa using hm
          exact he
      · intro h
        exact ⟨_, h, by simp⟩
    refine ⟨?_, fun k v => by simp [hmem]⟩
    rw [mergeOver, List.pairwise_flatMap]
    refine ⟨fun e _ => by cases e.2 <;> simp, ho.imp fun hab x hx y hy => ?_⟩
    rename_i a b
    cases ha : a.2 <;> cases hb : b.2 <;> simp_all
  | cons e origin ih =>
    intro overlay hor
    obtain ⟨heor, hor⟩ := List.pairwise_cons.mp hor
    show _ → (mergeEntry e (mergeOver origin) overlay).Pairwise _ ∧ ∀ k v,
      (k, v) ∈ mergeEntry e (mergeOver origin) overlay ↔ _
    induction overlay with
    | nil =>
      intro _
      obtain ⟨hs, hm⟩ := ih [] hor List.Pairwise.nil
      refine ⟨List.pairwise_cons.mpr ⟨fun x hx => heor x (by simpa using (hm x.1 x.2).mp hx), hs⟩, ?_⟩
      intro k v
      rw [mergeEntry, List.mem_cons, hm]
      simp
    | cons s overlay ihs =>
      intro ho
      obtain ⟨k₀, v₀⟩ := s
      obtain ⟨hk₀, ho'⟩ := List.pairwise_cons.mp ho
      -- a key of the overlay's tail, or of the origin below it, comes after the overlay's head
      have hnot : ∀ {k w}, k ≤ k₀ → (k, w) ∉ overlay := fun hle hw => absurd (hk₀ _ hw) (not_lt.mpr hle)
      rw [mergeEntry]
      by_cases hlt : e.1 < k₀
      · obtain ⟨hs, hm⟩ := ih ((k₀, v₀) :: overlay) hor ho
        rw [if_pos hlt]
        refine ⟨List.pairwise_cons.mpr ⟨fun x hx => ?_, hs⟩, fun k v => ?_⟩
        · rcases (hm x.1 x.2).mp hx with h | ⟨h, -⟩
          · rcases List.mem_cons.mp h with h | h
            · rw [(Prod.mk.inj h).1]
              exact hlt
            · exact lt_trans hlt (hk₀ _ h)
          · exact heor x h
        · rw [List.mem_cons, hm]
          constructor
          · rintro (h | h | ⟨h, h'⟩)
            · refine .inr ⟨List.mem_cons.mpr (.inl h), fun w hw => ?_⟩
              have hke : k = e.1 := congrArg Prod.fst h
              rcases List.mem_cons.mp hw with h2 | h2
              · exact absurd hlt (by rw [← hke, (Prod.mk.inj h2).1]; exact lt_irrefl _)
              · exact hnot (by rw [hke]; exact le_of_lt hlt) h2
            · exact .inl h
            · exact .inr ⟨List.mem_cons_of_mem _ h, h'⟩
          · rintro (h | ⟨h, h'⟩)
            · exact .inr (.inl h)
            · rcases List.mem_cons.mp h with h | h
              · exact .inl h
              · exact .inr (.inr ⟨h, h'⟩)
      · rw [if_neg hlt]
        by_cases heq : e.1 = k₀
        · obtain ⟨hs, hm⟩ := ih overlay hor ho'
          rw [if_pos heq]
          refine ⟨List.pairwise_append.mpr ⟨by cases v₀ <;> simp, hs, ?_⟩, fun k v => ?_⟩
          · intro x hx y hy
            obtain ⟨w, -, rfl⟩ : ∃ w, v₀ = some w ∧ x = (k₀, w) := by cases v₀ <;> simp_all
            rcases (hm y.1 y.2).mp hy with h | ⟨h, -⟩
            · exact hk₀ _ h
            · rw [← heq]
              exact heor y h
          · rw [List.mem_append, hm]
            constructor
            · rintro (h | h | ⟨h, h'⟩)
              · exact .inl (List.mem_cons.mpr (.inl (by cases v₀ <;> simp_all)))
              · exact .inl (List.mem_cons_of_mem _ h)
              · refine .inr ⟨List.mem_cons_of_mem _ h, fun w hw => ?_⟩
                rcases List.mem_cons.mp hw with h2 | h2
                · have := heor _ h
                  rw [heq] at this
                  exact absurd this (by rw [(Prod.mk.inj h2).1]; exact lt_irrefl _)
                · exact h' w h2
            · rintro (h | ⟨h, h'⟩)
              · rcases List.mem_cons.mp h with h | h
                · exact .inl (by obtain ⟨rfl, rfl⟩ := Prod.mk.inj h; simp)
                · exact .inr (.inl h)
              · rcases List.mem_cons.mp h with h | h
                · exact absurd (by rw [← heq, ← h]; exact List.mem_cons_self ..) (h' v₀)
                · exact .inr (.inr ⟨h, fun w hw => h' w (List.mem_cons_of_mem _ hw)⟩)
        · obtain ⟨hs, hm⟩ := ihs ho'
          have hgt : k₀ < e.1 := lt_of_le_of_ne (not_lt.mp hlt) (Ne.symm heq)
          rw [if_neg heq]
          refine ⟨List.pairwise_append.mpr ⟨by cases v₀ <;> simp, hs, ?_⟩, fun k v => ?_⟩
          · intro x hx y hy
            obtain ⟨w, -, rfl⟩ : ∃ w, v₀ = some w ∧ x = (k₀, w) := by cases v₀ <;> simp_all
            rcases (hm y.1 y.2).mp hy with h | ⟨h, -⟩
            · exact hk₀ _ h
            · rcases List.mem_cons.mp h with h | h
              · rw [← h] at hgt
                exact hgt
              · exact lt_trans hgt (heor y h)
          · rw [List.mem_append, hm]
            constructor
            · rintro (h | h | ⟨h, h'⟩)
              · exact .inl (List.mem_cons.mpr (.inl (by cases v₀ <;> simp_all)))
              · exact .inl (List.mem_cons_of_mem _ h)
              · refine .inr ⟨h, fun w hw => ?_⟩
                rcases List.mem_cons.mp hw with h2 | h2
                · have hlow : k₀ < k := by
                    rcases List.mem_cons.mp h with h | h
                    · rw [← h] at hgt
                      exact hgt
                    · exact lt_trans hgt (heor _ h)
                  exact absurd hlow (by rw [(Prod.mk.inj h2).1]; exact lt_irrefl _)
                · exact h' w h2
            · rintro (h | ⟨h, h'⟩)
              · rcases List.mem_cons.mp h with h | h
                · exact .inl (by obtain ⟨rfl, rfl⟩ := Prod.mk.inj h; simp)
                · exact .inr (.inl h)
              · exact .inr (.inr ⟨h, fun w hw => h' w (List.mem_cons_of_mem _ hw)⟩)

/-- **The merge lists the map that shows**, also when only the keys with a property are merged. -/
theorem mergeOver_filter (base : OrdMap κ ν) (entries : OrdMap κ (Option ν)) (q : κ → Bool) :
    mergeOver (base.entries.filter fun e => q e.1) (entries.entries.filter fun e => q e.1)
      = (base.overlay entries).entries.filter fun e => q e.1 := by
  obtain ⟨hs, hm⟩ := mergeOver_spec (base.entries.filter fun e => q e.1)
    (entries.entries.filter fun e => q e.1) (base.sorted.filter _) (entries.sorted.filter _)
  refine OrdMap.eq_of_sorted hs ((base.overlay entries).sorted.filter _) fun ⟨k, v⟩ => ?_
  simp only [hm, List.mem_filter, OrdMap.mem_entries, OrdMap.get?_overlay]
  cases hk : entries.get? k with
  | none => simp
  | some w => cases hq : q k <;> simp

end Over

end GolemDb.Lib
