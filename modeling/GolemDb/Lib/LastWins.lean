import GolemDb.Lib.OrdMap

/-!
Batches of writes: a stable sort by key, the merge of neighbours with one key in which the last
write wins, and the cut of a sorted list into its runs.

`normalize` is the first two after one another. Its result has strictly ascending keys and holds,
under each key, the value of the last write of the batch (`mem_normalize`), so performing the
normalized batch is performing the batch (`foldl_update_normalize`). `chunkBy_eq` says that the
runs of a list sorted by `f` are its fibres over `f`, in ascending order.
-/

namespace GolemDb.Lib

section Normalize

variable {κ ν : Type} [LinearOrder κ]

/-- A stable sort by key, `sort_by_key`: equal keys keep their order. -/
def sortByKey (l : List (κ × ν)) : List (κ × ν) := l.insertionSort (fun a b => a.1 ≤ b.1)

/-- Merge `x` with the neighbours after it that have its key. -/
def dedupFrom (x : κ × ν) : List (κ × ν) → List (κ × ν)
  | [] => [x]
  | y :: l => if y.1 = x.1 then dedupFrom (x.1, y.2) l else x :: dedupFrom y l

/-- Merge neighbours with one key, `dedup_by`: the first keeps its place, and its value is
overwritten by each one that follows. -/
def dedupLast : List (κ × ν) → List (κ × ν)
  | [] => []
  | x :: l => dedupFrom x l

/-- The batch with one write per key, in ascending key order. -/
def normalize (l : List (κ × ν)) : List (κ × ν) := dedupLast (sortByKey l)

/-- The value of the last write of `k`. -/
def lastOf (l : List (κ × ν)) (k : κ) : Option ν :=
  ((l.filter (fun e => e.1 = k)).getLast?).map Prod.snd

lemma filter_orderedInsert (k : κ) (a : κ × ν) (l : List (κ × ν)) :
    (l.orderedInsert (fun a b => a.1 ≤ b.1) a).filter (fun e => e.1 = k) =
      (a :: l).filter (fun e => e.1 = k) := by
  induction l with
  | nil => rfl
  | cons b l ih =>
    rw [List.orderedInsert_cons]
    split_ifs with h
    · rfl
    · -- `b` stays in front of `a`, so `a` and `b` have different keys
      have hne : b.1 ≠ a.1 := ne_of_lt (not_le.mp h)
      rw [List.filter_cons, ih]
      by_cases hb : b.1 = k
      · have ha : a.1 ≠ k := fun ha => hne (hb.trans ha.symm)
        simp [hb, ha]
      · simp [List.filter_cons, hb]

/-- The sort is stable: the writes of one key keep their order. -/
lemma filter_sortByKey (k : κ) (l : List (κ × ν)) :
    (sortByKey l).filter (fun e => e.1 = k) = l.filter (fun e => e.1 = k) := by
  unfold sortByKey
  induction l with
  | nil => rfl
  | cons a l ih =>
    rw [List.insertionSort_cons, filter_orderedInsert, List.filter_cons, List.filter_cons, ih]

lemma lastOf_sortByKey (l : List (κ × ν)) (k : κ) : lastOf (sortByKey l) k = lastOf l k := by
  unfold lastOf
  rw [filter_sortByKey]

lemma sortByKey_sorted (l : List (κ × ν)) : (sortByKey l).Pairwise (fun a b => a.1 ≤ b.1) := by
  have : Std.Total (fun a b : κ × ν => a.1 ≤ b.1) := ⟨fun a b => le_total _ _⟩
  have : IsTrans (κ × ν) (fun a b => a.1 ≤ b.1) := ⟨fun a b c => le_trans⟩
  exact List.pairwise_insertionSort _ l

lemma lastOf_cons (x : κ × ν) (l : List (κ × ν)) (k : κ) :
    lastOf (x :: l) k = (lastOf l k).or (if x.1 = k then some x.2 else none) := by
  unfold lastOf
  by_cases h : x.1 = k
  · rw [List.filter_cons_of_pos (by simpa using h), if_pos h]
    cases hf : l.filter (fun e => e.1 = k) with
    | nil => simp
    | cons y t =>
      rw [List.getLast?_cons_cons]
      cases hg : (y :: t).getLast? with
      | none => simp at hg
      | some e => rfl
  · rw [List.filter_cons_of_neg (by simpa using h), if_neg h, Option.or_none]

lemma mem_of_lastOf {l : List (κ × ν)} {k : κ} {v : ν} (h : lastOf l k = some v) : (k, v) ∈ l := by
  obtain ⟨e, he, rfl⟩ := Option.map_eq_some_iff.mp h
  have hm := List.mem_of_getLast? he
  simp only [List.mem_filter, decide_eq_true_eq] at hm
  rw [← hm.2]
  exact hm.1

lemma lastOf_eq_none {l : List (κ × ν)} {k : κ} : lastOf l k = none ↔ ∀ e ∈ l, e.1 ≠ k := by
  simp [lastOf]

/-- What the merge of a sorted batch keeps: strictly ascending keys, each with its last value. -/
lemma dedupFrom_spec (x : κ × ν) (l : List (κ × ν))
    (h : (x :: l).Pairwise (fun a b => a.1 ≤ b.1)) :
    (dedupFrom x l).Pairwise (fun a b => a.1 < b.1) ∧
      ∀ k v, (k, v) ∈ dedupFrom x l ↔ lastOf (x :: l) k = some v := by
  induction l generalizing x with
  | nil =>
    refine ⟨by simp [dedupFrom], fun k v => ?_⟩
    rw [dedupFrom, lastOf_cons]
    by_cases hk : x.1 = k
    · subst hk
      simp [lastOf, Prod.ext_iff, eq_comm]
    · simp [lastOf, hk, Prod.ext_iff, Ne.symm hk]
  | cons y l ih =>
    obtain ⟨h1, h2⟩ := List.pairwise_cons.mp h
    rw [dedupFrom]
    split_ifs with hxy
    · have hs : ((x.1, y.2) :: l).Pairwise (fun a b => a.1 ≤ b.1) :=
        List.pairwise_cons.mpr
          ⟨fun e he => h1 e (List.mem_cons_of_mem _ he), (List.pairwise_cons.mp h2).2⟩
      obtain ⟨ih1, ih2⟩ := ih (x.1, y.2) hs
      refine ⟨ih1, fun k v => ?_⟩
      rw [ih2, lastOf_cons, lastOf_cons x, lastOf_cons y, hxy]
      by_cases hk : x.1 = k <;> cases lastOf l k <;> simp [hk]
    · obtain ⟨ih1, ih2⟩ := ih y h2
      have hlt : ∀ e ∈ y :: l, x.1 < e.1 := by
        intro e he
        have hy : x.1 < y.1 := lt_of_le_of_ne (h1 y (List.mem_cons_self ..)) (Ne.symm hxy)
        rcases List.mem_cons.mp he with rfl | he
        · exact hy
        · exact lt_of_lt_of_le hy ((List.pairwise_cons.mp h2).1 e he)
      refine ⟨List.pairwise_cons.mpr ⟨fun e he => ?_, ih1⟩, fun k v => ?_⟩
      · exact hlt (e.1, e.2) (mem_of_lastOf ((ih2 e.1 e.2).mp he))
      · rw [lastOf_cons, List.mem_cons, ih2]
        by_cases hk : x.1 = k
        · subst hk
          have hn : lastOf (y :: l) x.1 = none := lastOf_eq_none.mpr fun e he => (hlt e he).ne'
          simp [hn, Prod.ext_iff, eq_comm]
        · simp [hk, Prod.ext_iff, Ne.symm hk]

lemma dedupLast_spec (l : List (κ × ν)) (h : l.Pairwise (fun a b => a.1 ≤ b.1)) :
    (dedupLast l).Pairwise (fun a b => a.1 < b.1) ∧
      ∀ k v, (k, v) ∈ dedupLast l ↔ lastOf l k = some v := by
  cases l with
  | nil => simp [dedupLast, lastOf]
  | cons x l => exact dedupFrom_spec x l h

lemma normalize_sorted (l : List (κ × ν)) : (normalize l).Pairwise (fun a b => a.1 < b.1) :=
  (dedupLast_spec _ (sortByKey_sorted l)).1

/-- **The normalized batch holds the last write of each key.** -/
theorem mem_normalize {l : List (κ × ν)} {k : κ} {v : ν} :
    (k, v) ∈ normalize l ↔ lastOf l k = some v := by
  rw [normalize, (dedupLast_spec _ (sortByKey_sorted l)).2, lastOf_sortByKey]

lemma lastOf_of_sorted {l : List (κ × ν)} (h : l.Pairwise (fun a b => a.1 < b.1)) {k : κ} {v : ν} :
    lastOf l k = some v ↔ (k, v) ∈ l := by
  refine ⟨mem_of_lastOf, fun hm => ?_⟩
  cases hl : lastOf l k with
  | none => exact absurd rfl (lastOf_eq_none.mp hl _ hm)
  | some w =>
    have hw := OrdMap.mem_entries (m := ⟨l, h⟩).mp (mem_of_lastOf hl)
    have hv := OrdMap.mem_entries (m := ⟨l, h⟩).mp hm
    rw [← hw, hv]

lemma lastOf_normalize (l : List (κ × ν)) (k : κ) : lastOf (normalize l) k = lastOf l k := by
  apply Option.ext
  intro v
  rw [lastOf_of_sorted (normalize_sorted l), mem_normalize]

/-- A batch of point updates leaves under each key its last write. -/
lemma foldl_update [DecidableEq κ] (l : List (κ × ν)) (m : κ → ν) (k : κ) :
    (l.foldl (fun m e => Function.update m e.1 e.2) m) k = (lastOf l k).getD (m k) := by
  induction l generalizing m with
  | nil => rfl
  | cons x l ih =>
    rw [List.foldl_cons, ih, lastOf_cons]
    by_cases h : x.1 = k
    · subst h
      cases lastOf l x.1 <;> simp
    · cases lastOf l k <;> simp [h, Function.update_of_ne (Ne.symm h)]

/-- **Performing the normalized batch is performing the batch.** -/
theorem foldl_update_normalize [DecidableEq κ] (l : List (κ × ν)) (m : κ → ν) :
    (normalize l).foldl (fun m e => Function.update m e.1 e.2) m =
      l.foldl (fun m e => Function.update m e.1 e.2) m := by
  funext k
  rw [foldl_update, foldl_update, lastOf_normalize]

/-- A batch of sets leaves under each key its last write. -/
lemma get?_foldl_set_last (l : List (κ × Option ν)) (m : OrdMap κ ν) (k : κ) :
    (l.foldl (fun m e => m.set e.1 e.2) m).get? k = (lastOf l k).getD (m.get? k) := by
  induction l generalizing m with
  | nil => rfl
  | cons x l ih =>
    rw [List.foldl_cons, ih, lastOf_cons, OrdMap.get?_set]
    by_cases h : k = x.1
    · subst h
      cases lastOf l x.1 <;> simp
    · cases lastOf l k <;> simp [h, Ne.symm h]

/-- The normalized batch as a map. -/
lemma get?_normalize (l : List (κ × ν)) (k : κ) :
    (⟨normalize l, normalize_sorted l⟩ : OrdMap κ ν).get? k = lastOf l k := by
  refine Option.ext fun v => ?_
  rw [← OrdMap.mem_entries]
  exact mem_normalize

end Normalize

/-! ### Runs of a sorted list -/

section Chunks

variable {α κ : Type} [LinearOrder κ] (f : α → κ)

/-- The maximal runs of neighbours with one value of `f`, `chunk_by`. -/
def chunkBy (l : List α) : List (List α) := l.splitBy (fun a b => f a == f b)

lemma mem_of_chunkBy {l chunk : List α} {a : α} (hc : chunk ∈ chunkBy f l) (ha : a ∈ chunk) : a ∈ l := by
  rw [← List.flatten_splitBy (fun a b => f a == f b) l]
  exact List.mem_flatten_of_mem hc ha

lemma filter_append_filter_of_min {l : List α} (h : l.Pairwise (fun a b => f a ≤ f b)) (v : κ)
    (hv : ∀ x ∈ l, v ≤ f x) :
    l.filter (fun x => f x = v) ++ l.filter (fun x => f x ≠ v) = l := by
  induction l with
  | nil => rfl
  | cons x l ih =>
    obtain ⟨hx, hl⟩ := List.pairwise_cons.mp h
    have ih := ih hl (fun y hy => hv y (List.mem_cons_of_mem _ hy))
    by_cases he : f x = v
    · simp [he] at ih ⊢
      exact ih
    · have hlt : v < f x := lt_of_le_of_ne (hv x (List.mem_cons_self ..)) (Ne.symm he)
      have hno : ∀ y ∈ l, f y ≠ v := fun y hy => (lt_of_lt_of_le hlt (hx y hy)).ne'
      have h1 : (x :: l).filter (fun x => f x = v) = [] := by
        rw [List.filter_eq_nil_iff]
        intro y hy
        rcases List.mem_cons.mp hy with rfl | hy
        · simpa using he
        · simpa using hno y hy
      have h2 : (x :: l).filter (fun x => f x ≠ v) = x :: l := by
        rw [List.filter_eq_self]
        intro y hy
        rcases List.mem_cons.mp hy with rfl | hy
        · simpa using he
        · simpa using hno y hy
      rw [h1, h2, List.nil_append]

lemma flatten_fibres : ∀ (vs : List κ) (l : List α), vs.Pairwise (· < ·) →
    l.Pairwise (fun a b => f a ≤ f b) → (∀ x ∈ l, f x ∈ vs) →
    (vs.map fun v => l.filter (fun x => f x = v)).flatten = l := by
  intro vs
  induction vs with
  | nil =>
    intro l _ _ hmem
    cases l with
    | nil => rfl
    | cons x l => exact absurd (hmem x (List.mem_cons_self ..)) (by simp)
  | cons v vs ih =>
    intro l hvs hl hmem
    obtain ⟨hv, hvs⟩ := List.pairwise_cons.mp hvs
    have hmin : ∀ x ∈ l, v ≤ f x := by
      intro x hx
      rcases List.mem_cons.mp (hmem x hx) with h | h
      · exact h.ge
      · exact (hv _ h).le
    have hrest := ih (l.filter (fun x => f x ≠ v)) hvs (hl.filter _) (by
      intro x hx
      simp only [ne_eq, decide_not, List.mem_filter, Bool.not_eq_true', decide_eq_false_iff_not] at hx
      rcases List.mem_cons.mp (hmem x hx.1) with h | h
      · exact absurd h hx.2
      · exact h)
    have hfib : ∀ w ∈ vs, (l.filter (fun x => f x ≠ v)).filter (fun x => f x = w) =
        l.filter (fun x => f x = w) := by
      intro w hw
      rw [List.filter_filter]
      refine List.filter_congr fun x _ => ?_
      by_cases hx : f x = w
      · simp [hx, (hv w hw).ne']
      · simp [hx]
    rw [List.map_cons, List.flatten_cons, ← List.map_congr_left hfib, hrest]
    exact filter_append_filter_of_min f hl v hmin

/-- **The runs of a list sorted by `f` are its fibres**, in ascending order of the value. -/
theorem chunkBy_eq {l : List α} (h : l.Pairwise (fun a b => f a ≤ f b)) :
    ∃ vs : List κ, vs.Pairwise (· < ·) ∧ (∀ v, v ∈ vs ↔ ∃ x ∈ l, f x = v) ∧
      chunkBy f l = vs.map fun v => l.filter (fun x => f x = v) := by
  have hlt : (l.map f).dedup.Pairwise (· < ·) := by
    have hle : (l.map f).dedup.Pairwise (· ≤ ·) :=
      (List.pairwise_map.mpr h).sublist (List.dedup_sublist _)
    exact (hle.and (List.nodup_dedup (l.map f))).imp fun hab => lt_of_le_of_ne hab.1 hab.2
  refine ⟨(l.map f).dedup, hlt, by simp, ?_⟩
  have hne : ∀ v ∈ (l.map f).dedup, l.filter (fun x => f x = v) ≠ [] := by
    intro v hv
    obtain ⟨x, hx, rfl⟩ := List.mem_map.mp (List.mem_dedup.mp hv)
    intro hnil
    rw [List.filter_eq_nil_iff] at hnil
    exact hnil x hx (by simp)
  have hval : ∀ v, ∀ x ∈ l.filter (fun x => f x = v), f x = v := by
    intro v x hx
    simpa using (List.mem_filter.mp hx).2
  unfold chunkBy
  conv_lhs => rw [← flatten_fibres f _ l hlt h (fun x hx => by simpa using ⟨x, hx, rfl⟩)]
  refine List.splitBy_flatten ?_ ?_ ?_
  · intro hmem
    obtain ⟨v, hv, hnil⟩ := List.mem_map.mp hmem
    exact hne v hv hnil
  · intro m hm
    obtain ⟨v, hv, rfl⟩ := List.mem_map.mp hm
    refine List.Pairwise.isChain ?_
    refine List.pairwise_iff_forall_sublist.mpr fun {a b} hab => ?_
    have ha := hval v a (hab.subset (by simp))
    have hb := hval v b (hab.subset (by simp))
    simp [ha, hb]
  · refine List.Pairwise.isChain (List.pairwise_map.mpr ?_)
    refine List.Pairwise.imp_of_mem ?_ hlt
    intro v w hv hw hvw
    refine ⟨hne v hv, hne w hw, ?_⟩
    have h1 := hval v _ (List.getLast_mem (hne v hv))
    have h2 := hval w _ (List.head_mem (hne w hw))
    rw [h1, h2]
    simpa using hvw.ne

/-- From the first entry with a property to the last one lie only entries with it, when it is
kept between two entries that have it. -/
lemma trim_eq_filter {l : List α} {p : α → Bool}
    (h : ∀ a b c, [a, b, c].Sublist l → p a = true → p c = true → p b = true) :
    ((l.dropWhile (!p ·)).reverse.dropWhile (!p ·)).reverse = l.filter p := by
  induction l with
  | nil => rfl
  | cons a l ih =>
    have hl : ∀ x y z, [x, y, z].Sublist l → p x = true → p z = true → p y = true :=
      fun x y z hs => h x y z (hs.cons a)
    by_cases ha : p a = true
    · -- the first entry has it: what follows is a run of them, then none
      rw [List.dropWhile_cons_of_neg (by simp [ha]), List.filter_cons_of_pos ha]
      have hrun : ∀ l' : List α, l'.Sublist l →
          ((a :: l').reverse.dropWhile (!p ·)).reverse = a :: l'.filter p := by
        intro l'
        induction l' using List.reverseRecOn with
        | nil => simp [ha]
        | append_singleton l' b ihb =>
          intro hsub
          rw [← List.cons_append, List.reverse_append, List.reverse_singleton, List.singleton_append]
          by_cases hb : p b = true
          · rw [List.dropWhile_cons_of_neg (by simp [hb])]
            have hall : ∀ x ∈ l', p x = true := by
              intro x hx
              refine h a x b ?_ ha hb
              refine (List.Sublist.cons_cons a ?_)
              refine List.Sublist.trans ?_ hsub
              exact (List.singleton_sublist.mpr hx).append (List.Sublist.refl [b])
            rw [List.reverse_cons, List.reverse_reverse, List.filter_append, List.filter_eq_self.mpr hall]
            simp [hb]
          · rw [List.dropWhile_cons_of_pos (by simp [hb]),
              ihb ((List.sublist_append_left l' [b]).trans hsub), List.filter_append]
            simp [hb]
      exact hrun l (List.Sublist.refl l)
    · rw [List.dropWhile_cons_of_pos (by simp [ha]), List.filter_cons_of_neg ha, ih hl]

end Chunks

end GolemDb.Lib
