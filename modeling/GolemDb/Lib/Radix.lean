import GolemDb.Lib.LastWins

/-!
Compressed radix trees over an alphabet of `k` letters, and their canonical form.

A branch has a common string `pre` and one subtree per letter. `collapse` forms a branch and
removes it again when it has fewer than two nonempty subtrees: with none it is empty, a lone leaf
replaces it, and a lone branch absorbs its string. `canon n route m` is the tree of the partial map
`m` on the paths that extend `route` by `n` letters: one letter at a time, collapsed on the way.

The lemma behind every edit of such a tree is `canon_eq_collapse`: when all paths of `m` below
`route` begin with `pre`, the tree is the collapse of a branch with string `pre` over the trees one
letter further down. `canon_branch_inv` reads a canonical branch back, and `build_eq_canon` says
that grouping the sorted leaves at the first letter where they differ gives the same tree.
-/

namespace GolemDb.Lib

/-- A compressed radix tree with leaves in `β`. -/
inductive Radix (k : ℕ) (β : Type) where
  | empty
  | leaf (b : β)
  | branch (pre : List (Fin k)) (kids : Fin k → Radix k β)

namespace Radix

variable {k : ℕ} {β : Type}

def isEmpty : Radix k β → Bool
  | empty => true
  | _ => false

@[simp] lemma isEmpty_iff {t : Radix k β} : t.isEmpty = true ↔ t = empty := by
  cases t <;> simp [isEmpty]

lemma isEmpty_eq_false {t : Radix k β} : t.isEmpty = false ↔ t ≠ empty := by
  cases t <;> simp [isEmpty]

@[simp] lemma isEmpty_empty : (empty : Radix k β).isEmpty = true := rfl

/-- The letters with a nonempty subtree. -/
def active (kids : Fin k → Radix k β) : List (Fin k) :=
  (List.finRange k).filter fun s => !(kids s).isEmpty

/-- The branch with string `pre` over `kids`, kept free of branches with one subtree. -/
def collapse (pre : List (Fin k)) (kids : Fin k → Radix k β) : Radix k β :=
  match active kids with
  | [] => empty
  | [s] =>
    match kids s with
    | branch cp gk => branch (pre ++ s :: cp) gk
    | t => t
  | _ => branch pre kids

/-- The tree of `m` on the paths that extend `route` by `n` letters. -/
def canon : ℕ → List (Fin k) → (List (Fin k) → Option β) → Radix k β
  | 0, route, m => (m route).elim empty leaf
  | n + 1, route, m => collapse [] fun s => canon n (route ++ [s]) m

/-- The path `p` extends `route` by `n` letters. -/
def Below (n : ℕ) (route p : List (Fin k)) : Prop := ∃ q, q.length = n ∧ p = route ++ q

/-! ### Active letters -/

section Active

variable {kids : Fin k → Radix k β}

lemma mem_active {s : Fin k} : s ∈ active kids ↔ kids s ≠ empty := by
  simp [active, ← isEmpty_iff]

lemma active_nodup (kids : Fin k → Radix k β) : (active kids).Nodup := (List.nodup_finRange k).filter _

lemma active_eq_nil : active kids = [] ↔ ∀ s, kids s = empty := by
  rw [List.eq_nil_iff_forall_not_mem]
  simp [mem_active]

lemma active_eq_singleton {s : Fin k} :
    active kids = [s] ↔ kids s ≠ empty ∧ ∀ s', s' ≠ s → kids s' = empty := by
  constructor
  · intro h
    refine ⟨mem_active.mp (by simp [h]), fun s' hs' => ?_⟩
    by_contra hne
    exact hs' (by simpa [h] using mem_active.mpr hne)
  · rintro ⟨h1, h2⟩
    have hall : ∀ s' ∈ active kids, s' = s := fun s' hs' => by
      by_contra hne
      exact mem_active.mp hs' (h2 s' hne)
    have hrep := List.eq_replicate_of_mem hall
    have hmem : s ∈ active kids := mem_active.mpr h1
    have hle : (active kids).length ≤ 1 := by
      have hnd := active_nodup kids
      rw [hrep] at hnd
      exact List.nodup_replicate.mp hnd
    have hpos : 0 < (active kids).length := List.length_pos_of_mem hmem
    rw [hrep, show (active kids).length = 1 by omega]
    rfl

lemma two_le_active : 2 ≤ (active kids).length ↔
    ∃ s s', s ≠ s' ∧ kids s ≠ empty ∧ kids s' ≠ empty := by
  constructor
  · intro h
    match hact : active kids, h with
    | s :: s' :: l, _ =>
      have hnd := active_nodup kids
      rw [hact] at hnd
      refine ⟨s, s', fun he => ?_, mem_active.mp (by simp [hact]), mem_active.mp (by simp [hact])⟩
      simp [he] at hnd
  · rintro ⟨s, s', hne, h1, h2⟩
    have hsub : [s, s'].Subperm (active kids) := by
      refine List.subperm_of_subset (by simp [hne]) ?_
      intro x hx
      simp only [List.mem_cons, List.not_mem_nil, or_false] at hx
      rcases hx with rfl | rfl
      · exact mem_active.mpr h1
      · exact mem_active.mpr h2
    simpa using hsub.length_le

lemma exists_two_active (h : ∃ s s', s ≠ s' ∧ kids s ≠ empty ∧ kids s' ≠ empty) :
    ∃ s s' l, active kids = s :: s' :: l := by
  have hlen := two_le_active.mpr h
  cases hact : active kids with
  | nil => simp [hact] at hlen
  | cons s l =>
    cases l with
    | nil => simp [hact] at hlen
    | cons s' l => exact ⟨s, s', l, rfl⟩

/-- A family of subtrees has none, exactly one or at least two nonempty members. -/
lemma active_cases (kids : Fin k → Radix k β) :
    (∀ s, kids s = empty) ∨ (∃ s, kids s ≠ empty ∧ ∀ s', s' ≠ s → kids s' = empty) ∨
      ∃ s s', s ≠ s' ∧ kids s ≠ empty ∧ kids s' ≠ empty := by
  match h : active kids with
  | [] => exact Or.inl (active_eq_nil.mp h)
  | [s] => exact Or.inr (Or.inl ⟨s, active_eq_singleton.mp h⟩)
  | s :: s' :: l => exact Or.inr (Or.inr (two_le_active.mp (by simp [h])))

end Active

/-! ### Collapsing -/

section Collapse

variable {pre : List (Fin k)} {kids : Fin k → Radix k β}

lemma collapse_none (h : ∀ s, kids s = empty) : collapse pre kids = empty := by
  simp [collapse, active_eq_nil.mpr h]

lemma collapse_lone_leaf {s : Fin k} {b : β} (h : kids s = leaf b)
    (ho : ∀ s', s' ≠ s → kids s' = empty) : collapse pre kids = leaf b := by
  have ha := active_eq_singleton.mpr ⟨by simp [h], ho⟩
  simp [collapse, ha, h]

lemma collapse_lone_branch {s : Fin k} {cp : List (Fin k)} {gk : Fin k → Radix k β}
    (h : kids s = branch cp gk) (ho : ∀ s', s' ≠ s → kids s' = empty) :
    collapse pre kids = branch (pre ++ s :: cp) gk := by
  have ha := active_eq_singleton.mpr ⟨by simp [h], ho⟩
  simp [collapse, ha, h]

lemma collapse_many {s s' : Fin k} (hne : s ≠ s') (h : kids s ≠ empty) (h' : kids s' ≠ empty) :
    collapse pre kids = branch pre kids := by
  obtain ⟨x, y, l, hact⟩ := exists_two_active ⟨s, s', hne, h, h'⟩
  simp only [collapse, hact]

lemma collapse_eq_empty : collapse pre kids = empty ↔ ∀ s, kids s = empty := by
  refine ⟨fun h => ?_, collapse_none⟩
  rcases active_cases kids with h0 | ⟨s, hs, ho⟩ | ⟨s, s', hne, h1, h2⟩
  · exact h0
  · cases hk : kids s with
    | empty => exact absurd hk hs
    | leaf b => rw [collapse_lone_leaf hk ho] at h; cases h
    | branch cp gk => rw [collapse_lone_branch hk ho] at h; cases h
  · rw [collapse_many hne h1 h2] at h
    cases h

/-- Collapsing a branch whose only subtree is itself a collapse joins the two strings. -/
lemma collapse_collapse {x : Fin k} {sub : Fin k → Radix k β} (h : kids x = collapse pre sub)
    (ho : ∀ s', s' ≠ x → kids s' = empty) : collapse [] kids = collapse (x :: pre) sub := by
  rcases active_cases sub with h0 | ⟨s, hs, hso⟩ | ⟨s, s', hne, h1, h2⟩
  · rw [collapse_none h0] at h
    rw [collapse_none h0]
    refine collapse_none fun s' => ?_
    by_cases hx : s' = x
    · rw [hx, h]
    · exact ho s' hx
  · cases hk : sub s with
    | empty => exact absurd hk hs
    | leaf b =>
      rw [collapse_lone_leaf hk hso] at h
      rw [collapse_lone_leaf hk hso, collapse_lone_leaf h ho]
    | branch cp gk =>
      rw [collapse_lone_branch hk hso] at h
      rw [collapse_lone_branch hk hso, collapse_lone_branch h ho]
      simp
  · rw [collapse_many hne h1 h2] at h
    rw [collapse_many hne h1 h2, collapse_lone_branch h ho]
    simp

end Collapse

/-! ### Paths below a route -/

section Below

variable {n : ℕ} {route p : List (Fin k)}

lemma below_zero : Below 0 route p ↔ p = route := by
  constructor
  · rintro ⟨q, hq, rfl⟩
    simp [List.length_eq_zero_iff.mp hq]
  · rintro rfl
    exact ⟨[], rfl, by simp⟩

lemma below_succ : Below (n + 1) route p ↔ ∃ s, Below n (route ++ [s]) p := by
  constructor
  · rintro ⟨q, hq, rfl⟩
    cases q with
    | nil => simp at hq
    | cons s q => exact ⟨s, q, by simpa using hq, by simp⟩
  · rintro ⟨s, q, hq, rfl⟩
    exact ⟨s :: q, by simp [hq], by simp⟩

lemma below_append {j : ℕ} (pre : List (Fin k)) (hj : pre.length + j = n)
    (h : Below j (route ++ pre) p) : Below n route p := by
  obtain ⟨q, hq, rfl⟩ := h
  exact ⟨pre ++ q, by simp [hq, hj], by simp⟩

lemma Below.head_unique {s s' : Fin k} (h : Below n (route ++ [s]) p)
    (h' : Below n (route ++ [s']) p) : s = s' := by
  obtain ⟨q, -, rfl⟩ := h
  obtain ⟨q', -, he⟩ := h'
  simp only [List.append_assoc, List.append_cancel_left_eq, List.singleton_append,
    List.cons.injEq] at he
  exact he.1

lemma Below.of_isPrefix {L : ℕ} (hL : p.length = L) (h : route <+: p) :
    Below (L - route.length) route p := by
  obtain ⟨q, rfl⟩ := h
  exact ⟨q, by simp at hL; omega, rfl⟩

/-- The letter after the route says which way a path goes. -/
lemma Below.getElem?_eq_some (h : Below (n + 1) route p) {s : Fin k} :
    p[route.length]? = some s ↔ Below n (route ++ [s]) p := by
  obtain ⟨q, hq, rfl⟩ := h
  cases q with
  | nil => simp at hq
  | cons x q =>
    have hx : (route ++ x :: q)[route.length]? = some x := by simp
    rw [hx]
    constructor
    · rintro ⟨rfl⟩
      exact ⟨q, by simpa using hq, by simp⟩
    · rintro ⟨q', -, he⟩
      simp only [List.append_assoc, List.append_cancel_left_eq, List.singleton_append,
        List.cons.injEq] at he
      rw [he.1]

lemma Below.length_eq (h : Below n route p) : p.length = route.length + n := by
  obtain ⟨q, hq, rfl⟩ := h
  simp [hq]

lemma Below.take (h : Below n route p) : p.take route.length = route := by
  obtain ⟨q, -, rfl⟩ := h
  exact List.take_left' rfl

/-- The route and the letters after it, up to a depth. -/
lemma Below.route_append (h : Below n route p) {d : ℕ} (hd : route.length ≤ d) :
    route ++ (p.take d).drop route.length = p.take d := by
  have hr : (p.take d).take route.length = route := by
    rw [List.take_take, min_eq_left hd, h.take]
  calc route ++ (p.take d).drop route.length
      = (p.take d).take route.length ++ (p.take d).drop route.length := by rw [hr]
    _ = p.take d := List.take_append_drop ..

/-- A path that follows a prefix below the route lies below both. -/
lemma Below.follow {j : ℕ} {pre : List (Fin k)} (h : Below n route p) (hj : pre.length + j = n)
    (hp : pre <+: p.drop route.length) : Below j (route ++ pre) p := by
  obtain ⟨q, hq⟩ := hp
  refine ⟨q, ?_, ?_⟩
  · have hl := congrArg List.length hq
    rw [List.length_append, List.length_drop, h.length_eq] at hl
    omega
  · rw [List.append_assoc, hq]
    conv_lhs => rw [← List.take_append_drop route.length p, h.take]

lemma below_take {L : ℕ} (hL : p.length = L) (d : ℕ) : Below (L - d) (p.take d) p :=
  ⟨p.drop d, by simp [hL], (List.take_append_drop d p).symm⟩

lemma Below.isPrefix (h : Below n route p) : route <+: p := by
  obtain ⟨q, -, rfl⟩ := h
  exact List.prefix_append _ _

end Below

/-! ### The canonical tree -/

section Canon

variable {n : ℕ} {route : List (Fin k)} {m m' : List (Fin k) → Option β}

/-- The tree depends on the map below the route only. -/
lemma canon_congr (h : ∀ p, Below n route p → m p = m' p) : canon n route m = canon n route m' := by
  induction n generalizing route with
  | zero => simp [canon, h route (below_zero.mpr rfl)]
  | succ n ih =>
    simp only [canon]
    congr 1
    funext s
    exact ih fun p hp => h p (below_succ.mpr ⟨s, hp⟩)

lemma canon_eq_empty : canon n route m = empty ↔ ∀ p, Below n route p → m p = none := by
  induction n generalizing route with
  | zero =>
    simp only [canon, below_zero, forall_eq]
    cases m route <;> simp
  | succ n ih =>
    simp only [canon, collapse_eq_empty, ih, below_succ]
    constructor
    · rintro h p ⟨s, hs⟩
      exact h s p hs
    · exact fun h s p hp => h p ⟨s, hp⟩

/-- A map with one path below the route has a leaf for its tree. -/
lemma canon_single {p : List (Fin k)} {b : β} (hp : Below n route p) (hb : m p = some b)
    (ho : ∀ q, Below n route q → q ≠ p → m q = none) : canon n route m = leaf b := by
  induction n generalizing route with
  | zero =>
    rw [below_zero] at hp
    subst hp
    simp [canon, hb]
  | succ n ih =>
    obtain ⟨s, hs⟩ := below_succ.mp hp
    refine collapse_lone_leaf (ih hs fun q hq => ho q (below_succ.mpr ⟨s, hq⟩)) fun s' hne => ?_
    refine canon_eq_empty.mpr fun q hq => ho q (below_succ.mpr ⟨s', hq⟩) ?_
    rintro rfl
    exact hne (hq.head_unique hs)

/-- **A common string can be split off.** When every path of `m` below `route` begins with `pre`,
the tree is the collapse of a branch with string `pre` over the trees one letter further down. -/
theorem canon_eq_collapse {j : ℕ} {pre : List (Fin k)} (hj : pre.length + (j + 1) = n)
    (h : ∀ p, Below n route p → m p ≠ none → Below (j + 1) (route ++ pre) p) :
    canon n route m = collapse pre fun s => canon j (route ++ pre ++ [s]) m := by
  induction pre generalizing n route with
  | nil =>
    obtain rfl : n = j + 1 := by simpa using hj.symm
    simp [canon]
  | cons x pre ih =>
    obtain ⟨n, rfl⟩ : ∃ n', n = n' + 1 := ⟨pre.length + (j + 1), by simp at hj; omega⟩
    have hx : canon n (route ++ [x]) m =
        collapse pre fun s => canon j (route ++ [x] ++ pre ++ [s]) m := by
      refine ih (by simp at hj ⊢; omega) fun p hp hm => ?_
      simpa using h p (below_succ.mpr ⟨x, hp⟩) hm
    have ho : ∀ s', s' ≠ x → canon n (route ++ [s']) m = empty := by
      intro s' hne
      refine canon_eq_empty.mpr fun p hp => ?_
      by_contra hm
      have hb := h p (below_succ.mpr ⟨s', hp⟩) hm
      have hb' : Below n (route ++ [x]) p :=
        below_append (j := j + 1) pre (by simp at hj; omega) (by simpa using hb)
      exact hne (hp.head_unique hb')
    rw [canon, collapse_collapse hx ho]
    simp

/-- **What a canonical branch says**: its string is common to all paths of the map, its subtrees
are canonical, and two of them are nonempty. -/
theorem canon_branch_inv {pre : List (Fin k)} {kids : Fin k → Radix k β}
    (h : canon n route m = branch pre kids) :
    ∃ j, pre.length + (j + 1) = n ∧
      (∀ p, Below n route p → m p ≠ none → Below (j + 1) (route ++ pre) p) ∧
      (kids = fun s => canon j (route ++ pre ++ [s]) m) ∧
      ∃ s s', s ≠ s' ∧ kids s ≠ empty ∧ kids s' ≠ empty := by
  induction n generalizing route pre with
  | zero =>
    simp only [canon] at h
    cases hm : m route <;> simp [hm] at h
  | succ n ih =>
    rw [canon] at h
    rcases active_cases (fun s => canon n (route ++ [s]) m) with h0 | ⟨s, hs, ho⟩ | ⟨s, s', hne, h1, h2⟩
    · rw [collapse_none h0] at h
      cases h
    · cases hk : canon n (route ++ [s]) m with
      | empty => exact absurd hk hs
      | leaf b => rw [collapse_lone_leaf hk ho] at h; cases h
      | branch cp gk =>
        rw [collapse_lone_branch hk ho] at h
        obtain ⟨rfl, rfl⟩ : [] ++ s :: cp = pre ∧ gk = kids := by simpa using h
        obtain ⟨j, hj, hcom, hkids, htwo⟩ := ih hk
        refine ⟨j, by simp; omega, fun p hp hm => ?_, by simpa using hkids, htwo⟩
        obtain ⟨s', hs'⟩ := below_succ.mp hp
        by_cases hss : s' = s
        · subst hss
          simpa using hcom p hs' hm
        · exact absurd (canon_eq_empty.mp (ho s' hss) p hs') hm
    · rw [collapse_many hne h1 h2] at h
      obtain ⟨rfl, rfl⟩ : [] = pre ∧ (fun s => canon n (route ++ [s]) m) = kids := by simpa using h
      refine ⟨n, by simp, fun p hp _ => by simpa using hp, by simp, s, s', hne, h1, h2⟩

/-- **What a canonical leaf says**: the map has exactly one path below the route. -/
theorem canon_leaf_inv {b : β} (h : canon n route m = leaf b) :
    ∃ p, Below n route p ∧ m p = some b ∧ ∀ q, Below n route q → q ≠ p → m q = none := by
  induction n generalizing route with
  | zero =>
    simp only [canon] at h
    cases hm : m route with
    | none => simp [hm] at h
    | some b' =>
      obtain rfl : b' = b := by simpa [hm] using h
      exact ⟨route, below_zero.mpr rfl, hm, fun q hq hne => absurd (below_zero.mp hq) hne⟩
  | succ n ih =>
    rw [canon] at h
    rcases active_cases (fun s => canon n (route ++ [s]) m) with h0 | ⟨s, hs, ho⟩ | ⟨s, s', hne, h1, h2⟩
    · rw [collapse_none h0] at h
      cases h
    · cases hk : canon n (route ++ [s]) m with
      | empty => exact absurd hk hs
      | branch cp gk => rw [collapse_lone_branch hk ho] at h; cases h
      | leaf b' =>
        rw [collapse_lone_leaf hk ho] at h
        obtain rfl : b' = b := by simpa using h
        obtain ⟨p, hp, hm, huniq⟩ := ih hk
        refine ⟨p, below_succ.mpr ⟨s, hp⟩, hm, fun q hq hne => ?_⟩
        obtain ⟨s', hs'⟩ := below_succ.mp hq
        by_cases hss : s' = s
        · subst hss
          exact huniq q hs' hne
        · exact canon_eq_empty.mp (ho s' hss) q hs'
    · rw [collapse_many hne h1 h2] at h
      cases h

/-- Writing the only path of a map leaves the written leaf, or nothing. -/
lemma canon_update_lone {p : List (Fin k)} (v : Option β) (hp : Below n route p)
    (ho : ∀ q, Below n route q → q ≠ p → m q = none) :
    canon n route (Function.update m p v) = v.elim empty leaf := by
  have ho' : ∀ q, Below n route q → q ≠ p → Function.update m p v q = none := by
    intro q hq hne
    rw [Function.update_of_ne hne]
    exact ho q hq hne
  cases v with
  | none =>
    refine canon_eq_empty.mpr fun q hq => ?_
    by_cases hne : q = p
    · rw [hne, Function.update_self]
    · exact ho' q hq hne
  | some b => exact canon_single hp (Function.update_self ..) ho'

/-- A map whose paths share a string and then go two ways has a branch with two subtrees. -/
lemma canon_fork {j : ℕ} {pre : List (Fin k)} (hj : pre.length + (j + 1) = n) {a b : Fin k}
    (hab : a ≠ b) {ta tb : Radix k β} (hta : ta ≠ empty) (htb : tb ≠ empty)
    (ha : canon j (route ++ pre ++ [a]) m = ta) (hb : canon j (route ++ pre ++ [b]) m = tb)
    (ho : ∀ p, Below n route p → m p ≠ none →
      Below j (route ++ pre ++ [a]) p ∨ Below j (route ++ pre ++ [b]) p) :
    canon n route m = branch pre (Function.update (Function.update (fun _ => empty) a ta) b tb) := by
  have hkids : (fun s => canon j (route ++ pre ++ [s]) m)
      = Function.update (Function.update (fun _ => empty) a ta) b tb := by
    funext s
    by_cases hsb : s = b
    · rw [hsb, Function.update_self, hb]
    · rw [Function.update_of_ne hsb]
      by_cases hsa : s = a
      · rw [hsa, Function.update_self, ha]
      · rw [Function.update_of_ne hsa]
        refine canon_eq_empty.mpr fun p hp => ?_
        by_contra hm
        have hpn : Below n route p := by
          refine below_append (j := j + 1) pre hj (below_succ.mpr ⟨s, hp⟩)
        rcases ho p hpn hm with h | h
        · exact hsa (hp.head_unique h)
        · exact hsb (hp.head_unique h)
  rw [canon_eq_collapse hj, hkids]
  · refine collapse_many hab ?_ ?_
    · rwa [Function.update_of_ne hab, Function.update_self]
    · rwa [Function.update_self]
  · intro p hp hm
    rcases ho p hp hm with h | h
    · exact below_succ.mpr ⟨a, h⟩
    · exact below_succ.mpr ⟨b, h⟩

/-- Below the first letters of its string a canonical branch is the branch with the rest of it. -/
lemma canon_drop {pre : List (Fin k)} {kids : Fin k → Radix k β}
    (h : canon n route m = branch pre kids) {i : ℕ} (hi : i ≤ pre.length) :
    canon (n - i) (route ++ pre.take i) m = branch (pre.drop i) kids := by
  obtain ⟨j, hj, hcom, rfl, s, s', hne, hs, hs'⟩ := canon_branch_inv h
  have hsplit : route ++ pre.take i ++ pre.drop i = route ++ pre := by simp
  have hni : (pre.take i).length + (n - i) = n := by rw [List.length_take]; omega
  rw [canon_eq_collapse (by simp; omega : (pre.drop i).length + (j + 1) = n - i), hsplit]
  · exact collapse_many hne hs hs'
  · intro p hp hm
    rw [hsplit]
    exact hcom p (below_append (pre.take i) hni hp) hm

end Canon

end Radix

end GolemDb.Lib
