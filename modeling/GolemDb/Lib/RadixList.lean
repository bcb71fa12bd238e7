import GolemDb.Lib.Radix

/-!
Radix trees and sorted lists of leaves: the leaves of a tree from left to right, and the tree of a
sorted list of leaves, grouped at the first letter where the first and the last leaf differ.
-/

namespace GolemDb.Lib

/-! ### The first difference of two lists -/

section FirstDiff

variable {α : Type} [DecidableEq α]

/-- The first index from `lo` on, below `hi`, at which two lists differ. -/
def firstDiff (a b : List α) (lo hi : ℕ) : Option ℕ :=
  (List.range' lo (hi - lo)).find? fun i => a[i]? ≠ b[i]?

lemma firstDiff_spec {a b : List α} (lo : ℕ) {hi : ℕ} (ha : a.length = hi) (hb : b.length = hi)
    (hlo : a.take lo = b.take lo) (hne : a ≠ b) :
    ∃ d, firstDiff a b lo hi = some d ∧ lo ≤ d ∧ d < hi ∧ a.take d = b.take d ∧ a[d]? ≠ b[d]? := by
  have hex : ∃ i ∈ List.range' lo (hi - lo), a[i]? ≠ b[i]? := by
    by_contra hall
    push Not at hall
    refine hne (List.ext_getElem? fun i => ?_)
    by_cases hi' : i < lo
    · have := congrArg (fun l => l[i]?) hlo
      simpa [List.getElem?_take, hi'] using this
    · by_cases hhi : i < hi
      · exact hall i (by simp; omega)
      · rw [List.getElem?_eq_none (by omega), List.getElem?_eq_none (by omega)]
  cases hf : firstDiff a b lo hi with
  | none =>
    obtain ⟨i, hi', hd⟩ := hex
    exact absurd hd (by simpa using (List.find?_eq_none.mp hf) i hi')
  | some d =>
    have hmem := List.mem_of_find?_eq_some hf
    have hd : a[d]? ≠ b[d]? := by simpa using List.find?_some hf
    obtain ⟨-, pre, post, hsplit, hpre⟩ := List.find?_eq_some_iff_append.mp hf
    simp only [List.mem_range'_1] at hmem
    refine ⟨d, rfl, hmem.1, by omega, ?_, hd⟩
    refine List.ext_getElem? fun i => ?_
    simp only [List.getElem?_take]
    by_cases hid : i < d
    · rw [if_pos hid, if_pos hid]
      by_cases hilo : i < lo
      · have := congrArg (fun l => l[i]?) hlo
        simpa [List.getElem?_take, hilo] using this
      · -- `i` comes before `d` in the range, so the search has passed it
        have hin : i ∈ pre := by
          have hsorted : (pre ++ d :: post).Pairwise (· < ·) := by
            rw [← hsplit]
            exact List.pairwise_lt_range'
          have hi' : i ∈ pre ++ d :: post := by
            rw [← hsplit]
            simp
            omega
          rcases List.mem_append.mp hi' with h | h
          · exact h
          · rcases List.mem_cons.mp h with rfl | h
            · omega
            · have := (List.pairwise_cons.mp (List.pairwise_append.mp hsorted).2.1).1 i h
              omega
        simpa using hpre i hin
    · rw [if_neg hid, if_neg hid]

/-- The letters two lists share at their start. -/
lemma zip_takeWhile_spec (a b : List α) :
    ((a.zip b).takeWhile fun e => e.1 = e.2).length ≤ a.length ∧
      a.take ((a.zip b).takeWhile fun e => e.1 = e.2).length
        = b.take ((a.zip b).takeWhile fun e => e.1 = e.2).length ∧
      (((a.zip b).takeWhile fun e => e.1 = e.2).length < a.length →
        a[((a.zip b).takeWhile fun e => e.1 = e.2).length]?
          ≠ b[((a.zip b).takeWhile fun e => e.1 = e.2).length]?) := by
  induction a generalizing b with
  | nil => simp
  | cons x a ih =>
    cases b with
    | nil => simp
    | cons y b =>
      by_cases hxy : x = y
      · subst hxy
        obtain ⟨h1, h2, h3⟩ := ih b
        simp only [List.zip_cons_cons, List.takeWhile_cons, decide_true, if_true, List.length_cons,
          List.take_succ_cons, List.getElem?_cons_succ, List.cons.injEq, true_and]
        exact ⟨by omega, h2, fun h => h3 (by omega)⟩
      · simp [hxy]

end FirstDiff

/-- A list between two lists with a common beginning has it too. -/
lemma take_eq_of_between {α : Type} [LinearOrder α] {a x b : List α} (hax : a < x) (hxb : x < b)
    {d : ℕ} (hla : d ≤ a.length) (hlx : d ≤ x.length) (hd : a.take d = b.take d) :
    x.take d = a.take d := by
  induction d generalizing a x b with
  | zero => simp
  | succ d ih =>
    match a, x, b, hla, hlx, hd with
    | α₁ :: a, ξ :: x, [], _, _, hd => simp at hd
    | α₁ :: a, ξ :: x, β₁ :: b, hla, hlx, hd =>
      simp only [List.take_succ_cons, List.cons.injEq] at hd ⊢
      obtain ⟨rfl, hd⟩ := hd
      rw [List.cons_lt_cons_iff] at hax hxb
      rcases hax with h1 | ⟨rfl, h1⟩
      · rcases hxb with h2 | ⟨rfl, -⟩
        · exact absurd (lt_trans h1 h2) (lt_irrefl _)
        · exact absurd h1 (lt_irrefl _)
      · rcases hxb with h2 | ⟨-, h2⟩
        · exact absurd h2 (lt_irrefl _)
        · exact ⟨rfl, ih h1 h2 (by simpa using hla) (by simpa using hlx) hd⟩

namespace Radix

variable {k : ℕ} {β : Type}

/-! ### Leaves from left to right -/

/-- The leaves of a tree, in the order of their letters. -/
def leaves : Radix k β → List β
  | empty => []
  | leaf b => [b]
  | branch _ kids => (List.finRange k).flatMap fun s => (kids s).leaves

/-- The paths that extend `route` by `n` letters, in ascending order. -/
def allPaths : ℕ → List (Fin k) → List (List (Fin k))
  | 0, route => [route]
  | n + 1, route => (List.finRange k).flatMap fun s => allPaths n (route ++ [s])

lemma flatMap_eq_lone {α γ : Type} {l : List α} (hnd : l.Nodup) {g : α → List γ} {s : α} (hs : s ∈ l)
    (ho : ∀ x ∈ l, x ≠ s → g x = []) : l.flatMap g = g s := by
  induction l with
  | nil => simp at hs
  | cons x l ih =>
    obtain ⟨hx, hl⟩ := List.nodup_cons.mp hnd
    rw [List.flatMap_cons]
    by_cases hxs : x = s
    · subst hxs
      have : l.flatMap g = [] := by
        rw [List.flatMap_eq_nil_iff]
        intro y hy
        exact ho y (List.mem_cons_of_mem _ hy) (fun h => hx (h ▸ hy))
      rw [this, List.append_nil]
    · have hsl : s ∈ l := by
        rcases List.mem_cons.mp hs with h | h
        · exact absurd h.symm hxs
        · exact h
      rw [ho x (List.mem_cons_self ..) hxs, List.nil_append,
        ih hl hsl fun y hy => ho y (List.mem_cons_of_mem _ hy)]

/-- Empty subtrees have no leaves. -/
lemma flatMap_active (kids : Fin k → Radix k β) :
    (active kids).flatMap (fun s => (kids s).leaves)
      = (List.finRange k).flatMap fun s => (kids s).leaves := by
  unfold active
  induction List.finRange k with
  | nil => rfl
  | cons s l ih =>
    rw [List.filter_cons]
    by_cases hk : kids s = empty
    · simp [hk, ih, leaves]
    · simp [isEmpty_eq_false.mpr hk, ih]

lemma leaves_collapse (pre : List (Fin k)) (kids : Fin k → Radix k β) :
    (collapse pre kids).leaves = (List.finRange k).flatMap fun s => (kids s).leaves := by
  rcases active_cases kids with h0 | ⟨s, hs, ho⟩ | ⟨s, s', hne, h1, h2⟩
  · rw [collapse_none h0]
    simp [leaves, h0]
  · have hlone : (List.finRange k).flatMap (fun s => (kids s).leaves) = (kids s).leaves :=
      flatMap_eq_lone (List.nodup_finRange k) (List.mem_finRange s)
        fun x _ hx => by rw [ho x hx, leaves]
    rw [hlone]
    cases hk : kids s with
    | empty => exact absurd hk hs
    | leaf b => rw [collapse_lone_leaf hk ho]
    | branch cp gk => rw [collapse_lone_branch hk ho, leaves, leaves]
  · rw [collapse_many hne h1 h2, leaves]

lemma leaves_canon (n : ℕ) (route : List (Fin k)) (m : List (Fin k) → Option β) :
    (canon n route m).leaves = (allPaths n route).filterMap m := by
  induction n generalizing route with
  | zero => cases h : m route <;> simp [canon, allPaths, leaves, h]
  | succ n ih =>
    rw [canon, leaves_collapse, allPaths, List.filterMap_flatMap]
    exact List.flatMap_congr fun s _ => ih _

lemma mem_allPaths {n : ℕ} {route p : List (Fin k)} : p ∈ allPaths n route ↔ Below n route p := by
  induction n generalizing route with
  | zero => simp [allPaths, below_zero]
  | succ n ih => simp [allPaths, below_succ, ih]

lemma append_cons_lt {route : List (Fin k)} {s s' : Fin k} (h : s < s') (q q' : List (Fin k)) :
    route ++ [s] ++ q < route ++ [s'] ++ q' := by
  induction route with
  | nil => simpa [List.cons_lt_cons_iff] using Or.inl h
  | cons x route ih => simpa [List.cons_lt_cons_iff] using ih

lemma allPaths_sorted (n : ℕ) (route : List (Fin k)) : (allPaths n route).Pairwise (· < ·) := by
  induction n generalizing route with
  | zero => simp [allPaths]
  | succ n ih =>
    rw [allPaths, List.pairwise_flatMap]
    refine ⟨fun s _ => ih _, ?_⟩
    refine List.Pairwise.imp ?_ (List.pairwise_lt_finRange k)
    intro s s' hlt p hp q hq
    obtain ⟨p', -, rfl⟩ := mem_allPaths.mp hp
    obtain ⟨q', -, rfl⟩ := mem_allPaths.mp hq
    exact append_cons_lt hlt p' q'

/-! ### The tree of a sorted list of leaves -/

section Build

variable (key : β → List (Fin k))

/-- The leaf with path `p`. -/
def findLeaf (ls : List β) (p : List (Fin k)) : Option β := ls.find? fun b => key b = p

lemma findLeaf_eq_some {ls : List β} (h : ls.Pairwise fun a b => key a < key b) {p : List (Fin k)}
    {b : β} : findLeaf key ls p = some b ↔ b ∈ ls ∧ key b = p := by
  unfold findLeaf
  constructor
  · intro hf
    exact ⟨List.mem_of_find?_eq_some hf, by simpa using List.find?_some hf⟩
  · rintro ⟨hb, rfl⟩
    induction ls with
    | nil => simp at hb
    | cons x ls ih =>
      obtain ⟨hx, hls⟩ := List.pairwise_cons.mp h
      rcases List.mem_cons.mp hb with rfl | hb
      · simp
      · rw [List.find?_cons_of_neg (by simpa using (hx b hb).ne)]
        exact ih hls hb

lemma findLeaf_eq_none {ls : List β} {p : List (Fin k)} :
    findLeaf key ls p = none ↔ ∀ b ∈ ls, key b ≠ p := by
  simp [findLeaf]

/-- The leaves of the tree of a sorted list are the list. -/
theorem leaves_canon_findLeaf {ls : List β} (h : ls.Pairwise fun a b => key a < key b) {n : ℕ}
    {route : List (Fin k)} (hb : ∀ b ∈ ls, Below n route (key b)) :
    (canon n route (findLeaf key ls)).leaves = ls := by
  rw [leaves_canon]
  have hsorted : ((allPaths n route).filterMap (findLeaf key ls)).Pairwise
      fun a b => key a < key b := by
    refine List.pairwise_filterMap.mpr ((allPaths_sorted n route).imp ?_)
    intro p q hpq a ha b hb
    rw [((findLeaf_eq_some key h).mp ha).2, ((findLeaf_eq_some key h).mp hb).2]
    exact hpq
  have hmem : ∀ b, b ∈ (allPaths n route).filterMap (findLeaf key ls) ↔ b ∈ ls := by
    intro b
    simp only [List.mem_filterMap, findLeaf_eq_some key h, mem_allPaths]
    constructor
    · rintro ⟨p, -, hm, -⟩
      exact hm
    · intro hm
      exact ⟨key b, hb b hm, hm, rfl⟩
  have hnd : ∀ l : List β, l.Pairwise (fun a b => key a < key b) → l.Nodup := fun l hl =>
    hl.imp fun hab heq => absurd hab (by rw [heq]; exact lt_irrefl _)
  exact ((List.perm_ext_iff_of_nodup (hnd _ hsorted) (hnd _ h)).mpr hmem).eq_of_pairwise
    (fun a b _ _ h1 h2 => absurd (lt_trans h1 h2) (lt_irrefl _)) hsorted h

/-- Group the sorted leaves at the first letter, from `depth` on, where the first and the last
differ. Paths have `L` letters; `fuel` bounds the depth of the tree. -/
def build (L : ℕ) : ℕ → ℕ → List β → Radix k β
  | _, _, [] => empty
  | _, _, [b] => leaf b
  | 0, _, _ => empty
  | fuel + 1, depth, first :: next :: rest =>
    match firstDiff (key first) (key ((next :: rest).getLast (by simp))) depth L with
    | none => empty
    | some d =>
      branch (((key first).drop depth).take (d - depth)) fun s =>
        build L fuel (d + 1) ((first :: next :: rest).filter fun b => (key b)[d]? = some s)

/-- All paths of a sorted list begin as the first and the last do. -/
lemma take_eq_of_sorted {first : β} {ls : List β} (hne : ls ≠ [])
    (h : (first :: ls).Pairwise fun a b => key a < key b) {L d : ℕ}
    (hlen : ∀ b ∈ first :: ls, (key b).length = L) (hdL : d ≤ L)
    (hd : (key first).take d = (key (ls.getLast hne)).take d) :
    ∀ b ∈ first :: ls, (key b).take d = (key first).take d := by
  intro b hb
  rcases List.mem_cons.mp hb with rfl | hb'
  · rfl
  · have hfb : key first < key b := (List.pairwise_cons.mp h).1 b hb'
    by_cases hl : b = ls.getLast hne
    · rw [hl, hd]
    · have hbl : key b < key (ls.getLast hne) := by
        have hls := (List.pairwise_cons.mp h).2
        rw [← List.dropLast_append_getLast hne] at hls hb'
        rcases List.mem_append.mp hb' with hin | hin
        · exact (List.pairwise_append.mp hls).2.2 b hin _ (by simp)
        · exact absurd (by simpa using hin) hl
      exact take_eq_of_between hfb hbl (by rw [hlen first (List.mem_cons_self ..)]; exact hdL)
        (by rw [hlen b hb]; exact hdL) hd

lemma canon_findLeaf_nil (n : ℕ) (route : List (Fin k)) : canon n route (findLeaf key []) = empty :=
  canon_eq_empty.mpr fun _ _ => rfl

lemma canon_findLeaf_single {b : β} {n : ℕ} {route : List (Fin k)} (hb : Below n route (key b)) :
    canon n route (findLeaf key [b]) = leaf b := by
  refine canon_single hb (by simp [findLeaf]) fun q _ hq => ?_
  simpa [findLeaf] using Ne.symm hq

/-- Below one letter more, the leaves with that letter decide. -/
lemma canon_findLeaf_filter {ls : List β} (hs : ls.Pairwise fun a b => key a < key b) {j : ℕ}
    {route : List (Fin k)} (hb : ∀ b ∈ ls, Below (j + 1) route (key b)) (s : Fin k) :
    canon j (route ++ [s]) (findLeaf key (ls.filter fun b => (key b)[route.length]? = some s)) =
      canon j (route ++ [s]) (findLeaf key ls) := by
  refine canon_congr fun p hp => Option.ext fun b => ?_
  rw [findLeaf_eq_some key (hs.filter _), findLeaf_eq_some key hs, List.mem_filter]
  constructor
  · rintro ⟨⟨h1, -⟩, h2⟩
    exact ⟨h1, h2⟩
  · rintro ⟨h1, rfl⟩
    exact ⟨⟨h1, by simpa using (hb b h1).getElem?_eq_some.mpr hp⟩, rfl⟩

/-- **Leaves that agree up to letter `d` and differ there form a branch.** Its string is what they
share from the route on, and its subtrees are canonical. -/
theorem canon_findLeaf_branch {ls : List β} (hs : ls.Pairwise fun a b => key a < key b) {n d : ℕ}
    {route : List (Fin k)} (hb : ∀ b ∈ ls, Below n route (key b)) (hlo : route.length ≤ d)
    (hhi : d < route.length + n) {first last : β} (hf : first ∈ ls) (hl : last ∈ ls)
    (hcom : ∀ b ∈ ls, (key b).take d = (key first).take d)
    (hdiff : (key first)[d]? ≠ (key last)[d]?) :
    (∀ b ∈ ls, Below (n - (d - route.length)) ((key first).take d) (key b)) ∧
    canon n route (findLeaf key ls) =
      branch (((key first).drop route.length).take (d - route.length)) fun s =>
        canon (n - (d - route.length) - 1) ((key first).take d ++ [s]) (findLeaf key ls) := by
  have hlen : ∀ b ∈ ls, (key b).length = route.length + n := fun b hbm => (hb b hbm).length_eq
  have hrp : route ++ ((key first).drop route.length).take (d - route.length) =
      (key first).take d := by
    obtain ⟨q, -, he⟩ := hb first hf
    rw [he, List.drop_left' rfl, List.take_append, List.take_of_length_le hlo]
  have hplen : (((key first).drop route.length).take (d - route.length)).length =
      d - route.length := by
    have := hlen first hf
    simp only [List.length_take, List.length_drop]
    omega
  obtain ⟨j, hj⟩ : ∃ j, n - (d - route.length) = j + 1 := ⟨n - (d - route.length) - 1, by omega⟩
  have hbelow : ∀ b ∈ ls, Below (j + 1) ((key first).take d) (key b) := by
    intro b hbm
    refine ⟨(key b).drop d, by rw [List.length_drop, hlen b hbm]; omega, ?_⟩
    rw [← hcom b hbm, List.take_append_drop]
  refine ⟨by rw [hj]; exact hbelow, ?_⟩
  rw [hj, Nat.add_sub_cancel, canon_eq_collapse (j := j) (by rw [hplen]; omega), hrp]
  · -- the two leaves that differ go to different subtrees
    have hget : ∀ b ∈ ls, ∃ s, (key b)[d]? = some s ∧
        canon j ((key first).take d ++ [s]) (findLeaf key ls) ≠ empty := by
      intro b hbm
      have hdl : ((key first).take d).length = d := by
        rw [List.length_take, hlen first hf]
        omega
      refine ⟨_, List.getElem?_eq_getElem (by rw [hlen b hbm]; exact hhi), fun he => ?_⟩
      have hslot := (hbelow b hbm).getElem?_eq_some.mp (by
        rw [hdl]
        exact List.getElem?_eq_getElem (by rw [hlen b hbm]; exact hhi))
      exact (findLeaf_eq_none key).mp (canon_eq_empty.mp he (key b) hslot) b hbm rfl
    obtain ⟨s, hs1, hs2⟩ := hget first hf
    obtain ⟨s', hs1', hs2'⟩ := hget last hl
    have hne : s ≠ s' := by
      rintro rfl
      exact hdiff (hs1.trans hs1'.symm)
    exact collapse_many hne hs2 hs2'
  · intro p hp hm
    obtain ⟨b, hb'⟩ := Option.ne_none_iff_exists'.mp hm
    obtain ⟨h1, rfl⟩ := (findLeaf_eq_some key hs).mp hb'
    rw [hrp]
    exact hbelow b h1

/-- **Several sorted leaves form a branch** at the first letter where the first and the last
differ, over the leaves that go each way. -/
theorem canon_findLeaf_split {L n : ℕ} {route : List (Fin k)} {first next : β} {rest : List β}
    (hL : route.length + n = L)
    (hs : (first :: next :: rest).Pairwise fun a b => key a < key b)
    (hb : ∀ b ∈ first :: next :: rest, Below n route (key b)) :
    ∃ d j, firstDiff (key first) (key ((next :: rest).getLast (List.cons_ne_nil _ _))) route.length L
        = some d ∧ route.length ≤ d ∧ d + (j + 1) = L ∧ ((key first).take d).length = d ∧
      (∀ b ∈ first :: next :: rest, Below (j + 1) ((key first).take d) (key b)) ∧
      canon n route (findLeaf key (first :: next :: rest))
        = branch (((key first).drop route.length).take (d - route.length)) fun s =>
          canon j ((key first).take d ++ [s]) (findLeaf key
            ((first :: next :: rest).filter fun b => (key b)[d]? = some s)) := by
  have hlastmem : (next :: rest).getLast (List.cons_ne_nil _ _) ∈ next :: rest := List.getLast_mem _
  have hlt := (List.pairwise_cons.mp hs).1 _ hlastmem
  have hlm := List.mem_cons_of_mem first hlastmem
  have hfm : first ∈ first :: next :: rest := List.mem_cons_self ..
  have hlen : ∀ b ∈ first :: next :: rest, (key b).length = L := by
    intro b hbm
    rw [(hb b hbm).length_eq, hL]
  obtain ⟨d, hfd, hlo, hhi, htake, hdiff⟩ := firstDiff_spec route.length (hlen first hfm) (hlen _ hlm)
    (by rw [(hb first hfm).take, (hb _ hlm).take]) hlt.ne
  have hcom := take_eq_of_sorted key (List.cons_ne_nil _ _) hs hlen hhi.le htake
  obtain ⟨hbelow, hcanon⟩ := canon_findLeaf_branch key hs hb hlo (by omega) hfm hlm hcom hdiff
  obtain ⟨j, hj⟩ : ∃ j, n - (d - route.length) = j + 1 := ⟨n - (d - route.length) - 1, by omega⟩
  have hdl : ((key first).take d).length = d := by
    rw [List.length_take, hlen first hfm]
    omega
  rw [hj] at hbelow
  rw [hj, Nat.add_sub_cancel] at hcanon
  refine ⟨d, j, hfd, hlo, by omega, hdl, hbelow, hcanon.trans ?_⟩
  refine congrArg (branch _) (funext fun s => ?_)
  rw [← canon_findLeaf_filter key hs hbelow s, hdl]

/-- **Grouping sorted leaves at their first difference gives the canonical tree.** -/
theorem build_eq_canon {L : ℕ} : ∀ (fuel n : ℕ) (route : List (Fin k)) (ls : List β),
    route.length + n = L → n ≤ fuel → ls.Pairwise (fun a b => key a < key b) →
    (∀ b ∈ ls, Below n route (key b)) →
    build key L fuel route.length ls = canon n route (findLeaf key ls) := by
  intro fuel
  induction fuel with
  | zero =>
    intro n route ls hL hn hs hb
    match ls with
    | [] => rw [build, canon_findLeaf_nil]
    | [b] => rw [build, canon_findLeaf_single key (hb b (by simp))]
    | a :: b :: rest =>
      -- without letters left there is only one path
      obtain ⟨d, j, -, hlo, hj, -⟩ := canon_findLeaf_split key hL hs hb
      omega
  | succ fuel ih =>
    intro n route ls hL hn hs hb
    match ls with
    | [] => rw [build, canon_findLeaf_nil]
    | [b] => rw [build, canon_findLeaf_single key (hb b (by simp))]
    | first :: next :: rest =>
      obtain ⟨d, j, hfd, hlo, hj, hdl, hbelow, hcanon⟩ := canon_findLeaf_split key hL hs hb
      rw [build, hfd, hcanon]
      refine congrArg (branch _) (funext fun s => ?_)
      have hrl : ((key first).take d ++ [s]).length = d + 1 := by simp [hdl]
      rw [← hrl, ih j _ _ (by rw [hrl]; omega) (by omega) (hs.filter _)]
      intro b hbm
      obtain ⟨h1, h2⟩ := List.mem_filter.mp hbm
      exact (hbelow b h1).getElem?_eq_some.mp (by rw [hdl]; simpa using h2)

end Build

end Radix

end GolemDb.Lib
