import GolemDb.Merkle.Canon

/-!
Reading a stored tree: `get` returns what the map has at a path, and the walk yields the leaves
of the tree from left to right and then ends.
-/

namespace GolemDb.Merkle

open GolemDb.Lib GolemDb.Lib.Radix GolemDb.Storage

namespace Trie

variable {N : ℕ} {T : Trie N} {τ : Type} [ReadTransaction τ] [LawfulRead τ] {tx : τ}
  {m : List Nibble → Option (LeafRef N)}

/-! ### Point reads -/

/-- **A point read returns the map's leaf.** -/
theorem getLoop_canon (hT : T.table.validate = .ok ()) (hm : Keyed m) (path : Arr N) :
    ∀ (fuel n : ℕ) (route : List Nibble), route.length + n = 2 * N → n < fuel →
      Below n route (nibbles path.1) → T.Stored (rows tx T.table) (canon n route m) →
      T.getLoop tx path fuel (T.ref (canon n route m)) route = .ok (m (nibbles path.1)) := by
  intro fuel
  induction fuel with
  | zero => intro n route _ hn; omega
  | succ fuel ih =>
    intro n route hlen hn hp hs
    cases hc : canon n route m with
    | empty => simp [ref, getLoop, canon_eq_empty.mp hc _ hp]
    | leaf l =>
      obtain ⟨p, hpb, hmp, ho⟩ := canon_leaf_inv hc
      obtain rfl : l.key = p := hm p l hmp
      rw [ref, getLoop]
      by_cases hpath : l.path = path
      · rw [if_pos hpath, ← hpath]
        exact congrArg _ hmp.symm
      · rw [if_neg hpath, ho _ hp]
        intro h
        exact hpath (Subtype.ext (nibbles_inj h).symm)
    | branch pre kids =>
      rw [hc] at hs
      obtain ⟨node, hload, hof⟩ := load_canon tx hT hm hlen hc hs
      obtain ⟨j, hj, hcom, hkids, -⟩ := canon_branch_inv hc
      rw [ref, getLoop, hload]
      simp only [Bind.bind, Except.bind]
      rw [hof.unpackPrefix]
      by_cases hpre : route ++ pre <+: nibbles path.1
      · rw [if_neg (not_not.mpr hpre)]
        have hbp : Below (j + 1) (route ++ pre) (nibbles path.1) := by
          have := Below.of_isPrefix (hp.length_eq) hpre
          rwa [List.length_append, show route.length + n - (route.length + pre.length) = j + 1 by
            omega] at this
        obtain ⟨slot, hslot⟩ := below_succ.mp hbp
        have hidx := hbp.getElem?_eq_some.mpr hslot
        have hk : kids slot = canon j (route ++ pre ++ [slot]) m := congrFun hkids slot
        have hchild : (node.child slot).getD .empty = T.ref (canon j (route ++ pre ++ [slot]) m) := by
          rw [← hk]
          exact congrFun hof.children slot
        rw [index, hidx]
        simp only
        rw [hchild]
        exact ih j _ (by simp; omega) (by omega) hslot (hk ▸ hs.kid slot)
      · rw [if_pos hpre]
        have hnone : m (nibbles path.1) = none := by
          by_contra hne
          exact hpre (hcom _ hp hne).isPrefix
        rw [hnone]

/-! ### The walk -/

section Walk

/-- The stack of a walk over the subtrees at the given heights and routes. -/
def frontier (T : Trie N) (m : List Nibble → Option (LeafRef N)) (es : List (ℕ × List Nibble)) :
    Walk N :=
  ⟨es.map fun e => (T.ref (canon e.1 e.2 m), e.2)⟩

/-- The leaves the walk has still to yield. -/
def remaining (m : List Nibble → Option (LeafRef N)) (es : List (ℕ × List Nibble)) :
    List (LeafRef N) :=
  es.flatMap fun e => (canon e.1 e.2 m).leaves

/-- The subtrees are stored at their routes, and none is empty. -/
def OnStack (T : Trie N) (tx : τ) (m : List Nibble → Option (LeafRef N)) (e : ℕ × List Nibble) :
    Prop :=
  e.2.length + e.1 = 2 * N ∧ T.Stored (rows tx T.table) (canon e.1 e.2 m) ∧
    canon e.1 e.2 m ≠ .empty

lemma pushed_eq {node : BranchNodeCompact N} {pre route : List Nibble}
    {kids : Nibble → Radix 16 (LeafRef N)} (hof : NodeOf node pre (fun s => T.ref (kids s))) :
    pushed node route = (active kids).map fun s => (T.ref (kids s), route ++ [s]) := by
  unfold pushed active
  induction List.finRange 16 with
  | nil => rfl
  | cons s l ih =>
    rw [List.filterMap_cons, List.filter_cons, hof.child, ih]
    by_cases hk : kids s = .empty
    · simp [hk, ref]
    · simp [T.ref_ne_empty.mpr hk, isEmpty_eq_false.mpr hk]

/-- One call yields the first remaining leaf. -/
lemma nextLoop_frontier (hT : T.table.validate = .ok ()) (hm : Keyed m) :
    ∀ (fuel : ℕ) (e : ℕ × List Nibble) (es : List (ℕ × List Nibble)), e.1 < fuel →
      (∀ x ∈ e :: es, OnStack T tx m x) →
      ∃ l es', Walk.nextLoop T tx fuel (frontier T m (e :: es)) = (some (.ok l), frontier T m es') ∧
        remaining m (e :: es) = l :: remaining m es' ∧ ∀ x ∈ es', OnStack T tx m x := by
  intro fuel
  induction fuel with
  | zero => intro e es h; omega
  | succ fuel ih =>
    intro e es hfuel hon
    obtain ⟨hlen, hs, hne⟩ := hon e (List.mem_cons_self ..)
    have hes : ∀ x ∈ es, OnStack T tx m x := fun x hx => hon x (List.mem_cons_of_mem _ hx)
    cases hc : canon e.1 e.2 m with
    | empty => exact absurd hc hne
    | leaf l =>
      refine ⟨l, es, ?_, ?_, hes⟩
      · simp [frontier, hc, ref, Walk.nextLoop]
      · simp [remaining, hc, leaves]
    | branch pre kids =>
      rw [hc] at hs
      obtain ⟨node, hload, hof⟩ := load_canon tx hT hm hlen hc hs
      obtain ⟨j, hj, -, hkids, s, s', hss, hs1, hs2⟩ := canon_branch_inv hc
      have hk : ∀ s, kids s = canon j (e.2 ++ pre ++ [s]) m := fun s => congrFun hkids s
      -- the subtrees of the branch replace it on the stack
      have hnext : Walk.nextLoop T tx (fuel + 1) (frontier T m (e :: es)) = Walk.nextLoop T tx fuel
          (frontier T m ((active kids).map (fun s => (j, e.2 ++ pre ++ [s])) ++ es)) := by
        simp only [frontier, List.map_cons, hc, ref, Walk.nextLoop, hload, hof.unpackPrefix,
          pushed_eq hof, List.map_append, List.map_map]
        congr 3
        refine List.map_congr_left fun s _ => ?_
        simp [hk s]
      have hrem : remaining m (e :: es)
          = remaining m ((active kids).map (fun s => (j, e.2 ++ pre ++ [s])) ++ es) := by
        simp only [remaining, List.flatMap_cons, List.flatMap_append, hc, leaves, List.flatMap_map,
          ← flatMap_active, funext hk]
      have hact : ∀ x ∈ (active kids).map (fun s => (j, e.2 ++ pre ++ [s])) ++ es, OnStack T tx m x := by
        intro x hx
        rcases List.mem_append.mp hx with hx | hx
        · obtain ⟨s, hsa, rfl⟩ := List.mem_map.mp hx
          refine ⟨by simp; omega, ?_, ?_⟩
          · rw [← hk s]
            exact hs.kid s
          · rw [← hk s]
            exact mem_active.mp hsa
        · exact hes x hx
      obtain ⟨x, rest, hxr⟩ : ∃ x rest, active kids = x :: rest := by
        cases ha : active kids with
        | nil => exact absurd (active_eq_nil.mp ha s) hs1
        | cons x rest => exact ⟨x, rest, rfl⟩
      rw [hnext, hrem]
      rw [hxr, List.map_cons, List.cons_append] at hact ⊢
      exact ih _ _ (by simp; omega) hact

/-- From stored subtrees the walk yields their leaves in order, and ends. -/
lemma collect_frontier (tx : τ) (hT : T.table.validate = .ok ()) (hm : Keyed m) :
    ∀ (fuel : ℕ) (es : List (ℕ × List Nibble)), (remaining m es).length < fuel →
      (∀ x ∈ es, OnStack T tx m x) →
      Walk.collect T tx fuel (frontier T m es) = (remaining m es).map .ok := by
  intro fuel
  induction fuel with
  | zero => intro es h; omega
  | succ fuel ih =>
    intro es hfuel hon
    cases es with
    | nil => simp [Walk.collect, Walk.next, frontier, Walk.nextLoop, remaining]
    | cons e es =>
      obtain ⟨l, es', hnext, hrem, hon'⟩ := nextLoop_frontier hT hm (2 * N + 2) e es
        (by have := (hon e (List.mem_cons_self ..)).1; omega) hon
      rw [Walk.collect, Walk.next, hnext, hrem]
      simp only [List.map_cons]
      rw [ih es' (by rw [hrem] at hfuel; simpa using hfuel) hon']

/-- **The walk yields the leaves of the tree in order**, and ends. -/
theorem collect_walk (hT : T.table.validate = .ok ()) (hm : Keyed m)
    (hs : T.Stored (rows tx T.table) (canon (2 * N) [] m)) {fuel : ℕ}
    (hfuel : (canon (2 * N) [] m).leaves.length < fuel) :
    Walk.collect T tx fuel (walk (T.ref (canon (2 * N) [] m)))
      = (canon (2 * N) [] m).leaves.map .ok := by
  by_cases hc : canon (2 * N) [] m = .empty
  · rw [hc] at hfuel ⊢
    obtain ⟨fuel, rfl⟩ : ∃ f, fuel = f + 1 := ⟨fuel - 1, by omega⟩
    simp [Walk.collect, Walk.next, walk, ref, Walk.nextLoop, leaves]
  · have := collect_frontier tx hT hm fuel [(2 * N, [])] (by simpa [remaining] using hfuel)
      (by simpa [OnStack] using ⟨hs, hc⟩)
    simpa [frontier, remaining, walk] using this

end Walk

end Trie

end GolemDb.Merkle
