import GolemDb.Merkle.Apply

/-!
The reference for a trie's root: sort the leaves of a finite map, group them at the first nibble
where the first and the last differ, and hash the groups. `bulk` computes the digest that way, as
the test oracle of the source does, without the node codec; `bulk_eq` says that it is the digest
of the map's tree.
-/

namespace GolemDb.Merkle

open GolemDb.Lib GolemDb.Lib.Radix GolemDb.Storage

variable {N : ℕ}

/-! ### The leaves of a map -/

/-- The leaves of a map in ascending path order. -/
def leavesOf (M : OrdMap (Arr N) Hash) : List (LeafRef N) := M.entries.map fun e => ⟨e.1, e.2⟩

lemma leavesOf_sorted (M : OrdMap (Arr N) Hash) : (leavesOf M).Pairwise fun a b => a.key < b.key :=
  List.pairwise_map.mpr (M.sorted.imp fun h => nibbles_lt_iff.mpr h)

lemma leavesOf_pathSorted (M : OrdMap (Arr N) Hash) :
    (leavesOf M).Pairwise fun a b => a.path < b.path :=
  List.pairwise_map.mpr M.sorted

lemma mem_leavesOf {M : OrdMap (Arr N) Hash} {l : LeafRef N} :
    l ∈ leavesOf M ↔ M.get? l.path = some l.hash := by
  rw [← OrdMap.mem_entries, leavesOf, List.mem_map]
  constructor
  · rintro ⟨e, he, rfl⟩
    exact he
  · intro h
    exact ⟨_, h, rfl⟩

lemma below_nil (p : List Nibble) : Below p.length [] p := ⟨p, rfl, rfl⟩

lemma below_key (l : LeafRef N) : Below (2 * N) [] l.key := by
  have := below_nil l.key
  rwa [l.key_length] at this

/-- **The tree of a finite map**, by grouping its sorted leaves. -/
def refTree (M : OrdMap (Arr N) Hash) : Radix 16 (LeafRef N) :=
  Radix.build LeafRef.key (2 * N) (2 * N) 0 (leavesOf M)

lemma tree_eq_canon (M : OrdMap (Arr N) Hash) :
    tree M.get? = canon (2 * N) [] (findLeaf LeafRef.key (leavesOf M)) :=
  (Trie.canon_findLeaf_eq (leavesOf_sorted M) fun _ _ => mem_leavesOf).symm

theorem refTree_eq (M : OrdMap (Arr N) Hash) : refTree M = tree M.get? := by
  rw [tree_eq_canon, refTree]
  exact build_eq_canon LeafRef.key (2 * N) (2 * N) [] (leavesOf M) (by simp) le_rfl (leavesOf_sorted M)
    fun l _ => below_key l

lemma leaves_refTree (M : OrdMap (Arr N) Hash) : (refTree M).leaves = leavesOf M := by
  rw [refTree_eq, tree_eq_canon]
  exact leaves_canon_findLeaf LeafRef.key (leavesOf_sorted M) fun l _ => below_key l

/-! ### The reference digest -/

/-- The mask of the slots with a property. -/
def maskOf (p : Nibble → Bool) : BitVec 16 :=
  (List.finRange 16).foldl (fun m s => if p s then m ||| slotMask s else m) 0#16

lemma hasSlot_maskOf (p : Nibble → Bool) (i : Nibble) : hasSlot (maskOf p) i = p i := by
  have h : ∀ (l : List Nibble) (m : BitVec 16),
      hasSlot (l.foldl (fun m s => if p s then m ||| slotMask s else m) m) i
        = (hasSlot m i || decide (i ∈ l) && p i) := by
    intro l
    induction l with
    | nil => simp
    | cons s l ih =>
      intro m
      rw [List.foldl_cons, ih]
      by_cases hi : i = s
      · subst hi
        cases p i <;> simp
      · cases p s <;> simp [hi]
  rw [maskOf, h]
  simp

namespace Trie

variable (T : Trie N)

/-- **The reference digest** of leaves sorted by path, from nibble `depth` on: the hash of no
bytes, the hash of the only leaf, or the hash of the groups at the first nibble where the first
and the last leaf differ. -/
def bulk : ℕ → ℕ → List (LeafRef N) → Hash
  | _, _, [] => T.hasher.hash []
  | _, _, [l] => l.hash
  | 0, _, _ => T.hasher.hash []
  | fuel + 1, depth, first :: next :: rest =>
    let leaves := first :: next :: rest
    match firstDiff first.key ((next :: rest).getLast (leaves_ne_nil next rest)).key depth (2 * N) with
    | none => T.hasher.hash []
    | some split =>
      let group := fun s => leaves.filter fun l => l.key[split]? = some s
      T.hasher.hash ([T.domain, UInt8.ofNat (split - depth)]
        ++ pack ((first.key.drop depth).take (split - depth))
        ++ beBytes 2 (maskOf fun s => decide (0 < (group s).length)).toNat
        ++ beBytes 2 (maskOf fun s => decide (1 < (group s).length)).toNat
        ++ (List.finRange 16).flatMap fun s =>
            if group s = [] then [] else (bulk fuel (split + 1) (group s)).1)

/-- The digest of the groups is the digest of the tree. -/
theorem bulk_canon : ∀ (fuel n : ℕ) (route : List Nibble) (ls : List (LeafRef N)),
    route.length + n = 2 * N → n ≤ fuel → ls.Pairwise (fun a b => a.key < b.key) →
    (∀ l ∈ ls, Below n route l.key) →
    T.bulk fuel route.length ls = (T.ref (canon n route (findLeaf LeafRef.key ls))).hash T.hasher := by
  intro fuel
  induction fuel with
  | zero =>
    intro n route ls hL hn hs hb
    match ls with
    | [] => rw [bulk, canon_findLeaf_nil]; rfl
    | [l] => rw [bulk, canon_findLeaf_single LeafRef.key (hb l (by simp))]; rfl
    | a :: b :: rest =>
      obtain ⟨d, j, -, hlo, hj, -⟩ := canon_findLeaf_split LeafRef.key hL hs hb
      omega
  | succ fuel ih =>
    intro n route ls hL hn hs hb
    match ls with
    | [] => rw [bulk, canon_findLeaf_nil]; rfl
    | [l] => rw [bulk, canon_findLeaf_single LeafRef.key (hb l (by simp))]; rfl
    | first :: next :: rest =>
      obtain ⟨d, j, hfd, hlo, hj, hdl, hbelow, hcanon⟩ := canon_findLeaf_split LeafRef.key hL hs hb
      set ls := first :: next :: rest with hls
      set group := fun s => ls.filter fun l => l.key[d]? = some s with hgroup
      have hgb : ∀ s, ∀ l ∈ group s, Below j (first.key.take d ++ [s]) l.key := by
        intro s l hl
        obtain ⟨h1, h2⟩ := List.mem_filter.mp hl
        exact (hbelow l h1).getElem?_eq_some.mp (by rw [hdl]; simpa using h2)
      have hgs : ∀ s, (group s).Pairwise fun a b => a.key < b.key := fun s => hs.filter _
      have hrl : ∀ s, (first.key.take d ++ [s]).length = d + 1 := fun s => by
        rw [List.length_append, hdl, List.length_singleton]
      -- what a group's subtree is, by the number of its leaves
      have hkid : ∀ s, (group s = [] → canon j (first.key.take d ++ [s])
            (findLeaf LeafRef.key (group s)) = .empty) ∧
          (∀ l, group s = [l] → canon j (first.key.take d ++ [s])
            (findLeaf LeafRef.key (group s)) = .leaf l) ∧
          (1 < (group s).length → ∃ pre kids, canon j (first.key.take d ++ [s])
            (findLeaf LeafRef.key (group s)) = .branch pre kids) := by
        intro s
        refine ⟨fun h => by rw [h, canon_findLeaf_nil], fun l h => ?_, fun h => ?_⟩
        · rw [h]
          exact canon_findLeaf_single LeafRef.key (hgb s l (by rw [h]; simp))
        · have h1 := hgs s
          have h2 := hgb s
          match hg : group s, h with
          | a :: b :: tail, _ =>
            rw [hg] at h1 h2
            obtain ⟨_, _, -, -, -, -, -, hc⟩ := canon_findLeaf_split LeafRef.key
              (L := 2 * N) (by rw [hrl]; omega) h1 h2
            exact ⟨_, _, hc⟩
      set kids := fun s => canon j (first.key.take d ++ [s]) (findLeaf LeafRef.key (group s)) with hkids
      have hslot : ∀ s, (T.ref (kids s)).slotHash
            = (if group s = [] then none else some (T.bulk fuel (d + 1) (group s))) ∧
          decide (T.ref (kids s) ≠ .empty) = decide (0 < (group s).length) ∧
          (T.ref (kids s)).isBranch = decide (1 < (group s).length) := by
        intro s
        have hih := ih j _ (group s) (by rw [hrl s]; omega) (by omega) (hgs s) (hgb s)
        rw [hrl s] at hih
        obtain ⟨h0, h1, h2⟩ := hkid s
        match hg : group s with
        | [] => simp [hkids, h0 hg, ref, RootRef.slotHash, RootRef.isBranch]
        | [l] =>
          have hk : kids s = .leaf l := h1 l hg
          rw [hg] at hih
          rw [hk]
          simp [ref, RootRef.slotHash, RootRef.isBranch, bulk]
        | a :: b :: tail =>
          obtain ⟨pre, gk, hk⟩ := h2 (by rw [hg]; simp)
          have hk' : kids s = .branch pre gk := hk
          rw [hk] at hih
          rw [hg] at hih
          rw [hk']
          simp only [ref, RootRef.slotHash, RootRef.isBranch, hih, RootRef.hash]
          simp
      have hst : (slotsOf fun s => T.ref (kids s)).state
          = maskOf fun s => decide (0 < (group s).length) := by
        refine mask_ext fun i => ?_
        rw [hasSlot_state, hasSlot_maskOf, (hslot i).2.1]
      have htr : (slotsOf fun s => T.ref (kids s)).tree
          = maskOf fun s => decide (1 < (group s).length) := by
        refine mask_ext fun i => ?_
        rw [hasSlot_tree, hasSlot_maskOf, (hslot i).2.2]
      have hhs : ((slotsOf fun s => T.ref (kids s)).hashes.flatMap (·.1)) = (List.finRange 16).flatMap
          fun s => if group s = [] then [] else (T.bulk fuel (d + 1) (group s)).1 := by
        rw [slotsOf_hashes]
        induction List.finRange 16 with
        | nil => rfl
        | cons s l ihl =>
          rw [List.filterMap_cons, List.flatMap_cons, (hslot s).1]
          by_cases hg : group s = []
          · simp only [hg, if_true, List.nil_append]
            exact ihl
          · simp only [hg, if_false, List.flatMap_cons]
            rw [ihl]
      have hpl : ((first.key.drop route.length).take (d - route.length)).length = d - route.length := by
        rw [List.length_take, List.length_drop, first.key_length]
        omega
      rw [hcanon, ref, RootRef.hash, branchHash, preimage, payload, hst, htr, hhs, hpl, hls, bulk, ← hls]
      simp only [hfd]
      rfl

/-- **The reference digest is the digest of the map's tree.** -/
theorem bulk_eq (M : OrdMap (Arr N) Hash) :
    T.bulk (2 * N) 0 (leavesOf M) = (T.ref (refTree M)).hash T.hasher := by
  rw [refTree_eq, tree_eq_canon]
  exact T.bulk_canon (2 * N) (2 * N) [] (leavesOf M) (by simp) le_rfl (leavesOf_sorted M)
    fun l _ => below_key l

end Trie

end GolemDb.Merkle
