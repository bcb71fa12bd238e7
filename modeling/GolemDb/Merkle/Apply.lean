import GolemDb.Merkle.Edit

/-!
The batched edit: on a table that holds the tree of a map, `apply` succeeds and writes the tree of
the map after the whole batch (`apply_tree`). The recursion carries a subtrie that may not be
stored yet; `EditedOf` says which tree such a subtrie is, and `Makes` that a program returns one.
-/

namespace GolemDb.Merkle

open GolemDb.Lib GolemDb.Lib.Radix GolemDb.Storage

namespace Trie

variable {N : ℕ} {T : Trie N} {τ : Type} [WriteTransaction τ] [LawfulWrite τ] {P : Set Bytes}
  {B : Set (LeafRef N)}

/-! ### Subtries in progress -/

/-- The branches strictly below the root of a tree. -/
def inner (T : Trie N) : Radix 16 (LeafRef N) → List (Branch N)
  | .branch _ kids => (List.finRange 16).flatMap fun s => T.branches (kids s)
  | _ => []

lemma inner_kid (pre : List Nibble) (kids : Nibble → Radix 16 (LeafRef N)) (s : Nibble) :
    T.branches (kids s) ⊆ T.inner (.branch pre kids) := by
  intro b hb
  simp only [inner, List.mem_flatMap, List.mem_finRange, true_and]
  exact ⟨s, hb⟩

lemma inner_subset (t : Radix 16 (LeafRef N)) : T.inner t ⊆ T.branches t := by
  cases t with
  | empty => simp [inner]
  | leaf l => simp [inner]
  | branch pre kids => exact fun b hb => List.mem_cons_of_mem _ hb

/-- The branches inside the subtrees stay inside the collapsed branch. -/
lemma inner_collapse (pre : List Nibble) (kids : Nibble → Radix 16 (LeafRef N)) (s : Nibble) :
    T.inner (kids s) ⊆ T.inner (Radix.collapse pre kids) := by
  rcases active_cases kids with h0 | ⟨x, hx, ho⟩ | ⟨x, x', hne, h1, h2⟩
  · rw [h0 s]
    simp [inner]
  · by_cases hs : s = x
    · subst hs
      cases hk : kids s with
      | empty => simp [inner]
      | leaf l => simp [inner]
      | branch cp gk => rw [collapse_lone_branch hk ho]; simp [inner]
    · rw [ho s hs]
      simp [inner]
  · rw [collapse_many hne h1 h2]
    exact List.Subset.trans (inner_subset _) (inner_kid pre kids s)

/-- **The subtrie in progress is the tree**: stored whole, or a new branch over stored subtrees. -/
def EditedOf (T : Trie N) (r : Rows) (e : Edited N) (t : Radix 16 (LeafRef N)) : Prop :=
  match e with
  | .stored root => root = T.ref t ∧ T.Stored r t
  | .new pfx refs => ∃ kids, t = .branch pfx kids ∧ (refs = fun s => T.ref (kids s)) ∧
      ∀ s, T.Stored r (kids s)

lemma EditedOf.grows {S : List (Branch N)} {tx tx' : τ} {e : Edited N} {t : Radix 16 (LeafRef N)}
    (h : T.EditedOf (rows tx T.table) e t) (hg : T.Grows S tx tx') :
    T.EditedOf (rows tx' T.table) e t := by
  cases e with
  | stored root => exact ⟨h.1, h.2.grows hg⟩
  | new pfx refs =>
    obtain ⟨kids, ht, hrefs, hs⟩ := h
    exact ⟨kids, ht, hrefs, fun s => (hs s).grows hg⟩

lemma EditedOf.eq_empty_iff {r : Rows} {e : Edited N} {t : Radix 16 (LeafRef N)}
    (h : T.EditedOf r e t) : e = .stored .empty ↔ t = .empty := by
  cases e with
  | stored root =>
    obtain ⟨rfl, -⟩ := h
    simp [T.ref_eq_empty]
  | new pfx refs =>
    obtain ⟨kids, rfl, -, -⟩ := h
    simp

lemma EditedOf.stored_ref {r : Rows} {t : Radix 16 (LeafRef N)} (h : T.Stored r t) :
    T.EditedOf r (.stored (T.ref t)) t :=
  ⟨rfl, h⟩

/-- The program returns a subtrie in progress for the tree, and adds only branches in `S`. -/
def Makes (T : Trie N) (c : Prog MerkleError τ (Edited N)) (tx : τ) (t : Radix 16 (LeafRef N))
    (S : List (Branch N)) : Prop :=
  ∃ e tx', Prog.Runs c tx e tx' ∧ T.EditedOf (rows tx' T.table) e t ∧ T.Grows S tx tx'

lemma Makes.pure {tx : τ} {e : Edited N} {t : Radix 16 (LeafRef N)} {S : List (Branch N)}
    (h : T.EditedOf (rows tx T.table) e t) : T.Makes (return e) tx t S :=
  ⟨e, tx, Prog.Runs.pure _ tx, h, Grows.refl S tx⟩

lemma Makes.of_runs {α : Type} {c : Prog MerkleError τ α} {f : α → Prog MerkleError τ (Edited N)}
    {tx tx' : τ} {a : α} {t : Radix 16 (LeafRef N)} {S : List (Branch N)} (hc : Prog.Runs c tx a tx')
    (hg : T.Grows S tx tx') (h : T.Makes (f a) tx' t S) : T.Makes (c >>= f) tx t S := by
  obtain ⟨e, tx'', hr, he, hg'⟩ := h
  exact ⟨e, tx'', hc.bind hr, he, hg.trans hg'⟩

lemma Makes.of_read {α : Type} {c : Prog MerkleError τ α} {f : α → Prog MerkleError τ (Edited N)}
    {tx : τ} {a : α} {t : Radix 16 (LeafRef N)} {S : List (Branch N)} (hc : Prog.Runs c tx a tx)
    (h : T.Makes (f a) tx t S) : T.Makes (c >>= f) tx t S :=
  Makes.of_runs hc (Grows.refl S tx) h

section Step

variable {n j : ℕ} {route pre : List Nibble} {m : List Nibble → Option (LeafRef N)} {tx : τ}
  {kids : Nibble → Radix 16 (LeafRef N)} {S : List (Branch N)}

/-- A subtrie in progress is stored. -/
lemma storeEdited_canon (hA : T.Assumes P B) {e : Edited N} (hm : Keyed m)
    (hlen : route.length + n = 2 * N) (hsound : T.Sound P B (rows tx T.table))
    (he : T.EditedOf (rows tx T.table) e (canon n route m)) (hf : T.Fits P B (canon n route m)) :
    T.Writes (T.storeEdited e route) tx (canon n route m) := by
  cases e with
  | stored root =>
    obtain ⟨rfl, hs⟩ := he
    exact Writes.pure hs
  | new pfx refs =>
    obtain ⟨kids, hc, rfl, hs⟩ := he
    rw [hc] at hf ⊢
    exact storeChildren_canon hA hsound hm hlen hc hf hs

lemma filter_edited {r : Rows} {edited : Nibble → Edited N} (h : ∀ s, T.EditedOf r (edited s) (kids s)) :
    ((List.finRange 16).filter fun s => edited s ≠ .stored .empty) = active kids := by
  unfold active
  congr 1
  funext s
  by_cases hk : kids s = .empty
  · simp [hk, (h s).eq_empty_iff.mpr hk]
  · simp [isEmpty_eq_false.mpr hk, mt (h s).eq_empty_iff.mp hk]

/-- Storing each of the sixteen subtries in progress. -/
lemma storeAll_canon (hA : T.Assumes P B) (hm : Keyed m) {childRoute : List Nibble}
    (hlen : childRoute.length + (j + 1) = 2 * N) (hsound : T.Sound P B (rows tx T.table))
    (hkids : ∀ s, kids s = canon j (childRoute ++ [s]) m) {edited : Nibble → Edited N}
    (he : ∀ s, T.EditedOf (rows tx T.table) (edited s) (kids s)) (hS : T.Covered P B S)
    (hsub : ∀ s, T.branches (kids s) ⊆ S) :
    ∃ tx', Prog.Runs ((List.finRange 16).foldlM
        (fun children slot => do
          let root ← T.storeEdited (edited slot) (childRoute ++ [slot])
          return Function.update children slot root) (fun _ => RootRef.empty)) tx
        (fun s => T.ref (kids s)) tx' ∧
      T.Grows S tx tx' ∧ ∀ s, T.Stored (rows tx' T.table) (kids s) := by
  obtain ⟨acc, tx', hr, hg, hall, -⟩ := Prog.runs_foldlM_slots
    (f := fun children slot => do
      let root ← T.storeEdited (τ := τ) (edited slot) (childRoute ++ [slot])
      return Function.update children slot root)
    id (T.Grows S) (Grows.refl S) (fun h h' => h.trans h')
    (fun s root tx => root = T.ref (kids s) ∧ T.Stored (rows tx T.table) (kids s))
    (fun hq hg => ⟨hq.1, hq.2.grows hg⟩) (fun _ => RootRef.empty) tx (List.finRange 16)
    (List.nodup_finRange 16)
    (by
      intro s _ acc tx₁ hg₁ _
      have hk := hkids s
      obtain ⟨tx₂, hr₂, hst, hg₂⟩ := storeEdited_canon hA hm
        (by simp; omega : (childRoute ++ [s]).length + j = 2 * N) (hsound.grows hg₁ hS)
        (hk ▸ (he s).grows hg₁) (hk ▸ hS.subset (hsub s))
      rw [← hk] at hr₂ hst hg₂
      exact ⟨T.ref (kids s), tx₂, hr₂.bind (Prog.Runs.pure _ _), ⟨rfl, hst⟩, hg₂.mono (hsub s)⟩)
    (fun _ => RootRef.empty) tx (Grows.refl S tx) (fun _ _ => rfl)
  have hacc : acc = fun s => T.ref (kids s) := funext fun s => (hall s (List.mem_finRange s)).1
  rw [hacc, List.map_id] at hr
  exact ⟨tx', hr, hg, fun s => (hall s (List.mem_finRange s)).2⟩

/-- **The edited branch**: empty, a lone leaf, a lone branch with a longer prefix, or a new
branch over its stored subtrees. -/
theorem collapse_canon (hA : T.Assumes P B) (hm : Keyed m) (hlen : route.length + n = 2 * N)
    (hj : pre.length + (j + 1) = n) (hsound : T.Sound P B (rows tx T.table))
    (hkids : ∀ s, kids s = canon j (route ++ pre ++ [s]) m) {edited : Nibble → Edited N}
    (he : ∀ s, T.EditedOf (rows tx T.table) (edited s) (kids s)) (hS : T.Covered P B S)
    (hsub : T.inner (Radix.collapse pre kids) ⊆ S) :
    T.Makes (T.collapse pre edited (route ++ pre)) tx (Radix.collapse pre kids) S := by
  unfold Trie.collapse
  rw [filter_edited he]
  rcases active_cases kids with h0 | ⟨s, hsne, ho⟩ | ⟨s, s', hss, h1, h2⟩
  · rw [active_eq_nil.mpr h0, collapse_none h0]
    exact Makes.pure (EditedOf.stored_ref stored_empty)
  · rw [active_eq_singleton.mpr ⟨hsne, ho⟩]
    have hes := he s
    cases hk : edited s with
    | new cp gc =>
      rw [hk] at hes
      obtain ⟨gk, hks, rfl, hst⟩ := hes
      rw [collapse_lone_branch hks ho]
      simp only [hk]
      refine Makes.pure ⟨gk, ?_, rfl, hst⟩
      rw [List.append_assoc, List.singleton_append]
    | stored root =>
      rw [hk] at hes
      obtain ⟨hroot, hst⟩ := hes
      cases hks : kids s with
      | empty => exact absurd hks hsne
      | leaf l =>
        rw [hks, ref] at hroot
        subst hroot
        rw [collapse_lone_leaf hks ho]
        simp only [hk]
        exact Makes.pure ⟨rfl, stored_leaf l⟩
      | branch cp gk =>
        rw [hks] at hst
        rw [hks, ref] at hroot
        subst hroot
        have hcs := (hkids s).symm.trans hks
        obtain ⟨child, hload, hof⟩ := load_canon tx hA.valid hm
          (by simp; omega : (route ++ pre ++ [s]).length + j = 2 * N) hcs hst
        rw [collapse_lone_branch hks ho]
        simp only [hk]
        refine Makes.of_read (Prog.Runs.read hload) ?_
        rw [hof.unpackPrefix, hof.children]
        refine Makes.pure ⟨gk, ?_, rfl, hst.kid⟩
        rw [List.append_assoc, List.singleton_append]
  · rw [collapse_many hss h1 h2] at hsub ⊢
    obtain ⟨x, y, rest, hact⟩ := exists_two_active ⟨s, s', hss, h1, h2⟩
    rw [hact]
    obtain ⟨tx', hr, hg, hst⟩ := storeAll_canon hA hm
      (by simp; omega : (route ++ pre).length + (j + 1) = 2 * N) hsound hkids he hS
      (fun s => List.Subset.trans (inner_kid pre kids s) hsub)
    exact Makes.of_runs hr hg (Makes.pure ⟨kids, rfl, rfl, hst⟩)

end Step

/-! ### Building from leaves -/

/-- **The groups of a sorted batch below a route** are its entries by their next nibble, each
group below the route and its nibble. -/
lemma chunks_below {α : Type} {f : α → Arr N} {j : ℕ} {r : List Nibble} {l : List α}
    (hlen : r.length + (j + 1) = 2 * N) (hsort : l.Pairwise fun a b => f a < f b)
    (hb : ∀ a ∈ l, Below (j + 1) r (nibbles (f a).1)) :
    ∃ vs : List Nibble, vs.Nodup ∧ (∀ s, s ∈ vs ↔ ∃ a ∈ l, nibbleAt (f a).1 r.length = s) ∧
      (chunkBy (fun a => nibbleAt (f a).1 r.length) l
        = vs.map fun s => l.filter fun a => nibbleAt (f a).1 r.length = s) ∧
      ∀ s, ∀ a ∈ l, nibbleAt (f a).1 r.length = s ↔ Below j (r ++ [s]) (nibbles (f a).1) := by
  have hnib : ∀ a, (nibbles (f a).1)[r.length]? = some (nibbleAt (f a).1 r.length) := fun a =>
    nibbles_eq_some (by rw [(f a).2]; omega)
  have hiff : ∀ s, ∀ a ∈ l, nibbleAt (f a).1 r.length = s ↔ Below j (r ++ [s]) (nibbles (f a).1) := by
    intro s a ha
    rw [← (hb a ha).getElem?_eq_some, hnib, Option.some.injEq]
  have hmono : l.Pairwise fun a b => nibbleAt (f a).1 r.length ≤ nibbleAt (f b).1 r.length := by
    refine hsort.imp_of_mem fun {a b} ha hb hab => ?_
    by_contra hgt
    obtain ⟨qa, -, hqa⟩ := (hiff _ a ha).mp rfl
    obtain ⟨qb, -, hqb⟩ := (hiff _ b hb).mp rfl
    refine absurd (nibbles_lt_iff.mpr ((Arr.lt_iff _ _).mp hab)) (not_lt_of_gt ?_)
    rw [hqa, hqb]
    exact append_cons_lt (not_le.mp hgt) qb qa
  obtain ⟨vs, hvs, hmem, hchunks⟩ := chunkBy_eq (fun a => nibbleAt (f a).1 r.length) hmono
  exact ⟨vs, hvs.imp fun h => h.ne, hmem, hchunks, hiff⟩

lemma filter_eq_cons {α : Type} {l : List α} {p : α → Bool} {a : α} (ha : a ∈ l) (hp : p a = true) :
    ∃ x tail, l.filter p = x :: tail ∧ p x = true := by
  obtain ⟨x, tail, h⟩ := List.exists_cons_of_ne_nil
    (List.ne_nil_of_mem (List.mem_filter.mpr ⟨ha, hp⟩))
  have hx : x ∈ l.filter p := by rw [h]; simp
  exact ⟨x, tail, h, (List.mem_filter.mp hx).2⟩

/-- **The subtrie of sorted leaves.** -/
theorem build_canon (hA : T.Assumes P B) {S : List (Branch N)} (hS : T.Covered P B S) :
    ∀ (fuel n : ℕ) (route : List Nibble) (ls : List (LeafRef N)) (tx : τ),
      route.length + n = 2 * N → n ≤ fuel → ls.Pairwise (fun a b => a.key < b.key) →
      (∀ l ∈ ls, Below n route l.key) → T.Sound P B (rows tx T.table) →
      T.inner (canon n route (findLeaf LeafRef.key ls)) ⊆ S →
      T.Makes (T.build fuel ls route) tx (canon n route (findLeaf LeafRef.key ls)) S := by
  intro fuel
  induction fuel with
  | zero =>
    intro n route ls tx hlen hn hsort hb hsound hsub
    match ls with
    | [] =>
      rw [canon_findLeaf_nil, build]
      exact Makes.pure ⟨rfl, stored_empty⟩
    | [l] =>
      rw [canon_findLeaf_single LeafRef.key (hb l (by simp)), build]
      exact Makes.pure ⟨rfl, stored_leaf l⟩
    | a :: b :: rest =>
      -- without nibbles left there is only one path
      obtain ⟨d, j, -, hlo, hj, -⟩ := canon_findLeaf_split LeafRef.key hlen hsort hb
      omega
  | succ fuel ih =>
    intro n route ls tx hlen hn hsort hb hsound hsub
    match ls with
    | [] =>
      rw [canon_findLeaf_nil, build]
      exact Makes.pure ⟨rfl, stored_empty⟩
    | [l] =>
      rw [canon_findLeaf_single LeafRef.key (hb l (by simp)), build]
      exact Makes.pure ⟨rfl, stored_leaf l⟩
    | first :: next :: rest =>
      obtain ⟨d, j, hfd, hlo, hj, hdl, hbelow, hcanon⟩ :=
        canon_findLeaf_split LeafRef.key hlen hsort hb
      set ls := first :: next :: rest with hls
      rw [hcanon] at hsub ⊢
      -- the groups are the leaves with one nibble at depth `d`
      obtain ⟨vs, hvs, hmem, hchunks, hiff⟩ := chunks_below (f := LeafRef.path) (j := j)
        (r := first.key.take d) (by omega) (hsort.imp fun h => nibbles_lt_iff.mp h) hbelow
      rw [hdl] at hmem hchunks hiff
      have hgroup : ∀ s, (ls.filter fun l => l.key[d]? = some s)
          = ls.filter fun l => nibbleAt l.path.1 d = s := by
        intro s
        refine List.filter_congr fun l hl => ?_
        rw [decide_eq_decide]
        exact Iff.trans (by rw [hdl]) ((hbelow l hl).getElem?_eq_some.trans (hiff s l hl).symm)
      generalize hkids : (fun s => canon j (first.key.take d ++ [s]) (findLeaf LeafRef.key
        (ls.filter fun l => l.key[d]? = some s))) = kids at hsub ⊢
      have hkid : ∀ s, kids s = canon j (first.key.take d ++ [s])
          (findLeaf LeafRef.key (ls.filter fun l => nibbleAt l.path.1 d = s)) := by
        intro s
        rw [← hgroup, ← congrFun hkids s]
      obtain ⟨acc, tx', hr, hg, hall, hother⟩ := Prog.runs_foldlM_slots
        (f := T.buildGroup (T.build (τ := τ) fuel) (first.key.take d))
        (fun s => ls.filter fun l => nibbleAt l.path.1 d = s) (T.Grows S) (Grows.refl S)
        (fun h h' => h.trans h')
        (fun s root tx => root = T.ref (kids s) ∧ T.Stored (rows tx T.table) (kids s))
        (fun hq hg => ⟨hq.1, hq.2.grows hg⟩) (fun _ => RootRef.empty) tx vs
        hvs
        (by
          intro s hs acc tx₁ hg₁ _
          obtain ⟨x, hx, hxs⟩ := (hmem s).mp hs
          have hlen' : (first.key.take d ++ [s]).length + j = 2 * N := by
            rw [List.length_append, hdl, List.length_singleton]
            omega
          have hsub' : T.branches (kids s) ⊆ S := List.Subset.trans (inner_kid _ kids s) hsub
          obtain ⟨e, tx₂, hr₂, he₂, hg₂⟩ := ih j (first.key.take d ++ [s])
            (ls.filter fun l => nibbleAt l.path.1 d = s) tx₁ hlen' (by omega) (hsort.filter _)
            (by
              intro l hl
              obtain ⟨h1, h2⟩ := List.mem_filter.mp hl
              exact (hiff s l h1).mp (by simpa using h2))
            (hsound.grows hg₁ hS) (by rw [← hkid s]; exact List.Subset.trans (inner_subset _) hsub')
          have hkeyed : Keyed (findLeaf LeafRef.key (ls.filter fun l => nibbleAt l.path.1 d = s)) :=
            fun p l hl => ((findLeaf_eq_some LeafRef.key (hsort.filter _)).mp hl).2
          obtain ⟨tx₃, hr₃, hst₃, hg₃⟩ := storeEdited_canon hA hkeyed hlen'
            ((hsound.grows hg₁ hS).grows hg₂ hS) he₂ (by rw [← hkid s]; exact hS.subset hsub')
          rw [← hkid s] at hr₃ hst₃ hg₃
          refine ⟨T.ref (kids s), tx₃, ?_, ⟨rfl, hst₃⟩, hg₂.trans (hg₃.mono hsub')⟩
          -- the group is not empty, and its first leaf names the slot
          obtain ⟨l, tail, hgr, hl⟩ := filter_eq_cons (p := fun l => nibbleAt l.path.1 d = s) hx
            (by simpa using hxs)
          have hslot : nibbleAt l.path.1 d = s := by simpa using hl
          rw [hgr] at hr₂ ⊢
          rw [buildGroup, hdl, hslot]
          exact hr₂.bind (hr₃.bind (Prog.Runs.pure _ _)))
        (fun _ => RootRef.empty) tx (Grows.refl S tx) (fun _ _ => rfl)
      have hempty : ∀ s, s ∉ vs → kids s = .empty := by
        intro s hs
        rw [hkid s, show (ls.filter fun l => nibbleAt l.path.1 d = s) = [] from ?_, canon_findLeaf_nil]
        rw [List.filter_eq_nil_iff]
        intro l hl hls
        exact hs ((hmem s).mpr ⟨l, hl, by simpa using hls⟩)
      have hacc : acc = fun s => T.ref (kids s) := by
        funext s
        by_cases hs : s ∈ vs
        · exact (hall s hs).1
        · rw [hother s hs, hempty s hs, ref]
      have hstored : ∀ s, T.Stored (rows tx' T.table) (kids s) := by
        intro s
        by_cases hs : s ∈ vs
        · exact (hall s hs).2
        · rw [hempty s hs]
          exact stored_empty
      rw [← hchunks, hacc] at hr
      rw [hls, build, ← hls]
      simp only [show firstDiff (nibbles first.path.1)
        (nibbles ((next :: rest).getLast (List.cons_ne_nil _ _)).path.1) route.length (N * 2) = some d
        from by rw [show N * 2 = 2 * N by omega]; exact hfd]
      refine Makes.of_read (Prog.Runs.ofExcept (slice_eq (Nat.zero_le d)
        (by rw [show (nibbles first.path.1).length = 2 * N from first.key_length]; omega))) ?_
      refine Makes.of_runs hr hg ?_
      refine Makes.of_read (Prog.Runs.ofExcept (slice_eq hlo
        (by rw [show (nibbles first.path.1).length = 2 * N from first.key_length]; omega))) ?_
      refine Makes.pure ⟨kids, ?_, rfl, hstored⟩
      rw [List.drop_take]
      rfl

/-! ### The map after a batch -/

section Applied

/-- The map after the edits, in order. -/
def applied (M : Arr N → Option Hash) (edits : List (Edit N)) : Arr N → Option Hash :=
  edits.foldl (fun M e => Function.update M e.1 e.2) M

variable {M : Arr N → Option Hash} {edits : List (Edit N)}

lemma applied_of_not_mem {a : Arr N} (h : ∀ e ∈ edits, e.1 ≠ a) : applied M edits a = M a := by
  rw [applied, foldl_update, lastOf_eq_none.mpr h]
  rfl

lemma applied_of_mem (hsort : edits.Pairwise fun a b => a.1 < b.1) {a : Arr N} {v : Option Hash}
    (h : (a, v) ∈ edits) : applied M edits a = v := by
  rw [applied, foldl_update, (lastOf_of_sorted hsort).mpr h]
  rfl

/-- Edits of other paths can be left out. -/
lemma applied_filter {a : Arr N} {p : Edit N → Bool} (h : ∀ e ∈ edits, e.1 = a → p e = true) :
    applied M (edits.filter p) a = applied M edits a := by
  have hlast : lastOf (edits.filter p) a = lastOf edits a := by
    unfold lastOf
    rw [List.filter_filter, List.filter_congr]
    intro e he
    by_cases hea : e.1 = a
    · simp [hea, h e he hea]
    · simp [hea]
  rw [applied, applied, foldl_update, foldl_update, hlast]

/-- A path of the map after the edits was set by an edit, or was there and is not edited. -/
lemma applied_eq_some {a : Arr N} {x : Hash} (h : applied M edits a = some x) :
    (a, some x) ∈ edits ∨ M a = some x := by
  rw [applied, foldl_update] at h
  cases hl : lastOf edits a with
  | none =>
    rw [hl] at h
    exact .inr h
  | some v =>
    rw [hl, Option.getD_some] at h
    exact .inl (h ▸ mem_of_lastOf hl)

end Applied

section Batch

variable {n : ℕ} {route pre : List Nibble} {M : Arr N → Option Hash} {edits : List (Edit N)} {tx : τ}
  {kids : Nibble → Radix 16 (LeafRef N)} {S : List (Branch N)}

/-- A sorted list with exactly the leaves of a map below the route has the map's tree. -/
lemma canon_findLeaf_eq {ls : List (LeafRef N)} (hs : ls.Pairwise fun a b => a.key < b.key)
    (h : ∀ l, Below n route l.key → (l ∈ ls ↔ M l.path = some l.hash)) :
    canon n route (findLeaf LeafRef.key ls) = canon n route (leafMap M) := by
  refine canon_congr fun p hp => Option.ext fun l => ?_
  rw [findLeaf_eq_some LeafRef.key hs, leafMap_eq_some]
  constructor
  · rintro ⟨hl, rfl⟩
    exact ⟨rfl, (h l hp).mp hl⟩
  · rintro ⟨rfl, hl⟩
    exact ⟨(h l hp).mpr hl, rfl⟩

/-- The leaves that a batch sets, in path order. -/
def setLeaves (edits : List (Edit N)) : List (LeafRef N) :=
  edits.filterMap fun e => e.2.map fun hash => (⟨e.1, hash⟩ : LeafRef N)

lemma mem_setLeaves {l : LeafRef N} : l ∈ setLeaves edits ↔ (l.path, some l.hash) ∈ edits := by
  simp only [setLeaves, List.mem_filterMap, Option.map_eq_some_iff]
  constructor
  · rintro ⟨⟨a, v⟩, he, x, rfl, rfl⟩
    exact he
  · intro h
    exact ⟨_, h, l.hash, rfl, rfl⟩

lemma setLeaves_sorted (hsort : edits.Pairwise fun a b => a.1 < b.1) :
    (setLeaves edits).Pairwise fun a b => a.key < b.key := by
  refine List.pairwise_filterMap.mpr (hsort.imp ?_)
  intro e e' hlt l hl l' hl'
  obtain ⟨x, -, rfl⟩ := Option.map_eq_some_iff.mp hl
  obtain ⟨x', -, rfl⟩ := Option.map_eq_some_iff.mp hl'
  exact nibbles_lt_iff.mpr hlt

lemma insertLeaf_sorted {ls : List (LeafRef N)} (hs : ls.Pairwise fun a b => a.key < b.key)
    {old : LeafRef N} (hold : ∀ l ∈ ls, l.path ≠ old.path) :
    ((ls ++ [old]).insertionSort fun a b => a.path ≤ b.path).Pairwise fun a b => a.key < b.key := by
  have : Std.Total (fun a b : LeafRef N => a.path ≤ b.path) := ⟨fun a b => le_total _ _⟩
  have : IsTrans (LeafRef N) (fun a b => a.path ≤ b.path) := ⟨fun a b c => le_trans⟩
  have hle := List.pairwise_insertionSort (fun a b : LeafRef N => a.path ≤ b.path) (ls ++ [old])
  have hne : ((ls ++ [old]).insertionSort fun a b => a.path ≤ b.path).Pairwise
      fun a b => a.path ≠ b.path := by
    refine ((List.perm_insertionSort _ (ls ++ [old])).pairwise_iff fun h => Ne.symm h).mpr ?_
    refine List.pairwise_append.mpr ⟨hs.imp fun h he => ?_, by simp, ?_⟩
    · rw [LeafRef.key, he] at h
      exact absurd h (lt_irrefl _)
    · intro l hl o ho
      rw [List.mem_singleton.mp ho]
      exact hold l hl
  refine (hle.and hne).imp fun h => ?_
  exact nibbles_lt_iff.mpr ((Arr.lt_iff _ _).mp (lt_of_le_of_ne h.1 h.2))

/-- **An empty or single-leaf subtrie** is rebuilt from the edits. -/
theorem rebuild_canon (hA : T.Assumes P B) (hS : T.Covered P B S) (old : Option (LeafRef N))
    (hlen : route.length + n = 2 * N) (hold : canon n route (leafMap M) = old.elim .empty .leaf)
    (hsort : edits.Pairwise fun a b => a.1 < b.1) (hb : ∀ e ∈ edits, Below n route (nibbles e.1.1))
    (hsound : T.Sound P B (rows tx T.table))
    (hsub : T.inner (canon n route (leafMap (applied M edits))) ⊆ S) :
    T.Makes (T.rebuild old edits route) tx (canon n route (leafMap (applied M edits))) S := by
  -- below the route the old map has the old leaf only
  have hM : ∀ l : LeafRef N, Below n route l.key → (M l.path = some l.hash ↔ old = some l) := by
    intro l hl
    have hiff : M l.path = some l.hash ↔ leafMap M l.key = some l := by
      rw [leafMap_eq_some]
      exact ⟨fun h => ⟨rfl, h⟩, fun h => h.2⟩
    rw [hiff]
    cases old with
    | none => simp [canon_eq_empty.mp hold _ hl]
    | some o =>
      obtain ⟨p, hp, hmp, ho⟩ := canon_leaf_inv hold
      constructor
      · intro h
        by_cases hpe : l.key = p
        · rw [hpe, hmp] at h
          exact h
        · rw [ho _ hl hpe] at h
          cases h
      · intro h
        rw [← Option.some.inj h, leafMap_keyed M p o hmp, hmp]
  have hmake : ∀ ls : List (LeafRef N), ls.Pairwise (fun a b => a.key < b.key) →
      (∀ l ∈ ls, Below n route l.key) →
      (∀ l, Below n route l.key → (l ∈ ls ↔ applied M edits l.path = some l.hash)) →
      T.Makes (T.build (2 * N + 1) ls route) tx (canon n route (leafMap (applied M edits))) S := by
    intro ls hs hbl hmem
    rw [← canon_findLeaf_eq hs hmem] at hsub ⊢
    exact build_canon hA hS (2 * N + 1) n route ls tx hlen (by omega) hs hbl hsound hsub
  have hset : ∀ l ∈ setLeaves edits, Below n route l.key :=
    fun l hl => hb _ (mem_setLeaves.mp hl)
  have hedited : ∀ l : LeafRef N, (∃ e ∈ edits, e.1 = l.path) →
      (l ∈ setLeaves edits ↔ applied M edits l.path = some l.hash) := by
    rintro l ⟨⟨a, v⟩, he, rfl⟩
    rw [mem_setLeaves, applied_of_mem hsort he]
    constructor
    · intro h
      rw [← applied_of_mem (M := M) hsort he, applied_of_mem hsort h]
    · rintro rfl
      exact he
  have hfree : ∀ l : LeafRef N, (∀ e ∈ edits, e.1 ≠ l.path) → l ∉ setLeaves edits :=
    fun l h hl => h _ (mem_setLeaves.mp hl) rfl
  unfold rebuild
  match old with
  | none =>
    refine hmake (setLeaves edits) (setLeaves_sorted hsort) hset fun l hl => ?_
    by_cases he : ∃ e ∈ edits, e.1 = l.path
    · exact hedited l he
    · push Not at he
      rw [applied_of_not_mem he, hM l hl]
      simp [hfree l he]
  | some o =>
    have hob : Below n route o.key := by
      obtain ⟨p, hp, hmp, -⟩ := canon_leaf_inv hold
      rwa [leafMap_keyed M p o hmp]
    by_cases hall : ∀ e ∈ edits, e.1 ≠ o.path
    · simp only [show (edits.all fun e => decide (e.1 ≠ o.path)) = true from by simpa using hall,
        if_true]
      have hmem : ∀ l, l ∈ (setLeaves edits ++ [o]).insertionSort (fun a b => a.path ≤ b.path) ↔
          l ∈ setLeaves edits ∨ l = o := by
        intro l
        rw [(List.perm_insertionSort _ _).mem_iff]
        simp
      refine hmake _ (insertLeaf_sorted (setLeaves_sorted hsort) fun l hl => ?_) ?_ fun l hl => ?_
      · exact fun h => hall _ (mem_setLeaves.mp hl) h
      · intro l hl
        rcases (hmem l).mp hl with h | rfl
        · exact hset l h
        · exact hob
      · refine (hmem l).trans ?_
        by_cases he : ∃ e ∈ edits, e.1 = l.path
        · rw [← hedited l he, or_iff_left]
          rintro rfl
          obtain ⟨e, he, heq⟩ := he
          exact hall e he heq
        · push Not at he
          rw [applied_of_not_mem he, hM l hl, or_iff_right (hfree l he), Option.some.injEq, eq_comm]
    · simp only [show (edits.all fun e => decide (e.1 ≠ o.path)) = false from by
        rw [List.all_eq_false]; push Not at hall; simpa using hall]
      refine hmake (setLeaves edits) (setLeaves_sorted hsort) hset fun l hl => ?_
      by_cases he : ∃ e ∈ edits, e.1 = l.path
      · exact hedited l he
      · push Not at he hall
        obtain ⟨e, hem, heo⟩ := hall
        rw [applied_of_not_mem he, hM l hl, iff_false_left (hfree l he)]
        intro h
        exact he e hem (by rw [heo, Option.some.inj h])

/-- **The split of a branch's prefix**: what is kept is followed by every insertion, and the
children are the subtries below it. -/
lemma splitPrefix_canon (hc : canon n route (leafMap M) = .branch pre kids)
    (hs : ∀ s, T.Stored (rows tx T.table) (kids s)) {kept : ℕ} {split : Nibble → Edited N}
    (h : splitPrefix pre (fun s => T.ref (kids s)) edits route.length = (kept, split)) :
    kept ≤ pre.length ∧
      (∀ e ∈ edits, e.2.isSome → pre.take kept <+: (nibbles e.1.1).drop route.length) ∧
      (∀ s, T.EditedOf (rows tx T.table) (split s)
        (canon (n - kept - 1) (route ++ pre.take kept ++ [s]) (leafMap M))) ∧
      (kept = pre.length → split = fun s => .stored (T.ref (kids s))) := by
  obtain ⟨j, hj, hcom, hkids, -⟩ := canon_branch_inv hc
  unfold splitPrefix at h
  set ds := ((edits.filter fun e => e.2.isSome).map fun e => matched pre e.1.1 route.length) with hds
  -- the least match over the insertions
  have hmin : ds.min?.getD pre.length ≤ pre.length ∧ ∀ d ∈ ds, ds.min?.getD pre.length ≤ d := by
    cases hm : ds.min? with
    | none =>
      rw [List.min?_eq_none_iff] at hm
      simp [hm]
    | some d =>
      obtain ⟨hd, hle⟩ := List.min?_eq_some_iff.mp hm
      obtain ⟨e, -, rfl⟩ := List.mem_map.mp hd
      exact ⟨(matched_spec pre e.1.1 route.length).1, hle⟩
  have hfollow : ∀ e ∈ edits, e.2.isSome →
      pre.take (ds.min?.getD pre.length) <+: (nibbles e.1.1).drop route.length := by
    intro e he hsome
    have hle := hmin.2 (matched pre e.1.1 route.length)
      (List.mem_map.mpr ⟨e, List.mem_filter.mpr ⟨he, hsome⟩, rfl⟩)
    exact (List.take_prefix_take_left hle).trans (matched_spec pre e.1.1 route.length).2.1
  generalize ds.min?.getD pre.length = k at h hmin hfollow
  cases hk : pre[k]? with
  | none =>
    simp only [hk] at h
    obtain ⟨rfl, rfl⟩ := Prod.mk.inj h
    obtain rfl : k = pre.length := le_antisymm hmin.1 (List.getElem?_eq_none_iff.mp hk)
    refine ⟨le_rfl, hfollow, fun s => ?_, fun _ => rfl⟩
    rw [List.take_length, show n - pre.length - 1 = j by omega, ← congrFun hkids s]
    exact EditedOf.stored_ref (hs s)
  | some a =>
    simp only [hk] at h
    obtain ⟨rfl, rfl⟩ := Prod.mk.inj h
    have hlt : k < pre.length := (List.getElem?_eq_some_iff.mp hk).1
    have hta : pre.take k ++ [a] = pre.take (k + 1) := by
      rw [List.take_add_one, hk]
      rfl
    refine ⟨hlt.le, hfollow, fun s => ?_, fun hkl => absurd hkl hlt.ne⟩
    by_cases hsa : s = a
    · rw [hsa, Function.update_self, List.append_assoc, hta, Nat.sub_sub, canon_drop hc hlt]
      exact ⟨kids, rfl, rfl, hs⟩
    · rw [Function.update_of_ne hsa]
      have hempty : canon (n - k - 1) (route ++ pre.take k ++ [s]) (leafMap M) = .empty := by
        refine canon_eq_empty.mpr fun p hp => ?_
        by_contra hmp
        have hpn : Below n route p := by
          refine below_append (j := n - k - 1 + 1) (pre.take k) ?_ (below_succ.mpr ⟨s, hp⟩)
          rw [List.length_take]
          omega
        have hpa : Below (n - k - 1) (route ++ pre.take k ++ [a]) p := by
          refine below_append (j := j + 1) (pre.drop (k + 1)) (by simp; omega) ?_
          rw [List.append_assoc route, hta, List.append_assoc, List.take_append_drop]
          exact hcom p hpn hmp
        exact hsa (hp.head_unique hpa)
      rw [hempty]
      exact ⟨rfl, stored_empty⟩

/-- The edits that follow a prefix are those below the route and the prefix. -/
lemma following_eq {pfx : List Nibble} (hsort : edits.Pairwise fun a b => a.1 < b.1)
    (hb : ∀ e ∈ edits, Below n route (nibbles e.1.1)) :
    following edits pfx route.length
      = edits.filter fun e => decide (pfx <+: (nibbles e.1.1).drop route.length) := by
  have hpred : (fun e : Edit N => decide (matched pfx e.1.1 route.length = pfx.length))
      = fun e => decide (pfx <+: (nibbles e.1.1).drop route.length) := by
    funext e
    rw [decide_eq_decide, matched_eq_length]
  have htake : ∀ e ∈ edits, pfx <+: (nibbles e.1.1).drop route.length ↔
      (nibbles e.1.1).take (route.length + pfx.length) = route ++ pfx := by
    intro e he
    have hr := (hb e he).route_append (d := route.length + pfx.length) (by omega)
    rw [← hr, List.drop_take, Nat.add_sub_cancel_left, List.append_cancel_left_eq,
      List.prefix_iff_eq_take, eq_comm]
  unfold following
  rw [hpred]
  refine trim_eq_filter fun a b c hsub ha hc => ?_
  have habc := hsort.sublist hsub
  have hmem := hsub.subset
  rw [decide_eq_true_eq, htake _ (hmem (by simp))] at ha hc ⊢
  simp only [List.pairwise_cons, List.mem_cons, List.not_mem_nil, or_false, forall_eq_or_imp,
    forall_eq] at habc
  have hlen : ∀ e : Edit N, (nibbles e.1.1).length = 2 * N := fun e => by
    rw [nibbles_length, e.1.2]
  have hle : route.length + pfx.length ≤ 2 * N := by
    have := congrArg List.length ha
    rw [List.length_take, List.length_append, hlen] at this
    omega
  rw [take_eq_of_between (nibbles_lt_iff.mpr habc.1.1) (nibbles_lt_iff.mpr habc.2.1)
    (by rw [hlen]; exact hle) (by rw [hlen]; exact hle) (ha.trans hc.symm), ha]

/-- Below the kept prefix the map after the edits is a collapse of the edited subtrees. -/
lemma canon_applied {pfx : List Nibble} {j : ℕ} (hj : pfx.length + (j + 1) = n)
    (hcom : ∀ p, Below n route p → leafMap M p ≠ none → Below (j + 1) (route ++ pfx) p)
    (hins : ∀ e ∈ edits, e.2.isSome → pfx <+: (nibbles e.1.1).drop route.length) :
    canon n route (leafMap (applied M edits))
      = Radix.collapse pfx fun s => canon j (route ++ pfx ++ [s]) (leafMap (applied M edits)) := by
  refine canon_eq_collapse hj fun p hp hm => ?_
  obtain ⟨l, hl⟩ := Option.ne_none_iff_exists'.mp hm
  obtain ⟨rfl, hset⟩ := leafMap_eq_some.mp hl
  rcases applied_eq_some hset with he | hM
  · exact hp.follow hj (hins _ he rfl)
  · exact hcom _ hp (by rw [leafMap_eq_some.mpr ⟨rfl, hM⟩]; simp)

/-- **A batch on a branch**: its prefix is cut where an insertion leaves it, the subtries are
edited by their groups, and the branch is formed again. -/
theorem applyBranch_canon (hA : T.Assumes P B) (hS : T.Covered P B S)
    {applyChild : Edited N → List (Edit N) → List Nibble → Prog MerkleError τ (Edited N)}
    {hash? : Option Hash} (hlen : route.length + n = 2 * N)
    (hc : canon n route (leafMap M) = .branch pre kids)
    (hs : ∀ s, T.Stored (rows tx T.table) (kids s))
    (hhash : ∀ h, hash? = some h → RootRef.branch h = T.ref (.branch pre kids) ∧
      T.Stored (rows tx T.table) (.branch pre kids))
    (hsort : edits.Pairwise fun a b => a.1 < b.1) (hb : ∀ e ∈ edits, Below n route (nibbles e.1.1))
    (hsound : T.Sound P B (rows tx T.table))
    (hsub : T.inner (canon n route (leafMap (applied M edits))) ⊆ S)
    (hchild : ∀ (j : ℕ) (route' : List Nibble) (e : Edited N) (group : List (Edit N)) (tx₁ : τ),
      j < n → route'.length + j = 2 * N →
      T.EditedOf (rows tx₁ T.table) e (canon j route' (leafMap M)) →
      group.Pairwise (fun a b => a.1 < b.1) → (∀ e ∈ group, Below j route' (nibbles e.1.1)) →
      T.Sound P B (rows tx₁ T.table) →
      T.inner (canon j route' (leafMap (applied M group))) ⊆ S →
      T.Makes (applyChild e group route') tx₁ (canon j route' (leafMap (applied M group))) S) :
    T.Makes (T.applyBranch applyChild hash? pre (fun s => T.ref (kids s)) edits route) tx
      (canon n route (leafMap (applied M edits))) S := by
  obtain ⟨j₀, hj₀, hcom₀, hkids₀, s₁, s₂, hne, hs₁, hs₂⟩ := canon_branch_inv hc
  unfold applyBranch
  rw [if_neg (by omega)]
  rcases hsp : splitPrefix pre (fun s => T.ref (kids s)) edits route.length with ⟨kept, split⟩
  obtain ⟨hkept, hins, hsplit, hsame⟩ := splitPrefix_canon hc hs hsp
  simp only
  set pfx := pre.take kept with hpfx
  have hpl : pfx.length = kept := List.length_take_of_le hkept
  obtain ⟨j, hj⟩ : ∃ j, pfx.length + (j + 1) = n := ⟨n - kept - 1, by omega⟩
  rw [show n - kept - 1 = j by omega] at hsplit
  have hcom : ∀ p, Below n route p → leafMap M p ≠ none → Below (j + 1) (route ++ pfx) p := by
    intro p hp hm
    refine below_append (j := j₀ + 1) (pre.drop kept) (by simp; omega) ?_
    rw [List.append_assoc, hpfx, List.take_append_drop]
    exact hcom₀ p hp hm
  have hcol := canon_applied hj hcom hins
  set kids' := fun s => canon j (route ++ pfx ++ [s]) (leafMap (applied M edits)) with hkids'
  rw [following_eq hsort hb]
  set edits' := edits.filter fun e => decide (pfx <+: (nibbles e.1.1).drop route.length) with hedits'
  have hb' : ∀ e ∈ edits', Below (j + 1) (route ++ pfx) (nibbles e.1.1) := by
    intro e he
    obtain ⟨h1, h2⟩ := List.mem_filter.mp he
    exact (hb e h1).follow hj (of_decide_eq_true h2)
  have hrl : (route ++ pfx).length + (j + 1) = 2 * N := by simp; omega
  obtain ⟨vs, hvs, hmem, hchunks, hiff⟩ := chunks_below (f := Prod.fst) hrl (hsort.filter _) hb'
  -- below a slot, the edits of the batch are those of the slot's group
  have hgroup : ∀ s, canon j (route ++ pfx ++ [s]) (leafMap (applied M
      (edits'.filter fun e => nibbleAt e.1.1 (route ++ pfx).length = s))) = kids' s := by
    intro s
    refine canon_congr fun p hp => leafMap_congr fun a ha => ?_
    subst ha
    have hpre : pfx <+: (nibbles a.1).drop route.length := by
      obtain ⟨q, -, hq⟩ := hp
      rw [hq, List.append_assoc, List.append_assoc, List.drop_left' rfl]
      exact List.prefix_append _ _
    have hin : ∀ e ∈ edits, e.1 = a → e ∈ edits' := by
      rintro e he rfl
      exact List.mem_filter.mpr ⟨he, by simpa using hpre⟩
    rw [applied_filter, applied_filter]
    · rintro e he rfl
      simpa using hpre
    · rintro e he rfl
      simpa using (hiff s e he).mpr hp
  have hinner : ∀ s, T.inner (kids' s) ⊆ S := fun s =>
    List.Subset.trans (inner_collapse pfx kids' s) (hcol ▸ hsub)
  obtain ⟨edited, tx', hr, hg, hall, hother⟩ := Prog.runs_foldlM_slots
    (f := applyGroup applyChild (route ++ pfx))
    (fun s => edits'.filter fun e => nibbleAt e.1.1 (route ++ pfx).length = s) (T.Grows S)
    (Grows.refl S) (fun h h' => h.trans h')
    (fun s e tx => T.EditedOf (rows tx T.table) e (kids' s)) (fun hq hg => hq.grows hg) split tx vs hvs
    (by
      intro s hsv acc tx₁ hg₁ hacc
      obtain ⟨x, hx, hxs⟩ := (hmem s).mp hsv
      obtain ⟨e, tx₂, hr₂, he₂, hg₂⟩ := hchild j (route ++ pfx ++ [s]) (acc s)
        (edits'.filter fun e => nibbleAt e.1.1 (route ++ pfx).length = s) tx₁ (by omega)
        (by rw [List.length_append, List.length_singleton]; omega) (hacc ▸ (hsplit s).grows hg₁)
        ((hsort.filter _).filter _)
        (fun e he => by
          obtain ⟨h1, h2⟩ := List.mem_filter.mp he
          exact (hiff s e h1).mp (by simpa using h2))
        (hsound.grows hg₁ hS) (by rw [hgroup s]; exact hinner s)
      rw [hgroup s] at he₂
      refine ⟨e, tx₂, ?_, he₂, hg₂⟩
      obtain ⟨y, tail, hgr, hy⟩ := filter_eq_cons
        (p := fun e : Edit N => nibbleAt e.1.1 (route ++ pfx).length = s) hx (by simpa using hxs)
      have hslot : nibbleAt y.1.1 (route ++ pfx).length = s := by simpa using hy
      rw [hgr] at hr₂ ⊢
      rw [applyGroup, hslot]
      exact hr₂.bind (Prog.Runs.pure _ _))
    split tx (Grows.refl S tx) (fun _ _ => rfl)
  have hedited : ∀ s, T.EditedOf (rows tx' T.table) (edited s) (kids' s) := by
    intro s
    by_cases hsv : s ∈ vs
    · exact hall s hsv
    · -- a slot without edits keeps its subtree
      have hnil : (edits'.filter fun e => nibbleAt e.1.1 (route ++ pfx).length = s) = [] := by
        rw [List.filter_eq_nil_iff]
        intro e he hes
        exact hsv ((hmem s).mpr ⟨e, he, by simpa using hes⟩)
      have hk := hgroup s
      rw [hnil] at hk
      rw [hother s hsv, ← hk]
      exact (hsplit s).grows hg
  rw [← hchunks] at hr
  refine Makes.of_runs hr hg ?_
  by_cases hun : ¬ kept < pre.length ∧ ∀ slot, edited slot = .stored (T.ref (kids slot))
  · rw [if_pos hun]
    obtain ⟨hnot, hun⟩ := hun
    obtain rfl : kept = pre.length := le_antisymm hkept (not_lt.mp hnot)
    have hpp : pfx = pre := by rw [hpfx, List.take_length]
    have hrefs : (fun s => T.ref (kids' s)) = fun s => T.ref (kids s) := by
      funext s
      have := hedited s
      rw [hun s] at this
      exact this.1.symm
    have hstored : ∀ s, T.Stored (rows tx' T.table) (kids' s) := by
      intro s
      have := hedited s
      rw [hun s] at this
      exact this.2
    have hempty : ∀ s, kids' s = .empty ↔ kids s = .empty := by
      intro s
      rw [← T.ref_eq_empty, ← T.ref_eq_empty (t := kids s)]
      exact Eq.congr (congrFun hrefs s) rfl
    rw [hcol, collapse_many hne (mt (hempty s₁).mp hs₁) (mt (hempty s₂).mp hs₂), hpp]
    match hash? with
    | some h =>
      obtain ⟨hroot, hst⟩ := hhash h rfl
      obtain ⟨node, hof, hrow⟩ := hst _ (T.branches_branch.mpr (.inl rfl))
      refine Makes.pure ⟨?_, stored_branch hstored ?_⟩
      · rw [hroot, ref, ref, hrefs]
      · rw [hrefs]
        exact ⟨node, hof, hg.kept _ _ hrow⟩
    | none => exact Makes.pure ⟨kids', rfl, hrefs.symm, hstored⟩
  · rw [if_neg hun]
    rw [hcol] at hsub ⊢
    exact collapse_canon hA (leafMap_keyed _) hlen hj (hsound.grows hg hS) (fun s => rfl) hedited hS hsub

end Batch

/-- **A batch on a subtrie** makes the tree of the map after the batch. -/
theorem applyAt_canon (hA : T.Assumes P B) {S : List (Branch N)} (hS : T.Covered P B S)
    (M : Arr N → Option Hash) :
    ∀ (fuel n : ℕ) (route : List Nibble) (e : Edited N) (edits : List (Edit N)) (tx : τ), n < fuel →
      route.length + n = 2 * N → T.EditedOf (rows tx T.table) e (canon n route (leafMap M)) →
      edits.Pairwise (fun a b => a.1 < b.1) → (∀ e ∈ edits, Below n route (nibbles e.1.1)) →
      T.Sound P B (rows tx T.table) →
      T.inner (canon n route (leafMap (applied M edits))) ⊆ S →
      T.Makes (T.applyAt fuel e edits route) tx (canon n route (leafMap (applied M edits))) S := by
  intro fuel
  induction fuel with
  | zero => intro n route e edits tx hn; omega
  | succ fuel ih =>
    intro n route e edits tx hn hlen he hsort hb hsound hsub
    have hchild : ∀ (j : ℕ) (route' : List Nibble) (e : Edited N) (group : List (Edit N)) (tx₁ : τ),
        j < n → route'.length + j = 2 * N → _ :=
      fun j route' e group tx₁ hj hl => ih j route' e group tx₁ (by omega) hl
    cases e with
    | new pfx refs =>
      obtain ⟨kids, hc, rfl, hst⟩ := he
      exact applyBranch_canon hA hS hlen hc hst (fun h hh => by cases hh) hsort hb hsound hsub hchild
    | stored root =>
      obtain ⟨rfl, hst⟩ := he
      cases hc : canon n route (leafMap M) with
      | empty => exact rebuild_canon hA hS none hlen hc hsort hb hsound hsub
      | leaf l => exact rebuild_canon hA hS (some l) hlen hc hsort hb hsound hsub
      | branch pre kids =>
        rw [hc] at hst
        obtain ⟨node, hload, hof⟩ := load_canon tx hA.valid (leafMap_keyed M) hlen hc hst
        rw [ref, applyAt]
        refine Makes.of_read (Prog.Runs.read hload) ?_
        rw [hof.unpackPrefix, hof.children]
        refine applyBranch_canon hA hS hlen hc hst.kid (fun h hh => ?_) hsort hb hsound hsub hchild
        rw [← Option.some.inj hh]
        exact ⟨rfl, hst⟩

/-- **The batched edit writes the tree of the map after the whole batch**, in order. -/
theorem apply_tree (hA : T.Assumes P B) {M : Arr N → Option Hash} {edits : List (Edit N)} {tx : τ}
    (hsound : T.Sound P B (rows tx T.table)) (hs : T.Stored (rows tx T.table) (tree M))
    (hf : T.Fits P B (tree (applied M edits))) :
    T.Writes (T.apply (T.ref (tree M)) edits) tx (tree (applied M edits)) := by
  have hnorm : applied M (normalize edits) = applied M edits := foldl_update_normalize edits M
  have hbelow : ∀ a : Arr N, Below (2 * N) [] (nibbles a.1) := fun a =>
    ⟨nibbles a.1, by rw [nibbles_length, a.2], rfl⟩
  obtain ⟨e, tx₁, hr₁, he₁, hg₁⟩ := applyAt_canon hA hf M (2 * N + 1) (2 * N) []
    (.stored (T.ref (tree M))) (normalize edits) tx (by omega) (by simp) ⟨rfl, hs⟩
    (normalize_sorted edits) (fun e _ => hbelow e.1) hsound
    (by rw [hnorm]; exact inner_subset _)
  rw [hnorm] at he₁
  obtain ⟨tx₂, hr₂, hst₂, hg₂⟩ := storeEdited_canon hA (leafMap_keyed (applied M edits)) (by simp)
    (hsound.grows hg₁ hf) he₁ hf
  exact ⟨tx₂, hr₁.bind hr₂, hst₂, hg₁.trans hg₂⟩

end Trie

end GolemDb.Merkle
