import GolemDb.Index.Frame
import GolemDb.Merkle.Flat

/-!
Posting sets in containers. The ids of a set with the same high 48 bits are one container, whose
bytes are hashed for a leaf of the set's tree (`containerMap`). The tables keep the containers and
the branches of every set that was ever written (`Bitmaps`, `Held`), and a digest binds its set
(`setDigest_inj`).
-/

namespace GolemDb.Index

open GolemDb.Lib GolemDb.Lib.Radix GolemDb.Storage GolemDb.Merkle

/-! ### Ids, paths and offsets -/

lemma path_le (v : U64) : (split v).1 ≤ MAX_PATH := by
  have := v.isLt
  unfold split MAX_PATH
  simp only
  omega

lemma path_lt {hi : ℕ} (h : hi ≤ MAX_PATH) : hi < 256 ^ 6 := by
  unfold MAX_PATH at h
  norm_num at h ⊢
  omega

lemma id_val {hi lo : ℕ} (h : hi ≤ MAX_PATH) (hlo : lo < 2 ^ 16) :
    (BitmapContainer.id hi lo).val = hi * 2 ^ 16 + lo := by
  unfold MAX_PATH at h
  unfold BitmapContainer.id
  rw [Fin.val_ofNat]
  exact Nat.mod_eq_of_lt (by omega)

lemma split_id {hi : ℕ} (h : hi ≤ MAX_PATH) (lo : Offset) : split (BitmapContainer.id hi lo.val) = (hi, lo) := by
  have hval := id_val h lo.isLt
  have hlo := lo.isLt
  refine Prod.ext ?_ (Fin.ext ?_)
  · show (BitmapContainer.id hi lo.val).val / 2 ^ 16 = hi
    omega
  · show (BitmapContainer.id hi lo.val).val % 2 ^ 16 = lo.val
    omega

lemma id_split (v : U64) : BitmapContainer.id (split v).1 (split v).2.val = v := by
  refine Fin.ext ?_
  rw [id_val (path_le v) (split v).2.isLt]
  show v.val / 2 ^ 16 * 2 ^ 16 + v.val % 2 ^ 16 = v.val
  omega

lemma split_inj {v v' : U64} (h : split v = split v') : v = v' := by
  rw [← id_split v, h, id_split]

/-- The six bytes of a container's path. -/
def path6 (hi : ℕ) : Arr 6 := ⟨beBytes 6 hi, path6_length hi⟩

lemma path6_inj {hi hi' : ℕ} (h : hi ≤ MAX_PATH) (h' : hi' ≤ MAX_PATH) (he : path6 hi = path6 hi') : hi = hi' :=
  beBytes_inj (path_lt h) (path_lt h') (congrArg Subtype.val he)

lemma pathBytes_eq {hi : ℕ} (h : hi ≤ MAX_PATH) : pathBytes hi = .ok (path6 hi) := by
  unfold pathBytes
  rw [if_neg (not_not.mpr (by simp [isValidPath, h]))]
  rfl

lemma ofBe_path6 {hi : ℕ} (h : hi ≤ MAX_PATH) : ofBe (path6 hi).1 = hi := ofBe_beBytes (path_lt h)

/-- Every six bytes are a path. -/
lemma exists_path6 (p : Arr 6) : ∃ hi ≤ MAX_PATH, p = path6 hi := by
  have hlt := ofBe_lt p.1
  rw [p.2] at hlt
  refine ⟨ofBe p.1, ?_, Subtype.ext ?_⟩
  · unfold MAX_PATH
    norm_num at hlt ⊢
    omega
  · have := beBytes_ofBe p.1
    rw [p.2] at this
    exact this.symm

/-! ### Containers of a set -/

/-- The offsets of a set under a path. -/
def offsets (S : OrdSet U64) (hi : ℕ) : RoaringBitmap :=
  OrdSet.ofList ((S.toList.filter fun v => (split v).1 = hi).map fun v => (split v).2.val)

section Sets

variable {S S' : OrdSet U64} {hi lo : ℕ}

lemma mem_offsets : lo ∈ offsets S hi ↔ ∃ v ∈ S, (split v).1 = hi ∧ (split v).2.val = lo := by
  unfold offsets
  rw [OrdSet.mem_ofList, List.mem_map]
  constructor
  · rintro ⟨v, hv, rfl⟩
    obtain ⟨hmem, hpath⟩ := List.mem_filter.mp hv
    exact ⟨v, OrdSet.mem_toList.mp hmem, of_decide_eq_true hpath, rfl⟩
  · rintro ⟨v, hv, hpath, rfl⟩
    exact ⟨v, List.mem_filter.mpr ⟨OrdSet.mem_toList.mpr hv, decide_eq_true hpath⟩, rfl⟩

lemma split_mem_offsets {v : U64} : (split v).2.val ∈ offsets S (split v).1 ↔ v ∈ S := by
  rw [mem_offsets]
  constructor
  · rintro ⟨w, hw, hpath, hoff⟩
    rwa [← split_inj (Prod.ext hpath (Fin.ext hoff))]
  · exact fun hv => ⟨v, hv, rfl, rfl⟩

lemma small_offsets (S : OrdSet U64) (hi : ℕ) : Small (offsets S hi) := by
  intro lo hlo
  obtain ⟨v, -, -, rfl⟩ := mem_offsets.mp hlo
  exact (split v).2.isLt

/-- Sets with the same containers are equal. -/
lemma ext_offsets (h : ∀ hi ≤ MAX_PATH, offsets S hi = offsets S' hi) : S = S' :=
  OrdSet.ext fun v => by rw [← split_mem_offsets, ← split_mem_offsets, h _ (path_le v)]

lemma offsets_empty (hi : ℕ) : offsets OrdMap.empty hi = OrdMap.empty := by
  refine OrdSet.eq_empty_iff.mpr fun lo hlo => ?_
  obtain ⟨v, hv, -⟩ := mem_offsets.mp hlo
  exact OrdSet.not_mem_empty v hv

lemma offsets_ne_empty : offsets S hi ≠ OrdMap.empty ↔ ∃ v ∈ S, (split v).1 = hi := by
  rw [Ne, OrdSet.eq_empty_iff, not_forall]
  constructor
  · rintro ⟨lo, hlo⟩
    obtain ⟨v, hv, hpath, -⟩ := mem_offsets.mp (not_not.mp hlo)
    exact ⟨v, hv, hpath⟩
  · rintro ⟨v, hv, rfl⟩
    exact ⟨_, not_not.mpr (split_mem_offsets.mpr hv)⟩

/-- Putting an id in or out changes its own container. -/
lemma offsets_assign (v : U64) (present : Bool) (hi : ℕ) : offsets (S.assign v present) hi
    = if (split v).1 = hi then (offsets S hi).assign (split v).2.val present else offsets S hi := by
  refine OrdSet.ext fun lo => ?_
  rw [mem_offsets]
  split_ifs with hpath
  · subst hpath
    rw [OrdSet.mem_assign, mem_offsets]
    constructor
    · rintro ⟨w, hw, hw1, rfl⟩
      rw [OrdSet.mem_assign] at hw
      split_ifs at hw with hwv
      · rw [if_pos (by rw [hwv])]
        exact hw
      · rw [if_neg fun he => hwv (split_inj (Prod.ext hw1 (Fin.ext he)))]
        exact ⟨w, hw, hw1, rfl⟩
    · split_ifs with hlo
      · intro hp
        refine ⟨v, ?_, rfl, hlo.symm⟩
        rw [OrdSet.mem_assign, if_pos rfl]
        exact hp
      · rintro ⟨w, hw, hw1, rfl⟩
        refine ⟨w, ?_, hw1, rfl⟩
        rw [OrdSet.mem_assign, if_neg fun he => hlo (by rw [he])]
        exact hw
  · rw [mem_offsets]
    refine exists_congr fun w => ?_
    rw [OrdSet.mem_assign]
    constructor
    · rintro ⟨hw, hw1, hlo⟩
      have hne : w ≠ v := fun he => hpath (by rw [← he]; exact hw1)
      rw [if_neg hne] at hw
      exact ⟨hw, hw1, hlo⟩
    · rintro ⟨hw, hw1, hlo⟩
      have hne : w ≠ v := fun he => hpath (by rw [← he]; exact hw1)
      rw [if_neg hne]
      exact ⟨hw, hw1, hlo⟩

end Sets

/-! ### The tree of a set -/

section Tree

variable (H : HashProvider) (R : Roaring) (S : OrdSet U64)

/-- The bytes of the container under a path. -/
def containerBytes (hi : ℕ) : Bytes := (path6 hi).1 ++ R.encode (offsets S hi)

/-- **The map a set's trie commits to**: the paths of its containers to their hashes. -/
def containerMap : OrdMap (Arr 6) Hash :=
  S.toList.foldl (fun M v => M.insert (path6 (split v).1)
    (containerHash H (containerBytes R S (split v).1))) OrdMap.empty

def setTree : Radix 16 (LeafRef 6) := refTree (containerMap H R S)

def setRoot : RootRef 6 := (bitmapTrie H).ref (setTree H R S)

/-- **The digest of a set**; the empty set has none. -/
def setDigest : Option Hash := if S = OrdMap.empty then none else some ((setRoot H R S).hash H)

/-- What is hashed for a set: its containers and branches. -/
def setPreimages : List Bytes :=
  (S.toList.map fun v => BITMAP_LEAF_DOMAIN :: containerBytes R S (split v).1)
    ++ ((bitmapTrie H).branches (setTree H R S)).map (bitmapTrie H).preimage

variable {H R S}

lemma get?_foldl_const {α : Type} (f : α → Arr 6) (g : Arr 6 → Hash) :
    ∀ (l : List α) (M : OrdMap (Arr 6) Hash) (p : Arr 6),
    (l.foldl (fun M a => M.insert (f a) (g (f a))) M).get? p = if p ∈ l.map f then some (g p) else M.get? p := by
  intro l
  induction l with
  | nil => exact fun _ _ => rfl
  | cons a l ih =>
    intro M p
    rw [List.foldl_cons, ih, OrdMap.get?_insert, List.map_cons]
    by_cases hp : p = f a
    · subst hp
      simp
    · simp [hp]

/-- The container's hash at a path. -/
theorem get?_containerMap {hi : ℕ} (h : hi ≤ MAX_PATH) : (containerMap H R S).get? (path6 hi)
    = if offsets S hi = OrdMap.empty then none else some (containerHash H (containerBytes R S hi)) := by
  have hfold : containerMap H R S = S.toList.foldl (fun M v => M.insert (path6 (split v).1)
      ((fun p : Arr 6 => containerHash H (containerBytes R S (ofBe p.1))) (path6 (split v).1))) OrdMap.empty := by
    unfold containerMap
    refine congrArg (fun f => S.toList.foldl f OrdMap.empty) (funext fun M => funext fun v => ?_)
    simp only [ofBe_path6 (path_le v)]
  rw [hfold]
  refine (get?_foldl_const (fun v => path6 (split v).1)
    (fun p => containerHash H (containerBytes R S (ofBe p.1))) _ _ _).trans ?_
  rw [OrdMap.get?_empty, ofBe_path6 h]
  have hiff : path6 hi ∈ S.toList.map (fun v => path6 (split v).1) ↔ offsets S hi ≠ OrdMap.empty := by
    rw [offsets_ne_empty, List.mem_map]
    constructor
    · rintro ⟨v, hv, he⟩
      exact ⟨v, OrdSet.mem_toList.mp hv, path6_inj (path_le v) h he⟩
    · rintro ⟨v, hv, rfl⟩
      exact ⟨v, OrdSet.mem_toList.mpr hv, rfl⟩
  by_cases he : offsets S hi = OrdMap.empty
  · rw [if_pos he, if_neg fun hm => hiff.mp hm he]
  · rw [if_neg he, if_pos (hiff.mpr he)]

lemma containerMap_eq_some {p : Arr 6} {h : Hash} : (containerMap H R S).get? p = some h ↔
    ∃ v ∈ S, p = path6 (split v).1 ∧ h = containerHash H (containerBytes R S (split v).1) := by
  obtain ⟨hi, hle, rfl⟩ := exists_path6 p
  rw [get?_containerMap hle]
  constructor
  · intro hs
    split_ifs at hs with he
    obtain ⟨v, hv, rfl⟩ := offsets_ne_empty.mp he
    exact ⟨v, hv, rfl, (Option.some.inj hs).symm⟩
  · rintro ⟨v, hv, hp, rfl⟩
    obtain rfl := path6_inj hle (path_le v) hp
    rw [if_neg (offsets_ne_empty.mpr ⟨v, hv, rfl⟩)]

lemma mem_leaves_setTree {l : LeafRef 6} : l ∈ (setTree H R S).leaves ↔
    ∃ v ∈ S, l = ⟨path6 (split v).1, containerHash H (containerBytes R S (split v).1)⟩ := by
  rw [setTree, leaves_refTree, mem_leavesOf, containerMap_eq_some]
  refine exists_congr fun v => and_congr_right fun _ => ?_
  constructor
  · rintro ⟨hp, hh⟩
    cases l
    simp_all
  · rintro rfl
    exact ⟨rfl, rfl⟩

lemma containerHash_eq (bytes : Bytes) : containerHash H bytes = H.hash (BITMAP_LEAF_DOMAIN :: bytes) := by
  simp [containerHash, HashProvider.hashParts]

end Tree

/-! ### Sets in the tables -/

section Tables

variable (H : HashProvider) (R : Roaring) (P : Set Bytes)

/-- **The tables of posting sets**: containers under their own hashes, and branches, all with
preimages in `P`. -/
structure Bitmaps (r : Table → Rows) : Prop where
  nil : [] ∈ P
  trie : (bitmapTrie H).Sound P (leavesIn H BITMAP_LEAF_DOMAIN P) (r BITMAP_TRIE)
  containers : ∀ k v, (r BITMAP_CONTAINER).get? k = some v → BITMAP_LEAF_DOMAIN :: v ∈ P ∧ k = (containerHash H v).1

/-- **The set is held**: its branches and containers are in the tables. -/
structure Held (r : Table → Rows) (S : OrdSet U64) : Prop where
  preimages : ∀ x ∈ setPreimages H R S, x ∈ P
  stored : (bitmapTrie H).Stored (r BITMAP_TRIE) (setTree H R S)
  containers : ∀ v ∈ S, (r BITMAP_CONTAINER).get? (containerHash H (containerBytes R S (split v).1)).1
    = some (containerBytes R S (split v).1)

variable {H R P} {r r' : Table → Rows} {S S' : OrdSet U64}

lemma Held.container_mem (h : Held H R P r S) {v : U64} (hv : v ∈ S) :
    BITMAP_LEAF_DOMAIN :: containerBytes R S (split v).1 ∈ P :=
  h.preimages _ (List.mem_append_left _ (List.mem_map_of_mem (OrdSet.mem_toList.mpr hv)))

lemma leaf_mem_leavesIn {bytes : Bytes} {hi : ℕ} (h : BITMAP_LEAF_DOMAIN :: ((path6 hi).1 ++ bytes) ∈ P) :
    (⟨path6 hi, containerHash H ((path6 hi).1 ++ bytes)⟩ : LeafRef 6) ∈ leavesIn H BITMAP_LEAF_DOMAIN P :=
  ⟨bytes, h, containerHash_eq _⟩

/-- A set's tree is hashed from its preimages. -/
lemma hashed_setTree (h : ∀ x ∈ setPreimages H R S, x ∈ P) :
    (bitmapTrie H).Hashed BITMAP_LEAF_DOMAIN P (setTree H R S) := by
  have hleaves : ∀ l ∈ (setTree H R S).leaves, l ∈ leavesIn H BITMAP_LEAF_DOMAIN P := by
    intro l hl
    obtain ⟨v, hv, rfl⟩ := mem_leaves_setTree.mp hl
    exact leaf_mem_leavesIn (h _ (List.mem_append_left _ (List.mem_map_of_mem (OrdSet.mem_toList.mpr hv))))
  refine ⟨fun b hb => ⟨h _ (List.mem_append_right _ (List.mem_map_of_mem hb)), fun s l hl => ?_⟩, hleaves⟩
  exact hleaves l (Trie.mem_leaves_of_branch hb hl)

lemma bitmap_domains : BITMAP_LEAF_DOMAIN ≠ (bitmapTrie H).domain := by
  show (0x04 : UInt8) ≠ 0x05
  decide

lemma bitmap_assumes (hinj : Set.InjOn H.hash P) : (bitmapTrie H).Assumes P (leavesIn H BITMAP_LEAF_DOMAIN P) :=
  ⟨BITMAP_TRIE_valid, hinj, leavesIn_bind hinj⟩

/-- Sets with one tree are equal. -/
lemma setTree_inj (hinj : Set.InjOn H.hash P) (h : ∀ x ∈ setPreimages H R S, x ∈ P)
    (h' : ∀ x ∈ setPreimages H R S', x ∈ P) (he : setTree H R S = setTree H R S') : S = S' := by
  have hmap := refTree_inj he
  have hmem : ∀ {S : OrdSet U64}, (∀ x ∈ setPreimages H R S, x ∈ P) → ∀ {hi : ℕ}, offsets S hi ≠ OrdMap.empty →
      BITMAP_LEAF_DOMAIN :: containerBytes R S hi ∈ P := by
    intro S hS hi hne
    obtain ⟨v, hv, rfl⟩ := offsets_ne_empty.mp hne
    exact hS _ (List.mem_append_left _ (List.mem_map_of_mem (OrdSet.mem_toList.mpr hv)))
  refine ext_offsets fun hi hle => ?_
  have hget : (containerMap H R S).get? (path6 hi) = (containerMap H R S').get? (path6 hi) := by rw [hmap]
  rw [get?_containerMap hle, get?_containerMap hle] at hget
  split_ifs at hget with h1 h2 h2
  · rw [h1, h2]
  · have hhash := Option.some.inj hget
    rw [containerHash_eq, containerHash_eq] at hhash
    have hbytes := (List.cons.inj (hinj (hmem h h1) (hmem h' h2) hhash)).2
    exact R.encode_inj (small_offsets S hi) (small_offsets S' hi) (List.append_cancel_left hbytes)

/-- **A digest binds its set**, also across states. -/
theorem setDigest_inj (hinj : Set.InjOn H.hash P) (hnil : [] ∈ P) (h : Held H R P r S) (h' : Held H R P r' S')
    (he : setDigest H R S = setDigest H R S') : S = S' := by
  unfold setDigest at he
  split_ifs at he with h1 h2 h2
  · rw [h1, h2]
  · refine setTree_inj hinj h.preimages h'.preimages ?_
    exact Trie.digest_inj (T := bitmapTrie H) BITMAP_TRIE_valid hinj bitmap_domains hnil h.stored h'.stored
      (hashed_setTree h.preimages) (hashed_setTree h'.preimages) (Option.some.inj he)

/-! ### Growing tables -/

/-- **The tables grew by a set**: rows of other tables are as before, no container or branch is gone,
and the new ones belong to the set. -/
structure Grown (H : HashProvider) (R : Roaring) (S : OrdSet U64) (r r' : Table → Rows) : Prop where
  frame : ∀ t, t ≠ BITMAP_TRIE → t ≠ BITMAP_CONTAINER → r' t = r t
  kept : ∀ t k v, (r t).get? k = some v → (r' t).get? k = some v
  branches : ∀ k v, (r' BITMAP_TRIE).get? k = some v → (r BITMAP_TRIE).get? k = some v ∨
    ∃ b ∈ (bitmapTrie H).branches (setTree H R S), ∃ node, NodeOf node b.1 b.2 ∧ k = ((bitmapTrie H).branchHash b).1 ∧
      v = node.encode
  containers : ∀ k v, (r' BITMAP_CONTAINER).get? k = some v → (r BITMAP_CONTAINER).get? k = some v ∨
    ∃ x ∈ S, k = (containerHash H (containerBytes R S (split x).1)).1 ∧ v = containerBytes R S (split x).1

lemma Grown.refl (S : OrdSet U64) (r : Table → Rows) : Grown H R S r r :=
  ⟨fun _ _ _ => rfl, fun _ _ _ h => h, fun _ _ h => .inl h, fun _ _ h => .inl h⟩

lemma Grown.trans {r'' : Table → Rows} (h : Grown H R S r r') (h' : Grown H R S r' r'') : Grown H R S r r'' := by
  refine ⟨fun t h1 h2 => (h'.frame t h1 h2).trans (h.frame t h1 h2), fun t k v hk => h'.kept t k v (h.kept t k v hk),
    fun k v hk => ?_, fun k v hk => ?_⟩
  · exact (h'.branches k v hk).elim (h.branches k v) .inr
  · exact (h'.containers k v hk).elim (h.containers k v) .inr

lemma Held.mono (h : Held H R P r S) (hr : ∀ t k v, (r t).get? k = some v → (r' t).get? k = some v) : Held H R P r' S :=
  ⟨h.preimages, h.stored.mono (hr BITMAP_TRIE), fun v hv => hr BITMAP_CONTAINER _ _ (h.containers v hv)⟩

/-- Only the tables of branches and containers matter. -/
lemma Held.congr (h : Held H R P r S) (ht : r' BITMAP_TRIE = r BITMAP_TRIE)
    (hc : r' BITMAP_CONTAINER = r BITMAP_CONTAINER) :
    Held H R P r' S :=
  ⟨h.preimages, ht ▸ h.stored, hc ▸ h.containers⟩

lemma Bitmaps.congr (h : Bitmaps H P r) (ht : r' BITMAP_TRIE = r BITMAP_TRIE)
    (hc : r' BITMAP_CONTAINER = r BITMAP_CONTAINER) :
    Bitmaps H P r' :=
  ⟨h.nil, ht ▸ h.trie, hc ▸ h.containers⟩

lemma Bitmaps.grown (h : Bitmaps H P r) (hS : ∀ x ∈ setPreimages H R S, x ∈ P) (hg : Grown H R S r r') :
    Bitmaps H P r' := by
  refine ⟨h.nil, fun k v hk => ?_, fun k v hk => ?_⟩
  · rcases hg.branches k v hk with hk | ⟨b, hb, node, hnode, hkey, hval⟩
    · exact h.trie k v hk
    · exact ⟨b, node, hnode, hkey, hval, (hashed_setTree hS).fits b hb⟩
  · rcases hg.containers k v hk with hk | ⟨x, hx, rfl, rfl⟩
    · exact h.containers k v hk
    · exact ⟨hS _ (List.mem_append_left _ (List.mem_map_of_mem (OrdSet.mem_toList.mpr hx))), rfl⟩

lemma held_empty (r : Table → Rows) : Held H R P r OrdMap.empty := by
  have htree : setTree H R OrdMap.empty = .empty := Trie.refTree_empty
  refine ⟨fun x hx => ?_, ?_, fun v hv => absurd hv (OrdSet.not_mem_empty v)⟩
  · rw [setPreimages, htree] at hx
    simp [OrdSet.toList, OrdMap.keys, OrdMap.empty, Trie.branches] at hx
  · rw [htree]
    exact Trie.stored_empty

end Tables

end GolemDb.Index
