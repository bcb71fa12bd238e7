import GolemDb.Merkle.Raw
import GolemDb.Index.Sets

/-!
Posting sets read and written under their digests. A held set opens from its digest, loads its
containers and reads back in full (`bitmap_held`), and a batch of assignments leads to the digest
of the set after them and to tables that hold it (`apply_held`).
-/

namespace GolemDb.Index

open GolemDb.Lib GolemDb.Lib.Radix GolemDb.Storage GolemDb.Merkle

/-! ### Containers -/

/-- The container of a set under a path. -/
def container (S : OrdSet U64) (hi : ℕ) (h : hi ≤ MAX_PATH) : BitmapContainer :=
  ⟨hi, offsets S hi, h, small_offsets S hi⟩

section Containers

variable {H : HashProvider} {R : Roaring} {S : OrdSet U64} {hi : ℕ} (h : hi ≤ MAX_PATH)

lemma isEmpty_eq {s : RoaringBitmap} : OrdMap.isEmpty s = true ↔ s = OrdMap.empty := by
  rw [OrdSet.isEmpty_iff, OrdSet.eq_empty_iff]

lemma canonicalBytes_container (hne : offsets S hi ≠ OrdMap.empty) :
    (container S hi h).canonicalBytes R = .ok (containerBytes R S hi) := by
  unfold BitmapContainer.canonicalBytes BitmapContainer.isEmpty container
  rw [if_neg fun he => hne (isEmpty_eq.mp he), pathBytes_eq h]
  rfl

lemma new_offsets : BitmapContainer.new hi (offsets S hi) = .ok (container S hi h) := by
  unfold BitmapContainer.new
  rw [dif_pos h, dif_pos fun v hv => small_offsets S hi v (OrdSet.mem_toList.mp hv)]
  rfl

/-- The bytes of a container decode to it. -/
lemma decode_containerBytes (hne : offsets S hi ≠ OrdMap.empty) :
    BitmapTrie.decode H R (containerHash H (containerBytes R S hi))
      (containerBytes R S hi) = .ok (container S hi h) := by
  have hlen : ¬ (containerBytes R S hi).length < 6 := by
    unfold containerBytes
    rw [List.length_append, (path6 hi).2]
    omega
  have htake : (containerBytes R S hi).take 6 = (path6 hi).1 := List.take_left' (path6 hi).2
  have hdrop : (containerBytes R S hi).drop 6 = R.encode (offsets S hi) := List.drop_left' (path6 hi).2
  unfold BitmapTrie.decode BitmapContainer.decode
  rw [if_neg (not_not.mpr rfl), if_neg hlen, hdrop, R.decode_encode _ (small_offsets S hi), htake, ofBe_path6 h,
    mapError_ok, ok_bind, new_offsets h, ok_bind, canonicalBytes_container h hne, ok_bind, if_neg (not_not.mpr rfl)]
  rfl

end Containers

/-! ### Reading -/

section Read

variable {H : HashProvider} {R : Roaring} {P : Set Bytes} {ρ : Type} [ReadTransaction ρ] [LawfulRead ρ] {tx : ρ}
  {S : OrdSet U64}

/-- The container of a leaf loads. -/
lemma load_held (hS : Held H R P (rows tx) S) {v : U64} (hv : v ∈ S) :
    BitmapTrie.load H R tx ⟨path6 (split v).1, containerHash H (containerBytes R S (split v).1)⟩
      = .ok (container S (split v).1 (path_le v)) := by
  unfold BitmapTrie.load
  rw [LawfulRead.get_eq BITMAP_CONTAINER_valid, hS.containers v hv, mapError_ok, ok_bind]
  simp only
  rw [decode_containerBytes (path_le v) (offsets_ne_empty.mpr ⟨v, hv, rfl⟩), ok_bind]
  have hpath : pathBytes (container S (split v).1 (path_le v)).path = .ok (path6 (split v).1) :=
    pathBytes_eq (path_le v)
  rw [hpath, mapError_ok, ok_bind, if_neg (not_not.mpr rfl)]
  rfl

/-- What the trie has at a path. -/
lemma get_held (hS : Held H R P (rows tx) S) {hi : ℕ} (h : hi ≤ MAX_PATH) :
    (bitmapTrie H).get tx (setRoot H R S) (path6 hi) = .ok (if offsets S hi = OrdMap.empty then none
      else some ⟨path6 hi, containerHash H (containerBytes R S hi)⟩) := by
  have hget := (Trie.reads_refTree (T := bitmapTrie H) BITMAP_TRIE_valid hS.stored).1 (path6 hi)
  refine hget.trans (congrArg _ ?_)
  rw [get?_containerMap h]
  split_ifs <;> rfl

/-- A set with a lone leaf has one container, which is cached when the digest is opened. -/
def Cached (S : OrdSet U64) (cached : Option BitmapContainer) : Prop :=
  ∀ c, cached = some c → ∀ v ∈ S, c = container S (split v).1 (path_le v)

lemma reopen_container {hash : Hash} {bytes : Bytes} {c : BitmapContainer} {path : Arr 6} (hne : hash ≠ H.hash [])
    (hrow : (rows tx BITMAP_CONTAINER).get? hash.1 = some bytes) (hdecode : BitmapTrie.decode H R hash bytes = .ok c)
    (hpath : pathBytes c.path = .ok path) : BitmapTrie.reopen H R tx hash = .ok (.leaf ⟨path, hash⟩, some c) := by
  unfold BitmapTrie.reopen
  rw [if_neg hne, LawfulRead.get_eq BITMAP_CONTAINER_valid, hrow, mapError_ok, ok_bind]
  simp only [hdecode, ok_bind, hpath, mapError_ok]
  rfl

lemma reopen_branch {hash : Hash} (hne : hash ≠ H.hash []) (hrow : (rows tx BITMAP_CONTAINER).get? hash.1 = none)
    (hvalid : (bitmapTrie H).validateRoot tx (.branch hash) = .ok ()) :
    BitmapTrie.reopen H R tx hash = .ok (.branch hash, none) := by
  unfold BitmapTrie.reopen
  rw [if_neg hne, LawfulRead.get_eq BITMAP_CONTAINER_valid, hrow, mapError_ok, ok_bind]
  simp only [hvalid, mapError_ok]
  rfl

/-- **A held set opens from its digest.** -/
theorem reopen_held (hinj : Set.InjOn H.hash P) (hB : Bitmaps H P (rows tx)) (hS : Held H R P (rows tx) S)
    (hne : S ≠ OrdMap.empty) :
    ∃ cached, BitmapTrie.reopen H R tx ((setRoot H R S).hash H) = .ok (setRoot H R S, cached) ∧
      Cached S cached ∧ (∀ c, cached = some c → ∃ l, setTree H R S = .leaf l) := by
  obtain ⟨x, hx⟩ : ∃ x, x ∈ S := by
    by_contra hnone
    exact hne (OrdSet.eq_empty_iff.mpr (not_exists.mp hnone))
  have hleafx := (mem_leaves_setTree (H := H) (R := R)).mpr ⟨x, hx, rfl⟩
  unfold setRoot
  cases ht : setTree H R S with
  | empty =>
    rw [ht] at hleafx
    simp [Radix.leaves] at hleafx
  | leaf l =>
    have hall : ∀ v ∈ S, l = ⟨path6 (split v).1, containerHash H (containerBytes R S (split v).1)⟩ := by
      intro v hv
      have hl := (mem_leaves_setTree (H := H) (R := R)).mpr ⟨v, hv, rfl⟩
      rw [ht] at hl
      exact (List.mem_singleton.mp hl).symm
    have hl := hall x hx
    have hnil : containerHash H (containerBytes R S (split x).1) ≠ H.hash [] := by
      intro he
      rw [containerHash_eq] at he
      cases hinj (hS.container_mem hx) hB.nil he
    refine ⟨some (container S (split x).1 (path_le x)), ?_, fun c hc v hv => ?_, fun _ _ => ⟨l, rfl⟩⟩
    · rw [hl]
      exact reopen_container hnil (hS.containers x hx)
        (decode_containerBytes (path_le x) (offsets_ne_empty.mpr ⟨x, hx, rfl⟩)) (pathBytes_eq (path_le x))
    · obtain rfl := Option.some.inj hc
      have hpaths := congrArg LeafRef.path (hl.symm.trans (hall v hv))
      have hsame : (split x).1 = (split v).1 := path6_inj (path_le x) (path_le v) hpaths
      simp only [hsame]
  | branch pre kids =>
    have hmem : ((pre, fun s => (bitmapTrie H).ref (kids s)) : Branch 6) ∈ (bitmapTrie H).branches (setTree H R S) := by
      rw [ht]
      exact ((bitmapTrie H).branches_branch).mpr (.inl rfl)
    have hpre : (bitmapTrie H).preimage (pre, fun s => (bitmapTrie H).ref (kids s)) ∈ P :=
      hS.preimages _ (List.mem_append_right _ (List.mem_map_of_mem hmem))
    refine ⟨none, reopen_branch (fun he => ?_) ?_ ?_, by rintro _ ⟨⟩, by rintro _ ⟨⟩⟩
    · cases hinj hpre hB.nil he
    · cases hrow :
        (rows tx BITMAP_CONTAINER).get? ((bitmapTrie H).branchHash (pre, fun s => (bitmapTrie H).ref (kids s))).1 with
      | none => exact hrow
      | some bytes =>
        obtain ⟨hbytes, hkey⟩ := hB.containers _ _ hrow
        rw [containerHash_eq] at hkey
        exact absurd (List.cons.inj (hinj hpre hbytes (Subtype.ext hkey))).1 (Ne.symm bitmap_domains)
    · have hcanon : canon (2 * 6) [] (leafMap (containerMap H R S).get?) = .branch pre kids := by
        rw [← ht, setTree, refTree_eq]
        rfl
      have hstored := hS.stored
      rw [ht] at hstored
      obtain ⟨node, hload, -⟩ := Trie.load_canon (T := bitmapTrie H) tx BITMAP_TRIE_valid (leafMap_keyed _)
        (by simp) hcanon hstored
      have hload' : (bitmapTrie H).load tx (RootRef.hash H ((bitmapTrie H).ref (.branch pre kids)))
          [] = .ok node := hload
      show (bitmapTrie H).validateRoot tx (.branch _) = .ok ()
      rw [Trie.validateRoot, hload']
      rfl

end Read

/-! ### Reading in full -/

section Full

lemma mem_ids {c : BitmapContainer} {v : U64} : v ∈ c.ids ↔ (split v).1 = c.path ∧ (split v).2.val ∈ c.values := by
  unfold BitmapContainer.ids
  rw [List.mem_map]
  constructor
  · rintro ⟨lo, hlo, rfl⟩
    have hlo := OrdSet.mem_toList.mp hlo
    rw [split_id c.path_le ⟨lo, c.small lo hlo⟩]
    exact ⟨rfl, hlo⟩
  · rintro ⟨hp, hlo⟩
    exact ⟨_, OrdSet.mem_toList.mpr hlo, by rw [← hp, id_split]⟩

lemma ids_sorted (c : BitmapContainer) : c.ids.Pairwise (· < ·) := by
  unfold BitmapContainer.ids
  rw [List.pairwise_map]
  refine c.values.toList_sorted.imp_of_mem fun {a b} ha hb hab => ?_
  rw [Fin.lt_def, id_val c.path_le (c.small a (OrdSet.mem_toList.mp ha)),
    id_val c.path_le (c.small b (OrdSet.mem_toList.mp hb))]
  omega

/-- An id in a container with a smaller path is smaller. -/
lemma lt_of_path_lt {v w : U64} (h : (split v).1 < (split w).1) : v < w := by
  have h' : v.val / 65536 < w.val / 65536 := h
  exact Fin.lt_def.mpr (by omega)

/-- Containers in path order are appended one after the other. -/
lemma foldlM_containers : ∀ (cs : List BitmapContainer) (prev : Option ℕ) (set : OrdSet U64),
    (∀ v ∈ set, ∀ c ∈ cs, (split v).1 < c.path) → (∀ p, prev = some p → ∀ c ∈ cs, p < c.path) →
    (cs.Pairwise fun a b => a.path < b.path) →
    ∃ acc, cs.foldlM Bitmap.appendContainer (prev, set) = .ok acc ∧ ∀ v, v ∈ acc.2 ↔ v ∈ set ∨ ∃ c ∈ cs, v ∈ c.ids := by
  intro cs
  induction cs with
  | nil => exact fun prev set _ _ _ => ⟨(prev, set), rfl, fun v => by simp⟩
  | cons c cs ih =>
    intro prev set hset hprev hsorted
    obtain ⟨hc, hsorted⟩ := List.pairwise_cons.mp hsorted
    have happend : Bitmap.append set c.ids = .ok (c.ids.foldl OrdSet.add set) := by
      refine if_pos (List.pairwise_append.mpr ⟨set.toList_sorted, ids_sorted c, fun v hv w hw => ?_⟩)
      refine lt_of_path_lt ?_
      rw [(mem_ids.mp hw).1]
      exact hset v (OrdSet.mem_toList.mp hv) c (List.mem_cons_self ..)
    have hstep : Bitmap.appendContainer (prev, set) c = .ok (some c.path, c.ids.foldl OrdSet.add set) := by
      unfold Bitmap.appendContainer
      cases prev with
      | none =>
        simp only [happend, ok_bind]
        rfl
      | some p =>
        have hlt := hprev p rfl c (List.mem_cons_self ..)
        simp only [happend, ok_bind]
        rw [if_neg (by omega), if_neg (by omega)]
        rfl
    have hset' : ∀ v ∈ c.ids.foldl OrdSet.add set, ∀ d ∈ cs, (split v).1 < d.path := by
      intro v hv d hd
      rcases OrdSet.mem_foldl_add.mp hv with hv | hv
      · rw [(mem_ids.mp hv).1]
        exact hc d hd
      · exact hset v hv d (List.mem_cons_of_mem _ hd)
    have hprev' : ∀ p, some c.path = some p → ∀ d ∈ cs, p < d.path := by
      intro p hp d hd
      obtain rfl := Option.some.inj hp
      exact hc d hd
    obtain ⟨acc, hrun, hacc⟩ := ih (some c.path) (c.ids.foldl OrdSet.add set) hset' hprev' hsorted
    refine ⟨acc, by rw [List.foldlM_cons, hstep]; exact hrun, fun v => ?_⟩
    rw [hacc, OrdSet.mem_foldl_add]
    constructor
    · rintro ((hv | hv) | ⟨d, hd, hv⟩)
      · exact .inr ⟨c, List.mem_cons_self .., hv⟩
      · exact .inl hv
      · exact .inr ⟨d, List.mem_cons_of_mem _ hd, hv⟩
    · rintro (hv | ⟨d, hd, hv⟩)
      · exact .inl (.inr hv)
      · rcases List.mem_cons.mp hd with rfl | hd
        · exact .inl (.inl hv)
        · exact .inr ⟨d, hd, hv⟩

variable {H : HashProvider} {R : Roaring} {P : Set Bytes} {ρ : Type} [ReadTransaction ρ] [LawfulCursor ρ] {tx : ρ}
  {S : OrdSet U64}

lemma ofBe_le (p : Arr 6) : ofBe p.1 ≤ MAX_PATH := by
  obtain ⟨hi, h, rfl⟩ := exists_path6 p
  rwa [ofBe_path6 h]

/-- The container of a leaf. -/
def leafContainer (S : OrdSet U64) (l : LeafRef 6) : BitmapContainer := container S (ofBe l.path.1) (ofBe_le l.path)

lemma leafContainer_eq {l : LeafRef 6} {hi : ℕ} (h : hi ≤ MAX_PATH) (hl : l.path = path6 hi) :
    leafContainer S l = container S hi h := by
  have hpath : ofBe l.path.1 = hi := by rw [hl, ofBe_path6 h]
  unfold leafContainer
  simp only [hpath]

/-- The containers of the leaves are the set. -/
lemma fromContainers_leaves :
    Bitmap.fromContainers ((leavesOf (containerMap H R S)).map (leafContainer S)) = .ok ⟨S⟩ := by
  have hpaths : ((leavesOf (containerMap H R S)).map (leafContainer S)).Pairwise fun a b => a.path < b.path := by
    rw [List.pairwise_map]
    exact (leavesOf_pathSorted _).imp fun {a b} hab => (ofBe_lt_iff (by rw [a.path.2, b.path.2])).mp hab
  obtain ⟨acc, hrun, hacc⟩ :=
    foldlM_containers _ none OrdMap.empty (fun v hv => absurd hv (OrdSet.not_mem_empty v)) nofun hpaths
  have hset : acc.2 = S := by
    refine OrdSet.ext fun v => ?_
    rw [hacc]
    constructor
    · rintro (hv | ⟨c, hc, hv⟩)
      · exact absurd hv (OrdSet.not_mem_empty v)
      · obtain ⟨l, -, rfl⟩ := List.mem_map.mp hc
        obtain ⟨hp, hlo⟩ := mem_ids.mp hv
        have hoff : (split v).2.val ∈ offsets S (ofBe l.path.1) := hlo
        rw [show ofBe l.path.1 = (split v).1 from hp.symm] at hoff
        exact split_mem_offsets.mp hoff
    · intro hv
      have hl : (⟨path6 (split v).1, containerHash H (containerBytes R S (split v).1)⟩ : LeafRef 6)
          ∈ leavesOf (containerMap H R S) := by
        rw [← leaves_refTree]
        exact mem_leaves_setTree.mpr ⟨v, hv, rfl⟩
      refine .inr ⟨_, List.mem_map_of_mem hl, ?_⟩
      rw [leafContainer_eq (path_le v) rfl]
      exact mem_ids.mpr ⟨rfl, split_mem_offsets.mpr hv⟩
  unfold Bitmap.fromContainers
  rw [hrun, ok_bind, hset]
  rfl

/-- A set has at most as many containers as the table. -/
lemma leaves_le (hinj : Set.InjOn H.hash P) {r : Table → Rows} (hS : Held H R P r S) :
    (leavesOf (containerMap H R S)).length ≤ (r BITMAP_CONTAINER).size := by
  have hmem : ∀ l ∈ leavesOf (containerMap H R S), ∃ v ∈ S,
      l = ⟨path6 (split v).1, containerHash H (containerBytes R S (split v).1)⟩ := by
    intro l hl
    rw [← leaves_refTree] at hl
    exact mem_leaves_setTree.mp hl
  have hnodup : ((leavesOf (containerMap H R S)).map fun l => l.hash.1).Nodup := by
    rw [List.Nodup, List.pairwise_map]
    refine (leavesOf_pathSorted _).imp_of_mem fun {a b} ha hb hab he => ?_
    obtain ⟨v, hv, rfl⟩ := hmem a ha
    obtain ⟨w, hw, rfl⟩ := hmem b hb
    have hbind :=
      leavesIn_bind hinj _ (leaf_mem_leavesIn (hS.container_mem hv)) _ (leaf_mem_leavesIn (hS.container_mem hw))
      (Subtype.ext he)
    exact absurd hab (by rw [show path6 (split v).1 = path6 (split w).1 from hbind]; exact lt_irrefl _)
  have hsub : ((leavesOf (containerMap H R S)).map fun l => l.hash.1) ⊆ (r BITMAP_CONTAINER).keys := by
    intro k hk
    obtain ⟨l, hl, rfl⟩ := List.mem_map.mp hk
    obtain ⟨v, hv, rfl⟩ := hmem l hl
    rw [OrdMap.mem_keys, hS.containers v hv]
    nofun
  have hlen := (hnodup.subperm hsub).length_le
  rwa [List.length_map, OrdMap.keys, List.length_map] at hlen

/-- **A held set reads back from its digest.** -/
theorem bitmap_held (hinj : Set.InjOn H.hash P) (hB : Bitmaps H P (rows tx)) (hS : Held H R P (rows tx) S)
    (hne : S ≠ OrdMap.empty) : BitmapTrie.bitmap H R tx ((setRoot H R S).hash H) = .ok ⟨S⟩ := by
  obtain ⟨cached, hopen, hcached, hleaf⟩ := reopen_held hinj hB hS hne
  have hall : ∀ l ∈ leavesOf (containerMap H R S), BitmapTrie.load H R tx l = .ok (leafContainer S l) := by
    intro l hl
    rw [← leaves_refTree] at hl
    obtain ⟨v, hv, rfl⟩ := mem_leaves_setTree.mp hl
    rw [leafContainer_eq (path_le v) rfl]
    exact load_held hS hv
  unfold BitmapTrie.bitmap
  rw [hopen, ok_bind]
  simp only
  cases hc : cached with
  | some c =>
    -- a single container: the tree is its leaf
    obtain ⟨l, ht⟩ := hleaf c hc
    have hleaves : leavesOf (containerMap H R S) = [l] := by
      have hl := leaves_refTree (containerMap H R S)
      rw [← hl, show refTree (containerMap H R S) = .leaf l from ht, Radix.leaves]
    obtain ⟨v, hv, hlv⟩ : ∃ v ∈ S, l = ⟨path6 (split v).1, containerHash H (containerBytes R S (split v).1)⟩ :=
      mem_leaves_setTree.mp (by rw [ht, Radix.leaves]; exact List.mem_singleton_self l)
    have hcs : (leavesOf (containerMap H R S)).map (leafContainer S) = [c] := by
      rw [hleaves, List.map_singleton, leafContainer_eq (path_le v) (by rw [hlv]), hcached c hc v hv]
    simp only
    rw [← hcs, fromContainers_leaves]
    rfl
  | none =>
    have hwalk := (Trie.reads_refTree (T := bitmapTrie H) BITMAP_TRIE_valid hS.stored).2 (BitmapTrie.walkFuel tx) (by
      have h1 := leaves_le hinj hS
      have h2 := LawfulCursor.size_le tx BITMAP_CONTAINER
      unfold BitmapTrie.walkFuel
      omega)
    have hloads : BitmapTrie.loadAll H R tx (setRoot H R S)
        = .ok ((leavesOf (containerMap H R S)).map (leafContainer S)) := by
      unfold BitmapTrie.loadAll
      rw [show Trie.Walk.collect (bitmapTrie H) tx (BitmapTrie.walkFuel tx) (Trie.walk (setRoot H R S)) = _ from hwalk,
        List.mapM_map]
      exact BranchNodeCompact.mapM_eq_ok fun l hl => hall l hl
    simp only
    rw [hloads, ok_bind, fromContainers_leaves]
    rfl

end Full

/-! ### Batches of assignments -/

/-- The set after the assignments, in their order. -/
def assigned (S : OrdSet U64) (changes : List (ℕ × Offset × Bool)) : OrdSet U64 :=
  changes.foldl (fun S c => S.assign (BitmapContainer.id c.1 c.2.1.val) c.2.2) S

/-- The offsets after assignments in one container. -/
def assignedOffsets (s : RoaringBitmap) (changes : List (ℕ × Offset × Bool)) : RoaringBitmap :=
  changes.foldl (fun s c => s.assign c.2.1.val c.2.2) s

lemma offsets_assigned {changes : List (ℕ × Offset × Bool)} (h : ∀ c ∈ changes, c.1 ≤ MAX_PATH) (hi : ℕ) :
    ∀ S, offsets (assigned S changes) hi = assignedOffsets (offsets S hi) (changes.filter fun c => c.1 = hi) := by
  induction changes with
  | nil => exact fun _ => rfl
  | cons c changes ih =>
    intro S
    have hc := h c (List.mem_cons_self ..)
    rw [assigned, List.foldl_cons, ← assigned, ih (fun x hx => h x (List.mem_cons_of_mem _ hx)),
      offsets_assign, split_id hc]
    by_cases he : c.1 = hi
    · rw [if_pos he, List.filter_cons_of_pos (by simpa using he)]
      rfl
    · rw [if_neg he, List.filter_cons_of_neg (by simpa using he)]

/-- What the loop over one container returns. -/
lemma assignAll_spec (changes : List (ℕ × Offset × Bool)) (c : BitmapContainer) :
    (BitmapTrie.assignAll c changes).1.path = c.path ∧
      (BitmapTrie.assignAll c changes).1.values = assignedOffsets c.values changes ∧
      ((BitmapTrie.assignAll c changes).2 = false → assignedOffsets c.values changes = c.values) := by
  suffices ∀ (changed : Bool) (c : BitmapContainer), ∀ acc, acc = changes.foldl (fun acc c =>
      ((acc.1.assign c.2.1 c.2.2).1, acc.2 || (acc.1.assign c.2.1 c.2.2).2)) (c, changed) →
      acc.1.path = c.path ∧ acc.1.values = assignedOffsets c.values changes ∧
        (acc.2 = false → changed = false ∧ assignedOffsets c.values changes = c.values) by
    obtain ⟨h1, h2, h3⟩ := this false c _ rfl
    exact ⟨h1, h2, fun h => (h3 h).2⟩
  induction changes with
  | nil =>
    rintro changed c _ rfl
    exact ⟨rfl, rfl, fun h => ⟨h, rfl⟩⟩
  | cons x changes ih =>
    rintro changed c _ rfl
    obtain ⟨h1, h2, h3⟩ := ih (changed || (c.assign x.2.1 x.2.2).2) (c.assign x.2.1 x.2.2).1 _ rfl
    refine ⟨h1, h2, fun h => ?_⟩
    obtain ⟨hflag, hrest⟩ := h3 h
    obtain ⟨hchanged, hsame⟩ := Bool.or_eq_false_iff.mp hflag
    -- an assignment that is not flagged leaves the offsets
    have hassign : c.values.assign x.2.1.val x.2.2 = c.values := by
      refine OrdSet.ext fun lo => ?_
      have hiff : decide (x.2.1.val ∈ c.values) = x.2.2 := by simpa [BitmapContainer.assign] using hsame
      rw [OrdSet.mem_assign]
      split_ifs with hlo
      · rw [hlo, ← hiff, decide_eq_true_eq]
      · rfl
    refine ⟨hchanged, ?_⟩
    exact hrest.trans hassign

section Apply

variable {H : HashProvider} {R : Roaring} {P : Set Bytes} {τ : Type} [WriteTransaction τ] [LawfulWrite τ] {tx : τ}
  {S S' : OrdSet U64}

/-- A container row is inserted, or is there. -/
lemma storeContainer_run (hinj : Set.InjOn H.hash P) (hB : Bitmaps H P (rows tx)) {bytes : Bytes}
    (hP : BITMAP_LEAF_DOMAIN :: bytes ∈ P) :
    ∃ tx', Prog.Runs (BitmapTrie.storeContainer (containerHash H bytes) bytes) tx () tx' ∧
      rows tx' = Function.update (rows tx) BITMAP_CONTAINER
        ((rows tx BITMAP_CONTAINER).insert (containerHash H bytes).1 bytes) := by
  cases hrow : (rows tx BITMAP_CONTAINER).get? (containerHash H bytes).1 with
  | none =>
    obtain ⟨tx', hrun, hrows⟩ := LawfulWrite.insert_eq BITMAP_CONTAINER_valid tx _ bytes hrow
    refine ⟨tx', ?_, hrows⟩
    unfold BitmapTrie.storeContainer
    refine (Prog.Runs.outcome _ tx).bind ?_
    rw [hrun]
    exact Prog.Runs.pure _ _
  | some found =>
    obtain ⟨hfound, hkey⟩ := hB.containers _ _ hrow
    rw [containerHash_eq, containerHash_eq] at hkey
    obtain rfl : bytes = found := (List.cons.inj (hinj hP hfound (Subtype.ext hkey))).2
    obtain ⟨tx', hexec, hrows⟩ := LawfulWrite.insert_exists BITMAP_CONTAINER_valid tx _ bytes
      (by rw [hrow]; nofun : (rows tx BITMAP_CONTAINER).get? (containerHash H bytes).1 ≠ none)
    refine ⟨tx', ?_, ?_⟩
    · unfold BitmapTrie.storeContainer
      refine (Prog.Runs.outcome _ tx).bind ?_
      rw [hexec]
      have hread : (ReadTransaction.get tx' BITMAP_CONTAINER (containerHash H bytes).1).mapError IndexError.storage
          = .ok (some bytes) := by
        rw [LawfulRead.get_eq BITMAP_CONTAINER_valid, hrows, hrow]
        rfl
      refine Prog.Runs.bind (Prog.Runs.read (f := fun tx : τ => (ReadTransaction.get tx BITMAP_CONTAINER
        (containerHash H bytes).1).mapError IndexError.storage) hread) ?_
      rw [if_neg (not_not.mpr rfl)]
      exact Prog.Runs.pure _ _
    · rw [hrows]
      have hsame : (rows tx BITMAP_CONTAINER).insert (containerHash H bytes).1 bytes = rows tx BITMAP_CONTAINER := by
        refine OrdMap.ext_get fun k => ?_
        rw [OrdMap.get?_insert]
        split_ifs with hk
        · rw [hk, hrow]
        · rfl
      rw [hsame, Function.update_eq_self]

/-- The container at a path of the set, loaded, taken from the cache or fresh. -/
lemma takeContainer_run (hS : Held H R P (rows tx) S) {cached : Option BitmapContainer}
    (hcached : Cached S cached) {hi : ℕ}
    (h : hi ≤ MAX_PATH) : ∃ cached', Prog.Runs (BitmapTrie.takeContainer H R (setRoot H R S) cached hi (path6 hi)) tx
      (container S hi h, cached') tx ∧ Cached S cached' := by
  have hget := get_held hS h
  unfold BitmapTrie.takeContainer
  by_cases hne : offsets S hi = OrdMap.empty
  · rw [if_pos hne] at hget
    refine ⟨cached, ?_, hcached⟩
    refine Prog.Runs.bind
      (Prog.Runs.read (f := fun tx : τ => ((bitmapTrie H).get tx (setRoot H R S) (path6 hi)).mapError
      IndexError.merkle) (by rw [hget, mapError_ok])) ?_
    have hempty : (BitmapContainer.empty hi).mapError IndexError.bitmap = .ok (container S hi h) := by
      have hnew := new_offsets (S := OrdMap.empty) h
      rw [offsets_empty] at hnew
      unfold BitmapContainer.empty
      rw [hnew]
      simp only [mapError_ok, container, offsets_empty, hne]
    exact (Prog.Runs.ofExcept hempty).bind (Prog.Runs.pure _ tx)
  · rw [if_neg hne] at hget
    obtain ⟨v, hv, rfl⟩ := offsets_ne_empty.mp hne
    cases cached with
    | some c =>
      refine ⟨none, ?_, nofun⟩
      refine Prog.Runs.bind (Prog.Runs.read (f := fun tx : τ => ((bitmapTrie H).get tx (setRoot H R S)
        (path6 (split v).1)).mapError IndexError.merkle) (by rw [hget, mapError_ok])) ?_
      rw [hcached c rfl v hv]
      exact Prog.Runs.pure _ tx
    | none =>
      refine ⟨none, ?_, nofun⟩
      refine Prog.Runs.bind (Prog.Runs.read (f := fun tx : τ => ((bitmapTrie H).get tx (setRoot H R S)
        (path6 (split v).1)).mapError IndexError.merkle) (by rw [hget, mapError_ok])) ?_
      refine Prog.Runs.bind (Prog.Runs.read (f := fun tx : τ => BitmapTrie.load H R tx _) (load_held hS hv)) ?_
      exact Prog.Runs.pure _ tx

/-- What the loop has done: which containers it is through with, and that each of them has an edit
to its new hash or is as before. -/
structure Progressed (H : HashProvider) (R : Roaring) (S S' : OrdSet U64) (through : List ℕ) (st : BitmapTrie.Progress)
    (r : Table → Rows) : Prop where
  cached : Cached S st.cached
  previous : ∀ p, st.previous = some p → p ∈ through
  edits : ∀ e ∈ st.edits, ∃ hi ∈ through, e = (path6 hi, (containerMap H R S').get? (path6 hi))
  complete : ∀ hi ∈ through, (∀ e ∈ st.edits, e.1 ≠ path6 hi) → offsets S' hi = offsets S hi
  stored : ∀ hi ∈ through, offsets S' hi ≠ OrdMap.empty → (∃ e ∈ st.edits, e.1 = path6 hi) →
    (r BITMAP_CONTAINER).get? (containerHash H (containerBytes R S' hi)).1 = some (containerBytes R S' hi)

/-- **One turn of the loop**: the consecutive changes of one container. -/
lemma applyChunk_run (hinj : Set.InjOn H.hash P) (hB : Bitmaps H P (rows tx)) (hS : Held H R P (rows tx) S)
    (hS' : ∀ x ∈ setPreimages H R S', x ∈ P) {through : List ℕ} {st : BitmapTrie.Progress}
    (hst : Progressed H R S S' through st (rows tx)) {hi : ℕ} (hle : hi ≤ MAX_PATH) (hthrough : ∀ p ∈ through, p < hi)
    {chunk : List (ℕ × Offset × Bool)} (hchunk : ∀ c ∈ chunk, c.1 = hi) (hne : chunk ≠ [])
    (hoffsets : offsets S' hi = assignedOffsets (offsets S hi) chunk) :
    ∃ st' tx', Prog.Runs (BitmapTrie.applyChunk H R (setRoot H R S) st chunk) tx st' tx' ∧
      Progressed H R S S' (hi :: through) st' (rows tx') ∧ rows tx' BITMAP_TRIE = rows tx BITMAP_TRIE ∧
      Grown H R S' (rows tx) (rows tx') := by
  obtain ⟨⟨hi', lo, present⟩, rest, rfl⟩ := List.exists_cons_of_ne_nil hne
  obtain rfl : hi' = hi := hchunk _ (List.mem_cons_self ..)
  obtain ⟨cached', htake, hcached'⟩ := takeContainer_run hS hst.cached hle
  obtain ⟨hpath, hvalues, hsame⟩ := assignAll_spec ((hi', lo, present) :: rest) (container S hi' hle)
  have hfresh : ∀ e ∈ st.edits, e.1 ≠ path6 hi' := by
    intro e he
    obtain ⟨p, hp, rfl⟩ := hst.edits e he
    have hlt := hthrough p hp
    exact fun heq => absurd (path6_inj (by omega) hle heq) (by omega)
  have hprevious : st.previous.filter (hi' ≤ ·) = none := by
    cases hp : st.previous with
    | none => rfl
    | some p =>
      have hlt := hthrough p (hst.previous p hp)
      rw [Option.filter_some, if_neg (by simp; omega)]
  -- what a turn leaves behind when it adds these edits
  have hstep : ∀ (new : List (Edit 6)) (tx' : τ), (new = [] ∧ offsets S' hi' = offsets S hi' ∨
        new = [(path6 hi', (containerMap H R S').get? (path6 hi'))]) →
      (∀ k v, (rows tx BITMAP_CONTAINER).get? k = some v → (rows tx' BITMAP_CONTAINER).get? k = some v) →
      (new ≠ [] → offsets S' hi' ≠ OrdMap.empty → (rows tx' BITMAP_CONTAINER).get?
        (containerHash H (containerBytes R S' hi')).1 = some (containerBytes R S' hi')) →
      Progressed H R S S' (hi' :: through) ⟨some hi', cached', st.edits ++ new⟩ (rows tx') := by
    intro new tx' hnew hkept hstored
    refine ⟨hcached', fun p hp => ?_, fun e he => ?_, fun p hp hno => ?_, fun p hp hoff hed => ?_⟩
    · obtain rfl := Option.some.inj hp
      exact List.mem_cons_self ..
    · rcases List.mem_append.mp he with he | he
      · obtain ⟨p, hp, rfl⟩ := hst.edits e he
        exact ⟨p, List.mem_cons_of_mem _ hp, rfl⟩
      · rcases hnew with ⟨rfl, -⟩ | rfl
        · cases he
        · exact ⟨hi', List.mem_cons_self .., List.mem_singleton.mp he⟩
    · rcases List.mem_cons.mp hp with rfl | hp
      · rcases hnew with ⟨-, hoff⟩ | rfl
        · exact hoff
        · exact absurd rfl (hno _ (List.mem_append_right _ (List.mem_singleton_self _)))
      · exact hst.complete p hp fun e he => hno e (List.mem_append_left _ he)
    · obtain ⟨e, he, hep⟩ := hed
      rcases List.mem_cons.mp hp with rfl | hp
      · rcases List.mem_append.mp he with he | he
        · exact absurd hep (hfresh e he)
        · exact hstored (List.ne_nil_of_mem he) hoff
      · refine hkept _ _ (hst.stored p hp hoff ?_)
        rcases List.mem_append.mp he with he | he
        · exact ⟨e, he, hep⟩
        · rcases hnew with ⟨rfl, -⟩ | rfl
          · cases he
          · obtain rfl := List.mem_singleton.mp he
            have hlt := hthrough p hp
            exact absurd (path6_inj hle (by omega) hep) (by omega)
  have hmap := get?_containerMap (H := H) (R := R) (S := S') hle
  have hrun : ∀ {st' : BitmapTrie.Progress} {tx' : τ}, Prog.Runs (
        if !(BitmapTrie.assignAll (container S hi' hle) ((hi', lo, present) :: rest)).2 then
          (pure ⟨some hi', cached', st.edits⟩ : Prog IndexError τ BitmapTrie.Progress)
        else if (BitmapTrie.assignAll (container S hi' hle) ((hi', lo, present) :: rest)).1.isEmpty then
          pure ⟨some hi', cached', st.edits ++ [(path6 hi', none)]⟩
        else do
          let bytes ← Prog.ofExcept
            (((BitmapTrie.assignAll (container S hi' hle) ((hi', lo, present) :: rest)).1.canonicalBytes R).mapError
              IndexError.bitmap)
          let hash := containerHash H bytes
          BitmapTrie.storeContainer hash bytes
          return ⟨some hi', cached', st.edits ++ [(path6 hi', some hash)]⟩) tx st' tx' →
      Prog.Runs (BitmapTrie.applyChunk H R (setRoot H R S) st ((hi', lo, present) :: rest)) tx st' tx' := by
    intro st' tx' hr
    rw [BitmapTrie.applyChunk, hprevious]
    have hbytes : (pathBytes hi').mapError IndexError.bitmap = .ok (path6 hi') := by rw [pathBytes_eq hle, mapError_ok]
    exact (Prog.Runs.ofExcept hbytes).bind (htake.bind hr)
  obtain ⟨⟨c', changed⟩, hc'⟩ :
      ∃ p, BitmapTrie.assignAll (container S hi' hle) ((hi', lo, present) :: rest) = p := ⟨_, rfl⟩
  rw [hc'] at hpath hvalues hsame
  simp only at hpath hvalues hsame
  have hc'eq : c' = container S' hi' hle := by
    obtain ⟨path, values, hpl, hsm⟩ := c'
    simp only [container] at hpath hvalues ⊢
    subst hpath
    simp only [BitmapContainer.mk.injEq, true_and]
    rw [hoffsets, hvalues]
  cases hchanged : changed with
  | false =>
    refine ⟨⟨some hi', cached', st.edits⟩, tx, hrun ?_, ?_, rfl, Grown.refl _ _⟩
    · rw [hc', hchanged]
      exact Prog.Runs.pure _ tx
    · have := hstep [] tx (.inl ⟨rfl, hoffsets.trans (hsame hchanged)⟩) (fun _ _ h => h) (fun h => absurd rfl h)
      rwa [List.append_nil] at this
  | true =>
    by_cases hempty : offsets S' hi' = OrdMap.empty
    · refine ⟨⟨some hi', cached', st.edits ++ [(path6 hi', none)]⟩, tx, hrun ?_, ?_, rfl, Grown.refl _ _⟩
      · rw [hc', hchanged, hc'eq]
        have hie : (container S' hi' hle).isEmpty = true := isEmpty_eq.mpr hempty
        simp only [Bool.not_true, Bool.false_eq_true, if_false, hie, if_true]
        exact Prog.Runs.pure _ tx
      · refine hstep _ tx (.inr ?_) (fun _ _ h => h) (fun _ h => absurd hempty h)
        rw [hmap, if_pos hempty]
    · obtain ⟨v, hv, hvp⟩ := offsets_ne_empty.mp hempty
      have hP : BITMAP_LEAF_DOMAIN :: containerBytes R S' hi' ∈ P := by
        rw [← hvp]
        exact hS' _ (List.mem_append_left _ (List.mem_map_of_mem (OrdSet.mem_toList.mpr hv)))
      obtain ⟨tx', hstore, hrows⟩ := storeContainer_run hinj hB hP
      have hget : ∀ k, (rows tx' BITMAP_CONTAINER).get? k = if k = (containerHash H (containerBytes R S' hi')).1
          then some (containerBytes R S' hi') else (rows tx BITMAP_CONTAINER).get? k := by
        intro k
        rw [hrows, Function.update_self, OrdMap.get?_insert]
        by_cases hk : k = (containerHash H (containerBytes R S' hi')).1
        · rw [if_pos hk, if_pos hk]
        · rw [if_neg hk, if_neg hk]
      have hkept : ∀ k w, (rows tx BITMAP_CONTAINER).get? k = some w → (rows tx' BITMAP_CONTAINER).get? k = some w := by
        intro k w hk
        rw [hget]
        split_ifs with hkey
        · -- a row under the same hash has the same bytes
          obtain ⟨hw, hkey'⟩ := hB.containers k w hk
          rw [containerHash_eq] at hkey hkey'
          rw [(List.cons.inj (hinj hP hw (Subtype.ext (hkey.symm.trans hkey')))).2]
        · exact hk
      refine ⟨⟨some hi', cached', st.edits ++ [(path6 hi', some (containerHash H (containerBytes R S' hi')))]⟩, tx',
        hrun ?_, ?_, by rw [hrows, Function.update_of_ne (by decide)], ?_⟩
      · rw [hc', hchanged, hc'eq]
        have hie : (container S' hi' hle).isEmpty = false := by
          rw [← Bool.not_eq_true]
          exact fun he => hempty (isEmpty_eq.mp he)
        simp only [Bool.not_true, Bool.false_eq_true, if_false, hie]
        have hbytes : ((container S' hi' hle).canonicalBytes R).mapError IndexError.bitmap
            = .ok (containerBytes R S' hi') := by
          rw [canonicalBytes_container hle hempty, mapError_ok]
        exact (Prog.Runs.ofExcept hbytes).bind (hstore.bind (Prog.Runs.pure _ tx'))
      · refine hstep _ tx' (.inr ?_) hkept (fun _ _ => by rw [hget, if_pos rfl])
        rw [hmap, if_neg hempty]
      · refine ⟨fun t ht ht' => by rw [hrows, Function.update_of_ne ht'], fun t k w hk => ?_, fun k w hk => .inl ?_,
          fun k w hk => ?_⟩
        · by_cases ht : t = BITMAP_CONTAINER
          · subst ht
            exact hkept k w hk
          · rwa [hrows, Function.update_of_ne ht]
        · rwa [hrows, Function.update_of_ne (by decide)] at hk
        · rw [hget] at hk
          split_ifs at hk with hkey
          · exact .inr ⟨v, hv, by rw [hvp]; exact hkey, by rw [hvp]; exact (Option.some.inj hk).symm⟩
          · exact .inl hk

/-- **The loop over the containers** of a batch, in ascending order. -/
lemma applyChunks_run (hinj : Set.InjOn H.hash P) (hS' : ∀ x ∈ setPreimages H R S', x ∈ P)
    (changes : List (ℕ × Offset × Bool)) :
    ∀ (his through : List ℕ) (st : BitmapTrie.Progress) (tx : τ), Bitmaps H P (rows tx) →
      Held H R P (rows tx) S → Progressed H R S S' through st (rows tx) → his.Pairwise (· < ·) →
      (∀ p ∈ through, ∀ hi ∈ his, p < hi) → (∀ hi ∈ his, hi ≤ MAX_PATH ∧ (∃ c ∈ changes, c.1 = hi) ∧
        offsets S' hi = assignedOffsets (offsets S hi) (changes.filter fun c => c.1 = hi)) →
      ∃ st' through' tx', Prog.Runs ((his.map fun hi => changes.filter fun c => c.1 = hi).foldlM
          (BitmapTrie.applyChunk H R (setRoot H R S)) st) tx st' tx' ∧ (∀ hi, hi ∈ through' ↔ hi ∈ his ∨ hi ∈ through) ∧
        Progressed H R S S' through' st' (rows tx') ∧ rows tx' BITMAP_TRIE = rows tx BITMAP_TRIE ∧
        Grown H R S' (rows tx) (rows tx') := by
  intro his
  induction his with
  | nil =>
    intro through st tx _ _ hst _ _ _
    exact ⟨st, through, tx, Prog.Runs.pure st tx, fun hi => by simp, hst, rfl, Grown.refl _ _⟩
  | cons hi his ih =>
    intro through st tx hB hS hst hsorted hthrough hall
    obtain ⟨hlt, hsorted⟩ := List.pairwise_cons.mp hsorted
    obtain ⟨hle, ⟨c, hc, hchi⟩, hoff⟩ := hall hi (List.mem_cons_self ..)
    obtain ⟨st₁, tx₁, hrun₁, hst₁, htrie₁, hg₁⟩ := applyChunk_run hinj hB hS hS' hst hle
      (fun p hp => hthrough p hp hi (List.mem_cons_self ..)) (fun c hc => of_decide_eq_true (List.mem_filter.mp hc).2)
      (List.ne_nil_of_mem (List.mem_filter.mpr ⟨hc, decide_eq_true hchi⟩)) hoff
    have hlater : ∀ p ∈ hi :: through, ∀ hi' ∈ his, p < hi' := by
      intro p hp hi' hhi'
      rcases List.mem_cons.mp hp with rfl | hp
      · exact hlt hi' hhi'
      · exact hthrough p hp hi' (List.mem_cons_of_mem _ hhi')
    obtain ⟨st₂, through₂, tx₂, hrun₂, hmem₂, hst₂, htrie₂, hg₂⟩ := ih (hi :: through) st₁ tx₁ (hB.grown hS' hg₁)
      (hS.mono hg₁.kept) hst₁ hsorted hlater fun x hx => hall x (List.mem_cons_of_mem _ hx)
    refine ⟨st₂, through₂, tx₂, ?_, fun x => ?_, hst₂, htrie₂.trans htrie₁, hg₁.trans hg₂⟩
    · rw [List.map_cons, List.foldlM_cons]
      exact hrun₁.bind hrun₂
    · rw [hmem₂]
      simp only [List.mem_cons]
      tauto

lemma containerBytes_congr {hi : ℕ} (h : offsets S' hi = offsets S hi) :
    containerBytes R S' hi = containerBytes R S hi := by
  rw [containerBytes, containerBytes, h]

/-- The edits of the loop lead from the map of the set to that of the set after it. -/
lemma setAll_edits {through : List ℕ} {st : BitmapTrie.Progress} {r : Table → Rows}
    (hst : Progressed H R S S' through st r) (hrest : ∀ hi ≤ MAX_PATH, hi ∉ through → offsets S' hi = offsets S hi) :
    setAll (containerMap H R S) st.edits = containerMap H R S' := by
  refine OrdMap.ext_get fun p => ?_
  obtain ⟨hi, hle, rfl⟩ := exists_path6 p
  rw [setAll, get?_foldl_set_last]
  cases hlast : lastOf st.edits (path6 hi) with
  | some v =>
    obtain ⟨hi', -, he⟩ := hst.edits _ (mem_of_lastOf hlast)
    obtain ⟨hpath, rfl⟩ := Prod.mk.inj he
    rw [Option.getD_some, hpath]
  | none =>
    have hoff : offsets S' hi = offsets S hi := by
      by_cases hmem : hi ∈ through
      · exact hst.complete hi hmem (lastOf_eq_none.mp hlast)
      · exact hrest hi hle hmem
    rw [Option.getD_none, get?_containerMap hle, get?_containerMap hle, containerBytes_congr hoff, hoff]

/-- The set has a root if and only if it has an id. -/
lemma setRoot_eq_empty : setRoot H R S = .empty ↔ S = OrdMap.empty := by
  rw [setRoot, Trie.ref_eq_empty]
  constructor
  · intro ht
    refine OrdSet.eq_empty_iff.mpr fun v hv => ?_
    have hl := (mem_leaves_setTree (H := H) (R := R)).mpr ⟨v, hv, rfl⟩
    rw [ht] at hl
    simp [Radix.leaves] at hl
  · rintro rfl
    exact Trie.refTree_empty

lemma setDigest_eq : (if setRoot H R S ≠ .empty then some ((setRoot H R S).hash H) else none) = setDigest H R S := by
  unfold setDigest
  by_cases hempty : S = OrdMap.empty
  · rw [if_pos hempty, if_neg (not_not.mpr (setRoot_eq_empty.mpr hempty))]
  · rw [if_neg hempty, if_pos fun he => hempty (setRoot_eq_empty.mp he)]

/-- The digest opens the root of the set, for the empty set without reading. -/
lemma openRoot_run (hinj : Set.InjOn H.hash P) (hB : Bitmaps H P (rows tx)) (hS : Held H R P (rows tx) S) :
    ∃ cached, Prog.Runs (BitmapTrie.openRoot H R (setDigest H R S)) tx (setRoot H R S, cached) tx ∧
      Cached S cached := by
  unfold setDigest
  split_ifs with hempty
  · rw [setRoot_eq_empty.mpr hempty]
    exact ⟨none, Prog.Runs.pure _ tx, nofun⟩
  · obtain ⟨cached, hopen, hcached, -⟩ := reopen_held hinj hB hS hempty
    exact ⟨cached, Prog.Runs.read (f := fun tx : τ => BitmapTrie.reopen H R tx _) hopen, hcached⟩

/-- **A batch of assignments** leads from digest to digest, and the tables hold the set after it. -/
theorem apply_held (hinj : Set.InjOn H.hash P) (hB : Bitmaps H P (rows tx)) (hS : Held H R P (rows tx) S)
    {changes : List (ℕ × Offset × Bool)} (hsorted : changes.Pairwise fun a b => a.1 ≤ b.1)
    (hle : ∀ c ∈ changes, c.1 ≤ MAX_PATH)
    (hafter : assigned S changes = S') (hS' : ∀ x ∈ setPreimages H R S', x ∈ P) :
    ∃ tx', Prog.Runs (BitmapTrie.apply H R (setDigest H R S) changes) tx (setDigest H R S') tx' ∧
      Bitmaps H P (rows tx') ∧ Held H R P (rows tx') S' ∧ Grown H R S' (rows tx) (rows tx') := by
  obtain ⟨cached, hopen, hcached⟩ := openRoot_run hinj hB hS
  obtain ⟨his, hhis, hmem, hchunks⟩ := chunkBy_eq Prod.fst hsorted
  have hoff : ∀ hi, offsets S' hi = assignedOffsets (offsets S hi) (changes.filter fun c => c.1 = hi) := by
    intro hi
    rw [← hafter, offsets_assigned hle]
  have hstart : Progressed H R S S' [] ⟨none, cached, []⟩ (rows tx) :=
    ⟨hcached, nofun, List.forall_mem_nil _, List.forall_mem_nil _, List.forall_mem_nil _⟩
  obtain ⟨st, through, tx₁, hrun₁, hthrough, hst, htrie₁, hg₁⟩ :=
    applyChunks_run hinj hS' changes his [] _ tx hB hS hstart hhis
    (List.forall_mem_nil _) fun hi hhi => by
      obtain ⟨c, hc, rfl⟩ := (hmem hi).mp hhi
      exact ⟨hle c hc, ⟨c, hc, rfl⟩, hoff _⟩
  -- the containers that the loop does not reach are as before
  have hrest : ∀ hi, hi ∉ through → offsets S' hi = offsets S hi := by
    intro hi hhi
    have hnil : (changes.filter fun c => c.1 = hi) = [] := by
      rw [List.filter_eq_nil_iff]
      intro c hc he
      exact hhi ((hthrough hi).mpr (.inl ((hmem hi).mpr ⟨c, hc, of_decide_eq_true he⟩)))
    rw [hoff, hnil]
    rfl
  have hset := setAll_edits hst fun hi _ => hrest hi
  have hB₁ := hB.grown hS' hg₁
  have hS₁ := hS.mono hg₁.kept
  have hfits := (hashed_setTree hS').fits
  rw [setTree, ← hset] at hfits
  obtain ⟨tx₂, hrun₂, hstored, hgrows⟩ := Trie.apply_refTree (bitmap_assumes hinj) hB₁.trie hS₁.stored hfits
  rw [hset] at hrun₂ hstored hgrows
  have hg₂ : Grown H R S' (rows tx₁) (rows tx₂) := by
    refine ⟨fun t ht _ => hgrows.frame t ht, fun t k v hk => ?_, hgrows.fresh, fun k v hk => .inl ?_⟩
    · by_cases ht : t = BITMAP_TRIE
      · subst ht
        exact hgrows.kept k v hk
      · rwa [hgrows.frame t ht]
    · rwa [hgrows.frame BITMAP_CONTAINER (by decide : BITMAP_CONTAINER ≠ BITMAP_TRIE)] at hk
  refine ⟨tx₂, ?_, hB₁.grown hS' hg₂, ⟨hS', hstored, fun v hv => hg₂.kept _ _ _ ?_⟩, hg₁.trans hg₂⟩
  · unfold BitmapTrie.apply
    refine hopen.bind ?_
    simp only
    rw [hchunks]
    have hdigest : Prog.Runs (pure (if setRoot H R S' ≠ .empty then some ((setRoot H R S').hash H) else none)
        : Prog IndexError τ (Option Hash)) tx₂ (setDigest H R S') tx₂ := by
      rw [setDigest_eq]
      exact Prog.Runs.pure _ tx₂
    exact hrun₁.bind (hrun₂.mapError.bind hdigest)
  · -- a container without an edit is one of the set before
    by_cases hedit : (split v).1 ∈ through ∧ ∃ e ∈ st.edits, e.1 = path6 (split v).1
    · exact hst.stored _ hedit.1 (offsets_ne_empty.mpr ⟨v, hv, rfl⟩) hedit.2
    · have hsame : offsets S' (split v).1 = offsets S (split v).1 := by
        by_cases hin : (split v).1 ∈ through
        · refine hst.complete _ hin fun e he hpath => hedit ⟨hin, e, he, hpath⟩
        · exact hrest _ hin
      rw [containerBytes_congr hsame]
      obtain ⟨w, hw, hwv⟩ := offsets_ne_empty.mp (hsame ▸ offsets_ne_empty.mpr ⟨v, hv, rfl⟩)
      rw [← hwv]
      exact hS₁.containers w hw

end Apply

end GolemDb.Index
