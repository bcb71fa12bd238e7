import GolemDb.Lib.Overlay
import GolemDb.Merkle.History

/-!
Flat tables under a trie. A table of rows is committed to by a trie over the hashes of its keys: the
leaf of a row hashes a domain byte, the path and the value. `commitMap` is the map that the trie of
a table stands for, and `Commits` says that a branch table holds the tree of that map. A digest
tells an empty table, a table of one row and a branch apart, so the root is recovered from it.
-/

namespace GolemDb.Merkle

open GolemDb.Lib GolemDb.Lib.Radix GolemDb.Storage

/-! ### The map of a table -/

/-- The bytes hashed for the leaf of a row. -/
def leafPreimage (H : HashProvider) (d : UInt8) (key value : Bytes) : Bytes := d :: ((H.hash key).1 ++ value)

def leafHash (H : HashProvider) (d : UInt8) (key value : Bytes) : Hash := H.hash (leafPreimage H d key value)

/-- **The map a table's trie commits to**: the hash of a key to the hash of its leaf. -/
def commitMap (H : HashProvider) (d : UInt8) (F : Rows) : OrdMap (Arr 32) Hash :=
  (F.entries.map fun e => (H.hash e.1, leafHash H d e.1 e.2)).foldl (fun M e => M.insert e.1 e.2) OrdMap.empty

/-- The leaves whose preimages lie in a set. -/
def leavesIn {N : ℕ} (H : HashProvider) (d : UInt8) (P : Set Bytes) : Set (LeafRef N) :=
  {l | ∃ value, d :: (l.path.1 ++ value) ∈ P ∧ l.hash = H.hash (d :: (l.path.1 ++ value))}

section Map

variable {H : HashProvider} {d : UInt8} {P : Set Bytes} {F : Rows}

/-- A leaf's hash binds its path, which follows the domain byte in the preimage. -/
lemma leavesIn_bind {N : ℕ} (hinj : Set.InjOn H.hash P) :
    ∀ l ∈ leavesIn (N := N) H d P, ∀ l' ∈ leavesIn (N := N) H d P, l.hash = l'.hash → l.path = l'.path := by
  rintro l ⟨v, hv, hl⟩ l' ⟨v', hv', hl'⟩ he
  rw [hl, hl'] at he
  have hbytes := (List.cons.inj (hinj hv hv' he)).2
  exact Subtype.ext (List.append_inj_left hbytes (by rw [l.path.2, l'.path.2]))

lemma leafPreimage_inj {k k' v v' : Bytes} (h : leafPreimage H d k v = leafPreimage H d k' v') :
    H.hash k = H.hash k' ∧ v = v' := by
  have hbytes := (List.cons.inj h).2
  have hlen : (H.hash k).1.length = (H.hash k').1.length := by rw [(H.hash k).2, (H.hash k').2]
  exact ⟨Subtype.ext (List.append_inj_left hbytes hlen), List.append_inj_right hbytes hlen⟩

variable (hinj : Set.InjOn H.hash P)

include hinj

/-- **What the map of a table holds.** -/
lemma commitMap_eq_some (hkeys : ∀ e ∈ F.entries, e.1 ∈ P) {p : Arr 32} {h : Hash} :
    (commitMap H d F).get? p = some h ↔ ∃ k v, F.get? k = some v ∧ p = H.hash k ∧ h = leafHash H d k v := by
  have hnodup : ((F.entries.map fun e => (H.hash e.1, leafHash H d e.1 e.2)).map Prod.fst).Nodup := by
    rw [List.map_map]
    have hsub : F.entries.Pairwise fun a b => a.1 ∈ P ∧ b.1 ∈ P ∧ a.1 < b.1 :=
      F.sorted.imp_of_mem fun {a b} ha hb hab => ⟨hkeys a ha, hkeys b hb, hab⟩
    exact List.pairwise_map.mpr (hsub.imp fun hab he => absurd (hinj hab.1 hab.2.1 he) (ne_of_lt hab.2.2))
  rw [commitMap, OrdMap.get?_foldl_insert _ hnodup, OrdMap.get?_empty]
  simp only [reduceCtorEq, and_false, or_false, List.mem_map, Prod.mk.injEq, Prod.exists]
  constructor
  · rintro ⟨k, v, hm, rfl, rfl⟩
    exact ⟨k, v, OrdMap.mem_entries.mp hm, rfl, rfl⟩
  · rintro ⟨k, v, hv, rfl, rfl⟩
    exact ⟨k, v, OrdMap.mem_entries.mpr hv, rfl, rfl⟩

/-- The map at the path of a key. -/
lemma get?_commitMap (hkeys : ∀ e ∈ F.entries, e.1 ∈ P) {key : Bytes} (hkey : key ∈ P) :
    (commitMap H d F).get? (H.hash key) = (F.get? key).map (leafHash H d key) := by
  refine Option.ext fun h => ?_
  rw [commitMap_eq_some hinj hkeys, Option.map_eq_some_iff]
  constructor
  · rintro ⟨k, v, hv, hk, rfl⟩
    obtain rfl := hinj hkey (hkeys _ (OrdMap.mem_entries.mpr hv)) hk
    exact ⟨v, hv, rfl⟩
  · rintro ⟨v, hv, rfl⟩
    exact ⟨key, v, hv, rfl, rfl⟩

lemma commitMap_set (hkeys : ∀ e ∈ F.entries, e.1 ∈ P) {key : Bytes} (hkey : key ∈ P) (v : Option Bytes) :
    commitMap H d (F.set key v) = (commitMap H d F).set (H.hash key) (v.map (leafHash H d key)) := by
  have hkeys' : ∀ e ∈ (F.set key v).entries, e.1 ∈ P := by
    intro e he
    have hget := OrdMap.mem_entries.mp he
    rw [OrdMap.get?_set] at hget
    split_ifs at hget with hk
    · exact hk ▸ hkey
    · exact hkeys e (OrdMap.mem_entries.mpr hget)
  refine OrdMap.ext_get fun p => ?_
  rw [OrdMap.get?_set]
  split_ifs with hp
  · rw [hp, get?_commitMap hinj hkeys' hkey, OrdMap.get?_set, if_pos rfl]
  · refine Option.ext fun h => ?_
    rw [commitMap_eq_some hinj hkeys', commitMap_eq_some hinj hkeys]
    refine exists_congr fun k => exists_congr fun w => ?_
    rw [OrdMap.get?_set]
    constructor
    · rintro ⟨hw, rfl, rfl⟩
      rw [if_neg (fun hk => hp (by rw [hk]))] at hw
      exact ⟨hw, rfl, rfl⟩
    · rintro ⟨hw, rfl, rfl⟩
      rw [if_neg (fun hk => hp (by rw [hk]))]
      exact ⟨hw, rfl, rfl⟩

/-- The edits of changed rows lead from map to map. -/
lemma commitMap_setAll (changes : List (Bytes × Option Bytes)) (hchanges : ∀ c ∈ changes, c.1 ∈ P)
    (hkeys : ∀ e ∈ F.entries, e.1 ∈ P) :
    setAll (commitMap H d F) (changes.map fun c => (H.hash c.1, c.2.map (leafHash H d c.1)))
      = commitMap H d (changes.foldl (fun F c => F.set c.1 c.2) F) := by
  induction changes generalizing F with
  | nil => rfl
  | cons c changes ih =>
    have hc := hchanges c (List.mem_cons_self ..)
    rw [List.map_cons, List.foldl_cons, setAll, List.foldl_cons, ← setAll, ← commitMap_set hinj hkeys hc]
    refine ih (fun x hx => hchanges x (List.mem_cons_of_mem _ hx)) fun e he => ?_
    have hget := OrdMap.mem_entries.mp he
    rw [OrdMap.get?_set] at hget
    split_ifs at hget with hk
    · exact hk ▸ hc
    · exact hkeys e (OrdMap.mem_entries.mpr hget)

/-- Tables with one map are one table. -/
lemma commitMap_inj {F' : Rows} (hP : ∀ k v, F.get? k = some v ∨ F'.get? k = some v → k ∈ P ∧ leafPreimage H d k v ∈ P)
    (he : commitMap H d F = commitMap H d F') : F = F' := by
  have hkeys : ∀ e ∈ F.entries, e.1 ∈ P := fun e h => (hP e.1 e.2 (.inl (OrdMap.mem_entries.mp h))).1
  have hkeys' : ∀ e ∈ F'.entries, e.1 ∈ P := fun e h => (hP e.1 e.2 (.inr (OrdMap.mem_entries.mp h))).1
  have hget : ∀ k ∈ P, (F.get? k).map (leafHash H d k) = (F'.get? k).map (leafHash H d k) := fun k hk => by
    rw [← get?_commitMap hinj hkeys hk, he, get?_commitMap hinj hkeys' hk]
  have hvalue : ∀ {k v v'}, F.get? k = some v → F'.get? k = some v' → leafHash H d k v = leafHash H d k v' → v = v' :=
    fun {k v v'} hv hv' hh => (leafPreimage_inj (hinj (hP k v (.inl hv)).2 (hP k v' (.inr hv')).2 hh)).2
  refine OrdMap.ext_get fun k => Option.ext fun v => ⟨fun hv => ?_, fun hv => ?_⟩
  · have hk := hget k (hP k v (.inl hv)).1
    rw [hv, Option.map_some, eq_comm, Option.map_eq_some_iff] at hk
    obtain ⟨v', hv', hh⟩ := hk
    rw [hv', hvalue hv hv' hh.symm]
  · have hk := hget k (hP k v (.inr hv)).1
    rw [hv, Option.map_some, Option.map_eq_some_iff] at hk
    obtain ⟨v', hv', hh⟩ := hk
    rw [hv', hvalue hv' hv hh]

/-- The leaves of the map are those of the rows. -/
lemma mem_leavesOf_commitMap (hkeys : ∀ e ∈ F.entries, e.1 ∈ P) {l : LeafRef 32} :
    l ∈ leavesOf (commitMap H d F) ↔ ∃ k v, F.get? k = some v ∧ l = ⟨H.hash k, leafHash H d k v⟩ := by
  rw [mem_leavesOf, commitMap_eq_some hinj hkeys]
  refine exists_congr fun k => exists_congr fun v => and_congr_right fun _ => ?_
  constructor
  · rintro ⟨hp, hh⟩
    cases l
    simp_all
  · rintro rfl
    exact ⟨rfl, rfl⟩

end Map

/-- A map whose entries are all one. -/
lemma entries_eq_singleton {F : Rows} {e : Bytes × Bytes} (h : ∀ x ∈ F.entries, x = e) (he : e ∈ F.entries) :
    F.entries = [e] := by
  have hsorted := F.sorted
  cases hl : F.entries with
  | nil =>
    rw [hl] at he
    cases he
  | cons x l =>
    rw [hl] at h hsorted
    obtain rfl := h x (List.mem_cons_self ..)
    cases l with
    | nil => rfl
    | cons y l =>
      have hlt := (List.pairwise_cons.mp hsorted).1 y (List.mem_cons_self ..)
      rw [h y (by simp)] at hlt
      exact absurd hlt (lt_irrefl _)

/-! ### Digests -/

section Digest

variable {N : ℕ} {T : Trie N} {d : UInt8} {P : Set Bytes} {r r' : Rows} {t t' : Radix 16 (LeafRef N)}

/-- A tree whose branches and leaves are hashed from `P`. -/
structure Trie.Hashed (T : Trie N) (d : UInt8) (P : Set Bytes) (t : Radix 16 (LeafRef N)) : Prop where
  fits : T.Fits P (leavesIn T.hasher d P) t
  leaves : ∀ l ∈ t.leaves, l ∈ leavesIn T.hasher d P

/-- **A reference binds its tree.** -/
theorem Trie.ref_inj {B : Set (LeafRef N)} (hA : T.Assumes P B) : ∀ {t t' : Radix 16 (LeafRef N)}, T.Stored r t →
    T.Stored r' t' → T.Fits P B t → T.Fits P B t' → T.ref t = T.ref t' → t = t' := by
  intro t
  induction t with
  | empty => exact fun _ _ _ _ he => (T.ref_eq_empty.mp he.symm).symm
  | leaf l =>
    intro t' _ _ _ _ he
    cases t' with
    | empty => cases he
    | leaf l' => rw [RootRef.leaf.inj he]
    | branch pre kids => cases he
  | branch pre kids ih =>
    intro t' hs hs' hf hf' he
    cases t' with
    | empty => cases he
    | leaf l' => cases he
    | branch pre' kids' =>
      have hmem : (pre, fun s => T.ref (kids s)) ∈ T.branches (.branch pre kids) := T.branches_branch.mpr (.inl rfl)
      have hmem' : (pre', fun s => T.ref (kids' s)) ∈ T.branches (.branch pre' kids') :=
        T.branches_branch.mpr (.inl rfl)
      obtain ⟨node, hnode, -⟩ := hs _ hmem
      obtain ⟨node', hnode', -⟩ := hs' _ hmem'
      have hb := (Trie.encode_eq_of_hash hA hnode hnode' (hf _ hmem).1 (hf' _ hmem').1 (hf _ hmem).2 (hf' _ hmem').2
        (RootRef.branch.inj he)).1
      obtain ⟨rfl, hrefs⟩ := Prod.mk.inj hb
      have hkids : kids = kids' := funext fun s =>
        ih s (hs.kid s) (hs'.kid s) (hf.subset (T.branches_kid pre kids s)) (hf'.subset (T.branches_kid pre kids' s))
          (congrFun hrefs s)
      rw [hkids]

/-- **A digest binds its tree**: the empty tree, a lone leaf and a branch never share one. -/
theorem Trie.digest_inj (hT : T.table.validate = .ok ()) (hinj : Set.InjOn T.hasher.hash P) (hd : d ≠ T.domain)
    (hnil : [] ∈ P) (hs : T.Stored r t) (hs' : T.Stored r' t') (h : T.Hashed d P t) (h' : T.Hashed d P t')
    (he : (T.ref t).hash T.hasher = (T.ref t').hash T.hasher) : t = t' := by
  have hleaf : ∀ {l : LeafRef N} {t : Radix 16 (LeafRef N)}, T.Hashed d P t → t = .leaf l →
      ∃ v, d :: (l.path.1 ++ v) ∈ P ∧ l.hash = T.hasher.hash (d :: (l.path.1 ++ v)) := by
    rintro l _ ht rfl
    exact ht.leaves l (by simp [Radix.leaves])
  have hbranch : ∀ {pre : List Nibble} {kids : Nibble → Radix 16 (LeafRef N)}, T.Hashed d P (.branch pre kids) →
      T.preimage (pre, fun s => T.ref (kids s)) ∈ P := fun ht => (ht.fits _ (T.branches_branch.mpr (.inl rfl))).1
  cases ht : t with
  | empty =>
    cases ht' : t' with
    | empty => rfl
    | leaf l' =>
      obtain ⟨v, hv, hl⟩ := hleaf h' ht'
      rw [ht, ht'] at he
      cases hinj hnil hv (he.trans hl)
    | branch pre' kids' =>
      rw [ht, ht'] at he
      cases hinj hnil (hbranch (ht' ▸ h')) he
  | leaf l =>
    obtain ⟨v, hv, hl⟩ := hleaf h ht
    cases ht' : t' with
    | empty =>
      rw [ht, ht'] at he
      cases hinj hv hnil (hl.symm.trans he)
    | leaf l' =>
      rw [ht, ht'] at he
      have hpath := leavesIn_bind hinj l (h.leaves l (by simp [ht, Radix.leaves])) l'
        (h'.leaves l' (by simp [ht', Radix.leaves])) he
      cases l
      cases l'
      simp_all [Trie.ref, RootRef.hash]
    | branch pre' kids' =>
      rw [ht, ht'] at he
      exact absurd (List.cons.inj (hinj hv (hbranch (ht' ▸ h')) (hl.symm.trans he))).1 hd
  | branch pre kids =>
    cases ht' : t' with
    | empty =>
      rw [ht, ht'] at he
      cases hinj (hbranch (ht ▸ h)) hnil he
    | leaf l' =>
      obtain ⟨v, hv, hl⟩ := hleaf h' ht'
      rw [ht, ht'] at he
      exact absurd (List.cons.inj (hinj hv (hbranch (ht ▸ h)) (hl.symm.trans he.symm))).1 hd
    | branch pre' kids' =>
      rw [ht, ht'] at he
      subst ht ht'
      exact Trie.ref_inj ⟨hT, hinj, leavesIn_bind hinj⟩ hs hs' h.fits h'.fits (congrArg RootRef.branch he)

/-- Maps with one tree are one map. -/
lemma refTree_inj {M M' : OrdMap (Arr N) Hash} (h : refTree M = refTree M') : M = M' := by
  have hleaves : leavesOf M = leavesOf M' := by rw [← leaves_refTree, ← leaves_refTree, h]
  refine OrdMap.ext_get fun p => Option.ext fun hash => ?_
  have hM := mem_leavesOf (M := M) (l := ⟨p, hash⟩)
  have hM' := mem_leavesOf (M := M') (l := ⟨p, hash⟩)
  rw [← hM, ← hM', hleaves]

end Digest

/-! ### Batches without edits -/

/-- **A batch without edits reads the root alone**, and writes nothing. -/
lemma Trie.apply_nil {N : ℕ} {T : Trie N} {τ : Type} [WriteTransaction τ] [LawfulWrite τ] {tx : τ}
    (hT : T.table.validate = .ok ()) {M : OrdMap (Arr N) Hash} (hs : T.Stored (rows tx T.table) (refTree M)) :
    Prog.Runs (T.apply (T.ref (refTree M)) []) tx (T.ref (refTree M)) tx := by
  suffices Prog.Runs (T.applyAt (2 * N + 1) (.stored (T.ref (refTree M))) [] []) tx
      (.stored (T.ref (refTree M))) tx from
    this.bind (Prog.Runs.pure _ tx)
  have hcanon : refTree M = canon (2 * N) [] (leafMap M.get?) := by
    rw [refTree_eq]
    rfl
  cases ht : refTree M with
  | empty => exact Prog.Runs.pure _ tx
  | leaf l => exact Prog.Runs.pure _ tx
  | branch pre kids =>
    rw [ht] at hs
    rw [hcanon] at ht
    obtain ⟨node, hload, hof⟩ := Trie.load_canon tx hT (leafMap_keyed _) (by simp) ht hs
    obtain ⟨j, hj, -⟩ := canon_branch_inv ht
    rw [Trie.ref, Trie.applyAt]
    refine Prog.Runs.bind (Prog.Runs.read (f := fun tx => T.load tx _ []) hload) ?_
    have hlen : ¬ N * 2 ≤ ([] : List Nibble).length + node.unpackPrefix.length := by
      rw [hof.unpackPrefix, List.length_nil]
      omega
    have hsplit : splitPrefix node.unpackPrefix node.children ([] : List (Edit N)) ([] : List Nibble).length
        = (node.unpackPrefix.length, fun slot => .stored (node.children slot)) := by
      simp [splitPrefix]
    unfold Trie.applyBranch
    rw [if_neg hlen, hsplit]
    simp only [lt_irrefl, not_false_iff, true_and]
    refine (Prog.Runs.pure _ tx).bind ?_
    rw [if_pos fun _ => rfl]
    exact Prog.Runs.pure _ tx

/-! ### Tables that commit to rows -/

section Commits

variable (T : Trie 32) (d : UInt8)

/-- **The preimages of a table**: no bytes, the keys, the leaves and the branches. -/
def flatPreimages (F : Rows) : List Bytes :=
  [] :: (F.entries.flatMap fun e => [e.1, leafPreimage T.hasher d e.1 e.2])
    ++ (T.branches (refTree (commitMap T.hasher d F))).map T.preimage

/-- The root of a table. -/
def flatRoot (F : Rows) : RootRef 32 := T.ref (refTree (commitMap T.hasher d F))

/-- What a trie over a table relies on. -/
structure Separates (P : Set Bytes) : Prop where
  valid : T.table.validate = .ok ()
  inj : Set.InjOn T.hasher.hash P
  domain : d ≠ T.domain

/-- **The branch table holds the tree of the rows**, with all preimages in `P`. -/
structure Commits (P : Set Bytes) (branches F : Rows) : Prop where
  preimages : ∀ x ∈ flatPreimages T d F, x ∈ P
  sound : T.Sound P (leavesIn T.hasher d P) branches
  stored : T.Stored branches (refTree (commitMap T.hasher d F))

end Commits

section Facts

variable {T : Trie 32} {d : UInt8} {P : Set Bytes} {branches F : Rows}

lemma Separates.assumes (h : Separates T d P) : T.Assumes P (leavesIn T.hasher d P) :=
  ⟨h.valid, h.inj, leavesIn_bind h.inj⟩

section Preimages

variable (hP : ∀ x ∈ flatPreimages T d F, x ∈ P)

include hP

lemma nil_mem : [] ∈ P := hP _ (List.mem_append_left _ (List.mem_cons_self ..))

lemma key_mem : ∀ e ∈ F.entries, e.1 ∈ P := fun e he =>
  hP _ (List.mem_append_left _ (List.mem_cons_of_mem _ (List.mem_flatMap.mpr ⟨e, he, List.mem_cons_self ..⟩)))

lemma leaf_mem {k v : Bytes} (h : F.get? k = some v) : leafPreimage T.hasher d k v ∈ P :=
  hP _ (List.mem_append_left _ (List.mem_cons_of_mem _
    (List.mem_flatMap.mpr ⟨_, OrdMap.mem_entries.mpr h, List.mem_cons_of_mem _ (List.mem_cons_self ..)⟩)))

lemma branch_mem {b : Branch 32} (h : b ∈ T.branches (refTree (commitMap T.hasher d F))) : T.preimage b ∈ P :=
  hP _ (List.mem_append_right _ (List.mem_map_of_mem h))

/-- The tree of the rows has its preimages in `P`. -/
lemma flat_fits (hinj : Set.InjOn T.hasher.hash P) :
    T.Fits P (leavesIn T.hasher d P) (refTree (commitMap T.hasher d F)) := by
  intro b hb
  refine ⟨branch_mem hP hb, fun s l hl => ?_⟩
  have hleaf := Trie.mem_leaves_of_branch hb hl
  rw [leaves_refTree, mem_leavesOf_commitMap hinj (key_mem hP)] at hleaf
  obtain ⟨k, v, hv, rfl⟩ := hleaf
  exact ⟨v, leaf_mem hP hv, rfl⟩

lemma flat_hashed (hinj : Set.InjOn T.hasher.hash P) : T.Hashed d P (refTree (commitMap T.hasher d F)) := by
  refine ⟨flat_fits hP hinj, fun l hl => ?_⟩
  rw [leaves_refTree, mem_leavesOf_commitMap hinj (key_mem hP)] at hl
  obtain ⟨k, v, hv, rfl⟩ := hl
  exact ⟨v, leaf_mem hP hv, rfl⟩

end Preimages

/-- A branch table without rows commits to the empty table. -/
lemma commits_empty (h : ([] : Bytes) ∈ P) : Commits T d P OrdMap.empty OrdMap.empty := by
  have htree : refTree (commitMap T.hasher d OrdMap.empty) = .empty := Trie.refTree_empty
  refine ⟨fun x hx => ?_, Trie.sound_empty rfl, ?_⟩
  · rw [flatPreimages, htree] at hx
    obtain rfl : x = [] := by simpa [Trie.branches, OrdMap.empty] using hx
    exact h
  · rw [htree]
    exact Trie.stored_empty

/-- **A digest binds its table**, also across branch tables. -/
theorem Commits.digest_inj {branches' F F' : Rows} (hT : Separates T d P) (h : Commits T d P branches F)
    (h' : Commits T d P branches' F') (he : (flatRoot T d F).hash T.hasher = (flatRoot T d F').hash T.hasher) :
    F = F' := by
  have htree := Trie.digest_inj hT.valid hT.inj hT.domain (nil_mem h.preimages) h.stored h'.stored
    (flat_hashed h.preimages hT.inj) (flat_hashed h'.preimages hT.inj) he
  refine commitMap_inj hT.inj (fun k v hk => ?_) (refTree_inj htree)
  rcases hk with hk | hk
  · exact ⟨key_mem h.preimages _ (OrdMap.mem_entries.mpr hk), leaf_mem h.preimages hk⟩
  · exact ⟨key_mem h'.preimages _ (OrdMap.mem_entries.mpr hk), leaf_mem h'.preimages hk⟩

/-- **A batch of changed rows** leads from root to root, and the branch table grows by the branches
of the new tree. -/
theorem Commits.apply {τ : Type} [WriteTransaction τ] [LawfulWrite τ] (hT : Separates T d P) {tx : τ}
    {changes : List (Bytes × Option Bytes)} {F' : Rows} (h : Commits T d P (rows tx T.table) F)
    (hF' : changes.foldl (fun F c => F.set c.1 c.2) F = F') (hchanges : ∀ c ∈ changes, c.1 ∈ P)
    (hP : ∀ x ∈ flatPreimages T d F', x ∈ P) :
    ∃ tx', Prog.Runs (T.apply (flatRoot T d F)
        (changes.map fun c => (T.hasher.hash c.1, c.2.map (leafHash T.hasher d c.1)))) tx (flatRoot T d F') tx' ∧
      Commits T d P (rows tx' T.table) F' ∧ T.Grows (T.branches (refTree (commitMap T.hasher d F'))) tx tx' := by
  have hset := commitMap_setAll hT.inj (d := d) changes hchanges (key_mem h.preimages)
  rw [hF'] at hset
  have hfits := flat_fits hP hT.inj
  rw [← hset] at hfits
  obtain ⟨tx', hrun, hstored, hgrows⟩ := Trie.apply_refTree hT.assumes h.sound h.stored hfits
  rw [hset] at hrun hstored hgrows
  exact ⟨tx', hrun, ⟨hP, h.sound.grows hgrows (flat_fits hP hT.inj), hstored⟩, hgrows⟩

/-! ### Roots and digests -/

/-- **The kinds of root**, told apart by the digest, the branch table and the rows. -/
inductive RootKind (T : Trie 32) (d : UInt8) (branches F : Rows) : RootRef 32 → Prop
  | empty (hrows : F.entries = []) : RootKind T d branches F .empty
  | leaf (k v : Bytes) (hrows : F.entries = [(k, v)]) (hne : leafHash T.hasher d k v ≠ T.hasher.hash [])
      (hnone : branches.get? (leafHash T.hasher d k v).1 = none) :
      RootKind T d branches F (.leaf ⟨T.hasher.hash k, leafHash T.hasher d k v⟩)
  | branch (hash : Hash) (bytes : Bytes) (hne : hash ≠ T.hasher.hash []) (hrow : branches.get? hash.1 = some bytes)
      (hvalid : ∀ (τ : Type) [ReadTransaction τ] [LawfulRead τ] (tx : τ), rows tx T.table = branches →
        T.validateRoot tx (.branch hash) = .ok ()) : RootKind T d branches F (.branch hash)

/-- The hash of a row's leaf is no branch of the table. -/
lemma Commits.leaf_ne_branch (hT : Separates T d P) (h : Commits T d P branches F) {k v : Bytes}
    (hv : F.get? k = some v) : branches.get? (leafHash T.hasher d k v).1 = none := by
  cases hrow : branches.get? (leafHash T.hasher d k v).1 with
  | none => rfl
  | some bytes =>
    obtain ⟨b, node, -, hkey, -, hb, -⟩ := h.sound _ _ hrow
    have hpre := hT.inj (leaf_mem h.preimages hv) hb (Subtype.ext hkey)
    exact absurd (List.cons.inj hpre).1 hT.domain

theorem Commits.kind (hT : Separates T d P) (h : Commits T d P branches F) :
    RootKind T d branches F (flatRoot T d F) := by
  have hkeys := key_mem h.preimages
  have hleaves := leaves_refTree (commitMap T.hasher d F)
  have hmem : ∀ k v, F.get? k = some v →
      (⟨T.hasher.hash k, leafHash T.hasher d k v⟩ : LeafRef 32) ∈ (refTree (commitMap T.hasher d F)).leaves := by
    intro k v hv
    rw [hleaves, mem_leavesOf_commitMap hT.inj hkeys]
    exact ⟨k, v, hv, rfl⟩
  unfold flatRoot
  cases ht : refTree (commitMap T.hasher d F) with
  | empty =>
    refine .empty (List.eq_nil_iff_forall_not_mem.mpr fun e he => ?_)
    have hin := hmem e.1 e.2 (OrdMap.mem_entries.mp he)
    rw [ht] at hin
    simp [Radix.leaves] at hin
  | leaf l =>
    -- every row has the path of the only leaf, so there is one row
    have hl : l ∈ leavesOf (commitMap T.hasher d F) := by rw [← hleaves, ht]; simp [Radix.leaves]
    obtain ⟨k, v, hv, rfl⟩ := (mem_leavesOf_commitMap hT.inj hkeys).mp hl
    have hall : ∀ e ∈ F.entries, e = (k, v) := by
      intro e he
      have hget := OrdMap.mem_entries.mp he
      have hin := hmem e.1 e.2 hget
      rw [ht, Radix.leaves, List.mem_singleton, LeafRef.mk.injEq] at hin
      have hk := hT.inj (hkeys e he) (hkeys _ (OrdMap.mem_entries.mpr hv)) hin.1
      rw [hk] at hget
      exact Prod.ext hk (Option.some.inj (hget.symm.trans hv))
    refine .leaf k v (entries_eq_singleton hall (OrdMap.mem_entries.mpr hv)) (fun he => ?_) (h.leaf_ne_branch hT hv)
    have hpre := hT.inj (leaf_mem h.preimages hv) (nil_mem h.preimages) he
    cases hpre
  | branch pre kids =>
    have hstored := h.stored
    rw [ht] at hstored
    obtain ⟨node, -, hrow⟩ := hstored _ (T.branches_branch.mpr (.inl rfl))
    have hb : (pre, fun s => T.ref (kids s)) ∈ T.branches (refTree (commitMap T.hasher d F)) := by
      rw [ht]
      exact T.branches_branch.mpr (.inl rfl)
    refine .branch _ _ (fun he => ?_) hrow fun τ _ _ tx htx => ?_
    · have hpre := hT.inj (branch_mem h.preimages hb) (nil_mem h.preimages) he
      cases hpre
    · have hcanon : canon (2 * 32) [] (leafMap (commitMap T.hasher d F).get?) = .branch pre kids := by
        rw [← ht, refTree_eq]
        rfl
      obtain ⟨node', hload, -⟩ := Trie.load_canon tx hT.valid (leafMap_keyed _)
        (by simp) hcanon (by rw [htx]; exact hstored)
      rw [Trie.validateRoot, hload]
      rfl

end Facts

end GolemDb.Merkle
