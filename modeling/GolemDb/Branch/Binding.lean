import GolemDb.Branch.Commitment

/-!
The roots of a state bind it. A state has leaves and branches in three tries, and each of the six
kinds is hashed under a domain byte of its own, so under a hash that separates the preimages of two
states no nodes of different kinds share a digest (`nodes_separate`). A root is the digest of a node
of its kind, and equal roots belong to equal tables (`Holds.cells_inj`, `Holds.index_inj`).
-/

namespace GolemDb.Branch

open GolemDb.Lib GolemDb.Storage GolemDb.Merkle GolemDb.Cells GolemDb.Index

/-! ### The nodes of a state -/

/-- The kinds of nodes; `empty` stands for a trie without leaves. -/
inductive NodeKind where
  | empty
  | cellLeaf
  | cellBranch
  | termLeaf
  | termBranch
  | setLeaf
  | setBranch
deriving DecidableEq

namespace NodeKind

/-- The domain byte of a kind. -/
def domain : NodeKind → Option UInt8
  | empty => none
  | cellLeaf => some CELL_LEAF_DOMAIN
  | cellBranch => some CELL_BRANCH_DOMAIN
  | termLeaf => some INDEX_LEAF_DOMAIN
  | termBranch => some INDEX_BRANCH_DOMAIN
  | setLeaf => some BITMAP_LEAF_DOMAIN
  | setBranch => some BITMAP_BRANCH_DOMAIN

lemma domain_inj : ∀ {k k' : NodeKind}, k.domain = k'.domain → k = k' := by
  intro k k'
  cases k <;> cases k' <;> first | exact fun _ => rfl | exact fun h => absurd h (by decide)

/-- The kind of a root in a trie with such leaves and branches. -/
def ofRoot {N : ℕ} (leaf branch : NodeKind) : RootRef N → NodeKind
  | .empty => empty
  | .leaf _ => leaf
  | .branch _ => branch

end NodeKind

section Nodes

variable (H : HashProvider) (R : Roaring)

def leafNodes (d : UInt8) (F : Rows) : List Bytes := F.entries.map fun e => leafPreimage H d e.1 e.2

def branchNodes {N : ℕ} (T : Trie N) (t : Radix 16 (LeafRef N)) : List Bytes := (T.branches t).map T.preimage

/-- **The nodes of a state**, as the bytes they are the hashes of. -/
def nodes (m : CellMap) : NodeKind → List Bytes
  | .empty => [[]]
  | .cellLeaf => leafNodes H CELL_LEAF_DOMAIN (cellRows m)
  | .cellBranch => branchNodes (cellTrie H) (refTree (commitMap H CELL_LEAF_DOMAIN (cellRows m)))
  | .termLeaf => leafNodes H INDEX_LEAF_DOMAIN (termRows (digests H R (cellPostings m)))
  | .termBranch => branchNodes (indexTrie H)
      (refTree (commitMap H INDEX_LEAF_DOMAIN (termRows (digests H R (cellPostings m)))))
  | .setLeaf => (cellPostings m).sets.entries.flatMap fun e =>
      e.2.toList.map fun v => BITMAP_LEAF_DOMAIN :: containerBytes R e.2 (split v).1
  | .setBranch => (cellPostings m).sets.entries.flatMap fun e => branchNodes (bitmapTrie H) (setTree H R e.2)

variable {H R} {m m' : CellMap} {x x' : Bytes} {k k' : NodeKind} {P : Set Bytes}

/-- A node starts with the byte of its domain. -/
lemma nodes_domain (h : x ∈ nodes H R m k) : x.head? = k.domain := by
  cases k with
  | empty => rw [List.mem_singleton.mp h]; rfl
  | cellLeaf | termLeaf =>
    obtain ⟨e, -, rfl⟩ := List.mem_map.mp h
    rfl
  | cellBranch | termBranch =>
    obtain ⟨b, -, rfl⟩ := List.mem_map.mp h
    rfl
  | setLeaf | setBranch =>
    obtain ⟨e, -, h⟩ := List.mem_flatMap.mp h
    obtain ⟨b, -, rfl⟩ := List.mem_map.mp h
    rfl

lemma leafNodes_subset {T : Trie 32} {d : UInt8} {F : Rows} (h : x ∈ leafNodes T.hasher d F) :
    x ∈ flatPreimages T d F := by
  obtain ⟨e, he, rfl⟩ := List.mem_map.mp h
  exact List.mem_append_left _ (List.mem_cons_of_mem _ (List.mem_flatMap.mpr ⟨e, he, by simp⟩))

/-- Every node of a state is hashed for it. -/
lemma nodes_subset (h : x ∈ nodes H R m k) : x ∈ statePreimages H R m := by
  cases k with
  | empty =>
    rw [List.mem_singleton.mp h]
    exact List.mem_append_left _ (List.mem_append_left _ (List.mem_cons_self ..))
  | cellLeaf => exact List.mem_append_left _ (leafNodes_subset (T := cellTrie H) h)
  | cellBranch => exact List.mem_append_left _ (List.mem_append_right _ h)
  | termLeaf => exact List.mem_append_right _ (List.mem_append_left _ (leafNodes_subset (T := indexTrie H) h))
  | termBranch => exact List.mem_append_right _ (List.mem_append_left _ (List.mem_append_right _ h))
  | setLeaf =>
    obtain ⟨e, he, h⟩ := List.mem_flatMap.mp h
    exact List.mem_append_right _ (List.mem_append_right _ (List.mem_flatMap.mpr ⟨e, he, List.mem_append_left _ h⟩))
  | setBranch =>
    obtain ⟨e, he, h⟩ := List.mem_flatMap.mp h
    exact List.mem_append_right _ (List.mem_append_right _ (List.mem_flatMap.mpr ⟨e, he, List.mem_append_right _ h⟩))

/-- **Nodes that share a digest** are of one kind and have the same bytes, also across states. -/
theorem nodes_separate (hinj : Set.InjOn H.hash P) (hP : ∀ x ∈ statePreimages H R m, x ∈ P)
    (hP' : ∀ x ∈ statePreimages H R m', x ∈ P) (hx : x ∈ nodes H R m k) (hx' : x' ∈ nodes H R m' k')
    (he : H.hash x = H.hash x') : k = k' ∧ x = x' := by
  obtain rfl := hinj (hP x (nodes_subset hx)) (hP' x' (nodes_subset hx')) he
  exact ⟨NodeKind.domain_inj ((nodes_domain hx).symm.trans (nodes_domain hx')), rfl⟩

end Nodes

/-! ### Roots -/

section Roots

variable {H : HashProvider} {R : Roaring} {P : Set Bytes} {r r' : Table → Rows} {m m' : CellMap} {x : Bytes}

/-- The digest of a tree with at least one branch is that of its topmost one. -/
lemma branch_node {N : ℕ} (T : Trie N) (pre : List Nibble) (kids : Nibble → Radix 16 (LeafRef N)) :
    ∃ x ∈ branchNodes T (.branch pre kids), (T.ref (.branch pre kids)).hash T.hasher = T.hasher.hash x :=
  ⟨_, List.mem_map_of_mem (T.branches_branch.mpr (.inl rfl)), rfl⟩

/-- **The root of a table is the digest of a node of its kind.** -/
lemma flatRoot_node {T : Trie 32} {d : UInt8} {F : Rows} {branches : Rows} (hT : Separates T d P)
    (h : Commits T d P branches F) {leaf branch : NodeKind} {at' : NodeKind → List Bytes} (hempty : [] ∈ at' .empty)
    (hleaf : ∀ x ∈ leafNodes T.hasher d F, x ∈ at' leaf)
    (hbranch : ∀ x ∈ branchNodes T (refTree (commitMap T.hasher d F)), x ∈ at' branch) :
    ∃ x ∈ at' (.ofRoot leaf branch (flatRoot T d F)), (flatRoot T d F).hash T.hasher = T.hasher.hash x := by
  have hleaves : (refTree (commitMap T.hasher d F)).leaves = leavesOf (commitMap T.hasher d F) := leaves_refTree _
  unfold flatRoot
  cases ht : refTree (commitMap T.hasher d F) with
  | empty => exact ⟨[], hempty, rfl⟩
  | leaf l =>
    have hl : l ∈ leavesOf (commitMap T.hasher d F) := by rw [← hleaves, ht]; simp [Radix.leaves]
    obtain ⟨key, value, hv, rfl⟩ := (mem_leavesOf_commitMap hT.inj (key_mem h.preimages)).mp hl
    exact ⟨_, hleaf _ (List.mem_map.mpr ⟨_, OrdMap.mem_entries.mpr hv, rfl⟩), rfl⟩
  | branch pre kids =>
    obtain ⟨x, hx, he⟩ := branch_node T pre kids
    exact ⟨x, hbranch x (ht ▸ hx), he⟩

/-- **The root of a set is the digest of a node of its kind.** -/
lemma setRoot_node {S : OrdSet U64} {at' : NodeKind → List Bytes} (hempty : [] ∈ at' .empty)
    (hleaf : ∀ v ∈ S, BITMAP_LEAF_DOMAIN :: containerBytes R S (split v).1 ∈ at' .setLeaf)
    (hbranch : ∀ x ∈ branchNodes (bitmapTrie H) (setTree H R S), x ∈ at' .setBranch) :
    ∃ x ∈ at' (.ofRoot .setLeaf .setBranch (setRoot H R S)), (setRoot H R S).hash H = H.hash x := by
  unfold setRoot
  cases ht : setTree H R S with
  | empty => exact ⟨[], hempty, rfl⟩
  | leaf l =>
    obtain ⟨v, hv, rfl⟩ := mem_leaves_setTree.mp (show l ∈ (setTree H R S).leaves by rw [ht]; simp [Radix.leaves])
    exact ⟨_, hleaf v hv, containerHash_eq _⟩
  | branch pre kids =>
    obtain ⟨x, hx, he⟩ := branch_node (bitmapTrie H) pre kids
    exact ⟨x, hbranch x (ht ▸ hx), he⟩

/-- **The roots of a state are nodes of it**, of the kind of each root. -/
structure RootNodes (H : HashProvider) (R : Roaring) (m : CellMap) : Prop where
  cells : ∃ x ∈ nodes H R m (.ofRoot .cellLeaf .cellBranch (cellRoot H m)), (cellRoot H m).hash H = H.hash x
  index : ∃ x ∈ nodes H R m (.ofRoot .termLeaf .termBranch (indexRoot H R (cellPostings m))),
    (indexRoot H R (cellPostings m)).hash H = H.hash x
  sets : ∀ t, ∃ x ∈ nodes H R m (.ofRoot .setLeaf .setBranch (setRoot H R ((cellPostings m).ids t))),
    (setRoot H R ((cellPostings m).ids t)).hash H = H.hash x

theorem Holds.rootNodes (hinj : Set.InjOn H.hash P) (h : Holds H R P r m) : RootNodes H R m := by
  have hentry : ∀ {t : IndexTerm} {v : U64}, v ∈ (cellPostings m).ids t →
      (t, (cellPostings m).ids t) ∈ (cellPostings m).sets.entries := fun {t v} hv => by
    have hne : (cellPostings m).ids t ≠ OrdMap.empty := fun he => OrdSet.not_mem_empty v (he ▸ hv)
    rw [OrdMap.mem_entries, Postings.get?_eq, if_neg hne]
  refine ⟨flatRoot_node (separates_cells hinj) h.cells.commits (List.mem_singleton_self _) (fun _ h => h)
    (fun _ h => h),
    flatRoot_node (separates_index hinj) h.index.commits (List.mem_singleton_self _) (fun _ h => h) (fun _ h => h),
    fun t => setRoot_node (List.mem_singleton_self _) (fun v hv => ?_) fun x hx => ?_⟩
  · exact List.mem_flatMap.mpr ⟨_, hentry hv, List.mem_map_of_mem (OrdSet.mem_toList.mpr hv)⟩
  · -- only the tree of a set with ids has branches
    obtain ⟨b, hb, rfl⟩ := List.mem_map.mp hx
    obtain ⟨v, hv⟩ : ∃ v, v ∈ (cellPostings m).ids t := by
      by_contra hall
      have htree := setRoot_eq_empty (H := H) (R := R).mpr (OrdSet.eq_empty_iff.mpr (not_exists.mp hall))
      rw [setRoot, Trie.ref_eq_empty] at htree
      rw [htree] at hb
      cases hb
    exact List.mem_flatMap.mpr ⟨_, hentry hv, List.mem_map_of_mem hb⟩

/-- **The state root binds the cells.** -/
theorem Holds.cells_inj (hinj : Set.InjOn H.hash P) (h : Holds H R P r m) (h' : Holds H R P r' m')
    (he : (cellRoot H m).hash H = (cellRoot H m').hash H) : m = m' :=
  cellRows_inj (h.cells.commits.digest_inj (separates_cells hinj) h'.cells.commits he)

/-- **The index root binds the posting sets.** -/
theorem Holds.index_inj (hinj : Set.InjOn H.hash P) (h : Holds H R P r m) (h' : Holds H R P r' m')
    (he : (indexRoot H R (cellPostings m)).hash H = (indexRoot H R (cellPostings m')).hash H) :
    cellPostings m = cellPostings m' :=
  h.index.digest_inj hinj h'.index he

end Roots

end GolemDb.Branch
