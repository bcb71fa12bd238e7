import GolemDb.Merkle.Codec
import GolemDb.Merkle.Trie

/-!
What a trie is for: a finite map from paths to leaves has one radix tree, and `ref` is the root
reference the tree hashes to. A branch table holds a tree when it has a row for each of its
branches (`Stored`); it is `Sound` when each of its rows is such a branch, with its preimage in a
set on which the hash is injective. The rest of the file is what `load` and `store` do on such
tables: a branch of a stored tree is found, and a branch of a new tree is written without
touching another row.
-/

namespace GolemDb.Merkle

open GolemDb.Lib GolemDb.Lib.Radix GolemDb.Storage

/-- The nibbles of a leaf's path. -/
def LeafRef.key {N : ℕ} (l : LeafRef N) : List Nibble := nibbles l.path.1

@[simp] lemma LeafRef.key_length {N : ℕ} (l : LeafRef N) : l.key.length = 2 * N := by
  rw [LeafRef.key, nibbles_length, l.path.2]

/-- A branch: its prefix and its sixteen references. -/
abbrev Branch (N : ℕ) := List Nibble × (Nibble → RootRef N)

/-- The map has every leaf under its own path. -/
def Keyed {N : ℕ} (m : List Nibble → Option (LeafRef N)) : Prop := ∀ p l, m p = some l → l.key = p

/-! ### Maps from paths to leaf hashes -/

section LeafMap

variable {N : ℕ}

/-- The leaf a map from paths to leaf hashes has under a string of nibbles. -/
def leafMap (M : Arr N → Option Hash) (p : List Nibble) : Option (LeafRef N) :=
  (toArr? N (pack p)).bind fun a => if nibbles a.1 = p then (M a).map (LeafRef.mk a) else none

lemma leafMap_nibbles (M : Arr N → Option Hash) (a : Arr N) :
    leafMap M (nibbles a.1) = (M a).map (LeafRef.mk a) := by
  rw [leafMap, pack_nibbles, toArr?_val]
  simp

lemma leafMap_eq_some {M : Arr N → Option Hash} {p : List Nibble} {l : LeafRef N} :
    leafMap M p = some l ↔ l.key = p ∧ M l.path = some l.hash := by
  constructor
  · intro h
    obtain ⟨a, -, ha⟩ := Option.bind_eq_some_iff.mp h
    split at ha
    · obtain ⟨x, hx, rfl⟩ := Option.map_eq_some_iff.mp ha
      rename_i hp
      exact ⟨hp, hx⟩
    · cases ha
  · rintro ⟨rfl, h⟩
    rw [LeafRef.key, leafMap_nibbles, h]
    rfl

lemma leafMap_keyed (M : Arr N → Option Hash) : Keyed (leafMap M) :=
  fun _ _ h => (leafMap_eq_some.mp h).1

/-- Two maps that agree on the paths with these nibbles have the same leaf there. -/
lemma leafMap_congr {M M' : Arr N → Option Hash} {p : List Nibble}
    (h : ∀ a : Arr N, nibbles a.1 = p → M a = M' a) : leafMap M p = leafMap M' p := by
  unfold leafMap
  congr 1
  funext a
  split
  · rename_i hp
    rw [h a hp]
  · rfl

lemma leafMap_update (M : Arr N → Option Hash) (a : Arr N) (v : Option Hash) :
    leafMap (Function.update M a v) = Function.update (leafMap M) (nibbles a.1) (v.map (LeafRef.mk a)) := by
  funext p
  by_cases hp : p = nibbles a.1
  · rw [hp, Function.update_self, leafMap_nibbles, Function.update_self]
  · rw [Function.update_of_ne hp]
    refine leafMap_congr fun x hx => Function.update_of_ne ?_ _ _
    rintro rfl
    exact hp hx.symm

/-- **The tree of a map.** -/
def tree (M : Arr N → Option Hash) : Radix 16 (LeafRef N) := canon (2 * N) [] (leafMap M)

end LeafMap

namespace Trie

variable {N : ℕ} (T : Trie N)

/-! ### Trees and their references -/

/-- The bytes hashed for a branch. -/
def preimage (b : Branch N) : Bytes := T.domain :: payload b.1 b.2

def branchHash (b : Branch N) : Hash := T.hasher.hash (T.preimage b)

/-- The root reference of a tree. -/
def ref : Radix 16 (LeafRef N) → RootRef N
  | .empty => .empty
  | .leaf l => .leaf l
  | .branch pre kids => .branch (T.branchHash (pre, fun s => ref (kids s)))

/-- The branches of a tree, each with its prefix and the references of its subtrees. -/
def branches : Radix 16 (LeafRef N) → List (Branch N)
  | .empty => []
  | .leaf _ => []
  | .branch pre kids =>
    (pre, fun s => T.ref (kids s)) :: (List.finRange 16).flatMap fun s => branches (kids s)

lemma ref_eq_empty {t : Radix 16 (LeafRef N)} : T.ref t = .empty ↔ t = .empty := by
  cases t <;> simp [ref]

lemma ref_ne_empty {t : Radix 16 (LeafRef N)} : T.ref t ≠ .empty ↔ t ≠ .empty :=
  not_congr T.ref_eq_empty

lemma branches_branch {pre : List Nibble} {kids : Nibble → Radix 16 (LeafRef N)}
    {b : Branch N} :
    b ∈ T.branches (.branch pre kids) ↔
      b = (pre, fun s => T.ref (kids s)) ∨ ∃ s, b ∈ T.branches (kids s) := by
  simp [branches]

lemma branches_kid (pre : List Nibble) (kids : Nibble → Radix 16 (LeafRef N)) (s : Nibble) :
    T.branches (kids s) ⊆ T.branches (.branch pre kids) :=
  fun _ hb => T.branches_branch.mpr (.inr ⟨s, hb⟩)

/-- The branches of a tree without unary branches contain those below its subtrees' roots. -/
lemma branches_collapse (pre : List Nibble) (kids : Nibble → Radix 16 (LeafRef N)) {s s' : Nibble}
    (hne : s ≠ s') (hs : kids s ≠ .empty) (hs' : kids s' ≠ .empty) (x : Nibble) :
    T.branches (kids x) ⊆ T.branches (Radix.collapse pre kids) := by
  rw [collapse_many hne hs hs']
  exact T.branches_kid pre kids x

/-! ### Tables -/

/-- The table has a row for every branch of the tree. -/
def Stored (rows : Rows) (t : Radix 16 (LeafRef N)) : Prop :=
  ∀ b ∈ T.branches t, ∃ node, NodeOf node b.1 b.2 ∧ rows.get? (T.branchHash b).1 = some node.encode

/-- The branches have their preimages in `P` and their leaves in `B`. -/
def Covered (P : Set Bytes) (B : Set (LeafRef N)) (S : List (Branch N)) : Prop :=
  ∀ b ∈ S, T.preimage b ∈ P ∧ ∀ s l, b.2 s = .leaf l → l ∈ B

/-- The tree's branches have their preimages in `P` and their leaves in `B`. -/
abbrev Fits (P : Set Bytes) (B : Set (LeafRef N)) (t : Radix 16 (LeafRef N)) : Prop :=
  T.Covered P B (T.branches t)

/-- Every row is a branch under its hash, with its preimage in `P` and its leaves in `B`. -/
def Sound (P : Set Bytes) (B : Set (LeafRef N)) (rows : Rows) : Prop :=
  ∀ k v, rows.get? k = some v → ∃ b node, NodeOf node b.1 b.2 ∧ k = (T.branchHash b).1 ∧
    v = node.encode ∧ T.preimage b ∈ P ∧ ∀ s l, b.2 s = .leaf l → l ∈ B

/-- What the trie relies on: a table name the backend accepts, a hash injective on the preimages
that occur, and leaf hashes that bind their paths. -/
structure Assumes (P : Set Bytes) (B : Set (LeafRef N)) : Prop where
  valid : T.table.validate = .ok ()
  inj : Set.InjOn T.hasher.hash P
  bind : ∀ l ∈ B, ∀ l' ∈ B, l.hash = l'.hash → l.path = l'.path

section Tables

variable {T} {P : Set Bytes} {B : Set (LeafRef N)} {t t' : Radix 16 (LeafRef N)} {r r' : Rows}

lemma stored_empty : T.Stored r .empty := by simp [Stored, branches]
lemma stored_leaf (l : LeafRef N) : T.Stored r (.leaf l) := by simp [Stored, branches]

lemma Stored.mono (h : T.Stored r t) (hr : ∀ k v, r.get? k = some v → r'.get? k = some v) :
    T.Stored r' t := by
  intro b hb
  obtain ⟨node, hn, hrow⟩ := h b hb
  exact ⟨node, hn, hr _ _ hrow⟩

lemma Stored.subset (h : T.Stored r t) (hb : T.branches t' ⊆ T.branches t) : T.Stored r t' :=
  fun b hb' => h b (hb hb')

lemma Covered.subset {S S' : List (Branch N)} (h : T.Covered P B S) (hb : S' ⊆ S) :
    T.Covered P B S' :=
  fun b hb' => h b (hb hb')

lemma Stored.kid {pre : List Nibble} {kids : Nibble → Radix 16 (LeafRef N)}
    (h : T.Stored r (.branch pre kids)) (s : Nibble) : T.Stored r (kids s) :=
  h.subset (T.branches_kid pre kids s)

lemma stored_branch {pre : List Nibble} {kids : Nibble → Radix 16 (LeafRef N)}
    (hk : ∀ s, T.Stored r (kids s))
    (h : ∃ node, NodeOf node pre (fun s => T.ref (kids s)) ∧
      r.get? (T.branchHash (pre, fun s => T.ref (kids s))).1 = some node.encode) :
    T.Stored r (.branch pre kids) := by
  intro b hb
  rcases T.branches_branch.mp hb with rfl | ⟨s, hs⟩
  · exact h
  · exact hk s b hs

end Tables

/-! ### What a write does to the tables -/

section Grows

variable {τ : Type} [WriteTransaction τ] [LawfulWrite τ]

/-- **The table grew by branches in `S`**: no other table changed, no row is gone, and every new
row is a branch in `S`. -/
structure Grows (S : List (Branch N)) (tx tx' : τ) : Prop where
  frame : ∀ u, u ≠ T.table → rows tx' u = rows tx u
  kept : ∀ k v, (rows tx T.table).get? k = some v → (rows tx' T.table).get? k = some v
  fresh : ∀ k v, (rows tx' T.table).get? k = some v → (rows tx T.table).get? k = some v ∨
    ∃ b ∈ S, ∃ node, NodeOf node b.1 b.2 ∧ k = (T.branchHash b).1 ∧ v = node.encode

variable {T} {P : Set Bytes} {B : Set (LeafRef N)} {S S' : List (Branch N)}
  {t : Radix 16 (LeafRef N)} {tx tx' tx'' : τ}

lemma Grows.refl (S : List (Branch N)) (tx : τ) : T.Grows S tx tx :=
  ⟨fun _ _ => rfl, fun _ _ h => h, fun _ _ h => .inl h⟩

lemma Grows.trans (h : T.Grows S tx tx') (h' : T.Grows S tx' tx'') : T.Grows S tx tx'' := by
  refine ⟨fun u hu => (h'.frame u hu).trans (h.frame u hu), fun k v hk => h'.kept k v (h.kept k v hk),
    fun k v hk => ?_⟩
  rcases h'.fresh k v hk with hk | hb
  · exact h.fresh k v hk
  · exact .inr hb

lemma Grows.mono (h : T.Grows S tx tx') (hb : S ⊆ S') : T.Grows S' tx tx' := by
  refine ⟨h.frame, h.kept, fun k v hk => ?_⟩
  rcases h.fresh k v hk with hk | ⟨b, hb', hn⟩
  · exact .inl hk
  · exact .inr ⟨b, hb hb', hn⟩

lemma Sound.grows (hs : T.Sound P B (rows tx T.table)) (h : T.Grows S tx tx')
    (hf : T.Covered P B S) : T.Sound P B (rows tx' T.table) := by
  intro k v hk
  rcases h.fresh k v hk with hk | ⟨b, hb, node, hn, hkey, hval⟩
  · exact hs k v hk
  · exact ⟨b, node, hn, hkey, hval, hf b hb⟩

lemma Stored.grows (hs : T.Stored (rows tx T.table) t) (h : T.Grows S tx tx') :
    T.Stored (rows tx' T.table) t :=
  hs.mono h.kept

end Grows

/-! ### Loading and storing a branch of a canonical tree -/

section Canonical

variable {T} {n : ℕ} {route pre : List Nibble} {m : List Nibble → Option (LeafRef N)}
  {kids : Nibble → Radix 16 (LeafRef N)}

/-- A canonical branch is a node, and fits its route. -/
lemma canon_node (hm : Keyed m) (hlen : route.length + n = 2 * N)
    (hc : canon n route m = .branch pre kids) :
    ∃ node, BranchNodeCompact.fromChildren pre (fun s => T.ref (kids s)) = .ok node ∧
      NodeOf node pre (fun s => T.ref (kids s)) ∧ node.validateAt route = .ok () := by
  obtain ⟨j, hj, -, hkids, s, s', hne, hs, hs'⟩ := canon_branch_inv hc
  obtain ⟨node, hnode, hof⟩ := fromChildren_ok pre (fun s => T.ref (kids s))
    T.width_le (by omega) hne (T.ref_ne_empty.mpr hs) (T.ref_ne_empty.mpr hs')
  refine ⟨node, hnode, hof, hof.validateAt (by omega) ?_ ?_⟩
  · -- at the last nibble the subtrees are leaves
    intro hlast x
    obtain rfl : j = 0 := by omega
    rw [hkids]
    simp only [canon]
    cases m (route ++ pre ++ [x]) <;> simp [ref, RootRef.isBranch]
  · intro x l hl
    have hx : kids x = .leaf l := by
      cases hk : kids x with
      | empty => simp [hk, ref] at hl
      | leaf l' => simpa [hk, ref] using hl
      | branch p k => simp [hk, ref] at hl
    rw [hkids] at hx
    obtain ⟨p, hp, hmp, -⟩ := canon_leaf_inv hx
    have := hp.isPrefix
    rwa [← hm p l hmp] at this

lemma hash_eq {node : BranchNodeCompact N} {refs : Nibble → RootRef N} (h : NodeOf node pre refs) :
    node.hash T.domain T.hasher = T.branchHash (pre, refs) := by
  simp [BranchNodeCompact.hash, HashProvider.hashParts, branchHash, preimage, h.hashPayload]

/-- A branch of a stored tree is loaded. -/
lemma load_canon {τ : Type} [ReadTransaction τ] [LawfulRead τ] (tx : τ)
    (hT : T.table.validate = .ok ()) (hm : Keyed m)
    (hlen : route.length + n = 2 * N) (hc : canon n route m = .branch pre kids)
    (hs : T.Stored (rows tx T.table) (.branch pre kids)) :
    ∃ node, T.load tx (T.branchHash (pre, fun s => T.ref (kids s))) route = .ok node ∧
      NodeOf node pre (fun s => T.ref (kids s)) := by
  obtain ⟨node', hof', hrow⟩ := hs _ (T.branches_branch.mpr (.inl rfl))
  obtain ⟨node, -, hof, hval⟩ := canon_node hm hlen hc
  have hval' : node'.validateAt route = .ok () := by
    rw [← hval]
    unfold BranchNodeCompact.validateAt BranchNodeCompact.misrouted
    rw [hof'.unpackPrefix, hof.unpackPrefix, hof'.tree_eq, hof.tree_eq, funext hof'.child,
      funext hof.child]
  refine ⟨node', ?_, hof'⟩
  unfold load
  rw [LawfulRead.get_eq hT, hrow]
  simp [Except.mapError, Bind.bind, Except.bind, Pure.pure, Except.pure,
    decode_encode T.width_pos node', hash_eq hof', hval']

variable {τ : Type} [WriteTransaction τ] [LawfulWrite τ] {P : Set Bytes} {B : Set (LeafRef N)}

/-- Two branches with one hash are one branch, when their preimages lie in `P`. -/
lemma encode_eq_of_hash (hA : T.Assumes P B) {b b' : Branch N}
    {node node' : BranchNodeCompact N} (hn : NodeOf node b.1 b.2) (hn' : NodeOf node' b'.1 b'.2)
    (hP : T.preimage b ∈ P) (hP' : T.preimage b' ∈ P) (hB : ∀ s l, b.2 s = .leaf l → l ∈ B)
    (hB' : ∀ s l, b'.2 s = .leaf l → l ∈ B) (hh : T.branchHash b = T.branchHash b') :
    b = b' ∧ node.encode = node'.encode := by
  have hpay : payload b.1 b.2 = payload b'.1 b'.2 := by
    have := hA.inj hP hP' hh
    exact (List.cons.inj this).2
  obtain ⟨hpre, hslots⟩ := payload_inj hn.length_lt hn'.length_lt hpay
  have hkids : b.2 = b'.2 := by
    funext s
    obtain ⟨h1, h2⟩ := hslots s
    cases hk : b.2 s with
    | empty =>
      rw [hk] at h1
      exact (RootRef.slotHash_eq_none.mp h1.symm).symm
    | branch h =>
      rw [hk] at h1 h2
      cases hk' : b'.2 s <;> simp_all [RootRef.slotHash, RootRef.isBranch]
    | leaf l =>
      rw [hk] at h1 h2
      cases hk' : b'.2 s with
      | empty => simp [hk', RootRef.slotHash] at h1
      | branch h => simp [hk', RootRef.isBranch] at h2
      | leaf l' =>
        have hhash : l.hash = l'.hash := by simpa [hk', RootRef.slotHash] using h1
        have hpath := hA.bind l (hB s l hk) l' (hB' s l' hk') hhash
        cases l
        cases l'
        simp_all
  have hb : b = b' := Prod.ext hpre hkids
  subst hb
  refine ⟨rfl, ?_⟩
  unfold BranchNodeCompact.encode
  rw [hn.hashPayload, hn'.hashPayload, hn.paths_eq, hn'.paths_eq]

/-- **Storing a branch of a canonical tree** succeeds, returns the tree's reference and adds at
most the branch's own row. -/
theorem storeChildren_canon (hA : T.Assumes P B) {tx : τ} (hsound : T.Sound P B (rows tx T.table))
    (hm : Keyed m) (hlen : route.length + n = 2 * N) (hc : canon n route m = .branch pre kids)
    (hf : T.Fits P B (.branch pre kids)) (hs : ∀ s, T.Stored (rows tx T.table) (kids s)) :
    ∃ tx', Prog.Runs (T.storeChildren pre (fun s => T.ref (kids s)) route) tx
        (T.ref (.branch pre kids)) tx' ∧
      T.Stored (rows tx' T.table) (.branch pre kids) ∧
      T.Grows (T.branches (.branch pre kids)) tx tx' := by
  obtain ⟨node, hnode, hof, hval⟩ := canon_node (T := T) hm hlen hc
  set b : Branch N := (pre, fun s => T.ref (kids s)) with hb
  have hmem : b ∈ T.branches (.branch pre kids) := T.branches_branch.mpr (.inl rfl)
  have hhash : node.hash T.domain T.hasher = T.branchHash b := hash_eq hof
  have hchild : Prog.Runs (Prog.ofExcept (BranchNodeCompact.fromChildren pre fun s => T.ref (kids s)))
      tx node tx := Prog.Runs.ofExcept hnode
  have hchk : Prog.Runs (Prog.ofExcept (node.validateAt route)) tx () tx := Prog.Runs.ofExcept hval
  cases hrow : (rows tx T.table).get? (T.branchHash b).1 with
  | none =>
    obtain ⟨tx', hins, hrows⟩ := LawfulWrite.insert_eq hA.valid tx (T.branchHash b).1 node.encode hrow
    have hget : ∀ k, (rows tx' T.table).get? k =
        if k = (T.branchHash b).1 then some node.encode else (rows tx T.table).get? k := by
      intro k
      rw [hrows, Function.update_self, OrdMap.get?_insert]
      by_cases hk : k = (T.branchHash b).1 <;> simp [hk]
    have hkept : ∀ k v, (rows tx T.table).get? k = some v → (rows tx' T.table).get? k = some v := by
      intro k v hk
      rw [hget, if_neg, hk]
      rintro rfl
      rw [hrow] at hk
      cases hk
    refine ⟨tx', ?_, stored_branch (fun s => (hs s).mono hkept) ⟨node, hof, by rw [hget, if_pos rfl]⟩,
      fun u hu => by rw [hrows, Function.update_of_ne hu], hkept, fun k v hk => ?_⟩
    · unfold storeChildren store
      refine hchild.bind (hchk.bind ?_)
      rw [hhash]
      refine (Prog.Runs.outcome _ tx).bind ?_
      rw [hins]
      exact Prog.Runs.pure _ _
    · rw [hget] at hk
      split at hk
      · rename_i hkey
        exact .inr ⟨b, hmem, node, hof, hkey, (Option.some.inj hk).symm⟩
      · exact .inl hk
  | some v =>
    -- the row is there already: its hash and preimage make it the same bytes
    obtain ⟨b', node', hof', hkey, rfl, hP', hB'⟩ := hsound _ _ hrow
    have hsame := (encode_eq_of_hash hA hof hof' (hf b hmem).1 hP' (hf b hmem).2 hB'
      (Subtype.ext hkey)).2
    obtain ⟨tx', hins, hrows⟩ := LawfulWrite.insert_exists hA.valid tx (T.branchHash b).1 node.encode
      (by rw [hrow]; simp)
    refine ⟨tx', ?_, ?_, ?_, ?_, ?_⟩
    · unfold storeChildren store
      refine hchild.bind (hchk.bind ?_)
      rw [hhash]
      refine (Prog.Runs.outcome _ tx).bind ?_
      rw [hins]
      refine (Prog.Runs.read (a := some node.encode) ?_).bind ?_
      · rw [LawfulRead.get_eq hA.valid, hrows, hrow, hsame]
        rfl
      · simp only [ne_eq, not_true_eq_false, if_false]
        exact Prog.Runs.pure _ _
    · rw [hrows]
      exact stored_branch hs ⟨node, hof, by rw [hrow, hsame]⟩
    · intro u _
      rw [hrows]
    · intro k w hk
      rwa [hrows]
    · intro k w hk
      rw [hrows] at hk
      exact .inl hk

end Canonical

end Trie

end GolemDb.Merkle
