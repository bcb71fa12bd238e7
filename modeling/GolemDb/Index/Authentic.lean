import GolemDb.Index.Frame
import GolemDb.Merkle.Binding
import GolemDb.Merkle.History

/-!
Posting sets read from rows that are not trusted. A container is read under the hash of its bytes and
a branch under the hash of its payload, so a digest fixes the containers of its walk, in their order,
although the leaf paths of branches are not hashed and the kind of the root is found by looking
(`bitmapAt_authentic`).
-/

namespace GolemDb.Index

open GolemDb.Lib GolemDb.Storage GolemDb.Merkle

/-! ### The order of the containers -/

namespace Bitmap

/-- One turn asks for a larger path and remembers it. -/
lemma appendContainer_ok {acc acc' : Option ℕ × OrdSet U64} {c : BitmapContainer}
    (h : appendContainer acc c = .ok acc') : acc'.1 = some c.path ∧ ∀ p, acc.1 = some p → p < c.path := by
  unfold appendContainer at h
  cases hp : acc.1 with
  | none =>
    rw [hp] at h
    obtain ⟨s, -, h⟩ := bind_eq_ok.mp h
    obtain rfl := Except.ok.inj h
    exact ⟨rfl, nofun⟩
  | some prev =>
    rw [hp] at h
    simp only at h
    split_ifs at h with heq hlt
    obtain ⟨s, -, h⟩ := bind_eq_ok.mp h
    obtain rfl := Except.ok.inj h
    refine ⟨rfl, fun p hp => ?_⟩
    obtain rfl := Option.some.inj hp
    omega

lemma foldlM_appendContainer {cs : List BitmapContainer} :
    ∀ {acc acc' : Option ℕ × OrdSet U64}, cs.foldlM appendContainer acc = .ok acc' →
      (∀ p, acc.1 = some p → ∀ c ∈ cs, p < c.path) ∧ cs.Pairwise fun a b => a.path < b.path := by
  induction cs with
  | nil =>
    intro acc acc' _
    exact ⟨fun _ _ _ hc => by simp at hc, List.Pairwise.nil⟩
  | cons c cs ih =>
    intro acc acc' h
    rw [List.foldlM_cons] at h
    obtain ⟨acc₁, hstep, h⟩ := bind_eq_ok.mp h
    obtain ⟨hlt, hsorted⟩ := ih h
    obtain ⟨hpath, hprev⟩ := appendContainer_ok hstep
    refine ⟨fun p hp d hd => ?_, List.pairwise_cons.mpr ⟨fun d hd => hlt _ hpath d hd, hsorted⟩⟩
    rcases List.mem_cons.mp hd with rfl | hd
    · exact hprev p hp
    · exact (hprev p hp).trans (hlt _ hpath d hd)

/-- Assembled containers come in strictly increasing path order. -/
lemma fromContainers_sorted {cs : List BitmapContainer} {b : Bitmap} (h : fromContainers cs = .ok b) :
    cs.Pairwise fun a b => a.path < b.path := by
  obtain ⟨acc, hf, -⟩ := bind_eq_ok.mp h
  exact (foldlM_appendContainer hf).2

end Bitmap

/-! ### The preimages of a state -/

section Rows

variable (H : HashProvider) {τ : Type} [ReadTransaction τ] [LawfulRead τ]

/-- The hashed bytes of a branch row. -/
def branchPreimage (bytes : Bytes) : Option Bytes :=
  match (BranchNodeCompact.decode bytes : Except MerkleError (BranchNodeCompact 6)) with
  | .ok node => some (BITMAP_BRANCH_DOMAIN :: node.hashPayload)
  | .error _ => none

/-- **The preimages involved**: what the rows that a state keeps under their own hash are hashed
from. A row under any other key is refused by every read. -/
def preimages (tx : τ) : List Bytes :=
  ((rows tx BITMAP_CONTAINER).entries.filterMap fun e =>
      (some (BITMAP_LEAF_DOMAIN :: e.2)).filter fun p => (H.hash p).1 = e.1) ++
    (rows tx BITMAP_TRIE).entries.filterMap fun e =>
      (branchPreimage e.2).filter fun p => (H.hash p).1 = e.1

variable {H} {R : Roaring} {tx : τ} {hash : Hash}

/-- A branch that loads is hashed from one of them. -/
lemma load_preimage {route : List Nibble} {node : BranchNodeCompact 6}
    (h : (bitmapTrie H).load tx hash route = .ok node) :
    BITMAP_BRANCH_DOMAIN :: node.hashPayload ∈ preimages H tx ∧
      H.hash (BITMAP_BRANCH_DOMAIN :: node.hashPayload) = hash := by
  obtain ⟨found, hget, h⟩ := bind_eq_ok.mp h
  obtain rfl := Except.ok.inj ((LawfulRead.get_eq BITMAP_TRIE_valid tx hash.1).symm.trans (mapError_eq_ok.mp hget))
  cases hrow : (rows tx BITMAP_TRIE).get? hash.1 with
  | none =>
    rw [hrow] at h
    cases h
  | some bytes =>
    rw [hrow] at h
    obtain ⟨node', hd, h⟩ := bind_eq_ok.mp h
    split_ifs at h with hne
    obtain ⟨-, -, h⟩ := bind_eq_ok.mp h
    obtain rfl := Except.ok.inj h
    have hhash : H.hash (BITMAP_BRANCH_DOMAIN :: node'.hashPayload) = hash := by
      rw [← not_not.mp hne, BranchNodeCompact.hash, HashProvider.hashParts]
      simp [bitmapTrie]
    refine ⟨List.mem_append_right _ (List.mem_filterMap.mpr
      ⟨(hash.1, bytes), OrdMap.mem_entries.mpr hrow, ?_⟩), hhash⟩
    simp [branchPreimage, hd, hhash]

/-- A container that decodes is hashed from one of them. -/
lemma decode_preimage {bytes : Bytes} {c : BitmapContainer}
    (hrow : (rows tx BITMAP_CONTAINER).get? hash.1 = some bytes) (h : BitmapTrie.decode H R hash bytes = .ok c) :
    BITMAP_LEAF_DOMAIN :: bytes ∈ preimages H tx ∧ H.hash (BITMAP_LEAF_DOMAIN :: bytes) = hash ∧
      BitmapContainer.decode R bytes = .ok c := by
  unfold BitmapTrie.decode at h
  split_ifs at h with hne
  have hhash : H.hash (BITMAP_LEAF_DOMAIN :: bytes) = hash := by
    rw [← not_not.mp hne, containerHash, HashProvider.hashParts]
    simp
  refine ⟨List.mem_append_left _ (List.mem_filterMap.mpr
    ⟨(hash.1, bytes), OrdMap.mem_entries.mpr hrow, ?_⟩), hhash, mapError_eq_ok.mp h⟩
  simp [hhash]

/-- The container of a leaf is read from the row under the leaf's hash. -/
lemma load_row {leaf : LeafRef 6} {c : BitmapContainer} (h : BitmapTrie.load H R tx leaf = .ok c) :
    ∃ bytes, (rows tx BITMAP_CONTAINER).get? leaf.hash.1 = some bytes ∧
      BitmapTrie.decode H R leaf.hash bytes = .ok c := by
  obtain ⟨found, hget, h⟩ := bind_eq_ok.mp h
  rw [mapError_eq_ok, LawfulRead.get_eq BITMAP_CONTAINER_valid] at hget
  obtain rfl := Except.ok.inj hget
  cases hrow : (rows tx BITMAP_CONTAINER).get? leaf.hash.1 with
  | none =>
    rw [hrow] at h
    cases h
  | some bytes =>
    rw [hrow] at h
    obtain ⟨c', hd, h⟩ := bind_eq_ok.mp h
    obtain ⟨path, -, h⟩ := bind_eq_ok.mp h
    split_ifs at h with hne
    obtain rfl := Except.ok.inj h
    exact ⟨bytes, rfl, hd⟩

/-- A digest opens as the container kept under it, or as a branch. -/
lemma reopen_ok {root : RootRef 6} {cached : Option BitmapContainer}
    (h : BitmapTrie.reopen H R tx hash = .ok (root, cached)) :
    (∃ bytes c, (rows tx BITMAP_CONTAINER).get? hash.1 = some bytes ∧
        BitmapTrie.decode H R hash bytes = .ok c ∧ cached = some c) ∨
      ∃ node, (bitmapTrie H).load tx hash [] = .ok node ∧ root = .branch hash ∧ cached = none := by
  unfold BitmapTrie.reopen at h
  split_ifs at h with hempty
  obtain ⟨found, hget, h⟩ := bind_eq_ok.mp h
  rw [mapError_eq_ok, LawfulRead.get_eq BITMAP_CONTAINER_valid] at hget
  obtain rfl := Except.ok.inj hget
  cases hrow : (rows tx BITMAP_CONTAINER).get? hash.1 with
  | some bytes =>
    rw [hrow] at h
    obtain ⟨c, hd, h⟩ := bind_eq_ok.mp h
    obtain ⟨path, -, h⟩ := bind_eq_ok.mp h
    obtain ⟨-, rfl⟩ := Prod.mk.inj (pure_eq_ok.mp h)
    exact .inl ⟨bytes, c, rfl, hd, rfl⟩
  | none =>
    rw [hrow] at h
    obtain ⟨⟨⟩, hvalid, h⟩ := bind_eq_ok.mp h
    obtain ⟨rfl, rfl⟩ := Prod.mk.inj (pure_eq_ok.mp h)
    obtain ⟨node, hload, -⟩ := bind_eq_ok.mp (mapError_eq_ok.mp hvalid)
    exact .inr ⟨node, hload, rfl, rfl⟩

/-- Containers in path order that come from rows are at most as many as the rows. -/
lemma containers_length {cs : List BitmapContainer} (hsorted : cs.Pairwise fun a b => a.path < b.path)
    (hrow : ∀ c ∈ cs, ∃ k bytes, (rows tx BITMAP_CONTAINER).get? k = some bytes ∧
      BitmapContainer.decode R bytes = .ok c) : cs.length ≤ (rows tx BITMAP_CONTAINER).size := by
  have hnodup : cs.Nodup := hsorted.imp fun h he => absurd h (by rw [he]; exact lt_irrefl _)
  have hsub : cs ⊆ (rows tx BITMAP_CONTAINER).entries.filterMap
      fun e => (BitmapContainer.decode R e.2).toOption := by
    intro c hc
    obtain ⟨k, bytes, hget, hd⟩ := hrow c hc
    refine List.mem_filterMap.mpr ⟨(k, bytes), OrdMap.mem_entries.mpr hget, ?_⟩
    rw [hd]
    rfl
  exact (hnodup.subperm hsub).length_le.trans (List.length_filterMap_le _ _)

end Rows

/-! ### Complete reads -/

section Complete

variable {H : HashProvider} {R : Roaring}

/-- An item of a walk and the container it loads. -/
def loadItem {τ : Type} [ReadTransaction τ] (H : HashProvider) (R : Roaring) (tx : τ)
    (item : Except MerkleError (LeafRef 6)) :
    Except IndexError BitmapContainer := do
  BitmapTrie.load H R tx (← item.mapError IndexError.merkle)

/-- Where a posting set comes from: the single container under the digest, or the containers of a
walk that was not cut short. -/
inductive Read {τ : Type} [ReadTransaction τ] [LawfulRead τ] (H : HashProvider) (R : Roaring) (tx : τ) (hash : Hash) :
    List BitmapContainer → Prop
  | single {bytes : Bytes} {c : BitmapContainer} (row : (rows tx BITMAP_CONTAINER).get? hash.1 = some bytes)
    (decoded : BitmapTrie.decode H R hash bytes = .ok c) : Read H R tx hash [c]
  | walk {node : BranchNodeCompact 6} {cs : List BitmapContainer} {fuel : ℕ}
    (branch : (bitmapTrie H).load tx hash [] = .ok node)
    (loaded : (Trie.Walk.collect (bitmapTrie H) tx fuel (Trie.walk (.branch hash))).mapM (loadItem H R tx) = .ok cs)
    (complete : cs.length < fuel) : Read H R tx hash cs

/-- **A posting set that is returned was read in full.** -/
theorem bitmapAt_read {τ : Type} [ReadTransaction τ] [LawfulCursor τ] {tx : τ} {hash : Hash} {b : Bitmap}
    (h : bitmapAt H R tx hash = .ok b) :
    ∃ cs, Read H R tx hash cs ∧ Bitmap.fromContainers cs = .ok b := by
  obtain ⟨⟨root, cached⟩, hopen, h⟩ := bind_eq_ok.mp h
  rcases reopen_ok hopen with ⟨bytes, c, hrow, hd, rfl⟩ | ⟨node, hload, rfl, rfl⟩
  · exact ⟨[c], .single hrow hd, mapError_eq_ok.mp h⟩
  · obtain ⟨cs, hcs, h⟩ := bind_eq_ok.mp h
    have hb := mapError_eq_ok.mp h
    refine ⟨cs, .walk hload hcs ?_, hb⟩
    have hrows : ∀ c ∈ cs, ∃ k bytes, (rows tx BITMAP_CONTAINER).get? k = some bytes ∧
        BitmapContainer.decode R bytes = .ok c := by
      intro c hc
      obtain ⟨item, -, hitem⟩ := mem_of_mapM hcs c hc
      obtain ⟨leaf, -, hleaf⟩ := bind_eq_ok.mp hitem
      obtain ⟨bytes, hrow, hd⟩ := load_row hleaf
      exact ⟨leaf.hash.1, bytes, hrow, (decode_preimage hrow hd).2.2⟩
    have hlen := containers_length (Bitmap.fromContainers_sorted hb) hrows
    have hfuel := LawfulCursor.size_le tx BITMAP_CONTAINER
    unfold BitmapTrie.walkFuel
    omega

end Complete

/-! ### Two states -/

section Two

variable {H : HashProvider} {R : Roaring} {τ τ' : Type} [ReadTransaction τ] [ReadTransaction τ']
  {tx : τ} {tx' : τ'}

variable [LawfulRead τ] [LawfulRead τ'] (hinj : Set.InjOn H.hash {p | p ∈ preimages H tx ++ preimages H tx'})

include hinj in
/-- Branches under one hash have one payload. -/
lemma agree_of_injOn : (bitmapTrie H).Agree tx tx' := by
  intro hash route node node' h h'
  obtain ⟨hmem, hhash⟩ := load_preimage h
  obtain ⟨hmem', hhash'⟩ := load_preimage h'
  exact (List.cons.inj (hinj (List.mem_append_left _ hmem) (List.mem_append_right _ hmem')
    (hhash.trans hhash'.symm))).2

include hinj in
/-- Containers under one hash are one container. -/
lemma decode_agree {hash : Hash} {bytes bytes' : Bytes} {c c' : BitmapContainer}
    (hrow : (rows tx BITMAP_CONTAINER).get? hash.1 = some bytes)
    (hrow' : (rows tx' BITMAP_CONTAINER).get? hash.1 = some bytes')
    (h : BitmapTrie.decode H R hash bytes = .ok c) (h' : BitmapTrie.decode H R hash bytes' = .ok c') : c = c' := by
  obtain ⟨hmem, hhash, hd⟩ := decode_preimage hrow h
  obtain ⟨hmem', hhash', hd'⟩ := decode_preimage hrow' h'
  have heq := hinj (List.mem_append_left _ hmem) (List.mem_append_right _ hmem') (hhash.trans hhash'.symm)
  obtain rfl := (List.cons.inj heq).2
  exact Except.ok.inj (hd.symm.trans hd')

include hinj in
/-- **Complete walks from one digest load the same containers.** -/
theorem collect_agree : ∀ (fuel fuel' : ℕ) {w w' : Trie.Walk 6} {cs cs' : List BitmapContainer}, w.Alike w' →
    (Trie.Walk.collect (bitmapTrie H) tx fuel w).mapM (loadItem H R tx) = .ok cs →
    (Trie.Walk.collect (bitmapTrie H) tx' fuel' w').mapM (loadItem H R tx') = .ok cs' →
    cs.length < fuel → cs'.length < fuel' → cs = cs' := by
  intro fuel
  induction fuel with
  | zero => exact fun _ _ _ _ _ _ _ _ h _ => absurd h (Nat.not_lt_zero _)
  | succ fuel ih =>
    intro fuel' w w' cs cs' hw h h' hlen hlen'
    obtain ⟨fuel', rfl⟩ : ∃ n, fuel' = n + 1 := ⟨fuel' - 1, by omega⟩
    have hmeet := Trie.next_alike (agree_of_injOn hinj) hw
    rw [Trie.Walk.collect] at h h'
    generalize Trie.Walk.next (bitmapTrie H) tx w = r at hmeet h
    generalize Trie.Walk.next (bitmapTrie H) tx' w' = r' at hmeet h'
    cases hmeet with
    | done w w' =>
      rw [← pure_eq_ok.mp h, ← pure_eq_ok.mp h']
    | left e w r =>
      simp only [List.mapM_cons] at h
      obtain ⟨c, hc, -⟩ := bind_eq_ok.mp h
      cases hc
    | right r e w =>
      simp only [List.mapM_cons] at h'
      obtain ⟨c, hc, -⟩ := bind_eq_ok.mp h'
      cases hc
    | @leaf l l' w w' hash_eq halike =>
      simp only [List.mapM_cons] at h h'
      obtain ⟨c, hc, h⟩ := bind_eq_ok.mp h
      obtain ⟨c', hc', h'⟩ := bind_eq_ok.mp h'
      obtain ⟨rest, hrest, h⟩ := bind_eq_ok.mp h
      obtain ⟨rest', hrest', h'⟩ := bind_eq_ok.mp h'
      obtain rfl := pure_eq_ok.mp h
      obtain rfl := pure_eq_ok.mp h'
      obtain ⟨bytes, hrow, hd⟩ := load_row (show BitmapTrie.load H R tx l = .ok c from hc)
      obtain ⟨bytes', hrow', hd'⟩ := load_row (show BitmapTrie.load H R tx' l' = .ok c' from hc')
      rw [← hash_eq] at hrow' hd'
      rw [List.length_cons] at hlen hlen'
      rw [decode_agree hinj hrow hrow' hd hd', ih fuel' halike hrest hrest' (by omega) (by omega)]

include hinj in
/-- **A digest fixes the containers.** A leaf and a branch never share it: their preimages start with
different domain bytes. -/
theorem Read.unique {hash : Hash} {cs cs' : List BitmapContainer} (h : Read H R tx hash cs)
    (h' : Read H R tx' hash cs') : cs = cs' := by
  have hdomain : ∀ {p p' : Bytes}, p ∈ preimages H tx ++ preimages H tx' →
      p' ∈ preimages H tx ++ preimages H tx' → H.hash p = hash → H.hash p' = hash → p = p' :=
    fun hp hp' he he' => hinj hp hp' (he.trans he'.symm)
  cases h with
  | single hrow hd =>
    cases h' with
    | single hrow' hd' => rw [decode_agree hinj hrow hrow' hd hd']
    | walk hload' _ _ =>
      obtain ⟨hmem, hhash, -⟩ := decode_preimage hrow hd
      obtain ⟨hmem', hhash'⟩ := load_preimage hload'
      cases hdomain (List.mem_append_left _ hmem) (List.mem_append_right _ hmem') hhash hhash'
  | walk hload hcs hlen =>
    cases h' with
    | single hrow' hd' =>
      obtain ⟨hmem, hhash⟩ := load_preimage hload
      obtain ⟨hmem', hhash', -⟩ := decode_preimage hrow' hd'
      cases hdomain (List.mem_append_left _ hmem) (List.mem_append_right _ hmem') hhash hhash'
    | walk hload' hcs' hlen' =>
      exact collect_agree hinj _ _ (.cons ⟨.refl _, rfl⟩ .nil) hcs hcs' hlen hlen'

end Two

/-- **Posting sets read under a digest are authenticated.** Whatever two states hold in their tables,
a digest that reads back in both reads back as the same set. -/
theorem bitmapAt_authentic {H : HashProvider} {R : Roaring} {τ τ' : Type} [ReadTransaction τ] [LawfulCursor τ]
    [ReadTransaction τ'] [LawfulCursor τ'] {tx : τ} {tx' : τ'}
    (hinj : Set.InjOn H.hash {p | p ∈ preimages H tx ++ preimages H tx'}) {hash : Hash} {b b' : Bitmap}
    (h : bitmapAt H R tx hash = .ok b) (h' : bitmapAt H R tx' hash = .ok b') : b = b' := by
  obtain ⟨cs, hread, hb⟩ := bitmapAt_read h
  obtain ⟨cs', hread', hb'⟩ := bitmapAt_read h'
  obtain rfl := hread.unique hinj hread'
  exact Except.ok.inj (hb.symm.trans hb')

/-- Two containers under a branch, and a state that goes on from there and then loses the bytes of a
container it added. -/
def demoPostings : Except IndexError (Option Hash) × MemoryWriteTransaction :=
  (BitmapTrie.apply Trie.polyHash arrayRoaring none [(0, 1, true), (1, 5, true)]).exec ⟨OrdMap.empty⟩

def demoDigest : Hash := ((demoPostings.1.toOption.bind id).getD (Trie.polyHash.hash []))

def demoTampered : MemoryWriteTransaction :=
  let later := (BitmapTrie.apply Trie.polyHash arrayRoaring (some demoDigest) [(1, 6, true)]).exec demoPostings.2
  let row := (rows later.2 BITMAP_CONTAINER).entries.find? fun e =>
    ((rows demoPostings.2 BITMAP_CONTAINER).get? e.1).isNone
  ((WriteTransaction.put BITMAP_CONTAINER ((row.map Prod.fst).getD []) [0]).exec later.2).2

theorem bitmapAt_authentic_demo : demoTampered ≠ demoPostings.2 ∧
    ∃ b b', bitmapAt Trie.polyHash arrayRoaring demoPostings.2 demoDigest = .ok b ∧
      bitmapAt Trie.polyHash arrayRoaring demoTampered demoDigest = .ok b' ∧ b = b' := by
  have hinj : ∀ a ∈ preimages Trie.polyHash demoPostings.2 ++ preimages Trie.polyHash demoTampered,
      ∀ b ∈ preimages Trie.polyHash demoPostings.2 ++ preimages Trie.polyHash demoTampered,
        Trie.polyHash.hash a = Trie.polyHash.hash b → a = b := by decide +kernel
  have hb : bitmapAt Trie.polyHash arrayRoaring demoPostings.2 demoDigest
      = .ok ⟨OrdSet.ofList [1, 65541]⟩ := by decide +kernel
  have hb' : bitmapAt Trie.polyHash arrayRoaring demoTampered demoDigest
      = .ok ⟨OrdSet.ofList [1, 65541]⟩ := by decide +kernel
  have hne : rows demoTampered BITMAP_CONTAINER ≠ rows demoPostings.2 BITMAP_CONTAINER := by decide +kernel
  have hset : Set.InjOn Trie.polyHash.hash
      {p | p ∈ preimages Trie.polyHash demoPostings.2 ++ preimages Trie.polyHash demoTampered} :=
    fun a ha b hb => hinj a ha b hb
  have heq := bitmapAt_authentic hset hb hb'
  exact ⟨fun h => hne (by rw [h]), _, _, hb, hb', heq⟩

end GolemDb.Index
