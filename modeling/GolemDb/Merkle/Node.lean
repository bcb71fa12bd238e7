import GolemDb.Merkle.Path
import GolemDb.Storage.Basic

/-!
The compact branch node: a packed prefix, two slot masks, the hashes of the occupied slots and
the paths of the leaves among them. A node carries the facts its constructor checks, so that the
slot lookups need no bounds check. The file holds the node's codec, its hash payload and the
check of a node against the route it is read at.
-/

namespace GolemDb.Merkle

open GolemDb.Lib GolemDb.Storage

/-! ### Hashes and references -/

abbrev Hash := Arr 32

/-- A hash of byte strings; the parts of a preimage are concatenated with no framing. -/
structure HashProvider where
  hash : Bytes → Hash

def HashProvider.hashParts (H : HashProvider) (parts : List Bytes) : Hash := H.hash parts.flatten

/-- The errors of the Merkle crate. `panic` is no value of the source: it stands for an index
out of bounds or a failed `unwrap`. -/
inductive MerkleError where
  | storage (source : StorageError)
  | invalidNode (text : String)
  | missingBranch (hash : Hash)
  | hashMismatch
  | conflictingBranch
  | panic
deriving DecidableEq

/-- A leaf: the owner's hash binds the complete path and the payload. -/
structure LeafRef (N : ℕ) where
  path : Arr N
  hash : Hash
deriving DecidableEq

inductive RootRef (N : ℕ) where
  | empty
  | leaf (leaf : LeafRef N)
  | branch (hash : Hash)
deriving DecidableEq

namespace RootRef

variable {N : ℕ}

/-- The digest of a root: the hash of no bytes, the leaf's hash, or the branch's. -/
def hash (H : HashProvider) : RootRef N → Hash
  | empty => H.hash []
  | leaf l => l.hash
  | branch h => h

/-- The hash a slot contributes to its branch. -/
def slotHash : RootRef N → Option Hash
  | empty => none
  | leaf l => some l.hash
  | branch h => some h

/-- The path a slot contributes to its branch. -/
def slotPath : RootRef N → Option (Arr N)
  | leaf l => some l.path
  | _ => none

end RootRef

/-! ### Masks -/

section Masks

/-- `mask & (1 << slot) != 0`. -/
def hasSlot (m : BitVec 16) (slot : Nibble) : Bool := m.getLsbD slot

def countOnes (m : BitVec 16) : ℕ := (List.finRange 16).countP (hasSlot m)

/-- The mask of one slot. -/
def slotMask (slot : Nibble) : BitVec 16 := 1#16 <<< slot.val

/-- The mask of the slots below `slot`. -/
def maskBefore (slot : Nibble) : BitVec 16 := slotMask slot - 1#16

@[simp] lemma hasSlot_and (m m' : BitVec 16) (i : Nibble) :
    hasSlot (m &&& m') i = (hasSlot m i && hasSlot m' i) := BitVec.getLsbD_and

@[simp] lemma hasSlot_or (m m' : BitVec 16) (i : Nibble) :
    hasSlot (m ||| m') i = (hasSlot m i || hasSlot m' i) := BitVec.getLsbD_or

@[simp] lemma hasSlot_not (m : BitVec 16) (i : Nibble) : hasSlot (~~~m) i = !hasSlot m i := by
  simp [hasSlot]

@[simp] lemma hasSlot_zero (i : Nibble) : hasSlot 0#16 i = false := by simp [hasSlot]

@[simp] lemma hasSlot_maskBefore (slot i : Nibble) :
    hasSlot (maskBefore slot) i = decide (i < slot) := by
  revert slot i
  decide

@[simp] lemma hasSlot_slotMask (slot i : Nibble) : hasSlot (slotMask slot) i = decide (i = slot) := by
  revert slot i
  decide

lemma mask_ext {m m' : BitVec 16} (h : ∀ i, hasSlot m i = hasSlot m' i) : m = m' :=
  BitVec.eq_of_getLsbD_eq fun i hi => h ⟨i, hi⟩

lemma countP_and_lt {α : Type} {l : List α} {p q : α → Bool} {x : α} (hx : x ∈ l) (hp : p x = true)
    (hq : q x = false) : l.countP (fun a => p a && q a) < l.countP p := by
  induction l with
  | nil => simp at hx
  | cons a l ih =>
    have hle : l.countP (fun a => p a && q a) ≤ l.countP p :=
      List.countP_mono_left fun a _ h => (Bool.and_eq_true _ _ ▸ h).1
    rw [List.countP_cons, List.countP_cons]
    rcases List.mem_cons.mp hx with rfl | hx
    · simp [hp, hq]
      omega
    · have := ih hx
      cases p a <;> cases q a <;> simp <;> omega

/-- The rank of an occupied slot indexes the list of the occupied slots. -/
lemma rank_lt {m : BitVec 16} {slot : Nibble} (h : hasSlot m slot = true) :
    countOnes (m &&& maskBefore slot) < countOnes m := by
  have he : hasSlot (m &&& maskBefore slot) = fun i => hasSlot m i && decide (i < slot) := by
    funext i
    simp
  rw [countOnes, he]
  exact countP_and_lt (List.mem_finRange slot) h (by simp)

/-- The entry of an occupied slot stands at the slot's rank. -/
lemma getElem?_filterMap_rank {α β : Type} [LinearOrder α] {l : List α} (hl : l.Pairwise (· < ·))
    {g : α → Option β} {s : α} {b : β} (hs : s ∈ l) (hb : g s = some b) :
    (l.filterMap g)[l.countP fun i => (g i).isSome && decide (i < s)]? = some b := by
  induction l with
  | nil => simp at hs
  | cons x xs ih =>
    obtain ⟨hx, hxs⟩ := List.pairwise_cons.mp hl
    rcases List.mem_cons.mp hs with rfl | hs
    · have h0 : xs.countP (fun i => (g i).isSome && decide (i < s)) = 0 := by
        rw [List.countP_eq_zero]
        intro i hi
        simp [(hx i hi).le]
      simp [h0, hb]
    · have hlt := hx s hs
      have := ih hxs hs
      cases hgx : g x with
      | none => simpa [List.countP_cons, hgx] using this
      | some c => simpa [List.countP_cons, hgx, hlt] using this

end Masks

/-! ### The node -/

/-- A canonical compact branch. -/
structure BranchNodeCompact (N : ℕ) where
  pfx : Bytes
  pfxLen : UInt8
  stateMask : BitVec 16
  treeMask : BitVec 16
  childHashes : List Hash
  leafPaths : List (Arr N)
  pfxLen_lt : pfxLen.toNat < 2 * N
  pfx_length : pfx.length = (pfxLen.toNat + 1) / 2
  padding : pfxLen.toNat % 2 = 1 → ∀ b, pfx.getLast? = some b → b &&& 15 = 0
  two_le : 2 ≤ countOnes stateMask
  tree_sub : treeMask &&& ~~~stateMask = 0#16
  hashes_length : childHashes.length = countOnes stateMask
  paths_length : leafPaths.length = countOnes (stateMask &&& ~~~treeMask)
deriving DecidableEq

namespace BranchNodeCompact

variable {N : ℕ}

instance decidablePadding (pfx : Bytes) :
    Decidable (∀ b ∈ pfx.getLast?.toList, b &&& 15 = (0 : UInt8)) :=
  List.decidableBAll (fun b => b &&& 15 = (0 : UInt8)) pfx.getLast?.toList

/-- The checked constructor; `pfx` is packed high nibble first. -/
def new (pfx : Bytes) (pfxLen : UInt8) (stateMask treeMask : BitVec 16) (childHashes : List Hash)
    (leafPaths : List (Arr N)) : Except MerkleError (BranchNodeCompact N) :=
  if hp : pfxLen.toNat < 2 * N ∧ pfx.length = (pfxLen.toNat + 1) / 2 then
    if hz : pfxLen.toNat % 2 = 1 → ∀ b ∈ pfx.getLast?.toList, b &&& 15 = 0 then
      if hm : 2 ≤ countOnes stateMask ∧ treeMask &&& ~~~stateMask = 0#16 ∧
          childHashes.length = countOnes stateMask ∧
          leafPaths.length = countOnes (stateMask &&& ~~~treeMask) then
        .ok ⟨pfx, pfxLen, stateMask, treeMask, childHashes, leafPaths, hp.1, hp.2,
          fun h b hb => hz h b (Option.mem_toList.mpr hb), hm.1, hm.2.1, hm.2.2.1, hm.2.2.2⟩
      else .error (.invalidNode "invalid child masks or counts")
    else .error (.invalidNode "nonzero prefix padding")
  else .error (.invalidNode "invalid prefix length")

/-- The reference in a slot, if the slot is occupied. -/
def child (node : BranchNodeCompact N) (slot : Nibble) : Option (RootRef N) :=
  if hs : hasSlot node.stateMask slot = true then
    let hash := node.childHashes.get ⟨countOnes (node.stateMask &&& maskBefore slot),
      node.hashes_length ▸ rank_lt hs⟩
    if ht : hasSlot node.treeMask slot = true then some (.branch hash)
    else
      let path := node.leafPaths.get
        ⟨countOnes (node.stateMask &&& ~~~node.treeMask &&& maskBefore slot),
          node.paths_length ▸ rank_lt (by simp [hs, ht])⟩
      some (.leaf ⟨path, hash⟩)
  else none

/-- The hashed bytes, without the domain byte and the leaf paths. -/
def hashPayload (node : BranchNodeCompact N) : Bytes :=
  [node.pfxLen] ++ node.pfx ++ beBytes 2 node.stateMask.toNat ++ beBytes 2 node.treeMask.toNat
    ++ node.childHashes.flatMap (·.1)

/-- The node's hash under the domain byte of its trie. -/
def hash (domain : UInt8) (H : HashProvider) (node : BranchNodeCompact N) : Hash :=
  H.hashParts [[domain], node.hashPayload]

def encode (node : BranchNodeCompact N) : Bytes := node.hashPayload ++ node.leafPaths.flatMap (·.1)

/-- `chunks_exact`: as many whole chunks of `w` bytes as fit. -/
def chunksExact (w : ℕ) (bytes : Bytes) : List (Arr w) :=
  (List.range (bytes.length / w)).map fun i => takeArr w (bytes.drop (i * w))

/-- Strict decoding: trailing bytes, bad masks and nonzero padding are refused. -/
def decode (bytes : Bytes) : Except MerkleError (BranchNodeCompact N) :=
  let bad : MerkleError := .invalidNode "invalid encoded length"
  match bytes with
  | [] => .error bad
  | pfxLen :: _ =>
    let end' := 1 + (pfxLen.toNat + 1) / 2
    if bytes.length < end' + 4 then .error bad
    else
      let stateMask := BitVec.ofNat 16 (ofBe ((bytes.drop end').take 2))
      let treeMask := BitVec.ofNat 16 (ofBe ((bytes.drop (end' + 2)).take 2))
      let hashEnd := end' + 4 + countOnes stateMask * 32
      if bytes.length ≠ hashEnd + countOnes (stateMask &&& ~~~treeMask) * N then .error bad
      else
        new ((bytes.take end').drop 1) pfxLen stateMask treeMask
          (chunksExact 32 ((bytes.take hashEnd).drop (end' + 4)))
          (chunksExact N (bytes.drop hashEnd))

def unpackPrefix (node : BranchNodeCompact N) : List Nibble :=
  (List.range node.pfxLen.toNat).filterMap (nibble node.pfx)

def children (node : BranchNodeCompact N) : Nibble → RootRef N :=
  fun slot => (node.child slot).getD .empty

end BranchNodeCompact

/-- What `from_children` accumulates over the slots. -/
structure Slots (N : ℕ) where
  state : BitVec 16
  tree : BitVec 16
  hashes : List Hash
  paths : List (Arr N)

def Slots.push {N : ℕ} (acc : Slots N) (slot : Nibble) : RootRef N → Slots N
  | .empty => acc
  | .leaf leaf =>
    { acc with
      state := acc.state ||| slotMask slot
      hashes := acc.hashes ++ [leaf.hash]
      paths := acc.paths ++ [leaf.path] }
  | .branch hash =>
    { acc with
      state := acc.state ||| slotMask slot
      tree := acc.tree ||| slotMask slot
      hashes := acc.hashes ++ [hash] }

/-- The slots of a branch in ascending order. -/
def slotsOf {N : ℕ} (children : Nibble → RootRef N) : Slots N :=
  (List.finRange 16).foldl (fun acc slot => acc.push slot (children slot)) ⟨0#16, 0#16, [], []⟩

namespace BranchNodeCompact

variable {N : ℕ}

def fromChildren (pfx : List Nibble) (children : Nibble → RootRef N) :
    Except MerkleError (BranchNodeCompact N) :=
  let slots := slotsOf children
  new (pack pfx) (UInt8.ofNat pfx.length) slots.state slots.tree slots.hashes slots.paths

/-- A leaf in the slot lies on the branch's route, and its next nibble is the slot. -/
def leafFits (route : List Nibble) (slot : Nibble) (path : Bytes) : Bool :=
  (List.range route.length).all (fun i => nibble path i == route[i]?) &&
    nibble path route.length == some slot

/-- The slot holds a leaf that does not lie below it. -/
def misrouted (node : BranchNodeCompact N) (route : List Nibble) (slot : Nibble) : Bool :=
  match node.child slot with
  | some (.leaf leaf) => !leafFits route slot leaf.path.1
  | _ => false

/-- The check of a node against the route of its ancestors. -/
def validateAt (node : BranchNodeCompact N) (ancestors : List Nibble) : Except MerkleError Unit :=
  let route := ancestors ++ node.unpackPrefix
  if route.length ≥ N * 2 then .error (.invalidNode "branch exceeds path depth")
  else if route.length + 1 = N * 2 ∧ node.treeMask ≠ 0#16 then
    .error (.invalidNode "branch child beyond final nibble")
  else if (List.finRange 16).any (node.misrouted route) then
    .error (.invalidNode "leaf path does not match branch route")
  else .ok ()

end BranchNodeCompact

end GolemDb.Merkle
