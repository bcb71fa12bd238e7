import GolemDb.Merkle.Edit

/-!
The reads of a branch row with their indices and slices. The node's model reads by functions that
have no bounds to miss; here each read is the one of the source, which panics out of bounds, and
none does on any bytes: the node codec is exact (`node_codec`), and so is a load (`loadRaw_eq`).
-/

namespace GolemDb.Merkle

open GolemDb.Lib GolemDb.Storage

/-! ### The raw reads of a node -/

variable {N : ℕ}

/-- `path::nibble` with its index into the path. -/
def nibbleRaw (path : Bytes) (depth : ℕ) : Except MerkleError Nibble := do
  let b ← index path (depth / 2)
  return Fin.ofNat 16 (b.toNat >>> (4 * (1 - depth % 2)))

/-- The items of `chunks_exact`, each made an array of its width. -/
def chunksRaw (w : ℕ) (bytes : Bytes) : Except MerkleError (List (Arr w)) :=
  (List.range (bytes.length / w)).mapM fun i => do
    let chunk ← slice bytes (i * w) (i * w + w)
    if h : chunk.length = w then .ok ⟨chunk, h⟩ else .error .panic

namespace BranchNodeCompact

/-- `decode` with its slices and indices. -/
def decodeRaw (bytes : Bytes) : Except MerkleError (BranchNodeCompact N) :=
  let bad : MerkleError := .invalidNode "invalid encoded length"
  match bytes.head? with
  | none => .error bad
  | some pfxLen =>
    let end' := 1 + (pfxLen.toNat + 1) / 2
    if bytes.length < end' + 4 then .error bad
    else do
      let header := bytes.take (end' + 4)
      let s₀ ← index header end'
      let s₁ ← index header (end' + 1)
      let stateMask := BitVec.ofNat 16 (ofBe [s₀, s₁])
      let t₀ ← index header (end' + 2)
      let t₁ ← index header (end' + 3)
      let treeMask := BitVec.ofNat 16 (ofBe [t₀, t₁])
      let hashEnd := end' + 4 + countOnes stateMask * 32
      if bytes.length ≠ hashEnd + countOnes (stateMask &&& ~~~treeMask) * N then .error bad
      else
        let childHashes ← chunksRaw 32 (← slice bytes (end' + 4) hashEnd)
        let leafPaths ← chunksRaw N (← slice bytes hashEnd bytes.length)
        new (← slice header 1 end') pfxLen stateMask treeMask childHashes leafPaths

/-- `unpack_prefix` with its indices. -/
def unpackPrefixRaw (node : BranchNodeCompact N) : Except MerkleError (List Nibble) :=
  (List.range node.pfxLen.toNat).mapM (nibbleRaw node.pfx)

/-- `child` with its indices at the ranks of the slot. -/
def childRaw (node : BranchNodeCompact N) (slot : Nibble) : Except MerkleError (Option (RootRef N)) :=
  if hasSlot node.stateMask slot = true then do
    let hash ← index node.childHashes (countOnes (node.stateMask &&& maskBefore slot))
    if hasSlot node.treeMask slot = true then return some (.branch hash)
    else
      let path ← index node.leafPaths
        (countOnes (node.stateMask &&& ~~~node.treeMask &&& maskBefore slot))
      return some (.leaf ⟨path, hash⟩)
  else return none

/-- A leaf lies off the route or the slot: the reads stop at the first nibble that differs. -/
def offRouteRaw (route : List Nibble) (slot : Nibble) (path : Bytes) : Except MerkleError Bool := do
  let off ← (List.range route.length).anyM fun i => do
    let n ← nibbleRaw path i
    return route[i]? ≠ some n
  if off then return true
  else
    let n ← nibbleRaw path route.length
    return n ≠ slot

/-- `validate_at` with its reads of the leaf paths. -/
def validateAtRaw (node : BranchNodeCompact N) (ancestors : List Nibble) : Except MerkleError Unit := do
  let pfx ← node.unpackPrefixRaw
  let route := ancestors ++ pfx
  if route.length ≥ N * 2 then .error (.invalidNode "branch exceeds path depth")
  else if route.length + 1 = N * 2 ∧ node.treeMask ≠ 0#16 then
    .error (.invalidNode "branch child beyond final nibble")
  else
    (List.finRange 16).forM fun slot => do
      match ← node.childRaw slot with
      | some (.leaf leaf) =>
        if ← offRouteRaw route slot leaf.path.1 then
          .error (.invalidNode "leaf path does not match branch route")
        else return ()
      | _ => return ()

/-! ### No raw read is out of bounds -/

lemma mapM_eq_ok {α β ε : Type} {f : α → Except ε β} {g : α → β} :
    ∀ {l : List α}, (∀ a ∈ l, f a = .ok (g a)) → l.mapM f = .ok (l.map g) := by
  intro l
  induction l with
  | nil => intro _; rfl
  | cons a l ih =>
    intro h
    rw [List.mapM_cons, h a (List.mem_cons_self ..), ih fun x hx => h x (List.mem_cons_of_mem _ hx)]
    rfl

lemma nibbleRaw_eq {path : Bytes} {depth : ℕ} (h : depth < 2 * path.length) :
    nibbleRaw path depth = .ok (nibbleAt path depth) := by
  have hd : depth / 2 < path.length := by omega
  rw [nibbleRaw, index, List.getElem?_eq_getElem hd, nibbleAt, nibble, List.getElem?_eq_getElem hd]
  rfl

lemma chunksRaw_eq {w : ℕ} (bytes : Bytes) : chunksRaw w bytes = .ok (chunksExact w bytes) := by
  refine mapM_eq_ok fun i hi => ?_
  have hi : i < bytes.length / w := List.mem_range.mp hi
  have hle : i * w + w ≤ bytes.length := by
    calc i * w + w = (i + 1) * w := by ring
      _ ≤ bytes.length / w * w := Nat.mul_le_mul_right w hi
      _ ≤ bytes.length := Nat.div_mul_le_self _ _
  have hchunk : (bytes.take (i * w + w)).drop (i * w) = (bytes.drop (i * w)).take w := by
    rw [List.drop_take, Nat.add_sub_cancel_left]
  have hlen : ((bytes.drop (i * w)).take w).length = w := by
    rw [List.length_take, List.length_drop]
    omega
  rw [slice_eq (by omega) hle, hchunk, ok_bind, dif_pos hlen]
  congr 1
  exact Subtype.ext (takeArr_val (by rw [List.length_drop]; omega)).symm

lemma index_take {bytes : Bytes} {n i : ℕ} (hi : i < n) (hn : n ≤ bytes.length) :
    ∃ b, index (bytes.take n) i = .ok b ∧ bytes[i]? = some b := by
  have hlt : i < bytes.length := by omega
  refine ⟨bytes[i], ?_, List.getElem?_eq_getElem hlt⟩
  exact index_eq (by rw [List.getElem?_take, if_pos hi, List.getElem?_eq_getElem hlt])

lemma take_two {bytes : Bytes} {i : ℕ} {a b : UInt8} (ha : bytes[i]? = some a)
    (hb : bytes[i + 1]? = some b) : (bytes.drop i).take 2 = [a, b] := by
  obtain ⟨hi, rfl⟩ := List.getElem?_eq_some_iff.mp ha
  obtain ⟨hi', rfl⟩ := List.getElem?_eq_some_iff.mp hb
  rw [List.drop_eq_getElem_cons hi, List.drop_eq_getElem_cons hi']
  rfl

/-- **Decoding reads in bounds**, whatever the bytes. -/
theorem decodeRaw_eq (bytes : Bytes) : (decodeRaw bytes : Except MerkleError (BranchNodeCompact N))
    = decode bytes := by
  cases bytes with
  | nil => rfl
  | cons b bs =>
    simp only [decodeRaw, decode, List.head?_cons]
    by_cases hshort : (b :: bs).length < 1 + (b.toNat + 1) / 2 + 4
    · rw [if_pos hshort, if_pos hshort]
    · rw [if_neg hshort, if_neg hshort]
      have hle := not_lt.mp hshort
      obtain ⟨s₀, hs₀, ha₀⟩ := index_take (i := 1 + (b.toNat + 1) / 2) (by omega) hle
      obtain ⟨s₁, hs₁, ha₁⟩ := index_take (i := 1 + (b.toNat + 1) / 2 + 1) (by omega) hle
      obtain ⟨t₀, ht₀, hb₀⟩ := index_take (i := 1 + (b.toNat + 1) / 2 + 2) (by omega) hle
      obtain ⟨t₁, ht₁, hb₁⟩ := index_take (i := 1 + (b.toNat + 1) / 2 + 3) (by omega) hle
      rw [hs₀, hs₁, ht₀, ht₁]
      simp only [ok_bind]
      rw [take_two ha₀ ha₁, take_two hb₀ hb₁]
      split_ifs with hlen
      · rfl
      · have hlen := not_not.mp hlen
        rw [slice_eq (by omega) (by omega), slice_eq (by omega) le_rfl, List.take_length,
          slice_eq (by omega) (by rw [List.length_take]; omega)]
        simp only [ok_bind, chunksRaw_eq]
        rw [List.take_take, min_eq_left (by omega)]

lemma unpackPrefixRaw_eq (node : BranchNodeCompact N) : node.unpackPrefixRaw = .ok node.unpackPrefix := by
  have hin : ∀ i ∈ List.range node.pfxLen.toNat, i < 2 * node.pfx.length := by
    intro i hi
    have hi := List.mem_range.mp hi
    have := node.pfx_length
    omega
  rw [unpackPrefixRaw, mapM_eq_ok fun i hi => nibbleRaw_eq (hin i hi), unpackPrefix,
    ← List.filterMap_eq_map]
  congr 1
  refine List.filterMap_congr fun i hi => ?_
  rw [nibble_eq, nibbles_eq_some (hin i hi)]
  rfl

lemma childRaw_eq (node : BranchNodeCompact N) (slot : Nibble) :
    node.childRaw slot = .ok (node.child slot) := by
  unfold childRaw child
  by_cases hs : hasSlot node.stateMask slot = true
  · rw [if_pos hs, dif_pos hs]
    have hrank : countOnes (node.stateMask &&& maskBefore slot) < node.childHashes.length := by
      rw [node.hashes_length]
      exact rank_lt hs
    rw [index_eq (List.getElem?_eq_getElem hrank), ok_bind]
    by_cases ht : hasSlot node.treeMask slot = true
    · rw [if_pos ht, dif_pos ht]
      rfl
    · rw [if_neg ht, dif_neg ht]
      have hrank' : countOnes (node.stateMask &&& ~~~node.treeMask &&& maskBefore slot)
          < node.leafPaths.length := by
        rw [node.paths_length]
        exact rank_lt (by simp [hs, ht])
      rw [index_eq (List.getElem?_eq_getElem hrank')]
      rfl
  · rw [if_neg hs, dif_neg hs]
    rfl

lemma anyM_eq_ok {α ε : Type} {f : α → Except ε Bool} {p : α → Bool} :
    ∀ {l : List α}, (∀ a ∈ l, f a = .ok (p a)) → l.anyM f = .ok (l.any p) := by
  intro l
  induction l with
  | nil => intro _; rfl
  | cons a l ih =>
    intro h
    rw [List.anyM, h a (List.mem_cons_self ..), ok_bind, List.any_cons,
      ih fun x hx => h x (List.mem_cons_of_mem _ hx)]
    cases p a <;> rfl

lemma forM_eq {α ε : Type} {f : α → Except ε Unit} {p : α → Bool} {e : ε} :
    ∀ {l : List α}, (∀ a ∈ l, f a = if p a then .error e else .ok ()) →
      l.forM f = if l.any p then .error e else .ok () := by
  intro l
  induction l with
  | nil => intro _; rfl
  | cons a l ih =>
    intro h
    rw [List.forM, h a (List.mem_cons_self ..), List.any_cons,
      ih fun x hx => h x (List.mem_cons_of_mem _ hx)]
    cases p a <;> rfl

lemma offRouteRaw_eq {route : List Nibble} {slot : Nibble} {path : Bytes}
    (h : route.length < 2 * path.length) : offRouteRaw route slot path = .ok (!leafFits route slot path) := by
  have hread : ∀ i < 2 * path.length, nibble path i = some (nibbleAt path i) := by
    intro i hi
    rw [nibble_eq, nibbles_eq_some hi]
  have hany : (List.range route.length).anyM (fun i => do
        let n ← nibbleRaw path i
        return decide (route[i]? ≠ some n))
      = .ok ((List.range route.length).any fun i => decide (route[i]? ≠ some (nibbleAt path i))) := by
    refine anyM_eq_ok fun i hi => ?_
    rw [nibbleRaw_eq (by have := List.mem_range.mp hi; omega)]
    rfl
  have hall : (List.range route.length).any (fun i => decide (route[i]? ≠ some (nibbleAt path i)))
      = !(List.range route.length).all fun i => nibble path i == route[i]? := by
    rw [List.not_all_eq_any_not, Bool.eq_iff_iff, List.any_eq_true, List.any_eq_true]
    refine exists_congr fun i => and_congr_right fun hi => ?_
    rw [hread i (by have := List.mem_range.mp hi; omega)]
    rw [decide_eq_true_eq, Bool.not_eq_true', beq_eq_false_iff_ne, ne_comm]
  rw [offRouteRaw, hany, hall, ok_bind, leafFits, nibbleRaw_eq h, hread _ h]
  cases (List.range route.length).all fun i => nibble path i == route[i]?
  · rfl
  · simp only [Bool.not_true, Bool.true_and, ok_bind]
    by_cases he : nibbleAt path route.length = slot
    · simp [he, Pure.pure, Except.pure]
    · simp [he, Pure.pure, Except.pure]

/-- **The routing check reads in bounds**: the depth is checked before the leaf paths are read. -/
theorem validateAtRaw_eq (node : BranchNodeCompact N) (ancestors : List Nibble) :
    node.validateAtRaw ancestors = node.validateAt ancestors := by
  rw [validateAtRaw, unpackPrefixRaw_eq, ok_bind, validateAt]
  simp only
  by_cases hdepth : (ancestors ++ node.unpackPrefix).length ≥ N * 2
  · rw [if_pos hdepth, if_pos hdepth]
  by_cases hlast : (ancestors ++ node.unpackPrefix).length + 1 = N * 2 ∧ node.treeMask ≠ 0#16
  · rw [if_neg hdepth, if_neg hdepth, if_pos hlast, if_pos hlast]
  rw [if_neg hdepth, if_neg hdepth, if_neg hlast, if_neg hlast]
  refine forM_eq fun slot _ => ?_
  rw [childRaw_eq, ok_bind, misrouted]
  cases hc : node.child slot with
  | none => rfl
  | some root =>
    cases root with
    | empty => rfl
    | branch hash => rfl
    | leaf leaf =>
      simp only
      rw [offRouteRaw_eq (by rw [leaf.path.2]; omega), ok_bind]
      rfl

end BranchNodeCompact

/-! ### The node codec -/

/-- **The node codec is exact**: encodings decode to their nodes, what decodes is an encoding, a node made of a
prefix and references gives them back, the hashed bytes fix prefix, masks and hashes, and neither decoding nor the
reads of a node are out of bounds. -/
theorem node_codec (hN : 1 ≤ N ∧ N ≤ 32) :
    (∀ pfx pfxLen stateMask treeMask childHashes leafPaths (node : BranchNodeCompact N),
      BranchNodeCompact.new pfx pfxLen stateMask treeMask childHashes leafPaths = .ok node →
        BranchNodeCompact.decode node.encode = .ok node) ∧
    (∀ bytes, (∃ node : BranchNodeCompact N, BranchNodeCompact.decode bytes = .ok node ∧ node.encode = bytes) ∨
      ∃ text,
        BranchNodeCompact.decode bytes = (.error (.invalidNode text) : Except MerkleError (BranchNodeCompact N))) ∧
    (∀ (pfx : List Nibble) (kids : Nibble → RootRef N), pfx.length < 2 * N →
      (∃ s s', s ≠ s' ∧ kids s ≠ .empty ∧ kids s' ≠ .empty) →
      ∃ node, BranchNodeCompact.fromChildren pfx kids = .ok node ∧ node.unpackPrefix = pfx ∧ node.children = kids) ∧
    (∀ node node' : BranchNodeCompact N, node.hashPayload = node'.hashPayload →
      node.pfxLen = node'.pfxLen ∧ node.pfx = node'.pfx ∧ node.stateMask = node'.stateMask ∧
        node.treeMask = node'.treeMask ∧ node.childHashes = node'.childHashes) ∧
    (∀ bytes, BranchNodeCompact.decodeRaw bytes
      = (BranchNodeCompact.decode bytes : Except MerkleError (BranchNodeCompact N))) ∧
    ∀ node : BranchNodeCompact N, node.unpackPrefixRaw = .ok node.unpackPrefix ∧
      ∀ slot, node.childRaw slot = .ok (node.child slot) := by
  refine ⟨fun _ _ _ _ _ _ node _ => decode_encode hN.1 node, fun bytes => ?_, ?_,
    fun _ _ => BranchNodeCompact.hashPayload_inj, BranchNodeCompact.decodeRaw_eq,
    fun node => ⟨node.unpackPrefixRaw_eq, node.childRaw_eq⟩⟩
  · cases h : (BranchNodeCompact.decode bytes : Except MerkleError (BranchNodeCompact N)) with
    | ok node => exact .inl ⟨node, rfl, encode_of_decode hN.1 h⟩
    | error e =>
      obtain ⟨text, rfl⟩ := decode_error h
      exact .inr ⟨text, rfl⟩
  · rintro pfx kids hp ⟨s, s', hne, hs, hs'⟩
    obtain ⟨node, hok, hnode⟩ := fromChildren_ok pfx kids hN.2 hp hne hs hs'
    exact ⟨node, hok, hnode.unpackPrefix, hnode.children⟩

/-- A subtree in slot 3 and a leaf in slot 9. -/
def sampleSlots : Nibble → RootRef 1 := fun s =>
  if s = 3 then .branch (takeArr 32 []) else if s = 9 then .leaf ⟨⟨[0x59], rfl⟩, takeArr 32 []⟩ else .empty

/-- A node over one-byte paths, with an odd prefix. -/
theorem node_codec_demo : ∃ node : BranchNodeCompact 1, BranchNodeCompact.fromChildren [5] sampleSlots = .ok node ∧
    node.pfx = [0x50] ∧ node.unpackPrefix = [5] ∧ node.children = sampleSlots ∧
      BranchNodeCompact.decode node.encode = .ok node ∧ BranchNodeCompact.decodeRaw node.encode = .ok node := by
  obtain ⟨hnew, -, hmake, -, hraw, -⟩ := node_codec (N := 1) (by decide)
  obtain ⟨node, hok, hpfx, hkids⟩ := hmake [5] sampleSlots (by decide) ⟨3, 9, by decide, nofun, nofun⟩
  have hdecode := hnew _ _ _ _ _ _ node hok
  exact ⟨node, hok, (new_eq_ok hok).1, hpfx, hkids, hdecode, (hraw _).trans hdecode⟩

/-! ### The load of a branch -/

/-- `load` with the raw reads of the node. -/
def Trie.loadRaw {τ : Type} [ReadTransaction τ] (T : Trie N) (tx : τ) (hash : Hash)
    (route : List Nibble) : Except MerkleError (BranchNodeCompact N) := do
  match ← (ReadTransaction.get tx T.table hash.1).mapError .storage with
  | none => .error (.missingBranch hash)
  | some bytes =>
    let node ← BranchNodeCompact.decodeRaw bytes
    if node.hash T.domain T.hasher ≠ hash then .error .hashMismatch
    else
      node.validateAtRaw route
      return node

/-- **Reading a branch row never reads out of bounds.** -/
theorem Trie.loadRaw_eq {τ : Type} [ReadTransaction τ] (T : Trie N) (tx : τ) (hash : Hash)
    (route : List Nibble) : T.loadRaw tx hash route = T.load tx hash route := by
  unfold Trie.loadRaw Trie.load
  refine bind_congr fun found => ?_
  cases found with
  | none => rfl
  | some bytes =>
    show (BranchNodeCompact.decodeRaw bytes >>= _) = (BranchNodeCompact.decode bytes >>= _)
    rw [BranchNodeCompact.decodeRaw_eq]
    refine bind_congr fun node => ?_
    rw [BranchNodeCompact.validateAtRaw_eq]

end GolemDb.Merkle
