import GolemDb.Merkle.Node

/-!
What a branch node is: `NodeOf node pfx kids` says that the node is the one `from_children` makes
of a prefix and sixteen references. Such a node gives its prefix and references back, its
encoding decodes to itself (`decode_encode`), and its hash payload fixes the prefix and every
slot up to the paths of the leaves (`payload_inj`).
-/

namespace GolemDb.Merkle

open GolemDb.Lib GolemDb.Storage

variable {N : ℕ}

namespace RootRef

def isBranch : RootRef N → Bool
  | branch _ => true
  | _ => false

lemma slotHash_eq_none {r : RootRef N} : r.slotHash = none ↔ r = empty := by
  cases r <;> simp [slotHash]

lemma slotHash_isSome {r : RootRef N} : r.slotHash.isSome = decide (r ≠ empty) := by
  cases r <;> simp [slotHash]

lemma slotPath_isSome {r : RootRef N} :
    r.slotPath.isSome = (decide (r ≠ empty) && !r.isBranch) := by
  cases r <;> simp [slotPath, isBranch]

end RootRef

/-! ### The slots of a branch -/

section Slots

variable (kids : Nibble → RootRef N)

lemma foldl_push (l : List Nibble) (acc : Slots N) :
    (l.foldl (fun acc slot => acc.push slot (kids slot)) acc).hashes
      = acc.hashes ++ l.filterMap (fun s => (kids s).slotHash) ∧
    (l.foldl (fun acc slot => acc.push slot (kids slot)) acc).paths
      = acc.paths ++ l.filterMap (fun s => (kids s).slotPath) ∧
    ∀ i, hasSlot (l.foldl (fun acc slot => acc.push slot (kids slot)) acc).state i
        = (hasSlot acc.state i || decide (i ∈ l ∧ kids i ≠ .empty)) ∧
      hasSlot (l.foldl (fun acc slot => acc.push slot (kids slot)) acc).tree i
        = (hasSlot acc.tree i || decide (i ∈ l) && (kids i).isBranch) := by
  induction l generalizing acc with
  | nil => simp
  | cons s l ih =>
    rw [List.foldl_cons]
    obtain ⟨h1, h2, h3⟩ := ih (acc.push s (kids s))
    refine ⟨?_, ?_, fun i => ⟨?_, ?_⟩⟩
    · rw [h1]
      cases hs : kids s <;> simp [Slots.push, RootRef.slotHash, hs]
    · rw [h2]
      cases hs : kids s <;> simp [Slots.push, RootRef.slotPath, hs]
    · rw [(h3 i).1]
      by_cases hi : i = s
      · subst hi
        cases hs : kids i <;> simp [Slots.push]
      · cases hs : kids s <;> simp [Slots.push, hi]
    · rw [(h3 i).2]
      by_cases hi : i = s
      · subst hi
        cases hs : kids i <;> simp [Slots.push, RootRef.isBranch]
      · cases hs : kids s <;> simp [Slots.push, hi]

lemma slotsOf_hashes : (slotsOf kids).hashes = (List.finRange 16).filterMap fun s => (kids s).slotHash := by
  simpa [slotsOf] using (foldl_push kids (List.finRange 16) ⟨0#16, 0#16, [], []⟩).1

lemma slotsOf_paths : (slotsOf kids).paths = (List.finRange 16).filterMap fun s => (kids s).slotPath := by
  simpa [slotsOf] using (foldl_push kids (List.finRange 16) ⟨0#16, 0#16, [], []⟩).2.1

@[simp] lemma hasSlot_state (i : Nibble) : hasSlot (slotsOf kids).state i = decide (kids i ≠ .empty) := by
  simpa [slotsOf] using ((foldl_push kids (List.finRange 16) ⟨0#16, 0#16, [], []⟩).2.2 i).1

@[simp] lemma hasSlot_tree (i : Nibble) : hasSlot (slotsOf kids).tree i = (kids i).isBranch := by
  simpa [slotsOf] using ((foldl_push kids (List.finRange 16) ⟨0#16, 0#16, [], []⟩).2.2 i).2

lemma length_filterMap_eq_countP {α β : Type} (l : List α) (g : α → Option β) :
    (l.filterMap g).length = l.countP fun a => (g a).isSome := by
  induction l with
  | nil => rfl
  | cons a l ih => cases h : g a <;> simp [h, ih]

lemma slotsOf_hashes_length : (slotsOf kids).hashes.length = countOnes (slotsOf kids).state := by
  rw [slotsOf_hashes, length_filterMap_eq_countP, countOnes]
  congr 1
  funext s
  rw [RootRef.slotHash_isSome, hasSlot_state]

lemma slotsOf_paths_length :
    (slotsOf kids).paths.length = countOnes ((slotsOf kids).state &&& ~~~(slotsOf kids).tree) := by
  rw [slotsOf_paths, length_filterMap_eq_countP, countOnes]
  congr 1
  funext s
  simp [RootRef.slotPath_isSome]

lemma two_le_countOnes {s s' : Nibble} (hne : s ≠ s') (hs : kids s ≠ .empty) (hs' : kids s' ≠ .empty) :
    2 ≤ countOnes (slotsOf kids).state := by
  rw [countOnes, List.countP_eq_length_filter]
  have hsub : [s, s'] ⊆ (List.finRange 16).filter (hasSlot (slotsOf kids).state) := by
    intro x hx
    simp only [List.mem_cons, List.not_mem_nil, or_false] at hx
    rcases hx with rfl | rfl <;> simp [hs, hs']
  have hnd : [s, s'].Nodup := by simp [hne]
  exact (List.subperm_of_subset hnd hsub).length_le

end Slots

/-! ### The node of a prefix and its references -/

/-- The bytes hashed for a branch with this prefix and these references. -/
def payload (pfx : List Nibble) (kids : Nibble → RootRef N) : Bytes :=
  [UInt8.ofNat pfx.length] ++ pack pfx ++ beBytes 2 (slotsOf kids).state.toNat
    ++ beBytes 2 (slotsOf kids).tree.toNat ++ (slotsOf kids).hashes.flatMap (·.1)

/-- **The node is the branch** with this prefix and these references. -/
structure NodeOf (node : BranchNodeCompact N) (pfx : List Nibble) (kids : Nibble → RootRef N) : Prop where
  length_lt : pfx.length < 256
  pfx_eq : node.pfx = pack pfx
  pfxLen_eq : node.pfxLen = UInt8.ofNat pfx.length
  state_eq : node.stateMask = (slotsOf kids).state
  tree_eq : node.treeMask = (slotsOf kids).tree
  hashes_eq : node.childHashes = (slotsOf kids).hashes
  paths_eq : node.leafPaths = (slotsOf kids).paths

section FromChildren

variable {pfx : List Nibble} {kids : Nibble → RootRef N} {node : BranchNodeCompact N}

/-- A short prefix with two occupied slots makes a node. -/
theorem fromChildren_ok (pfx : List Nibble) (kids : Nibble → RootRef N) (hN : N ≤ 32) (hp : pfx.length < 2 * N)
    {s s' : Nibble} (hne : s ≠ s') (hs : kids s ≠ .empty) (hs' : kids s' ≠ .empty) :
    ∃ node, BranchNodeCompact.fromChildren pfx kids = .ok node ∧ NodeOf node pfx kids := by
  have hlen : (UInt8.ofNat pfx.length).toNat = pfx.length := by
    rw [UInt8.toNat_ofNat']
    omega
  have hprefix : (UInt8.ofNat pfx.length).toNat < 2 * N ∧
      (pack pfx).length = ((UInt8.ofNat pfx.length).toNat + 1) / 2 := by
    rw [hlen, pack_length]
    exact ⟨hp, rfl⟩
  have hpad : (UInt8.ofNat pfx.length).toNat % 2 = 1 →
      ∀ b ∈ (pack pfx).getLast?.toList, b &&& 15 = 0 := by
    rw [hlen]
    intro hodd b hb
    exact pack_padding hodd (by simpa using hb)
  have hmask : 2 ≤ countOnes (slotsOf kids).state ∧
      (slotsOf kids).tree &&& ~~~(slotsOf kids).state = 0#16 ∧
      (slotsOf kids).hashes.length = countOnes (slotsOf kids).state ∧
      (slotsOf kids).paths.length = countOnes ((slotsOf kids).state &&& ~~~(slotsOf kids).tree) := by
    refine ⟨two_le_countOnes kids hne hs hs', mask_ext fun i => ?_, slotsOf_hashes_length kids,
      slotsOf_paths_length kids⟩
    cases h : kids i <;> simp [h, RootRef.isBranch]
  refine ⟨⟨pack pfx, UInt8.ofNat pfx.length, _, _, _, _, hprefix.1, hprefix.2,
    fun h b hb => hpad h b (by simp [hb]), hmask.1, hmask.2.1, hmask.2.2.1, hmask.2.2.2⟩, ?_,
    ⟨by omega, rfl, rfl, rfl, rfl, rfl, rfl⟩⟩
  rw [BranchNodeCompact.fromChildren, BranchNodeCompact.new, dif_pos hprefix, dif_pos hpad,
    dif_pos hmask]

lemma NodeOf.hashPayload (h : NodeOf node pfx kids) : node.hashPayload = payload pfx kids := by
  unfold BranchNodeCompact.hashPayload payload
  rw [h.pfxLen_eq, h.pfx_eq, h.state_eq, h.tree_eq, h.hashes_eq]

lemma NodeOf.unpackPrefix (h : NodeOf node pfx kids) : node.unpackPrefix = pfx := by
  have hlen : node.pfxLen.toNat = pfx.length := by
    rw [h.pfxLen_eq, UInt8.toNat_ofNat']
    have := h.length_lt
    omega
  unfold BranchNodeCompact.unpackPrefix
  rw [hlen, h.pfx_eq, funext (nibble_eq (pack pfx))]
  have hle : pfx.length ≤ (nibbles (pack pfx)).length := by
    rw [nibbles_length, pack_length]
    omega
  apply List.ext_getElem?
  intro i
  conv_rhs => rw [← nibbles_pack pfx]
  have hmap : (List.range pfx.length).filterMap (fun i => (nibbles (pack pfx))[i]?)
      = (nibbles (pack pfx)).take pfx.length := by
    generalize nibbles (pack pfx) = l at hle
    generalize pfx.length = n at hle
    induction n with
    | zero => simp
    | succ n ih =>
      rw [List.range_succ, List.filterMap_append, ih (by omega), List.take_add_one]
      cases hl : l[n]? <;> simp [hl]
  rw [hmap]

lemma NodeOf.child (h : NodeOf node pfx kids) (s : Nibble) :
    node.child s = if kids s = .empty then none else some (kids s) := by
  have hst : hasSlot node.stateMask s = decide (kids s ≠ .empty) := by rw [h.state_eq, hasSlot_state]
  have htr : hasSlot node.treeMask s = (kids s).isBranch := by rw [h.tree_eq, hasSlot_tree]
  have hcount : countOnes (node.stateMask &&& maskBefore s)
      = (List.finRange 16).countP fun i => ((kids i).slotHash).isSome && decide (i < s) := by
    rw [countOnes, h.state_eq]
    congr 1
    funext i
    simp [RootRef.slotHash_isSome]
  have hcount' : countOnes (node.stateMask &&& ~~~node.treeMask &&& maskBefore s)
      = (List.finRange 16).countP fun i => ((kids i).slotPath).isSome && decide (i < s) := by
    rw [countOnes, h.state_eq, h.tree_eq]
    congr 1
    funext i
    simp [RootRef.slotPath_isSome]
  have hsorted : (List.finRange 16).Pairwise (· < ·) := List.pairwise_lt_finRange 16
  have hhash : ∀ x, (kids s).slotHash = some x →
      node.childHashes[countOnes (node.stateMask &&& maskBefore s)]? = some x := by
    intro x hx
    rw [hcount, h.hashes_eq, slotsOf_hashes]
    exact getElem?_filterMap_rank hsorted (List.mem_finRange s) hx
  have hpath : ∀ x, (kids s).slotPath = some x →
      node.leafPaths[countOnes (node.stateMask &&& ~~~node.treeMask &&& maskBefore s)]? = some x := by
    intro x hx
    rw [hcount', h.paths_eq, slotsOf_paths]
    exact getElem?_filterMap_rank hsorted (List.mem_finRange s) hx
  unfold BranchNodeCompact.child
  cases hk : kids s with
  | empty => simp [hst, hk]
  | leaf l =>
    have h1 := (List.getElem?_eq_some_iff.mp (hhash l.hash (by simp [hk, RootRef.slotHash]))).2
    have h2 := (List.getElem?_eq_some_iff.mp (hpath l.path (by simp [hk, RootRef.slotPath]))).2
    simp [hst, htr, hk, RootRef.isBranch, h1, h2]
  | branch x =>
    have h1 := (List.getElem?_eq_some_iff.mp (hhash x (by simp [hk, RootRef.slotHash]))).2
    simp [hst, htr, hk, RootRef.isBranch, h1]

lemma NodeOf.children (h : NodeOf node pfx kids) : node.children = kids := by
  funext s
  rw [BranchNodeCompact.children, h.child]
  split <;> simp_all

end FromChildren

/-! ### The codec -/

section Codec

lemma chunksExact_append {w : ℕ} (hw : 0 < w) (a : Arr w) (rest : Bytes) :
    BranchNodeCompact.chunksExact w (a.1 ++ rest) = a :: BranchNodeCompact.chunksExact w rest := by
  unfold BranchNodeCompact.chunksExact
  have hl : (a.1 ++ rest).length / w = rest.length / w + 1 := by
    rw [List.length_append, a.2, Nat.add_comm, Nat.add_div_right _ hw]
  rw [hl, List.range_succ_eq_map, List.map_cons, List.map_map]
  congr 1
  · simpa using takeArr_self a rest
  · refine List.map_congr_left fun i _ => ?_
    have : (i + 1) * w = a.1.length + i * w := by rw [a.2, Nat.succ_mul, Nat.add_comm]
    simp only [Function.comp, Nat.succ_eq_add_one]
    rw [this, ← List.drop_drop, List.drop_left' rfl]

lemma chunksExact_flatMap {w : ℕ} (hw : 0 < w) (l : List (Arr w)) :
    BranchNodeCompact.chunksExact w (l.flatMap (·.1)) = l := by
  induction l with
  | nil => simp [BranchNodeCompact.chunksExact]
  | cons a l ih => rw [List.flatMap_cons, chunksExact_append hw, ih]

@[simp] lemma flatMap_val_length {w : ℕ} (l : List (Arr w)) :
    (l.flatMap (·.1)).length = l.length * w := by
  induction l with
  | nil => simp
  | cons a l ih => rw [List.flatMap_cons, List.length_append, ih, a.2, List.length_cons, Nat.succ_mul,
      Nat.add_comm]

lemma flatMap_val_inj {w : ℕ} (hw : 0 < w) {l l' : List (Arr w)}
    (h : l.flatMap (·.1) = l'.flatMap (·.1)) : l = l' := by
  rw [← chunksExact_flatMap hw l, h, chunksExact_flatMap hw]

lemma ofBe_mask (m : BitVec 16) : BitVec.ofNat 16 (ofBe (beBytes 2 m.toNat)) = m := by
  rw [ofBe_beBytes (by have := m.isLt; omega), BitVec.ofNat_toNat, BitVec.setWidth_eq]

/-- **A node's encoding decodes to the node.** -/
theorem decode_encode (hN : 0 < N) (node : BranchNodeCompact N) :
    BranchNodeCompact.decode node.encode = .ok node := by
  have hpl := node.pfx_length
  have hb2 := beBytes_length 2 node.stateMask.toNat
  have hb2' := beBytes_length 2 node.treeMask.toNat
  -- the encoding as its consecutive fields
  have henc : node.encode = node.pfxLen :: (node.pfx ++ (beBytes 2 node.stateMask.toNat ++
      (beBytes 2 node.treeMask.toNat ++ (node.childHashes.flatMap (·.1) ++
        node.leafPaths.flatMap (·.1))))) := by
    simp [BranchNodeCompact.encode, BranchNodeCompact.hashPayload]
  generalize hH : node.childHashes.flatMap (·.1) = hs at henc
  generalize hP : node.leafPaths.flatMap (·.1) = ps at henc
  have hHl : hs.length = countOnes node.stateMask * 32 := by
    rw [← hH, flatMap_val_length, node.hashes_length]
  have hPl : ps.length = countOnes (node.stateMask &&& ~~~node.treeMask) * N := by
    rw [← hP, flatMap_val_length, node.paths_length]
  have hlen : node.encode.length = 1 + (node.pfxLen.toNat + 1) / 2 + 4
      + countOnes node.stateMask * 32 + countOnes (node.stateMask &&& ~~~node.treeMask) * N := by
    rw [henc]
    simp only [List.length_cons, List.length_append, hb2, hb2', hHl, hPl, hpl]
    omega
  have hpfx : (node.encode.take (1 + (node.pfxLen.toNat + 1) / 2)).drop 1 = node.pfx := by
    rw [henc, ← hpl, Nat.add_comm, List.take_succ_cons, List.drop_one, List.tail_cons,
      List.take_left' rfl]
  have hdrop : node.encode.drop (1 + (node.pfxLen.toNat + 1) / 2) = beBytes 2 node.stateMask.toNat ++
      (beBytes 2 node.treeMask.toNat ++ (hs ++ ps)) := by
    rw [henc, ← hpl, Nat.add_comm, List.drop_succ_cons, List.drop_left' rfl]
  have hdrop2 : node.encode.drop (1 + (node.pfxLen.toNat + 1) / 2 + 2) =
      beBytes 2 node.treeMask.toNat ++ (hs ++ ps) := by
    rw [← List.drop_drop, hdrop, List.drop_left' hb2]
  have hdrop4 : node.encode.drop (1 + (node.pfxLen.toNat + 1) / 2 + 4) = hs ++ ps := by
    rw [show 1 + (node.pfxLen.toNat + 1) / 2 + 4 = 1 + (node.pfxLen.toNat + 1) / 2 + 2 + 2 by rfl,
      ← List.drop_drop, hdrop2, List.drop_left' hb2']
  have hst : BitVec.ofNat 16 (ofBe ((node.encode.drop (1 + (node.pfxLen.toNat + 1) / 2)).take 2))
      = node.stateMask := by
    rw [hdrop, List.take_left' hb2, ofBe_mask]
  have htr : BitVec.ofNat 16 (ofBe ((node.encode.drop (1 + (node.pfxLen.toNat + 1) / 2 + 2)).take 2))
      = node.treeMask := by
    rw [hdrop2, List.take_left' hb2', ofBe_mask]
  have hhs : (node.encode.take (1 + (node.pfxLen.toNat + 1) / 2 + 4 + countOnes node.stateMask * 32)).drop
      (1 + (node.pfxLen.toNat + 1) / 2 + 4) = hs := by
    rw [List.drop_take, hdrop4, Nat.add_sub_cancel_left, List.take_left' hHl]
  have hps : node.encode.drop (1 + (node.pfxLen.toNat + 1) / 2 + 4 + countOnes node.stateMask * 32)
      = ps := by
    rw [← List.drop_drop, hdrop4, List.drop_left' hHl]
  have hnew : BranchNodeCompact.new node.pfx node.pfxLen node.stateMask node.treeMask
      node.childHashes node.leafPaths = .ok node := by
    rw [BranchNodeCompact.new, dif_pos ⟨node.pfxLen_lt, hpl⟩,
      dif_pos (fun h b hb => node.padding h b (by simpa using hb)),
      dif_pos ⟨node.two_le, node.tree_sub, node.hashes_length, node.paths_length⟩]
  have hmatch : BranchNodeCompact.decode node.encode =
      (if node.encode.length < 1 + (node.pfxLen.toNat + 1) / 2 + 4 then
        .error (.invalidNode "invalid encoded length")
      else if node.encode.length ≠ 1 + (node.pfxLen.toNat + 1) / 2 + 4 + countOnes node.stateMask * 32
          + countOnes (node.stateMask &&& ~~~node.treeMask) * N then
        .error (.invalidNode "invalid encoded length")
      else BranchNodeCompact.new node.pfx node.pfxLen node.stateMask node.treeMask
        (BranchNodeCompact.chunksExact 32 hs) (BranchNodeCompact.chunksExact N ps)) := by
    conv_rhs => rw [← hhs, ← hps, ← hpfx]
    unfold BranchNodeCompact.decode
    rw [henc]
    simp only
    rw [← henc, hst, htr]
  rw [hmatch, if_neg (by rw [hlen]; omega), if_neg (by rw [hlen]; simp), ← hH, ← hP,
    chunksExact_flatMap (by omega), chunksExact_flatMap hN, hnew]

/-- Whole chunks concatenate to the string they were cut from. -/
lemma flatMap_chunksExact {w : ℕ} (hw : 0 < w) : ∀ (n : ℕ) {bytes : Bytes}, bytes.length = n * w →
    (BranchNodeCompact.chunksExact w bytes).flatMap (·.1) = bytes := by
  intro n
  induction n with
  | zero =>
    intro bytes h
    rw [Nat.zero_mul, List.length_eq_zero_iff] at h
    rw [h]
    simp [BranchNodeCompact.chunksExact]
  | succ n ih =>
    intro bytes h
    have hle : w ≤ bytes.length := by
      rw [h]
      exact Nat.le_mul_of_pos_left w n.succ_pos
    have hfirst := chunksExact_append hw (takeArr w bytes) (bytes.drop w)
    rw [takeArr_val hle, List.take_append_drop] at hfirst
    rw [hfirst, List.flatMap_cons, takeArr_val hle, ih, List.take_append_drop]
    rw [List.length_drop, h, Nat.succ_mul, Nat.add_sub_cancel]

lemma new_eq_ok {pfx : Bytes} {pfxLen : UInt8} {stateMask treeMask : BitVec 16} {childHashes : List Hash}
    {leafPaths : List (Arr N)} {node : BranchNodeCompact N}
    (h : BranchNodeCompact.new pfx pfxLen stateMask treeMask childHashes leafPaths = .ok node) :
    node.pfx = pfx ∧ node.pfxLen = pfxLen ∧ node.stateMask = stateMask ∧ node.treeMask = treeMask ∧
      node.childHashes = childHashes ∧ node.leafPaths = leafPaths := by
  unfold BranchNodeCompact.new at h
  split_ifs at h
  obtain rfl := Except.ok.inj h
  exact ⟨rfl, rfl, rfl, rfl, rfl, rfl⟩

/-- The constructor's refusals are of the node, whatever the arguments. -/
lemma new_error {pfx : Bytes} {pfxLen : UInt8} {stateMask treeMask : BitVec 16} {childHashes : List Hash}
    {leafPaths : List (Arr N)} {e : MerkleError}
    (h : BranchNodeCompact.new pfx pfxLen stateMask treeMask childHashes leafPaths = .error e) :
    ∃ text, e = .invalidNode text := by
  unfold BranchNodeCompact.new at h
  split_ifs at h <;> exact ⟨_, (Except.error.inj h).symm⟩

lemma beBytes_mask {bytes : Bytes} (h : bytes.length = 2) :
    beBytes 2 (BitVec.ofNat 16 (ofBe bytes)).toNat = bytes := by
  have hlt := ofBe_lt bytes
  have hbe := beBytes_ofBe bytes
  rw [h] at hlt hbe
  rw [BitVec.toNat_ofNat, Nat.mod_eq_of_lt (lt_of_lt_of_eq hlt (by norm_num)), hbe]

/-- **What decodes is an encoding**: the fields read back are those of the string, with nothing left over. -/
theorem encode_of_decode (hN : 0 < N) {bytes : Bytes} {node : BranchNodeCompact N}
    (h : BranchNodeCompact.decode bytes = .ok node) : node.encode = bytes := by
  unfold BranchNodeCompact.decode at h
  cases bytes with
  | nil => cases h
  | cons pfxLen rest =>
    simp only at h
    generalize hb : pfxLen :: rest = bytes at h ⊢
    generalize hend : 1 + (pfxLen.toNat + 1) / 2 = pfxEnd at h
    split_ifs at h with hshort hlen
    obtain ⟨hpfx, hpfxLen, hstate, htree, hhashes, hpaths⟩ := new_eq_ok h
    have hstate' : ((bytes.drop pfxEnd).take 2).length = 2 := by
      rw [List.length_take, List.length_drop]
      omega
    have htree' : ((bytes.drop (pfxEnd + 2)).take 2).length = 2 := by
      rw [List.length_take, List.length_drop]
      omega
    rw [← hstate, ← htree] at hlen
    rw [← hstate] at hhashes hpaths
    generalize hhe : pfxEnd + 4 + countOnes node.stateMask * 32 = hashEnd at hlen hhashes hpaths
    have hcut : ((bytes.take hashEnd).drop (pfxEnd + 4)).length = countOnes node.stateMask * 32 := by
      rw [List.length_drop, List.length_take]
      omega
    have hrest : (bytes.drop hashEnd).length = countOnes (node.stateMask &&& ~~~node.treeMask) * N := by
      rw [List.length_drop]
      omega
    -- the five fields are consecutive cuts of the string
    have hpfx' : [node.pfxLen] ++ node.pfx = bytes.take pfxEnd := by
      rw [hpfx, hpfxLen, ← hb, ← hend, Nat.add_comm, List.take_succ_cons]
      rfl
    have h1 : bytes.take pfxEnd ++ (bytes.drop pfxEnd).take 2 = bytes.take (pfxEnd + 2) := List.take_add.symm
    have h2 : bytes.take (pfxEnd + 2) ++ (bytes.drop (pfxEnd + 2)).take 2 = bytes.take (pfxEnd + 4) :=
      List.take_add.symm
    have h3 : bytes.take (pfxEnd + 4) ++ (bytes.take hashEnd).drop (pfxEnd + 4) = bytes.take hashEnd := by
      have hle : pfxEnd + 4 ≤ hashEnd := by omega
      have hjoin := List.take_append_drop (pfxEnd + 4) (bytes.take hashEnd)
      rwa [List.take_take, Nat.min_eq_left hle] at hjoin
    rw [BranchNodeCompact.encode, BranchNodeCompact.hashPayload, hpfx', hstate, htree, beBytes_mask hstate',
      beBytes_mask htree', h1, h2, hhashes, flatMap_chunksExact (by norm_num) _ hcut, h3, hpaths,
      flatMap_chunksExact hN _ hrest, List.take_append_drop]

/-- **The hashed bytes fix everything but the leaf paths.** -/
theorem BranchNodeCompact.hashPayload_inj {node node' : BranchNodeCompact N}
    (h : node.hashPayload = node'.hashPayload) :
    node.pfxLen = node'.pfxLen ∧ node.pfx = node'.pfx ∧ node.stateMask = node'.stateMask ∧
      node.treeMask = node'.treeMask ∧ node.childHashes = node'.childHashes := by
  simp only [BranchNodeCompact.hashPayload, List.append_assoc, List.cons_append, List.nil_append, List.cons.injEq] at h
  obtain ⟨hlen, h⟩ := h
  obtain ⟨hpfx, h⟩ := List.append_inj h (by rw [node.pfx_length, node'.pfx_length, hlen])
  obtain ⟨hstate, h⟩ := List.append_inj h (by rw [beBytes_length, beBytes_length])
  obtain ⟨htree, h⟩ := List.append_inj h (by rw [beBytes_length, beBytes_length])
  have hmask : ∀ {m m' : BitVec 16}, beBytes 2 m.toNat = beBytes 2 m'.toNat → m = m' := by
    intro m m' hm
    rw [← ofBe_mask m, hm, ofBe_mask]
  exact ⟨hlen, hpfx, hmask hstate, hmask htree, flatMap_val_inj (by omega) h⟩

/-- **The hash payload fixes the branch** up to the paths of its leaves. -/
theorem payload_inj {pfx pfx' : List Nibble} {kids kids' : Nibble → RootRef N}
    (hp : pfx.length < 256) (hp' : pfx'.length < 256) (h : payload pfx kids = payload pfx' kids') :
    pfx = pfx' ∧ ∀ s, (kids s).slotHash = (kids' s).slotHash ∧ (kids s).isBranch = (kids' s).isBranch := by
  simp only [payload, List.append_assoc, List.cons_append, List.nil_append, List.cons.injEq] at h
  obtain ⟨hl, h⟩ := h
  have hlen : pfx.length = pfx'.length := by
    have := congrArg UInt8.toNat hl
    rw [UInt8.toNat_ofNat', UInt8.toNat_ofNat'] at this
    omega
  obtain ⟨hpk, h⟩ := List.append_inj h (by rw [pack_length, pack_length, hlen])
  obtain ⟨hst, h⟩ := List.append_inj h (by rw [beBytes_length, beBytes_length])
  obtain ⟨htr, h⟩ := List.append_inj h (by rw [beBytes_length, beBytes_length])
  have hst : (slotsOf kids).state = (slotsOf kids').state := by
    rw [← ofBe_mask (slotsOf kids).state, hst, ofBe_mask]
  have htr : (slotsOf kids).tree = (slotsOf kids').tree := by
    rw [← ofBe_mask (slotsOf kids).tree, htr, ofBe_mask]
  have hhs := flatMap_val_inj (by omega) h
  refine ⟨pack_inj hlen hpk, fun s => ⟨?_, ?_⟩⟩
  · have hempty : ∀ i, kids i = .empty ↔ kids' i = .empty := by
      intro i
      have := congrArg (hasSlot · i) hst
      simp only [hasSlot_state, decide_eq_decide, ne_eq, not_iff_not] at this
      exact this
    rw [slotsOf_hashes, slotsOf_hashes] at hhs
    have hcount : (List.finRange 16).countP (fun i => ((kids i).slotHash).isSome && decide (i < s))
        = (List.finRange 16).countP (fun i => ((kids' i).slotHash).isSome && decide (i < s)) := by
      congr 1
      funext i
      rw [RootRef.slotHash_isSome, RootRef.slotHash_isSome]
      simp [hempty i]
    have hsorted : (List.finRange 16).Pairwise (· < ·) := List.pairwise_lt_finRange 16
    cases hk : (kids s).slotHash with
    | none =>
      rw [RootRef.slotHash_eq_none, hempty s] at hk
      rw [hk, RootRef.slotHash]
    | some x =>
      have h1 := getElem?_filterMap_rank (g := fun i => (kids i).slotHash) hsorted
        (List.mem_finRange s) hk
      cases hk' : (kids' s).slotHash with
      | none =>
        rw [RootRef.slotHash_eq_none, ← hempty s] at hk'
        simp [hk', RootRef.slotHash] at hk
      | some x' =>
        have h2 := getElem?_filterMap_rank (g := fun i => (kids' i).slotHash) hsorted
          (List.mem_finRange s) hk'
        rw [← hcount, ← hhs, h1] at h2
        exact h2
  · have := congrArg (hasSlot · s) htr
    simpa using this

/-- Whatever is not decoded is refused as a node. -/
lemma decode_error {bytes : Bytes} {e : MerkleError}
    (h : BranchNodeCompact.decode bytes = (.error e : Except MerkleError (BranchNodeCompact N))) :
    ∃ text, e = .invalidNode text := by
  unfold BranchNodeCompact.decode at h
  cases bytes with
  | nil => exact ⟨_, (Except.error.inj h).symm⟩
  | cons pfxLen rest =>
    simp only at h
    split_ifs at h
    · exact ⟨_, (Except.error.inj h).symm⟩
    · exact ⟨_, (Except.error.inj h).symm⟩
    · exact new_error h

end Codec

/-! ### The routing check -/

section Validate

variable {pfx : List Nibble} {kids : Nibble → RootRef N} {node : BranchNodeCompact N}

lemma leafFits_of_isPrefix {route : List Nibble} {s : Nibble} {path : Bytes}
    (h : route ++ [s] <+: nibbles path) : BranchNodeCompact.leafFits route s path = true := by
  obtain ⟨t, ht⟩ := h
  unfold BranchNodeCompact.leafFits
  rw [Bool.and_eq_true, List.all_eq_true]
  constructor
  · intro i hi
    have hi := List.mem_range.mp hi
    rw [beq_iff_eq, nibble_eq, ← ht, List.append_assoc, List.getElem?_append_left hi]
  · rw [beq_iff_eq, nibble_eq, ← ht, List.append_assoc, List.getElem?_append_right le_rfl]
    simp

/-- A node whose leaves lie below their slots passes the routing check. -/
lemma NodeOf.validateAt (h : NodeOf node pfx kids) {route : List Nibble}
    (hlen : route.length + pfx.length < N * 2)
    (hlast : route.length + pfx.length + 1 = N * 2 → ∀ s, (kids s).isBranch = false)
    (hleaf : ∀ s l, kids s = .leaf l → route ++ pfx ++ [s] <+: nibbles l.path.1) :
    node.validateAt route = .ok () := by
  unfold BranchNodeCompact.validateAt
  rw [h.unpackPrefix]
  have htree : ¬ ((route ++ pfx).length + 1 = N * 2 ∧ node.treeMask ≠ 0#16) := by
    rintro ⟨h1, h2⟩
    refine h2 (mask_ext fun i => ?_)
    rw [h.tree_eq, hasSlot_tree, hasSlot_zero, hlast (by simpa using h1)]
  have hany : ¬ (List.finRange 16).any (node.misrouted (route ++ pfx)) = true := by
    rw [List.any_eq_true]
    rintro ⟨s, -, hs⟩
    rw [BranchNodeCompact.misrouted, h.child] at hs
    cases hk : kids s with
    | empty => simp [hk] at hs
    | leaf l => simp [hk, leafFits_of_isPrefix (hleaf s l hk)] at hs
    | branch x => simp [hk] at hs
  simp only
  rw [if_neg (by rw [List.length_append]; omega), if_neg htree, if_neg hany]

end Validate

end GolemDb.Merkle
