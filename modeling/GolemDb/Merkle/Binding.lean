import GolemDb.Merkle.Codec
import GolemDb.Merkle.Trie

/-!
What a digest fixes when the rows are not trusted. A branch's hash covers its prefix, its masks and
the hashes of its slots, but not the paths of its leaves; so two states that hold a row for one hash
hold branches that agree up to leaf paths, and two walks from one hash meet the same leaf hashes in
the same order as long as neither of them fails.
-/

namespace GolemDb.Merkle

open GolemDb.Lib GolemDb.Storage

variable {N : ℕ}

/-! ### References and nodes that agree -/

/-- The references are equal up to the path of a leaf. -/
def RootRef.Alike (r r' : RootRef N) : Prop := r.slotHash = r'.slotHash ∧ r.isBranch = r'.isBranch

lemma RootRef.Alike.refl (r : RootRef N) : r.Alike r := ⟨rfl, rfl⟩

namespace BranchNodeCompact

variable {node node' : BranchNodeCompact N}

lemma unpackPrefix_of_payload (h : node.hashPayload = node'.hashPayload) :
    node.unpackPrefix = node'.unpackPrefix := by
  obtain ⟨hlen, hpfx, -⟩ := hashPayload_inj h
  rw [unpackPrefix, unpackPrefix, hlen, hpfx]

/-- The slots hold references that agree. -/
lemma child_of_payload (h : node.hashPayload = node'.hashPayload) (slot : Nibble) :
    Option.Rel RootRef.Alike (node.child slot) (node'.child slot) := by
  obtain ⟨-, -, hstate, htree, hhashes⟩ := hashPayload_inj h
  obtain ⟨pfx, len, state, tree, hashes, paths, h1, h2, h3, h4, h5, h6, h7⟩ := node
  obtain ⟨pfx', len', state', tree', hashes', paths', h1', h2', h3', h4', h5', h6', h7'⟩ := node'
  obtain rfl : state = state' := hstate
  obtain rfl : tree = tree' := htree
  obtain rfl : hashes = hashes' := hhashes
  unfold child
  by_cases hs : hasSlot state slot = true
  · rw [dif_pos hs, dif_pos hs]
    by_cases ht : hasSlot tree slot = true
    · rw [dif_pos ht, dif_pos ht]
      exact .some (.refl _)
    · rw [dif_neg ht, dif_neg ht]
      exact .some ⟨rfl, rfl⟩
  · rw [dif_neg hs, dif_neg hs]
    exact .none

end BranchNodeCompact

namespace Trie

/-! ### Walks that agree -/

/-- The stacks hold references that agree, at the same routes. -/
def Walk.Alike (w w' : Walk N) : Prop :=
  List.Forall₂ (fun e e' => e.1.Alike e'.1 ∧ e.2 = e'.2) w.stack w'.stack

lemma pushed_alike {node node' : BranchNodeCompact N} (h : node.hashPayload = node'.hashPayload)
    (route : List Nibble) :
    List.Forall₂ (fun e e' : RootRef N × List Nibble => e.1.Alike e'.1 ∧ e.2 = e'.2)
      (pushed node route) (pushed node' route) := by
  unfold pushed
  induction List.finRange 16 with
  | nil => exact .nil
  | cons slot slots ih =>
    have hchild := BranchNodeCompact.child_of_payload h slot
    rw [List.filterMap_cons, List.filterMap_cons]
    generalize node.child slot = c at hchild ⊢
    generalize node'.child slot = c' at hchild ⊢
    cases hchild with
    | none => exact ih
    | some hc => exact .cons ⟨hc, rfl⟩ ih

section Two

variable (T : Trie N) {τ τ' : Type} [ReadTransaction τ] [ReadTransaction τ'] {tx : τ} {tx' : τ'}

/-- The rows that two states hold for one hash have the same hashed bytes. -/
def Agree (tx : τ) (tx' : τ') : Prop := ∀ hash route node node',
  T.load tx hash route = .ok node → T.load tx' hash route = .ok node' → node.hashPayload = node'.hashPayload

/-- What two walks return: the end, leaves of one hash, or an error of either. -/
inductive Meet : Option (Except MerkleError (LeafRef N)) × Walk N →
    Option (Except MerkleError (LeafRef N)) × Walk N → Prop
  | done (w w' : Walk N) : Meet (none, w) (none, w')
  | leaf {l l' : LeafRef N} {w w' : Walk N} (hash_eq : l.hash = l'.hash) (alike : w.Alike w') :
    Meet (some (.ok l), w) (some (.ok l'), w')
  | left (e : MerkleError) (w : Walk N) (r : Option (Except MerkleError (LeafRef N)) × Walk N) :
    Meet (some (.error e), w) r
  | right (r : Option (Except MerkleError (LeafRef N)) × Walk N) (e : MerkleError) (w : Walk N) :
    Meet r (some (.error e), w)

variable {T}

/-- **Walks that agree go on in step.** -/
theorem nextLoop_alike (h : T.Agree tx tx') : ∀ (fuel : ℕ) {w w' : Walk N}, w.Alike w' →
    Meet (Walk.nextLoop T tx fuel w) (Walk.nextLoop T tx' fuel w') := by
  intro fuel
  induction fuel with
  | zero =>
    intro w w' _
    exact .left _ _ _
  | succ fuel ih =>
    rintro ⟨stack⟩ ⟨stack'⟩ (hw : List.Forall₂ _ stack stack')
    cases hw with
    | nil => exact .done _ _
    | @cons e e' stack stack' he hrest =>
      obtain ⟨r, route⟩ := e
      obtain ⟨r', route'⟩ := e'
      obtain ⟨⟨hslot, hbranch⟩, hroute⟩ := he
      obtain rfl : route = route' := hroute
      -- references that agree have the same constructor
      match r, r', hslot, hbranch with
      | .empty, .empty, _, _ => exact ih hrest
      | .leaf l, .leaf l', hslot, _ => exact .leaf (Option.some.inj hslot) hrest
      | .branch hash, .branch hash', hslot, _ =>
        obtain rfl : hash = hash' := Option.some.inj hslot
        rw [Walk.nextLoop, Walk.nextLoop]
        cases hl : T.load tx hash route with
        | error e => exact .left _ _ _
        | ok node =>
          cases hl' : T.load tx' hash route with
          | error e => exact .right _ _ _
          | ok node' =>
            have hp := h hash route node node' hl hl'
            simp only [BranchNodeCompact.unpackPrefix_of_payload hp]
            exact ih (List.rel_append (pushed_alike hp _) hrest)

lemma next_alike (h : T.Agree tx tx') {w w' : Walk N} (hw : w.Alike w') :
    Meet (Walk.next T tx w) (Walk.next T tx' w') := nextLoop_alike h _ hw

end Two

end Trie

end GolemDb.Merkle
