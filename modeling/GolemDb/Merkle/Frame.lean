import GolemDb.Lib.Closed
import GolemDb.Merkle.Trie
import GolemDb.Storage.Frame

/-!
A batched edit of a trie loads branches, inserts branch rows of its own table, and asks for a row
that is already there; it does nothing else with its transaction, whatever the hash and whatever
the outcome. So a property of programs that these three have holds of the edit (`apply_closed`), and
the edit keeps a frame that admits branch rows (`apply_keeps`).
-/

namespace GolemDb.Merkle

open GolemDb.Lib GolemDb.Storage

namespace Trie

variable {N : ℕ} {T : Trie N} {τ : Type} [WriteTransaction τ] {F : Prog.Frame τ}

/-- A branch under a hash. -/
def BranchRow (N : ℕ) (k v : Bytes) : Prop := ∃ (hash : Hash) (node : BranchNodeCompact N), k = hash.1 ∧ v = node.encode

/-- **What a batched edit is made of** has the property. -/
structure Served (C : Prog.Closed τ) (T : Trie N) : Prop where
  insert : ∀ {k v}, BranchRow N k v → C.Holds (WriteTransaction.insert T.table k v)
  found : ∀ k, C.Holds (Prog.read fun tx : τ => (ReadTransaction.get tx T.table k).mapError MerkleError.storage)
  load : ∀ hash route, C.Holds (Prog.read fun tx : τ => T.load tx hash route)

section Closed

variable {C : Prog.Closed τ} (hT : Served C T)

include hT

lemma store_closed (node : BranchNodeCompact N) (route : List Nibble) :
    C.Holds (T.store node route : Prog MerkleError τ (RootRef N)) := by
  unfold store
  refine (Prog.Closed.ofExcept _).bind fun _ => (C.outcome (hT.insert ⟨_, node, rfl, rfl⟩)).bind fun r => ?_
  match r with
  | .ok () => exact C.pure _
  | .error .alreadyExists =>
    refine (hT.found _).bind fun found => ?_
    split_ifs
    · exact C.throw _
    · exact C.pure _
  | .error .full => exact C.throw _
  | .error (.invalidTableName _) => exact C.throw _
  | .error .invalidRange => exact C.throw _
  | .error (.keyTooLarge _ _) => exact C.throw _
  | .error (.valueTooLarge _ _) => exact C.throw _
  | .error (.poisoned _) => exact C.throw _
  | .error (.backend _) => exact C.throw _

lemma storeChildren_closed (pfx : List Nibble) (children : Nibble → RootRef N) (route : List Nibble) :
    C.Holds (T.storeChildren pfx children route : Prog MerkleError τ (RootRef N)) :=
  (Prog.Closed.ofExcept _).bind fun _ => store_closed hT _ _

lemma storeEdited_closed (edited : Edited N) (route : List Nibble) :
    C.Holds (T.storeEdited edited route : Prog MerkleError τ (RootRef N)) := by
  cases edited with
  | stored root => exact C.pure _
  | new pfx children => exact storeChildren_closed hT _ _ _

lemma build_closed : ∀ (fuel : ℕ) (leaves : List (LeafRef N)) (route : List Nibble),
    C.Holds (T.build fuel leaves route : Prog MerkleError τ (Edited N)) := by
  intro fuel
  induction fuel with
  | zero =>
    intro leaves route
    match leaves with
    | [] => exact C.pure _
    | [l] => exact C.pure _
    | _ :: _ :: _ => exact C.throw _
  | succ fuel ih =>
    intro leaves route
    match leaves with
    | [] => exact C.pure _
    | [l] => exact C.pure _
    | first :: next :: rest =>
      rw [build]
      split
      · exact C.throw _
      · refine (Prog.Closed.ofExcept _).bind fun childRoute => ?_
        refine (Prog.Closed.foldlM (fun children group => ?_) _ _).bind fun children =>
          (Prog.Closed.ofExcept _).bind fun _ => C.pure _
        match group with
        | [] => exact C.pure _
        | leaf :: rest =>
          exact (ih _ _).bind fun _ => (storeEdited_closed hT _ _).bind fun _ => C.pure _

lemma rebuild_closed (old : Option (LeafRef N)) (edits : List (Edit N)) (route : List Nibble) :
    C.Holds (T.rebuild old edits route : Prog MerkleError τ (Edited N)) := by
  unfold rebuild
  cases old with
  | none => exact build_closed hT _ _ _
  | some old =>
    simp only
    split_ifs
    · exact build_closed hT _ _ _
    · exact build_closed hT _ _ _

lemma collapse_closed (pfx : List Nibble) (edited : Nibble → Edited N) (childRoute : List Nibble) :
    C.Holds (T.collapse pfx edited childRoute : Prog MerkleError τ (Edited N)) := by
  unfold collapse
  split
  · exact C.pure _
  · split
    · exact C.pure _
    · exact (hT.load _ _).bind fun _ => C.pure _
    · exact C.pure _
  · refine (Prog.Closed.foldlM (fun children slot => ?_) _ _).bind fun _ => C.pure _
    exact (storeEdited_closed hT _ _).bind fun _ => C.pure _

lemma applyBranch_closed
    {applyChild : Edited N → List (Edit N) → List Nibble → Prog MerkleError τ (Edited N)}
    (h : ∀ e es r, C.Holds (applyChild e es r)) (hash? : Option Hash) (pfx : List Nibble)
    (children : Nibble → RootRef N) (edits : List (Edit N)) (route : List Nibble) :
    C.Holds (T.applyBranch applyChild hash? pfx children edits route) := by
  unfold applyBranch
  split_ifs
  · exact C.throw _
  · refine (Prog.Closed.foldlM (fun edited group => ?_) _ _).bind fun edited => ?_
    · match group with
      | [] => exact C.pure _
      | e :: rest => exact (h _ _ _).bind fun _ => C.pure _
    · split_ifs
      · cases hash? with
        | none => exact C.pure _
        | some hash => exact C.pure _
      · exact collapse_closed hT _ _ _

lemma applyAt_closed : ∀ (fuel : ℕ) (edited : Edited N) (edits : List (Edit N)) (route : List Nibble),
    C.Holds (T.applyAt fuel edited edits route : Prog MerkleError τ (Edited N)) := by
  intro fuel
  induction fuel with
  | zero => exact fun _ _ _ => C.throw _
  | succ fuel ih =>
    intro edited edits route
    match edited with
    | .stored .empty => exact rebuild_closed hT _ _ _
    | .stored (.leaf leaf) => exact rebuild_closed hT _ _ _
    | .stored (.branch hash) =>
      exact (hT.load _ _).bind fun node => applyBranch_closed hT (fun _ _ _ => ih _ _ _) _ _ _ _ _
    | .new pfx children => exact applyBranch_closed hT (fun _ _ _ => ih _ _ _) _ _ _ _ _

/-- **A batch has every property of its inserts and reads.** -/
theorem apply_closed (root : RootRef N) (edits : List (Edit N)) :
    C.Holds (T.apply root edits : Prog MerkleError τ (RootRef N)) :=
  (applyAt_closed hT _ _ _ _).bind fun _ => storeEdited_closed hT _ _

end Closed

lemma served_keeps (hT : Admits F T.table (BranchRow N)) : Served (.keeps F) T :=
  ⟨hT.insert, fun _ => Prog.Keeps.read _, fun _ _ => Prog.Keeps.read _⟩

/-- **A batch writes branches of the trie's table alone.** -/
theorem apply_keeps (hT : Admits F T.table (BranchRow N)) (root : RootRef N) (edits : List (Edit N)) :
    Prog.Keeps F (T.apply root edits : Prog MerkleError τ (RootRef N)) :=
  apply_closed (served_keeps hT) root edits

end Trie

end GolemDb.Merkle
