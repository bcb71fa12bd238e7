import GolemDb.Merkle.Flat

/-!
Reachability in a branch table. A reference leads to the children of its branch row, to their
children and so on. In a table that stores a tree every branch and every leaf of it is reachable
from its root, so a batch adds reachable branches alone (`apply_reachable`).
-/

namespace GolemDb.Merkle

open GolemDb.Lib GolemDb.Lib.Radix GolemDb.Storage

variable {N : ℕ}

/-- **A reference leads to another one** through the rows of branches. -/
inductive Reach (r : Rows) : RootRef N → RootRef N → Prop
  | refl (ref : RootRef N) : Reach r ref ref
  | step {hash : Hash} {bytes : Bytes} {node : BranchNodeCompact N} {slot : Nibble} {ref ref' : RootRef N}
      (hrow : r.get? hash.1 = some bytes) (hdecode : BranchNodeCompact.decode bytes = .ok node)
      (hchild : node.child slot = some ref) (h : Reach r ref ref') : Reach r (.branch hash) ref'

/-- The row under a key is a branch that the root leads to. -/
def RowReached (r : Rows) (root : RootRef N) (k : Bytes) : Prop :=
  ∃ hash : Hash, k = hash.1 ∧ Reach r root (.branch hash)

variable {r r' : Rows} {root ref : RootRef N}

lemma Reach.mono (h : Reach r root ref) (hr : ∀ k v, r.get? k = some v → r'.get? k = some v) : Reach r' root ref := by
  induction h with
  | refl ref => exact .refl ref
  | step hrow hdecode hchild _ ih => exact .step (hr _ _ hrow) hdecode hchild ih

lemma RowReached.mono {k : Bytes} (h : RowReached r root k) (hr : ∀ k v, r.get? k = some v → r'.get? k = some v) :
    RowReached r' root k :=
  let ⟨hash, hk, hreach⟩ := h
  ⟨hash, hk, hreach.mono hr⟩

namespace Trie

variable {T : Trie N} {pre : List Nibble} {kids : Nibble → Radix 16 (LeafRef N)} {t : Radix 16 (LeafRef N)}

/-- A stored branch leads to what its children lead to. -/
lemma reach_kid (hs : T.Stored r (.branch pre kids)) {slot : Nibble} (hne : kids slot ≠ .empty)
    (h : Reach r (T.ref (kids slot)) ref) : Reach r (T.ref (.branch pre kids)) ref := by
  obtain ⟨node, hof, hrow⟩ := hs _ (T.branches_branch.mpr (.inl rfl))
  have hchild : node.child slot = some (T.ref (kids slot)) := by
    rw [hof.child]
    exact if_neg (T.ref_ne_empty.mpr hne)
  exact .step hrow (decode_encode T.width_pos node) hchild h

/-- **The root of a stored tree leads to every branch of it.** -/
theorem reach_branch (hs : T.Stored r t) {b : Branch N} (hb : b ∈ T.branches t) :
    Reach r (T.ref t) (.branch (T.branchHash b)) := by
  induction t with
  | empty => cases hb
  | leaf l => cases hb
  | branch pre kids ih =>
    rcases T.branches_branch.mp hb with rfl | ⟨slot, hslot⟩
    · exact .refl _
    · refine reach_kid hs (fun hempty => ?_) (ih slot (hs.kid slot) hslot)
      rw [hempty] at hslot
      cases hslot

/-- **The root of a stored tree leads to every leaf of it.** -/
theorem reach_leaf (hs : T.Stored r t) {l : LeafRef N} (hl : l ∈ t.leaves) : Reach r (T.ref t) (.leaf l) := by
  induction t with
  | empty => cases hl
  | leaf l' =>
    obtain rfl := List.mem_singleton.mp hl
    exact .refl _
  | branch pre kids ih =>
    obtain ⟨slot, -, hslot⟩ := List.mem_flatMap.mp hl
    refine reach_kid hs (fun hempty => ?_) (ih slot (hs.kid slot) hslot)
    rw [hempty] at hslot
    cases hslot

variable {τ : Type} [WriteTransaction τ] [LawfulWrite τ] {P : Set Bytes} {B : Set (LeafRef N)}

/-- Rows that a stored tree added are reachable from its root. -/
lemma Grows.reached {tx tx' : τ} (h : T.Grows (T.branches t) tx tx') (hs : T.Stored (rows tx' T.table) t) {k v : Bytes}
    (hk : (rows tx' T.table).get? k = some v) (hnew : (rows tx T.table).get? k = none) :
    RowReached (rows tx' T.table) (T.ref t) k := by
  rcases h.fresh k v hk with hold | ⟨b, hb, node, -, hkey, -⟩
  · rw [hnew] at hold
    cases hold
  · exact ⟨T.branchHash b, hkey, reach_branch hs hb⟩

/-- **A branch table grew by the branches of a tree.** -/
structure RowsGrow (T : Trie N) (t : Radix 16 (LeafRef N)) (r r' : Rows) : Prop where
  kept : ∀ k v, r.get? k = some v → r'.get? k = some v
  fresh : ∀ k v, r'.get? k = some v → r.get? k = some v ∨ ∃ b ∈ T.branches t, k = (T.branchHash b).1

lemma Grows.rowsGrow {tx tx' : τ} (h : T.Grows (T.branches t) tx tx') :
    RowsGrow T t (rows tx T.table) (rows tx' T.table) := by
  refine ⟨h.kept, fun k v hk => ?_⟩
  rcases h.fresh k v hk with hk | ⟨b, hb, -, -, hkey, -⟩
  · exact .inl hk
  · exact .inr ⟨b, hb, hkey⟩

/-- **A batch adds no garbage**: every row it inserts is reachable from the root it returns. -/
theorem apply_reachable (hA : T.Assumes P B) {M : OrdMap (Arr N) Hash} {edits : List (Edit N)} {tx : τ}
    (hsound : T.Sound P B (rows tx T.table)) (hs : T.Stored (rows tx T.table) (refTree M))
    (hf : T.Fits P B (refTree (setAll M edits))) :
    ∃ root tx', Prog.Runs (T.apply (T.ref (refTree M)) edits) tx root tx' ∧
      ∀ k v, (rows tx' T.table).get? k = some v → (rows tx T.table).get? k = none →
        RowReached (rows tx' T.table) root k := by
  obtain ⟨tx', hrun, hstored, hgrows⟩ := apply_refTree hA hsound hs hf
  exact ⟨_, tx', hrun, fun k v => hgrows.reached hstored⟩

end Trie

end GolemDb.Merkle
