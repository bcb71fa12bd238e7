import GolemDb.Merkle.Apply
import GolemDb.Merkle.Raw

/-!
The trie on hostile storage. Nothing is assumed of the storage or the hash here: a row may hold
any bytes, and a branch may name itself as its child. Every node that is used was read by `load`,
which checks it against its route, so that routes grow, stay shorter than a path, and lead to the
leaves below them (`Fits`). From this no operation fails with `panic`, and the walk ends.
-/

namespace GolemDb.Merkle

open GolemDb.Lib GolemDb.Lib.Prog GolemDb.Storage

variable {N : ℕ}

/-! ### What the routing check promises -/

section Fits

lemma isPrefix_snoc {α : Type} {r p : List α} (h : r <+: p) (hlt : r.length < p.length) :
    r ++ [p[r.length]] <+: p := by
  obtain ⟨t, rfl⟩ := h
  cases t with
  | nil => simp at hlt
  | cons x t => exact ⟨t, by simp⟩

/-- An error that a caller can receive. -/
def Returned (e : MerkleError) : Prop := e ≠ .panic

/-- The reference may stand below the route: a leaf lies below it, a branch has a nibble left. -/
def RootRef.Fits (route : List Nibble) : RootRef N → Prop
  | .empty => True
  | .leaf l => route <+: l.key
  | .branch _ => route.length < 2 * N

namespace BranchNodeCompact

/-- The node leaves a nibble of every path, and its children stand below their slots. -/
structure Fits (node : BranchNodeCompact N) (route : List Nibble) : Prop where
  depth : (route ++ node.unpackPrefix).length < 2 * N
  children : ∀ slot, (node.children slot).Fits (route ++ node.unpackPrefix ++ [slot])

lemma new_meets (pfx : Bytes) (pfxLen : UInt8) (state tree : BitVec 16) (hashes : List Hash)
    (paths : List (Arr N)) : Meets Returned (fun _ => True) (new pfx pfxLen state tree hashes paths) := by
  unfold new
  split_ifs <;> first | trivial | exact fun h => by cases h

lemma decode_meets (bytes : Bytes) :
    Meets Returned (fun _ => True) (decode bytes : Except MerkleError (BranchNodeCompact N)) := by
  unfold decode
  cases bytes with
  | nil => exact fun h => by cases h
  | cons b bs =>
    simp only
    split_ifs
    · exact fun h => by cases h
    · exact fun h => by cases h
    · exact new_meets ..

lemma isPrefix_of_leafFits {route : List Nibble} {slot : Nibble} {path : Bytes}
    (h : leafFits route slot path = true) : route ++ [slot] <+: nibbles path := by
  rw [leafFits, Bool.and_eq_true, List.all_eq_true, beq_iff_eq, nibble_eq] at h
  obtain ⟨hall, hslot⟩ := h
  obtain ⟨hlt, hs⟩ := List.getElem?_eq_some_iff.mp hslot
  have hroute : (nibbles path).take route.length = route := by
    refine List.ext_getElem? fun i => ?_
    rw [List.getElem?_take]
    split_ifs with hi
    · have := hall i (List.mem_range.mpr hi)
      rwa [beq_iff_eq, nibble_eq] at this
    · rw [List.getElem?_eq_none (by omega)]
  refine ⟨(nibbles path).drop (route.length + 1), ?_⟩
  conv_rhs => rw [← List.take_append_drop route.length (nibbles path), hroute,
    List.drop_eq_getElem_cons hlt, hs]
  simp

/-- A node that passes the check fits its route. -/
lemma validateAt_meets (node : BranchNodeCompact N) (route : List Nibble) :
    Meets Returned (fun _ => node.Fits route) (node.validateAt route) := by
  unfold validateAt
  simp only
  split_ifs with hdepth hlast hany
  · exact fun h => by cases h
  · exact fun h => by cases h
  · exact fun h => by cases h
  · refine ⟨by omega, fun slot => ?_⟩
    have hslot : node.misrouted (route ++ node.unpackPrefix) slot = false := by
      simpa using fun h => hany (List.any_eq_true.mpr ⟨slot, List.mem_finRange slot, h⟩)
    rw [misrouted] at hslot
    rw [BranchNodeCompact.children]
    cases hc : node.child slot with
    | none => trivial
    | some root =>
      cases root with
      | empty => trivial
      | leaf leaf =>
        rw [hc] at hslot
        exact isPrefix_of_leafFits (by simpa using hslot)
      | branch hash =>
        -- a branch in a slot sets the tree mask, so a nibble is left below the slot
        have htree : hasSlot node.treeMask slot = true := by
          by_contra ht
          unfold child at hc
          split_ifs at hc
          cases hc
        have hne : node.treeMask ≠ 0#16 := by
          intro h
          rw [h, hasSlot_zero] at htree
          cases htree
        have hleft : (route ++ node.unpackPrefix).length + 1 ≠ N * 2 := fun h => hlast ⟨h, hne⟩
        show (route ++ node.unpackPrefix ++ [slot]).length < 2 * N
        rw [List.length_append, List.length_singleton]
        omega

end BranchNodeCompact

/-- A subtrie in progress may stand below the route. -/
def Edited.Fits (route : List Nibble) : Edited N → Prop
  | .stored root => root.Fits route
  | .new pfx children => (route ++ pfx).length < 2 * N ∧ ∀ slot, (children slot).Fits (route ++ pfx ++ [slot])

end Fits

namespace Trie

variable {τ : Type} (T : Trie N)

section Read

variable [ReadTransaction τ]

/-- **What is read at a route fits it.** -/
theorem load_meets (tx : τ) (hash : Hash) (route : List Nibble) :
    Meets Returned (fun node => node.Fits route) (T.load tx hash route) := by
  unfold load
  refine (Meets.mapError fun e h => by cases h).bind fun row _ => ?_
  cases row with
  | none => exact fun h => by cases h
  | some bytes =>
    refine (BranchNodeCompact.decode_meets bytes).bind fun node _ => ?_
    split_ifs
    · exact fun h => by cases h
    · exact (node.validateAt_meets route).bind fun _ hfits => hfits

include T in
lemma fits_root (root : RootRef N) : root.Fits [] := by
  have := T.width_pos
  cases root with
  | empty => trivial
  | leaf leaf => exact List.nil_prefix
  | branch hash => show 0 < 2 * N; omega

/-- **A point read returns**: its route follows the path and grows with each branch. -/
theorem getLoop_meets (tx : τ) (path : Arr N) :
    ∀ (fuel : ℕ) (root : RootRef N) (route : List Nibble), root.Fits route →
      route <+: nibbles path.1 → 2 * N < fuel + route.length →
      Meets Returned (fun _ => True) (T.getLoop tx path fuel root route) := by
  intro fuel
  induction fuel with
  | zero =>
    intro root route _ hroute hfuel
    have := hroute.length_le
    rw [nibbles_length, path.2] at this
    omega
  | succ fuel ih =>
    intro root route hfits hroute hfuel
    cases root with
    | empty => trivial
    | leaf leaf => trivial
    | branch hash =>
      refine (T.load_meets tx hash route).bind fun node hnode => ?_
      simp only
      split_ifs with hpre
      · have hlt : (route ++ node.unpackPrefix).length < (nibbles path.1).length := by
          rw [nibbles_length, path.2]
          exact hnode.depth
        rw [index_eq (List.getElem?_eq_getElem hlt), ok_bind]
        refine ih _ _ (hnode.children _) (isPrefix_snoc hpre hlt) ?_
        simp
        omega
      · trivial

end Read

/-! ### Single edits -/

section Edit

variable [WriteTransaction τ]

lemma storeChildren_post (pfx : List Nibble) (children : Nibble → RootRef N) (route : List Nibble) :
    Post Returned (fun _ => True) (T.storeChildren pfx children route : Prog MerkleError τ (RootRef N)) := by
  refine (Post.ofExcept (BranchNodeCompact.new_meets ..)).bind fun node _ => ?_
  refine (Post.ofExcept (node.validateAt_meets route)).bind fun _ _ => ?_
  refine (Post.outcome _).bind fun r _ => ?_
  cases r with
  | ok u => exact Post.pure trivial
  | error e =>
    cases e with
    | alreadyExists =>
      refine (Post.read fun s => Meets.mapError fun e h => by cases h).bind fun found _ => ?_
      split_ifs
      · exact Post.throw fun h => by cases h
      · exact Post.pure trivial
    | _ => exact Post.throw fun h => by cases h

lemma nibbles_arr_length (a : Arr N) : (nibbles a.1).length = 2 * N := by rw [nibbles_length, a.2]

/-- Two leaves below one route part before the end of their paths. -/
theorem editLeaf_post {old : LeafRef N} {target : Arr N} (replacement : Option (LeafRef N))
    {route : List Nibble} (hold : route <+: nibbles old.path.1) (htarget : route <+: nibbles target.1) :
    Post Returned (fun _ => True)
      (T.editLeaf old target replacement route : Prog MerkleError τ (RootRef N)) := by
  unfold editLeaf
  split_ifs with heq
  · exact Post.pure trivial
  · cases replacement with
    | none => exact Post.pure trivial
    | some new =>
      have hne : nibbles old.path.1 ≠ nibbles target.1 := fun h => heq (Subtype.ext (nibbles_inj h))
      obtain ⟨d, hfd, hlo, hhi, -, -⟩ := firstDiff_spec route.length (nibbles_arr_length old.path)
        (nibbles_arr_length target)
        (by rw [← List.prefix_iff_eq_take.mp hold, ← List.prefix_iff_eq_take.mp htarget]) hne
      rw [mul_comm] at hfd
      have ha : d < (nibbles old.path.1).length := by rw [nibbles_arr_length]; exact hhi
      have hb : d < (nibbles target.1).length := by rw [nibbles_arr_length]; exact hhi
      simp only [hfd]
      refine Post.of_ok (index_eq (List.getElem?_eq_getElem ha)) ?_
      refine Post.of_ok (index_eq (List.getElem?_eq_getElem hb)) ?_
      refine Post.of_ok (slice_eq hlo hb.le) ?_
      exact T.storeChildren_post _ _ _

/-- The prefix is cut inside, at a depth that the new path has. -/
theorem splitBranch_post (node : BranchNodeCompact N) {pfx : List Nibble} (new : LeafRef N) {shared : ℕ}
    {route : List Nibble} (hshared : shared < pfx.length) (hdepth : (route ++ pfx).length < 2 * N) :
    Post Returned (fun _ => True)
      (T.splitBranch node pfx new shared route : Prog MerkleError τ (RootRef N)) := by
  have hnew : route.length + shared < (nibbles new.path.1).length := by
    rw [nibbles_arr_length]
    rw [List.length_append] at hdepth
    omega
  unfold splitBranch
  refine Post.of_ok (slice_eq (Nat.zero_le _) hshared) ?_
  refine Post.of_ok (slice_eq hshared le_rfl) ?_
  refine (T.storeChildren_post _ _ _).bind fun old _ => ?_
  refine Post.of_ok (index_eq (List.getElem?_eq_getElem hshared)) ?_
  refine Post.of_ok (index_eq (List.getElem?_eq_getElem hnew)) ?_
  refine Post.of_ok (slice_eq (Nat.zero_le _) hshared.le) ?_
  exact T.storeChildren_post _ _ _

lemma rebuildBranch_post (pfx : List Nibble) (children : Nibble → RootRef N) (route : List Nibble) :
    Post Returned (fun _ => True)
      (T.rebuildBranch pfx children route : Prog MerkleError τ (RootRef N)) := by
  unfold rebuildBranch
  split
  · split
    · refine (Post.read fun tx => T.load_meets tx _ _).bind fun child _ => ?_
      exact T.storeChildren_post _ _ _
    · exact Post.pure trivial
  · exact T.storeChildren_post _ _ _

/-- **A single edit returns**: the route follows the target and grows with each branch. -/
theorem edit_post (target : Arr N) (replacement : Option (LeafRef N)) :
    ∀ (fuel : ℕ) (root : RootRef N) (route : List Nibble), root.Fits route →
      route <+: nibbles target.1 → 2 * N < fuel + route.length →
      Post Returned (fun _ => True)
        (T.edit target replacement fuel root route : Prog MerkleError τ (RootRef N)) := by
  intro fuel
  induction fuel with
  | zero =>
    intro root route _ hroute hfuel
    have := hroute.length_le
    rw [nibbles_arr_length] at this
    omega
  | succ fuel ih =>
    intro root route hfits hroute hfuel
    cases root with
    | empty => exact Post.pure trivial
    | leaf leaf => exact T.editLeaf_post replacement hfits hroute
    | branch hash =>
      rw [edit, editBranch]
      refine (Post.read fun tx => T.load_meets tx hash route).bind fun node hnode => ?_
      refine Post.of_ok (slice_eq hroute.length_le le_rfl) ?_
      rw [List.take_length]
      obtain ⟨hle, htake, -⟩ := zip_takeWhile_spec node.unpackPrefix ((nibbles target.1).drop route.length)
      by_cases hshared : ((node.unpackPrefix.zip ((nibbles target.1).drop route.length)).takeWhile
          fun e => e.1 = e.2).length = node.unpackPrefix.length
      · -- the target follows the whole prefix
        have hpre : route ++ node.unpackPrefix <+: nibbles target.1 := by
          rw [hshared, List.take_length] at htake
          conv_rhs => rw [← List.take_append_drop route.length (nibbles target.1),
            ← List.prefix_iff_eq_take.mp hroute]
          rw [List.prefix_append_right_inj, List.prefix_iff_eq_take]
          exact htake
        have hlt : (route ++ node.unpackPrefix).length < (nibbles target.1).length := by
          rw [nibbles_arr_length]
          exact hnode.depth
        rw [if_neg (not_not.mpr hshared)]
        refine Post.of_ok (index_eq (List.getElem?_eq_getElem hlt)) ?_
        refine (ih _ _ (hnode.children _) (isPrefix_snoc hpre hlt) ?_).bind fun changed _ => ?_
        · have hgrow : route.length ≤ (route ++ node.unpackPrefix).length := by simp
          rw [List.length_append, List.length_singleton]
          omega
        · split_ifs
          · exact Post.pure trivial
          · exact T.rebuildBranch_post _ _ _
      · rw [if_pos hshared]
        cases replacement with
        | none => exact Post.pure trivial
        | some new => exact T.splitBranch_post node new (lt_of_le_of_ne hle hshared) hnode.depth

end Edit

/-! ### Batched edits -/

section Apply

open Radix

variable [WriteTransaction τ]

lemma storeEdited_post (edited : Edited N) (route : List Nibble) :
    Post Returned (fun _ => True) (T.storeEdited edited route : Prog MerkleError τ (RootRef N)) := by
  cases edited with
  | stored root => exact Post.pure trivial
  | new pfx children => exact T.storeChildren_post _ _ _

/-- **Building returns**: several leaves below a route part before the end of their paths. -/
theorem build_post :
    ∀ (fuel n : ℕ) (route : List Nibble) (ls : List (LeafRef N)), route.length + n = 2 * N → n ≤ fuel →
      ls.Pairwise (fun a b => a.key < b.key) → (∀ l ∈ ls, Below n route l.key) →
      Post Returned (fun _ => True) (T.build fuel ls route : Prog MerkleError τ (Edited N)) := by
  intro fuel
  induction fuel with
  | zero =>
    intro n route ls hlen hn hsort hb
    match ls with
    | [] => exact Post.pure trivial
    | [l] => exact Post.pure trivial
    | a :: b :: rest =>
      obtain ⟨d, j, -, hlo, hj, -⟩ := canon_findLeaf_split LeafRef.key hlen hsort hb
      omega
  | succ fuel ih =>
    intro n route ls hlen hn hsort hb
    match ls with
    | [] => exact Post.pure trivial
    | [l] => exact Post.pure trivial
    | first :: next :: rest =>
      obtain ⟨d, j, hfd, hlo, hj, hdl, hbelow, -⟩ := canon_findLeaf_split LeafRef.key hlen hsort hb
      set ls := first :: next :: rest with hls
      obtain ⟨vs, -, -, hchunks, hiff⟩ := chunks_below (f := LeafRef.path) (j := j)
        (r := first.key.take d) (by omega) (hsort.imp fun h => nibbles_lt_iff.mp h) hbelow
      rw [hdl] at hchunks hiff
      have hfirst : (nibbles first.path.1).length = 2 * N := nibbles_arr_length _
      rw [hls, build, ← hls, mul_comm N 2]
      simp only [show firstDiff (nibbles first.path.1)
        (nibbles ((next :: rest).getLast (List.cons_ne_nil _ _)).path.1) route.length (2 * N) = some d
        from hfd]
      refine Post.of_ok (slice_eq (Nat.zero_le d) (by omega)) ?_
      refine (Post.foldlM (R := fun _ => True) _ _ ?_ trivial).bind fun children _ => ?_
      · intro group hgroup children _
        rw [hchunks] at hgroup
        obtain ⟨s, -, rfl⟩ := List.mem_map.mp hgroup
        have hmem : ∀ l ∈ ls.filter (fun l => nibbleAt l.path.1 d = s),
            l ∈ ls ∧ nibbleAt l.path.1 d = s := fun l hl => by simpa using List.mem_filter.mp hl
        have hsorted := hsort.filter fun l => nibbleAt l.path.1 d = s
        generalize ls.filter (fun l => nibbleAt l.path.1 d = s) = group at hmem hsorted
        cases group with
        | nil => exact Post.pure trivial
        | cons l group =>
          simp only [buildGroup, List.drop_zero]
          rw [show ((nibbles first.path.1).take d).length = d from hdl, (hmem l (by simp)).2]
          refine (ih j (first.key.take d ++ [s]) (l :: group) (by simp [hdl]; omega) (by omega)
            hsorted fun x hx => (hiff s x (hmem x hx).1).mp (hmem x hx).2).bind fun child _ => ?_
          refine (T.storeEdited_post _ _).bind fun root _ => ?_
          exact Post.pure trivial
      · refine Post.of_ok (slice_eq hlo (by omega)) ?_
        exact Post.pure trivial

section Batch

variable {n : ℕ} {route : List Nibble} {edits : List (Edit N)}

/-- An empty or single-leaf subtrie and edits below the route are rebuilt. -/
lemma rebuild_post {old : Option (LeafRef N)} (hold : ∀ o, old = some o → route <+: o.key)
    (hlen : route.length + n = 2 * N) (hsort : edits.Pairwise fun a b => a.1 < b.1)
    (hb : ∀ e ∈ edits, Below n route (nibbles e.1.1)) :
    Post Returned (fun _ => True) (T.rebuild old edits route : Prog MerkleError τ (Edited N)) := by
  have hset : ∀ l ∈ setLeaves edits, Below n route l.key := fun l hl => hb _ (mem_setLeaves.mp hl)
  have hplain : Post Returned (fun _ => True)
      (T.build (2 * N + 1) (setLeaves edits) route : Prog MerkleError τ (Edited N)) :=
    T.build_post _ n route _ hlen (by omega) (setLeaves_sorted hsort) hset
  unfold rebuild
  cases old with
  | none => exact hplain
  | some o =>
    simp only
    split_ifs with hall
    · have hne : ∀ l ∈ setLeaves edits, l.path ≠ o.path := by
        intro l hl he
        have := List.all_eq_true.mp hall _ (mem_setLeaves.mp hl)
        simp [he] at this
      refine T.build_post _ n route _ hlen (by omega) (insertLeaf_sorted (setLeaves_sorted hsort) hne) ?_
      intro l hl
      rw [(List.perm_insertionSort _ _).mem_iff, List.mem_append, List.mem_singleton] at hl
      rcases hl with hl | rfl
      · exact hset l hl
      · have := Below.of_isPrefix (nibbles_arr_length l.path) (hold l rfl)
        rwa [show 2 * N - route.length = n by omega] at this
    · exact hplain

/-- The children after the cut of a prefix stand below what is kept of it. -/
lemma splitPrefix_fits {pfx : List Nibble} {children : Nibble → RootRef N}
    (hchildren : ∀ slot, (children slot).Fits (route ++ pfx ++ [slot]))
    (hdepth : (route ++ pfx).length < 2 * N) {kept : ℕ} {split : Nibble → Edited N}
    (h : splitPrefix pfx children edits route.length = (kept, split)) :
    ∀ slot, (split slot).Fits (route ++ pfx.take kept ++ [slot]) := by
  unfold splitPrefix at h
  simp only at h
  split at h
  · rename_i hk
    obtain ⟨rfl, rfl⟩ := Prod.mk.inj h
    rw [List.take_of_length_le (List.getElem?_eq_none_iff.mp hk)]
    exact hchildren
  · rename_i a hk
    obtain ⟨rfl, rfl⟩ := Prod.mk.inj h
    intro slot
    by_cases hs : slot = a
    · subst hs
      rw [Function.update_self]
      generalize (((edits.filter fun e => e.2.isSome).map fun e =>
        matched pfx e.1.1 route.length).min?).getD pfx.length = kept at hk
      have hjoin : route ++ pfx.take kept ++ [slot] ++ pfx.drop (kept + 1) = route ++ pfx := by
        rw [List.append_assoc, List.append_assoc, List.append_cancel_left_eq]
        conv_rhs => rw [← List.take_append_drop kept pfx]
        obtain ⟨hlt, hx⟩ := List.getElem?_eq_some_iff.mp hk
        rw [List.drop_eq_getElem_cons hlt, hx]
        rfl
      rw [Edited.Fits, hjoin]
      exact ⟨hdepth, hchildren⟩
    · rw [Function.update_of_ne hs]
      trivial

lemma collapse_post (pfx : List Nibble) (edited : Nibble → Edited N) (childRoute : List Nibble) :
    Post Returned (fun _ => True) (T.collapse pfx edited childRoute : Prog MerkleError τ (Edited N)) := by
  unfold collapse
  split
  · exact Post.pure trivial
  · split
    · exact Post.pure trivial
    · refine (Post.read fun tx => T.load_meets tx _ _).bind fun child _ => ?_
      exact Post.pure trivial
    · exact Post.pure trivial
  · refine (Post.foldlM (R := fun _ => True) _ _ ?_ trivial).bind fun children _ => ?_
    · intro slot _ children _
      refine (T.storeEdited_post _ _).bind fun root _ => ?_
      exact Post.pure trivial
    · exact Post.pure trivial

/-- **A batch on a branch returns**: every group edits the subtrie of its own slot, below the
kept prefix. -/
theorem applyBranch_post
    {applyChild : Edited N → List (Edit N) → List Nibble → Prog MerkleError τ (Edited N)}
    (hash? : Option Hash) {pfx : List Nibble} {children : Nibble → RootRef N}
    (hlen : route.length + n = 2 * N) (hdepth : (route ++ pfx).length < 2 * N)
    (hchildren : ∀ slot, (children slot).Fits (route ++ pfx ++ [slot]))
    (hsort : edits.Pairwise fun a b => a.1 < b.1) (hb : ∀ e ∈ edits, Below n route (nibbles e.1.1))
    (hchild : ∀ (j : ℕ) (route' : List Nibble) (e : Edited N) (group : List (Edit N)), j < n →
      route'.length + j = 2 * N → e.Fits route' → group.Pairwise (fun a b => a.1 < b.1) →
      (∀ e ∈ group, Below j route' (nibbles e.1.1)) →
      Post Returned (fun _ => True) (applyChild e group route')) :
    Post Returned (fun _ => True) (T.applyBranch applyChild hash? pfx children edits route) := by
  unfold applyBranch
  rw [List.length_append] at hdepth
  rw [if_neg (by omega)]
  rcases hsp : splitPrefix pfx children edits route.length with ⟨kept, split⟩
  have hsplit := splitPrefix_fits hchildren (by rw [List.length_append]; exact hdepth) hsp
  simp only
  set pre := pfx.take kept with hpre
  have hpl : pre.length ≤ pfx.length := by
    rw [hpre, List.length_take]
    omega
  obtain ⟨j, hj⟩ : ∃ j, (route ++ pre).length + (j + 1) = 2 * N :=
    ⟨2 * N - (route.length + pre.length) - 1, by rw [List.length_append]; omega⟩
  rw [following_eq hsort hb]
  set edits' := edits.filter fun e => decide (pre <+: (nibbles e.1.1).drop route.length) with hedits'
  have hb' : ∀ e ∈ edits', Below (j + 1) (route ++ pre) (nibbles e.1.1) := by
    intro e he
    obtain ⟨h1, h2⟩ := List.mem_filter.mp he
    rw [List.length_append] at hj
    exact (hb e h1).follow (by omega) (of_decide_eq_true h2)
  obtain ⟨vs, hvs, hmem, hchunks, hiff⟩ := chunks_below (f := Prod.fst) hj (hsort.filter _) hb'
  rw [hchunks]
  refine (Post.foldlM_slots _ split vs hvs ?_ split fun _ _ => rfl).bind fun edited _ => ?_
  · intro s hs acc hacc
    obtain ⟨x, hx, hxs⟩ := (hmem s).mp hs
    obtain ⟨y, tail, hgr, hy⟩ := filter_eq_cons
      (p := fun e : Edit N => nibbleAt e.1.1 (route ++ pre).length = s) hx (by simpa using hxs)
    have hslot : nibbleAt y.1.1 (route ++ pre).length = s := by simpa using hy
    have hin : ∀ e ∈ y :: tail, e ∈ edits' ∧ nibbleAt e.1.1 (route ++ pre).length = s := by
      intro e he
      rw [← hgr] at he
      obtain ⟨h1, h2⟩ := List.mem_filter.mp he
      exact ⟨h1, of_decide_eq_true h2⟩
    have hsorted := (hsort.filter fun e => decide (pre <+: (nibbles e.1.1).drop route.length)).filter
      fun e => nibbleAt e.1.1 (route ++ pre).length = s
    rw [← hedits', hgr] at hsorted
    rw [hgr, applyGroup, hslot]
    refine (hchild j (route ++ pre ++ [s]) (acc s) (y :: tail) ?_ ?_ (hacc ▸ hsplit s) hsorted
      fun e he => (hiff s e (hin e he).1).mp (hin e he).2).bind fun child _ => ?_
    · rw [List.length_append] at hj
      omega
    · rw [List.length_append, List.length_singleton]
      omega
    · exact Post.pure fun z hz => Function.update_of_ne hz _ _
  · split_ifs
    · cases hash? with
      | none => exact Post.pure trivial
      | some hash => exact Post.pure trivial
    · exact T.collapse_post _ _ _

end Batch

/-- **A batch on a subtrie returns.** -/
theorem applyAt_post :
    ∀ (fuel n : ℕ) (route : List Nibble) (e : Edited N) (edits : List (Edit N)), n < fuel →
      route.length + n = 2 * N → e.Fits route → edits.Pairwise (fun a b => a.1 < b.1) →
      (∀ e ∈ edits, Below n route (nibbles e.1.1)) →
      Post Returned (fun _ => True) (T.applyAt fuel e edits route : Prog MerkleError τ (Edited N)) := by
  intro fuel
  induction fuel with
  | zero => intro n route e edits hn; omega
  | succ fuel ih =>
    intro n route e edits hn hlen hfits hsort hb
    have hchild : ∀ (j : ℕ) (route' : List Nibble) (e : Edited N) (group : List (Edit N)), j < n → _ :=
      fun j route' e group hj => ih j route' e group (by omega)
    cases e with
    | new pfx children => exact T.applyBranch_post none hlen hfits.1 hfits.2 hsort hb hchild
    | stored root =>
      cases root with
      | empty => exact T.rebuild_post (fun o ho => by cases ho) hlen hsort hb
      | leaf leaf =>
        refine T.rebuild_post (fun o ho => ?_) hlen hsort hb
        cases ho
        exact hfits
      | branch hash =>
        refine (Post.read fun tx => T.load_meets tx hash route).bind fun node hnode => ?_
        exact T.applyBranch_post (some hash) hlen hnode.depth hnode.children hsort hb hchild

/-- **A batch returns**, whatever the root, the storage and the edits. -/
theorem apply_post (root : RootRef N) (edits : List (Edit N)) :
    Post Returned (fun _ => True) (T.apply root edits : Prog MerkleError τ (RootRef N)) := by
  refine (T.applyAt_post (2 * N + 1) (2 * N) [] (.stored root) (normalize edits) (by omega) (by simp)
    (T.fits_root root) (normalize_sorted edits) fun e _ => ?_).bind fun edited _ => ?_
  · exact ⟨nibbles e.1.1, nibbles_arr_length e.1, rfl⟩
  · exact T.storeEdited_post _ _

end Apply

/-! ### The walk -/

section Walk

variable [ReadTransaction τ]

/-- A reference that waits on the stack. -/
structure Waiting (e : RootRef N × List Nibble) : Prop where
  ne_empty : e.1 ≠ .empty
  fits : e.1.Fits e.2

/-- All that a walk has left to visit fits its route. -/
def Walk.Ready (w : Walk N) : Prop := ∀ e ∈ w.stack, Waiting e

/-- What the walk has left: a reference outweighs any sixteen below it. -/
def Walk.weight (w : Walk N) : ℕ := (w.stack.map fun e => 17 ^ (2 * N + 1 - e.2.length)).sum

/-- What one call of the iterator may do: end, end with an error, or yield a leaf and have less
left to visit. -/
def Walk.Advances (w : Walk N) : Option (Except MerkleError (LeafRef N)) × Walk N → Prop
  | (none, w') => w'.stack = []
  | (some (.error e), w') => Returned e ∧ w'.stack = []
  | (some (.ok _), w') => w'.Ready ∧ w'.weight < w.weight

lemma Walk.Advances.mono {w₁ w : Walk N} {r : Option (Except MerkleError (LeafRef N)) × Walk N}
    (h : w₁.Advances r) (hle : w₁.weight ≤ w.weight) : w.Advances r := by
  match r with
  | (none, w') => exact h
  | (some (.error e), w') => exact h
  | (some (.ok l), w') => exact ⟨h.1, lt_of_lt_of_le h.2 hle⟩

section Pushed

variable {node : BranchNodeCompact N} {route : List Nibble}

lemma mem_pushed {e : RootRef N × List Nibble} :
    e ∈ pushed node route ↔ ∃ slot, node.child slot = some e.1 ∧ e.2 = route ++ [slot] := by
  simp only [pushed, List.mem_filterMap, List.mem_finRange, true_and, Option.map_eq_some_iff]
  constructor
  · rintro ⟨slot, child, hc, rfl⟩
    exact ⟨slot, hc, rfl⟩
  · rintro ⟨slot, hc, he⟩
    exact ⟨slot, e.1, hc, by rw [← he]⟩

lemma child_ne_empty {slot : Nibble} {root : RootRef N} (h : node.child slot = some root) :
    root ≠ .empty := by
  rintro rfl
  unfold BranchNodeCompact.child at h
  split_ifs at h <;> cases h

lemma pushed_waiting (h : node.Fits route) :
    ∀ e ∈ pushed node (route ++ node.unpackPrefix), Waiting e ∧ route.length < e.2.length := by
  intro e he
  obtain ⟨slot, hc, hroute⟩ := mem_pushed.mp he
  have hfits := h.children slot
  rw [BranchNodeCompact.children, hc, Option.getD_some, ← hroute] at hfits
  refine ⟨⟨child_ne_empty hc, hfits⟩, ?_⟩
  rw [hroute, List.length_append, List.length_append, List.length_singleton]
  omega

/-- A branch has children to push. -/
lemma pushed_ne_nil (node : BranchNodeCompact N) (route : List Nibble) : pushed node route ≠ [] := by
  have hpos : 0 < countOnes node.stateMask := lt_of_lt_of_le (by omega) node.two_le
  obtain ⟨slot, -, hs⟩ := List.countP_pos_iff.mp hpos
  obtain ⟨root, hc⟩ : ∃ root, node.child slot = some root := by
    unfold BranchNodeCompact.child
    rw [dif_pos hs]
    split_ifs
    · exact ⟨_, rfl⟩
    · exact ⟨_, rfl⟩
  exact List.ne_nil_of_mem (mem_pushed.mpr ⟨slot, hc, rfl⟩ : (root, route ++ [slot]) ∈ _)

/-- The children of a branch weigh less than the branch. -/
lemma pushed_weight (h : node.Fits route) (stack : List (RootRef N × List Nibble)) (root : RootRef N) :
    Walk.weight ⟨pushed node (route ++ node.unpackPrefix) ++ stack⟩
      < Walk.weight ⟨(root, route) :: stack⟩ := by
  have hdepth := h.depth
  rw [List.length_append] at hdepth
  have hcount : (pushed node (route ++ node.unpackPrefix)).length ≤ 16 :=
    (List.length_filterMap_le _ _).trans (by simp)
  have heach : ∀ x ∈ (pushed node (route ++ node.unpackPrefix)).map fun e => 17 ^ (2 * N + 1 - e.2.length),
      x ≤ 17 ^ (2 * N - route.length) := by
    intro x hx
    obtain ⟨e, he, rfl⟩ := List.mem_map.mp hx
    have := (pushed_waiting h e he).2
    exact Nat.pow_le_pow_right (by omega) (by omega)
  have hsum := List.sum_le_card_nsmul _ _ heach
  rw [List.length_map, smul_eq_mul] at hsum
  have hpow : 17 ^ (2 * N + 1 - route.length) = 17 * 17 ^ (2 * N - route.length) := by
    rw [show 2 * N + 1 - route.length = 2 * N - route.length + 1 by omega, pow_succ, mul_comm]
  have hpos : 0 < 17 ^ (2 * N - route.length) := by positivity
  have h16 := Nat.mul_le_mul_right (17 ^ (2 * N - route.length)) hcount
  simp only [Walk.weight, List.map_append, List.map_cons, List.sum_append, List.sum_cons]
  rw [hpow]
  omega

end Pushed

/-- **One call of the iterator returns**: the branches it opens lie below one another. -/
theorem nextLoop_advances (tx : τ) :
    ∀ (fuel : ℕ) (w : Walk N), w.Ready → 1 ≤ fuel →
      (∀ e ∈ w.stack.head?, 2 * N < fuel + e.2.length) → w.Advances (Walk.nextLoop T tx fuel w) := by
  intro fuel
  induction fuel with
  | zero => intro w _ h; omega
  | succ fuel ih =>
    rintro ⟨stack⟩ hready - hfuel
    match stack with
    | [] => exact rfl
    | (.empty, route) :: stack => exact absurd rfl (hready _ (List.mem_cons_self ..)).ne_empty
    | (.leaf leaf, route) :: stack =>
      refine ⟨fun e he => hready e (List.mem_cons_of_mem _ he), ?_⟩
      simp only [Walk.weight, List.map_cons, List.sum_cons]
      have : 0 < 17 ^ (2 * N + 1 - route.length) := by positivity
      omega
    | (.branch hash, route) :: stack =>
      have hload := T.load_meets tx hash route
      have hroute : route.length < 2 * N := (hready _ (List.mem_cons_self ..)).fits
      rw [Walk.nextLoop]
      cases hl : T.load tx hash route with
      | error e =>
        rw [hl] at hload
        exact ⟨hload, rfl⟩
      | ok node =>
        rw [hl] at hload
        have hfuel := hfuel (.branch hash, route) rfl
        refine (ih _ ?_ (by simp only at hfuel; omega) ?_).mono (pushed_weight hload stack _).le
        · intro e he
          rcases List.mem_append.mp he with he | he
          · exact (pushed_waiting hload e he).1
          · exact hready e (List.mem_cons_of_mem _ he)
        · intro e he
          obtain ⟨x, rest, hx⟩ := List.exists_cons_of_ne_nil
            (pushed_ne_nil node (route ++ node.unpackPrefix))
          have hxw := pushed_waiting hload x (by rw [hx]; exact List.mem_cons_self ..)
          simp only [hx, List.cons_append, List.head?_cons, Option.mem_def, Option.some.injEq] at he
          subst he
          simp only at hfuel
          omega

lemma next_advances (tx : τ) {w : Walk N} (h : w.Ready) : w.Advances (Walk.next T tx w) :=
  T.nextLoop_advances tx _ w h (by omega) fun e _ => by omega

lemma collect_nil (tx : τ) (fuel : ℕ) : Walk.collect T tx fuel ⟨[]⟩ = [] := by
  cases fuel <;> rfl

/-- The items of a walk that has ended: leaves, and at most one error, the last item. -/
def Finished (items : List (Except MerkleError (LeafRef N))) : Prop :=
  ∃ leaves : List (LeafRef N), items = leaves.map .ok ∨
    ∃ e, Returned e ∧ items = leaves.map .ok ++ [.error e]

lemma Finished.cons {items : List (Except MerkleError (LeafRef N))} (h : Finished items)
    (leaf : LeafRef N) : Finished (.ok leaf :: items) := by
  obtain ⟨leaves, rfl | ⟨e, he, rfl⟩⟩ := h
  · exact ⟨leaf :: leaves, .inl rfl⟩
  · exact ⟨leaf :: leaves, .inr ⟨e, he, rfl⟩⟩

/-- **The walk ends**: after as many items as it weighs nothing is added to it. -/
theorem collect_finished (tx : τ) :
    ∀ (n : ℕ) (w : Walk N), w.Ready → w.weight < n →
      Finished (Walk.collect T tx n w) ∧ ∀ m, n ≤ m → Walk.collect T tx m w = Walk.collect T tx n w := by
  intro n
  induction n with
  | zero => intro w _ h; omega
  | succ n ih =>
    intro w hready hn
    have hnext := T.next_advances tx hready
    have hsucc : ∀ m, n + 1 ≤ m → ∃ k, m = k + 1 ∧ n ≤ k := fun m hm => ⟨m - 1, by omega, by omega⟩
    rcases hr : Walk.next T tx w with ⟨item, w'⟩
    rw [hr] at hnext
    match item with
    | none =>
      refine ⟨⟨[], .inl (by rw [Walk.collect, hr]; rfl)⟩, fun m hm => ?_⟩
      obtain ⟨k, rfl, -⟩ := hsucc m hm
      simp only [Walk.collect, hr]
    | some (.error e) =>
      obtain ⟨he, hw⟩ := hnext
      obtain rfl : w' = ⟨[]⟩ := congrArg Walk.mk hw
      have hone : ∀ k, Walk.collect T tx (k + 1) w = [.error e] := by
        intro k
        simp only [Walk.collect, hr, collect_nil]
      refine ⟨⟨[], .inr ⟨e, he, hone n⟩⟩, fun m hm => ?_⟩
      obtain ⟨k, rfl, -⟩ := hsucc m hm
      rw [hone, hone]
    | some (.ok leaf) =>
      obtain ⟨hready', hlt⟩ := hnext
      obtain ⟨hfin, hstable⟩ := ih w' hready' (by omega)
      have hone : ∀ k, Walk.collect T tx (k + 1) w = .ok leaf :: Walk.collect T tx k w' := by
        intro k
        simp only [Walk.collect, hr]
      refine ⟨by rw [hone]; exact hfin.cons leaf, fun m hm => ?_⟩
      obtain ⟨k, rfl, hk⟩ := hsucc m hm
      rw [hone, hone, hstable k hk]

/-- The walk from any root ends. -/
theorem walk_finished (tx : τ) (root : RootRef N) :
    ∃ n, Finished (Walk.collect T tx n (walk root)) ∧
      ∀ m, n ≤ m → Walk.collect T tx m (walk root) = Walk.collect T tx n (walk root) := by
  by_cases hroot : root = .empty
  · subst hroot
    have hnil : ∀ k, Walk.collect T tx k (walk .empty) = [] := by
      intro k
      cases k <;> rfl
    exact ⟨0, ⟨[], .inl (hnil 0)⟩, fun m _ => by rw [hnil, hnil]⟩
  · refine ⟨_, T.collect_finished tx _ (walk root) ?_ (Nat.lt_succ_self _)⟩
    intro e he
    rw [List.mem_singleton.mp he]
    exact ⟨hroot, T.fits_root root⟩

end Walk

/-- **Total on hostile storage**: whatever the rows, the hash, the root and the arguments, a branch
row is read within its bounds, point reads, edits and batches return a result or an error, and the
walk ends after its leaves or after one error. -/
theorem hostile_total (T : Trie N) :
    (∀ {τ : Type} [ReadTransaction τ] (tx : τ),
      (∀ hash route, T.loadRaw tx hash route = T.load tx hash route) ∧
      (∀ hash route, T.load tx hash route ≠ .error .panic) ∧
      (∀ root path, T.get tx root path ≠ .error .panic) ∧
      ∀ root, ∃ (n : ℕ) (leaves : List (LeafRef N)),
        (∀ m, n ≤ m → Walk.collect T tx m (walk root) = leaves.map .ok) ∨
        ∃ e, e ≠ .panic ∧ ∀ m, n ≤ m → Walk.collect T tx m (walk root) = leaves.map .ok ++ [.error e]) ∧
    ∀ {τ : Type} [WriteTransaction τ] (tx : τ) (root : RootRef N),
      (∀ leaf, ((T.insert root leaf).exec tx).1 ≠ .error .panic) ∧
      (∀ path, ((T.remove root path).exec tx).1 ≠ .error .panic) ∧
      ∀ edits, ((T.apply root edits).exec tx).1 ≠ .error .panic := by
  refine ⟨fun tx => ⟨fun hash route => T.loadRaw_eq tx hash route, fun hash route => ?_, fun root path => ?_,
    fun root => ?_⟩, fun tx root => ⟨fun leaf => ?_, fun path => ?_, fun edits => ?_⟩⟩
  · exact (T.load_meets tx hash route).ne_error (not_not.mpr rfl)
  · exact (T.getLoop_meets tx path _ root [] (T.fits_root root) List.nil_prefix (by simp)).ne_error
      (not_not.mpr rfl)
  · obtain ⟨n, ⟨leaves, hok | ⟨e, he, herr⟩⟩, hstable⟩ := T.walk_finished tx root
    · exact ⟨n, leaves, .inl fun m hm => by rw [hstable m hm, hok]⟩
    · exact ⟨n, leaves, .inr ⟨e, he, fun m hm => by rw [hstable m hm, herr]⟩⟩
  · exact (T.edit_post leaf.path (some leaf) _ root [] (T.fits_root root) List.nil_prefix (by simp)
      tx).ne_error (not_not.mpr rfl)
  · exact (T.edit_post path none _ root [] (T.fits_root root) List.nil_prefix (by simp) tx).ne_error
      (not_not.mpr rfl)
  · exact (T.apply_post root edits tx).ne_error (not_not.mpr rfl)

end Trie

end GolemDb.Merkle
