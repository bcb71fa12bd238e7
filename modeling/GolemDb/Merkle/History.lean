import GolemDb.Merkle.Reference
import GolemDb.Merkle.Read
import GolemDb.Storage.Memory

/-!
Histories of a trie. A history is a list of calls, each on any root produced before it; on a table
that starts empty every call succeeds, and each root is the reference of the map its calls
describe. The two results at the end say it for a list of single edits, with the reads of the
final root, and for a batch against its edits one at a time.
-/

namespace GolemDb.Merkle

open GolemDb.Lib GolemDb.Lib.Radix GolemDb.Storage

variable {N : ℕ}

/-! ### Maps along a history -/

lemma get?_set_eq_update (M : OrdMap (Arr N) Hash) (k : Arr N) (v : Option Hash) :
    (M.set k v).get? = Function.update M.get? k v := by
  funext j
  rw [OrdMap.get?_set]
  by_cases h : j = k
  · subst h; simp
  · simp [h]

/-- The map after the edits, in order. -/
def setAll (M : OrdMap (Arr N) Hash) (edits : List (Edit N)) : OrdMap (Arr N) Hash :=
  edits.foldl (fun M e => M.set e.1 e.2) M

lemma get?_setAll (M : OrdMap (Arr N) Hash) (edits : List (Edit N)) :
    (setAll M edits).get? = Trie.applied M.get? edits := by
  induction edits generalizing M with
  | nil => rfl
  | cons e edits ih =>
    rw [setAll, List.foldl_cons, ← setAll, ih, get?_set_eq_update]
    rfl

/-- The maps an edit sequence goes through, the first and the last included. -/
def states (M : OrdMap (Arr N) Hash) : List (Edit N) → List (OrdMap (Arr N) Hash)
  | [] => [M]
  | e :: edits => M :: states (M.set e.1 e.2) edits

lemma mem_states_self (M : OrdMap (Arr N) Hash) (edits : List (Edit N)) : M ∈ states M edits := by
  cases edits <;> simp [states]

lemma setAll_mem_states (M : OrdMap (Arr N) Hash) (edits : List (Edit N)) :
    setAll M edits ∈ states M edits := by
  induction edits generalizing M with
  | nil => simp [states, setAll]
  | cons e edits ih => exact List.mem_cons_of_mem _ (ih _)

/-- The leaf hashes of the list bind their paths. -/
def Binds (ls : List (LeafRef N)) : Prop := ∀ l ∈ ls, ∀ l' ∈ ls, l.hash = l'.hash → l.path = l'.path

instance (ls : List (LeafRef N)) : Decidable (Binds ls) := by unfold Binds; infer_instance

lemma mem_leavesOf_set {M : OrdMap (Arr N) Hash} {e : Edit N} {l : LeafRef N}
    (h : l ∈ leavesOf (M.set e.1 e.2)) : l ∈ leavesOf M ∨ l ∈ Trie.setLeaves [e] := by
  rw [mem_leavesOf, get?_set_eq_update] at h
  by_cases hp : l.path = e.1
  · rw [hp, Function.update_self] at h
    refine .inr (Trie.mem_setLeaves.mpr ?_)
    rw [List.mem_singleton, hp, ← h]
  · rw [Function.update_of_ne hp] at h
    exact .inl (mem_leavesOf.mpr h)

/-- The leaves of every map along the edits were there before or are set by an edit. -/
lemma leavesOf_states {M : OrdMap (Arr N) Hash} {edits : List (Edit N)} {ls : List (LeafRef N)}
    (hM : leavesOf M ⊆ ls) (he : Trie.setLeaves edits ⊆ ls) :
    ∀ M' ∈ states M edits, leavesOf M' ⊆ ls := by
  induction edits generalizing M with
  | nil => simpa [states] using hM
  | cons e edits ih =>
    have hsplit : Trie.setLeaves (e :: edits) = Trie.setLeaves [e] ++ Trie.setLeaves edits := by
      simp only [Trie.setLeaves, ← List.filterMap_append, List.singleton_append]
    rw [hsplit, List.append_subset] at he
    intro M' hM'
    rcases List.mem_cons.mp hM' with rfl | hM'
    · exact hM
    · refine ih (fun l hl => ?_) he.2 M' hM'
      rcases mem_leavesOf_set hl with h | h
      · exact hM h
      · exact he.1 h

namespace Trie

variable (T : Trie N)

/-! ### The preimages that occur -/

/-- The branches of the trees of some maps. -/
def allBranches (Ms : List (OrdMap (Arr N) Hash)) : List (Branch N) :=
  Ms.flatMap fun M => T.branches (refTree M)

/-- The branch preimages of the trees of some maps. -/
def occurring (Ms : List (OrdMap (Arr N) Hash)) : List Bytes := (T.allBranches Ms).map T.preimage

variable {T}

/-- A leaf in a slot of a branch is a leaf of the tree. -/
lemma mem_leaves_of_branch {t : Radix 16 (LeafRef N)} {b : Branch N} (hb : b ∈ T.branches t)
    {s : Nibble} {l : LeafRef N} (hl : b.2 s = .leaf l) : l ∈ t.leaves := by
  induction t with
  | empty => simp [branches] at hb
  | leaf x => simp [branches] at hb
  | branch pre kids ih =>
    simp only [leaves, List.mem_flatMap, List.mem_finRange, true_and]
    rcases T.branches_branch.mp hb with rfl | ⟨x, hx⟩
    · refine ⟨s, ?_⟩
      cases hk : kids s with
      | empty => simp [hk, ref] at hl
      | leaf l' =>
        obtain rfl : l' = l := by simpa [hk, ref] using hl
        simp [leaves]
      | branch p k => simp [hk, ref] at hl
    · exact ⟨x, ih x hx⟩

lemma covered_allBranches {Ms : List (OrdMap (Arr N) Hash)} {ls : List (LeafRef N)}
    (h : ∀ M ∈ Ms, leavesOf M ⊆ ls) :
    T.Covered {b | b ∈ T.occurring Ms} {l | l ∈ ls} (T.allBranches Ms) := by
  intro b hb
  refine ⟨List.mem_map.mpr ⟨b, hb, rfl⟩, fun s l hl => ?_⟩
  obtain ⟨M, hM, hbM⟩ := List.mem_flatMap.mp hb
  have := mem_leaves_of_branch hbM hl
  rw [leaves_refTree] at this
  exact h M hM this

lemma branches_subset_all {Ms : List (OrdMap (Arr N) Hash)} {M : OrdMap (Arr N) Hash} (h : M ∈ Ms) :
    T.branches (refTree M) ⊆ T.allBranches Ms :=
  fun _ hb => List.mem_flatMap.mpr ⟨M, h, hb⟩

lemma sound_empty {P : Set Bytes} {B : Set (LeafRef N)} {r : Rows} (h : r = OrdMap.empty) :
    T.Sound P B r := by
  intro k v hk
  rw [h, OrdMap.get?_empty] at hk
  cases hk

lemma refTree_empty : refTree (OrdMap.empty : OrdMap (Arr N) Hash) = .empty := by
  rw [refTree]
  cases N <;> rfl

/-! ### Runs -/

section Runs

variable {τ : Type} [WriteTransaction τ]

/-- `insert` or `remove`, as the edit says. -/
def editOne (T : Trie N) (root : RootRef N) (e : Edit N) : Prog MerkleError τ (RootRef N) :=
  match e.2 with
  | some hash => T.insert root ⟨e.1, hash⟩
  | none => T.remove root e.1

/-- The edits one at a time, in order. -/
def editAll (T : Trie N) (root : RootRef N) (edits : List (Edit N)) :
    Prog MerkleError τ (RootRef N) :=
  edits.foldlM T.editOne root

variable [LawfulWrite τ] {P : Set Bytes} {B : Set (LeafRef N)} {S : List (Branch N)}

/-- One edit of a stored tree. -/
lemma editOne_tree (hA : T.Assumes P B) {M : OrdMap (Arr N) Hash} {e : Edit N} {tx : τ}
    (hsound : T.Sound P B (rows tx T.table)) (hs : T.Stored (rows tx T.table) (refTree M))
    (hf : T.Fits P B (refTree (M.set e.1 e.2))) :
    T.Writes (T.editOne (T.ref (refTree M)) e) tx (refTree (M.set e.1 e.2)) := by
  rw [refTree_eq (M.set e.1 e.2), get?_set_eq_update, tree, leafMap_update] at hf ⊢
  rw [refTree_eq M] at hs ⊢
  have hed : T.editOne (τ := τ) (T.ref (tree M.get?)) e
      = T.edit e.1 (e.2.map (LeafRef.mk e.1)) (2 * N + 1) (T.ref (tree M.get?)) [] := by
    unfold editOne
    cases e.2 <;> rfl
  rw [hed]
  refine edit_canon hA (fun l hl => ?_) (leafMap_keyed M.get?) (2 * N + 1) (2 * N) [] tx (by simp)
    (by omega) (below_key ⟨e.1, takeArr 32 []⟩) hsound hs hf
  obtain ⟨x, -, rfl⟩ := Option.map_eq_some_iff.mp hl
  rfl

/-- **A run of single edits** goes through the trees of its maps. -/
theorem editAll_tree (hA : T.Assumes P B) (hS : T.Covered P B S) :
    ∀ (edits : List (Edit N)) (M : OrdMap (Arr N) Hash) (tx : τ), T.Sound P B (rows tx T.table) →
      T.Stored (rows tx T.table) (refTree M) →
      (∀ M' ∈ states M edits, T.branches (refTree M') ⊆ S) →
      ∃ tx', Prog.Runs (T.editAll (T.ref (refTree M)) edits) tx (T.ref (refTree (setAll M edits))) tx' ∧
        T.Stored (rows tx' T.table) (refTree (setAll M edits)) ∧ T.Grows S tx tx' := by
  intro edits
  induction edits with
  | nil =>
    intro M tx _ hs _
    exact ⟨tx, Prog.Runs.pure _ tx, hs, Grows.refl S tx⟩
  | cons e edits ih =>
    intro M tx hsound hs hsub
    have hsub₁ := hsub _ (List.mem_cons_of_mem _ (mem_states_self _ edits))
    obtain ⟨tx₁, hr₁, hst₁, hg₁⟩ := editOne_tree hA hsound hs (hS.subset hsub₁)
    have hg₁' := hg₁.mono hsub₁
    obtain ⟨tx₂, hr₂, hst₂, hg₂⟩ := ih (M.set e.1 e.2) tx₁ (hsound.grows hg₁' hS) hst₁
      fun M' hM' => hsub M' (List.mem_cons_of_mem _ hM')
    refine ⟨tx₂, ?_, hst₂, hg₁'.trans hg₂⟩
    rw [editAll, List.foldlM_cons]
    exact hr₁.bind hr₂

/-- A batch on a stored tree. -/
lemma apply_refTree (hA : T.Assumes P B) {M : OrdMap (Arr N) Hash} {edits : List (Edit N)} {tx : τ}
    (hsound : T.Sound P B (rows tx T.table)) (hs : T.Stored (rows tx T.table) (refTree M))
    (hf : T.Fits P B (refTree (setAll M edits))) :
    T.Writes (T.apply (T.ref (refTree M)) edits) tx (refTree (setAll M edits)) := by
  rw [refTree_eq (setAll M edits), get?_setAll] at hf ⊢
  rw [refTree_eq M] at hs ⊢
  exact apply_tree hA hsound hs hf

/-- What the root of a map's tree reads back. -/
lemma reads_refTree (hT : T.table.validate = .ok ()) {ρ : Type} [ReadTransaction ρ] [LawfulRead ρ]
    {tx : ρ} {M : OrdMap (Arr N) Hash} (hs : T.Stored (rows tx T.table) (refTree M)) :
    (∀ p, T.get tx (T.ref (refTree M)) p = .ok ((M.get? p).map (LeafRef.mk p))) ∧
      ∀ fuel, (leavesOf M).length < fuel →
        Walk.collect T tx fuel (walk (T.ref (refTree M))) = (leavesOf M).map .ok := by
  rw [← leaves_refTree]
  rw [refTree_eq] at hs ⊢
  constructor
  · intro p
    rw [← leafMap_nibbles]
    exact getLoop_canon hT (leafMap_keyed M.get?) p (2 * N + 1) (2 * N) [] (by simp) (by omega)
      (below_key ⟨p, takeArr 32 []⟩) hs
  · intro fuel hfuel
    exact collect_walk hT (leafMap_keyed M.get?) hs hfuel

end Runs

/-! ### Histories -/

/-- One call on a trie: a single edit or a batch. -/
inductive Call (N : ℕ) where
  | edit (e : Edit N)
  | batch (edits : List (Edit N))

namespace Call

/-- The edits a call makes, in order. -/
def edits : Call N → List (Edit N)
  | edit e => [e]
  | batch es => es

def run {τ : Type} [WriteTransaction τ] (T : Trie N) (root : RootRef N) :
    Call N → Prog MerkleError τ (RootRef N)
  | edit e => T.editOne root e
  | batch es => T.apply root es

end Call

/-- A history: each call names the root it works on, among those produced so far; the first
root is the empty one. -/
abbrev History (N : ℕ) := List (ℕ × Call N)

/-- The roots of a history. -/
def runHistory {τ : Type} [WriteTransaction τ] (T : Trie N) (calls : History N)
    (roots : List (RootRef N)) : Prog MerkleError τ (List (RootRef N)) :=
  calls.foldlM (fun roots c => do
    let root ← c.2.run T (roots.getD c.1 .empty)
    return roots ++ [root]) roots

/-- The maps of a history. -/
def historyMaps (calls : History N) (Ms : List (OrdMap (Arr N) Hash)) : List (OrdMap (Arr N) Hash) :=
  calls.foldl (fun Ms c => Ms ++ [setAll (Ms.getD c.1 OrdMap.empty) c.2.edits]) Ms

/-- The leaves a history sets. -/
def historyLeaves (calls : History N) : List (LeafRef N) := calls.flatMap fun c => setLeaves c.2.edits

lemma subset_historyMaps (calls : History N) (Ms : List (OrdMap (Arr N) Hash)) :
    Ms ⊆ historyMaps calls Ms := by
  induction calls generalizing Ms with
  | nil => exact List.Subset.refl Ms
  | cons c calls ih => exact List.Subset.trans (List.subset_append_left _ _) (ih _)

lemma getD_refs (Ms : List (OrdMap (Arr N) Hash)) (i : ℕ) :
    (Ms.map fun M => T.ref (refTree M)).getD i .empty = T.ref (refTree (Ms.getD i OrdMap.empty)) := by
  rw [List.getD_eq_getElem?_getD, List.getD_eq_getElem?_getD, List.getElem?_map]
  cases Ms[i]? with
  | none => rw [Option.map_none, Option.getD_none, Option.getD_none, refTree_empty, ref]
  | some M => rfl

lemma getD_subset {Ms : List (OrdMap (Arr N) Hash)} (h : OrdMap.empty ∈ Ms) (i : ℕ) :
    Ms.getD i OrdMap.empty ∈ Ms := by
  rw [List.getD_eq_getElem?_getD]
  cases hi : Ms[i]? with
  | none => exact h
  | some M => exact List.mem_of_getElem? hi

/-- The leaves of a history's maps are those it sets. -/
lemma leavesOf_historyMaps {ls : List (LeafRef N)} (calls : History N) :
    ∀ Ms : List (OrdMap (Arr N) Hash), OrdMap.empty ∈ Ms → (∀ M ∈ Ms, leavesOf M ⊆ ls) →
      historyLeaves calls ⊆ ls → ∀ M ∈ historyMaps calls Ms, leavesOf M ⊆ ls := by
  induction calls with
  | nil => exact fun Ms _ h _ => h
  | cons c calls ih =>
    intro Ms h0 hMs hls
    rw [historyLeaves, List.flatMap_cons, List.append_subset] at hls
    refine ih _ (List.mem_append_left _ h0) (fun M hM => ?_) hls.2
    rcases List.mem_append.mp hM with hM | hM
    · exact hMs M hM
    · rw [List.mem_singleton.mp hM]
      exact leavesOf_states (hMs _ (getD_subset h0 c.1)) hls.1 _ (setAll_mem_states _ _)

/-- **Along a history every call succeeds**, each root is the reference of its map, and every
tree stays stored. -/
theorem runHistory_refTree {τ : Type} [WriteTransaction τ] [LawfulWrite τ] {P : Set Bytes}
    {B : Set (LeafRef N)} {S : List (Branch N)} (hA : T.Assumes P B) (hS : T.Covered P B S) :
    ∀ (calls : History N) (Ms : List (OrdMap (Arr N) Hash)) (tx : τ), OrdMap.empty ∈ Ms →
      T.Sound P B (rows tx T.table) → (∀ M ∈ Ms, T.Stored (rows tx T.table) (refTree M)) →
      (∀ M ∈ historyMaps calls Ms, T.branches (refTree M) ⊆ S) →
      ∃ tx', Prog.Runs (T.runHistory calls (Ms.map fun M => T.ref (refTree M))) tx
          ((historyMaps calls Ms).map fun M => T.ref (refTree M)) tx' ∧
        (∀ M ∈ historyMaps calls Ms, T.Stored (rows tx' T.table) (refTree M)) ∧ T.Grows S tx tx' := by
  intro calls
  induction calls with
  | nil =>
    intro Ms tx _ _ hs _
    exact ⟨tx, Prog.Runs.pure _ tx, hs, Grows.refl S tx⟩
  | cons c calls ih =>
    intro Ms tx h0 hsound hs hsub
    set M := Ms.getD c.1 OrdMap.empty with hM
    set Ms' := Ms ++ [setAll M c.2.edits] with hMs'
    have hmem : setAll M c.2.edits ∈ historyMaps calls Ms' :=
      subset_historyMaps calls Ms' (by simp [hMs'])
    have hf := hS.subset (hsub _ hmem)
    obtain ⟨tx₁, hr₁, hst₁, hg₁⟩ : T.Writes (c.2.run T (T.ref (refTree M))) tx
        (refTree (setAll M c.2.edits)) := by
      cases hc : c.2 with
      | edit e =>
        rw [hc] at hf
        exact editOne_tree hA hsound (hs M (getD_subset h0 c.1)) hf
      | batch es =>
        rw [hc] at hf
        exact apply_refTree hA hsound (hs M (getD_subset h0 c.1)) hf
    have hg₁' := hg₁.mono (hsub _ hmem)
    obtain ⟨tx₂, hr₂, hst₂, hg₂⟩ := ih Ms' tx₁ (List.mem_append_left _ h0) (hsound.grows hg₁' hS)
      (fun M' hM' => by
        rcases List.mem_append.mp hM' with h | h
        · exact (hs M' h).grows hg₁
        · rw [List.mem_singleton.mp h]
          exact hst₁)
      hsub
    refine ⟨tx₂, ?_, hst₂, hg₁'.trans hg₂⟩
    rw [runHistory, List.foldlM_cons, getD_refs, ← hM]
    rw [hMs', List.map_append] at hr₂
    exact (hr₁.bind (f := fun root => Pure.pure (Ms.map (fun M => T.ref (refTree M)) ++ [root]))
      (Prog.Runs.pure _ _)).bind hr₂

/-! ### Single edits from the empty root -/

/-- A trie relies on a valid table, a hash injective on the preimages of the maps that occur,
and leaf hashes that bind their paths. -/
lemma assumes_occurring {Ms : List (OrdMap (Arr N) Hash)} {ls : List (LeafRef N)}
    (hT : T.table.validate = .ok ()) (hinj : Set.InjOn T.hasher.hash {b | b ∈ T.occurring Ms})
    (hbind : Binds ls) : T.Assumes {b | b ∈ T.occurring Ms} {l | l ∈ ls} :=
  ⟨hT, hinj, fun l hl l' hl' => hbind l hl l' hl'⟩

/-- **Single edits from the empty root.** On an empty table every edit succeeds. The final root is
the reference of the final map, whatever the order of the edits, and its digest is the reference
digest; a point read returns the map's leaf, and the walk yields the map's leaves in ascending
path order. -/
theorem editAll_from_empty (T : Trie N) {τ : Type} [WriteTransaction τ] [LawfulWrite τ]
    (hT : T.table.validate = .ok ()) (tx : τ) (htx : rows tx T.table = OrdMap.empty)
    (edits : List (Edit N)) (hbind : Binds (setLeaves edits))
    (hinj : Set.InjOn T.hasher.hash {b | b ∈ T.occurring (states OrdMap.empty edits)}) :
    ∃ tx', Prog.Runs (T.editAll .empty edits) tx (T.ref (refTree (setAll OrdMap.empty edits))) tx' ∧
      (T.ref (refTree (setAll OrdMap.empty edits))).hash T.hasher
        = T.bulk (2 * N) 0 (leavesOf (setAll OrdMap.empty edits)) ∧
      (∀ p, T.get tx' (T.ref (refTree (setAll OrdMap.empty edits))) p
        = .ok (((setAll OrdMap.empty edits).get? p).map (LeafRef.mk p))) ∧
      (leavesOf (setAll OrdMap.empty edits)).Pairwise (fun a b => a.path < b.path) ∧
      ∀ fuel, (leavesOf (setAll OrdMap.empty edits)).length < fuel →
        Walk.collect T tx' fuel (walk (T.ref (refTree (setAll OrdMap.empty edits))))
          = (leavesOf (setAll OrdMap.empty edits)).map .ok := by
  have hA := assumes_occurring hT hinj hbind
  have hls : ∀ M ∈ states OrdMap.empty edits, leavesOf M ⊆ setLeaves edits :=
    leavesOf_states (List.nil_subset _) (List.Subset.refl _)
  obtain ⟨tx', hr, hst, -⟩ := editAll_tree hA (covered_allBranches hls) edits OrdMap.empty tx
    (sound_empty htx) (by rw [refTree_empty]; exact stored_empty) fun M hM => branches_subset_all hM
  rw [refTree_empty, ref] at hr
  obtain ⟨hget, hwalk⟩ := reads_refTree hT hst
  exact ⟨tx', hr, (T.bulk_eq _).symm, hget, leavesOf_pathSorted _, hwalk⟩

/-- A polynomial hash, free of collisions on the few preimages of the cases below. -/
def polyHash : HashProvider :=
  ⟨fun bytes => ⟨beBytes 32 (bytes.foldl (fun a b => (a * 257 + b.toNat + 1) % 2 ^ 256) 0),
    beBytes_length 32 _⟩⟩

def demoTrie : Trie 1 := ⟨⟨"Branches"⟩, 5, polyHash, le_rfl, hash_width_pos⟩

/-- Set the leaf with a payload byte at a one-byte path. -/
def demoSet (path payload : UInt8) : Edit 1 := (⟨[path], rfl⟩, some (polyHash.hash [4, path, payload]))

/-- Splits below the first nibble and at the root, and a removal that merges a branch away. -/
def demoEdits : List (Edit 1) := [demoSet 0x12 1, demoSet 0x1f 2, demoSet 0x80 3, (⟨[0x12], rfl⟩, none)]

theorem editAll_from_empty_demo :
    ∃ tx', Prog.Runs (demoTrie.editAll .empty demoEdits) (⟨OrdMap.empty⟩ : MemoryWriteTransaction)
        (demoTrie.ref (refTree (setAll OrdMap.empty demoEdits))) tx' ∧
      demoTrie.get tx' (demoTrie.ref (refTree (setAll OrdMap.empty demoEdits))) ⟨[0x80], rfl⟩
        = .ok (some ⟨⟨[0x80], rfl⟩, polyHash.hash [4, 0x80, 3]⟩) := by
  obtain ⟨tx', hr, -, hget, -⟩ := editAll_from_empty demoTrie (by decide)
    (⟨OrdMap.empty⟩ : MemoryWriteTransaction) rfl demoEdits (by decide +kernel)
    (fun a ha b hb => (by decide +kernel : ∀ a ∈ demoTrie.occurring (states OrdMap.empty demoEdits),
      ∀ b ∈ demoTrie.occurring (states OrdMap.empty demoEdits),
        demoTrie.hasher.hash a = demoTrie.hasher.hash b → a = b) a ha b hb)
  exact ⟨tx', hr, (hget _).trans (by decide +kernel)⟩

/-! ### A batch against its edits one at a time -/

/-- **A batch is its edits one at a time.** On every root of a history, `apply` succeeds with the
root that `insert` and `remove` reach when they perform the list in order. -/
theorem apply_eq_editAll (T : Trie N) {τ : Type} [WriteTransaction τ] [LawfulWrite τ]
    (hT : T.table.validate = .ok ()) (tx : τ) (htx : rows tx T.table = OrdMap.empty)
    (calls : History N) (i : ℕ) (edits : List (Edit N))
    (hbind : Binds (historyLeaves calls ++ setLeaves edits))
    (hinj : Set.InjOn T.hasher.hash {b | b ∈ T.occurring (historyMaps calls [OrdMap.empty] ++
      states ((historyMaps calls [OrdMap.empty]).getD i OrdMap.empty) edits)}) :
    ∃ roots tx₁, Prog.Runs (T.runHistory calls [.empty]) tx roots tx₁ ∧
      ∃ root tx₂ tx₃, Prog.Runs (T.apply (roots.getD i .empty) edits) tx₁ root tx₂ ∧
        Prog.Runs (T.editAll (roots.getD i .empty) edits) tx₁ root tx₃ := by
  have hA := assumes_occurring hT hinj hbind
  set Ms := historyMaps calls [OrdMap.empty] with hMs
  set M := Ms.getD i OrdMap.empty with hM
  have h0 : OrdMap.empty ∈ Ms := subset_historyMaps calls _ (by simp)
  have hMmem : M ∈ Ms := getD_subset h0 i
  have hlsM : ∀ M' ∈ Ms, leavesOf M' ⊆ historyLeaves calls ++ setLeaves edits :=
    leavesOf_historyMaps calls _ (by simp) (by simp [leavesOf, OrdMap.empty])
      (List.subset_append_left _ _)
  have hls : ∀ M' ∈ Ms ++ states M edits, leavesOf M' ⊆ historyLeaves calls ++ setLeaves edits := by
    intro M' h
    rcases List.mem_append.mp h with h | h
    · exact hlsM M' h
    · exact leavesOf_states (hlsM M hMmem) (List.subset_append_right _ _) M' h
  have hS := covered_allBranches (T := T) hls
  obtain ⟨tx₁, hr₁, hst₁, hg₁⟩ := runHistory_refTree hA hS calls [OrdMap.empty] tx (by simp)
    (sound_empty htx) (by simpa [refTree_empty] using stored_empty)
    fun M' hM' => branches_subset_all (List.mem_append_left _ hM')
  have hsound := (sound_empty (T := T) htx).grows hg₁ hS
  have hstates : ∀ M' ∈ states M edits, T.branches (refTree M') ⊆ T.allBranches (Ms ++ states M edits) :=
    fun M' hM' => branches_subset_all (List.mem_append_right _ hM')
  obtain ⟨tx₂, hr₂, -⟩ := apply_refTree hA hsound (hst₁ M hMmem)
    (hS.subset (hstates _ (setAll_mem_states M edits)))
  obtain ⟨tx₃, hr₃, -⟩ := editAll_tree hA hS edits M tx₁ hsound (hst₁ M hMmem) hstates
  rw [List.map_singleton, refTree_empty, ref] at hr₁
  exact ⟨_, tx₁, hr₁, _, tx₂, tx₃, by rw [getD_refs]; exact hr₂,
    by rw [getD_refs]; exact hr₃⟩

/-- Two insertions, then a batch on their root that overwrites, removes and splits, with the last
edit of a path winning. -/
def demoCalls : History 1 := [(0, .edit (demoSet 0x12 1)), (1, .batch [demoSet 0x1f 2, demoSet 0x80 3])]

def demoBatch : List (Edit 1) :=
  [demoSet 0x12 4, (⟨[0x80], rfl⟩, none), demoSet 0x81 5, (⟨[0x12], rfl⟩, none), demoSet 0x2a 6]

theorem apply_eq_editAll_demo :
    ∃ roots tx₁, Prog.Runs (demoTrie.runHistory demoCalls [.empty])
        (⟨OrdMap.empty⟩ : MemoryWriteTransaction) roots tx₁ ∧
      ∃ root tx₂ tx₃, Prog.Runs (demoTrie.apply (roots.getD 2 .empty) demoBatch) tx₁ root tx₂ ∧
        Prog.Runs (demoTrie.editAll (roots.getD 2 .empty) demoBatch) tx₁ root tx₃ :=
  apply_eq_editAll demoTrie (by decide) (⟨OrdMap.empty⟩ : MemoryWriteTransaction) rfl demoCalls 2
    demoBatch (by decide +kernel)
    (fun a ha b hb => (by decide +kernel :
      ∀ a ∈ demoTrie.occurring (historyMaps demoCalls [OrdMap.empty] ++
        states ((historyMaps demoCalls [OrdMap.empty]).getD 2 OrdMap.empty) demoBatch),
      ∀ b ∈ demoTrie.occurring (historyMaps demoCalls [OrdMap.empty] ++
        states ((historyMaps demoCalls [OrdMap.empty]).getD 2 OrdMap.empty) demoBatch),
        demoTrie.hasher.hash a = demoTrie.hasher.hash b → a = b) a ha b hb)

/-! ### Old roots -/

lemma historyMaps_append (calls calls' : History N) (Ms : List (OrdMap (Arr N) Hash)) :
    historyMaps (calls ++ calls') Ms = historyMaps calls' (historyMaps calls Ms) := List.foldl_append

lemma prefix_historyMaps (calls : History N) (Ms : List (OrdMap (Arr N) Hash)) : Ms <+: historyMaps calls Ms := by
  induction calls generalizing Ms with
  | nil => exact List.prefix_rfl
  | cons c calls ih => exact (List.prefix_append _ _).trans (ih _)

/-- **Old roots stay readable.** However a history goes on, no row of the table is changed or
removed, and every root reads back what it did before: the same leaf at every path, and the same
walk. -/
theorem runHistory_append (T : Trie N) {τ : Type} [WriteTransaction τ] [LawfulWrite τ]
    (hT : T.table.validate = .ok ()) (tx : τ) (htx : rows tx T.table = OrdMap.empty) (calls later : History N)
    (hbind : Binds (historyLeaves (calls ++ later)))
    (hinj : Set.InjOn T.hasher.hash {b | b ∈ T.occurring (historyMaps (calls ++ later) [OrdMap.empty])}) :
    ∃ roots tx₁ roots' tx₂, Prog.Runs (T.runHistory calls [.empty]) tx roots tx₁ ∧
      Prog.Runs (T.runHistory later roots) tx₁ roots' tx₂ ∧ roots <+: roots' ∧
      (∀ k v, (rows tx₁ T.table).get? k = some v → (rows tx₂ T.table).get? k = some v) ∧
      ∀ root ∈ roots, ∃ M : OrdMap (Arr N) Hash,
        (∀ p, T.get tx₁ root p = .ok ((M.get? p).map (LeafRef.mk p)) ∧ T.get tx₂ root p = T.get tx₁ root p) ∧
        ∀ fuel, (leavesOf M).length < fuel → Walk.collect T tx₁ fuel (walk root) = (leavesOf M).map .ok ∧
          Walk.collect T tx₂ fuel (walk root) = Walk.collect T tx₁ fuel (walk root) := by
  have hA := assumes_occurring hT hinj hbind
  have hls : ∀ M ∈ historyMaps (calls ++ later) [OrdMap.empty], leavesOf M ⊆ historyLeaves (calls ++ later) :=
    leavesOf_historyMaps _ _ (by simp) (by simp [leavesOf, OrdMap.empty]) (List.Subset.refl _)
  have hS := covered_allBranches (T := T) hls
  rw [historyMaps_append] at hS
  set Ms := historyMaps calls [OrdMap.empty] with hMs
  have h0 : OrdMap.empty ∈ Ms := subset_historyMaps calls _ (by simp)
  have hsub : ∀ M ∈ historyMaps later Ms, T.branches (refTree M) ⊆ T.allBranches (historyMaps later Ms) :=
    fun M hM => branches_subset_all hM
  rw [historyMaps_append, ← hMs] at hA
  obtain ⟨tx₁, hr₁, hst₁, hg₁⟩ := runHistory_refTree hA hS calls [OrdMap.empty] tx (by simp) (sound_empty htx)
    (by simpa [refTree_empty] using stored_empty) fun M hM => hsub M (subset_historyMaps later Ms hM)
  have hsound := (sound_empty (T := T) htx).grows hg₁ hS
  obtain ⟨tx₂, hr₂, hst₂, hg₂⟩ := runHistory_refTree hA hS later Ms tx₁ h0 hsound hst₁ hsub
  rw [List.map_singleton, refTree_empty, ref] at hr₁
  refine ⟨_, tx₁, _, tx₂, hr₁, hr₂, (prefix_historyMaps later Ms).map _, hg₂.kept, fun root hroot => ?_⟩
  obtain ⟨M, hM, rfl⟩ := List.mem_map.mp hroot
  obtain ⟨hget₁, hwalk₁⟩ := reads_refTree hT (hst₁ M hM)
  obtain ⟨hget₂, hwalk₂⟩ := reads_refTree hT (hst₂ M (subset_historyMaps later Ms hM))
  exact ⟨M, fun p => ⟨hget₁ p, (hget₂ p).trans (hget₁ p).symm⟩,
    fun fuel hf => ⟨hwalk₁ fuel hf, (hwalk₂ fuel hf).trans (hwalk₁ fuel hf).symm⟩⟩

/-- Later calls on an old root and on the last one. -/
def demoLater : History 1 := [(1, .edit (demoSet 0x1f 5)), (2, .batch [(⟨[0x80], rfl⟩, none), demoSet 0x13 6])]

theorem runHistory_append_demo : ∃ roots tx₁ roots' tx₂,
    Prog.Runs (demoTrie.runHistory demoCalls [.empty]) (⟨OrdMap.empty⟩ : MemoryWriteTransaction) roots tx₁ ∧
      Prog.Runs (demoTrie.runHistory demoLater roots) tx₁ roots' tx₂ ∧ roots <+: roots' ∧
      ∀ root ∈ roots, ∀ p, demoTrie.get tx₂ root p = demoTrie.get tx₁ root p := by
  obtain ⟨roots, tx₁, roots', tx₂, hr₁, hr₂, hpre, -, hread⟩ := runHistory_append demoTrie (by decide)
    (⟨OrdMap.empty⟩ : MemoryWriteTransaction) rfl demoCalls demoLater (by decide +kernel)
    (fun a ha b hb => (by decide +kernel :
      ∀ a ∈ demoTrie.occurring (historyMaps (demoCalls ++ demoLater) [OrdMap.empty]),
      ∀ b ∈ demoTrie.occurring (historyMaps (demoCalls ++ demoLater) [OrdMap.empty]),
        demoTrie.hasher.hash a = demoTrie.hasher.hash b → a = b) a ha b hb)
  refine ⟨roots, tx₁, roots', tx₂, hr₁, hr₂, hpre, fun root hroot p => ?_⟩
  obtain ⟨M, hget, -⟩ := hread root hroot
  exact (hget p).2

end Trie

end GolemDb.Merkle
