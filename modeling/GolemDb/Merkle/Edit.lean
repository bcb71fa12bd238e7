import GolemDb.Merkle.Canon

/-!
One edit at a time: on a table that holds the tree of a map, `edit` succeeds and writes the tree
of the edited map (`edit_canon`). The induction goes down the tree; each helper of the source has
its own lemma: a leaf is replaced or split off, a branch's prefix is split, and a branch left with
one subtree is merged away.
-/

namespace GolemDb.Merkle

open GolemDb.Lib GolemDb.Lib.Radix GolemDb.Storage

lemma index_eq {α : Type} {l : List α} {i : ℕ} {a : α} (h : l[i]? = some a) : index l i = .ok a := by
  rw [index, h]

lemma slice_eq {α : Type} {l : List α} {lo hi : ℕ} (h : lo ≤ hi) (h' : hi ≤ l.length) :
    slice l lo hi = .ok ((l.take hi).drop lo) := by
  rw [slice, if_pos ⟨h, h'⟩]

lemma Keyed.update {N : ℕ} {m : List Nibble → Option (LeafRef N)} (hm : Keyed m) (target : Arr N)
    {replacement : Option (LeafRef N)} (hrep : ∀ l, replacement = some l → l.path = target) :
    Keyed (Function.update m (nibbles target.1) replacement) := by
  intro p l hl
  by_cases hp : p = nibbles target.1
  · rw [hp, Function.update_self] at hl
    rw [hp, LeafRef.key, hrep l hl]
  · rw [Function.update_of_ne hp] at hl
    exact hm p l hl

namespace Trie

variable {N : ℕ} {T : Trie N} {τ : Type} [WriteTransaction τ] [LawfulWrite τ] {P : Set Bytes}
  {B : Set (LeafRef N)}

/-- **The program writes the tree**: it succeeds with the tree's reference, leaves the tree stored
and adds only branches of the tree. -/
def Writes (T : Trie N) (c : Prog MerkleError τ (RootRef N)) (tx : τ) (t : Radix 16 (LeafRef N)) :
    Prop :=
  ∃ tx', Prog.Runs c tx (T.ref t) tx' ∧ T.Stored (rows tx' T.table) t ∧ T.Grows (T.branches t) tx tx'

lemma Writes.pure {tx : τ} {t : Radix 16 (LeafRef N)} (h : T.Stored (rows tx T.table) t) :
    T.Writes (return T.ref t) tx t :=
  ⟨tx, Prog.Runs.pure _ tx, h, Grows.refl _ tx⟩

/-- A computation that does not touch the table comes first. -/
lemma Writes.of_runs {α : Type} {c : Prog MerkleError τ α} {f : α → Prog MerkleError τ (RootRef N)}
    {tx : τ} {a : α} {t : Radix 16 (LeafRef N)} (hc : Prog.Runs c tx a tx)
    (h : T.Writes (f a) tx t) : T.Writes (c >>= f) tx t := by
  obtain ⟨tx', hr, hs, he⟩ := h
  exact ⟨tx', hc.bind hr, hs, he⟩

lemma ref_update (kids : Nibble → Radix 16 (LeafRef N)) (a : Nibble) (t : Radix 16 (LeafRef N)) :
    (fun s => T.ref (Function.update kids a t s))
      = Function.update (fun s => T.ref (kids s)) a (T.ref t) := by
  funext s
  exact Function.apply_update (fun _ => T.ref) kids a t s

lemma ref_replaced (replacement : Option (LeafRef N)) :
    T.ref (replacement.elim .empty .leaf) = replaced replacement := by
  cases replacement <;> rfl

lemma stored_replaced (r : Rows) (replacement : Option (LeafRef N)) :
    T.Stored r (replacement.elim .empty .leaf) := by
  cases replacement with
  | none => exact stored_empty
  | some l => exact stored_leaf l

section Step

variable {n : ℕ} {route pre : List Nibble} {m : List Nibble → Option (LeafRef N)} {tx : τ}
  {kids : Nibble → Radix 16 (LeafRef N)} {target : Arr N} {replacement : Option (LeafRef N)}

/-- A leaf is replaced, kept, or joined with the new leaf under a branch. -/
theorem editLeaf_canon (hA : T.Assumes P B) {old : LeafRef N}
    (hrep : ∀ l, replacement = some l → l.path = target) (hlen : route.length + n = 2 * N)
    (hm : Keyed m) (ht : Below n route (nibbles target.1)) (hsound : T.Sound P B (rows tx T.table))
    (hc : canon n route m = .leaf old)
    (hf : T.Fits P B (canon n route (Function.update m (nibbles target.1) replacement))) :
    T.Writes (T.editLeaf old target replacement route) tx
      (canon n route (Function.update m (nibbles target.1) replacement)) := by
  obtain ⟨p, hp, hmp, ho⟩ := canon_leaf_inv hc
  obtain rfl : old.key = p := hm p old hmp
  unfold editLeaf
  by_cases hpath : old.path = target
  · have hkey : nibbles target.1 = old.key := by rw [LeafRef.key, hpath]
    rw [if_pos hpath, hkey, canon_update_lone replacement hp ho, ← ref_replaced (T := T)]
    exact Writes.pure (stored_replaced _ _)
  · have hne : nibbles target.1 ≠ old.key := by
      intro h
      exact hpath (Subtype.ext (nibbles_inj h).symm)
    rw [if_neg hpath]
    cases replacement with
    | none =>
      have hnone : Function.update m (nibbles target.1) none = m := by
        rw [Function.update_eq_self_iff]
        exact (ho _ ht hne).symm
      rw [hnone, hc]
      exact Writes.pure (stored_leaf old)
    | some new =>
      have hnew : new.key = nibbles target.1 := by rw [LeafRef.key, hrep new rfl]
      have hlo := old.key_length
      have hln : (nibbles target.1).length = 2 * N := by rw [← hnew]; exact new.key_length
      obtain ⟨d, hfd, hd, hdN, htake, hdiff⟩ := firstDiff_spec route.length hlo hln
        (by rw [hp.take, ht.take]) hne.symm
      obtain ⟨a, ha⟩ : ∃ a, old.key[d]? = some a := ⟨_, List.getElem?_eq_getElem (by omega)⟩
      obtain ⟨b, hb⟩ : ∃ b, (nibbles target.1)[d]? = some b :=
        ⟨_, List.getElem?_eq_getElem (by omega)⟩
      have hab : a ≠ b := by
        rintro rfl
        exact hdiff (ha.trans hb.symm)
      -- the common part of the two paths, below the route
      set pfx := ((nibbles target.1).take d).drop route.length with hpfx
      have hroute : route ++ pfx = (nibbles target.1).take d := ht.route_append hd
      have hpl : pfx.length = d - route.length := by rw [hpfx]; simp [hln]; omega
      have hbo : Below (n - pfx.length - 1 + 1) (route ++ pfx) old.key := by
        rw [hroute, ← htake, show n - pfx.length - 1 + 1 = 2 * N - d by omega]
        exact below_take hlo d
      have hbn : Below (n - pfx.length - 1 + 1) (route ++ pfx) (nibbles target.1) := by
        rw [hroute, show n - pfx.length - 1 + 1 = 2 * N - d by omega]
        exact below_take hln d
      have hrl : (route ++ pfx).length = d := by rw [List.length_append, hpl]; omega
      have hba := hbo.getElem?_eq_some.mp (by rw [hrl]; exact ha)
      have hbb := hbn.getElem?_eq_some.mp (by rw [hrl]; exact hb)
      have htree : canon n route (Function.update m (nibbles target.1) (some new))
          = .branch pfx (Function.update (Function.update (fun _ => .empty) a (.leaf old)) b
            (.leaf new)) := by
        refine canon_fork (j := n - pfx.length - 1) (by omega) hab (by simp) (by simp) ?_ ?_ ?_
        · refine canon_single hba (by rwa [Function.update_of_ne hne.symm]) fun q hq hqn => ?_
          have hqt : q ≠ nibbles target.1 := by
            rintro rfl
            exact hab (hq.head_unique hbb)
          rw [Function.update_of_ne hqt]
          exact ho q (below_append pfx (by omega) (below_succ.mpr ⟨a, hq⟩)) hqn
        · refine canon_update_lone (some new) hbb fun q hq hqn => ?_
          refine ho q (below_append pfx (by omega) (below_succ.mpr ⟨b, hq⟩)) ?_
          rintro rfl
          exact hab (hba.head_unique hq)
        · intro q hq hqn
          by_cases hqt : q = nibbles target.1
          · exact .inr (hqt ▸ hbb)
          · rw [Function.update_of_ne hqt] at hqn
            by_cases hqo : q = old.key
            · exact .inl (hqo ▸ hba)
            · exact absurd (ho q hq hqo) hqn
      rw [htree] at hf ⊢
      have hstore := storeChildren_canon hA hsound (hm.update target hrep) hlen htree hf (by
        intro s
        by_cases hsb : s = b
        · rw [hsb, Function.update_self]
          exact stored_leaf new
        · rw [Function.update_of_ne hsb]
          by_cases hsa : s = a
          · rw [hsa, Function.update_self]
            exact stored_leaf old
          · rw [Function.update_of_ne hsa]
            exact stored_empty)
      rw [show N * 2 = 2 * N by omega]
      simp only [show firstDiff (nibbles old.path.1) (nibbles target.1) route.length (2 * N) = some d
        from hfd]
      refine Writes.of_runs (Prog.Runs.ofExcept (index_eq ha)) ?_
      refine Writes.of_runs (Prog.Runs.ofExcept (index_eq hb)) ?_
      refine Writes.of_runs (Prog.Runs.ofExcept (slice_eq hd (by omega))) ?_
      rw [ref_update, ref_update] at hstore
      exact hstore

/-- The slots with a reference are the letters with a subtree. -/
lemma filter_ref (kids : Nibble → Radix 16 (LeafRef N)) :
    ((List.finRange 16).filter fun s => T.ref (kids s) ≠ .empty) = active kids := by
  unfold active
  congr 1
  funext s
  cases hk : kids s <;> simp [ref, Radix.isEmpty]

/-- A branch's prefix is split by a new leaf: the old branch moves below its first lost nibble. -/
theorem splitBranch_canon (hA : T.Assumes P B) {new : LeafRef N} {node : BranchNodeCompact N}
    {shared : ℕ} (hnode : NodeOf node pre (fun s => T.ref (kids s)))
    (hlen : route.length + n = 2 * N) (hm : Keyed m) (ht : Below n route new.key)
    (hsound : T.Sound P B (rows tx T.table)) (hc : canon n route m = .branch pre kids)
    (hs : T.Stored (rows tx T.table) (.branch pre kids))
    (hf : T.Fits P B (canon n route (Function.update m new.key (some new))))
    (hlt : shared < pre.length) (htake : pre.take shared = (new.key.drop route.length).take shared)
    (hdiff : pre[shared]? ≠ (new.key.drop route.length)[shared]?) :
    T.Writes (T.splitBranch node pre new shared route) tx
      (canon n route (Function.update m new.key (some new))) := by
  obtain ⟨j, hj, hcom, -, -⟩ := canon_branch_inv hc
  have hln := new.key_length
  obtain ⟨a, ha⟩ : ∃ a, pre[shared]? = some a := ⟨_, List.getElem?_eq_getElem hlt⟩
  obtain ⟨b, hb⟩ : ∃ b, new.key[route.length + shared]? = some b :=
    ⟨_, List.getElem?_eq_getElem (by omega)⟩
  have hab : a ≠ b := by
    rintro rfl
    rw [List.getElem?_drop] at hdiff
    exact hdiff (ha.trans hb.symm)
  have hta : pre.take shared ++ [a] = pre.take (shared + 1) := by
    rw [List.take_add_one, ha]
    rfl
  have hpl : (pre.take shared).length = shared := List.length_take_of_le hlt.le
  have hroute : route ++ pre.take shared = new.key.take (route.length + shared) := by
    rw [htake, ← ht.route_append (d := route.length + shared) (by omega), List.drop_take,
      Nat.add_sub_cancel_left]
  have hbb : Below (n - shared - 1) (route ++ pre.take shared ++ [b]) new.key := by
    have hbn : Below (n - shared - 1 + 1) (route ++ pre.take shared) new.key := by
      rw [hroute, show n - shared - 1 + 1 = 2 * N - (route.length + shared) by omega]
      exact below_take hln _
    refine hbn.getElem?_eq_some.mp ?_
    rw [List.length_append, hpl, hb]
  -- the old branch, below the first nibble it loses
  have hold : canon (n - shared - 1) (route ++ pre.take shared ++ [a])
      (Function.update m new.key (some new)) = .branch (pre.drop (shared + 1)) kids := by
    rw [List.append_assoc, hta, ← canon_drop hc (show shared + 1 ≤ pre.length from hlt),
      show n - shared - 1 = n - (shared + 1) by omega]
    refine canon_congr fun p hp => Function.update_of_ne ?_ _ _
    rintro rfl
    rw [show n - (shared + 1) = n - shared - 1 by omega, ← hta, ← List.append_assoc] at hp
    exact hab (hp.head_unique hbb)
  have htree : canon n route (Function.update m new.key (some new))
      = .branch (pre.take shared) (Function.update (Function.update (fun _ => .empty) a
        (.branch (pre.drop (shared + 1)) kids)) b (.leaf new)) := by
    refine canon_fork (j := n - shared - 1) (by omega) hab (by simp) (by simp) hold ?_ ?_
    · refine canon_update_lone (some new) hbb fun q hq hqn => ?_
      by_contra hmq
      have hq' := hcom q (below_append (j := n - shared) (pre.take shared) (by omega)
        (by rw [show n - shared = n - shared - 1 + 1 by omega]; exact below_succ.mpr ⟨b, hq⟩)) hmq
      have hqa : Below (n - shared - 1) (route ++ pre.take shared ++ [a]) q := by
        refine below_append (j := j + 1) (pre.drop (shared + 1)) (by simp; omega) ?_
        rwa [List.append_assoc route, hta, List.append_assoc, List.take_append_drop]
      exact hab (hqa.head_unique hq)
    · intro q hq hqn
      by_cases hqt : q = new.key
      · exact .inr (hqt ▸ hbb)
      · rw [Function.update_of_ne hqt] at hqn
        refine .inl (below_append (j := j + 1) (pre.drop (shared + 1)) (by simp; omega) ?_)
        rw [List.append_assoc route, hta, List.append_assoc, List.take_append_drop]
        exact hcom q hq hqn
  have hm' : Keyed (Function.update m new.key (some new)) :=
    hm.update new.path fun l hl => by rw [Option.some.inj hl]
  rw [htree] at hf ⊢
  have hsub : T.branches (.branch (pre.drop (shared + 1)) kids) ⊆
      T.branches (.branch (pre.take shared) (Function.update (Function.update (fun _ => .empty) a
        (.branch (pre.drop (shared + 1)) kids)) b (.leaf new))) := by
    have := T.branches_kid (pre.take shared) (Function.update (Function.update (fun _ => .empty) a
        (.branch (pre.drop (shared + 1)) kids)) b (.leaf new)) a
    rwa [Function.update_of_ne hab, Function.update_self] at this
  obtain ⟨tx₁, hr₁, hs₁, he₁⟩ := storeChildren_canon hA hsound hm'
    (by simp; omega : (route ++ pre.take shared ++ [a]).length + (n - shared - 1) = 2 * N) hold (hf.subset hsub) hs.kid
  obtain ⟨tx₂, hr₂, hs₂, he₂⟩ := storeChildren_canon hA (hsound.grows he₁ (hf.subset hsub)) hm' hlen
    htree hf (by
      intro s
      by_cases hsb : s = b
      · rw [hsb, Function.update_self]
        exact stored_leaf new
      · rw [Function.update_of_ne hsb]
        by_cases hsa : s = a
        · rw [hsa, Function.update_self]
          exact hs₁
        · rw [Function.update_of_ne hsa]
          exact stored_empty)
  refine ⟨tx₂, ?_, hs₂, (he₁.mono hsub).trans he₂⟩
  unfold splitBranch
  refine (Prog.Runs.ofExcept (slice_eq (by omega) (show shared + 1 ≤ pre.length from hlt))).bind ?_
  refine (Prog.Runs.ofExcept (slice_eq hlt le_rfl)).bind ?_
  rw [hnode.children, List.drop_zero, ← hta, ← List.append_assoc, List.take_length]
  refine hr₁.bind ?_
  refine (Prog.Runs.ofExcept (index_eq ha)).bind ?_
  refine (Prog.Runs.ofExcept (index_eq hb)).bind ?_
  refine (Prog.Runs.ofExcept (slice_eq (Nat.zero_le shared) hlt.le)).bind ?_
  rw [ref_update, ref_update] at hr₂
  exact hr₂

/-- Updated children are stored under their branch, or merged away with it. -/
theorem rebuildBranch_canon (hA : T.Assumes P B) {j : ℕ} (hlen : route.length + n = 2 * N)
    (hj : pre.length + (j + 1) = n) (hm : Keyed m) (hsound : T.Sound P B (rows tx T.table))
    (hkids : ∀ s, kids s = canon j (route ++ pre ++ [s]) m)
    (hc : canon n route m = Radix.collapse pre kids) (hne : ∃ s, kids s ≠ .empty)
    (hs : ∀ s, T.Stored (rows tx T.table) (kids s)) (hf : T.Fits P B (Radix.collapse pre kids)) :
    T.Writes (T.rebuildBranch pre (fun s => T.ref (kids s)) route) tx (Radix.collapse pre kids) := by
  unfold rebuildBranch
  rw [filter_ref]
  rcases active_cases kids with h0 | ⟨s, hsne, ho⟩ | ⟨s, s', hss, h1, h2⟩
  · obtain ⟨s, hne⟩ := hne
    exact absurd (h0 s) hne
  · rw [active_eq_singleton.mpr ⟨hsne, ho⟩]
    cases hk : kids s with
    | empty => exact absurd hk hsne
    | leaf l =>
      rw [collapse_lone_leaf hk ho]
      simp only [hk, ref]
      exact Writes.pure (stored_leaf l)
    | branch cp gk =>
      have hcl : Radix.collapse pre kids = _ := collapse_lone_branch hk ho
      rw [hcl] at hc hf ⊢
      have hsk := hs s
      have hcs := hkids s
      rw [hk] at hsk hcs
      obtain ⟨child, hload, hof⟩ := load_canon tx hA.valid hm
        (by simp; omega : (route ++ pre ++ [s]).length + j = 2 * N) hcs.symm hsk
      simp only [hk, ref]
      refine Writes.of_runs (Prog.Runs.read hload) ?_
      rw [hof.unpackPrefix, hof.children, List.append_assoc, List.singleton_append]
      exact storeChildren_canon hA hsound hm hlen hc hf hsk.kid
  · rw [collapse_many hss h1 h2] at hc hf ⊢
    obtain ⟨x, y, rest, hact⟩ := exists_two_active ⟨s, s', hss, h1, h2⟩
    rw [hact]
    exact storeChildren_canon hA hsound hm hlen hc hf hs

/-- A branch is edited: split off its prefix, or at the child the target goes through. -/
theorem editBranch_canon (hA : T.Assumes P B)
    {editChild : RootRef N → List Nibble → Prog MerkleError τ (RootRef N)}
    (hrep : ∀ l, replacement = some l → l.path = target) (hlen : route.length + n = 2 * N)
    (hm : Keyed m) (ht : Below n route (nibbles target.1)) (hsound : T.Sound P B (rows tx T.table))
    (hc : canon n route m = .branch pre kids) (hs : T.Stored (rows tx T.table) (.branch pre kids))
    (hf : T.Fits P B (canon n route (Function.update m (nibbles target.1) replacement)))
    (hchild : ∀ j s, pre.length + (j + 1) = n → Below j (route ++ pre ++ [s]) (nibbles target.1) →
      T.Fits P B (canon j (route ++ pre ++ [s]) (Function.update m (nibbles target.1) replacement)) →
      T.Writes (editChild (T.ref (kids s)) (route ++ pre ++ [s])) tx
        (canon j (route ++ pre ++ [s]) (Function.update m (nibbles target.1) replacement))) :
    T.Writes (T.editBranch editChild (T.branchHash (pre, fun s => T.ref (kids s))) target replacement
        route) tx (canon n route (Function.update m (nibbles target.1) replacement)) := by
  obtain ⟨node, hload, hof⟩ := load_canon tx hA.valid hm hlen hc hs
  obtain ⟨j, hj, hcom, hkids, s₁, s₂, hne, hs₁, hs₂⟩ := canon_branch_inv hc
  have hlt : (nibbles target.1).length = 2 * N := by rw [nibbles_length, target.2]
  unfold editBranch
  refine Writes.of_runs (Prog.Runs.read hload) ?_
  refine Writes.of_runs (Prog.Runs.ofExcept (slice_eq (by omega) le_rfl)) ?_
  rw [hof.unpackPrefix, hof.children, List.take_length]
  obtain ⟨hle, htake, hdiff⟩ := zip_takeWhile_spec pre ((nibbles target.1).drop route.length)
  generalize ((pre.zip ((nibbles target.1).drop route.length)).takeWhile
    fun e => e.1 = e.2).length = shared at hle htake hdiff
  by_cases hshared : shared = pre.length
  · -- the target goes on below the prefix
    rw [if_neg (not_not.mpr hshared)]
    subst hshared
    have hroute : route ++ pre = (nibbles target.1).take (route.length + pre.length) := by
      rw [List.take_length] at htake
      rw [← ht.route_append (d := route.length + pre.length) (by omega), List.drop_take,
        Nat.add_sub_cancel_left, ← htake]
    have hbt : Below (j + 1) (route ++ pre) (nibbles target.1) := by
      rw [hroute, show j + 1 = 2 * N - (route.length + pre.length) by omega]
      exact below_take hlt _
    obtain ⟨slot, hslot⟩ := below_succ.mp hbt
    have hidx := hbt.getElem?_eq_some.mpr hslot
    refine Writes.of_runs (Prog.Runs.ofExcept (index_eq hidx)) ?_
    set m' := Function.update m (nibbles target.1) replacement with hmdef
    set kids' := Function.update kids slot (canon j (route ++ pre ++ [slot]) m') with hkids'
    have hkidseq : ∀ s, kids' s = canon j (route ++ pre ++ [s]) m' := by
      intro s
      by_cases hsl : s = slot
      · rw [hsl, hkids', Function.update_self]
      · rw [hkids', Function.update_of_ne hsl, hkids]
        refine canon_congr fun p hp => (Function.update_of_ne ?_ _ _).symm
        rintro rfl
        exact hsl (hp.head_unique hslot)
    have hcc : canon n route m' = Radix.collapse pre kids' := by
      rw [canon_eq_collapse hj, funext hkidseq]
      intro p hp hmp
      by_cases hpt : p = nibbles target.1
      · exact hpt ▸ hbt
      · rw [hmdef, Function.update_of_ne hpt] at hmp
        exact hcom p hp hmp
    -- another child stays, so the edited child is only merged away when it is no branch
    obtain ⟨other, hother, hone⟩ : ∃ x, x ≠ slot ∧ kids' x ≠ .empty := by
      by_cases h1 : s₁ = slot
      · exact ⟨s₂, fun h => hne (h1.trans h.symm), by
          rwa [hkids', Function.update_of_ne fun h => hne (h1.trans h.symm)]⟩
      · exact ⟨s₁, h1, by rwa [hkids', Function.update_of_ne h1]⟩
    have hsub : T.branches (kids' slot) ⊆ T.branches (Radix.collapse pre kids') := by
      cases hk : kids' slot with
      | empty => simp [branches]
      | leaf l => simp [branches]
      | branch cp gk =>
        rw [← hk]
        exact T.branches_collapse pre kids' hother hone (by rw [hk]; simp) slot
    rw [hcc] at hf ⊢
    obtain ⟨tx₁, hr₁, hst₁, he₁⟩ := hchild j slot hj hslot
      (by rw [← hkidseq]; exact hf.subset hsub)
    rw [← hkidseq slot] at hr₁ hst₁ he₁
    have he₁' := he₁.mono hsub
    have hstored : ∀ s, T.Stored (rows tx₁ T.table) (kids' s) := by
      intro s
      by_cases hsl : s = slot
      · rw [hsl]
        exact hst₁
      · rw [hkids', Function.update_of_ne hsl]
        exact (hs.kid s).grows he₁
    by_cases hsame : T.ref (kids' slot) = T.ref (kids slot)
    · -- nothing changed, and neither did the branch's reference
      have hrefs : (fun s => T.ref (kids' s)) = fun s => T.ref (kids s) := by
        rw [hkids', ref_update, ← hkidseq slot, hsame]
        exact Function.update_eq_self slot _
      have hempty : ∀ s, kids' s = .empty ↔ kids s = .empty := by
        intro s
        rw [← T.ref_eq_empty, ← T.ref_eq_empty (t := kids s)]
        exact Eq.congr (congrFun hrefs s) rfl
      have hmany : Radix.collapse pre kids' = _ := collapse_many hne (mt (hempty s₁).mp hs₁) (mt (hempty s₂).mp hs₂)
      rw [hmany] at he₁' ⊢
      refine ⟨tx₁, hr₁.bind ?_, stored_branch hstored ?_, he₁'⟩
      · rw [if_pos hsame, ref, hrefs]
        exact Prog.Runs.pure _ _
      · rw [hrefs]
        obtain ⟨node', hof', hrow⟩ := hs _ (T.branches_branch.mpr (.inl rfl))
        exact ⟨node', hof', he₁.kept _ _ hrow⟩
    · obtain ⟨tx₂, hr₂, hst₂, he₂⟩ := rebuildBranch_canon hA hlen hj (hm.update target hrep)
        (hsound.grows he₁' hf) hkidseq hcc ⟨other, hone⟩ hstored hf
      refine ⟨tx₂, hr₁.bind ?_, hst₂, he₁'.trans he₂⟩
      rw [if_neg hsame, ← ref_update, hkidseq slot]
      exact hr₂
  · rw [if_pos hshared]
    have hslt : shared < pre.length := by omega
    cases replacement with
    | none =>
      -- the target is not in the tree: its path leaves the prefix
      have hnone : Function.update m (nibbles target.1) none = m := by
        rw [Function.update_eq_self_iff]
        by_contra hmt
        obtain ⟨q, -, hq⟩ := hcom _ ht (Ne.symm hmt)
        refine hdiff hslt ?_
        rw [hq, List.append_assoc, List.drop_left' rfl, List.getElem?_append_left hslt]
      rw [hnone, hc]
      exact Writes.pure hs
    | some new =>
      have hkey : nibbles target.1 = new.key := by rw [LeafRef.key, hrep new rfl]
      rw [hkey] at ht hf htake hdiff ⊢
      exact splitBranch_canon hA hof hlen hm ht hsound hc hs hf hslt htake (hdiff hslt)

end Step

/-- **One edit writes the tree of the edited map.** -/
theorem edit_canon (hA : T.Assumes P B) {target : Arr N} {replacement : Option (LeafRef N)}
    (hrep : ∀ l, replacement = some l → l.path = target) {m : List Nibble → Option (LeafRef N)}
    (hm : Keyed m) :
    ∀ (fuel n : ℕ) (route : List Nibble) (tx : τ), route.length + n = 2 * N → n < fuel →
      Below n route (nibbles target.1) → T.Sound P B (rows tx T.table) →
      T.Stored (rows tx T.table) (canon n route m) →
      T.Fits P B (canon n route (Function.update m (nibbles target.1) replacement)) →
      T.Writes (T.edit target replacement fuel (T.ref (canon n route m)) route) tx
        (canon n route (Function.update m (nibbles target.1) replacement)) := by
  intro fuel
  induction fuel with
  | zero => intro n route tx _ hn; omega
  | succ fuel ih =>
    intro n route tx hlen hn ht hsound hs hf
    cases hc : canon n route m with
    | empty =>
      rw [canon_update_lone replacement ht fun q hq _ => canon_eq_empty.mp hc q hq]
      simp only [ref, edit, ← ref_replaced (T := T)]
      exact Writes.pure (stored_replaced _ _)
    | leaf old => exact editLeaf_canon hA hrep hlen hm ht hsound hc hf
    | branch pre kids =>
      rw [hc] at hs
      obtain ⟨j₀, hj₀, -, hkids, -⟩ := canon_branch_inv hc
      refine editBranch_canon hA hrep hlen hm ht hsound hc hs hf fun j s hj hb hfs => ?_
      obtain rfl : j = j₀ := by omega
      have hk : kids s = canon j (route ++ pre ++ [s]) m := congrFun hkids s
      rw [hk]
      exact ih j _ tx (by simp; omega) (by omega) hb hsound (hk ▸ hs.kid s) hfs

end Trie

end GolemDb.Merkle
