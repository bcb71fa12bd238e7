import GolemDb.Cells.Commit
import GolemDb.Index.Postings

/-!
The index under its trie. A state of the index is a table of digests, the branches of the tree that
commits to them, and the tables of the posting sets (`Represents`). A batch of postings over such a
state performs its changes in order, reports the terms whose sets differ and returns the root of the
new map (`apply_postings`), and so does the run of its changes one at a time (`postings_spec`).
-/

namespace GolemDb.Index

open GolemDb.Lib GolemDb.Storage GolemDb.Merkle GolemDb.Cells

/-! ### Digests of a map -/

section Digests

variable (H : HashProvider) (R : Roaring) (M : Postings)

/-- The digests of the posting sets. -/
def digests : TermMap := M.sets.relabel id strictMono_id fun S => (setRoot H R S).hash H

/-- The root of a map of posting sets. -/
def indexRoot : RootRef 32 := flatRoot (indexTrie H) INDEX_LEAF_DOMAIN (termRows (digests H R M))

/-- What is hashed for a map of posting sets. -/
def indexPreimages : List Bytes :=
  flatPreimages (indexTrie H) INDEX_LEAF_DOMAIN (termRows (digests H R M))
    ++ M.sets.entries.flatMap fun e => setPreimages H R e.2

/-- **The tables hold the map**: its digests with the tree that commits to them, and its sets. -/
structure Represents (P : Set Bytes) (r : Table → Rows) : Prop where
  table : r INDEX = termRows (digests H R M)
  commits : Commits (indexTrie H) INDEX_LEAF_DOMAIN P (r INDEX_TRIE) (termRows (digests H R M))
  bitmaps : Bitmaps H P r
  held : ∀ t, Held H R P r (M.ids t)

variable {H R M} {P : Set Bytes} {r : Table → Rows}

/-- Only the tables of the index matter. -/
lemma Represents.congr (h : Represents H R M P r) {r' : Table → Rows}
    (hr : ∀ t, t = INDEX ∨ t = INDEX_TRIE ∨ t = BITMAP_TRIE ∨ t = BITMAP_CONTAINER → r' t = r t) :
    Represents H R M P r' := by
  have hindex := hr INDEX (by simp)
  have hterms := hr INDEX_TRIE (by simp)
  have hsets := hr BITMAP_TRIE (by simp)
  have hcontainers := hr BITMAP_CONTAINER (by simp)
  exact ⟨hindex.trans h.table, hterms ▸ h.commits, h.bitmaps.congr hsets hcontainers,
    fun t => (h.held t).congr hsets hcontainers⟩

@[simp] lemma get?_digests (t : IndexTerm) : (digests H R M).get? t = setDigest H R (M.ids t) := by
  have hget : (digests H R M).get? t = (M.sets.get? t).map fun S => (setRoot H R S).hash H :=
    OrdMap.get?_relabel (f := id) t
  rw [hget, Postings.get?_eq, setDigest]
  split_ifs <;> rfl

lemma separates_index (hinj : Set.InjOn H.hash P) : Separates (indexTrie H) INDEX_LEAF_DOMAIN P :=
  ⟨INDEX_TRIE_valid, hinj, by show (0x02 : UInt8) ≠ 0x03; decide⟩

/-- The preimages of each set are among those of the map. -/
lemma setPreimages_mem (hP : ∀ x ∈ indexPreimages H R M, x ∈ P) (t : IndexTerm) :
    ∀ x ∈ setPreimages H R (M.ids t), x ∈ P := by
  intro x hx
  have hget := M.get?_eq t
  by_cases hempty : M.ids t = OrdMap.empty
  · rw [hempty] at hx
    exact (held_empty (H := H) (R := R) (P := P) fun _ => OrdMap.empty).preimages x hx
  · rw [if_neg hempty] at hget
    exact hP x (List.mem_append_right _ (List.mem_flatMap.mpr ⟨_, OrdMap.mem_entries.mpr hget, hx⟩))

/-- The digest of a held set is not that of no bytes. -/
lemma digest_ne_nil (hinj : Set.InjOn H.hash P) (hnil : [] ∈ P) {S : OrdSet U64} (hS : Held H R P r S)
    (hne : S ≠ OrdMap.empty) : (setRoot H R S).hash H ≠ H.hash [] := by
  intro he
  have htree : setTree H R OrdMap.empty = .empty := Trie.refTree_empty
  have h0 : Held H R P r OrdMap.empty := held_empty r
  have hroot : (setRoot H R S).hash H = ((bitmapTrie H).ref (setTree H R OrdMap.empty)).hash H := by
    rw [he, htree]
    rfl
  refine hne (setTree_inj hinj hS.preimages h0.preimages ?_)
  exact Trie.digest_inj (T := bitmapTrie H) BITMAP_TRIE_valid hinj bitmap_domains hnil hS.stored h0.stored
    (hashed_setTree hS.preimages) (hashed_setTree h0.preimages) hroot

lemma Represents.rooted (hinj : Set.InjOn H.hash P) (h : Represents H R M P r) : Rooted H (digests H R M) := by
  intro t hash hget
  rw [get?_digests, setDigest] at hget
  split_ifs at hget with hempty
  obtain rfl := Option.some.inj hget
  exact digest_ne_nil hinj h.bitmaps.nil (h.held t) hempty

lemma leaf_eq (t : IndexTerm) (hash : Hash) :
    IndexTrie.leaf H t hash = ⟨H.hash t.bytes, leafHash H INDEX_LEAF_DOMAIN t.bytes hash.1⟩ := by
  simp [IndexTrie.leaf, IndexTerm.routingPath, IndexTerm.leafHash, HashProvider.hashParts, leafHash, leafPreimage]

/-- The digest of a term is what the trie commits to. -/
lemma check_represents {ρ : Type} [ReadTransaction ρ] [LawfulRead ρ] {tx : ρ} (hinj : Set.InjOn H.hash P)
    (hcommits : Commits (indexTrie H) INDEX_LEAF_DOMAIN P (rows tx INDEX_TRIE) (termRows (digests H R M)))
    {t : IndexTerm}
    (ht : t.bytes ∈ P) : IndexTrie.check H tx (indexRoot H R M) t (setDigest H R (M.ids t)) = .ok () := by
  have hget := (Trie.reads_refTree (T := indexTrie H) INDEX_TRIE_valid hcommits.stored).1 (t.routingPath H)
  have hmap : (commitMap (indexTrie H).hasher INDEX_LEAF_DOMAIN (termRows (digests H R M))).get? (H.hash t.bytes)
      = ((termRows (digests H R M)).get? t.bytes).map (leafHash H INDEX_LEAF_DOMAIN t.bytes) :=
    get?_commitMap hinj (key_mem hcommits.preimages) ht
  have hfound : (indexTrie H).get tx (indexRoot H R M) (t.routingPath H)
      = .ok ((setDigest H R (M.ids t)).map (IndexTrie.leaf H t)) := by
    rw [indexRoot, flatRoot]
    refine hget.trans (congrArg _ ?_)
    rw [IndexTerm.routingPath, hmap, get?_termRows, get?_digests, Option.map_map, Option.map_map]
    refine congrArg (fun f => (setDigest H R (M.ids t)).map f) (funext fun hash => ?_)
    exact (leaf_eq t hash).symm
  unfold IndexTrie.check
  rw [hfound, mapError_ok, ok_bind, if_neg (not_not.mpr rfl)]

end Digests

/-- **The digest of an index binds its posting sets**, also across states. -/
theorem Represents.digest_inj (hinj : Set.InjOn H.hash P) {M' : Postings} {r' : Table → Rows} (h : Represents H R M P r)
    (h' : Represents H R M' P r') (he : (indexRoot H R M).hash H = (indexRoot H R M').hash H) : M = M' := by
  have hrows : termRows (digests H R M) = termRows (digests H R M') :=
    h.commits.digest_inj (separates_index hinj) h'.commits he
  refine Postings.ext_ids fun t => setDigest_inj hinj h.bitmaps.nil (h.held t) (h'.held t) ?_
  have hget : (termRows (digests H R M)).get? t.bytes = (termRows (digests H R M')).get? t.bytes := by rw [hrows]
  rw [get?_termRows, get?_termRows, get?_digests, get?_digests] at hget
  exact Option.map_injective Subtype.val_injective hget

/-! ### Batches over a map -/

/-- **The terms whose sets differ**, in term order, with their digests before and after. -/
structure IsTermDiff (H : HashProvider) (R : Roaring) (M M' : Postings) (changed : List TermRootChange) : Prop where
  sorted : changed.Pairwise fun a b => a.term < b.term
  mem : ∀ c, c ∈ changed ↔ c.before = setDigest H R (M.ids c.term) ∧ c.after = setDigest H R (M'.ids c.term) ∧
    M.ids c.term ≠ M'.ids c.term

/-- **The tables of posting sets grew by the sets of a map.** -/
structure SetsGrow (H : HashProvider) (R : Roaring) (M : Postings) (r r' : Table → Rows) : Prop where
  kept : ∀ u, u = BITMAP_TRIE ∨ u = BITMAP_CONTAINER → ∀ k v, (r u).get? k = some v → (r' u).get? k = some v
  branches : ∀ k v, (r' BITMAP_TRIE).get? k = some v → (r BITMAP_TRIE).get? k = some v ∨
    ∃ t, ∃ b ∈ (bitmapTrie H).branches (setTree H R (M.ids t)), k = ((bitmapTrie H).branchHash b).1
  containers : ∀ k v, (r' BITMAP_CONTAINER).get? k = some v → (r BITMAP_CONTAINER).get? k = some v ∨
    ∃ t, ∃ x ∈ M.ids t, k = (containerHash H (containerBytes R (M.ids t) (split x).1)).1

lemma SetsGrow.refl {H : HashProvider} {R : Roaring} (M : Postings) (r : Table → Rows) : SetsGrow H R M r r :=
  ⟨fun _ _ _ _ h => h, fun _ _ h => .inl h, fun _ _ h => .inl h⟩

lemma SetsGrow.grown {H : HashProvider} {R : Roaring} {M : Postings} {r r' r'' : Table → Rows} (h : SetsGrow H R M r r')
    {t : IndexTerm} (hg : Grown H R (M.ids t) r' r'') : SetsGrow H R M r r'' := by
  refine ⟨fun u hu k v hk => hg.kept u k v (h.kept u hu k v hk), fun k v hk => ?_, fun k v hk => ?_⟩
  · rcases hg.branches k v hk with hk | ⟨b, hb, -, -, hkey, -⟩
    · exact h.branches k v hk
    · exact .inr ⟨t, b, hb, hkey⟩
  · rcases hg.containers k v hk with hk | ⟨x, hx, hkey, -⟩
    · exact h.containers k v hk
    · exact .inr ⟨t, x, hx, hkey⟩

/-- **What a batch did**: the root and the tables are those of the new map, the report lists the
terms that differ, and the rows that were added to the tries belong to it. -/
structure Applied (H : HashProvider) (R : Roaring) (P : Set Bytes) {τ : Type} [WriteTransaction τ] [LawfulWrite τ]
    (tx tx' : τ) (M M' : Postings) (u : IndexUpdate) : Prop where
  root : u.root = indexRoot H R M'
  changed : IsTermDiff H R M M' u.changedTerms
  represents : Represents H R M' P (rows tx')
  frame : ∀ t, t ≠ INDEX → t ≠ INDEX_TRIE → t ≠ BITMAP_TRIE → t ≠ BITMAP_CONTAINER → rows tx' t = rows tx t
  grown : (indexTrie H).RowsGrow (refTree (commitMap H INDEX_LEAF_DOMAIN (termRows (digests H R M'))))
    (rows tx INDEX_TRIE) (rows tx' INDEX_TRIE)
  sets : SetsGrow H R M' (rows tx) (rows tx')

section Apply

variable {H : HashProvider} {R : Roaring} {P : Set Bytes} {τ : Type} [WriteTransaction τ] [LawfulWrite τ] {tx : τ}
  {M M' : Postings}

/-- The change of a term, where its digest does. -/
def termChange (H : HashProvider) (R : Roaring) (M M' : Postings) (t : IndexTerm) : Option TermRootChange :=
  if setDigest H R (M.ids t) = setDigest H R (M'.ids t) then none
  else some ⟨t, setDigest H R (M.ids t), setDigest H R (M'.ids t)⟩

/-- The tables of the flat index are as `tx₀` has them, those of the posting sets hold the old map and
the new sets of the terms that the loop is through with. -/
structure Between (H : HashProvider) (R : Roaring) (P : Set Bytes) (M M' : Postings) (through : List IndexTerm)
    (tx₀ tx : τ) : Prop where
  flat : ∀ t, t ≠ BITMAP_TRIE → t ≠ BITMAP_CONTAINER → rows tx t = rows tx₀ t
  bitmaps : Bitmaps H P (rows tx)
  before : ∀ t, Held H R P (rows tx) (M.ids t)
  after : ∀ t ∈ through, Held H R P (rows tx) (M'.ids t)
  sets : SetsGrow H R M' (rows tx₀) (rows tx)

/-- **One term of a batch.** -/
lemma applyTerm_run (hinj : Set.InjOn H.hash P) (hP : ∀ x ∈ indexPreimages H R M', x ∈ P) {tx₀ : τ}
    (hM : Represents H R M P (rows tx₀)) {through : List IndexTerm} (h : Between H R P M M' through tx₀ tx)
    {t : IndexTerm} (ht : t.bytes ∈ P) {chunk : List (PostingKey × Bool)} (hne : chunk ≠ [])
    (hchunk : ∀ e ∈ chunk, (ofLex e.1).1 = t ∧ (postingOf e).1 ≤ MAX_PATH)
    (hsorted : chunk.Pairwise fun a b => (postingOf a).1 ≤ (postingOf b).1)
    (hafter : assigned (M.ids t) (chunk.map postingOf) = M'.ids t) (changed : List TermRootChange) :
    ∃ tx', Prog.Runs (applyTerm H R (indexRoot H R M) changed chunk) tx
      (changed ++ (termChange H R M M' t).toList) tx' ∧ Between H R P M M' (t :: through) tx₀ tx' := by
  obtain ⟨e, rest, rfl⟩ := List.exists_cons_of_ne_nil hne
  obtain rfl := (hchunk e (List.mem_cons_self ..)).1
  have hindex : rows tx INDEX = termRows (digests H R M) := by rw [h.flat INDEX (by decide) (by decide), hM.table]
  have htrie : rows tx INDEX_TRIE = rows tx₀ INDEX_TRIE := h.flat INDEX_TRIE (by decide) (by decide)
  have hread : bitmapRoot H tx (ofLex e.1).1 = .ok (setDigest H R (M.ids (ofLex e.1).1)) := by
    rw [bitmapRoot_termRows (hM.rooted hinj) hindex, get?_digests]
  have hcheck : IndexTrie.check H tx _ _ _ = .ok () := check_represents hinj (htrie ▸ hM.commits) ht
  obtain ⟨tx', hrun, hB, hheld, hg⟩ := apply_held hinj h.bitmaps (h.before (ofLex e.1).1)
    (List.pairwise_map.mpr hsorted) (fun c (hc : c ∈ (e :: rest).map postingOf) => by
      obtain ⟨x, hx, rfl⟩ := List.mem_map.mp hc
      exact (hchunk x hx).2) hafter (setPreimages_mem hP _)
  refine ⟨tx', ?_, fun t h1 h2 => (hg.frame t h1 h2).trans (h.flat t h1 h2), hB, fun t => (h.before t).mono hg.kept,
    fun t ht => ?_, h.sets.grown hg⟩
  · rw [applyTerm]
    refine Prog.Runs.bind (Prog.Runs.read (f := fun tx : τ => bitmapRoot H tx (ofLex e.1).1) hread) ?_
    refine Prog.Runs.bind (Prog.Runs.read (f := fun tx : τ => IndexTrie.check H tx _ _ _) hcheck) (hrun.bind ?_)
    unfold termChange
    split_ifs with hsame
    · rw [Option.toList_none, List.append_nil]
      exact Prog.Runs.pure _ tx'
    · exact Prog.Runs.pure _ tx'
  · rcases List.mem_cons.mp ht with rfl | ht
    · exact hheld
    · exact (h.after t ht).mono hg.kept

/-- **The loop over the terms of a batch.** -/
lemma applyTerms_run (hinj : Set.InjOn H.hash P) (hP : ∀ x ∈ indexPreimages H R M', x ∈ P) {tx₀ : τ}
    (hM : Represents H R M P (rows tx₀)) {l : List (PostingKey × Bool)} (hl : ∀ e ∈ l, (postingOf e).1 ≤ MAX_PATH)
    (hsorted : ∀ t, (ofTerm t l).Pairwise fun a b => (postingOf a).1 ≤ (postingOf b).1)
    (hafter : ∀ t, assigned (M.ids t) ((ofTerm t l).map postingOf) = M'.ids t) :
    ∀ (ts through : List IndexTerm) (changed : List TermRootChange) (tx : τ), Between H R P M M' through tx₀ tx →
      (∀ t ∈ ts, t.bytes ∈ P ∧ ∃ e ∈ l, (ofLex e.1).1 = t) → ∃ tx', Prog.Runs ((ts.map fun t => ofTerm t l).foldlM
        (applyTerm H R (indexRoot H R M)) changed) tx (changed ++ ts.filterMap (termChange H R M M')) tx' ∧
        Between H R P M M' (ts.reverse ++ through) tx₀ tx' := by
  intro ts
  induction ts with
  | nil =>
    intro through changed tx h _
    exact ⟨tx, by rw [List.filterMap_nil, List.append_nil]; exact Prog.Runs.pure changed tx, h⟩
  | cons t ts ih =>
    intro through changed tx h hts
    obtain ⟨ht, e, he, het⟩ := hts t (List.mem_cons_self ..)
    obtain ⟨tx₁, h1, hb₁⟩ := applyTerm_run hinj hP hM h ht
      (List.ne_nil_of_mem (List.mem_filter.mpr ⟨he, decide_eq_true het⟩ : e ∈ ofTerm t l))
      (fun x hx => ⟨of_decide_eq_true (List.mem_filter.mp hx).2, hl x (List.mem_filter.mp hx).1⟩) (hsorted t)
      (hafter t) changed
    obtain ⟨tx', h2, hb₂⟩ := ih (t :: through) (changed ++ (termChange H R M M' t).toList) tx₁ hb₁ fun x hx =>
      hts x (List.mem_cons_of_mem _ hx)
    refine ⟨tx', ?_, by rwa [List.reverse_cons, List.append_assoc, List.singleton_append]⟩
    have hlist : changed ++ (t :: ts).filterMap (termChange H R M M')
        = changed ++ (termChange H R M M' t).toList ++ ts.filterMap (termChange H R M M') := by
      rw [List.filterMap_cons, List.append_assoc]
      cases termChange H R M M' t <;> rfl
    rw [List.map_cons, List.foldlM_cons, hlist]
    exact h1.bind h2

/-- The loop of the writes sets the rows in order. -/
lemma runs_writeTerms : ∀ (l : List TermRootChange) (tx : τ), ∃ tx', Prog.Runs (l.foldlM writeTerm ()) tx () tx' ∧
    rows tx' = Function.update (rows tx) INDEX ((l.map fun c => (c.term.bytes, c.after.map Subtype.val)).foldl
      (fun r e => r.set e.1 e.2) (rows tx INDEX)) := by
  intro l
  induction l with
  | nil => exact fun tx => ⟨tx, Prog.Runs.pure () tx, by simp⟩
  | cons c l ih =>
    intro tx
    obtain ⟨tx₁, h1, hrows₁⟩ : ∃ tx₁, Prog.Runs (writeTerm () c) tx () tx₁ ∧
        rows tx₁ = Function.update (rows tx) INDEX ((rows tx INDEX).set c.term.bytes (c.after.map Subtype.val)) := by
      unfold writeTerm
      cases c.after with
      | some hash =>
        obtain ⟨tx₁, h1, h2⟩ := LawfulWrite.put_eq INDEX_valid tx c.term.bytes hash.1
        exact ⟨tx₁, h1.mapError, h2⟩
      | none =>
        obtain ⟨tx₁, h1, h2⟩ := LawfulWrite.delete_eq INDEX_valid tx c.term.bytes
        exact ⟨tx₁, h1.mapError.bind (Prog.Runs.pure () tx₁), h2⟩
    obtain ⟨tx', h2, hrows⟩ := ih tx₁
    refine ⟨tx', ?_, ?_⟩
    · rw [List.foldlM_cons]
      exact h1.bind h2
    · rw [hrows, hrows₁, Function.update_self, Function.update_idem, List.map_cons, List.foldl_cons]

omit [WriteTransaction τ] [LawfulWrite τ] in
/-- The rows of the terms that differ lead from table to table. -/
lemma foldl_termRows {changed : List TermRootChange} (h : IsTermDiff H R M M' changed) :
    (changed.map fun c => (c.term.bytes, c.after.map Subtype.val)).foldl (fun r e => r.set e.1 e.2)
    (termRows (digests H R M))
      = termRows (digests H R M') := by
  have hrows : ∀ (l : List TermRootChange) (m : TermMap),
      (l.map fun c => (c.term.bytes, c.after.map Subtype.val)).foldl (fun r e => r.set e.1 e.2) (termRows m)
        = termRows ((l.map fun c => (c.term, c.after)).foldl (fun m e => m.set e.1 e.2) m) := by
    intro l
    induction l with
    | nil => exact fun _ => rfl
    | cons c l ih =>
      intro m
      rw [List.map_cons, List.foldl_cons, ← termRows_set, ih, List.map_cons, List.foldl_cons]
  rw [hrows]
  refine congrArg termRows (OrdMap.ext_get fun t => ?_)
  have hsorted : (changed.map fun c => (c.term, c.after)).Pairwise fun a b => a.1 < b.1 :=
    List.pairwise_map.mpr h.sorted
  rw [get?_foldl_set_last, get?_digests, get?_digests]
  by_cases hne : M.ids t = M'.ids t
  · -- the term is in no change
    have hnone : lastOf (changed.map fun c => (c.term, c.after)) t = none := lastOf_eq_none.mpr fun e he ht => by
      obtain ⟨c, hc, rfl⟩ := List.mem_map.mp he
      exact ((h.mem c).mp hc).2.2 (by rw [show c.term = t from ht, hne])
    rw [hnone, Option.getD_none, hne]
  · have hmem : (t, setDigest H R (M'.ids t)) ∈ changed.map fun c => (c.term, c.after) :=
      List.mem_map.mpr ⟨⟨t, setDigest H R (M.ids t), setDigest H R (M'.ids t)⟩, (h.mem _).mpr ⟨rfl, rfl, hne⟩, rfl⟩
    rw [(lastOf_of_sorted hsorted).mpr hmem, Option.getD_some]

/-- **A batch of postings** over a map performs its changes in order. -/
theorem apply_postings (hinj : Set.InjOn H.hash P) (hM : Represents H R M P (rows tx)) {changes : List PostingChange}
    (hterms : ∀ c ∈ changes, c.term.bytes ∈ P) (hM' : Postings.perform changes M = M')
    (hP : ∀ x ∈ indexPreimages H R M', x ∈ P) :
    ∃ u tx', Prog.Runs (apply H R (indexRoot H R M) changes) tx u tx' ∧ Applied H R P tx tx' M M' u := by
  have hkeys := normalize_sorted (changes.map PostingChange.toPair)
  have hpath : ∀ e ∈ netPostings changes, (postingOf e).1 ≤ MAX_PATH := by
    intro e he
    obtain ⟨c, -, rfl⟩ := mem_netPostings he
    rw [PostingChange.toPair_eq]
    exact path_le c.recordId
  have hterm : (netPostings changes).Pairwise fun a b => (ofLex a.1).1 ≤ (ofLex b.1).1 :=
    hkeys.imp fun hab => Prod.Lex.monotone_fst _ _ hab.le
  have hsorted : ∀ t, (ofTerm t (netPostings changes)).Pairwise fun a b => (postingOf a).1 ≤ (postingOf b).1 := by
    intro t
    have hsub : (ofTerm t (netPostings changes)).Pairwise fun a b => a.1 < b.1 := hkeys.filter _
    refine hsub.imp_of_mem fun {a b} ha hb hab => ?_
    have hta : (ofLex a.1).1 = t := of_decide_eq_true (List.mem_filter.mp ha).2
    have htb : (ofLex b.1).1 = t := of_decide_eq_true (List.mem_filter.mp hb).2
    rcases Prod.Lex.lt_iff.mp hab with hlt | ⟨-, hlt⟩
    · exact absurd hlt (by rw [hta, htb]; exact lt_irrefl t)
    · exact Prod.Lex.monotone_fst (ofLex a.1).2 (ofLex b.1).2 hlt.le
  have hafter : ∀ t, assigned (M.ids t) ((ofTerm t (netPostings changes)).map postingOf) = M'.ids t := fun t => by
    rw [assigned_netPostings, hM']
  obtain ⟨ts, hts, hmem, hchunks⟩ := chunkBy_eq (fun e : PostingKey × Bool => (ofLex e.1).1) hterm
  have hin : ∀ t ∈ ts, t.bytes ∈ P ∧ ∃ e ∈ netPostings changes, (ofLex e.1).1 = t := by
    intro t ht
    obtain ⟨e, he, rfl⟩ := (hmem t).mp ht
    obtain ⟨c, hc, rfl⟩ := mem_netPostings he
    rw [PostingChange.toPair_eq] at he ⊢
    exact ⟨hterms c hc, _, he, rfl⟩
  obtain ⟨tx₁, hrun₁, hb⟩ := applyTerms_run hinj hP hM hpath hsorted hafter ts [] [] tx
    ⟨fun _ _ _ => rfl, hM.bitmaps, hM.held, List.forall_mem_nil _, SetsGrow.refl _ _⟩ hin
  rw [List.nil_append] at hrun₁
  -- a term without changes keeps its set
  have hrest : ∀ t, t ∉ ts → M.ids t = M'.ids t := by
    intro t ht
    have hnil : ofTerm t (netPostings changes) = [] :=
      List.filter_eq_nil_iff.mpr fun e he hte => ht ((hmem t).mpr ⟨e, he, of_decide_eq_true hte⟩)
    rw [← hafter, hnil]
    rfl
  have hheld : ∀ t, Held H R P (rows tx₁) (M'.ids t) := by
    intro t
    by_cases ht : t ∈ ts
    · exact hb.after t (by simpa using ht)
    · rw [← hrest t ht]
      exact hb.before t
  have hdiff : IsTermDiff H R M M' (ts.filterMap (termChange H R M M')) := by
    have hchange : ∀ {t c}, termChange H R M M' t = some c ↔ setDigest H R (M.ids t) ≠ setDigest H R (M'.ids t) ∧
        c = ⟨t, setDigest H R (M.ids t), setDigest H R (M'.ids t)⟩ := by
      intro t c
      unfold termChange
      split_ifs with hsame
      · simp [hsame]
      · simp [hsame, eq_comm]
    refine ⟨?_, fun c => ?_⟩
    · refine List.pairwise_filterMap.mpr (hts.imp fun {t t'} hlt c hc c' hc' => ?_)
      obtain ⟨-, rfl⟩ := hchange.mp hc
      obtain ⟨-, rfl⟩ := hchange.mp hc'
      exact hlt
    · rw [List.mem_filterMap]
      constructor
      · rintro ⟨t, -, hc⟩
        obtain ⟨hne, rfl⟩ := hchange.mp hc
        exact ⟨rfl, rfl, fun he => hne (congrArg (setDigest H R) he)⟩
      · rintro ⟨hbefore, hafter', hne⟩
        refine ⟨c.term, not_not.mp fun ht => hne (hrest _ ht), hchange.mpr ⟨fun he => ?_, ?_⟩⟩
        · exact hne (setDigest_inj hinj hM.bitmaps.nil (hb.before c.term) (hheld c.term) he)
        · rw [← hbefore, ← hafter']
  obtain ⟨changed, hchanged⟩ : ∃ l, l = ts.filterMap (termChange H R M M') := ⟨_, rfl⟩
  rw [← hchanged] at hrun₁ hdiff
  have hmemP : ∀ c ∈ changed.map fun c => (c.term.bytes, c.after.map Subtype.val), c.1 ∈ P := by
    intro c hc
    obtain ⟨x, hx, rfl⟩ := List.mem_map.mp hc
    obtain ⟨-, -, hne⟩ := (hdiff.mem x).mp hx
    exact (hin x.term (not_not.mp fun ht => hne (hrest _ ht))).1
  have hcommits₁ : Commits (indexTrie H) INDEX_LEAF_DOMAIN P (rows tx₁ INDEX_TRIE) (termRows (digests H R M)) := by
    rw [hb.flat INDEX_TRIE (by decide) (by decide)]
    exact hM.commits
  obtain ⟨tx₂, hset, hcommits₂, hgrows₂⟩ := Commits.apply (separates_index hinj) hcommits₁ (foldl_termRows hdiff) hmemP
    fun x hx => hP x (List.mem_append_left _ hx)
  have hframe₂ := hgrows₂.frame
  have hedits : (changed.map fun c => (c.term, c.after)).map (fun c =>
        (c.1.routingPath H, c.2.map fun hash => (IndexTrie.leaf H c.1 hash).hash))
      = (changed.map fun c => (c.term.bytes, c.after.map Subtype.val)).map fun c =>
        ((indexTrie H).hasher.hash c.1, c.2.map (leafHash (indexTrie H).hasher INDEX_LEAF_DOMAIN c.1)) := by
    rw [List.map_map, List.map_map]
    refine List.map_congr_left fun c _ => Prod.ext rfl ?_
    simp only [Function.comp_apply, Option.map_map]
    exact congrArg (fun f => c.after.map f) (funext fun hash => by rw [leaf_eq]; rfl)
  have hrun₂ : Prog.Runs (IndexTrie.set H (indexRoot H R M) (changed.map fun c => (c.term, c.after))) tx₁
      (indexRoot H R M') tx₂ := by
    unfold IndexTrie.set
    simp only
    rw [hedits]
    exact hset.mapError
  obtain ⟨tx₃, hrun₃, hrows₃⟩ := runs_writeTerms changed tx₂
  have hother : ∀ t, t ≠ INDEX → rows tx₃ t = rows tx₂ t := fun t ht => by rw [hrows₃, Function.update_of_ne ht]
  have hsets : ∀ t, t ≠ INDEX → t ≠ INDEX_TRIE → rows tx₃ t = rows tx₁ t :=
    fun t h1 h2 => (hother t h1).trans (hframe₂ t h2)
  refine ⟨⟨indexRoot H R M', changed⟩, tx₃, ?_, rfl, hdiff, ⟨?_, ?_, ?_, fun t => ?_⟩, fun t h1 h2 h3 h4 => ?_, ?_, ?_⟩
  · have hloop : Prog.Runs ((chunkBy (fun e : PostingKey × Bool => (ofLex e.1).1) (netPostings changes)).foldlM
        (applyTerm H R (indexRoot H R M)) []) tx changed tx₁ := by
      have hfibres : chunkBy (fun e : PostingKey × Bool => (ofLex e.1).1) (netPostings changes)
          = ts.map fun t => ofTerm t (netPostings changes) :=
        hchunks.trans (List.map_congr_left fun t _ => List.filter_congr fun _ _ => decide_eq_decide.mpr Iff.rfl)
      rw [hfibres]
      exact hrun₁
    exact hloop.bind (hrun₂.bind (hrun₃.bind (Prog.Runs.pure _ tx₃)))
  · rw [hrows₃, Function.update_self, hframe₂ INDEX (by decide : INDEX ≠ INDEX_TRIE),
      hb.flat INDEX (by decide) (by decide), hM.table]
    exact foldl_termRows hdiff
  · rw [hother INDEX_TRIE (by decide)]
    exact hcommits₂
  · exact hb.bitmaps.congr (hsets BITMAP_TRIE (by decide) (by decide)) (hsets BITMAP_CONTAINER (by decide) (by decide))
  · exact (hheld t).congr (hsets BITMAP_TRIE (by decide) (by decide)) (hsets BITMAP_CONTAINER (by decide) (by decide))
  · rw [hsets t h1 h2, hb.flat t h3 h4]
  · rw [hother INDEX_TRIE (by decide)]
    have hgrow := hgrows₂.rowsGrow
    rwa [show rows tx₁ (indexTrie H).table = rows tx INDEX_TRIE from hb.flat INDEX_TRIE (by decide)
      (by decide)] at hgrow
  · refine ⟨fun u hu k v hk => ?_, fun k v hk => hb.sets.branches k v ?_, fun k v hk => hb.sets.containers k v ?_⟩
    · rw [hsets u (by rcases hu with rfl | rfl <;> decide) (by rcases hu with rfl | rfl <;> decide)]
      exact hb.sets.kept u hu k v hk
    · rwa [hsets BITMAP_TRIE (by decide) (by decide)] at hk
    · rwa [hsets BITMAP_CONTAINER (by decide) (by decide)] at hk

/-! ### Changes one at a time -/

/-- The changes of a batch, each in a batch of its own. -/
def applyEach (H : HashProvider) (R : Roaring) (root : RootRef 32) (changes : List PostingChange) :
    Prog IndexError τ (RootRef 32) :=
  changes.foldlM (fun root c => do return (← apply H R root [c]).root) root

lemma applyEach_postings (hinj : Set.InjOn H.hash P) : ∀ (changes : List PostingChange) (M : Postings) (tx : τ),
    Represents H R M P (rows tx) → (∀ c ∈ changes, c.term.bytes ∈ P) →
    (∀ l, l <+: changes → ∀ x ∈ indexPreimages H R (Postings.perform l M), x ∈ P) →
    ∃ tx', Prog.Runs (applyEach H R (indexRoot H R M) changes) tx (indexRoot H R (Postings.perform changes M)) tx' ∧
      Represents H R (Postings.perform changes M) P (rows tx') := by
  intro changes
  induction changes with
  | nil => exact fun M tx hM _ _ => ⟨tx, Prog.Runs.pure _ tx, hM⟩
  | cons c changes ih =>
    intro M tx hM hterms hP
    obtain ⟨u, tx₁, h1, happlied⟩ := apply_postings hinj hM (fun x (hx : x ∈ [c]) => by
      obtain rfl := List.mem_singleton.mp hx
      exact hterms _ (List.mem_cons_self ..)) rfl (hP [c] (by simp))
    obtain ⟨tx', h2, hrep⟩ := ih (Postings.perform [c] M) tx₁ happlied.represents
      (fun x hx => hterms x (List.mem_cons_of_mem _ hx)) fun l hl => hP (c :: l) (List.cons_prefix_cons.mpr ⟨rfl, hl⟩)
    refine ⟨tx', ?_, hrep⟩
    rw [applyEach, List.foldlM_cons]
    have hstep : Prog.Runs (do return (← apply H R (indexRoot H R M) [c]).root) tx
        (indexRoot H R (Postings.perform [c] M)) tx₁ := by
      rw [← happlied.root]
      exact h1.bind (Prog.Runs.pure _ tx₁)
    exact hstep.bind h2

end Apply

/-- **The specification of a batch of postings.** Over the tables of a map it succeeds: they hold the
map after the changes in their order, the report lists the terms whose sets differ with their
digests, and the root is that of the new map. The changes one at a time lead to the same root and
the same digests. -/
theorem postings_spec {H : HashProvider} {R : Roaring} {P : Set Bytes} (hinj : Set.InjOn H.hash P) {τ : Type}
    [WriteTransaction τ] [LawfulWrite τ] {tx : τ} {M : Postings} (hM : Represents H R M P (rows tx))
    {changes : List PostingChange} (hterms : ∀ c ∈ changes, c.term.bytes ∈ P)
    (hP : ∀ x ∈ indexPreimages H R (Postings.perform changes M), x ∈ P) :
    ∃ u tx', Prog.Runs (apply H R (indexRoot H R M) changes) tx u tx' ∧
      Applied H R P tx tx' M (Postings.perform changes M) u ∧
      ((∀ l, l <+: changes → ∀ x ∈ indexPreimages H R (Postings.perform l M), x ∈ P) →
        ∃ tx₁, Prog.Runs (applyEach H R (indexRoot H R M) changes) tx u.root tx₁ ∧
          Represents H R (Postings.perform changes M) P (rows tx₁) ∧ rows tx₁ INDEX = rows tx' INDEX) := by
  obtain ⟨u, tx', hrun, happlied⟩ := apply_postings hinj hM hterms rfl hP
  refine ⟨u, tx', hrun, happlied, fun hall => ?_⟩
  obtain ⟨tx₁, heach, hrep⟩ := applyEach_postings hinj changes M tx hM hterms hall
  refine ⟨tx₁, ?_, hrep, hrep.table.trans happlied.represents.table.symm⟩
  rw [happlied.root]
  exact heach

/-! ### Reading a map from its tables -/

section Read

variable {H : HashProvider} {R : Roaring} {P : Set Bytes} {M : Postings} {ρ : Type} [ReadTransaction ρ]
  [LawfulCursor ρ] {tx : ρ}

/-- **The posting set of a term reads back**; a term without ids has no row. -/
theorem bitmap_represents (hinj : Set.InjOn H.hash P) (hM : Represents H R M P (rows tx)) (t : IndexTerm) :
    bitmap H R tx t = .ok (if M.ids t = OrdMap.empty then none else some ⟨M.ids t⟩) := by
  unfold bitmap
  rw [bitmapRoot_termRows (hM.rooted hinj) hM.table, get?_digests, ok_bind, setDigest]
  split_ifs with hempty
  · rfl
  · have hread : bitmapAt H R tx ((setRoot H R (M.ids t)).hash H) = .ok ⟨M.ids t⟩ :=
      bitmap_held hinj hM.bitmaps (hM.held t) hempty
    simp only [hread, ok_bind]
    rfl

lemma reopen_empty (h : (rows tx INDEX).entries = []) : reopen H tx (H.hash []) = .ok .empty := by
  obtain ⟨c, c', hcursor, hfirst, -⟩ := cursor_first tx INDEX_valid
  rw [h] at hfirst
  unfold reopen IndexTrie.reopen
  rw [if_pos rfl, hcursor, mapError_ok, ok_bind, hfirst, mapError_ok, ok_bind]
  rfl

lemma reopen_leaf {t : IndexTerm} {digest : Hash} (h : (rows tx INDEX).entries = [(t.bytes, digest.1)])
    (hdigest : digest ≠ H.hash []) (hne : leafHash H INDEX_LEAF_DOMAIN t.bytes digest.1 ≠ H.hash [])
    (hnone : (rows tx INDEX_TRIE).get? (leafHash H INDEX_LEAF_DOMAIN t.bytes digest.1).1 = none) :
    reopen H tx (leafHash H INDEX_LEAF_DOMAIN t.bytes digest.1)
      = .ok (.leaf ⟨H.hash t.bytes, leafHash H INDEX_LEAF_DOMAIN t.bytes digest.1⟩) := by
  obtain ⟨c, c', hcursor, hfirst, hat⟩ := cursor_first tx INDEX_valid
  rw [h, List.head?_cons] at hfirst hat
  obtain ⟨c'', hsecond⟩ := cursor_second h hat
  unfold reopen IndexTrie.reopen
  rw [if_neg hne, LawfulRead.get_eq INDEX_TRIE_valid, hnone, mapError_ok, ok_bind]
  simp only
  unfold IndexTrie.reopenSingleton
  rw [hcursor, mapError_ok, ok_bind, hfirst, mapError_ok, ok_bind]
  simp only [hsecond, mapError_ok, ok_bind, Option.isSome_none, Bool.false_eq_true, if_false, IndexTerm.decode_bytes,
    decodeRoot_eq hdigest, leaf_eq, ne_eq, not_true_eq_false]
  rfl

lemma reopen_node {hash : Hash} {bytes : Bytes} (hne : hash ≠ H.hash [])
    (hrow : (rows tx INDEX_TRIE).get? hash.1 = some bytes)
    (hvalid : (indexTrie H).validateRoot tx (.branch hash) = .ok ()) : reopen H tx hash = .ok (.branch hash) := by
  unfold reopen IndexTrie.reopen
  rw [if_neg hne, LawfulRead.get_eq INDEX_TRIE_valid, hrow, mapError_ok, ok_bind]
  simp only [hvalid, mapError_ok, ok_bind]
  rfl

/-- **A root is recovered from its digest.** -/
theorem reopen_represents (hinj : Set.InjOn H.hash P) (hM : Represents H R M P (rows tx)) :
    reopen H tx ((indexRoot H R M).hash H) = .ok (indexRoot H R M) := by
  have hkind : RootKind (indexTrie H) INDEX_LEAF_DOMAIN (rows tx INDEX_TRIE) (termRows (digests H R M))
      (indexRoot H R M) :=
    hM.commits.kind (separates_index hinj)
  have hrooted := hM.rooted hinj
  generalize indexRoot H R M = root at hkind
  cases hkind with
  | empty hrows => exact reopen_empty (hM.table ▸ hrows)
  | leaf k v hrows hne hnone =>
    obtain ⟨⟨t, digest⟩, hentries, hkv⟩ := List.map_eq_singleton_iff.mp hrows
    obtain ⟨rfl, rfl⟩ := Prod.mk.inj hkv
    have hmem : (t, digest) ∈ (digests H R M).entries := by
      rw [hentries]
      exact List.mem_singleton_self _
    exact reopen_leaf (hM.table ▸ hrows) (hrooted t digest (OrdMap.mem_entries.mp hmem)) hne hnone
  | branch hash bytes hne hrow hvalid => exact reopen_node hne hrow (hvalid ρ tx rfl)

end Read

lemma represents_empty {H : HashProvider} {R : Roaring} {P : Set Bytes} (hnil : [] ∈ P) {r : Table → Rows}
    (hr : ∀ t, r t = OrdMap.empty) : Represents H R Postings.empty P r := by
  have hrows : termRows (digests H R Postings.empty) = OrdMap.empty := rfl
  refine ⟨by rw [hr, hrows], ?_, ⟨hnil, Trie.sound_empty (hr _), fun k v hk => ?_⟩, fun t => ?_⟩
  · rw [hr, hrows]
    exact commits_empty hnil
  · rw [hr, OrdMap.get?_empty] at hk
    cases hk
  · rw [Postings.ids_empty]
    exact held_empty r

def demoTerm : IndexTerm :=
  ⟨termBytes (ascii "a") .bool [1], ascii "a", .bool, [1], ⟨validateName_ok.mp (by decide), by decide, by decide⟩, rfl⟩

/-- A posting in one container, one in the next, and the first one removed. -/
def demoChanges : List PostingChange := [.add demoTerm 1, .add demoTerm 65541, .remove demoTerm 1]

/-- What the changes hash, in a batch or one at a time. -/
def demoPreimages : List Bytes :=
  demoTerm.bytes :: (List.range 4).flatMap fun n =>
    indexPreimages Trie.polyHash arrayRoaring (Postings.perform (demoChanges.take n) Postings.empty)

theorem postings_spec_demo : ∃ u tx', Prog.Runs (apply Trie.polyHash arrayRoaring .empty demoChanges)
      (⟨OrdMap.empty⟩ : MemoryWriteTransaction) u tx' ∧
    ⟨demoTerm, none, setDigest Trie.polyHash arrayRoaring (OrdSet.ofList [65541])⟩ ∈ u.changedTerms ∧
    ∃ tx₁, Prog.Runs (applyEach Trie.polyHash arrayRoaring .empty demoChanges) (⟨OrdMap.empty⟩ : MemoryWriteTransaction)
      u.root tx₁ ∧ rows tx₁ INDEX = rows tx' INDEX := by
  have hlist : ∀ a ∈ demoPreimages, ∀ b ∈ demoPreimages, Trie.polyHash.hash a = Trie.polyHash.hash b → a = b := by
    decide +kernel
  have hinj : Set.InjOn Trie.polyHash.hash {x | x ∈ demoPreimages} := fun a ha b hb => hlist a ha b hb
  have hall :
      ∀ l, l <+: demoChanges → ∀ x ∈ indexPreimages Trie.polyHash arrayRoaring (Postings.perform l Postings.empty),
      x ∈ demoPreimages := by
    intro l hl x hx
    rw [List.prefix_iff_eq_take.mp hl] at hx
    have hlen : l.length ≤ 3 := hl.length_le
    exact List.mem_cons_of_mem _ (List.mem_flatMap.mpr ⟨l.length, List.mem_range.mpr (by omega), hx⟩)
  have hstart : Represents Trie.polyHash arrayRoaring Postings.empty {x | x ∈ demoPreimages}
      (rows (⟨OrdMap.empty⟩ : MemoryWriteTransaction)) := represents_empty (by decide +kernel) fun _ => rfl
  obtain ⟨u, tx', hrun, happlied, heach⟩ := postings_spec hinj hstart (fun c (hc : c ∈ demoChanges) => by
    have hterm : c.term = demoTerm := by
      simp only [demoChanges, List.mem_cons, List.not_mem_nil, or_false] at hc
      rcases hc with rfl | rfl | rfl <;> rfl
    rw [hterm]
    exact List.mem_cons_self ..) (hall _ (List.prefix_refl _))
  obtain ⟨tx₁, hrun₁, -, hrows⟩ := heach hall
  have hids : (Postings.perform demoChanges Postings.empty).ids demoTerm = OrdSet.ofList [65541] := by decide +kernel
  refine ⟨u, tx', hrun, (happlied.changed.mem _).mpr ⟨?_, ?_, ?_⟩, tx₁, hrun₁, hrows⟩
  · rw [Postings.ids_empty]
    rfl
  · rw [hids]
  · rw [Postings.ids_empty, hids]
    decide +kernel

end GolemDb.Index
