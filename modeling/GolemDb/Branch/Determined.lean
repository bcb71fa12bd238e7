import GolemDb.Branch.Commitment

/-!
A seal depends on the committed tables and on what the branch shows, and on nothing else. Reads of
two transactions with the same rows agree, so a batch on two buffers with the same staged rows over
such origins has the same result and stages the same rows (`stageUpdates_respects`). Two overlays
that show the same cells ask for the same changes of them, whatever else they stage.
-/

namespace GolemDb.Merkle.Trie

open GolemDb.Lib GolemDb.Storage

/-! ### Reads of equal rows -/

variable {N : ℕ} {T : Trie N} (hT : T.table.validate = .ok ()) {τ : Type} [ReadTransaction τ]
  [LawfulRead τ] {tx tx' : τ} (h : rows tx = rows tx')

include hT h

lemma load_congr (hash : Hash) (route : List Nibble) : T.load tx hash route = T.load tx' hash route := by
  unfold load
  rw [LawfulRead.get_eq hT, LawfulRead.get_eq hT, h]

lemma getLoop_congr (path : Arr N) : ∀ (fuel : ℕ) (root : RootRef N) (route : List Nibble),
    T.getLoop tx path fuel root route = T.getLoop tx' path fuel root route := by
  intro fuel
  induction fuel with
  | zero => exact fun _ _ => rfl
  | succ fuel ih =>
    intro root route
    cases root with
    | empty => rfl
    | leaf l => rfl
    | branch hash =>
      simp only [getLoop]
      rw [load_congr hT h]
      simp only [ih]

lemma get_congr (root : RootRef N) (path : Arr N) : T.get tx root path = T.get tx' root path :=
  getLoop_congr hT h path _ root []

lemma validateRoot_congr (root : RootRef N) : T.validateRoot tx root = T.validateRoot tx' root := by
  cases root with
  | empty => rfl
  | leaf l => rfl
  | branch hash =>
    unfold validateRoot
    simp only
    rw [load_congr hT h]

end GolemDb.Merkle.Trie

namespace GolemDb.Branch

open GolemDb.Lib GolemDb.Storage GolemDb.Merkle GolemDb.Cells GolemDb.Index

section Reads

variable {H : HashProvider} {R : Roaring} {τ : Type} [ReadTransaction τ] {tx tx' : τ}

section Points

variable [LawfulRead τ] (h : rows tx = rows tx')

include h

lemma rows_get_congr {t : Table} (ht : t.validate = .ok ()) (k : Bytes) :
    ReadTransaction.get tx t k = ReadTransaction.get tx' t k := by
  rw [LawfulRead.get_eq ht, LawfulRead.get_eq ht, h]

lemma bitmapLoad_congr (leaf : LeafRef 6) : BitmapTrie.load H R tx leaf = BitmapTrie.load H R tx' leaf := by
  unfold BitmapTrie.load
  rw [rows_get_congr h BITMAP_CONTAINER_valid]

lemma bitmapReopen_congr (hash : Hash) : BitmapTrie.reopen H R tx hash = BitmapTrie.reopen H R tx' hash := by
  unfold BitmapTrie.reopen
  rw [rows_get_congr h BITMAP_CONTAINER_valid, Trie.validateRoot_congr (T := bitmapTrie H) BITMAP_TRIE_valid h]

lemma bitmapRoot_congr (term : IndexTerm) : bitmapRoot H tx term = bitmapRoot H tx' term := by
  unfold bitmapRoot
  rw [rows_get_congr h INDEX_valid]

lemma indexCheck_congr (root : RootRef 32) (term : IndexTerm) (before : Option Hash) :
    IndexTrie.check H tx root term before = IndexTrie.check H tx' root term before := by
  unfold IndexTrie.check
  rw [Trie.get_congr (T := indexTrie H) INDEX_TRIE_valid h]

lemma readHeadState_congr : readHeadState tx = readHeadState tx' := by
  unfold readHeadState
  rw [rows_get_congr h SUPERBLOCK_valid]

lemma cellCheck_congr (root : RootRef 32) (key : Bytes) (before : Option CellValue) :
    CellTrie.check H tx root key before = CellTrie.check H tx' root key before := by
  unfold CellTrie.check
  simp only [Trie.get_congr (T := cellTrie H) CELL_TRIE_valid h]

lemma checkChange_congr (root : RootRef 32) (key : CellKey) (after : Option CellValue) :
    checkChange H tx root key after = checkChange H tx' root key after := by
  unfold checkChange readValue
  rw [rows_get_congr h CELL_valid]
  refine congrArg (Except.bind _) (funext fun before => ?_)
  rw [cellCheck_congr h]

end Points

section Cursors

variable [LawfulCursor τ] (h : rows tx = rows tx')

include h

/-- The first two rows of a table are what the cursors of equal rows return. -/
lemma cursors_congr {t : Table} (ht : t.validate = .ok ()) : ∃ (c c₁ c' c₁' : ReadTransaction.Cursor τ)
    (first : Option Entry), ReadTransaction.cursor tx t [] = .ok c ∧ ReadTransaction.cursor tx' t [] = .ok c' ∧
      cursorNext c = .ok (first, c₁) ∧ cursorNext c' = .ok (first, c₁') ∧
      ∃ (second : Option Entry) (c₂ c₂' : ReadTransaction.Cursor τ),
        cursorNext c₁ = .ok (second, c₂) ∧ cursorNext c₁' = .ok (second, c₂') := by
  obtain ⟨c, c₁, hc, hfirst, hat⟩ := cursor_first tx ht
  obtain ⟨c', c₁', hc', hfirst', hat'⟩ := cursor_first tx' ht
  rw [← h] at hfirst' hat'
  refine ⟨c, c₁, c', c₁', _, hc, hc', hfirst, hfirst', ?_⟩
  obtain ⟨c₂, hnext, -⟩ := LawfulCursor.next_eq hat
  obtain ⟨c₂', hnext', -⟩ := LawfulCursor.next_eq hat'
  have hexec : ReadCursor.next.exec c₁ = (.ok _, c₂) := hnext
  have hexec' : ReadCursor.next.exec c₁' = (.ok _, c₂') := hnext'
  exact ⟨_, c₂, c₂', by rw [cursorNext, hexec], by rw [cursorNext, hexec']⟩

lemma cellsReopen_congr (hash : Hash) : Cells.reopen H tx hash = Cells.reopen H tx' hash := by
  obtain ⟨c, c₁, c', c₁', first, hc, hc', hfirst, hfirst', second, c₂, c₂', hsecond, hsecond'⟩ :=
    cursors_congr h CELL_valid
  unfold Cells.reopen CellTrie.reopen CellTrie.reopenSingleton
  rw [rows_get_congr h CELL_TRIE_valid, Trie.validateRoot_congr (T := cellTrie H) CELL_TRIE_valid h, hc, hc']
  simp only [mapError_ok, ok_bind, hfirst, hfirst', hsecond, hsecond']

lemma indexReopen_congr (hash : Hash) : Index.reopen H tx hash = Index.reopen H tx' hash := by
  obtain ⟨c, c₁, c', c₁', first, hc, hc', hfirst, hfirst', second, c₂, c₂', hsecond, hsecond'⟩ :=
    cursors_congr h INDEX_valid
  unfold Index.reopen IndexTrie.reopen IndexTrie.reopenSingleton
  rw [rows_get_congr h INDEX_TRIE_valid, Trie.validateRoot_congr (T := indexTrie H) INDEX_TRIE_valid h, hc, hc']
  simp only [mapError_ok, ok_bind, hfirst, hfirst', hsecond, hsecond']

end Cursors

end Reads

/-! ### Writes on twins -/

section Twins

variable {τ : Type} [WriteTransaction τ] [LawfulWrite τ] {S : τ → τ → Prop}

/-- **A relation of twins**: related transactions show the same rows, and a write keeps them related. -/
structure Twins (S : τ → τ → Prop) : Prop where
  same : ∀ {s s'}, S s s' → rows s = rows s'
  put : ∀ {t : Table}, t.validate = .ok () → ∀ k v, Prog.Respects S (WriteTransaction.put t k v)
  insert : ∀ {t : Table}, t.validate = .ok () → ∀ k v, Prog.Respects S (WriteTransaction.insert t k v)
  delete : ∀ {t : Table}, t.validate = .ok () → ∀ k, Prog.Respects S (WriteTransaction.delete t k)

variable (hS : Twins S) {H : HashProvider} {R : Roaring}

include hS

lemma Twins.read_row {ε : Type} {f : StorageError → ε} {t : Table} (ht : t.validate = .ok ()) (k : Bytes) :
    Prog.Respects S (Prog.read fun tx : τ => (ReadTransaction.get tx t k).mapError f) :=
  Prog.Respects.read fun _ _ h => by rw [rows_get_congr (hS.same h) ht]

lemma Twins.served {N : ℕ} (T : Trie N) (hT : T.table.validate = .ok ()) : Trie.Served (.respects S) T :=
  ⟨fun _ => hS.insert hT _ _, fun _ => hS.read_row hT _,
    fun hash route => Prog.Respects.read fun _ _ h => Trie.load_congr hT (hS.same h) hash route⟩

lemma Twins.servedIndex : ServedIndex (.respects S) H R Set.univ where
  put _ := hS.put INDEX_valid _ _
  delete k := hS.delete INDEX_valid k
  insert _ := hS.insert BITMAP_CONTAINER_valid _ _
  terms := hS.served _ INDEX_TRIE_valid
  sets := hS.served _ BITMAP_TRIE_valid
  found _ := hS.read_row BITMAP_CONTAINER_valid _
  leaf root path := Prog.Respects.read fun _ _ h => by
    rw [Trie.get_congr (T := bitmapTrie H) BITMAP_TRIE_valid (hS.same h)]
  load leaf := Prog.Respects.read fun _ _ h => bitmapLoad_congr (hS.same h) leaf
  reopen hash := Prog.Respects.read fun _ _ h => bitmapReopen_congr (hS.same h) hash
  root term := Prog.Respects.read fun _ _ h => bitmapRoot_congr (hS.same h) term
  check root term before := Prog.Respects.read fun _ _ h => indexCheck_congr (hS.same h) root term before

omit [LawfulWrite τ] hS in
/-- A checked change is filed under its key. -/
lemma checked_eq (tx : τ) (l : List (CellKey × Option CellValue)) :
    l.filterMap (changeAt tx) = ((l.filterMap (changeAt tx)).map Prod.snd).map fun c => (c.key.encode, c) := by
  rw [List.map_map]
  refine (List.map_id _).symm.trans (List.map_congr_left fun x hx => ?_)
  obtain ⟨c, -, hat⟩ := List.mem_filterMap.mp hx
  unfold changeAt at hat
  split at hat
  · split_ifs at hat
    obtain rfl := Option.some.inj hat
    rfl
  · cases hat

/-- The writes of checked changes. -/
def applyChecked (H : HashProvider) (root : RootRef 32) (checked : List (Bytes × CellValueChange)) :
    Prog CellError τ CellsUpdate := do
  let root ← CellTrie.set H root (checked.map fun c => (c.1, c.2.after))
  checked.foldlM writeValue ()
  return ⟨root, checked.map Prod.snd⟩

lemma Twins.applyChecked (root : RootRef 32) (checked : List (Bytes × CellValueChange)) :
    Prog.Respects S (Branch.applyChecked H root checked : Prog CellError τ CellsUpdate) := by
  have hC := set_closed (C := .respects S) (hS.served (cellTrie H) CELL_TRIE_valid) root
    (checked.map fun c => (c.1, c.2.after))
  refine Prog.Closed.Holds.bind hC fun root => Prog.Closed.Holds.bind (C := .respects S)
    (Prog.Closed.foldlM (fun _ c => ?_) _ _) fun _ => Prog.Closed.pure (.respects S) _
  unfold writeValue
  cases c.2.after with
  | some value => exact Prog.Respects.mapError (hS.put CELL_valid _ _)
  | none =>
    refine Prog.Closed.Holds.bind (C := .respects S) (Prog.Respects.mapError (hS.delete CELL_valid _)) fun _ => ?_
    exact Prog.Closed.pure (.respects S) _

/-- A batch of cells on twins. -/
lemma Twins.cells (root : RootRef 32) (changes : List CellChange) :
    Prog.Respects S (Cells.apply H root changes : Prog CellError τ CellsUpdate) := by
  have hcheck : ∀ acc change, Prog.Respects S (checkNext H root acc change : Prog CellError τ _) := fun acc change => by
    refine Prog.Closed.Holds.bind (C := .respects S) (Prog.Respects.read fun tx tx' h => ?_) fun found => ?_
    · rw [checkChange_congr (hS.same h)]
    · cases found with
      | some change => exact Prog.Closed.pure (.respects S) _
      | none => exact Prog.Closed.pure (.respects S) _
  exact Prog.Closed.Holds.bind (C := .respects S) (Prog.Closed.foldlM hcheck _ _) fun checked =>
    hS.applyChecked root checked

/-- **Batches that do the same to the cells** end in twins, with the same report. -/
theorem Twins.apply {s s' t t' : τ} (hs : S s s') {m : CellMap} (hm : rows s CELL = cellRows m) {root : RootRef 32}
    {changes changes' : List CellChange} (hsame : perform changes m = perform changes' m) {u u' : CellsUpdate}
    (hr : Prog.Runs (Cells.apply H root changes) s u t) (hr' : Prog.Runs (Cells.apply H root changes') s' u' t') :
    u = u' ∧ S t t' := by
  obtain ⟨checked, s₁, hcheck, hrest⟩ := Prog.runs_bind_iff.mp hr
  obtain ⟨rfl, rfl, -⟩ := runs_checks _ _ _ hcheck
  obtain ⟨checked', s₁', hcheck', hrest'⟩ := Prog.runs_bind_iff.mp hr'
  obtain ⟨rfl, rfl, -⟩ := runs_checks _ _ _ hcheck'
  have hm' : rows s₁' CELL = cellRows m := by rw [← hS.same hs, hm]
  have hdiff := isDiff_changes hm changes
  have hdiff' := isDiff_changes hm' changes'
  rw [hsame] at hdiff
  have hlist : (normalizeChanges changes).filterMap (changeAt s₁)
      = (normalizeChanges changes').filterMap (changeAt s₁') := by
    rw [checked_eq, checked_eq s₁']
    exact congrArg _ (hdiff.unique hdiff')
  rw [List.nil_append] at hrest hrest'
  rw [← hlist] at hrest'
  exact (hS.applyChecked root _).runs hs hrest hrest'

end Twins

/-! ### Seals -/

section Seal

variable {H : HashProvider} {R : Roaring} {ρ : Type} [ReadTransaction ρ]

/-- Two buffers with the same staged rows, over origins with the same rows. -/
def SameBuffer [LawfulRead ρ] (b b' : Buffered ρ) : Prop := rows b.origin = rows b'.origin ∧ b.writes = b'.writes

lemma twins_sameBuffer [LawfulRead ρ] : Twins (SameBuffer (ρ := ρ)) := by
  have hrows : ∀ {b b' : Buffered ρ}, SameBuffer b b' → rows b = rows b' := by
    intro b b' h
    show b.rowsOf = b'.rowsOf
    funext t
    rw [Buffered.rowsOf, Buffered.rowsOf, h.1, h.2]
  have hstage : ∀ {b b' : Buffered ρ}, SameBuffer b b' → ∀ t k v, SameBuffer (b.stage t k v) (b'.stage t k v) := by
    intro b b' h t k v
    refine ⟨h.1, ?_⟩
    rw [Buffered.stage, Buffered.stage, h.2]
  have hput : ∀ t k v, Prog.Respects SameBuffer (Buffered.put t k v : Prog StorageError (Buffered ρ) Unit) := by
    intro t k v
    refine Prog.Closed.Holds.bind (C := .respects SameBuffer) (Prog.Closed.ofExcept _) fun _ => ?_
    exact fun b b' h => ⟨rfl, hstage h t k (some v)⟩
  have hget : ∀ {t : Table}, t.validate = .ok () → ∀ k,
      Prog.Respects SameBuffer (Prog.read fun b : Buffered ρ => b.get t k) := by
    intro t ht k
    exact Prog.Respects.read fun b b' h => rows_get_congr (hrows h) ht k
  refine ⟨hrows, fun _ => hput _, fun ht k v => ?_, fun ht k => ?_⟩
  · refine Prog.Closed.Holds.bind (C := .respects SameBuffer) (hget ht k) fun found => ?_
    split_ifs
    · exact Prog.Closed.throw (.respects SameBuffer) _
    · exact hput _ k v
  · refine Prog.Closed.Holds.bind (C := .respects SameBuffer) (hget ht k) fun found => ?_
    split_ifs
    · exact fun b b' h => ⟨rfl, hstage h _ k none⟩
    · exact Prog.Closed.pure (.respects SameBuffer) _

/-- **The writes of a seal depend on the origin's rows.** -/
lemma stageUpdates_respects [LawfulRead ρ] (cellRoot indexRoot : RootRef 32) (changes : List CellChange) :
    Prog.Respects (SameBuffer (ρ := ρ)) (stageUpdates H R cellRoot indexRoot changes) := by
  refine Prog.Closed.Holds.bind (C := .respects SameBuffer)
    (Prog.Respects.mapError (twins_sameBuffer.cells cellRoot changes)) fun update => ?_
  refine Prog.Closed.Holds.bind (C := .respects SameBuffer) (Prog.Closed.ofExcept _) fun postings => ?_
  refine Prog.Closed.Holds.bind (C := .respects SameBuffer) (Prog.Respects.mapError ?_)
    fun _ => Prog.Closed.pure (.respects SameBuffer) _
  exact Index.apply_closed (twins_sameBuffer.servedIndex) indexRoot fun _ _ => trivial

variable [LawfulCursor ρ] {origin origin' : ρ} {a b : CellOverlay} {m : CellMap}

/-- Snapshots of the same rows compute the same seal, or fail alike. -/
theorem compute_congr (h : rows origin = rows origin') (overlay : CellOverlay) :
    compute H R origin overlay = compute H R origin' overlay := by
  have hbuffer : SameBuffer (Buffered.new origin) (Buffered.new origin') := ⟨h, rfl⟩
  unfold compute
  rw [readHeadState_congr h]
  refine congrArg (Except.bind _) (funext fun head => ?_)
  cases checkedSucc head.commitId with
  | none => rfl
  | some commitId =>
    simp only
    rw [cellsReopen_congr h, indexReopen_congr h, rows_get_congr h CELL_valid]
    refine congrArg (Except.bind _) (funext fun cellRoot => congrArg (Except.bind _) (funext fun indexRoot =>
      congrArg (Except.bind _) (funext fun found => ?_)))
    split_ifs
    · rfl
    · refine congrArg (Except.bind _) (funext fun value => ?_)
      obtain ⟨hres, hend⟩ := stageUpdates_respects (H := H) (R := R) cellRoot indexRoot
        (overlay.changes ++ [.put (rootsKey head.commitId) value]) _ _ hbuffer
      rcases hrun :
        (stageUpdates H R cellRoot indexRoot (overlay.changes ++ [.put (rootsKey head.commitId) value])).exec
          (Buffered.new origin) with ⟨r, tx⟩
      rcases hrun' :
        (stageUpdates H R cellRoot indexRoot (overlay.changes ++ [.put (rootsKey head.commitId) value])).exec
          (Buffered.new origin') with ⟨r', tx'⟩
      rw [hrun, hrun'] at hres hend
      obtain rfl : r = r' := hres
      rw [hrun, hrun']
      cases r with
      | error e => rfl
      | ok update =>
        have hw : tx.intoWrites = tx'.intoWrites := hend.2
        simp only [hw]

/-- **A seal depends on the committed rows and on what the branch shows.** -/
theorem compute_determined (hrows : rows origin = rows origin') (hm : rows origin CELL = cellRows m)
    (hshown : m.overlay a.entries = m.overlay b.entries) {s s' : SealedCommit}
    (h : compute H R origin a = .ok s) (h' : compute H R origin' b = .ok s') : s = s' := by
  obtain ⟨head, cellRoot, indexRoot, tx, hhead, hsucc, hcell, hindex, -, hrun, hstate, hiroot, hw⟩ := compute_runs h
  obtain ⟨head', cellRoot', indexRoot', tx', hhead', hsucc', hcell', hindex', -, hrun', hstate', hiroot', hw'⟩ :=
    compute_runs h'
  obtain rfl := Except.ok.inj (hhead.symm.trans ((readHeadState_congr hrows).trans hhead'))
  obtain rfl := Except.ok.inj (hcell.symm.trans ((cellsReopen_congr hrows _).trans hcell'))
  obtain rfl := Except.ok.inj (hindex.symm.trans ((indexReopen_congr hrows _).trans hindex'))
  have hid : s.commitId = s'.commitId := Option.some.inj (hsucc.symm.trans hsucc')
  have hperform : perform (a.changes ++ [.put (rootsKey head.commitId) (rootsValue head)]) m
      = perform (b.changes ++ [.put (rootsKey head.commitId) (rootsValue head)]) m := by
    rw [perform_seal, perform_seal, hshown]
  obtain ⟨u, t, hcells, hrest⟩ := Prog.runs_bind_iff.mp hrun
  obtain ⟨u', t', hcells', hrest'⟩ := Prog.runs_bind_iff.mp hrun'
  obtain ⟨rfl, ht⟩ := twins_sameBuffer.apply
    (show SameBuffer (Buffered.new origin) (Buffered.new origin') from ⟨hrows, rfl⟩)
    (m := m) hm hperform (Prog.runs_mapError.mp hcells) (Prog.runs_mapError.mp hcells')
  have hindexed : Prog.Respects SameBuffer (do
      let postings ← Prog.ofExcept (postingsOf u.changedCells)
      let indexUpdate ← Prog.mapError BranchError.index (Index.apply H R indexRoot postings)
      return (u, indexUpdate) : Prog BranchError (Buffered ρ) (CellsUpdate × IndexUpdate)) := by
    refine Prog.Closed.Holds.bind (C := .respects SameBuffer) (Prog.Closed.ofExcept _) fun ps => ?_
    refine Prog.Closed.Holds.bind (C := .respects SameBuffer) (Prog.Respects.mapError ?_)
      fun _ => Prog.Closed.pure (.respects SameBuffer) _
    exact Index.apply_closed (twins_sameBuffer.servedIndex) indexRoot fun _ _ => trivial
  obtain ⟨hpair, hend⟩ := hindexed.runs ht hrest hrest'
  obtain ⟨hcellsEq, hindexEq⟩ := Prod.mk.inj hpair
  obtain ⟨c₁, r₁, i₁, cells₁, index₁, w₁⟩ := s
  obtain ⟨c₂, r₂, i₂, cells₂, index₂, w₂⟩ := s'
  simp only at hid hcellsEq hindexEq hstate hstate' hiroot hiroot' hw hw'
  subst hid hcellsEq hindexEq
  rw [hstate, hstate', hiroot, hiroot', hw, hw', hend.2]

end Seal

end GolemDb.Branch
