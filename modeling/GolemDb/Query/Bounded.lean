import GolemDb.Query.Queries
import GolemDb.Storage.Limited
import GolemDb.Branch.Capacity

/-!
Reads of a backend with ceilings. A backend that rejects long keys answers as its engine does while
the keys of a read are within the limit: the names of a projection and the terms of a filter are
not checked before they become keys.
-/

namespace GolemDb.Query

open GolemDb.Lib GolemDb.Storage GolemDb.Merkle GolemDb.Cells GolemDb.Index GolemDb.Branch GolemDb.Records

/-! ### Reads of the layers below -/

section Layers

variable {H : HashProvider} {R : Roaring} {τ : Type} [ReadTransaction τ] {tx : τ} {limits : Limits}
  (hmax : 40 ≤ limits.key)

include hmax

lemma readValue_limited {key : Bytes} (hkey : key.length ≤ limits.key) :
    readValue (⟨tx, limits⟩ : Limited τ) key = readValue tx key := by
  unfold readValue
  rw [Limited.get_eq CELL_valid (le_trans (by decide) hmax) hkey]

lemma readHeadState_limited : readHeadState (⟨tx, limits⟩ : Limited τ) = readHeadState tx := by
  unfold readHeadState
  rw [Limited.get_eq SUPERBLOCK_valid (le_trans (by decide) hmax) (le_trans (by decide) hmax)]

lemma readHead_limited : readHead (⟨tx, limits⟩ : Limited τ) = readHead tx := by
  unfold readHead
  rw [readHeadState_limited hmax]

lemma scanRecord_limited (id : U64) : scanRecord (⟨tx, limits⟩ : Limited τ) id = scanRecord tx id := by
  unfold scanRecord scanPrefix
  rw [Limited.cursor_eq CELL_valid (le_trans (by decide) hmax) (by rw [U64.toBeBytes_length]; omega)]
  rfl

variable {N : ℕ} {T : Trie N} (hT : T.table.validate = .ok ()) (hname : T.table.name.utf8ByteSize ≤ limits.key)

include hT hname

lemma load_limited (hash : Hash) (route : List Nibble) :
    T.load (⟨tx, limits⟩ : Limited τ) hash route = T.load tx hash route := by
  unfold Trie.load
  rw [Limited.get_eq hT hname (by rw [hash.2]; omega)]

lemma nextLoop_limited : ∀ (fuel : ℕ) (w : Trie.Walk N),
    Trie.Walk.nextLoop T (⟨tx, limits⟩ : Limited τ) fuel w = Trie.Walk.nextLoop T tx fuel w := by
  intro fuel
  induction fuel with
  | zero => exact fun w => rfl
  | succ fuel ih =>
    rintro ⟨stack⟩
    cases stack with
    | nil => rfl
    | cons item stack =>
      obtain ⟨root, route⟩ := item
      cases root with
      | empty => exact ih ⟨stack⟩
      | leaf leaf => rfl
      | branch hash =>
        rw [Trie.Walk.nextLoop, Trie.Walk.nextLoop, load_limited hmax hT hname]
        cases T.load tx hash route with
        | error e => rfl
        | ok node => exact ih _

lemma collectWalk_limited : ∀ (fuel : ℕ) (w : Trie.Walk N),
    Trie.Walk.collect T (⟨tx, limits⟩ : Limited τ) fuel w = Trie.Walk.collect T tx fuel w := by
  intro fuel
  induction fuel with
  | zero => exact fun w => rfl
  | succ fuel ih =>
    intro w
    have hnext : Trie.Walk.next T (⟨tx, limits⟩ : Limited τ) w = Trie.Walk.next T tx w :=
      nextLoop_limited hmax hT hname _ w
    rw [Trie.Walk.collect, Trie.Walk.collect, hnext]
    cases Trie.Walk.next T tx w with
    | mk item w' =>
      cases item with
      | none => rfl
      | some item => exact congrArg _ (ih w')

end Layers

section Index

variable {H : HashProvider} {R : Roaring} {τ : Type} [ReadTransaction τ] {tx : τ} {limits : Limits}
  (hmax : 40 ≤ limits.key)

include hmax

lemma getContainer_limited (hash : Hash) :
    ReadTransaction.get (⟨tx, limits⟩ : Limited τ) BITMAP_CONTAINER hash.1
      = ReadTransaction.get tx BITMAP_CONTAINER hash.1 :=
  Limited.get_eq BITMAP_CONTAINER_valid (le_trans (by decide) hmax) (by rw [hash.2]; omega)

/-- A posting set under a digest: its rows have digests for keys. -/
lemma bitmapAt_limited (hash : Hash) : bitmapAt H R (⟨tx, limits⟩ : Limited τ) hash = bitmapAt H R tx hash := by
  have htrie : (bitmapTrie H).table.validate = .ok () := BITMAP_TRIE_valid
  have hname : (bitmapTrie H).table.name.utf8ByteSize ≤ limits.key :=
    le_trans (by decide : BITMAP_TRIE.name.utf8ByteSize ≤ 40) hmax
  have hload : ∀ leaf, BitmapTrie.load H R (⟨tx, limits⟩ : Limited τ) leaf = BitmapTrie.load H R tx leaf := by
    intro leaf
    unfold BitmapTrie.load
    rw [getContainer_limited hmax]
  have hall : ∀ root, BitmapTrie.loadAll H R (⟨tx, limits⟩ : Limited τ) root = BitmapTrie.loadAll H R tx root := by
    intro root
    unfold BitmapTrie.loadAll
    rw [collectWalk_limited hmax htrie hname]
    simp only [hload]
    rfl
  have hreopen : BitmapTrie.reopen H R (⟨tx, limits⟩ : Limited τ) hash = BitmapTrie.reopen H R tx hash := by
    unfold BitmapTrie.reopen Trie.validateRoot
    rw [getContainer_limited hmax]
    simp only [load_limited hmax htrie hname]
  unfold bitmapAt BitmapTrie.bitmap
  rw [hreopen]
  simp only [hall]

lemma bitmap_limited {term : IndexTerm} (ht : term.bytes.length ≤ limits.key) :
    Index.bitmap H R (⟨tx, limits⟩ : Limited τ) term = Index.bitmap H R tx term := by
  unfold Index.bitmap bitmapRoot
  rw [Limited.get_eq INDEX_valid (le_trans (by decide) hmax) ht]
  simp only [bitmapAt_limited hmax]

lemma terms_limited {range : TermRange} (hr : (range.lower.value?.getD []).length ≤ limits.key) :
    Index.terms H (⟨tx, limits⟩ : Limited τ) range = Index.terms H tx range := by
  unfold Index.terms Storage.scan
  rw [Limited.cursor_eq INDEX_valid (le_trans (by decide) hmax) hr]
  rfl

end Index

/-! ### Records -/

/-- Every projected name makes a key within the limit. -/
def NamesFit (limits : Limits) (projection : Option (List CellName)) : Prop :=
  ∀ names, projection = some names → ∀ name ∈ names, 8 + name.length ≤ limits.key

section Records

variable {τ : Type} [ReadTransaction τ] {tx : τ} {limits : Limits} (hmax : 40 ≤ limits.key)

lemma get_long {key : CellKey} (h : limits.key < 8 + key.name.length) :
    Cells.get (⟨tx, limits⟩ : Limited τ) key
      = .error (.storage (.keyTooLarge (8 + key.name.length) limits.key)) := by
  have hlong : limits.key < key.encode.length := by rwa [encode_key_length]
  unfold Cells.get readValue
  rw [Limited.get_long CELL_valid hlong, encode_key_length]
  rfl

/-- A projection with a long name fails, if not at this name then before it. -/
lemma readNamed_long (id : U64) {names : List CellName} (h : ∃ name ∈ names, limits.key < 8 + name.length) :
    ∀ values, ∃ e, readNamed (⟨tx, limits⟩ : Limited τ) id names values = .error e := by
  induction names with
  | nil =>
    obtain ⟨name, hmem, -⟩ := h
    cases hmem
  | cons name names ih =>
    intro values
    obtain ⟨long, hmem, hlong⟩ := h
    rw [readNamed]
    rcases List.mem_cons.mp hmem with rfl | hmem
    · rw [get_long hlong]
      exact ⟨_, rfl⟩
    · have hrest := ih ⟨long, hmem, hlong⟩
      cases Cells.get (⟨tx, limits⟩ : Limited τ) ⟨id, name⟩ with
      | error e => exact ⟨_, rfl⟩
      | ok found =>
        cases found with
        | none => exact hrest values
        | some value => exact hrest _

lemma readCells_long (id : U64) {projection : Option (List CellName)} (h : ¬ NamesFit limits projection) :
    ∃ e, readCells (⟨tx, limits⟩ : Limited τ) id projection = .error e := by
  unfold NamesFit at h
  push Not at h
  obtain ⟨names, rfl, name, hmem, hlong⟩ := h
  exact readNamed_long id ⟨name, hmem, hlong⟩ _

include hmax

lemma readNamed_limited (id : U64) : ∀ {names : List CellName}, (∀ name ∈ names, 8 + name.length ≤ limits.key) →
    ∀ values, readNamed (⟨tx, limits⟩ : Limited τ) id names values = readNamed tx id names values := by
  intro names
  induction names with
  | nil => exact fun _ _ => rfl
  | cons name names ih =>
    intro h values
    have hname : (CellKey.encode ⟨id, name⟩).length ≤ limits.key := by
      rw [encode_key_length]
      exact h name (List.mem_cons_self ..)
    have hget : Cells.get (⟨tx, limits⟩ : Limited τ) ⟨id, name⟩ = Cells.get tx ⟨id, name⟩ :=
      readValue_limited hmax hname
    have hrest := ih fun x hx => h x (List.mem_cons_of_mem _ hx)
    rw [readNamed, readNamed, hget]
    simp only [hrest]

lemma readCells_limited (id : U64) {projection : Option (List CellName)} (h : NamesFit limits projection) :
    readCells (⟨tx, limits⟩ : Limited τ) id projection = readCells tx id projection := by
  unfold readCells
  cases projection with
  | some names => exact readNamed_limited hmax id (h names rfl) _
  | none =>
    simp only
    rw [scanRecord_limited hmax]

lemma identityCell_limited (id : U64) :
    Cells.get (⟨tx, limits⟩ : Limited τ) (State.identityCell id) = Cells.get tx (State.identityCell id) := by
  refine readValue_limited hmax ?_
  have hlen : (State.identityCell id).encode.length = 8 + Reserved.KEY.length := encode_key_length _
  have hkey : Reserved.KEY.length = 4 := by decide
  omega

lemma binding_limited (K : RecordKey) :
    Cells.get (⟨tx, limits⟩ : Limited τ) (State.binding K) = Cells.get tx (State.binding K) := by
  refine readValue_limited hmax ?_
  have hlen : (State.binding K).encode.length = 8 + K.1.length := encode_key_length _
  have hkey := K.2
  omega

lemma readCommittedById_limited (id : U64) {projection : Option (List CellName)} (h : NamesFit limits projection) :
    readCommittedById (⟨tx, limits⟩ : Limited τ) id projection = readCommittedById tx id projection := by
  unfold readCommittedById
  rw [identityCell_limited hmax]
  simp only [readCells_limited hmax id h]

lemma readCommittedByKey_limited (K : RecordKey) {projection : Option (List CellName)}
    (h : NamesFit limits projection) :
    readCommittedByKey (⟨tx, limits⟩ : Limited τ) K projection = readCommittedByKey tx K projection := by
  unfold readCommittedByKey
  rw [binding_limited hmax]
  simp only [identityCell_limited hmax, readCells_limited hmax _ h]

omit hmax in
/-- No record is read successfully under a long name. -/
lemma readCommittedById_long (id : U64) {projection : Option (List CellName)} (h : ¬ NamesFit limits projection)
    (r : Record) : readCommittedById (⟨tx, limits⟩ : Limited τ) id projection ≠ .ok r := by
  intro hok
  obtain ⟨identity, -, hok⟩ := bind_eq_ok.mp hok
  cases identity with
  | none => cases hok
  | some identity =>
    simp only at hok
    cases hkey : State.identityKey identity with
    | none =>
      rw [hkey] at hok
      cases hok
    | some key =>
      rw [hkey] at hok
      obtain ⟨cells, hcells, -⟩ := bind_eq_ok.mp hok
      obtain ⟨e, he⟩ : ∃ e, readCells (⟨tx, limits⟩ : Limited τ) id projection = .error e := readCells_long id h
      rw [he] at hcells
      cases hcells

omit hmax in
lemma readCommittedByKey_long (K : RecordKey) {projection : Option (List CellName)} (h : ¬ NamesFit limits projection)
    (r : Record) : readCommittedByKey (⟨tx, limits⟩ : Limited τ) K projection ≠ .ok r := by
  intro hok
  obtain ⟨value, -, hok⟩ := bind_eq_ok.mp hok
  obtain ⟨found, -, hok⟩ := bind_eq_ok.mp hok
  cases found with
  | none => cases hok
  | some id =>
    obtain ⟨identity, -, hok⟩ := bind_eq_ok.mp hok
    obtain ⟨⟨⟩, -, hok⟩ := bind_eq_ok.mp hok
    obtain ⟨cells, hcells, -⟩ := bind_eq_ok.mp hok
    obtain ⟨e, he⟩ : ∃ e, readCells (⟨tx, limits⟩ : Limited τ) id projection = .error e := readCells_long id h
    rw [he] at hcells
    cases hcells

end Records

/-! ### Match sets -/

/-- The keys that the evaluation of a plan reads are within the limit. -/
def Plan.Fits (limits : Limits) : Plan → Prop
  | .termRead term => term.bytes.length ≤ limits.key
  | .termReads terms => ∀ term ∈ terms.toList, term.bytes.length ≤ limits.key
  | .scan range => (range.lower.value?.getD []).length ≤ limits.key
  | .empty => True

/-- The terms of an admitted filter are within the limit: of a range, the lower end alone. -/
def Filter.Fits (limits : Limits) (filter : Filter) : Prop :=
  ∀ plan, Plan.tryFrom filter = .ok plan → plan.Fits limits

/-- A row of the Index table that a plan matches. -/
def Plan.Covers (key : Bytes) : Plan → Prop
  | .termRead term => key = term.bytes
  | .termReads terms => ∃ term ∈ terms, key = term.bytes
  | .scan range => range.lower.below key = true ∧ range.upper.above key = true
  | .empty => False

section MatchSets

variable {H : HashProvider} {R : Roaring} {τ : Type} [ReadTransaction τ] {tx : τ} {limits : Limits}

lemma postings_long {term : IndexTerm} (h : limits.key < term.bytes.length) :
    ∃ e, postings H R (⟨tx, limits⟩ : Limited τ) term = .error e := by
  unfold postings Index.bitmap bitmapRoot
  rw [Limited.get_long INDEX_valid h]
  exact ⟨_, rfl⟩

/-- A union fails at the first set that does. -/
lemma union_error {items : List (Except IndexError Bitmap)} (h : ∃ item ∈ items, ∃ e, item = .error e) :
    ∃ e, union items = .error e := by
  unfold union
  generalize (⟨OrdMap.empty⟩ : Bitmap) = acc
  induction items generalizing acc with
  | nil =>
    obtain ⟨item, hmem, -⟩ := h
    cases hmem
  | cons item items ih =>
    rw [List.foldlM_cons]
    cases item with
    | error e => exact ⟨_, rfl⟩
    | ok b =>
      obtain ⟨bad, hmem, e, rfl⟩ := h
      rcases List.mem_cons.mp hmem with hbad | hmem
      · cases hbad
      · exact ih ⟨_, hmem, e, rfl⟩ _

/-- The evaluation of a plan with a long key fails. -/
lemma matchSet_long {plan : Plan} (h : ¬ plan.Fits limits) :
    ∃ e, matchSet H R (⟨tx, limits⟩ : Limited τ) plan = .error e := by
  cases plan with
  | termRead term =>
    obtain ⟨e, he⟩ : ∃ e, postings H R (⟨tx, limits⟩ : Limited τ) term = .error e := postings_long (not_le.mp h)
    rw [matchSet, he]
    exact ⟨_, rfl⟩
  | termReads terms =>
    simp only [Plan.Fits, not_forall, not_le] at h
    obtain ⟨term, hmem, hlong⟩ := h
    exact union_error ⟨_, List.mem_map_of_mem hmem, postings_long hlong⟩
  | scan range =>
    have hlong := not_le.mp h
    rw [matchSet, scanPostings, Index.terms]
    unfold Storage.scan
    split_ifs
    · exact ⟨_, rfl⟩
    · rw [Limited.cursor_long INDEX_valid hlong]
      exact ⟨_, rfl⟩
  | empty => exact absurd trivial h

lemma matchSet_limited (hmax : 40 ≤ limits.key) {plan : Plan} (h : plan.Fits limits) :
    matchSet H R (⟨tx, limits⟩ : Limited τ) plan = matchSet H R tx plan := by
  have hpostings : ∀ term : IndexTerm, term.bytes.length ≤ limits.key →
      postings H R (⟨tx, limits⟩ : Limited τ) term = postings H R tx term := by
    intro term ht
    unfold postings
    rw [bitmap_limited hmax ht]
  cases plan with
  | termRead term =>
    rw [matchSet, matchSet, hpostings term h]
  | termReads terms =>
    rw [matchSet, matchSet, List.map_congr_left fun term hmem => hpostings term (h term hmem)]
  | scan range =>
    rw [matchSet, matchSet, scanPostings, scanPostings, terms_limited hmax h]
    simp only [bitmapAt_limited hmax]
  | empty => rfl

/-- A plan that matches no row of the Index table has no match. -/
lemma matchSet_uncovered [LawfulCursor τ] {plan : Plan}
    (hrev : ∀ range, plan = .scan range → reversed range.lower range.upper = false)
    (h : ∀ key value, (rows tx INDEX).get? key = some value → ¬ plan.Covers key) :
    matchSet H R tx plan = .ok ⟨OrdMap.empty⟩ := by
  have habsent : ∀ term : IndexTerm, plan.Covers term.bytes → postings H R tx term = .ok ⟨OrdMap.empty⟩ := by
    intro term hcov
    have hnone : (rows tx INDEX).get? term.bytes = none := by
      cases hv : (rows tx INDEX).get? term.bytes with
      | none => rfl
      | some value => exact absurd hcov (h _ _ hv)
    unfold postings Index.bitmap bitmapRoot
    rw [LawfulRead.get_eq INDEX_valid, hnone]
    rfl
  cases plan with
  | termRead term =>
    rw [matchSet, habsent term rfl]
    rfl
  | termReads terms =>
    rw [matchSet, List.map_congr_left fun term hmem => habsent term ⟨term, OrdSet.mem_toList.mp hmem, rfl⟩]
    unfold union
    induction terms.toList with
    | nil => rfl
    | cons term rest ih => exact ih
  | scan range =>
    obtain ⟨s, hs, hcollect⟩ := collect_scan INDEX_valid tx (hrev range rfl)
    have hsize := LawfulCursor.size_le tx INDEX
    have hnone : (rows tx INDEX).entries.filter
        (fun e => range.lower.below e.1 && range.upper.above e.1) = [] := by
      rw [List.filter_eq_nil_iff]
      intro e he hin
      rw [Bool.and_eq_true] at hin
      exact h e.1 e.2 (OrdMap.mem_entries.mp he) hin
    rw [matchSet, scanPostings, Index.terms, hs, mapError_ok, ok_bind, hcollect _ (by omega), hnone]
    rfl
  | empty => rfl

lemma reversed_of_isEmpty {lower upper : Bound Bytes} (h : TermRange.isEmpty lower upper = false) :
    reversed lower upper = false := by
  cases lower <;> cases upper <;> simp [TermRange.isEmpty, reversed, Bound.value?] at h ⊢
  all_goals first
    | exact h
    | exact le_of_lt h

/-- The range of a plan is not reversed. -/
lemma tryFrom_scan {filter : Filter} {range : TermRange} (h : Plan.tryFrom filter = .ok (.scan range)) :
    reversed range.lower range.upper = false := by
  cases filter with
  | eq field value =>
    obtain ⟨t, -, ht⟩ := map_eq_ok.mp h
    cases ht
  | isIn field values =>
    obtain ⟨found, -, hf⟩ := map_eq_ok.mp h
    cases found <;> cases hf
  | range field lower upper =>
    obtain ⟨found, hbetween, hf⟩ := map_eq_ok.mp h
    cases found with
    | none => cases hf
    | some r =>
      obtain rfl : r = range := Plan.scan.inj hf
      obtain ⟨ty, -, hb⟩ := bind_eq_ok.mp (mapError_eq_ok.mp hbetween)
      obtain ⟨name, -, hb⟩ := bind_eq_ok.mp hb
      obtain ⟨run, -, hb⟩ := bind_eq_ok.mp hb
      obtain ⟨low, -, hb⟩ := bind_eq_ok.mp hb
      obtain ⟨high, -, hb⟩ := bind_eq_ok.mp hb
      have hb := pure_eq_ok.mp hb
      split_ifs at hb with hempty
      obtain rfl := Option.some.inj hb
      exact reversed_of_isEmpty (by simpa using hempty)

end MatchSets

/-! ### Calls -/

section Calls

variable {H : HashProvider} {R : Roaring} {σ : Type} [Store σ] {limits : Limits}

/-- The snapshot of a store with limits. -/
lemma committedSnapshot_limited (hmax : 40 ≤ limits.key) (store : σ) (commit : Option CommitId) :
    committedSnapshot (⟨store, limits⟩ : LimitedStore σ) commit
      = (committedSnapshot store commit).map fun p => ((⟨p.1, limits⟩ : Limited (Store.Read σ)), p.2) := by
  unfold committedSnapshot
  have hbegin : Store.beginRead (⟨store, limits⟩ : LimitedStore σ)
      = (Store.beginRead store).map fun tx => (⟨tx, limits⟩ : Limited (Store.Read σ)) := rfl
  rw [hbegin]
  cases Store.beginRead store with
  | error e => rfl
  | ok tx =>
    have hhead : readHead (⟨tx, limits⟩ : Limited (Store.Read σ)) = readHead tx := readHead_limited hmax
    show (Except.mapError RecordError.branch (readHead (⟨tx, limits⟩ : Limited (Store.Read σ))) >>= _)
      = (Except.mapError RecordError.branch (readHead tx) >>= _).map _
    rw [hhead]
    cases readHead tx with
    | error e => rfl
    | ok head =>
      cases commit with
      | none => rfl
      | some requested =>
        show (if requested ≠ head then _ else _) = Except.map _ (if requested ≠ head then _ else _)
        split_ifs <;> rfl

lemma committedSnapshot_fst {σ : Type} [Store σ] {store : σ} {commit : Option CommitId} {tx : Store.Read σ}
    {head : CommitId} (h : committedSnapshot store commit = .ok (tx, head)) : Store.beginRead store = .ok tx := by
  obtain ⟨tx₀, htx, h⟩ := bind_eq_ok.mp h
  obtain ⟨head₀, -, h⟩ := bind_eq_ok.mp h
  have hp : (tx₀, head₀) = (tx, head) := by
    cases commit with
    | none => exact pure_eq_ok.mp h
    | some requested =>
      simp only at h
      split_ifs at h
      exact pure_eq_ok.mp h
  rw [← (Prod.mk.inj hp).1]
  exact mapError_eq_ok.mp htx

lemma snapshot_limits {store : σ} {commit : Option CommitId} {tx : Limited (Store.Read σ)} {head : CommitId}
    (h : committedSnapshot (⟨store, limits⟩ : LimitedStore σ) commit = .ok (tx, head)) :
    tx = ⟨tx.inner, limits⟩ := by
  have hbegin : (Store.beginRead store).map (fun tx => (⟨tx, limits⟩ : Limited (Store.Read σ))) = .ok tx :=
    committedSnapshot_fst h
  obtain ⟨inner, -, rfl⟩ := map_eq_ok.mp hbegin
  rfl

/-- A call on a snapshot of the store with limits, given the calls on the snapshots. -/
lemma call_limited (hmax : 40 ≤ limits.key) {α : Type} {store : σ} {commit : Option CommitId}
    {f : Store.Read σ × CommitId → Except RecordError α} {g : Limited (Store.Read σ) × CommitId → Except RecordError α}
    (h : ∀ tx head, committedSnapshot store commit = .ok (tx, head) → g (⟨tx, limits⟩, head) = f (tx, head)) :
    (committedSnapshot (⟨store, limits⟩ : LimitedStore σ) commit >>= g) = (committedSnapshot store commit >>= f) := by
  rw [committedSnapshot_limited hmax]
  cases hs : committedSnapshot store commit with
  | error e => rfl
  | ok p => exact h p.1 p.2 hs

lemma readCommitted_limited (hmax : 40 ≤ limits.key) (store : σ) (commit : Option CommitId) (K : RecordKey)
    {projection : Option (List CellName)} (h : NamesFit limits projection) :
    readCommitted (⟨store, limits⟩ : LimitedStore σ) commit K projection = readCommitted store commit K projection :=
  call_limited hmax fun _ _ _ => readCommittedByKey_limited hmax K h

lemma snapshot_rows [LawfulStore σ] {store : σ} {commit : Option CommitId} {tx : Store.Read σ} {head : CommitId}
    (h : committedSnapshot store commit = .ok (tx, head)) : rows tx = tables store := by
  obtain ⟨tx₀, htx, hrows⟩ := LawfulStore.beginRead_eq store
  obtain rfl := Except.ok.inj (htx.symm.trans (committedSnapshot_fst h))
  exact hrows

/-- A key with no binding is not found, whatever the projection. -/
lemma readCommitted_unbound [LawfulStore σ] (hmax : 40 ≤ limits.key) {store : σ} (commit : Option CommitId)
    {K : RecordKey} (h : (tables store CELL).get? (State.binding K).encode = none)
    (projection : Option (List CellName)) :
    readCommitted (⟨store, limits⟩ : LimitedStore σ) commit K projection = readCommitted store commit K projection := by
  refine call_limited hmax fun tx head hs => ?_
  have hnone : Cells.get tx (State.binding K) = .ok none := by
    unfold Cells.get readValue
    rw [LawfulRead.get_eq CELL_valid, snapshot_rows hs, h]
    rfl
  show readCommittedByKey (⟨tx, limits⟩ : Limited (Store.Read σ)) K projection = readCommittedByKey tx K projection
  unfold readCommittedByKey
  rw [binding_limited hmax, hnone]
  unfold State.recordId
  simp only [mapError_ok, ok_bind]
  split_ifs <;> rfl

lemma readCommitted_long (store : σ) (commit : Option CommitId) (K : RecordKey)
    {projection : Option (List CellName)} (h : ¬ NamesFit limits projection) (r : Record) :
    readCommitted (⟨store, limits⟩ : LimitedStore σ) commit K projection ≠ .ok r := by
  intro hok
  obtain ⟨⟨tx, head⟩, hs, hok⟩ := bind_eq_ok.mp hok
  have hread : readCommittedByKey (tx : Limited (Store.Read σ)) K projection = .ok r := hok
  rw [snapshot_limits hs] at hread
  exact readCommittedByKey_long K h r hread

/-- Evaluation within the limit finds the same set. -/
lemma evaluate_limited (hmax : 40 ≤ limits.key) (store : σ) (commit : Option CommitId) {filter : Filter}
    (h : filter.Fits limits) :
    evaluate H R (⟨store, limits⟩ : LimitedStore σ) commit filter
      = (evaluate H R store commit filter).map fun p => ((⟨p.1, limits⟩ : Limited (Store.Read σ)), p.2) := by
  unfold evaluate
  rw [committedSnapshot_limited hmax]
  cases hplan : Plan.tryFrom filter with
  | error e => rfl
  | ok plan =>
    cases committedSnapshot store commit with
    | error e => rfl
    | ok p =>
      show (matchSet H R (⟨p.1, limits⟩ : Limited (Store.Read σ)) plan >>= _) = (matchSet H R p.1 plan >>= _).map _
      rw [matchSet_limited hmax (h plan hplan)]
      cases matchSet H R p.1 plan <;> rfl

/-- Evaluation beyond the limit finds none. -/
lemma evaluate_long (store : σ) (commit : Option CommitId) {filter : Filter} (h : ¬ filter.Fits limits)
    (p : Limited (Store.Read σ) × CommitId × Bitmap) :
    evaluate H R (⟨store, limits⟩ : LimitedStore σ) commit filter ≠ .ok p := by
  intro hok
  unfold Filter.Fits at h
  push Not at h
  obtain ⟨plan, hplan, hfits⟩ := h
  obtain ⟨plan', hplan', hok⟩ := bind_eq_ok.mp hok
  obtain rfl := Except.ok.inj (hplan'.symm.trans hplan)
  obtain ⟨⟨tx, head⟩, hs, hok⟩ := bind_eq_ok.mp hok
  obtain ⟨found, hmatch, -⟩ := bind_eq_ok.mp hok
  have hfound : matchSet H R (tx : Limited (Store.Read σ)) plan' = .ok found := hmatch
  rw [snapshot_limits (mapError_eq_ok.mp hs)] at hfound
  obtain ⟨e, he⟩ : ∃ e, matchSet H R (⟨tx.inner, limits⟩ : Limited (Store.Read σ)) plan' = .error e :=
    matchSet_long hfits
  cases he.symm.trans hfound

/-- The snapshot of an evaluation has the limits of the store. -/
lemma evaluate_limits {store : σ} {commit : Option CommitId} {filter : Filter} {tx : Limited (Store.Read σ)}
    {rest : CommitId × Bitmap} (h : evaluate H R (⟨store, limits⟩ : LimitedStore σ) commit filter = .ok (tx, rest)) :
    tx = ⟨tx.inner, limits⟩ := by
  obtain ⟨plan, -, h⟩ := bind_eq_ok.mp h
  obtain ⟨⟨tx', head⟩, hs, h⟩ := bind_eq_ok.mp h
  obtain ⟨found, -, h⟩ := bind_eq_ok.mp h
  obtain ⟨rfl, -⟩ := Prod.mk.inj (pure_eq_ok.mp h)
  exact snapshot_limits (mapError_eq_ok.mp hs)

lemma count_limited (hmax : 40 ≤ limits.key) (store : σ) (commit : Option CommitId) {filter : Filter}
    (h : filter.Fits limits) :
    count H R (⟨store, limits⟩ : LimitedStore σ) commit filter = count H R store commit filter := by
  unfold count
  rw [evaluate_limited hmax store commit h]
  cases evaluate H R store commit filter <;> rfl

lemma count_long (store : σ) (commit : Option CommitId) {filter : Filter} (h : ¬ filter.Fits limits) (n : U64) :
    count H R (⟨store, limits⟩ : LimitedStore σ) commit filter ≠ .ok n := by
  intro hok
  obtain ⟨p, hp, -⟩ := bind_eq_ok.mp hok
  exact evaluate_long store commit h p hp

/-- No row of the Index table matches the filter. -/
def Filter.Unmatched (r : Rows) (filter : Filter) : Prop :=
  ∀ plan, Plan.tryFrom filter = .ok plan → ∀ key value, r.get? key = some value → ¬ plan.Covers key

lemma query_limited [LawfulStore σ] (hmax : 40 ≤ limits.key) (store : σ) (commit : Option CommitId) {op : QueryOp}
    (h : op.filter.Fits limits)
    (hnames : NamesFit limits op.projection ∨ op.filter.Unmatched (tables store INDEX)) :
    query H R (⟨store, limits⟩ : LimitedStore σ) commit op = query H R store commit op := by
  unfold query
  rw [evaluate_limited hmax store commit h]
  cases he : evaluate H R store commit op.filter with
  | error e => rfl
  | ok p =>
    obtain ⟨tx, head, found⟩ := p
    have hread : (found.values.toList.mapM fun id =>
        readCommittedById (⟨tx, limits⟩ : Limited (Store.Read σ)) id op.projection)
        = found.values.toList.mapM fun id => readCommittedById tx id op.projection := by
      rcases hnames with hnames | hnone
      · simp only [readCommittedById_limited hmax _ hnames]
      · obtain ⟨plan, hplan, hrest⟩ := bind_eq_ok.mp he
        obtain ⟨⟨tx', head'⟩, hsnap, hfind⟩ := bind_eq_ok.mp hrest
        obtain ⟨found', hfound, hpure⟩ := bind_eq_ok.mp hfind
        obtain ⟨rfl, hpair⟩ := Prod.mk.inj (pure_eq_ok.mp hpure)
        obtain ⟨rfl, rfl⟩ := Prod.mk.inj hpair
        have hempty : matchSet H R tx' plan = .ok ⟨OrdMap.empty⟩ := by
          refine matchSet_uncovered (fun range hr => tryFrom_scan (hr ▸ hplan)) fun key value hv => ?_
          rw [snapshot_rows (mapError_eq_ok.mp hsnap)] at hv
          exact hnone plan hplan key value hv
        rw [Except.ok.inj (hfound.symm.trans hempty)]
        rfl
    simp only [Except.map, ok_bind]
    rw [hread]

/-- A page with a record was read under short names. -/
lemma query_long (store : σ) (commit : Option CommitId) {op : QueryOp} {page : QueryPage}
    (hok : query H R (⟨store, limits⟩ : LimitedStore σ) commit op = .ok page) :
    op.filter.Fits limits ∧ (NamesFit limits op.projection ∨ page.records = []) := by
  unfold query at hok
  obtain ⟨-, hok⟩ := guard_eq_ok.mp hok
  obtain ⟨-, hok⟩ := guard_eq_ok.mp hok
  obtain ⟨-, hok⟩ := guard_eq_ok.mp hok
  obtain ⟨⟨tx, head, found⟩, he, hok⟩ := bind_eq_ok.mp hok
  obtain ⟨records, hr, hok⟩ := bind_eq_ok.mp hok
  obtain rfl := pure_eq_ok.mp hok
  refine ⟨by_contra fun h => evaluate_long store commit h _ he, ?_⟩
  by_cases hnames : NamesFit limits op.projection
  · exact .inl hnames
  · right
    cases records with
    | nil => rfl
    | cons r rest =>
      obtain ⟨id, -, hid⟩ := mem_of_mapM (mapError_eq_ok.mp hr) r (List.mem_cons_self ..)
      have hread : readCommittedById (tx : Limited (Store.Read σ)) id op.projection = .ok r := hid
      rw [evaluate_limits he] at hread
      exact absurd hread (readCommittedById_long id hnames r)

end Calls

end GolemDb.Query
