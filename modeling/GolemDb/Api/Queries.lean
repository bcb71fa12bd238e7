import GolemDb.Query.Meaning
import GolemDb.Api.Published
import GolemDb.Api.Roots

/-!
Queries after a run. In every committed state the index is that of the cells, so a query answers the
records its filter selects, in the order of their ids and each as `get` returns it, and `count` their
number (`run_queries`).
-/

namespace GolemDb.Api

open GolemDb.Lib GolemDb.Storage GolemDb.Merkle GolemDb.Cells GolemDb.Index GolemDb.Branch GolemDb.Records GolemDb.Query

section Queries

variable {H : HashProvider} {R : Roaring} {P : Set Bytes} {σ : Type} [Store σ] [LawfulStore σ] {g : Genesis}
  {hist : History} {head : Head} {db : Branches σ} {config : OpenConfig}

/-- The committed snapshot of the head. -/
lemma committedSnapshot_head {store : σ} (hh : HeadIs (tables store) head) {commit : Option CommitId}
    (hc : commit = none ∨ commit = some head.commitId) : ∃ tx : Store.Read σ,
      committedSnapshot store commit = .ok (tx, head.commitId) ∧ rows tx = tables store := by
  obtain ⟨tx, htx, hrows⟩ := LawfulStore.beginRead_eq store
  refine ⟨tx, ?_, hrows⟩
  unfold committedSnapshot
  rw [htx, mapError_ok, ok_bind, HeadIs.readHead (by rw [hrows]; exact hh), mapError_ok, ok_bind]
  rcases hc with rfl | rfl
  · rfl
  · show (if head.commitId ≠ head.commitId then _ else _) = _
    rw [if_neg fun hne => hne rfl]
    rfl

/-- A record with an attribute has a key, and is bound to it. -/
lemma key_of_matches {c : CommitId} {m : CellMap} (hcons : Consistent c m) {filter : Filter} {r : U64}
    (hr : filter.Matches m r) : System.FIRST_USER_RECORD_ID ≤ r ∧ ∃ K, boundId m K = some r ∧
      m.get? (State.identityCell r) = some (CellValue.fromBytes32 K) := by
  obtain ⟨v, hv, hi, -⟩ := hr
  have huser : System.FIRST_USER_RECORD_ID ≤ r := (hcons.attributes _ v hv hi).1
  obtain ⟨K, hK, hb⟩ := hcons.owned _ v hv huser
  obtain ⟨r', hr', -, hid⟩ := hcons.bound K _ hK hb
  obtain rfl := CellValue.fromU64_inj hr'
  refine ⟨huser, K, ?_, hid⟩
  rw [boundId, hb]
  exact fieldU64_fromU64 r

/-- A list of distinct user records is shorter than the number of ids. -/
lemma length_lt_of_user {ids : List U64} (hs : ids.Pairwise (· < ·)) (hu : ∀ r ∈ ids, System.FIRST_USER_RECORD_ID ≤ r) :
    ids.length < 2 ^ 64 := by
  have hnodup : (0 :: ids).Nodup := by
    refine List.nodup_cons.mpr ⟨fun h0 => ?_, hs.imp ne_of_lt⟩
    exact absurd (hu 0 h0) (by decide)
  have hcard := hnodup.length_le_card
  rw [Fintype.card_fin, List.length_cons] at hcard
  omega

/-- **The answer to a query over committed cells.** -/
structure Answers (H : HashProvider) (R : Roaring) (db : Branches σ) (head : Head) (m : CellMap)
    (commit : Option CommitId) (op : QueryOp) (ids : List U64) (n : U64) (page : List Record) : Prop where
  ascending : ids.Pairwise (· < ·)
  selected : ∀ r, r ∈ ids ↔ op.filter.Matches m r
  total : n.val = ids.length
  query : Query.query H R db.store commit op = .ok ⟨page, if op.withTotal then some n else none, head.commitId⟩
  count : Query.count H R db.store commit op.filter = .ok n
  /-- Each record is the one `get` returns under its key, which is bound to the id. -/
  records : List.Forall₂ (fun r record => boundId m record.key = some r ∧
    ((Records.get .head record.key op.projection).exec db).1 = .ok record) ids page

/-- **A settled state answers every admitted filter.** -/
theorem Inv.answers (hinj : Set.InjOn H.hash P) (h : Inv H R g (Settled H R P) hist head db) {op : QueryOp}
    (hsort : op.sort = []) (hlimit : op.limit = none) (hoffset : op.offset = none) {plan : Plan}
    (hplan : Plan.tryFrom op.filter = .ok plan) {commit : Option CommitId}
    (hc : commit = none ∨ commit = some head.commitId) :
    ∃ ids n page, Answers H R db head (hist head.commitId).cells commit op ids n page := by
  have hcons := h.chain.consistent _ (le_refl head.commitId)
  obtain ⟨tx, hsnap, hrows⟩ := committedSnapshot_head h.head_is hc
  obtain ⟨found, hfound, hmem⟩ := matchSet_matches hinj (hrows ▸ h.good.holds) (named_of_consistent hcons) hplan
  have heval : evaluate H R db.store commit op.filter = .ok (tx, head.commitId, found) := by
    unfold evaluate
    rw [hplan, ok_bind, hsnap, mapError_ok, ok_bind]
    simp only [hfound, ok_bind]
    rfl
  have hsel : ∀ r, r ∈ found.values.toList ↔ op.filter.Matches (hist head.commitId).cells r := fun r =>
    OrdSet.mem_toList.trans (hmem r)
  have hsorted := found.values.toList_sorted
  have hlt := length_lt_of_user hsorted fun r hr => (key_of_matches hcons ((hsel r).mp hr)).1
  have hkeys : ∀ r, ∃ K, r ∈ found.values.toList → boundId (hist head.commitId).cells K = some r ∧
      (hist head.commitId).cells.get? (State.identityCell r) = some (CellValue.fromBytes32 K) := by
    intro r
    by_cases hr : r ∈ found.values.toList
    · obtain ⟨-, K, hK⟩ := key_of_matches hcons ((hsel r).mp hr)
      exact ⟨K, fun _ => hK⟩
    · exact ⟨⟨List.replicate 32 0, rfl⟩, fun hr' => absurd hr' hr⟩
  choose key hkey using hkeys
  have hcells : rows tx CELL = cellRows (hist head.commitId).cells := by rw [hrows, h.cells]
  have hread := readAll_eq hcells key op.projection found.values.toList fun r hr => (hkey r hr).2
  refine ⟨found.values.toList, ⟨found.values.toList.length, hlt⟩,
    found.values.toList.map fun id => ⟨key id, projected (hist head.commitId).cells id op.projection⟩, hsorted, hsel,
      rfl, ?_, ?_, ?_⟩
  · have htotal : (Fin.ofNat _ found.values.toList.length : U64) = ⟨found.values.toList.length, hlt⟩ :=
      Fin.ext (Nat.mod_eq_of_lt hlt)
    unfold Query.query
    rw [hsort, hlimit, hoffset, heval]
    simp only [ne_eq, not_true_eq_false, if_false, Option.isSome_none, Bool.false_eq_true, ok_bind, hread,
      mapError_ok, htotal]
    rfl
  · unfold Query.count
    rw [heval]
    exact congrArg Except.ok (Fin.ext (Nat.mod_eq_of_lt hlt))
  · rw [List.forall₂_map_right_iff, List.forall₂_same]
    intro r hr
    refine ⟨(hkey r hr).1, ?_⟩
    rw [get_head h.managed, hcons.recordOf, (hkey r hr).1]

/-- **Query answers are the filter's meaning in every state of a run.** An admitted filter answers the records it
selects among the committed cells, in the order of their ids, each as `get` of the head returns it, and their
number; a filter that is not admitted fails alike over every store. -/
theorem run_queries (h : Created H config db) (ops : List Op)
    (hinj : Set.InjOn H.hash {x | x ∈ runPreimages H R config.genesis ops db}) :
    (∃ head m, HeadIs (tables (run H R ops db).store) head ∧ tables (run H R ops db).store CELL = cellRows m ∧
      ∀ (op : QueryOp) (commit : Option CommitId) (plan : Plan), op.sort = [] → op.limit = none → op.offset = none →
        Plan.tryFrom op.filter = .ok plan → commit = none ∨ commit = some head.commitId →
        ∃ ids n page, Answers H R (run H R ops db) head m commit op ids n page) ∧
    ∀ (op : QueryOp) (e : QueryError), Plan.tryFrom op.filter = .error e →
      ∀ (σ' : Type) [Store σ'] (store : σ') (commit : Option CommitId),
        Query.count H R store commit op.filter = .error e ∧
        (op.sort = [] → op.limit = none → op.offset = none → Query.query H R store commit op = .error e) := by
  refine ⟨?_, fun op e he σ' _ store commit => ?_⟩
  · obtain ⟨hist, head, hinv, -⟩ := run_settled h ops hinj fun x hx => hx
    exact ⟨head, _, hinv.head_is, hinv.cells, fun op commit plan hsort hlimit hoffset hplan hc =>
      hinv.answers hinj hsort hlimit hoffset hplan hc⟩
  · have heval : evaluate H R store commit op.filter = .error e := by
      unfold evaluate
      rw [he]
      rfl
    refine ⟨by unfold Query.count; rw [heval]; rfl, fun hsort hlimit hoffset => ?_⟩
    unfold Query.query
    rw [hsort, hlimit, hoffset, heval]
    rfl

/-- The records with the attribute. -/
def rootQuery : QueryOp := QueryOp.fromFilter (.eq (ascii "name") (CellValue.fromU64 7))

theorem run_queries_demo : ∃ (head : Head) (m : CellMap) (ids : List U64) (n : U64) (page : List Record), 64 ∈ ids ∧
    Answers Trie.polyHash arrayRoaring (run Trie.polyHash arrayRoaring rootOps demoDb) head m none rootQuery
      ids n page := by
  obtain ⟨⟨head, m, -, hm, hall⟩, -⟩ := run_queries demoDb_created rootOps rootOps_injOn
  obtain ⟨t, ht⟩ : ∃ t, Plan.tryFrom rootQuery.filter = .ok (.termRead t) := tryFrom_eq (by decide) (by decide)
  obtain ⟨ids, n, page, hanswers⟩ := hall rootQuery none _ rfl rfl rfl ht (.inl rfl)
  refine ⟨head, m, ids, n, page, (hanswers.selected 64).mpr ?_, hanswers⟩
  -- the cell that the run stored under the name
  have hrow : (tables (run Trie.polyHash arrayRoaring rootOps demoDb).store CELL).get?
      (CellKey.encode ⟨64, ascii "name"⟩) = (rootCells.get? (ascii "name")).map CellValue.encode := by decide +kernel
  rw [hm, get?_cellRows] at hrow
  obtain ⟨v, hv, he⟩ := Option.map_eq_some_iff.mp hrow
  obtain rfl := CellValue.encode_inj he
  exact ⟨_, hv, rfl, rfl, rfl⟩

end Queries

end GolemDb.Api
