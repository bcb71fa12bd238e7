import GolemDb.Api.Capacity
import GolemDb.Api.Contents
import GolemDb.Api.Queries

/-!
Reads of a deployment on a backend with ceilings. Genesis leaves room for every row that is written,
but a read may ask for a longer key: a projected name and the terms of a filter become keys as they
are. The backend refuses such a key where an unbounded one finds nothing, so the two agree exactly
on the reads whose keys fit, and of those the data that were never stored read as absent.
-/

namespace GolemDb.Api

open GolemDb.Lib GolemDb.Storage GolemDb.Merkle GolemDb.Cells GolemDb.Index GolemDb.Branch GolemDb.Records
  GolemDb.Query

/-- The requested commit is not the head. -/
def Unavailable (r : Table → Rows) (commit : Option CommitId) : Prop :=
  ∃ requested head, commit = some requested ∧ HeadIs r head ∧ requested ≠ head.commitId

/-- **A `get` whose keys fit**: short names, or no record to read them of. -/
def GetFits (limits : Limits) (r : Table → Rows) (commit : Option CommitId) (K : RecordKey)
    (projection : Option (List CellName)) : Prop :=
  NamesFit limits projection ∨ (r CELL).get? (State.binding K).encode = none ∨ Unavailable r commit

/-- **A `count` whose keys fit.** -/
def CountFits (limits : Limits) (r : Table → Rows) (commit : Option CommitId) (filter : Filter) : Prop :=
  filter.Fits limits ∨ Unavailable r commit

/-- **A `query` whose keys fit**: a short filter, and short names unless no row matches it. A request
that is refused before a read fits. -/
def QueryFits (limits : Limits) (r : Table → Rows) (commit : Option CommitId) (op : QueryOp) : Prop :=
  (op.sort ≠ [] ∨ op.limit.isSome ∨ op.offset.isSome) ∨ Unavailable r commit ∨
    op.filter.Fits limits ∧ (NamesFit limits op.projection ∨ op.filter.Unmatched (r INDEX))

section Unavailable

variable {H : HashProvider} {R : Roaring} {σ : Type} [Store σ] [LawfulStore σ] {limits : Limits} {store : σ}
  {commit : Option CommitId}

lemma committedSnapshot_unavailable (h : Unavailable (tables store) commit) :
    ∃ e, committedSnapshot store commit = .error e := by
  obtain ⟨requested, head, rfl, hhead, hne⟩ := h
  obtain ⟨tx, htx, hrows⟩ := LawfulStore.beginRead_eq store
  unfold committedSnapshot
  rw [htx, mapError_ok, ok_bind, HeadIs.readHead (by rw [hrows]; exact hhead), mapError_ok, ok_bind]
  simp only
  rw [if_pos hne]
  exact ⟨_, rfl⟩

lemma evaluate_unavailable (hmax : 40 ≤ limits.key) (h : Unavailable (tables store) commit) (filter : Filter) :
    ∃ e, evaluate H R store commit filter = .error e ∧
      evaluate H R (⟨store, limits⟩ : LimitedStore σ) commit filter = .error e := by
  obtain ⟨e, he⟩ := committedSnapshot_unavailable h
  unfold evaluate
  rw [committedSnapshot_limited hmax, he]
  cases Plan.tryFrom filter with
  | error e' => exact ⟨e', rfl, rfl⟩
  | ok plan => exact ⟨_, rfl, rfl⟩

/-! ### Reads whose keys fit -/

lemma readCommitted_fits (hmax : 40 ≤ limits.key) {K : RecordKey} {projection : Option (List CellName)}
    (h : GetFits limits (tables store) commit K projection) :
    readCommitted (⟨store, limits⟩ : LimitedStore σ) commit K projection = readCommitted store commit K projection := by
  rcases h with hnames | hunbound | hunavailable
  · exact readCommitted_limited hmax _ commit K hnames
  · exact readCommitted_unbound hmax commit hunbound projection
  · obtain ⟨e, he⟩ := committedSnapshot_unavailable hunavailable
    unfold readCommitted
    rw [committedSnapshot_limited hmax, he]
    rfl

lemma count_fits (hmax : 40 ≤ limits.key) {filter : Filter} (h : CountFits limits (tables store) commit filter) :
    count H R (⟨store, limits⟩ : LimitedStore σ) commit filter = count H R store commit filter := by
  rcases h with hfits | hunavailable
  · exact count_limited hmax _ commit hfits
  · obtain ⟨e, he, he'⟩ := evaluate_unavailable (H := H) (R := R) hmax hunavailable filter
    unfold count
    rw [he, he']
    rfl

omit [LawfulStore σ] in
/-- A query that is refused is answered before the store is read. -/
lemma query_refused {op : QueryOp} (h : op.sort ≠ [] ∨ op.limit.isSome ∨ op.offset.isSome) :
    query H R (⟨store, limits⟩ : LimitedStore σ) commit op = query H R store commit op := by
  unfold query
  by_cases hsort : op.sort ≠ []
  · rw [if_pos hsort, if_pos hsort]
  by_cases hlimit : op.limit.isSome
  · rw [if_neg hsort, if_neg hsort, if_pos hlimit, if_pos hlimit]
  · have hoffset : op.offset.isSome := (h.resolve_left hsort).resolve_left hlimit
    rw [if_neg hsort, if_neg hsort, if_neg hlimit, if_neg hlimit, if_pos hoffset, if_pos hoffset]

lemma query_fits (hmax : 40 ≤ limits.key) {op : QueryOp} (h : QueryFits limits (tables store) commit op) :
    query H R (⟨store, limits⟩ : LimitedStore σ) commit op = query H R store commit op := by
  rcases h with hrefused | hunavailable | ⟨hfits, hnames⟩
  · exact query_refused hrefused
  · obtain ⟨e, he, he'⟩ := evaluate_unavailable (H := H) (R := R) hmax hunavailable op.filter
    unfold query
    rw [he, he']
    rfl
  · exact query_limited hmax _ commit hfits hnames

end Unavailable

/-- A request that is not refused is for the head. -/
lemma available {H : HashProvider} {R : Roaring} {σ : Type} [Store σ] [LawfulStore σ] {head : Head} {cells : CellMap}
    {db : Branches σ} (h : Managed H R head cells db) {commit : Option CommitId}
    (hcommit : ¬ Unavailable (tables db.store) commit) : commit = none ∨ commit = some head.commitId := by
  cases commit with
  | none => exact .inl rfl
  | some requested =>
    by_cases he : requested = head.commitId
    · exact .inr (congrArg some he)
    · exact absurd ⟨requested, head, rfl, h.head_is, he⟩ hcommit

/-! ### What was never stored -/

/-- **A `get` under short names** returns the record, without the names it has no cell under. -/
def GetsAbsent {σ : Type} [Store σ] (limits : Limits) (store : σ) (m : CellMap) (commit : Option CommitId) : Prop :=
  ∀ K r projection, boundId m K = some r → NamesFit limits projection → ∃ cells,
    readCommitted (⟨store, limits⟩ : LimitedStore σ) commit K projection = .ok ⟨K, cells⟩ ∧
      ∀ name, m.get? ⟨r, name⟩ = none → cells.get? name = none

/-- **A filter of short terms** that selects no record matches nothing. -/
def QueriesAbsent (H : HashProvider) (R : Roaring) {σ : Type} [Store σ] (limits : Limits) (store : σ) (head : Head)
    (m : CellMap) (commit : Option CommitId) : Prop :=
  ∀ (op : QueryOp) (plan : Plan), op.sort = [] → op.limit = none → op.offset = none →
    Plan.tryFrom op.filter = .ok plan → op.filter.Fits limits → (∀ r, ¬ op.filter.Matches m r) →
      count H R (⟨store, limits⟩ : LimitedStore σ) commit op.filter = .ok 0 ∧
      query H R (⟨store, limits⟩ : LimitedStore σ) commit op
        = .ok ⟨[], if op.withTotal then some 0 else none, head.commitId⟩

section Runs

variable {H : HashProvider} {R : Roaring} {σ : Type} [Store σ] [LawfulStore σ] {g : Genesis} {Good : StateProp}
  {P : Set Bytes} {hist : History} {head : Head} {db : Branches σ} {limits : Limits} {commit : Option CommitId}

/-- A read of the head returns the record of its cells. -/
lemma Inv.readCommitted_eq (h : Inv H R g Good hist head db) (hc : commit = none ∨ commit = some head.commitId)
    (K : RecordKey) (projection : Option (List CellName)) :
    readCommitted db.store commit K projection = recordOf (hist head.commitId).cells K projection := by
  obtain ⟨tx, hsnap, hrows⟩ := committedSnapshot_head h.head_is hc
  unfold readCommitted
  rw [hsnap, ok_bind]
  exact readCommittedByKey_eq (by rw [hrows, h.cells]) K projection

lemma Inv.getsAbsent (hmax : 40 ≤ limits.key) (h : Inv H R g Good hist head db)
    (hc : commit = none ∨ commit = some head.commitId) :
    GetsAbsent limits db.store (hist head.commitId).cells commit := by
  classical
  intro K r projection hbound hnames
  refine ⟨projected (hist head.commitId).cells r projection, ?_, fun name hname => ?_⟩
  · rw [readCommitted_limited hmax _ commit K hnames, h.readCommitted_eq hc,
      (h.chain.consistent _ (le_refl head.commitId)).recordOf, hbound]
  · rw [get?_projected, hname, ite_self]

/-- A `get` that is answered alike has keys that fit: the record of a bound key is read. -/
lemma Inv.getFits (h : Inv H R g Good hist head db) {K : RecordKey} {projection : Option (List CellName)}
    (heq : readCommitted (⟨db.store, limits⟩ : LimitedStore σ) commit K projection
      = readCommitted db.store commit K projection) : GetFits limits (tables db.store) commit K projection := by
  by_contra hnot
  unfold GetFits at hnot
  push Not at hnot
  obtain ⟨hnames, hbound, havailable⟩ := hnot
  have hcons := h.chain.consistent _ (le_refl head.commitId)
  rw [h.cells, get?_cellRows] at hbound
  obtain ⟨v, hv⟩ := Option.ne_none_iff_exists'.mp fun hv : (hist head.commitId).cells.get? (State.binding K) = none =>
    hbound (by rw [hv]; rfl)
  obtain ⟨r, rfl, -⟩ := hcons.identity hv
  have hid : boundId (hist head.commitId).cells K = some r := by rw [boundId, hv]; exact fieldU64_fromU64 r
  rw [h.readCommitted_eq (available h.managed havailable), hcons.recordOf, hid] at heq
  exact readCommitted_long _ commit K hnames _ heq

/-- A `count` that is answered alike has keys that fit. -/
lemma Inv.countFits (hinj : Set.InjOn H.hash P) (h : Inv H R g (Settled H R P) hist head db) {filter : Filter}
    (heq : count H R (⟨db.store, limits⟩ : LimitedStore σ) commit filter = count H R db.store commit filter) :
    CountFits limits (tables db.store) commit filter := by
  by_contra hnot
  unfold CountFits at hnot
  push Not at hnot
  obtain ⟨hlong, havailable⟩ := hnot
  obtain ⟨plan, hplan⟩ : ∃ plan, Plan.tryFrom filter = .ok plan := by
    unfold Filter.Fits at hlong
    push Not at hlong
    obtain ⟨plan, hplan, -⟩ := hlong
    exact ⟨plan, hplan⟩
  have hsort : (QueryOp.fromFilter filter).sort = [] := rfl
  obtain ⟨ids, n, page, hanswers⟩ := h.answers hinj hsort rfl rfl hplan (available h.managed havailable)
  exact count_long _ commit hlong n (heq.trans hanswers.count)

/-- A `query` that is answered alike has keys that fit: a page with a record was read under short names. -/
lemma Inv.queryFits (hinj : Set.InjOn H.hash P) (h : Inv H R g (Settled H R P) hist head db) {op : QueryOp}
    (heq : query H R (⟨db.store, limits⟩ : LimitedStore σ) commit op = query H R db.store commit op) :
    QueryFits limits (tables db.store) commit op := by
  by_cases hrefused : op.sort ≠ [] ∨ op.limit.isSome ∨ op.offset.isSome
  · exact .inl hrefused
  by_cases hunavailable : Unavailable (tables db.store) commit
  · exact .inr (.inl hunavailable)
  refine .inr (.inr ?_)
  cases hplan : Plan.tryFrom op.filter with
  | error e => exact ⟨fun plan h => (nomatch hplan.symm.trans h), .inr fun plan h => (nomatch hplan.symm.trans h)⟩
  | ok plan =>
    push Not at hrefused
    obtain ⟨hsort, hlimit, hoffset⟩ := hrefused
    obtain ⟨ids, n, page, hanswers⟩ := h.answers hinj hsort (Option.not_isSome_iff_eq_none.mp hlimit)
      (Option.not_isSome_iff_eq_none.mp hoffset) hplan (available h.managed hunavailable)
    obtain ⟨hfits, hnames⟩ := query_long _ commit (heq.trans hanswers.query)
    refine ⟨hfits, hnames.imp_right fun hempty => ?_⟩
    obtain rfl : page = [] := hempty
    obtain rfl := List.forall₂_nil_right_iff.mp hanswers.records
    rw [unmatched_iff h.good.holds (named_of_consistent (h.chain.consistent _ (le_refl head.commitId))) hplan]
    exact fun r hr => List.not_mem_nil ((hanswers.selected r).mpr hr)

lemma Inv.queriesAbsent (hinj : Set.InjOn H.hash P) (hmax : 40 ≤ limits.key)
    (h : Inv H R g (Settled H R P) hist head db) (hc : commit = none ∨ commit = some head.commitId) :
    QueriesAbsent H R limits db.store head (hist head.commitId).cells commit := by
  intro op plan hsort hlimit hoffset hplan hfits hnone
  obtain ⟨ids, n, page, hanswers⟩ := h.answers hinj hsort hlimit hoffset hplan hc
  obtain rfl : ids = [] := List.eq_nil_iff_forall_not_mem.mpr fun r hr => hnone r ((hanswers.selected r).mp hr)
  obtain rfl := List.forall₂_nil_left_iff.mp hanswers.records
  obtain rfl : n = 0 := Fin.ext hanswers.total
  have hunmatched := (unmatched_iff h.good.holds
    (named_of_consistent (h.chain.consistent _ (le_refl head.commitId))) hplan).mpr hnone
  exact ⟨(count_limited hmax _ commit hfits).trans hanswers.count,
    (query_limited hmax _ commit hfits (.inr hunmatched)).trans hanswers.query⟩

/-- **Where a backend with ceilings answers as an unbounded one.** In every state that calls reach:
a `get` is answered alike exactly when its keys fit; a `count` and a `query` whose keys fit are
answered alike, and one whose keys do not is never answered. An admitted filter fits exactly if its field and
values make short terms. Where the keys fit, data that were never stored read as absent; and where the hash
separates what the run hashes, a `count` and a `query` are answered alike exactly when their keys fit. -/
theorem bounded_reads {config : OpenConfig} (h : Created H config db)
    (hvalid : config.genesis.validate limits.key limits.value = .ok ()) (ops : List Op) :
    (∀ commit K projection, readCommitted (⟨(run H R ops db).store, limits⟩ : LimitedStore σ) commit K projection
        = readCommitted (run H R ops db).store commit K projection ↔
      GetFits limits (tables (run H R ops db).store) commit K projection) ∧
    (∀ commit filter, CountFits limits (tables (run H R ops db).store) commit filter →
      count H R (⟨(run H R ops db).store, limits⟩ : LimitedStore σ) commit filter
        = count H R (run H R ops db).store commit filter) ∧
    (∀ commit op, QueryFits limits (tables (run H R ops db).store) commit op →
      query H R (⟨(run H R ops db).store, limits⟩ : LimitedStore σ) commit op
        = query H R (run H R ops db).store commit op) ∧
    (∀ commit filter n, count H R (⟨(run H R ops db).store, limits⟩ : LimitedStore σ) commit filter = .ok n →
      filter.Fits limits) ∧
    (∀ commit op page, query H R (⟨(run H R ops db).store, limits⟩ : LimitedStore σ) commit op = .ok page →
      op.filter.Fits limits ∧ (NamesFit limits op.projection ∨ page.records = [])) ∧
    (∀ filter plan, Plan.tryFrom filter = .ok plan → (filter.Fits limits ↔ plan = .empty ∨ filter.Short limits)) ∧
    (∃ head m, HeadIs (tables (run H R ops db).store) head ∧ tables (run H R ops db).store CELL = cellRows m ∧
      ∀ commit, commit = none ∨ commit = some head.commitId → GetsAbsent limits (run H R ops db).store m commit) ∧
    (Set.InjOn H.hash {x | x ∈ runPreimages H R config.genesis ops db} →
      (∀ commit filter, count H R (⟨(run H R ops db).store, limits⟩ : LimitedStore σ) commit filter
          = count H R (run H R ops db).store commit filter ↔
        CountFits limits (tables (run H R ops db).store) commit filter) ∧
      (∀ commit op, query H R (⟨(run H R ops db).store, limits⟩ : LimitedStore σ) commit op
          = query H R (run H R ops db).store commit op ↔
        QueryFits limits (tables (run H R ops db).store) commit op) ∧
      ∃ head m, HeadIs (tables (run H R ops db).store) head ∧ tables (run H R ops db).store CELL = cellRows m ∧
        ∀ commit, commit = none ∨ commit = some head.commitId →
          QueriesAbsent H R limits (run H R ops db).store head m commit) := by
  have hmax : 40 ≤ limits.key := (validate_holds hvalid).engine_key
  obtain ⟨hist, head, hinv, -⟩ := h.run (R := R) ops
  refine ⟨fun commit K projection => ⟨hinv.getFits, readCommitted_fits hmax⟩, fun commit filter => count_fits hmax,
    fun commit op => query_fits hmax, fun commit filter n hok => ?_, fun commit op page hok => query_long _ commit hok,
    fun filter plan hplan => Filter.fits_iff hplan,
    ⟨head, _, hinv.head_is, hinv.cells, fun commit hc => hinv.getsAbsent hmax hc⟩, fun hinj => ?_⟩
  · by_contra hnot
    exact count_long _ commit hnot n hok
  · obtain ⟨hist', head', hset, -⟩ := run_settled h ops hinj fun x hx => hx
    exact ⟨fun commit filter => ⟨hset.countFits hinj, count_fits hmax⟩,
      fun commit op => ⟨hset.queryFits hinj, query_fits hmax⟩,
      head', _, hset.head_is, hset.cells, fun commit hc => hset.queriesAbsent hinj hmax hc⟩

/-- Ceilings that admit the demo's genesis. -/
def demoLimits : Limits := ⟨130, 16384⟩

def longName : CellName := List.replicate 200 0x61

def longFilter : Filter := .eq (ascii "name") ⟨.str, List.replicate 200 0x61, false, nofun, by decide +kernel⟩

/-- The record has another value under the name. -/
def absentFilter : Filter := .eq (ascii "name") (CellValue.fromU64 8)

theorem bounded_reads_demo :
    readCommitted (⟨(run Trie.polyHash arrayRoaring demoOps demoDb).store, demoLimits⟩ :
        LimitedStore MemoryStore) none demoKey (some [ascii "name"])
      = readCommitted (run Trie.polyHash arrayRoaring demoOps demoDb).store none demoKey (some [ascii "name"]) ∧
    count Trie.polyHash arrayRoaring (⟨(run Trie.polyHash arrayRoaring rootOps demoDb).store, demoLimits⟩ :
        LimitedStore MemoryStore) none longFilter
      ≠ count Trie.polyHash arrayRoaring (run Trie.polyHash arrayRoaring rootOps demoDb).store none longFilter ∧
    count Trie.polyHash arrayRoaring (⟨(run Trie.polyHash arrayRoaring rootOps demoDb).store, demoLimits⟩ :
        LimitedStore MemoryStore) none absentFilter = .ok 0 := by
  have hvalid : demoConfig.genesis.validate demoLimits.key demoLimits.value = .ok () := by decide
  refine ⟨?_, ?_⟩
  · refine ((bounded_reads (R := arrayRoaring) demoDb_created hvalid demoOps).1 none demoKey
      (some [ascii "name"])).mpr (.inl fun names hnames name hname => ?_)
    obtain rfl := Option.some.inj hnames
    obtain rfl := List.mem_singleton.mp hname
    decide
  · obtain ⟨-, -, -, -, -, hshort, -, hexact⟩ := bounded_reads (R := arrayRoaring) demoDb_created hvalid rootOps
    obtain ⟨hcount, -, head, m, -, hm, habsent⟩ := hexact rootOps_injOn
    refine ⟨fun heq => ?_, ?_⟩
    · obtain ⟨t, ht⟩ : ∃ t, Plan.tryFrom longFilter = .ok (.termRead t) := tryFrom_eq (by decide) (by decide)
      rcases (hcount none longFilter).mp heq with hfits | ⟨_, _, hnone, -⟩
      · rcases (hshort longFilter _ ht).mp hfits with hempty | hlong
        · cases hempty
        · exact absurd hlong (by decide +kernel)
      · cases hnone
    · obtain ⟨t, ht⟩ : ∃ t, Plan.tryFrom absentFilter = .ok (.termRead t) := tryFrom_eq (by decide) (by decide)
      refine (habsent none (.inl rfl) (QueryOp.fromFilter absentFilter) _ rfl rfl rfl ht
        ((hshort absentFilter _ ht).mpr (.inr (by decide))) ?_).1
      rintro r ⟨v, hv, -, -, hvalue⟩
      have hv : m.get? ⟨r, ascii "name"⟩ = some v := hv
      have hrow : (tables (run Trie.polyHash arrayRoaring rootOps demoDb).store CELL).get?
          (CellKey.encode ⟨r, ascii "name"⟩) = some v.encode := by
        rw [hm, get?_cellRows, hv]
        rfl
      have hnone : ∀ e ∈ (tables (run Trie.polyHash arrayRoaring rootOps demoDb).store CELL).entries,
          e.2.tail ≠ (CellValue.fromU64 8).value := by decide +kernel
      exact hnone _ (OrdMap.mem_entries.mpr hrow) hvalue

/-- At genesis the parameters have no cell under a long name and no record a long value, but the
backend with ceilings reports its key limit. -/
theorem bounded_reads_differ : demoConfig.genesis.validate demoLimits.key demoLimits.value = .ok () ∧
    Created Trie.polyHash demoConfig demoDb ∧
    readCommitted demoDb.store none System.PARAMS.key (some [longName]) = .ok ⟨System.PARAMS.key, OrdMap.empty⟩ ∧
    readCommitted (⟨demoDb.store, demoLimits⟩ : LimitedStore MemoryStore) none System.PARAMS.key (some [longName])
      = .error (.cells (.storage (.keyTooLarge 208 130))) ∧
    count Trie.polyHash arrayRoaring demoDb.store none longFilter = .ok 0 ∧
    count Trie.polyHash arrayRoaring (⟨demoDb.store, demoLimits⟩ : LimitedStore MemoryStore) none longFilter
      = .error (.internal (.index (.storage (.keyTooLarge 206 130)))) := by
  refine ⟨by decide, demoDb_created, ?_⟩
  decide +kernel

end Runs

end GolemDb.Api
