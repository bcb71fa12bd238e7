import GolemDb.Api.System
import GolemDb.Records.Lookup
import GolemDb.Merkle.History

/-!
Runs from genesis. A store that `openStore` has created holds exactly the genesis cells under head
zero, so the invariant of runs holds of a created database and along every run from one. Two
results about every run: the identity of records, and the chain of roots.
-/

namespace GolemDb.Api

open GolemDb.Lib GolemDb.Storage GolemDb.Merkle GolemDb.Cells GolemDb.Index GolemDb.Branch GolemDb.Records

/-! ### A created store -/

section Created

variable {H : HashProvider} {R : Roaring} {σ : Type} [Store σ] [LawfulStore σ] {config : OpenConfig}

lemma runs_putRow {τ : Type} [WriteTransaction τ] [LawfulWrite τ] {key value : Bytes} {tx tx' : τ} {u : Unit}
    (h : Prog.Runs (putRow SUPERBLOCK key value) tx u tx') :
    rows tx' = Function.update (rows tx) SUPERBLOCK ((rows tx SUPERBLOCK).insert key value) := by
  obtain ⟨tx₁, hput, hrows⟩ := LawfulWrite.put_eq SUPERBLOCK_valid tx key value
  obtain ⟨-, rfl⟩ := (Prog.Runs.mapError hput).unique h
  exact hrows

/-- The batch of the genesis cells. -/
def genesisChanges (g : Genesis) : List CellChange :=
  (initialCells g).entries.map fun e => CellChange.put e.1 e.2

/-- **What a creation does**: the format rows, one batch of cells on empty tables, and the head. -/
def Initialized (τ : Type) [WriteTransaction τ] [LawfulWrite τ] (H : HashProvider) (g : Genesis)
    (r : Table → Rows) : Prop :=
  ∃ (tx tx' : τ) (u : CellsUpdate), (∀ t, t ≠ SUPERBLOCK → rows tx t = OrdMap.empty) ∧
    Prog.Runs (Cells.apply H .empty (genesisChanges g)) tx u tx' ∧
    HeadIs r ⟨0, u.root.hash H, H.hash []⟩ ∧ ∀ t, t ≠ SUPERBLOCK → r t = rows tx' t

lemma runs_writeGenesis {τ : Type} [WriteTransaction τ] [LawfulWrite τ] {genesisId : Hash} {tx tx' : τ}
    {head : Head} (hempty : ∀ t, rows tx t = OrdMap.empty)
    (h : Prog.Runs (writeGenesis H config (initialCells config.genesis) genesisId) tx head tx') :
    Initialized τ H config.genesis (rows tx') := by
  obtain ⟨⟨⟩, tx₁, h1, h⟩ := Prog.runs_bind_iff.mp h
  obtain ⟨⟨⟩, tx₂, h2, h⟩ := Prog.runs_bind_iff.mp h
  obtain ⟨⟨⟩, tx₃, h3, h⟩ := Prog.runs_bind_iff.mp h
  obtain ⟨⟨⟩, tx₄, h4, h⟩ := Prog.runs_bind_iff.mp h
  obtain ⟨u, tx₅, h5, h⟩ := Prog.runs_bind_iff.mp h
  obtain ⟨⟨⟩, tx₆, h6, h⟩ := Prog.runs_bind_iff.mp h
  obtain ⟨rfl, rfl⟩ := Prog.runs_pure_iff.mp h
  obtain ⟨tx₇, hput, hrows⟩ := LawfulWrite.put_eq SUPERBLOCK_valid tx₅ HEAD_KEY
    (Head.encode ⟨0, u.root.hash H, H.hash []⟩)
  obtain ⟨-, rfl⟩ := (Prog.Runs.mapError hput).unique (Prog.runs_mapError.mp h6)
  refine ⟨tx₄, tx₅, u, fun t ht => ?_, Prog.runs_mapError.mp h5, ?_, fun t ht => ?_⟩
  · rw [runs_putRow h4, Function.update_of_ne ht, runs_putRow h3, Function.update_of_ne ht, runs_putRow h2,
      Function.update_of_ne ht, runs_putRow h1, Function.update_of_ne ht, hempty t]
  · show (rows tx₇ SUPERBLOCK).get? HEAD_KEY = _
    rw [hrows, Function.update_self, OrdMap.get?_insert, if_pos rfl]
  · rw [hrows, Function.update_of_ne ht]

/-- The tables after the writes of a creation on empty ones. -/
def WritesGenesis (τ : Type) [WriteTransaction τ] [LawfulWrite τ] (H : HashProvider) (config : OpenConfig)
    (r : Table → Rows) : Prop :=
  ∃ (tx tx' : τ) (head : Head), (∀ t, rows tx t = OrdMap.empty) ∧
    Prog.Runs (writeGenesis H config (initialCells config.genesis)
      (identity H config.genesis (initialCells config.genesis))) tx head tx' ∧ r = rows tx'

/-- Preparation of a store that ends with a creation has written the genesis state. -/
lemma runs_prepare {tx tx' : Store.Write σ} {info : OpenInfo} (hrun : Prog.Runs (prepare H config) tx info tx')
    (hc : info.created = true) : WritesGenesis (Store.Write σ) H config (rows tx') := by
  obtain ⟨found, tx₁, hfound, h⟩ := Prog.runs_bind_iff.mp hrun
  obtain ⟨hfound, rfl⟩ := Prog.runs_read.mp hfound
  by_cases hnone : found.isNone = true
  · rw [if_pos hnone] at h
    obtain ⟨empty, tx₂, hempty, hrest⟩ := Prog.runs_bind_iff.mp h
    obtain ⟨hempty, rfl⟩ := Prog.runs_read.mp hempty
    obtain ⟨he, h⟩ := Prog.runs_guard hrest
    obtain ⟨-, h⟩ := Prog.runs_guard h
    obtain ⟨head, tx₃, hw, h⟩ := Prog.runs_bind_iff.mp h
    obtain ⟨rfl, rfl⟩ := Prog.runs_pure_iff.mp h
    have htrue : empty = true := by simpa using he
    exact ⟨_, _, head, LawfulStore.isEmpty_eq _ (htrue ▸ mapError_eq_ok.mp hempty), hw, rfl⟩
  · -- an initialized store is only checked
    obtain ⟨bytes, hbytes⟩ : ∃ bytes, found = some bytes := by
      cases found with
      | none => exact absurd rfl hnone
      | some bytes => exact ⟨bytes, rfl⟩
    rw [prepare_checks (hbytes ▸ hfound) hrun] at hc
    cases hc

/-- A store that an opening has created holds what the writes of a creation leave. -/
lemma openStore_writes {store store' : σ} {info : OpenInfo} (hopen : Prog.Runs (openStore H config) store info store')
    (hc : info.created = true) : WritesGenesis (Store.Write σ) H config (tables store') := by
  have hopen' : openStore H config store = (.ok info, store') := hopen
  unfold openStore at hopen'
  obtain ⟨tx, htx, -⟩ := LawfulStore.beginWrite_eq store
  rw [htx] at hopen'
  cases hv : config.genesis.validate (Store.maxKeySize store) (Store.maxValueSize store) with
  | error e =>
    rw [hv] at hopen'
    cases hopen'
  | ok u =>
    cases hp : (prepare H config).exec tx with
    | mk r tx' =>
      simp only [hv, hp] at hopen'
      cases r with
      | error e => cases hopen'
      | ok info' =>
        obtain ⟨store₁, hcommit, htables⟩ := LawfulStore.commit_eq store tx'
        simp only at hopen'
        by_cases hcr : info'.created = true
        · rw [if_pos hcr, hcommit] at hopen'
          rw [← (Prod.mk.inj hopen').2, htables]
          exact runs_prepare hp hcr
        · rw [if_neg hcr] at hopen'
          obtain ⟨he, -⟩ := Prod.mk.inj hopen'
          rw [← Except.ok.inj he] at hc
          exact absurd hc hcr

/-- A store that an opening has created holds the genesis state. -/
lemma openStore_created {store store' : σ} {info : OpenInfo} (hopen : Prog.Runs (openStore H config) store info store')
    (hc : info.created = true) : Initialized (Store.Write σ) H config.genesis (tables store') := by
  obtain ⟨tx, tx', head, hempty, hrun, hrows⟩ := openStore_writes hopen hc
  rw [hrows]
  exact runs_writeGenesis hempty hrun

/-- **A created database** holds the genesis state and has no branch. -/
theorem Created.initialized {db : Branches σ} (h : Created H config db) :
    Initialized (Store.Write σ) H config.genesis (tables db.store) ∧ db.branches = OrdMap.empty := by
  obtain ⟨store, info, hopen, hc⟩ := h.opened
  refine ⟨openStore_created hopen hc, ?_⟩
  obtain ⟨tx, -, hrest⟩ := bind_eq_ok.mp h.new
  obtain ⟨c, -, hrest⟩ := bind_eq_ok.mp hrest
  rw [← pure_eq_ok.mp hrest]

/-- A manager over a created store is a created database. -/
lemma created_of_open {store store' : σ} {info : OpenInfo} (hopen : Prog.Runs (openStore H config) store info store')
    (hc : info.created = true) (next : BranchId) : Created H config (⟨store', OrdMap.empty, next⟩ : Branches σ) := by
  obtain ⟨-, -, u, -, -, hhead, -⟩ := openStore_created hopen hc
  exact ⟨⟨store, info, hopen, hc⟩, new_existing hhead next⟩

lemma overlay_netChanges_puts (m : CellMap) :
    OrdMap.empty.overlay (netChanges (m.entries.map fun e => CellChange.put e.1 e.2)) = m := by
  have hpairs : (m.entries.map fun e => CellChange.put e.1 e.2).map CellChange.toPair
      = m.entries.map fun e => (e.1, some e.2) := by
    rw [List.map_map]
    rfl
  have hsorted : (m.entries.map fun e => (e.1, some e.2)).Pairwise fun a b => a.1 < b.1 :=
    List.pairwise_map.mpr m.sorted
  refine OrdMap.ext_get fun k => Option.ext fun v => ?_
  have hnet : ∀ w, (netChanges (m.entries.map fun e => CellChange.put e.1 e.2)).get? k = some w ↔
      ∃ v, w = some v ∧ m.get? k = some v := by
    intro w
    rw [← OrdMap.mem_entries]
    show (k, w) ∈ Lib.normalize (List.map CellChange.toPair _) ↔ _
    rw [mem_normalize, hpairs, lastOf_of_sorted hsorted, List.mem_map]
    constructor
    · rintro ⟨e, he, hkw⟩
      obtain ⟨rfl, rfl⟩ := Prod.mk.inj hkw
      exact ⟨e.2, rfl, OrdMap.mem_entries.mp he⟩
    · rintro ⟨v, rfl, hv⟩
      exact ⟨(k, v), OrdMap.mem_entries.mpr hv, rfl⟩
  rw [OrdMap.get?_overlay, OrdMap.get?_empty]
  cases hw : (netChanges (m.entries.map fun e => CellChange.put e.1 e.2)).get? k with
  | none =>
    refine ⟨nofun, fun hv => ?_⟩
    rw [(hnet (some v)).mpr ⟨v, rfl, hv⟩] at hw
    cases hw
  | some w =>
    obtain ⟨v', rfl, hv'⟩ := (hnet w).mp hw
    rw [hv']
    rfl

/-- The Cell table of a created store. -/
lemma Initialized.cells {τ : Type} [WriteTransaction τ] [LawfulWrite τ] {g : Genesis} {r : Table → Rows}
    (h : Initialized τ H g r) : r CELL = cellRows (initialCells g) := by
  obtain ⟨tx, tx', u, hempty, hrun, -, hrows⟩ := h
  have hcell : cellRows OrdMap.empty = OrdMap.empty := rfl
  rw [hrows CELL (by decide), (apply_rows hrun).1, hempty CELL (by decide), ← hcell, overlay_cellRows,
    genesisChanges, overlay_netChanges_puts]

/-- **The invariant holds of a created database.** -/
theorem Created.inv {Good : StateProp} {db : Branches σ} (h : Created H config db)
    (hgood : ∀ head, HeadIs (tables db.store) head → Good (tables db.store) ⟨head, initialCells config.genesis⟩) :
    ∃ hist head, Inv H R config.genesis Good hist head db ∧ head.commitId = 0 := by
  obtain ⟨hinit, hbranches⟩ := h.initialized
  have hcells := hinit.cells
  obtain ⟨-, -, u, -, -, hhead, -⟩ := hinit
  refine ⟨fun _ => ⟨⟨0, u.root.hash H, H.hash []⟩, initialCells config.genesis⟩, _,
    ⟨hhead, rfl, hcells, ⟨rfl, rfl, fun i j hij hj => ?_⟩, hgood _ hhead, fun b st hb => ?_⟩, rfl⟩
  · have hlt := lt_of_lt_of_le (checkedSucc_lt hij).1 hj
    exact absurd hlt (Fin.not_lt_zero i)
  · rw [hbranches] at hb
    cases hb

end Created

/-! ### Runs -/

section Runs

variable {H : HashProvider} {R : Roaring} {σ : Type} [Store σ] [LawfulStore σ] {g : Genesis} {Good : StateProp}

omit [LawfulStore σ] in
lemma run_concat (ops : List Op) (op : Op) (db : Branches σ) :
    run H R (ops ++ [op]) db = op.exec H R (run H R ops db) := List.foldl_concat ..

/-- **The history of a run**: after every part of the run the committed state is the one of its
number, and every number up to the last was reached. -/
structure HistoryOf (H : HashProvider) (R : Roaring) (ops : List Op) (db : Branches σ) (hist : History)
    (last : CommitId) : Prop where
  state : ∀ part, part <+: ops → ∃ c ≤ last, HeadIs (tables (run H R part db).store) (hist c).head ∧
    (hist c).head.commitId = c ∧ tables (run H R part db).store CELL = cellRows (hist c).cells
  reached : ∀ c ≤ last, ∃ part, part <+: ops ∧ HeadIs (tables (run H R part db).store) (hist c).head ∧
    tables (run H R part db).store CELL = cellRows (hist c).cells

lemma Inv.state {hist : History} {head : Head} {db : Branches σ} (h : Inv H R g Good hist head db) :
    HeadIs (tables db.store) (hist head.commitId).head ∧ (hist head.commitId).head.commitId = head.commitId ∧
      tables db.store CELL = cellRows (hist head.commitId).cells := by
  rw [h.last]
  exact ⟨h.head_is, rfl, h.cells⟩

/-- **The invariant holds after every run**, the run has a history, and a property of the states that
every call keeps holds after it. -/
theorem Inv.run_with {Q : History → Head → Branches σ → Prop} {hist : History} {head : Head} {db : Branches σ}
    (h : Inv H R g Good hist head db) (hzero : head.commitId = 0) (hQ : Q hist head db) (ops : List Op)
    (hpub : ∀ part b, part ++ [.commit b] <+: ops → ∀ hist head, Inv H R g Good hist head (run H R part db) →
      Inv.Publishes H R Good hist head (run H R part db) b)
    (hkeep : ∀ {hist hist' head head'} {db : Branches σ} (op : Op), Inv H R g Good hist head db → Q hist head db →
      Inv H R g Good hist' head' (op.exec H R db) → Extends hist head.commitId hist' head'.commitId →
      Q hist' head' (op.exec H R db)) :
    ∃ hist' head', Inv H R g Good hist' head' (run H R ops db) ∧ HistoryOf H R ops db hist' head'.commitId ∧
      Q hist' head' (run H R ops db) := by
  induction ops using List.reverseRecOn with
  | nil =>
    refine ⟨hist, head, h, ⟨fun part hpart => ?_, fun c hc => ?_⟩, hQ⟩
    · obtain rfl := List.prefix_nil.mp hpart
      exact ⟨head.commitId, le_rfl, h.state⟩
    · have hc0 : c = head.commitId := by
        rw [hzero] at hc ⊢
        exact le_antisymm hc (Fin.zero_le c)
      subst hc0
      exact ⟨[], List.prefix_rfl, h.state.1, h.state.2.2⟩
  | append_singleton ops op ih =>
    obtain ⟨hist₁, head₁, h₁, hof, hQ₁⟩ := ih fun part b hpart => hpub part b (hpart.trans (List.prefix_append _ _))
    obtain ⟨hist₂, head₂, h₂, hext⟩ := h₁.step op fun b hop =>
      hpub ops b (by rw [← hop]) hist₁ head₁ h₁
    have hQ₂ := hkeep op h₁ hQ₁ h₂ hext
    rw [← run_concat] at h₂ hQ₂
    refine ⟨hist₂, head₂, h₂, ⟨fun part hpart => ?_, fun c hc => ?_⟩, hQ₂⟩
    · rcases List.prefix_concat_iff.mp hpart with rfl | hpart
      · exact ⟨head₂.commitId, le_rfl, h₂.state⟩
      · obtain ⟨c, hc, hstate⟩ := hof.state part hpart
        refine ⟨c, le_trans hc hext.le, ?_⟩
        rwa [hext.same c hc]
    · rcases hext.single c hc with hc | rfl
      · obtain ⟨part, hpart, hstate⟩ := hof.reached c hc
        refine ⟨part, hpart.trans (List.prefix_append _ _), ?_⟩
        rwa [hext.same c hc]
      · exact ⟨_, List.prefix_rfl, h₂.state.1, h₂.state.2.2⟩

/-- The invariant holds after every run, and the run has a history. -/
theorem Inv.run {hist : History} {head : Head} {db : Branches σ} (h : Inv H R g Good hist head db)
    (hzero : head.commitId = 0) (ops : List Op)
    (hpub : ∀ part b, part ++ [.commit b] <+: ops → ∀ hist head, Inv H R g Good hist head (run H R part db) →
      Inv.Publishes H R Good hist head (run H R part db) b) :
    ∃ hist' head', Inv H R g Good hist' head' (run H R ops db) ∧ HistoryOf H R ops db hist' head'.commitId := by
  obtain ⟨hist', head', h', hof, -⟩ := h.run_with (Q := fun _ _ _ => True) hzero trivial ops hpub
    fun _ _ _ _ _ => trivial
  exact ⟨hist', head', h', hof⟩

/-- Runs from a created database, with no further property of the committed states. -/
theorem Created.run {config : OpenConfig} {db : Branches σ} (h : Created H config db) (ops : List Op) :
    ∃ hist head, Inv H R config.genesis (fun _ _ => True) hist head (run H R ops db) ∧
      HistoryOf H R ops db hist head.commitId := by
  obtain ⟨hist, head, hinv, hzero⟩ : ∃ hist head, Inv H R config.genesis (fun _ _ => True) hist head db ∧
      head.commitId = 0 := h.inv fun _ _ => trivial
  exact hinv.run hzero ops fun _ _ _ _ _ _ _ _ _ _ _ _ _ => trivial

end Runs

/-! ### A database in memory -/

def demoConfig : OpenConfig := ⟨⟨.keccak256, ⟨64, 64, 64⟩⟩, .createIfMissing⟩

/-- A created database in memory, under a polynomial hash. -/
def demoDb : Branches MemoryStore := ⟨((openStore Trie.polyHash demoConfig).exec MemoryStore.new).2, OrdMap.empty, 0⟩

lemma demoDb_created : Created Trie.polyHash demoConfig demoDb := by
  have hok : (((openStore Trie.polyHash demoConfig).exec MemoryStore.new).1.toOption.map OpenInfo.created)
      = some true := by decide +kernel
  cases he : (openStore Trie.polyHash demoConfig).exec MemoryStore.new with
  | mk r store =>
    rw [he] at hok
    cases r with
    | error e => cases hok
    | ok info =>
      have hdb : demoDb = ⟨store, OrdMap.empty, 0⟩ := by rw [demoDb, he]
      rw [hdb]
      exact created_of_open he (Option.some.inj hok) 0

/-- The number behind a digest of the polynomial hash. -/
def polyNumber (x : Bytes) : ℕ := x.foldl (fun a b => (a * 257 + b.toNat + 1) % 2 ^ 256) 0

lemma polyNumber_lt (x : Bytes) : polyNumber x < 256 ^ 32 := by
  rcases List.eq_nil_or_concat x with rfl | ⟨l, b, rfl⟩
  · exact Nat.pos_of_ne_zero (by decide)
  · rw [polyNumber, List.concat_eq_append, List.foldl_append]
    exact Nat.mod_lt _ (by decide)

lemma polyNumber_of_hash {x y : Bytes} (h : Trie.polyHash.hash x = Trie.polyHash.hash y) :
    polyNumber x = polyNumber y :=
  beBytes_inj (polyNumber_lt x) (polyNumber_lt y) (congrArg Subtype.val h)

/-- **The polynomial hash separates preimages** of different numbers. -/
lemma polyHash_injOn {xs : List Bytes}
    (h : (xs.map fun x => (polyNumber x, x)).Pairwise fun p q => p.1 = q.1 → p.2 = q.2) :
    Set.InjOn Trie.polyHash.hash {x | x ∈ xs} := by
  intro x hx y hy hxy
  have hpairs := List.pairwise_map.mp h
  exact hpairs.forall_of_forall_of_flip (fun _ _ _ => rfl) (hpairs.imp fun h he => (h he.symm).symm) hx hy
    (polyNumber_of_hash hxy)

/-- A user key and the cells of its record. -/
def demoKey : RecordKey := takeArr 32 (ascii "key")

def demoCells : RecordCells := OrdMap.empty.insert (ascii "name") (CellValue.fromU64 7)

/-- Two commits on two branches, with a rollback and a lost race. -/
def demoOps : List Op :=
  [.begin, .begin, .create 0 demoKey demoCells, .checkpoint 0, .delete 0 demoKey, .rollback 0, .sealBranch 0,
    .commit 0, .commit 1, .begin, .patch 2 demoKey OrdMap.empty, .commit 2]

/-! ### The identity of records -/

/-- **The identity of records in a map of cells.** -/
structure Identified (m : CellMap) : Prop where
  /-- Bindings of user keys and `#key` cells of user records agree. -/
  binding_iff : ∀ K r, System.byKey K = none → (m.get? (State.binding K) = some (CellValue.fromU64 r) ↔
    m.get? (State.identityCell r) = some (CellValue.fromBytes32 K) ∧ System.FIRST_USER_RECORD_ID ≤ r)
  injective : ∀ K K' r, m.get? (State.binding K) = some (CellValue.fromU64 r) →
    m.get? (State.binding K') = some (CellValue.fromU64 r) → K = K'
  /-- No orphan cells. -/
  owned : ∀ k v, m.get? k = some v → System.FIRST_USER_RECORD_ID ≤ k.recordId →
    ∃ K, System.byKey K = none ∧ m.get? (State.binding K) = some (CellValue.fromU64 k.recordId)
  /-- The allocator is above every bound user id, and its own id has no cell. -/
  allocator : ∃ n, m.get? State.allocatorKey = some (CellValue.fromU64 n) ∧
    (∀ K r, System.byKey K = none → m.get? (State.binding K) = some (CellValue.fromU64 r) → r < n) ∧
    ∀ name, m.get? ⟨n, name⟩ = none

lemma identified_of_consistent {c : CommitId} {m : CellMap} (h : Consistent c m) : Identified m := by
  have hinj : ∀ K K' r, m.get? (State.binding K) = some (CellValue.fromU64 r) →
      m.get? (State.binding K') = some (CellValue.fromU64 r) → K = K' := by
    intro K K' r hK hK'
    obtain ⟨r₁, hr₁, hid₁, -⟩ := h.identity hK
    obtain ⟨r₂, hr₂, hid₂, -⟩ := h.identity hK'
    obtain rfl := CellValue.fromU64_inj hr₁
    obtain rfl := CellValue.fromU64_inj hr₂
    exact CellValue.fromBytes32_inj (Option.some.inj (hid₁.symm.trans hid₂))
  obtain ⟨n, hn, hn64, hbelow⟩ := h.allocator
  refine ⟨fun K r hK => ⟨fun hb => ?_, fun ⟨hid, hr⟩ => ?_⟩, hinj, h.owned, n, hn, fun K r hK hb => ?_,
    fun name => get?_fresh hbelow hn64 _ rfl⟩
  · obtain ⟨r', hr', h64, hid⟩ := h.bound K _ hK hb
    obtain rfl := CellValue.fromU64_inj hr'
    exact ⟨hid, h64⟩
  · -- the owner of the `#key` cell is the key in it
    obtain ⟨K', hK', hb⟩ := h.owned _ _ hid hr
    obtain ⟨r', hr', -, hid'⟩ := h.bound K' _ hK' hb
    obtain rfl := CellValue.fromU64_inj hr'
    rw [show State.identityCell (State.identityCell r).recordId = State.identityCell r from rfl, hid] at hid'
    rw [CellValue.fromBytes32_inj (Option.some.inj hid')]
    exact hb
  · obtain ⟨r', hr', h64, hid⟩ := h.bound K _ hK hb
    obtain rfl := CellValue.fromU64_inj hr'
    exact hbelow _ _ hid h64

section Results

variable {H : HashProvider} {R : Roaring} {σ : Type} [Store σ] [LawfulStore σ] {g : Genesis} {Good : StateProp}
  {hist : History} {head : Head} {db : Branches σ} {α : Type}

/-- No report of a corrupt state. -/
def NotCorrupt (r : Except RecordError α) : Prop := ∀ text, r ≠ .error (.corruptState text)

lemma Sane.notCorrupt {r : Except (Fault RecordError) α} (h : Sane r) :
    NotCorrupt ((r.mapError Fault.toOperationError).mapError RecordError.ofOperation) := by
  rcases r with (e | _) | a
  · exact fun text he => h.2 text (by rw [show e = .corruptState text from Except.error.inj he])
  · exact absurd rfl h.1
  · exact nofun

/-- A group that is sane on what a branch shows reports no corrupt state. -/
lemma Inv.write_notCorrupt (h : Inv H R g Good hist head db) (b : BranchId) (group : CellOperation RecordError α)
    (hgroup : ∀ c m, Consistent c m → Sane (group.runOn m).1) :
    NotCorrupt ((Prog.mapError RecordError.ofOperation (Branches.write b group)).exec db).1 := by
  rw [Prog.exec_mapError]
  rcases write_cases h.head_is b group with ⟨e, he⟩ | ⟨st, origin, hb, hc, hr, he⟩
  · rw [he]
    exact nofun
  · rw [he, write_result (by rw [hr, h.cells])]
    apply Sane.notCorrupt
    have hvis := (h.branches b st hb).working.visible
    rw [hc] at hvis
    exact hgroup _ _ hvis.consistent

/-- A read that is sane on what a branch shows reports no corrupt state. -/
lemma Inv.read_notCorrupt (h : Inv H R g Good hist head db) (b : BranchId) (group : CellOperation RecordError α)
    (hgroup : ∀ c m, Consistent c m → Sane (group.runOn m).1) :
    NotCorrupt ((Prog.mapError RecordError.ofOperation (Branches.read b group)).exec db).1 := by
  rw [Prog.exec_mapError]
  rcases read_cases h.head_is b group with ⟨e, he⟩ | ⟨st, origin, hb, hc, hr, he⟩
  · rw [he]
    exact nofun
  · rw [he, (run_runOn (by rw [hr, h.cells]) group st.overlay).1]
    apply Sane.notCorrupt
    have hvis := (h.branches b st hb).working.visible
    rw [hc] at hvis
    exact hgroup _ _ hvis.consistent

omit [Store σ] [LawfulStore σ] in
/-- A rejected reserved key is no corrupt state. -/
lemma reject_notCorrupt {K : RecordKey} {c : Prog RecordError (Branches σ) α}
    (h : System.byKey K = none → NotCorrupt (c.exec db).1) :
    NotCorrupt (((do Prog.ofExcept (rejectReserved K); c) : Prog RecordError (Branches σ) α).exec db).1 := by
  rcases exec_rejectReserved K c db with ⟨-, he⟩ | ⟨hK, he⟩
  · rw [he]
    exact nofun
  · rw [he]
    exact h hK

lemma Inv.readCommitted_notCorrupt (h : Inv H R g Good hist head db) (commit : Option CommitId) (K : RecordKey)
    (projection : Option (List CellName)) : NotCorrupt (readCommitted db.store commit K projection) := by
  obtain ⟨tx, htx, hrows⟩ := LawfulStore.beginRead_eq db.store
  have hdone : NotCorrupt (readCommittedByKey tx K projection) := by
    rw [readCommittedByKey_eq (by rw [hrows, h.cells]), (h.chain.consistent _ le_rfl).recordOf]
    cases boundId (hist head.commitId).cells K <;> exact nofun
  have hhead : readHead tx = .ok head.commitId := HeadIs.readHead (by rw [hrows]; exact h.head_is)
  unfold readCommitted committedSnapshot
  rw [htx, mapError_ok, ok_bind, hhead, mapError_ok, ok_bind]
  cases commit with
  | none => exact hdone
  | some requested =>
    by_cases hne : requested ≠ head.commitId
    · simp only
      rw [if_pos hne]
      exact nofun
    · simp only
      rw [if_neg hne]
      exact hdone

/-- **The identity of records holds along every run.** The committed cells of the run and the cells
every branch shows are identified, so neither resolving a key nor a call on records reports a
corrupt state. -/
theorem run_identified {config : OpenConfig} {db : Branches σ} (h : Created H config db) (ops : List Op) :
    ∃ hist last, HistoryOf H R ops db hist last ∧ (∀ c ≤ last, Identified (hist c).cells) ∧
      (∀ b st, (run H R ops db).branches.get? b = some st →
        Identified ((hist st.commitId).cells.overlay st.overlay.entries) ∧
        ∀ K, ∃ id, (State.resolve K).runOn ((hist st.commitId).cells.overlay st.overlay.entries)
          = (.ok id, (hist st.commitId).cells.overlay st.overlay.entries)) ∧
      (∀ b K values, NotCorrupt ((Records.create b K values).exec (run H R ops db)).1) ∧
      (∀ b K changes, NotCorrupt ((Records.patch b K changes).exec (run H R ops db)).1) ∧
      (∀ b K, NotCorrupt ((Records.delete b K).exec (run H R ops db)).1) ∧
      ∀ target K projection, NotCorrupt ((Records.get target K projection).exec (run H R ops db)).1 := by
  obtain ⟨hist, head, hinv, hof⟩ := h.run (R := R) ops
  have hsane : ∀ (u : Mutation), System.byKey u.key = none → ∀ c m, Consistent c m → Sane (u.group.runOn m).1 := by
    intro u hK c m hm
    obtain ⟨l, hl⟩ := hm.limits
    exact (u.group_spec hm hl hK).1
  refine ⟨hist, head.commitId, hof, fun c hc => identified_of_consistent (hinv.chain.consistent c hc),
    fun b st hb => ?_, fun b K values => ?_, fun b K changes => ?_, fun b K => ?_, fun target K projection => ?_⟩
  · have hvis := (hinv.branches b st hb).working.visible
    exact ⟨identified_of_consistent hvis.consistent, fun K => ⟨_, hvis.consistent.resolve K⟩⟩
  · refine reject_notCorrupt fun hK => hinv.write_notCorrupt b _ fun c m hm => ?_
    obtain ⟨l, hl⟩ := hm.limits
    rcases hm.create_cases hl K values with ⟨e, he, hne⟩ | ⟨n, next, he, -⟩
    · rw [he]
      exact sane_error hne
    · rw [he]
      exact sane_ok K
  · exact reject_notCorrupt fun hK => hinv.write_notCorrupt b _ (hsane (.patch K changes) hK)
  · exact reject_notCorrupt fun hK => hinv.write_notCorrupt b _ (hsane (.delete K) hK)
  · cases target with
    | head => exact hinv.readCommitted_notCorrupt none K projection
    | commit c => exact hinv.readCommitted_notCorrupt (some c) K projection
    | branch b => exact hinv.read_notCorrupt b _ fun c m hm => hm.readBranch_sane K projection

theorem run_identified_demo : ∃ hist last, HistoryOf Trie.polyHash arrayRoaring demoOps demoDb hist last ∧
    ∀ c ≤ last, Identified (hist c).cells := by
  obtain ⟨hist, last, hof, hid, -⟩ := run_identified (R := arrayRoaring) demoDb_created demoOps
  exact ⟨hist, last, hof, hid⟩

/-! ### The chain of roots -/

/-- **The chain of roots along every run.** After every part of a run the `#roots` record holds,
besides its key, one field for each earlier commit, and in it the two roots of the head that was
published under that number. -/
theorem run_roots {config : OpenConfig} {db : Branches σ} (h : Created H config db) (ops : List Op) :
    ∃ hist last, HistoryOf H R ops db hist last ∧
      ∀ c ≤ last, ∀ name v, name ≠ Reserved.KEY → ((hist c).cells.get? ⟨System.ROOTS.id, name⟩ = some v ↔
        ∃ k < c, name = k.toBeBytes ∧ v = CellValue.fromBytes
          ((hist k).head.stateRoot.1 ++ (hist k).head.indexRoot.1)) := by
  obtain ⟨hist, head, hinv, hof⟩ := h.run (R := R) ops
  exact ⟨hist, head.commitId, hof, hinv.chain.roots⟩

theorem run_roots_demo : ∃ hist last, HistoryOf Trie.polyHash arrayRoaring demoOps demoDb hist last ∧
    ∀ c ≤ last, ∀ name v, name ≠ Reserved.KEY → ((hist c).cells.get? ⟨System.ROOTS.id, name⟩ = some v ↔
      ∃ k < c, name = k.toBeBytes ∧ v = CellValue.fromBytes ((hist k).head.stateRoot.1 ++ (hist k).head.indexRoot.1)) :=
  run_roots demoDb_created demoOps

end Results

end GolemDb.Api
