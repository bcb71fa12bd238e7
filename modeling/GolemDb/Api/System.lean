import GolemDb.Api.History
import GolemDb.Branch.Calls

/-!
Runs of a database. A run starts with a store that `openStore` has created and performs calls of
the API, in any order and on any branches. Along a run there is a history of committed states: the
Cell table is the last of them, every branch works over the state it began at, and all of them are
consistent. The invariant leaves room for a further property of committed states, to be kept by
each publication.
-/

namespace GolemDb.Api

open GolemDb.Lib GolemDb.Storage GolemDb.Merkle GolemDb.Cells GolemDb.Index GolemDb.Branch GolemDb.Records

/-! ### Calls -/

/-- A call of the API. -/
inductive Op where
  | begin
  | create (branch : BranchId) (key : RecordKey) (values : RecordCells)
  | patch (branch : BranchId) (key : RecordKey) (changes : RecordPatch)
  | delete (branch : BranchId) (key : RecordKey)
  | get (target : ReadTarget) (key : RecordKey) (projection : Option (List CellName))
  | branchInfo (branch : BranchId)
  | checkpoint (branch : BranchId)
  | rollback (branch : BranchId)
  | sealBranch (branch : BranchId)
  | commit (branch : BranchId)
  | discard (branch : BranchId)
  | reopen (config : OpenConfig)

section Runs

variable (H : HashProvider) (R : Roaring) {σ : Type} [Store σ]

/-- Open the store again: a manager without branches, if the opening succeeds. -/
def reopen (config : OpenConfig) (db : Branches σ) : Branches σ :=
  match (openStore H config).exec db.store with
  | (.ok _, store) =>
    match Branches.new store db.nextBranchId with
    | .ok db' => db'
    | .error _ => { db with store := store }
  | (.error _, store) => { db with store := store }

/-- The database after a call, whatever its result. -/
def Op.exec (op : Op) (db : Branches σ) : Branches σ :=
  match op with
  | begin => (Branches.begin.exec db).2
  | create b key values => ((Records.create b key values).exec db).2
  | patch b key changes => ((Records.patch b key changes).exec db).2
  | delete b key => ((Records.delete b key).exec db).2
  | get target key projection => ((Records.get target key projection).exec db).2
  | branchInfo b => ((Branches.branchInfo b).exec db).2
  | checkpoint b => ((Branches.checkpoint b).exec db).2
  | rollback b => ((Branches.rollback b).exec db).2
  | sealBranch b => ((Branches.sealBranch H R b).exec db).2
  | commit b => ((Branches.commit H R b).exec db).2
  | discard b => ((Branches.discard b).exec db).2
  | reopen config => Api.reopen H config db

/-- The database after a sequence of calls. -/
def run (ops : List Op) (db : Branches σ) : Branches σ := ops.foldl (fun db op => op.exec H R db) db

/-- **A created database**: an empty store was opened, and a manager over it. -/
structure Created (config : OpenConfig) (db : Branches σ) : Prop where
  opened : ∃ (store : σ) (info : OpenInfo), Prog.Runs (openStore H config) store info db.store ∧
    info.created = true
  new : Branches.new db.store db.nextBranchId = .ok db

end Runs

/-! ### Opening an initialized store -/

section Reopen

variable {H : HashProvider} {σ : Type} [Store σ] [LawfulStore σ] {config : OpenConfig} {head : Head}

/-- An initialized store is only checked. -/
lemma prepare_checks {τ : Type} [WriteTransaction τ] {tx tx' : τ} {info : OpenInfo} {bytes : Bytes}
    (hh : (ReadTransaction.get tx SUPERBLOCK HEAD_KEY).mapError OpenError.storage = .ok (some bytes))
    (hrun : Prog.Runs (prepare H config) tx info tx') : info.created = false := by
  unfold prepare at hrun
  obtain ⟨found, tx₁, hfound, h⟩ := Prog.runs_bind_iff.mp hrun
  obtain ⟨hfound, rfl⟩ := Prog.runs_read.mp hfound
  obtain rfl := Except.ok.inj (hfound.symm.trans hh)
  rw [if_neg (by simp)] at h
  obtain ⟨format, tx₂, -, h⟩ := Prog.runs_bind_iff.mp h
  obtain ⟨-, h⟩ := Prog.runs_guard h
  obtain ⟨hash, tx₃, -, h⟩ := Prog.runs_bind_iff.mp h
  obtain ⟨-, h⟩ := Prog.runs_guard h
  obtain ⟨roaring, tx₄, -, h⟩ := Prog.runs_bind_iff.mp h
  obtain ⟨-, h⟩ := Prog.runs_guard h
  obtain ⟨storedId, tx₅, -, h⟩ := Prog.runs_bind_iff.mp h
  obtain ⟨-, h⟩ := Prog.runs_guard h
  obtain ⟨head, tx₆, -, h⟩ := Prog.runs_bind_iff.mp h
  obtain ⟨⟨⟩, tx₇, -, h⟩ := Prog.runs_bind_iff.mp h
  obtain ⟨-, h⟩ := Prog.runs_guard h
  obtain ⟨rfl, -⟩ := Prog.runs_pure_iff.mp h
  rfl

/-- **Opening an initialized store leaves it as it is**, whatever the settings. -/
theorem openStore_existing {store : σ} (hh : HeadIs (tables store) head) :
    ((openStore H config).exec store).2 = store := by
  obtain ⟨tx, htx, hrows⟩ := LawfulStore.beginWrite_eq store
  show (openStore H config store).2 = store
  unfold openStore
  rw [htx]
  cases config.genesis.validate (Store.maxKeySize store) (Store.maxValueSize store) with
  | error e => rfl
  | ok u =>
    simp only
    cases hp : (prepare H config).exec tx with
    | mk r tx' =>
      cases r with
      | error e => rfl
      | ok info =>
        simp only
        have hfound : (ReadTransaction.get tx SUPERBLOCK HEAD_KEY).mapError OpenError.storage
            = .ok (some head.encode) := by
          rw [LawfulRead.get_eq SUPERBLOCK_valid, hrows, hh, mapError_ok]
        rw [prepare_checks hfound hp]
        rfl

/-- A manager over an initialized store. -/
lemma new_existing {store : σ} (hh : HeadIs (tables store) head) (next : BranchId) :
    Branches.new store next = .ok ⟨store, OrdMap.empty, next⟩ := by
  obtain ⟨tx, htx, hrows⟩ := LawfulStore.beginRead_eq store
  unfold Branches.new
  rw [htx, mapError_ok, ok_bind, HeadIs.readHead (by rw [hrows]; exact hh)]
  rfl

/-- Opening again leaves the database, or a manager without branches over its store. -/
lemma reopen_cases {db : Branches σ} (hh : HeadIs (tables db.store) head) :
    reopen H config db = db ∨ reopen H config db = ⟨db.store, OrdMap.empty, db.nextBranchId⟩ := by
  have hstore : ((openStore H config).exec db.store).2 = db.store := openStore_existing hh
  unfold reopen
  cases ho : (openStore H config).exec db.store with
  | mk r store =>
    rw [ho] at hstore
    obtain rfl : store = db.store := hstore
    cases r with
    | error e => exact .inl rfl
    | ok info =>
      simp only
      rw [new_existing hh]
      exact .inr rfl

end Reopen

/-! ### The invariant -/

/-- A mutation of a reserved key is rejected; any other goes on. -/
lemma exec_rejectReserved {σ α : Type} (K : RecordKey) (c : Prog RecordError (Branches σ) α) (db : Branches σ) :
    (System.byKey K ≠ none ∧ ((do Prog.ofExcept (rejectReserved K); c) : Prog RecordError (Branches σ) α).exec db
      = (.error .reserved, db)) ∨
    (System.byKey K = none ∧ ((do Prog.ofExcept (rejectReserved K); c) : Prog RecordError (Branches σ) α).exec db
      = c.exec db) := by
  rw [Prog.exec_bind]
  cases hK : System.byKey K with
  | some s =>
    have hrej : (Prog.ofExcept (rejectReserved K) : Prog RecordError (Branches σ) Unit).exec db
        = (.error .reserved, db) := by
      show (rejectReserved K, db) = _
      simp [rejectReserved, hK]
    rw [hrej]
    exact .inl ⟨by simp, rfl⟩
  | none =>
    have hrej : (Prog.ofExcept (rejectReserved K) : Prog RecordError (Branches σ) Unit).exec db
        = (.ok (), db) := by
      show (rejectReserved K, db) = _
      simp [rejectReserved, hK]
    rw [hrej]
    exact .inr ⟨rfl, rfl⟩

section Invariant

variable {H : HashProvider} {R : Roaring} {σ : Type} [Store σ] [LawfulStore σ] {g : Genesis}

/-- A property of a committed state: of its tables and its version. -/
abbrev StateProp := (Table → Rows) → Version → Prop

/-- What is known of a branch: its seal is good, and it shows what mutations can make of the cells
of the commit it began at. -/
structure BranchOk (H : HashProvider) (R : Roaring) (store : σ) (hist : History) (head : Head)
    (st : BranchState) : Prop extends SealOk H R store head st where
  working : Working (Visible st.commitId (hist st.commitId).cells) (hist st.commitId).cells st.overlay

/-- **The invariant of runs**, with the history of the committed states. -/
structure Inv (H : HashProvider) (R : Roaring) (g : Genesis) (Good : StateProp) (hist : History) (head : Head)
    (db : Branches σ) : Prop where
  head_is : HeadIs (tables db.store) head
  last : (hist head.commitId).head = head
  cells : tables db.store CELL = cellRows (hist head.commitId).cells
  chain : Chain g hist head.commitId
  good : Good (tables db.store) (hist head.commitId)
  branches : db.Each (BranchOk H R db.store hist head)

namespace Inv

variable {Good : StateProp} {hist : History} {head : Head} {db : Branches σ}

lemma managed (h : Inv H R g Good hist head db) : Managed H R head (hist head.commitId).cells db :=
  ⟨h.head_is, h.cells, fun b st hb => (h.branches b st hb).toSealOk⟩

/-- A call that keeps the store and its branches keeps the invariant. -/
lemma quiet (h : Inv H R g Good hist head db) {db' : Branches σ}
    (hd : db'.Each (BranchOk H R db.store hist head) ∧ db'.store = db.store) : Inv H R g Good hist head db' :=
  ⟨by rw [hd.2]; exact h.head_is, h.last, by rw [hd.2]; exact h.cells, h.chain, by rw [hd.2]; exact h.good,
    by rw [hd.2]; exact hd.1⟩

/-- The version a sealed branch would publish. -/
def nextVersion (hist : History) (head : Head) (o : CellOverlay) (s : SealedCommit) : Version :=
  ⟨⟨s.commitId, s.stateRoot, s.indexRoot⟩, nextCells (hist head.commitId)
    ((hist head.commitId).cells.overlay o.entries)⟩

/-- A publication of the branch has the property of committed states. -/
def Publishes (H : HashProvider) (R : Roaring) (Good : StateProp) (hist : History) (head : Head)
    (db : Branches σ) (b : BranchId) : Prop :=
  ∀ (st : BranchState) (origin : Store.Read σ) (s : SealedCommit), db.branches.get? b = some st →
    st.commitId = head.commitId → rows origin = tables db.store → compute H R origin st.overlay = .ok s →
    Good (publishedRows (tables db.store) s) (nextVersion hist head st.overlay s)

/-- **A publication extends the history.** -/
lemma published (h : Inv H R g Good hist head db) {b : BranchId} {st : BranchState} {origin : Store.Read σ}
    {s : SealedCommit} {store' : σ} (hb : db.branches.get? b = some st) (hc : st.commitId = head.commitId)
    (hr : rows origin = tables db.store) (hs : compute H R origin st.overlay = .ok s)
    (ht : tables store' = publishedRows (tables db.store) s)
    (hgood : Good (publishedRows (tables db.store) s) (nextVersion hist head st.overlay s))
    (hm : Managed H R ⟨s.commitId, s.stateRoot, s.indexRoot⟩ (((hist head.commitId).cells.overlay
      st.overlay.entries).insert (rootsKey head.commitId) (rootsValue head)) { db.without b with store := store' }) :
    Inv H R g Good (Function.update hist s.commitId (nextVersion hist head st.overlay s))
      ⟨s.commitId, s.stateRoot, s.indexRoot⟩ { db.without b with store := store' } ∧
    Extends hist head.commitId (Function.update hist s.commitId (nextVersion hist head st.overlay s)) s.commitId := by
  obtain ⟨hsucc, -⟩ := h.managed.compute_head hr hs
  obtain ⟨hlt, hle⟩ := checkedSucc_lt hsucc
  have hold : ∀ i ≤ head.commitId,
      Function.update hist s.commitId (nextVersion hist head st.overlay s) i = hist i := fun i hi =>
    Function.update_of_ne (lt_of_le_of_lt hi hlt).ne _ _
  refine ⟨⟨hm.head_is, ?_, ?_, ⟨?_, ?_, ?_⟩, ?_, ?_⟩, hlt.le, hold, hle⟩
  · show (Function.update hist s.commitId _ s.commitId).head = _
    rw [Function.update_self]
    rfl
  · show _ = cellRows (Function.update hist s.commitId _ s.commitId).cells
    rw [hm.cells, Function.update_self, nextVersion, nextCells, h.last]
  · rw [hold 0 (Fin.zero_le _)]
    exact h.chain.zero
  · rw [hold 0 (Fin.zero_le _)]
    exact h.chain.genesis
  · intro i j hij hj
    have hilt := (checkedSucc_lt hij).1
    rcases hle j hj with hj | rfl
    · rw [hold i (le_trans hilt.le hj), hold j hj]
      exact h.chain.next i j hij hj
    · -- the published commit follows the head
      have hi : i = head.commitId := checkedSucc_inj hij hsucc
      subst hi
      rw [hold _ le_rfl, Function.update_self]
      refine ⟨by rw [h.last]; exact hsucc, _, ?_, rfl⟩
      rw [h.last]
      have hvis := (h.branches b st hb).working.visible
      rwa [hc] at hvis
  · show Good (tables store') (Function.update hist s.commitId _ s.commitId)
    rw [ht, Function.update_self]
    exact hgood
  · intro b' st' hb'
    refine ⟨hm.branches b' st' hb', ?_⟩
    have hok := Branches.Each.without h.branches b b' st' hb'
    rw [hold st'.commitId hok.le]
    exact hok.working

/-- A call that changes the overlay of an open branch into a working one keeps the invariant. -/
lemma overlay (h : Inv H R g Good hist head db) {α : Type} {b : BranchId}
    {operation : BranchState → Store.Read σ → α × BranchState}
    (hop : ∀ (st : BranchState) (origin : Store.Read σ), st.commitId = head.commitId →
      rows origin CELL = cellRows (hist head.commitId).cells →
      (operation st origin).2 = st ∨ st.sealed = none ∧ ∃ o, (operation st origin).2 = ⟨st.commitId, o, none⟩ ∧
        (Working (Visible st.commitId (hist st.commitId).cells) (hist st.commitId).cells st.overlay →
          Working (Visible st.commitId (hist st.commitId).cells) (hist st.commitId).cells o)) :
    Inv H R g Good hist head ((Branches.withBranch b operation).exec db).2 := by
  refine h.quiet (h.branches.admitted (withBranch_admitted h.head_is b operation) fun st origin hb hc hr hok => ?_)
  rcases hop st origin hc (by rw [hr, h.cells]) with he | ⟨-, o, he, hw⟩
  · rw [he]
    exact hok
  · rw [he]
    exact ⟨hok.toSealOk.opened o, hw hok.working⟩

/-- Mutations of an open branch keep the invariant. -/
lemma mutate (h : Inv H R g Good hist head db) {α : Type} (b : BranchId) (K : RecordKey)
    (group : CellOperation RecordError α)
    (hgroup : System.byKey K = none → ∀ c base m a m', Visible c base m → Prog.Runs group.runOn m a m' →
      Visible c base m') :
    Inv H R g Good hist head (((do
      Prog.ofExcept (rejectReserved K)
      Prog.mapError RecordError.ofOperation (Branches.write b group)) :
        Prog RecordError (Branches σ) α).exec db).2 := by
  rcases exec_rejectReserved K (Prog.mapError RecordError.ofOperation (Branches.write b group)) db with
    ⟨-, he⟩ | ⟨hK, he⟩
  · rw [he]
    exact h
  · rw [he, Prog.exec_mapError, Branches.write, exec_ofExcept_self, Prog.exec_mapError]
    refine h.overlay fun st origin hc hr => ?_
    unfold BranchState.requireOpen
    cases hs : st.sealed with
    | some s => exact .inl rfl
    | none =>
      refine .inr ⟨rfl, (st.overlay.write origin group).2, rfl, fun hw => ?_⟩
      rw [hc] at hw ⊢
      exact hw.write hr fun m a m' hm hrun => hgroup hK _ _ m a m' hm hrun

/-- **Every call keeps the invariant**, when a commit's publication has the property. -/
theorem step (h : Inv H R g Good hist head db) (op : Op)
    (hpub : ∀ b, op = .commit b → Publishes H R Good hist head db b) :
    ∃ hist' head', Inv H R g Good hist' head' (op.exec H R db) ∧
      Extends hist head.commitId hist' head'.commitId := by
  have keep : ∀ {db' : Branches σ}, Inv H R g Good hist head db' → ∃ hist' head',
      Inv H R g Good hist' head' db' ∧ Extends hist head.commitId hist' head'.commitId := fun h' =>
    ⟨hist, head, h', Extends.refl _ _⟩
  cases op with
  | begin =>
    have hnew : Working (Visible head.commitId (hist head.commitId).cells) (hist head.commitId).cells CellOverlay.new :=
      Working.new (h.chain.consistent _ le_rfl).visible
    exact keep (h.quiet (begin_each h.head_is h.branches ⟨⟨le_rfl, by rintro _ ⟨⟩⟩, hnew⟩))
  | create b K values =>
    exact keep (h.mutate b K _ fun hK c base m a m' hm hr =>
      hm.mutate (u := Mutation.create K values) hK (on_bind hr))
  | patch b K changes =>
    exact keep (h.mutate b K _ fun hK c base m a m' hm hr => hm.mutate (u := Mutation.patch K changes) hK hr)
  | delete b K =>
    exact keep (h.mutate b K _ fun hK c base m a m' hm hr => hm.mutate (u := Mutation.delete K) hK hr)
  | get target K projection =>
    apply keep
    cases target with
    | head => exact h
    | commit c => exact h
    | branch b =>
      show Inv H R g Good hist head ((Prog.mapError RecordError.ofOperation
        (Branches.read b (readBranchRecord K projection))).exec db).2
      rw [Prog.exec_mapError, Branches.read, exec_ofExcept, Prog.exec_mapError]
      exact h.overlay fun st origin _ _ => .inl rfl
  | branchInfo b => exact keep (h.overlay fun st origin _ _ => .inl rfl)
  | checkpoint b =>
    apply keep
    show Inv H R g Good hist head ((Branches.checkpoint b).exec db).2
    rw [Branches.checkpoint, exec_ofExcept_self]
    refine h.overlay fun st origin _ _ => ?_
    unfold BranchState.requireOpen
    cases hs : st.sealed with
    | some s => exact .inl rfl
    | none => exact .inr ⟨rfl, _, rfl, fun hw => hw.checkpoint⟩
  | rollback b =>
    apply keep
    show Inv H R g Good hist head ((Branches.rollback b).exec db).2
    rw [Branches.rollback, exec_ofExcept_self]
    refine h.overlay fun st origin _ _ => ?_
    unfold BranchState.requireOpen
    cases hs : st.sealed with
    | some s => exact .inl rfl
    | none => exact .inr ⟨rfl, _, rfl, fun hw => hw.rollback⟩
  | sealBranch b =>
    refine keep (h.quiet (seal_each h.head_is h.branches b fun st origin s hc hr hwhere hok => ?_))
    exact ⟨hok.toSealOk.cached hc hr hwhere, hok.working⟩
  | commit b =>
    show ∃ hist' head', Inv H R g Good hist' head' ((Branches.commit H R b).exec db).2 ∧ _
    rcases h.managed.commit b with ⟨e, he⟩ | he | ⟨st, origin, s, store', hb, hc, hr, hcomp, ht, he, hm⟩
    · rw [he]
      exact keep h
    · rw [he]
      exact keep (h.quiet ⟨h.branches.without b, rfl⟩)
    · rw [he]
      exact ⟨_, _, h.published hb hc hr hcomp ht (hpub b rfl st origin s hb hc hr hcomp) hm⟩
  | discard b => exact keep (h.quiet (discard_each h.head_is h.branches b))
  | reopen config =>
    apply keep
    show Inv H R g Good hist head (Api.reopen H config db)
    rcases (reopen_cases h.head_is : Api.reopen H config db = db ∨ _) with he | he
    · rw [he]
      exact h
    · rw [he]
      exact ⟨h.head_is, h.last, h.cells, h.chain, h.good, by rintro _ _ ⟨⟩⟩

end Inv

end Invariant

end GolemDb.Api
