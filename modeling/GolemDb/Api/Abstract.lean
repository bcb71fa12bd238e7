import GolemDb.Api.Contents
import GolemDb.Api.Reopening
import GolemDb.Branch.Atomic

/-!
The database as its users may think of it. There is a number for the committed contents, and a branch
is a draft: the contents it shows, the contents a rollback returns to, and whether it is sealed. A call
of the API is a step of this machine (`AbstractDb.step`). The code keeps cells under internal ids, an undo
journal over a snapshot, two tries and an index instead, and gives the same answers (`run_refines`).
-/

namespace GolemDb.Api

open GolemDb.Lib GolemDb.Storage GolemDb.Merkle GolemDb.Cells GolemDb.Index GolemDb.Branch GolemDb.Records

/-! ### The abstract database -/

/-- A branch: the commit it began at, the contents it shows, those a rollback returns to, and whether a frame is
open and the branch sealed. -/
structure Draft where
  origin : CommitId
  current : Contents
  saved : List Contents
  isOpen : Bool
  isSealed : Bool
deriving DecidableEq

namespace Draft

def new (origin : CommitId) (s : Contents) : Draft := ⟨origin, s, [s], true, false⟩

/-- Contents that a mutation has changed open a frame over those a rollback has restored. -/
def mutate {α : Type} (limits : CellLimits) (u : Mutation) (a : α) (d : Draft) : Except RecordError α × Draft :=
  if d.isSealed then (.error (.branch .sealed), d)
  else match d.current.mutate limits u with
    | .error e => (.error e, d)
    | .ok s =>
      if s = d.current then (.ok a, d)
      else (.ok a, { d with current := s, saved := if d.isOpen then d.saved else d.current :: d.saved, isOpen := true })

def checkpoint (d : Draft) : Except BranchError Unit × Draft :=
  if d.isSealed then (.error .sealed, d) else (.ok (), { d with saved := d.current :: d.saved, isOpen := true })

def rollback (d : Draft) : Except BranchError Unit × Draft :=
  if d.isSealed then (.error .sealed, d)
  else match d.saved with
    | s :: saved => (.ok (), { d with current := s, saved := saved, isOpen := false })
    | [] => (.error .noFrameToRollback, d)

/-- The number a draft would be published under. -/
def sealDraft (d : Draft) : Except BranchError CommitId × Draft :=
  match checkedSucc d.origin with
  | some c => (.ok c, { d with isSealed := true })
  | none => (.error .commitNumberExhausted, d)

end Draft

/-- What a caller sees of a call. The version of a branch, the roots of a seal or of a head and the id of the genesis
are left out. -/
inductive Outcome where
  | began (result : Except BranchError BranchId)
  | created (result : Except RecordError RecordKey)
  | mutated (result : Except RecordError Unit)
  | found (result : Except RecordError Record)
  | info (result : Except BranchError (CommitId × BranchId × Bool))
  | done (result : Except BranchError Unit)
  | numbered (result : Except BranchError CommitId)
  | opened (result : Except OpenError CommitId)
deriving DecidableEq

/-- The genesis of a database and the limits of its store. -/
structure Settings where
  genesis : Genesis
  maxKey : ℕ
  maxValue : ℕ

structure AbstractDb where
  head : CommitId
  committed : Contents
  drafts : OrdMap BranchId Draft
  nextBranchId : BranchId

namespace AbstractDb

/-- A database of the genesis contents. -/
def new (next : BranchId) : AbstractDb := ⟨0, Contents.empty, OrdMap.empty, next⟩

/-- A call on a branch: a draft of another head is dropped. -/
def withDraft {α : Type} (b : BranchId) (stale : BranchError) (operation : Draft → Except BranchError α × AbstractDb)
    (a : AbstractDb) : Except BranchError α × AbstractDb :=
  match a.drafts.get? b with
  | none => (.error .handleInvalid, a)
  | some d => if d.origin ≠ a.head then (.error stale, { a with drafts := a.drafts.erase b }) else operation d

/-- A call that changes a draft alone. -/
def edit {α : Type} (b : BranchId) (operation : Draft → α × Draft) (a : AbstractDb) :
    Except BranchError α × AbstractDb :=
  a.withDraft b .handleInvalid fun d => (.ok (operation d).1, { a with drafts := a.drafts.insert b (operation d).2 })

/-- The result of a call on a branch that has one of its own. -/
def joined {ε α : Type} (f : BranchError → ε) (r : Except BranchError (Except ε α)) : Except ε α :=
  match r with
  | .error e => .error (f e)
  | .ok r => r

def begin (a : AbstractDb) : Except BranchError BranchId × AbstractDb :=
  match checkedSucc a.nextBranchId with
  | none => (.error .branchNumberExhausted, a)
  | some next =>
    (.ok a.nextBranchId, ⟨a.head, a.committed, a.drafts.insert a.nextBranchId (Draft.new a.head a.committed), next⟩)

/-- A mutation of a user's key on a branch. -/
def mutate {α : Type} (limits : CellLimits) (b : BranchId) (u : Mutation) (result : α) (a : AbstractDb) :
    Except RecordError α × AbstractDb :=
  if (System.byKey u.key).isSome then (.error .reserved, a)
  else (joined .branch (a.edit b (Draft.mutate limits u result)).1, (a.edit b (Draft.mutate limits u result)).2)

def get (target : ReadTarget) (key : RecordKey) (projection : Option (List CellName)) (a : AbstractDb) :
    Except RecordError Record × AbstractDb :=
  match target with
  | .head => (a.committed.record key projection, a)
  | .commit c =>
    (if c ≠ a.head then .error (.commitUnavailable c a.head) else a.committed.record key projection, a)
  | .branch b =>
    let out := a.edit b fun d => (d.current.record key projection, d)
    (joined .branch out.1, out.2)

/-- Publish what a draft shows. -/
def commit (b : BranchId) (a : AbstractDb) : Except BranchError CommitId × AbstractDb :=
  a.withDraft b .conflict fun d =>
    match checkedSucc d.origin with
    | none => (.error .commitNumberExhausted, a)
    | some c => (.ok c, ⟨c, d.current, a.drafts.erase b, a.nextBranchId⟩)

def discard (b : BranchId) (a : AbstractDb) : Except BranchError Unit × AbstractDb :=
  a.withDraft b .handleInvalid fun _ => (.ok (), { a with drafts := a.drafts.erase b })

/-- Open the store again: the drafts are lost. -/
def reopen (settings : Settings) (config : OpenConfig) (a : AbstractDb) : Except OpenError CommitId × AbstractDb :=
  match config.genesis.validate settings.maxKey settings.maxValue with
  | .error e => (.error e, a)
  | .ok () =>
    if config.genesis ≠ settings.genesis then (.error .genesisMismatch, a)
    else if config.mode = .createNew then (.error .alreadyInitialized, a)
    else (.ok a.head, { a with drafts := OrdMap.empty })

/-- **A call of the API on the abstract database.** -/
def step (settings : Settings) (op : Op) (a : AbstractDb) : Outcome × AbstractDb :=
  let limits := settings.genesis.cellLimits
  match op with
  | .begin => (.began a.begin.1, a.begin.2)
  | .create b key values =>
    let out := a.mutate limits b (.create key values) key
    (.created out.1, out.2)
  | .patch b key changes =>
    let out := a.mutate limits b (.patch key changes) ()
    (.mutated out.1, out.2)
  | .delete b key =>
    let out := a.mutate limits b (.delete key) ()
    (.mutated out.1, out.2)
  | .get target key projection => (.found (a.get target key projection).1, (a.get target key projection).2)
  | .branchInfo b =>
    let out := a.edit b fun d => ((d.origin, b, d.isSealed), d)
    (.info out.1, out.2)
  | .checkpoint b => (.done (joined id (a.edit b Draft.checkpoint).1), (a.edit b Draft.checkpoint).2)
  | .rollback b => (.done (joined id (a.edit b Draft.rollback).1), (a.edit b Draft.rollback).2)
  | .sealBranch b => (.numbered (joined id (a.edit b Draft.sealDraft).1), (a.edit b Draft.sealDraft).2)
  | .commit b => (.numbered (a.commit b).1, (a.commit b).2)
  | .discard b => (.done (a.discard b).1, (a.discard b).2)
  | .reopen config => (.opened (a.reopen settings config).1, (a.reopen settings config).2)

/-- The answers to a sequence of calls. -/
def answers (settings : Settings) : List Op → AbstractDb → List Outcome
  | [], _ => []
  | op :: ops, a => (a.step settings op).1 :: answers settings ops (a.step settings op).2

/-- The database after a sequence of calls. -/
def after (settings : Settings) (ops : List Op) (a : AbstractDb) : AbstractDb :=
  ops.foldl (fun a op => (a.step settings op).2) a

end AbstractDb

/-! ### The answers of the code -/

section Answers

variable (H : HashProvider) (R : Roaring) {σ : Type} [Store σ]

/-- What the caller sees of a call of the code. -/
def Op.outcome (op : Op) (db : Branches σ) : Outcome :=
  match op with
  | .begin => .began (Branches.begin.exec db).1
  | .create b key values => .created ((Records.create b key values).exec db).1
  | .patch b key changes => .mutated ((Records.patch b key changes).exec db).1
  | .delete b key => .mutated ((Records.delete b key).exec db).1
  | .get target key projection => .found ((Records.get target key projection).exec db).1
  | .branchInfo b => .info (((Branches.branchInfo b).exec db).1.map fun i => (i.commitId, i.branchId, i.isSealed))
  | .checkpoint b => .done ((Branches.checkpoint b).exec db).1
  | .rollback b => .done ((Branches.rollback b).exec db).1
  | .sealBranch b => .numbered (((Branches.sealBranch H R b).exec db).1.map SealedCommit.commitId)
  | .commit b => .numbered ((Branches.commit H R b).exec db).1
  | .discard b => .done ((Branches.discard b).exec db).1
  | .reopen config => .opened (((openStore H config).exec db.store).1.map OpenInfo.commitId)

/-- The answers to a sequence of calls. -/
def outcomes : List Op → Branches σ → List Outcome
  | [], _ => []
  | op :: ops, db => op.outcome H R db :: outcomes ops (op.exec H R db)

end Answers

/-! ### Representation -/

section Represents

variable {H : HashProvider} {R : Roaring} {σ : Type} [Store σ] [LawfulStore σ] {cells : CellMap} {head : Head}
  {db : Branches σ} {a : AbstractDb}

/-- What a branch shows, and its contents. -/
def ShowsContents (c : CommitId) (base m : CellMap) (s : Contents) : Prop := Visible c base m ∧ HasContents m s

/-- **A branch over the committed cells and its draft.** -/
structure DraftOf (c : CommitId) (base : CellMap) (st : BranchState) (d : Draft) : Prop where
  sealed : st.sealed.isSome = d.isSealed
  machine : ∃ m : Machine, Refines base st.overlay m ∧ ShowsContents c base m.current.cells d.current ∧
    List.Forall₂ (fun x s => ShowsContents c base x.cells s) m.stack d.saved ∧ m.isOpen = d.isOpen

/-- A branch and a draft of one origin; over the head they agree. -/
def Alike (c : CommitId) (base : CellMap) (st : BranchState) (d : Draft) : Prop :=
  d.origin = st.commitId ∧ (st.commitId = c → DraftOf c base st d)

/-- **A manager with its abstract database.** -/
structure Represented (head : Head) (cells : CellMap) (db : Branches σ) (a : AbstractDb) : Prop where
  head_is : HeadIs (tables db.store) head
  table : tables db.store CELL = cellRows cells
  number : a.head = head.commitId
  committed : HasContents cells a.committed
  next : a.nextBranchId = db.nextBranchId
  drafts : ∀ b, Option.Rel (Alike head.commitId cells) (db.branches.get? b) (a.drafts.get? b)

namespace Represented

/-- Keep a branch's state and its draft. -/
lemma set (h : Represented head cells db a) (b : BranchId) {st : BranchState} {d : Draft}
    (hd : Alike head.commitId cells st d) :
    Represented head cells (db.withState b st) { a with drafts := a.drafts.insert b d } := by
  refine ⟨h.head_is, h.table, h.number, h.committed, h.next, fun b' => ?_⟩
  show Option.Rel _ ((db.branches.insert b st).get? b') ((a.drafts.insert b d).get? b')
  rw [OrdMap.get?_insert, OrdMap.get?_insert]
  split_ifs
  · exact .some hd
  · exact h.drafts b'

lemma without (h : Represented head cells db a) (b : BranchId) :
    Represented head cells (db.without b) { a with drafts := a.drafts.erase b } := by
  refine ⟨h.head_is, h.table, h.number, h.committed, h.next, fun b' => ?_⟩
  show Option.Rel _ ((db.branches.erase b).get? b') ((a.drafts.erase b).get? b')
  rw [OrdMap.get?_erase, OrdMap.get?_erase]
  split_ifs
  · exact .none
  · exact h.drafts b'

end Represented

/-- One result, and managers that represent each other. -/
def Matched {α β : Type} (φ : α → β) (out : Except BranchError α × Branches σ)
    (out' : Except BranchError β × AbstractDb) : Prop :=
  out.1.map φ = out'.1 ∧ ∃ head cells, Represented head cells out.2 out'.2

/-- **Admission.** A call on a branch is matched if it is matched on every branch over the head. -/
theorem Represented.withDraft {α β : Type} {φ : α → β} (h : Represented head cells db a) (b : BranchId)
    (stale : BranchError) {operation : BranchState → Store.Read σ → Prog BranchError (Branches σ) α}
    {abstract : Draft → Except BranchError β × AbstractDb}
    (hop : ∀ (st : BranchState) (origin : Store.Read σ) (d : Draft), db.branches.get? b = some st →
      st.commitId = head.commitId →
      Admits db st origin → rows origin = tables db.store → d.origin = head.commitId →
        DraftOf head.commitId cells st d →
      Matched φ ((operation st origin).exec db) (abstract d)) :
    Matched φ ((Branches.withSlot b stale operation).exec db) (a.withDraft b stale abstract) := by
  have hrel := h.drafts b
  unfold AbstractDb.withDraft
  cases hb : db.branches.get? b with
  | none =>
    rw [hb] at hrel
    cases hd : a.drafts.get? b with
    | some d =>
      rw [hd] at hrel
      cases hrel
    | none =>
      rw [withSlot_missing hb]
      exact ⟨rfl, head, cells, h⟩
  | some st =>
    rw [hb] at hrel
    cases hd : a.drafts.get? b with
    | none =>
      rw [hd] at hrel
      cases hrel
    | some d =>
      rw [hd] at hrel
      obtain ⟨horigin, hlive⟩ : Alike head.commitId cells st d := by
        cases hrel with
        | some hr => exact hr
      obtain ⟨origin, hbegin, hrows⟩ := LawfulStore.beginRead_eq db.store
      have hread : readHead origin = .ok head.commitId := HeadIs.readHead (by rw [hrows]; exact h.head_is)
      by_cases hc : st.commitId = head.commitId
      · simp only
        rw [if_neg (not_not.mpr (by rw [horigin, hc, h.number]))]
        have hadm : Admits db st origin := ⟨hbegin, by rw [hread, hc]⟩
        rw [withSlot_admitted hb hadm]
        exact hop st origin d hb hc hadm hrows (by rw [horigin, hc]) (hlive hc)
      · simp only
        rw [if_pos (by rw [horigin, h.number]; exact hc), withSlot_stale hb hbegin hread (Ne.symm hc)]
        exact ⟨rfl, head, cells, h.without b⟩

/-- A call that changes a branch alone is matched if its work on a branch over the head is. -/
theorem Represented.edit {α β : Type} {φ : α → β} (h : Represented head cells db a) (b : BranchId)
    {operation : BranchState → Store.Read σ → α × BranchState} {abstract : Draft → β × Draft}
    (hop : ∀ (st : BranchState) (origin : Store.Read σ) (d : Draft), db.branches.get? b = some st →
      st.commitId = head.commitId →
      rows origin = tables db.store → d.origin = head.commitId → DraftOf head.commitId cells st d →
      φ (operation st origin).1 = (abstract d).1 ∧ (operation st origin).2.commitId = head.commitId ∧
        (abstract d).2.origin = head.commitId ∧ DraftOf head.commitId cells (operation st origin).2 (abstract d).2) :
    Matched φ ((Branches.withBranch b operation).exec db) (a.edit b abstract) := by
  refine h.withDraft b _ fun st origin d hb hc hadm hrows hd hof => ?_
  obtain ⟨hres, hc', hd', hof'⟩ := hop st origin d hb hc hrows hd hof
  exact ⟨congrArg Except.ok hres, head, cells, h.set b ⟨by rw [hd', hc'], fun _ => hof'⟩⟩

/-! ### Work on a branch -/

/-- **The outcomes of a mutation on a machine of snapshots**: an error of the contents, nothing, or a new state. -/
lemma Mirrors.write {α : Type} {l : CellLimits} {op : CellOperation RecordError α} {result : α}
    {u : Mutation} {m : Machine}
    {s : Contents} (h : Mirrors l op result u m.current.cells s) (hs : HasContents m.current.cells s) :
    (∃ e, s.mutate l u = .error e ∧ m.write op = (.error (.error e), m)) ∨
    (s.mutate l u = .ok s ∧ m.write op = (.ok result, m)) ∨
    ∃ s' x, s.mutate l u = .ok s' ∧ s' ≠ s ∧ m.write op = (.ok result, ⟨x, m.reopened, true⟩) ∧
      Prog.Runs u.group.runOn m.current.cells () x.cells ∧ HasContents x.cells s' := by
  obtain ⟨hres, hcells⟩ := op.runRef_runOn m.current false
  unfold Mirrors at h
  unfold Machine.write
  rcases hx : op.runRef (m.current, false) with ⟨r, x, w⟩
  rw [hx] at hres hcells
  cases hmut : s.mutate l u with
  | error e =>
    rw [hmut] at h
    obtain rfl : r = .error (.error e) := hres.trans (congrArg Prod.fst h)
    exact .inl ⟨e, rfl, rfl⟩
  | ok s' =>
    rw [hmut] at h
    obtain ⟨m', hperf⟩ := h
    obtain rfl : r = .ok result := hres.trans (congrArg Prod.fst hperf.runs)
    obtain rfl : x.cells = m' := hcells.trans (congrArg Prod.snd hperf.runs)
    cases w with
    | false =>
      have hsame := congrArg Prod.fst (runRef_unwritten op (m.current, false) (by rw [hx]))
      rw [hx] at hsame
      obtain rfl : x = m.current := hsame
      obtain rfl := hperf.contents.unique hs
      exact .inr (.inl ⟨rfl, rfl⟩)
    | true =>
      have hne : s' ≠ s := hperf.staged m.current.entries (by rw [show (⟨m.current.entries, m.current.cells⟩ : Snapshot)
        = m.current from rfl, hx])
      exact .inr (.inr ⟨s', x, rfl, hne, rfl, hperf.group, hperf.contents⟩)

section Work

variable {c : CommitId} {base : CellMap} {st : BranchState} {d : Draft} {l : CellLimits} {origin : Store.Read σ}

omit [LawfulStore σ] in
lemma DraftOf.openDraft (h : DraftOf c base st d) (hs : st.sealed = none) : d.isSealed = false := by
  rw [← h.sealed, hs]
  rfl

omit [LawfulStore σ] in
lemma DraftOf.sealedDraft (h : DraftOf c base st d) {s : SealedCommit} (hs : st.sealed = some s) :
    d.isSealed = true := by
  rw [← h.sealed, hs]
  rfl

/-- The contents of a branch. -/
lemma DraftOf.shows (h : DraftOf c base st d) : ShowsContents c base (base.overlay st.overlay.entries) d.current := by
  obtain ⟨m, href, hcur, -, -⟩ := h.machine
  rwa [href.current] at hcur

/-- **A mutation of a branch is the mutation of its draft.** -/
theorem DraftOf.mutate {α : Type} {op : CellOperation RecordError α} {result : α} {u : Mutation}
    (h : DraftOf c base st d)
    (hbase : rows origin CELL = cellRows base) (hl : HasLimits base l) (hK : System.byKey u.key = none)
    (hop : ∀ m s, Consistent c m → HasLimits m l → HasContents m s → Mirrors l op result u m s)
    (hs : st.sealed = none) :
    ((st.overlay.write origin op).1.mapError Fault.toOperationError).mapError RecordError.ofOperation
        = (d.mutate l u result).1 ∧
      DraftOf c base { st with overlay := (st.overlay.write origin op).2 } (d.mutate l u result).2 := by
  obtain ⟨m, href, ⟨hvis, hcur⟩, hstack, hopen⟩ := h.machine
  obtain ⟨hres, href'⟩ := href.write hbase op
  rw [hres]
  unfold Draft.mutate
  rw [h.openDraft hs]
  rcases (hop _ _ hvis.consistent (hvis.frozen.limits hl) hcur).write hcur with
    ⟨e, he, hw⟩ | ⟨he, hw⟩ | ⟨s', x, he, hne, hw, hrun, hcont⟩
  · rw [hw] at href' ⊢
    rw [he]
    exact ⟨rfl, h.sealed, m, href', ⟨hvis, hcur⟩, hstack, hopen⟩
  · rw [hw] at href' ⊢
    rw [he]
    simp only [if_true]
    exact ⟨rfl, h.sealed, m, href', ⟨hvis, hcur⟩, hstack, hopen⟩
  · rw [hw] at href' ⊢
    rw [he]
    simp only [if_neg hne]
    refine ⟨rfl, by rw [hs]; rfl, _, href', ⟨hvis.mutate hK hrun, hcont⟩, ?_, rfl⟩
    -- a frame is open already, or one is opened over what the rollback restored
    simp only [Machine.reopened, hopen]
    cases d.isOpen with
    | true => exact hstack
    | false => exact .cons ⟨hvis, hcur⟩ hstack

lemma DraftOf.checkpoint (h : DraftOf c base st d) (hs : st.sealed = none) :
    DraftOf c base { st with overlay := st.overlay.checkpoint } d.checkpoint.2 := by
  obtain ⟨m, href, hcur, hstack, hopen⟩ := h.machine
  unfold Draft.checkpoint
  rw [h.openDraft hs]
  exact ⟨by rw [hs]; rfl, _, href.checkpoint, hcur, .cons hcur hstack, rfl⟩

lemma DraftOf.rollback (h : DraftOf c base st d) (hs : st.sealed = none) :
    st.overlay.rollback.1 = d.rollback.1 ∧
      DraftOf c base { st with overlay := st.overlay.rollback.2 } d.rollback.2 := by
  obtain ⟨m, href, hcur, hstack, hopen⟩ := h.machine
  obtain ⟨hres, href'⟩ := href.rollback
  rw [hres]
  unfold Draft.rollback
  rw [h.openDraft hs]
  unfold Machine.rollback at href' ⊢
  cases hm : m.stack with
  | nil =>
    rw [hm] at hstack href'
    cases hd : d.saved with
    | nil => exact ⟨rfl, h.sealed, m, href', hcur, by rw [hm]; exact hstack, hopen⟩
    | cons s saved =>
      rw [hd] at hstack
      cases hstack
  | cons x stack =>
    rw [hm] at hstack href'
    cases hd : d.saved with
    | nil =>
      rw [hd] at hstack
      cases hstack
    | cons s saved =>
      rw [hd] at hstack
      obtain ⟨hx, hrest⟩ := List.forall₂_cons.mp hstack
      exact ⟨rfl, by rw [hs]; rfl, _, href', hx, hrest, rfl⟩

end Work

/-! ### Calls on a branch -/

section Calls

variable {l : CellLimits} {b : BranchId} {ε ε' α β : Type}

/-- One answer, and managers that represent each other. -/
def Answered (out : Except ε α × Branches σ) (out' : Except ε α × AbstractDb) : Prop :=
  out.1 = out'.1 ∧ ∃ head cells, Represented head cells out.2 out'.2

/-- A call of the record layer on a branch. -/
lemma answered_joined {φ : α → Except ε' β} {c : Prog BranchError (Branches σ) α} {k : α → Except ε β}
    {fst : BranchError → ε} {snd : ε → ε'} {out' : Except BranchError (Except ε' β) × AbstractDb}
    (h : Matched φ (c.exec db) out') (hk : ∀ x, (k x).mapError snd = φ x) :
    Answered ((Prog.mapError snd (Prog.mapError fst c >>= fun x => Prog.ofExcept (k x))).exec db)
      (AbstractDb.joined (fun e => snd (fst e)) out'.1, out'.2) := by
  obtain ⟨hres, hrep⟩ := h
  rw [Prog.exec_mapError, Prog.exec_bind, Prog.exec_mapError]
  rcases hx : c.exec db with ⟨e | x, db'⟩
  · rw [hx] at hres hrep
    rw [← hres]
    exact ⟨rfl, hrep⟩
  · rw [hx] at hres hrep
    rw [← hres]
    exact ⟨hk x, hrep⟩

/-- A call of the manager with a result of its own. -/
lemma answered_unwrapped {ψ : α → β} {c : Prog BranchError (Branches σ) (Except BranchError α)}
    {out' : Except BranchError (Except BranchError β) × AbstractDb} (h : Matched (Except.map ψ) (c.exec db) out') :
    Answered (((c >>= fun x => Prog.ofExcept x).exec db).1.map ψ, ((c >>= fun x => Prog.ofExcept x).exec db).2)
      (AbstractDb.joined id out'.1, out'.2) := by
  obtain ⟨hres, hrep⟩ := h
  rw [Prog.exec_bind]
  rcases hx : c.exec db with ⟨e | x, db'⟩
  · rw [hx] at hres hrep
    rw [← hres]
    exact ⟨rfl, hrep⟩
  · rw [hx] at hres hrep
    rw [← hres]
    exact ⟨rfl, hrep⟩

lemma answered_own {c : Prog BranchError (Branches σ) (Except BranchError α)}
    {out' : Except BranchError (Except BranchError α) × AbstractDb} (h : Matched (Except.map id) (c.exec db) out') :
    Answered ((c >>= fun x => Prog.ofExcept x).exec db) (AbstractDb.joined id out'.1, out'.2) := by
  have hm := answered_unwrapped (ψ := id) h
  rwa [Except.map_id] at hm

lemma requireOpen_sealed {st : BranchState} {s : SealedCommit} (h : st.sealed = some s) :
    st.requireOpen = .error .sealed := by
  rw [BranchState.requireOpen, h]
  rfl

lemma requireOpen_none {st : BranchState} (h : st.sealed = none) : st.requireOpen = .ok () := by
  rw [BranchState.requireOpen, h]
  rfl

omit [LawfulStore σ] in
lemma Draft.mutate_origin (u : Mutation) (result : α) (d : Draft) : (d.mutate l u result).2.origin = d.origin := by
  unfold Draft.mutate
  by_cases hs : d.isSealed = true
  · rw [if_pos hs]
  · rw [if_neg hs]
    cases d.current.mutate l u with
    | error e => rfl
    | ok s =>
      by_cases he : s = d.current
      · simp only [if_pos he]
      · simp only [if_neg he]

/-- **A mutation of a user's key.** -/
theorem Represented.mutate {op : CellOperation RecordError α} {result : α} {u : Mutation}
    (h : Represented head cells db a)
    (hl : HasLimits cells l) (hop : System.byKey u.key = none → ∀ m s, Consistent head.commitId m → HasLimits m l →
      HasContents m s → Mirrors l op result u m s) :
    Answered (((do
      Prog.ofExcept (rejectReserved u.key)
      Prog.mapError RecordError.ofOperation (Branches.write b op)) : Prog RecordError (Branches σ) α).exec db)
      (a.mutate l b u result) := by
  unfold AbstractDb.mutate
  rcases exec_rejectReserved u.key (Prog.mapError RecordError.ofOperation (Branches.write b op)) db
    with ⟨hK, he⟩ | ⟨hK, he⟩
  · rw [he, if_pos (Option.isSome_iff_ne_none.mpr hK)]
    exact ⟨rfl, head, cells, h⟩
  · rw [he, if_neg (by rw [hK]; simp)]
    refine answered_joined (φ := fun r => r.mapError RecordError.ofOperation) (k := id)
      (h.edit b fun st origin d _ hc hr hd hof => ?_)
      fun _ => rfl
    have hbase : rows origin CELL = cellRows cells := by rw [hr, h.table]
    cases hs : st.sealed with
    | some s =>
      have hmut : d.mutate l u result = (.error (.branch .sealed), d) := if_pos (hof.sealedDraft hs)
      simp only [requireOpen_sealed hs, hmut]
      exact ⟨rfl, hc, hd, hof⟩
    | none =>
      obtain ⟨hres, hof'⟩ := DraftOf.mutate hof hbase hl hK (hop hK) hs
      rw [hs] at hof'
      simp only [requireOpen_none hs]
      exact ⟨hres, hc, by rw [Draft.mutate_origin, hd], hof'⟩

/-- Reading a user's record on a branch. -/
theorem Represented.read (h : Represented head cells db a) {K : RecordKey} (hK : System.byKey K = none)
    (projection : Option (List CellName)) :
    Answered ((Records.get (.branch b) K projection).exec db) (a.get (.branch b) K projection) := by
  refine answered_joined (φ := fun r => (r.mapError Fault.toOperationError).mapError RecordError.ofOperation)
    (h.edit b fun st origin d _ hc hr hd hof => ?_) fun _ => rfl
  have hbase : rows origin CELL = cellRows cells := by rw [hr, h.table]
  obtain ⟨hvis, hcont⟩ := hof.shows
  refine ⟨?_, hc, hd, hof⟩
  simp only
  rw [(run_runOn hbase _ _).1, on_readBranchRecord, hcont.recordOf hvis.consistent hK]
  cases d.current.record K projection <;> rfl

end Calls

/-! ### Calls of the manager -/

/-- What a seal needs: a branch over the head seals, unless there is no number after it. -/
def SealsBranches (H : HashProvider) (R : Roaring) (head : Head) (db : Branches σ) (b : BranchId) : Prop :=
  ∀ (st : BranchState) (origin : Store.Read σ), db.branches.get? b = some st → st.commitId = head.commitId →
    rows origin = tables db.store → match checkedSucc head.commitId with
      | some c => ∃ s, st.sealState H R origin = .ok (s, { st with sealed := some s }) ∧ s.commitId = c ∧
        s.writes.Valid ∧
          ∃ origin' : Store.Read σ, rows origin' = tables db.store ∧ compute H R origin' st.overlay = .ok s
      | none => st.sealState H R origin = .error .commitNumberExhausted

section Manager

variable {b : BranchId}

lemma Represented.begin (h : Represented head cells db a) (hcons : Consistent head.commitId cells) :
    Answered (Branches.begin.exec db) a.begin := by
  obtain ⟨origin, horigin, hrows⟩ := LawfulStore.beginRead_eq db.store
  have hhead : (Prog.read Branches.head : Prog BranchError (Branches σ) CommitId).exec db
      = (.ok head.commitId, db) := by
    show (db.head, db) = _
    rw [Branches.head, horigin, mapError_ok, ok_bind, HeadIs.readHead (by rw [hrows]; exact h.head_is)]
  unfold Branches.begin AbstractDb.begin
  rw [Prog.exec_bind, hhead, h.next]
  simp only
  rw [Prog.exec_bind]
  cases hs : checkedSucc db.nextBranchId with
  | none =>
    have hall : Branches.allocateBranchId.exec db = (.error .branchNumberExhausted, db) := by
      show Branches.allocateBranchId db = _
      simp [Branches.allocateBranchId, hs]
    rw [hall]
    exact ⟨rfl, head, cells, h⟩
  | some next =>
    have hall : Branches.allocateBranchId.exec db = (.ok db.nextBranchId, { db with nextBranchId := next }) := by
      show Branches.allocateBranchId db = _
      simp [Branches.allocateBranchId, hs]
    rw [hall]
    have h' : Represented head cells { db with nextBranchId := next } { a with nextBranchId := next } :=
      ⟨h.head_is, h.table, h.number, h.committed, rfl, h.drafts⟩
    have hshows : ShowsContents head.commitId cells cells a.committed := ⟨hcons.visible, h.committed⟩
    have hnew : Alike head.commitId cells ⟨head.commitId, CellOverlay.new, none⟩ (Draft.new a.head a.committed) :=
      ⟨h.number, fun _ => ⟨rfl, Machine.new cells, refines_new cells, hshows, .cons hshows .nil, rfl⟩⟩
    exact ⟨rfl, head, cells, h'.set db.nextBranchId hnew⟩

lemma Represented.branchInfo (h : Represented head cells db a) :
    Matched (fun i : BranchInfo => (i.commitId, i.branchId, i.isSealed)) ((Branches.branchInfo b).exec db)
      (a.edit b fun d => ((d.origin, b, d.isSealed), d)) := by
  refine h.edit b fun st origin d _ hc _ hd hof => ⟨?_, hc, hd, hof⟩
  simp only [hc, hd, hof.sealed]

lemma Represented.checkpoint (h : Represented head cells db a) :
    Answered ((Branches.checkpoint b).exec db)
      (AbstractDb.joined id (a.edit b Draft.checkpoint).1, (a.edit b Draft.checkpoint).2) := by
  refine answered_own (h.edit b fun st origin d _ hc _ hd hof => ?_)
  cases hs : st.sealed with
  | some s =>
    have hnot : d.checkpoint = (.error .sealed, d) := if_pos (hof.sealedDraft hs)
    simp only [requireOpen_sealed hs, hnot]
    exact ⟨rfl, hc, hd, hof⟩
  | none =>
    have hof' := hof.checkpoint hs
    have hdone : d.checkpoint = (.ok (), { d with saved := d.current :: d.saved, isOpen := true }) :=
      if_neg (by rw [hof.openDraft hs]; simp)
    rw [hs, hdone] at hof'
    simp only [requireOpen_none hs, hdone]
    exact ⟨rfl, hc, hd, hof'⟩

lemma Draft.rollback_origin (d : Draft) : d.rollback.2.origin = d.origin := by
  unfold Draft.rollback
  by_cases hs : d.isSealed = true
  · rw [if_pos hs]
  · rw [if_neg hs]
    cases d.saved <;> rfl

lemma Represented.rollback (h : Represented head cells db a) :
    Answered ((Branches.rollback b).exec db)
      (AbstractDb.joined id (a.edit b Draft.rollback).1, (a.edit b Draft.rollback).2) := by
  refine answered_own (h.edit b fun st origin d _ hc _ hd hof => ?_)
  cases hs : st.sealed with
  | some s =>
    have hnot : d.rollback = (.error .sealed, d) := if_pos (hof.sealedDraft hs)
    simp only [requireOpen_sealed hs, hnot]
    exact ⟨rfl, hc, hd, hof⟩
  | none =>
    obtain ⟨hres, hof'⟩ := hof.rollback hs
    rw [hs] at hof'
    simp only [requireOpen_none hs]
    exact ⟨by rw [hres]; cases d.rollback.1 <;> rfl, hc, by rw [Draft.rollback_origin, hd], hof'⟩

end Manager

end Represents

end GolemDb.Api
