import GolemDb.Branch.Seal

/-!
The branch manager: a registry of branches over one store. Every call on a branch checks the head
in a fresh snapshot and drops the branch when the head has moved. Calls are atomic here, as the
branch's lock makes them for the branch; an entry whose slot was emptied is an absent entry.
-/

namespace GolemDb.Branch

open GolemDb.Lib GolemDb.Storage GolemDb.Merkle GolemDb.Cells GolemDb.Index

/-- A process-local branch number. -/
abbrev BranchId := U64

structure BranchState where
  commitId : CommitId
  overlay : CellOverlay
  sealed : Option SealedCommit
deriving DecidableEq

namespace BranchState

def requireOpen (state : BranchState) : Except BranchError Unit :=
  if state.sealed.isSome then .error .sealed else .ok ()

/-- Seal over the origin; a sealed branch returns the cached result. -/
def sealState (H : HashProvider) (R : Roaring) {ρ : Type} [ReadTransaction ρ] (state : BranchState)
    (origin : ρ) : Except BranchError (SealedCommit × BranchState) :=
  match state.sealed with
  | some sealed => .ok (sealed, state)
  | none => do
    let sealed ← compute H R origin state.overlay
    return (sealed, { state with sealed := some sealed })

end BranchState

/-- Failures of admission, of a callback, and the panic of a callback, which is resumed. -/
inductive OperationError (ε : Type) where
  | branch (source : BranchError)
  | operation (source : ε)
  | panic
deriving DecidableEq

def Fault.toOperationError {ε : Type} : Fault ε → OperationError ε
  | .error e => .operation e
  | .panic => .panic

structure BranchInfo where
  commitId : CommitId
  branchId : BranchId
  version : ℕ
  isSealed : Bool
deriving DecidableEq

/-- The manager with its store; `nextBranchId` is the process-wide counter. -/
structure Branches (σ : Type) where
  store : σ
  branches : OrdMap BranchId BranchState
  nextBranchId : BranchId

namespace Branches

section Registry

variable {σ : Type} [Store σ] {α : Type}

/-- Open a manager over an initialized head. -/
def new (store : σ) (nextBranchId : BranchId) : Except BranchError (Branches σ) := do
  let tx ← (Store.beginRead store).mapError BranchError.storage
  let _ ← readHead tx
  return ⟨store, OrdMap.empty, nextBranchId⟩

def head (db : Branches σ) : Except BranchError CommitId := do
  let tx ← (Store.beginRead db.store).mapError BranchError.storage
  readHead tx

def setBranch (branchId : BranchId) (state : Option BranchState) : Prog BranchError (Branches σ) Unit :=
  fun db => (.ok (), { db with branches := db.branches.set branchId state })

def remove (branchId : BranchId) : Prog BranchError (Branches σ) Unit := setBranch branchId none

/-- `checked_add` on the counter; the number before it is handed out. -/
def allocateBranchId : Prog BranchError (Branches σ) BranchId := fun db =>
  match checkedSucc db.nextBranchId with
  | some next => (.ok db.nextBranchId, { db with nextBranchId := next })
  | none => (.error .branchNumberExhausted, db)

/-- Open a new overlay and its first frame over the current head. -/
def begin : Prog BranchError (Branches σ) BranchId := do
  let commitId ← Prog.read head
  let branchId ← allocateBranchId
  setBranch branchId (some ⟨commitId, CellOverlay.new, none⟩)
  return branchId

/-- **Admission**: the branch is there and its origin is still the head, in a fresh snapshot. A
stale branch is dropped. -/
def withSlot (branchId : BranchId) (stale : BranchError)
    (operation : BranchState → Store.Read σ → Prog BranchError (Branches σ) α) :
    Prog BranchError (Branches σ) α := do
  match ← Prog.read fun db : Branches σ => .ok (db.branches.get? branchId) with
  | none => throw .handleInvalid
  | some state =>
    let origin ← Prog.read fun db : Branches σ => (Store.beginRead db.store).mapError BranchError.storage
    let head ← Prog.ofExcept (readHead origin)
    if head ≠ state.commitId then do
      remove branchId
      throw stale
    else operation state origin

/-- Ordinary operations change the branch's state alone, and keep it. -/
def withBranch (branchId : BranchId) (operation : BranchState → Store.Read σ → α × BranchState) :
    Prog BranchError (Branches σ) α :=
  withSlot branchId .handleInvalid fun state origin => do
    setBranch branchId (some (operation state origin).2)
    return (operation state origin).1

def branchInfo (branchId : BranchId) : Prog BranchError (Branches σ) BranchInfo :=
  withBranch branchId fun state _ =>
    (⟨state.commitId, branchId, state.overlay.version, state.sealed.isSome⟩, state)

/-- Read cells of the branch. The callback has the read half of the cell view, so what it leaves
in the overlay is not kept. -/
def read {ε : Type} (branchId : BranchId) (operation : CellOperation ε α) :
    Prog (OperationError ε) (Branches σ) α := do
  let result ← Prog.mapError OperationError.branch (withBranch branchId fun state origin =>
    ((operation.run origin state.overlay).1, state))
  Prog.ofExcept (result.mapError Fault.toOperationError)

/-- **Apply one group of cell operations.** -/
def write {ε : Type} (branchId : BranchId) (operation : CellOperation ε α) :
    Prog (OperationError ε) (Branches σ) α := do
  let result ← Prog.mapError OperationError.branch (withBranch branchId fun state origin =>
    match state.requireOpen with
    | .error e => (Except.error (OperationError.branch e), state)
    | .ok () =>
      let (result, overlay) := state.overlay.write origin operation
      (result.mapError Fault.toOperationError, { state with overlay := overlay }))
  Prog.ofExcept result

def checkpoint (branchId : BranchId) : Prog BranchError (Branches σ) Unit := do
  let result ← withBranch branchId fun state _ =>
    match state.requireOpen with
    | .error e => (Except.error e, state)
    | .ok () => (Except.ok (), { state with overlay := state.overlay.checkpoint })
  Prog.ofExcept result

def rollback (branchId : BranchId) : Prog BranchError (Branches σ) Unit := do
  let result ← withBranch branchId fun state _ =>
    match state.requireOpen with
    | .error e => (Except.error e, state)
    | .ok () => (state.overlay.rollback.1, { state with overlay := state.overlay.rollback.2 })
  Prog.ofExcept result

/-- Consume a live branch. -/
def discard (branchId : BranchId) : Prog BranchError (Branches σ) Unit :=
  withSlot branchId .handleInvalid fun _ _ => remove branchId

end Registry

section Publish

variable (H : HashProvider) (R : Roaring) {σ : Type} [Store σ]

/-- Seal and freeze the branch; a failure leaves it as it was. -/
def sealBranch (branchId : BranchId) : Prog BranchError (Branches σ) SealedCommit := do
  let result ← withBranch branchId fun state origin =>
    match state.sealState H R origin with
    | .ok (sealed, state) => (Except.ok sealed, state)
    | .error e => (Except.error e, state)
  Prog.ofExcept result

/-- Publish a sealed branch in the store's writer. -/
def publish (origin : CommitId) (sealed : SealedCommit) : Prog BranchError (Branches σ) CommitId := fun db =>
  match (Store.beginWrite db.store).mapError BranchError.storage with
  | .error e => (.error e, db)
  | .ok tx =>
    let (result, store) := (persist tx origin sealed).exec db.store
    (result, { db with store := store })

/-- Success and a lost race consume the branch. -/
def settleCommit (branchId : BranchId) (outcome : Except BranchError CommitId) :
    Prog BranchError (Branches σ) CommitId := do
  match outcome with
  | .ok commitId =>
    remove branchId
    return commitId
  | .error .conflict =>
    remove branchId
    throw .conflict
  | .error e => throw e

/-- The commit of an admitted branch: any failure but a lost race keeps the sealed result. -/
def commitSlot (branchId : BranchId) (state : BranchState) (origin : Store.Read σ) :
    Prog BranchError (Branches σ) CommitId := do
  let (sealed, state) ← Prog.ofExcept (state.sealState H R origin)
  setBranch branchId (some state)
  let outcome ← Prog.outcome (publish state.commitId sealed)
  settleCommit branchId outcome

/-- **Seal if necessary, then publish.** -/
def commit (branchId : BranchId) : Prog BranchError (Branches σ) CommitId :=
  withSlot branchId .conflict (commitSlot H R branchId)

end Publish

end Branches

end GolemDb.Branch
