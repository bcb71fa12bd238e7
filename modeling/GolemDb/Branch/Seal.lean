import GolemDb.Branch.Overlay
import GolemDb.Branch.Buffer

/-!
Sealing and publication. The head row names the last commit and its two roots. A seal computes
the next state over a snapshot: the overlay's cells and the previous commit's `#roots` cell are
applied to a buffer, and the changed cells give the postings of the index. A commit checks the
head again inside a store's writer, replays the buffered rows and writes the new head.
-/

namespace GolemDb.Branch

open GolemDb.Lib GolemDb.Storage GolemDb.Merkle GolemDb.Cells GolemDb.Index

/-! ### The head -/

def SUPERBLOCK : Table := ⟨"Superblock"⟩
def HEAD_KEY : Bytes := ascii "head"
def HEAD_BYTES : ℕ := 8 + 32 + 32

/-- The number of a commit; zero is genesis. -/
abbrev CommitId := U64

/-- `checked_add(1)`. -/
def checkedSucc (n : U64) : Option U64 := if h : n.val + 1 < 2 ^ 64 then some ⟨n.val + 1, h⟩ else none

structure Head where
  commitId : CommitId
  stateRoot : Hash
  indexRoot : Hash
deriving DecidableEq

/-- The fixed-width row of a head. -/
def Head.encode (head : Head) : Bytes := head.commitId.toBeBytes ++ head.stateRoot.1 ++ head.indexRoot.1

/-- Decode the head row from one snapshot. -/
def readHeadState {ρ : Type} [ReadTransaction ρ] (tx : ρ) : Except BranchError Head := do
  match ← (ReadTransaction.get tx SUPERBLOCK HEAD_KEY).mapError BranchError.storage with
  | none => .error .missingHead
  | some bytes =>
    if bytes.length ≠ HEAD_BYTES then .error (.invalidHead bytes.length)
    else return ⟨U64.fromBeBytes (takeArr 8 bytes), takeArr 32 (bytes.drop 8), takeArr 32 (bytes.drop 40)⟩

def readHead {ρ : Type} [ReadTransaction ρ] (tx : ρ) : Except BranchError CommitId := do
  return (← readHeadState tx).commitId

def writeHead {τ : Type} [WriteTransaction τ] (head : Head) : Prog BranchError τ Unit :=
  Prog.mapError BranchError.storage (WriteTransaction.put SUPERBLOCK HEAD_KEY head.encode)

/-! ### Sealing -/

/-- The computed next state, kept until commit or discard. -/
structure SealedCommit where
  commitId : CommitId
  stateRoot : Hash
  indexRoot : Hash
  cells : CellsUpdate
  index : IndexUpdate
  writes : Writes
deriving DecidableEq

/-- The index term of a cell; a field or an absent cell has none. -/
def term (key : CellKey) (value : Option CellValue) : Except BranchError (Option IndexTerm) :=
  match value with
  | none => .ok none
  | some value =>
    if value.indexable then do
      let t ← (IndexTerm.fromCellName key.name value).mapError BranchError.term
      return some t
    else .ok none

/-- The postings of one changed cell. -/
def postingsOfChange (change : CellValueChange) : Except BranchError (List PostingChange) := do
  let before ← term change.key change.before
  let after ← term change.key change.after
  if before = after then return []
  else
    return (before.map fun t => PostingChange.remove t change.key.recordId).toList
      ++ (after.map fun t => PostingChange.add t change.key.recordId).toList

/-- The postings of the changed cells, in their order. -/
def postingsOf (changes : List CellValueChange) : Except BranchError (List PostingChange) :=
  changes.foldlM (fun acc change => do
    let postings ← postingsOfChange change
    return acc ++ postings) []

/-- The key of the cell that keeps a commit's roots. -/
def rootsKey (commit : CommitId) : CellKey := ⟨System.ROOTS.id, commit.toBeBytes⟩

section Compute

variable (H : HashProvider) (R : Roaring) {ρ : Type} [ReadTransaction ρ]

/-- Apply the cells and then their postings to the buffer. -/
def stageUpdates (cellRoot indexRoot : RootRef 32) (changes : List CellChange) :
    Prog BranchError (Buffered ρ) (CellsUpdate × IndexUpdate) := do
  let cellsUpdate ← Prog.mapError BranchError.cells (Cells.apply H cellRoot changes)
  let postings ← Prog.ofExcept (postingsOf cellsUpdate.changedCells)
  let indexUpdate ← Prog.mapError BranchError.index (Index.apply H R indexRoot postings)
  return (cellsUpdate, indexUpdate)

/-- **Compute the next state** over an origin snapshot. Both roots are reopened against the
origin; the engine's `#roots` cell comes last and wins over a staged one. -/
def compute (origin : ρ) (overlay : CellOverlay) : Except BranchError SealedCommit := do
  let head ← readHeadState origin
  match checkedSucc head.commitId with
  | none => .error .commitNumberExhausted
  | some commitId =>
    let cellRoot ← (Cells.reopen H origin head.stateRoot).mapError BranchError.cells
    let indexRoot ← (Index.reopen H origin head.indexRoot).mapError BranchError.index
    let key := rootsKey head.commitId
    let found ← (ReadTransaction.get origin CELL key.encode).mapError BranchError.storage
    if found.isSome then .error .rootsCellExists
    else
      let value ← (CellValue.new .bytes (head.stateRoot.1 ++ head.indexRoot.1) false).mapError BranchError.value
      match (stageUpdates H R cellRoot indexRoot (overlay.changes ++ [.put key value])).exec
          (Buffered.new origin) with
      | (.error e, _) => .error e
      | (.ok (cells, index), tx) =>
        return ⟨commitId, cells.root.hash H, index.root.hash H, cells, index, tx.intoWrites⟩

end Compute

/-! ### Publication -/

section Commit

variable {τ : Type} [WriteTransaction τ]

/-- Replay one buffered row. -/
def replayRow (t : Table) (_ : Unit) (row : Bytes × Option Bytes) : Prog BranchError τ Unit :=
  match row.2 with
  | some value => Prog.mapError BranchError.storage (WriteTransaction.put t row.1 value)
  | none => do
    let _ ← Prog.mapError BranchError.storage (WriteTransaction.delete t row.1)

/-- Replay the buffered rows, table by table. -/
def replay (writes : Writes) : Prog BranchError τ Unit :=
  writes.entries.foldlM (fun _ e => e.2.entries.foldlM (replayRow e.1) ()) ()

/-- Check the head again, replay the rows and write the new head. -/
def stage (origin : CommitId) (sealed : SealedCommit) : Prog BranchError τ Unit := do
  let head ← Prog.read fun tx => readHead tx
  if head ≠ origin then throw .conflict
  else
    replay sealed.writes
    writeHead ⟨sealed.commitId, sealed.stateRoot, sealed.indexRoot⟩

end Commit

/-- Stage inside the store's writer and commit it; a failure drops the writer. -/
def persist {σ : Type} [Store σ] (tx : Store.Write σ) (origin : CommitId) (sealed : SealedCommit) :
    Prog BranchError σ CommitId := do
  match (stage origin sealed).exec tx with
  | (.error e, _) => throw e
  | (.ok (), tx) =>
    Prog.mapError BranchError.storage (Store.commit tx)
    return sealed.commitId

end GolemDb.Branch
