import GolemDb.Cells.Table
import GolemDb.Index.Index
import GolemDb.Storage.Scan

/-!
The working state of a branch: cell writes over an origin snapshot, an undo journal with frames,
the merged prefix scan, and atomic groups of operations. A group is any program of reads and
writes that returns a result or panics (`CellOperation`); a group that fails is rewound.
-/

namespace GolemDb.Branch

open GolemDb.Lib GolemDb.Storage GolemDb.Cells GolemDb.Index

inductive BranchError where
  | handleInvalid
  | conflict
  | sealed
  | commitNumberExhausted
  | rootsCellExists
  | cells (source : CellError)
  | index (source : IndexError)
  | term (source : TermError)
  | missingHead
  | invalidHead (actual : ℕ)
  | branchNumberExhausted
  | poisoned (lock : String)
  | storage (source : StorageError)
  | key (source : CellKeyError)
  | value (source : CellValueParseError)
  | noFrameToRollback
deriving DecidableEq

/-- Staged cells: a missing entry falls through to the origin, `none` is a tombstone. -/
abbrev Entries := OrdMap CellKey (Option CellValue)

/-! ### The journal -/

/-- The inverse of a write: `none` restores fall-through, `some none` a tombstone. -/
structure UndoEntry where
  key : CellKey
  previous : Option (Option CellValue)
deriving DecidableEq

/-- What a failed group restores. -/
structure WriteMark where
  undoLen : ℕ
  rolledBack : Bool

/-- The journal. The vectors of the source grow at the end; these lists grow at the front, so
the latest entry and the current frame's marker come first. -/
structure Journal where
  undo : List UndoEntry
  frames : List ℕ
  /-- Tells a frame emptied by rollback from a fresh empty one. -/
  rolledBack : Bool
  retained : frames ≠ []
deriving DecidableEq

/-- Undo one write. -/
def UndoEntry.restore (u : UndoEntry) (entries : Entries) : Entries := entries.set u.key u.previous

/-- Pop and undo while more than `mark` writes are left. -/
def undoTo (mark : ℕ) : List UndoEntry → Entries → List UndoEntry × Entries
  | [], entries => ([], entries)
  | u :: undo, entries =>
    if mark < undo.length + 1 then undoTo mark undo (u.restore entries) else (u :: undo, entries)

namespace Journal

def new : Journal := ⟨[], [0], false, by simp⟩

def version (j : Journal) : ℕ := j.undo.length

def mark (j : Journal) : WriteMark := ⟨j.undo.length, j.rolledBack⟩

/-- Apply a write and record its inverse; a no-op write reactivates the frame, too. -/
def record (j : Journal) (entries : Entries) (key : CellKey) (value : Option CellValue) :
    Journal × Entries :=
  if entries.get? key = some value then ({ j with rolledBack := false }, entries)
  else ({ j with undo := ⟨key, entries.get? key⟩ :: j.undo, rolledBack := false },
    entries.insert key value)

/-- A rolled-back frame's marker is reused for the new frame. -/
def checkpoint (j : Journal) : Journal :=
  if j.rolledBack then { j with rolledBack := false }
  else { j with frames := j.undo.length :: j.frames, rolledBack := false, retained := by simp }

/-- Undo to the current marker. -/
def undoFrame (j : Journal) (entries : Entries) : Journal × Entries :=
  let (undo, entries) := undoTo (j.frames.headD 0) j.undo entries
  ({ j with undo := undo, rolledBack := true }, entries)

/-- Undo the current frame; right after a rollback, the one before it. -/
def rollback (j : Journal) (entries : Entries) : Except BranchError (Journal × Entries) :=
  if j.rolledBack then
    match j.frames with
    | _ :: f :: rest => .ok (undoFrame { j with frames := f :: rest, retained := by simp } entries)
    | _ => .error .noFrameToRollback
  else .ok (undoFrame j entries)

def rewind (j : Journal) (entries : Entries) (mark : WriteMark) : Journal × Entries :=
  let (undo, entries) := undoTo mark.undoLen j.undo entries
  ({ j with undo := undo, rolledBack := mark.rolledBack }, entries)

end Journal

/-! ### The merged scan -/

/-- The least cell key not below the bytes. -/
def lowerKey (bytes : Bytes) : CellKey :=
  match CellKey.decode (padded bytes) with
  | .ok k => k
  | .error _ => ⟨0, []⟩

/-- The staged cells whose encoded key has the prefix, found as a range of keys. -/
def overlayRange (entries : Entries) (pfx : Bytes) : List (CellKey × Option CellValue) :=
  entries.entries.filter fun e => lowerKey pfx ≤ e.1 &&
    match afterPrefix pfx with
    | some successor => e.1 < lowerKey successor
    | none => true

abbrev ScanItem := Except BranchError (CellKey × CellValue)

/-- A decoded origin row, then the tail; a row that does not decode ends the scan. -/
def originRow (key value : Bytes) (tail : List ScanItem) : List ScanItem :=
  match CellKey.decode key with
  | .error e => [.error (.key e)]
  | .ok k =>
    match CellValue.parse value with
    | .error e => [.error (.value e)]
    | .ok v => .ok (k, v) :: tail

/-- A staged cell, then the tail; a tombstone yields nothing. -/
def overlayRow (key : CellKey) (value : Option CellValue) (tail : List ScanItem) : List ScanItem :=
  match value with
  | some v => .ok (key, v) :: tail
  | none => tail

/-- Merge one origin row with the staged cells; `rest` merges the origin rows after it. A row
under a staged key is dropped undecoded. -/
def mergeRow (key value : Bytes) (rest : List (CellKey × Option CellValue) → List ScanItem) :
    List (CellKey × Option CellValue) → List ScanItem
  | [] => originRow key value (rest [])
  | (k, v) :: overlay =>
    if key < k.encode then originRow key value (rest ((k, v) :: overlay))
    else if key = k.encode then overlayRow k v (rest overlay)
    else overlayRow k v (mergeRow key value rest overlay)

/-- The items of the merge of an origin scan and staged cells, both in key order. -/
def mergeScan : List (Except StorageError Entry) → List (CellKey × Option CellValue) → List ScanItem
  | [], overlay => overlay.foldr (fun e tail => overlayRow e.1 e.2 tail) []
  | .error e :: _, _ => [.error (.storage e)]
  | .ok (key, value) :: origin, overlay => mergeRow key value (mergeScan origin) overlay

/-! ### The overlay -/

structure CellOverlay where
  entries : Entries
  journal : Journal
deriving DecidableEq

namespace CellOverlay

/-- An empty overlay with its first frame open. -/
def new : CellOverlay := ⟨OrdMap.empty, Journal.new⟩

def version (o : CellOverlay) : ℕ := o.journal.version

section Read

variable {ρ : Type} [ReadTransaction ρ]

def get (o : CellOverlay) (origin : ρ) (key : CellKey) : Except BranchError (Option CellValue) :=
  match o.entries.get? key with
  | some value => .ok value
  | none => do
    match ← (ReadTransaction.get origin CELL key.encode).mapError BranchError.storage with
    | none => return none
    | some bytes => return some (← (CellValue.parse bytes).mapError BranchError.value)

/-- Origin and staged cells under an encoded-key prefix, as the items of the lazy scan. -/
def scanPrefix (o : CellOverlay) (origin : ρ) (pfx : Bytes) : Except BranchError (List ScanItem) := do
  let scan ← (Storage.scanPrefix origin CELL pfx).mapError BranchError.storage
  return mergeScan (scan.collect (ReadTransaction.fuel origin CELL + 1)) (overlayRange o.entries pfx)

end Read

/-- Stage a value or a tombstone: `put` and `delete`. -/
def set (o : CellOverlay) (key : CellKey) (value : Option CellValue) : CellOverlay :=
  let (journal, entries) := o.journal.record o.entries key value
  ⟨entries, journal⟩

def checkpoint (o : CellOverlay) : CellOverlay := ⟨o.entries, o.journal.checkpoint⟩

def rollback (o : CellOverlay) : Except BranchError Unit × CellOverlay :=
  match o.journal.rollback o.entries with
  | .ok (journal, entries) => (.ok (), ⟨entries, journal⟩)
  | .error e => (.error e, o)

def rewind (o : CellOverlay) (mark : WriteMark) : CellOverlay :=
  let (journal, entries) := o.journal.rewind o.entries mark
  ⟨entries, journal⟩

/-- The staged values in key order. -/
def changes (o : CellOverlay) : List CellChange :=
  o.entries.entries.map fun e => match e.2 with
    | some value => .put e.1 value
    | none => .delete e.1

end CellOverlay

/-! ### Groups of operations -/

/-- **A callback over the cell view**: it reads, scans and stages cells, and returns or panics. -/
inductive CellOperation (ε α : Type) where
  | done (result : Except ε α)
  | panic
  | get (key : CellKey) (next : Except BranchError (Option CellValue) → CellOperation ε α)
  | scan (pfx : Bytes) (next : Except BranchError (List ScanItem) → CellOperation ε α)
  | set (key : CellKey) (value : Option CellValue) (next : CellOperation ε α)

/-- Why a callback did not return a value. -/
inductive Fault (ε : Type) where
  | error (source : ε)
  | panic
deriving DecidableEq

namespace CellOperation

variable {ε α β : Type}

def bind : CellOperation ε α → (α → CellOperation ε β) → CellOperation ε β
  | done (.ok a), f => f a
  | done (.error e), _ => done (.error e)
  | panic, _ => panic
  | get key next, f => get key fun r => bind (next r) f
  | scan pfx next, f => scan pfx fun r => bind (next r) f
  | set key value next, f => set key value (bind next f)

instance : Monad (CellOperation ε) where
  pure a := done (.ok a)
  bind := bind

/-- Run a callback on the overlay. -/
def run {ρ : Type} [ReadTransaction ρ] (origin : ρ) :
    CellOperation ε α → CellOverlay → Except (Fault ε) α × CellOverlay
  | done (.ok a), o => (.ok a, o)
  | done (.error e), o => (.error (.error e), o)
  | panic, o => (.error .panic, o)
  | get key next, o => run origin (next (o.get origin key)) o
  | scan pfx next, o => run origin (next (o.scanPrefix origin pfx)) o
  | set key value next, o => run origin next (o.set key value)

end CellOperation

/-- **One atomic group**: a group that fails restores the overlay it found. -/
def CellOverlay.write {ρ ε α : Type} [ReadTransaction ρ] (o : CellOverlay) (origin : ρ)
    (operation : CellOperation ε α) : Except (Fault ε) α × CellOverlay :=
  match operation.run origin o with
  | (.ok a, o') => (.ok a, o')
  | (.error fault, o') => (.error fault, o'.rewind o.journal.mark)

end GolemDb.Branch
