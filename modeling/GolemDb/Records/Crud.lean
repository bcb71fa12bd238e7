import GolemDb.Branch.Manager

/-!
Records: a caller's 32-byte key names a record, whose cells lie under an internal id. The binding
cell of a key holds the id, the record's `#key` cell holds the key, and the allocator cell holds
the next id. Each mutation is one group of cell operations on a branch.
-/

namespace GolemDb.Records

open GolemDb.Lib GolemDb.Storage GolemDb.Merkle GolemDb.Cells GolemDb.Index GolemDb.Branch

/-- A caller's key. -/
abbrev RecordKey := Arr 32

abbrev RecordCells := OrdMap CellName CellValue

inductive CellPatch where
  | set (value : CellValue)
  | remove
deriving DecidableEq

/-- Edits of one record, by cell name. -/
abbrev RecordPatch := OrdMap CellName CellPatch

structure Record where
  key : RecordKey
  cells : RecordCells
deriving DecidableEq

/-- The errors of the record layer. `panic` is no value of the source: it stands for a panic that
a callback resumed. -/
inductive RecordError where
  | notFound
  | alreadyExists
  | reserved
  | invalidArgument (text : String)
  | corruptState (text : String)
  | recordIdExhausted
  | commitUnavailable (requested head : CommitId)
  | cells (source : CellError)
  | storage (source : StorageError)
  | branch (source : BranchError)
  | panic
deriving DecidableEq

def RecordError.ofOperation : OperationError RecordError → RecordError
  | .branch e => .branch e
  | .operation e => e
  | .panic => .panic

/-! ### The cell view -/

namespace View

variable {α : Type}

def fail (e : RecordError) : CellOperation RecordError α := .done (.error e)

def lift (r : Except RecordError α) : CellOperation RecordError α := .done r

def get (key : CellKey) : CellOperation RecordError (Option CellValue) :=
  .get key fun r => .done (r.mapError RecordError.branch)

def scanPrefix (pfx : Bytes) : CellOperation RecordError (List ScanItem) :=
  .scan pfx fun r => .done (r.mapError RecordError.branch)

/-- `next().transpose()?.is_some()`: whether the scan has an item. -/
def anyItem (items : List ScanItem) : Except RecordError Bool :=
  match items with
  | [] => .ok false
  | .ok _ :: _ => .ok true
  | .error e :: _ => .error (.branch e)

/-- The cells of the scan, or its error. -/
def allItems (items : List ScanItem) : Except RecordError (List (CellKey × CellValue)) :=
  items.mapM fun item => item.mapError RecordError.branch

def put (key : CellKey) (value : CellValue) : CellOperation RecordError Unit :=
  .set key (some value) (.done (.ok ()))

def delete (key : CellKey) : CellOperation RecordError Unit := .set key none (.done (.ok ()))

end View

/-! ### Identity, limits and allocation -/

namespace State

/-- The cell that binds a key to a record id. -/
def binding (key : RecordKey) : CellKey := ⟨System.RECORD_KEYS.id, key.1⟩

/-- The cell with a record's key. -/
def identityCell (id : U64) : CellKey := ⟨id, Reserved.KEY⟩

def allocatorKey : CellKey := ⟨System.ALLOC.id, Reserved.NEXT_RECORD_ID⟩

/-- A cell's word, if it is a field that holds one. -/
def fieldU64 (value : CellValue) : Option U64 := value.asU64.filter fun _ => !value.indexable

/-- The meaning of a binding cell. -/
def recordId (key : RecordKey) (bindingValue : Option CellValue) : Except RecordError (Option U64) :=
  match bindingValue with
  | none =>
    if (System.byKey key).isSome then .error (.corruptState "reserved record binding missing") else .ok none
  | some value =>
    match fieldU64 value with
    | none => .error (.corruptState "invalid record binding")
    | some id =>
      match System.byKey key with
      | some record =>
        if id ≠ record.id then .error (.corruptState "reserved record ID mismatch") else .ok (some id)
      | none =>
        if id < System.FIRST_USER_RECORD_ID then .error (.corruptState "user key bound to reserved ID")
        else .ok (some id)

/-- The key in a `#key` cell, if it is a 32-byte field. -/
def identityKey (identity : CellValue) : Option RecordKey :=
  identity.asBytes32.filter fun _ => !identity.indexable

def checkIdentity (key : RecordKey) (value : Option CellValue) : Except RecordError Unit :=
  match value with
  | none => .error (.corruptState "bound record has no #key")
  | some identity =>
    if identityKey identity ≠ some key then .error (.corruptState "binding and #key disagree")
    else .ok ()

def resolve (key : RecordKey) : CellOperation RecordError (Option U64) := do
  match ← View.lift (recordId key (← View.get (binding key))) with
  | none => return none
  | some id =>
    View.lift (checkIdentity key (← View.get (identityCell id)))
    return some id

/-- A required `#params` cell. -/
def readLimit (name : CellName) : CellOperation RecordError U32 := do
  match ← View.get ⟨System.PARAMS.id, name⟩ with
  | none => View.fail (.corruptState "required #params cell missing")
  | some value =>
    match value.asU32.filter fun _ => !value.indexable with
    | none => View.fail (.corruptState "invalid #params cell")
    | some n => return n

def limits : CellOperation RecordError CellLimits := do
  let maxCellNameLen ← readLimit Reserved.MAX_CELL_NAME_LEN
  let maxStrLen ← readLimit Reserved.MAX_STR_LEN
  let maxBytesLen ← readLimit Reserved.MAX_BYTES_LEN
  return ⟨maxCellNameLen, maxStrLen, maxBytesLen⟩

/-- The next record id, and the allocator's value after it. -/
def nextId : CellOperation RecordError (U64 × U64) := do
  match ← View.get allocatorKey with
  | none => View.fail (.corruptState "allocator missing")
  | some value =>
    match fieldU64 value with
    | none => View.fail (.corruptState "invalid allocator")
    | some id =>
      if id < System.FIRST_USER_RECORD_ID then
        View.fail (.corruptState "allocator points to reserved ID")
      else
        match checkedSucc id with
        | none => View.fail .recordIdExhausted
        | some next => return (id, next)

end State

/-! ### The groups of the mutations -/

def rejectReserved (key : RecordKey) : Except RecordError Unit :=
  if (System.byKey key).isSome then .error .reserved else .ok ()

/-- A name and a value must meet the grammar and the limits. -/
def validate (limits : CellLimits) (name : CellName) (value : Option CellValue) :
    Except RecordError Unit := do
  let _ ← (limits.parseUserName name).mapError fun e => RecordError.invalidArgument e.display
  match value with
  | none => return ()
  | some value => (limits.validateValue value).mapError fun e => RecordError.invalidArgument e.display

/-- Check a batch of names and values in order. -/
def validateAll (limits : CellLimits) : List (CellName × Option CellValue) → Except RecordError Unit
  | [] => .ok ()
  | e :: rest => do
    validate limits e.1 e.2
    validateAll limits rest

/-- Stage the cells of a record. -/
def putAll (id : U64) : List (CellName × CellValue) → CellOperation RecordError Unit
  | [] => return ()
  | e :: rest => do
    View.put ⟨id, e.1⟩ e.2
    putAll id rest

/-- **Create**: check the cells, the key and the allocated id, then write the cells, the identity,
the binding and the allocator. -/
def createGroup (key : RecordKey) (values : RecordCells) : CellOperation RecordError RecordKey := do
  let limits ← State.limits
  View.lift (validateAll limits (values.entries.map fun e => (e.1, some e.2)))
  match ← State.resolve key with
  | some _ => View.fail .alreadyExists
  | none =>
    let (id, next) ← State.nextId
    if ← View.lift (View.anyItem (← View.scanPrefix id.toBeBytes)) then
      View.fail (.corruptState "allocator points to occupied record")
    else
      putAll id values.entries
      View.put (State.identityCell id) (CellValue.fromBytes32 key)
      View.put (State.binding key) (CellValue.fromU64 id)
      View.put State.allocatorKey (CellValue.fromU64 next)
      return key

/-- The value a patch gives a cell. -/
def CellPatch.value? : CellPatch → Option CellValue
  | set value => some value
  | remove => none

/-- One edit of a patch; an edit that changes nothing writes nothing. -/
def patchCell (address : CellKey) (change : CellPatch) : CellOperation RecordError Unit := do
  let found ← View.get address
  match change with
  | .set value => if found ≠ some value then View.put address value else return ()
  | .remove => if found.isSome then View.delete address else return ()

def patchAll (id : U64) : List (CellName × CellPatch) → CellOperation RecordError Unit
  | [] => return ()
  | e :: rest => do
    patchCell ⟨id, e.1⟩ e.2
    patchAll id rest

/-- **Patch**: resolve the record, check every edit, then perform them. -/
def patchGroup (key : RecordKey) (changes : RecordPatch) : CellOperation RecordError Unit := do
  match ← State.resolve key with
  | none => View.fail .notFound
  | some id =>
    let limits ← State.limits
    View.lift (validateAll limits (changes.entries.map fun e => (e.1, e.2.value?)))
    patchAll id changes.entries

def deleteAll : List CellKey → CellOperation RecordError Unit
  | [] => return ()
  | address :: rest => do
    View.delete address
    deleteAll rest

/-- **Delete**: every cell of the record, and the binding. -/
def deleteGroup (key : RecordKey) : CellOperation RecordError Unit := do
  match ← State.resolve key with
  | none => View.fail .notFound
  | some id =>
    let cells ← View.lift (View.allItems (← View.scanPrefix id.toBeBytes))
    deleteAll (cells.map Prod.fst)
    View.delete (State.binding key)

/-- The projected cells of a branch's record; a name may repeat. -/
def getAll (id : U64) : List CellName → RecordCells → CellOperation RecordError RecordCells
  | [], values => return values
  | name :: names, values => do
    match ← View.get ⟨id, name⟩ with
    | some value => getAll id names (values.insert name value)
    | none => getAll id names values

/-- The cells of a scan by their names. -/
def cellsOf (items : List (CellKey × CellValue)) : RecordCells :=
  items.foldl (fun values e => values.insert e.1.name e.2) OrdMap.empty

/-- Read a whole record of a branch or a projection of it. -/
def readBranchRecord (key : RecordKey) (projection : Option (List CellName)) :
    CellOperation RecordError Record := do
  match ← State.resolve key with
  | none => View.fail .notFound
  | some id =>
    match projection with
    | some names => return ⟨key, ← getAll id names OrdMap.empty⟩
    | none =>
      let cells ← View.lift (View.allItems (← View.scanPrefix id.toBeBytes))
      return ⟨key, cellsOf cells⟩

/-! ### Committed reads -/

section Committed

variable {ρ : Type} [ReadTransaction ρ]

/-- One snapshot for a committed read; a commit that is named must be its head. -/
def committedSnapshot {σ : Type} [Store σ] (store : σ) (commit : Option CommitId) :
    Except RecordError (Store.Read σ × CommitId) := do
  let tx ← (Store.beginRead store).mapError RecordError.storage
  let head ← (readHead tx).mapError RecordError.branch
  match commit with
  | some requested =>
    if requested ≠ head then .error (.commitUnavailable requested head) else return (tx, head)
  | none => return (tx, head)

/-- The projected cells of a committed record. -/
def readNamed (tx : ρ) (id : U64) : List CellName → RecordCells → Except RecordError RecordCells
  | [], values => .ok values
  | name :: names, values => do
    match ← (Cells.get tx ⟨id, name⟩).mapError RecordError.cells with
    | some value => readNamed tx id names (values.insert name value)
    | none => readNamed tx id names values

def readCells (tx : ρ) (id : U64) (projection : Option (List CellName)) :
    Except RecordError RecordCells := do
  match projection with
  | some names => readNamed tx id names OrdMap.empty
  | none =>
    let items ← (scanRecord tx id).mapError RecordError.cells
    let cells ← items.mapM fun item => item.mapError RecordError.cells
    return cellsOf cells

/-- The committed record of an id, without a check of the key's binding. -/
def readCommittedById (tx : ρ) (id : U64) (projection : Option (List CellName)) :
    Except RecordError Record := do
  match ← (Cells.get tx (State.identityCell id)).mapError RecordError.cells with
  | none => .error (.corruptState "record has no #key")
  | some identity =>
    match State.identityKey identity with
    | none => .error (.corruptState "invalid #key")
    | some key =>
      let cells ← readCells tx id projection
      return ⟨key, cells⟩

/-- The committed record bound to a key. -/
def readCommittedByKey (tx : ρ) (key : RecordKey) (projection : Option (List CellName)) :
    Except RecordError Record := do
  let value ← (Cells.get tx (State.binding key)).mapError RecordError.cells
  match ← State.recordId key value with
  | none => .error .notFound
  | some id =>
    let identity ← (Cells.get tx (State.identityCell id)).mapError RecordError.cells
    State.checkIdentity key identity
    let cells ← readCells tx id projection
    return ⟨key, cells⟩

end Committed

/-! ### The facade -/

inductive ReadTarget where
  | head
  | branch (branchId : BranchId)
  | commit (commitId : CommitId)
deriving DecidableEq

section Facade

variable {σ : Type} [Store σ]

def create (branch : BranchId) (key : RecordKey) (values : RecordCells) :
    Prog RecordError (Branches σ) RecordKey := do
  Prog.ofExcept (rejectReserved key)
  Prog.mapError RecordError.ofOperation (Branches.write branch (createGroup key values))

def patch (branch : BranchId) (key : RecordKey) (changes : RecordPatch) :
    Prog RecordError (Branches σ) Unit := do
  Prog.ofExcept (rejectReserved key)
  Prog.mapError RecordError.ofOperation (Branches.write branch (patchGroup key changes))

def delete (branch : BranchId) (key : RecordKey) : Prog RecordError (Branches σ) Unit := do
  Prog.ofExcept (rejectReserved key)
  Prog.mapError RecordError.ofOperation (Branches.write branch (deleteGroup key))

def readCommitted (store : σ) (commit : Option CommitId) (key : RecordKey)
    (projection : Option (List CellName)) : Except RecordError Record := do
  let (tx, _) ← committedSnapshot store commit
  readCommittedByKey tx key projection

def get (target : ReadTarget) (key : RecordKey) (projection : Option (List CellName)) :
    Prog RecordError (Branches σ) Record :=
  match target with
  | .branch branch =>
    Prog.mapError RecordError.ofOperation (Branches.read branch (readBranchRecord key projection))
  | .head => Prog.read fun db => readCommitted db.store none key projection
  | .commit commit => Prog.read fun db => readCommitted db.store (some commit) key projection

end Facade

end GolemDb.Records
