import GolemDb.Records.Crud

/-!
Opening a store. An empty store receives the format rows, the genesis cells and the first head; an
initialized one is checked against the requested genesis and its own head. `openStore` does either
under one writer and commits only what it created.
-/

namespace GolemDb.Api

open GolemDb.Lib GolemDb.Storage GolemDb.Merkle GolemDb.Cells GolemDb.Index GolemDb.Branch GolemDb.Records

/-! ### Settings -/

inductive HashAlgorithm where
  | keccak256
  | blake3
deriving DecidableEq

/-- The values written at commit zero. -/
structure Genesis where
  hashFunction : HashAlgorithm
  cellLimits : CellLimits
deriving DecidableEq

inductive OpenMode where
  | createIfMissing
  | existingOnly
  | createNew
deriving DecidableEq

structure OpenConfig where
  genesis : Genesis
  mode : OpenMode
deriving DecidableEq

inductive OpenError where
  | invalidConfig (text : String)
  | notInitialized
  | alreadyInitialized
  | genesisMismatch
  | corruptState (text : String)
  | unsupportedFormat (format : ℕ)
  | unsupportedHash (hash : ℕ)
  | unsupportedRoaring (roaring : ℕ)
  | storage (source : StorageError)
  | cells (source : CellError)
  | branch (source : BranchError)
  | index (source : IndexError)
deriving DecidableEq

structure OpenInfo where
  created : Bool
  commitId : CommitId
  stateRoot : Hash
  indexRoot : Hash
  genesisId : Hash
deriving DecidableEq

def OpenInfo.new (created : Bool) (head : Head) (genesisId : Hash) : OpenInfo :=
  ⟨created, head.commitId, head.stateRoot, head.indexRoot, genesisId⟩

/-- The limits must fit the backend's largest key and value. -/
def Genesis.validate (g : Genesis) (maxKey maxValue : ℕ) : Except OpenError Unit :=
  let limits := g.cellLimits
  if limits.maxCellNameLen = 0 then .error (.invalidConfig "max_cell_name_len must be positive")
  else
    let name := limits.maxCellNameLen.val
    let key := max (max (name + 8) (name + 2 + max limits.maxStrLen.val 32)) 40
    let value := max (1 + max limits.maxBytesLen.val limits.maxStrLen.val) (16 * 1024)
    if maxKey < key then
      .error (.invalidConfig ("configured cells/index terms need " ++ toString key
        ++ "-byte keys; backend supports " ++ toString maxKey))
    else if maxValue < value then
      .error (.invalidConfig ("configured cells and engine rows need " ++ toString value
        ++ "-byte values; backend supports " ++ toString maxValue))
    else .ok ()

/-! ### The genesis state -/

def FORMAT : ℕ := 1
def ROARING : ℕ := 1

def hashId : HashAlgorithm → ℕ
  | .keccak256 => 1
  | .blake3 => 2

/-- The identity and the binding of a reserved record. -/
def systemCells (record : System.SystemRecord) : List (CellKey × CellValue) :=
  [(State.identityCell record.id, CellValue.fromBytes32 record.key),
    (State.binding record.key, CellValue.fromU64 record.id)]

/-- The cells of commit zero, in the order they are inserted. -/
def initialList (config : Genesis) : List (CellKey × CellValue) :=
  System.ALL.flatMap systemCells ++
    [(⟨System.PARAMS.id, Reserved.MAX_CELL_NAME_LEN⟩, CellValue.fromU32 config.cellLimits.maxCellNameLen),
     (⟨System.PARAMS.id, Reserved.MAX_STR_LEN⟩, CellValue.fromU32 config.cellLimits.maxStrLen),
     (⟨System.PARAMS.id, Reserved.MAX_BYTES_LEN⟩, CellValue.fromU32 config.cellLimits.maxBytesLen),
     (State.allocatorKey, CellValue.fromU64 System.FIRST_USER_RECORD_ID)]

/-- **The genesis cells.** -/
def initialCells (config : Genesis) : CellMap :=
  (initialList config).foldl (fun cells e => cells.insert e.1 e.2) OrdMap.empty

/-- A length in front of the bytes. -/
def framed (bytes : Bytes) : Bytes := beBytes 4 bytes.length ++ bytes

/-- The bytes of the deployment's identity. -/
def identityBytes (config : Genesis) (cells : CellMap) : Bytes :=
  ascii "golemdb/genesis/v1" ++ [0] ++ beBytes 4 FORMAT ++ beBytes 2 (hashId config.hashFunction)
    ++ beBytes 2 ROARING ++ beBytes 4 cells.size
    ++ cells.entries.flatMap fun e => framed e.1.encode ++ framed e.2.encode

def identity (H : HashProvider) (config : Genesis) (cells : CellMap) : Hash :=
  H.hash (identityBytes config cells)

/-! ### Preparing a store -/

section Prepare

variable (H : HashProvider) {τ : Type} [WriteTransaction τ]

def getRow (t : Table) (key : Bytes) : Prog OpenError τ (Option Bytes) :=
  Prog.read fun tx => (ReadTransaction.get tx t key).mapError OpenError.storage

def putRow (t : Table) (key value : Bytes) : Prog OpenError τ Unit :=
  Prog.mapError OpenError.storage (WriteTransaction.put t key value)

/-- A fixed-width metadata row. -/
def metadata (n : ℕ) (key : Bytes) : Prog OpenError τ (Arr n) := do
  match ← getRow SUPERBLOCK key with
  | none => throw (.corruptState "missing format or genesis metadata")
  | some bytes =>
    match toArr? n bytes with
    | none => throw (.corruptState "malformed format or genesis metadata")
    | some a => return a

/-- The writes of the genesis state. -/
def writeGenesis (config : OpenConfig) (cells : CellMap) (genesisId : Hash) : Prog OpenError τ Head := do
  putRow SUPERBLOCK (ascii "format") (beBytes 4 FORMAT)
  putRow SUPERBLOCK (ascii "hash_fn") (beBytes 2 (hashId config.genesis.hashFunction))
  putRow SUPERBLOCK (ascii "roaring") (beBytes 2 ROARING)
  putRow SUPERBLOCK (ascii "genesis_id") genesisId.1
  let update ← Prog.mapError OpenError.cells
    (Cells.apply H .empty (cells.entries.map fun e => CellChange.put e.1 e.2))
  let head : Head := ⟨0, update.root.hash H, H.hash []⟩
  Prog.mapError OpenError.branch (writeHead head)
  return head

def getCell (key : CellKey) : Prog OpenError τ (Option CellValue) :=
  Prog.read fun tx => (Cells.get tx key).mapError OpenError.cells

/-- Every expected cell is there. -/
def checkExpected : List (CellKey × CellValue) → Prog OpenError τ Unit
  | [] => return ()
  | e :: rest => do
    if (← getCell e.1) ≠ some e.2 then
      throw (.corruptState "missing or inconsistent reserved identity, binding, or parameter")
    else checkExpected rest

/-- Move a cursor over so many rows, then past the last one. -/
def checkRows {γ : Type} [ReadCursor γ] : ℕ → γ → Except OpenError Bool
  | 0, c => do
    let (row, _) ← (cursorNext c).mapError OpenError.storage
    return row.isSome
  | n + 1, c => do
    let (row, c) ← (cursorNext c).mapError OpenError.storage
    if row.isSome then checkRows n c else .error (.corruptState "incomplete genesis cells")

/-- The cells that must be committed besides the genesis ones: the roots of the previous commit. -/
def expectedRoots (head : Head) (expected : CellMap) : Prog OpenError τ CellMap := do
  if head.commitId = 0 then
    let more ← Prog.read fun tx => do
      let cursor ← (ReadTransaction.cursor tx CELL []).mapError OpenError.storage
      checkRows expected.size cursor
    if more ∨ head.indexRoot ≠ H.hash [] then throw (.corruptState "unexpected data at genesis")
    else return expected
  else
    let key := rootsKey (head.commitId - 1)
    match ← getCell key with
    | none => throw (.corruptState "missing previous commit roots")
    | some value =>
      if value.indexable ∨ (value.asBytes.map List.length) ≠ some 64 then
        throw (.corruptState "malformed previous commit roots")
      else return expected.insert key value

/-- Check a committed state against its head and the genesis cells. -/
def validateState (head : Head) (expected : CellMap) : Prog OpenError τ Unit := do
  let root ← Prog.read fun tx => (Cells.reopen H tx head.stateRoot).mapError OpenError.cells
  let _ ← Prog.read fun tx => (Index.reopen H tx head.indexRoot).mapError OpenError.index
  match ← getCell State.allocatorKey with
  | none => throw (.corruptState "missing allocator")
  | some allocator =>
    match (State.fieldU64 allocator).filter (System.FIRST_USER_RECORD_ID ≤ ·) with
    | none => throw (.corruptState "invalid allocator")
    | some nextId =>
      if head.commitId = 0 ∧ nextId ≠ System.FIRST_USER_RECORD_ID then
        throw (.corruptState "genesis allocator has advanced")
      else
        let items ← Prog.read fun tx => (scanRecord tx nextId).mapError OpenError.cells
        match items with
        | .error e :: _ => throw (.cells e)
        | .ok _ :: _ => throw (.corruptState "allocator points to an occupied record")
        | [] =>
          let expected := expected.insert State.allocatorKey allocator
          checkExpected expected.entries
          let expected ← expectedRoots H head expected
          let _ ← Prog.mapError OpenError.cells
            (Cells.apply H root (expected.entries.map fun e => CellChange.put e.1 e.2))

/-- **Initialize an empty store or check an initialized one.** -/
def prepare (config : OpenConfig) : Prog OpenError τ OpenInfo := do
  let cells := initialCells config.genesis
  let genesisId := identity H config.genesis cells
  if (← getRow SUPERBLOCK HEAD_KEY).isNone then
    if !(← Prog.read fun tx => (WriteTransaction.isEmpty tx).mapError OpenError.storage) then
      throw (.corruptState "storage contains tables or rows but has no head")
    else if config.mode = .existingOnly then throw .notInitialized
    else
      let head ← writeGenesis H config cells genesisId
      return OpenInfo.new true head genesisId
  else
    let format := ofBe (← metadata 4 (ascii "format")).1
    if format ≠ FORMAT then throw (.unsupportedFormat format)
    else
      let hash := ofBe (← metadata 2 (ascii "hash_fn")).1
      if hash ≠ 1 ∧ hash ≠ 2 then throw (.unsupportedHash hash)
      else
        let roaring := ofBe (← metadata 2 (ascii "roaring")).1
        if roaring ≠ ROARING then throw (.unsupportedRoaring roaring)
        else
          let storedId : Hash ← metadata 32 (ascii "genesis_id")
          if hash ≠ hashId config.genesis.hashFunction ∨ storedId ≠ genesisId then throw .genesisMismatch
          else
            let head ← Prog.read fun tx => (readHeadState tx).mapError OpenError.branch
            validateState H head cells
            if config.mode = .createNew then throw .alreadyInitialized
            else return OpenInfo.new false head genesisId

end Prepare

/-- Inspect, check and initialize under one writer; a writer that created nothing is dropped. -/
def openStore (H : HashProvider) {σ : Type} [Store σ] (config : OpenConfig) :
    Prog OpenError σ OpenInfo := fun store =>
  match config.genesis.validate (Store.maxKeySize store) (Store.maxValueSize store) with
  | .error e => (.error e, store)
  | .ok () =>
    match Store.beginWrite store with
    | .error e => (.error (.storage e), store)
    | .ok tx =>
      match (prepare H config).exec tx with
      | (.error e, _) => (.error e, store)
      | (.ok info, tx) =>
        if info.created then
          match (Store.commit tx).exec store with
          | (.ok (), store) => (.ok info, store)
          | (.error e, store) => (.error (.storage e), store)
        else (.ok info, store)

end GolemDb.Api
