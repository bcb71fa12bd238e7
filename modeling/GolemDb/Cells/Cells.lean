import GolemDb.Cells.Key
import GolemDb.Merkle.Trie
import GolemDb.Storage.Scan

/-!
Cell storage and its commitment over a caller's transaction: the flat `Cell` table, the branch
trie over the hashes of its keys, the net batch that updates both, and the recovery of a root from
its digest.
-/

namespace GolemDb.Cells

open GolemDb.Lib GolemDb.Storage GolemDb.Merkle

/-! ### Tables and errors -/

def CELL : Table := ⟨"Cell"⟩
def CELL_TRIE : Table := ⟨"CellTrie"⟩

def CELL_LEAF_DOMAIN : UInt8 := 0x00
def CELL_BRANCH_DOMAIN : UInt8 := 0x01

inductive CellError where
  | storage (source : StorageError)
  | merkle (source : MerkleError)
  | key (source : CellKeyError)
  | value (source : CellValueParseError)
  | rootMismatch
deriving DecidableEq

/-- One move of a cursor: the row and the cursor after it. -/
def cursorNext {γ : Type} [ReadCursor γ] (c : γ) : Except StorageError (Option Entry × γ) :=
  match ReadCursor.next.exec c with
  | (.ok row, c') => .ok (row, c')
  | (.error e, _) => .error e

/-! ### The trie of the cells -/

/-- The cells' branch trie. -/
def cellTrie (H : HashProvider) : Trie 32 :=
  ⟨CELL_TRIE, CELL_BRANCH_DOMAIN, H, hash_width_pos, hash_width_le⟩

namespace CellTrie

variable (H : HashProvider)

/-- A virtual leaf: the hash binds the routing path and the tagged value. -/
def leaf (path : Hash) (value : CellValue) : LeafRef 32 :=
  ⟨path, H.hashParts [[CELL_LEAF_DOMAIN], path.1, value.encode]⟩

section Read

variable {τ : Type} [ReadTransaction τ]

/-- The leaf at the key's hash must commit to the value read from the table. -/
def check (tx : τ) (root : RootRef 32) (key : Bytes) (before : Option CellValue) :
    Except CellError Unit := do
  let path := H.hash key
  let found ← ((cellTrie H).get tx root path).mapError .merkle
  if found ≠ before.map (leaf H path) then .error .rootMismatch else .ok ()

/-- The only row of a one-row table must reconstruct the digest. -/
def reopenSingleton (tx : τ) (hash : Hash) : Except CellError (RootRef 32) := do
  let cursor ← (ReadTransaction.cursor tx CELL []).mapError CellError.storage
  let (row, cursor) ← (cursorNext cursor).mapError CellError.storage
  match row with
  | none => .error .rootMismatch
  | some (key, value) =>
    let (second, _) ← (cursorNext cursor).mapError CellError.storage
    if second.isSome then .error .rootMismatch
    else
      let _ ← (CellKey.decode key).mapError CellError.key
      let value ← (CellValue.parse value).mapError CellError.value
      let leaf := leaf H (H.hash key) value
      if leaf.hash ≠ hash then .error .rootMismatch else return .leaf leaf

/-- **Recover a root from its digest**: the empty digest asks for an empty table, a branch row is
validated, and anything else must be the digest of the only row. -/
def reopen (tx : τ) (hash : Hash) : Except CellError (RootRef 32) := do
  if hash = H.hash [] then
    let cursor ← (ReadTransaction.cursor tx CELL []).mapError CellError.storage
    let (row, _) ← (cursorNext cursor).mapError CellError.storage
    if row.isSome then .error .rootMismatch else return .empty
  else
    match ← (ReadTransaction.get tx CELL_TRIE hash.1).mapError CellError.storage with
    | some _ =>
      ((cellTrie H).validateRoot tx (.branch hash)).mapError CellError.merkle
      return .branch hash
    | none => reopenSingleton H tx hash

end Read

/-- Set or remove the leaf of each key, in one batch. -/
def set {τ : Type} [WriteTransaction τ] (root : RootRef 32)
    (changes : List (Bytes × Option CellValue)) : Prog CellError τ (RootRef 32) :=
  let edits := changes.map fun c =>
    let path := H.hash c.1
    (path, c.2.map fun value => (leaf H path value).hash)
  Prog.mapError CellError.merkle ((cellTrie H).apply root edits)

end CellTrie

/-! ### Batches of cells -/

/-- A requested cell write; in a batch the last operation of a key wins. -/
inductive CellChange where
  | put (key : CellKey) (value : CellValue)
  | delete (key : CellKey)
deriving DecidableEq

/-- The key and the requested value. -/
def CellChange.toPair : CellChange → CellKey × Option CellValue
  | put key value => (key, some value)
  | delete key => (key, none)

/-- An actual change. -/
structure CellValueChange where
  key : CellKey
  before : Option CellValue
  after : Option CellValue
deriving DecidableEq

structure CellsUpdate where
  root : RootRef 32
  /-- Actual changes only, in key order. -/
  changedCells : List CellValueChange
deriving DecidableEq

/-- The final operation of each key, in key order. -/
def normalizeChanges (changes : List CellChange) : List (CellKey × Option CellValue) :=
  Lib.normalize (changes.map CellChange.toPair)

/-- A row of the Cell table, decoded. -/
def readValue {τ : Type} [ReadTransaction τ] (tx : τ) (key : Bytes) :
    Except CellError (Option CellValue) := do
  match ← (ReadTransaction.get tx CELL key).mapError CellError.storage with
  | none => return none
  | some bytes =>
    let value ← (CellValue.parse bytes).mapError CellError.value
    return some value

/-- A decoded row of the Cell table. -/
def decodeRow (row : Except StorageError Entry) : Except CellError (CellKey × CellValue) := do
  let (key, value) ← row.mapError CellError.storage
  let key ← (CellKey.decode key).mapError CellError.key
  let value ← (CellValue.parse value).mapError CellError.value
  return (key, value)

/-- The items of a cell scan: the decoded rows, up to the first error. -/
def decodeRows : List (Except StorageError Entry) → List (Except CellError (CellKey × CellValue))
  | [] => []
  | row :: rest =>
    match decodeRow row with
    | .ok cell => .ok cell :: decodeRows rest
    | .error e => [.error e]

/-- One record's cells in name order, as the items of the lazy scan. -/
def scanRecord {τ : Type} [ReadTransaction τ] (tx : τ) (recordId : U64) :
    Except CellError (List (Except CellError (CellKey × CellValue))) := do
  let scan ← (scanPrefix tx CELL recordId.toBeBytes).mapError CellError.storage
  return decodeRows (scan.collect (ReadTransaction.fuel tx CELL + 1))

section Store

variable (H : HashProvider)

section Read

variable {τ : Type} [ReadTransaction τ]

def get (tx : τ) (key : CellKey) : Except CellError (Option CellValue) := readValue tx key.encode

def reopen (tx : τ) (hash : Hash) : Except CellError (RootRef 32) := CellTrie.reopen H tx hash

/-- Check the original commitment of one net change; a no-op is checked and dropped. -/
def checkChange (tx : τ) (root : RootRef 32) (key : CellKey) (after : Option CellValue) :
    Except CellError (Option (Bytes × CellValueChange)) := do
  let before ← readValue tx key.encode
  CellTrie.check H tx root key.encode before
  return if before ≠ after then some (key.encode, ⟨key, before, after⟩) else none

end Read

variable {τ : Type} [WriteTransaction τ]

/-- One turn of the loop that checks the batch. -/
def checkNext (root : RootRef 32) (acc : List (Bytes × CellValueChange))
    (c : CellKey × Option CellValue) : Prog CellError τ (List (Bytes × CellValueChange)) := do
  match ← Prog.read fun tx => checkChange H tx root c.1 c.2 with
  | some change => return acc ++ [change]
  | none => return acc

/-- Write the final value of one change, or delete the row. -/
def writeValue (_ : Unit) (c : Bytes × CellValueChange) : Prog CellError τ Unit :=
  match c.2.after with
  | some value => Prog.mapError CellError.storage (WriteTransaction.put CELL c.1 value.encode)
  | none => do
    let _ ← Prog.mapError CellError.storage (WriteTransaction.delete CELL c.1)

/-- **Apply each key's final value once.** Every touched key's commitment is checked against the
original row, the trie is updated in one batch, and then the rows are written. -/
def apply (root : RootRef 32) (changes : List CellChange) : Prog CellError τ CellsUpdate := do
  let changesByKey ← (normalizeChanges changes).foldlM (checkNext H root) []
  let root ← CellTrie.set H root (changesByKey.map fun c => (c.1, c.2.after))
  changesByKey.foldlM writeValue ()
  return ⟨root, changesByKey.map Prod.snd⟩

end Store

end GolemDb.Cells
