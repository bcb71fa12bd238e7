import GolemDb.Index.Container
import GolemDb.Cells.Cells

/-!
The index over a caller's transaction. Each term has a row in the flat `Index` table with the
digest of its posting set's trie; a second trie commits to the terms and these digests. `apply`
performs a batch of postings, one term after the other.
-/

namespace GolemDb.Index

open GolemDb.Lib GolemDb.Storage GolemDb.Merkle GolemDb.Cells

/-! ### Tables and errors -/

def INDEX : Table := ⟨"Index"⟩
def BITMAP_CONTAINER : Table := ⟨"BitmapContainer"⟩
def BITMAP_TRIE : Table := ⟨"BitmapTrie"⟩
def INDEX_TRIE : Table := ⟨"IndexTrie"⟩

def INDEX_LEAF_DOMAIN : UInt8 := 0x02
def INDEX_BRANCH_DOMAIN : UInt8 := 0x03
def BITMAP_LEAF_DOMAIN : UInt8 := 0x04
def BITMAP_BRANCH_DOMAIN : UInt8 := 0x05

inductive IndexError where
  | storage (source : StorageError)
  | merkle (source : MerkleError)
  | bitmap (source : BitmapError)
  | term (source : TermError)
  | corruption (text : String)
  | rootMismatch
  | conflictingContent
deriving DecidableEq

/-! ### The trie of a posting set -/

/-- The branch trie of posting sets, over six-byte paths. -/
def bitmapTrie (H : HashProvider) : Trie 6 :=
  ⟨BITMAP_TRIE, BITMAP_BRANCH_DOMAIN, H, by decide, by decide⟩

/-- The hash of a container's bytes, also the key of its row. -/
def containerHash (H : HashProvider) (bytes : Bytes) : Hash := H.hashParts [[BITMAP_LEAF_DOMAIN], bytes]

namespace BitmapTrie

variable (H : HashProvider) (R : Roaring)

def decode (hash : Hash) (bytes : Bytes) : Except IndexError BitmapContainer :=
  if containerHash H bytes ≠ hash then .error (.corruption "container hash mismatch")
  else (BitmapContainer.decode R bytes).mapError IndexError.bitmap

section Read

variable {τ : Type} [ReadTransaction τ]

/-- The container of a leaf, checked against its hash and its path. -/
def load (tx : τ) (leaf : LeafRef 6) : Except IndexError BitmapContainer := do
  match ← (ReadTransaction.get tx BITMAP_CONTAINER leaf.hash.1).mapError IndexError.storage with
  | none => .error (.corruption "missing container")
  | some bytes =>
    let container ← decode H R leaf.hash bytes
    if (← (pathBytes container.path).mapError IndexError.bitmap) ≠ leaf.path then
      .error (.corruption "container path disagrees with leaf reference")
    else return container

/-- The root of a digest, with the container when the set is a single one. -/
def reopen (tx : τ) (hash : Hash) : Except IndexError (RootRef 6 × Option BitmapContainer) := do
  if hash = H.hash [] then .error (.corruption "empty bitmap root in Index row")
  else
    match ← (ReadTransaction.get tx BITMAP_CONTAINER hash.1).mapError IndexError.storage with
    | some bytes =>
      let container ← decode H R hash bytes
      let path ← (pathBytes container.path).mapError IndexError.bitmap
      return (.leaf ⟨path, hash⟩, some container)
    | none =>
      ((bitmapTrie H).validateRoot tx (.branch hash)).mapError IndexError.merkle
      return (.branch hash, none)

/-- The fuel of a walk over a bitmap trie: one more than its leaves, which have distinct rows. -/
def walkFuel (tx : τ) : ℕ := ReadTransaction.fuel tx BITMAP_CONTAINER + 1

/-- Collect the containers of a walk; the first error ends it. -/
def loadAll (tx : τ) (root : RootRef 6) : Except IndexError (List BitmapContainer) :=
  (Trie.Walk.collect (bitmapTrie H) tx (walkFuel tx) (Trie.walk root)).mapM fun leaf => do
    load H R tx (← leaf.mapError IndexError.merkle)

/-- The posting set under a digest. -/
def bitmap (tx : τ) (hash : Hash) : Except IndexError Bitmap := do
  let (root, cached) ← reopen H R tx hash
  match cached with
  | some container => (Bitmap.fromContainers [container]).mapError IndexError.bitmap
  | none =>
    let containers ← loadAll H R tx root
    (Bitmap.fromContainers containers).mapError IndexError.bitmap

end Read

section Write

variable {τ : Type} [WriteTransaction τ]

/-- Insert a container row; a row already there must hold the same bytes. -/
def storeContainer (hash : Hash) (bytes : Bytes) : Prog IndexError τ Unit := do
  match ← Prog.outcome (WriteTransaction.insert BITMAP_CONTAINER hash.1 bytes) with
  | .ok () => return ()
  | .error .alreadyExists =>
    let found ← Prog.read fun tx =>
      (ReadTransaction.get tx BITMAP_CONTAINER hash.1).mapError IndexError.storage
    if found ≠ some bytes then throw .conflictingContent else return ()
  | .error e => throw (.storage e)

/-- The state of the loop over containers: the last path, the cached container and the edits. -/
structure Progress where
  previous : Option ℕ
  cached : Option BitmapContainer
  edits : List (Edit 6)

/-- The container at a path, loaded or fresh; the cached one is used once. -/
def takeContainer (root : RootRef 6) (cached : Option BitmapContainer) (hi : ℕ) (path : Arr 6) :
    Prog IndexError τ (BitmapContainer × Option BitmapContainer) := do
  let old ← Prog.read fun tx => ((bitmapTrie H).get tx root path).mapError IndexError.merkle
  match old with
  | some leaf =>
    match cached with
    | some container => return (container, none)
    | none =>
      let container ← Prog.read fun tx => load H R tx leaf
      return (container, none)
  | none =>
    let container ← Prog.ofExcept ((BitmapContainer.empty hi).mapError IndexError.bitmap)
    return (container, cached)

/-- The container after its changes, and whether any of them changed it. -/
def assignAll (container : BitmapContainer) (changes : List (ℕ × Offset × Bool)) :
    BitmapContainer × Bool :=
  changes.foldl (fun acc c =>
    let (container, changed) := acc.1.assign c.2.1 c.2.2
    (container, acc.2 || changed)) (container, false)

/-- One turn of the loop: the consecutive changes of one container. -/
def applyChunk (root : RootRef 6) (st : Progress) :
    List (ℕ × Offset × Bool) → Prog IndexError τ Progress
  | [] => return st
  | (hi, lo, present) :: rest => do
    match st.previous.filter (hi ≤ ·) with
    | some previous => throw (.bitmap (.unsortedPaths previous hi))
    | none =>
      let path ← Prog.ofExcept ((pathBytes hi).mapError IndexError.bitmap)
      let (container, cached) ← takeContainer H R root st.cached hi path
      let (container, changed) := assignAll container ((hi, lo, present) :: rest)
      if !changed then return ⟨some hi, cached, st.edits⟩
      else if container.isEmpty then return ⟨some hi, cached, st.edits ++ [(path, none)]⟩
      else
        let bytes ← Prog.ofExcept ((container.canonicalBytes R).mapError IndexError.bitmap)
        let hash := containerHash H bytes
        storeContainer hash bytes
        return ⟨some hi, cached, st.edits ++ [(path, some hash)]⟩

/-- The root of a set; none stands for the empty one. -/
def openRoot : Option Hash → Prog IndexError τ (RootRef 6 × Option BitmapContainer)
  | some hash => Prog.read fun tx => reopen H R tx hash
  | none => return (.empty, none)

/-- Apply changes sorted by path and offset to the set of a digest; none stands for the empty
set on both sides. -/
def apply (before : Option Hash) (changes : List (ℕ × Offset × Bool)) :
    Prog IndexError τ (Option Hash) := do
  let (root, cached) ← openRoot H R before
  let st ← (chunkBy Prod.fst changes).foldlM (applyChunk H R root) ⟨none, cached, []⟩
  let root ← Prog.mapError IndexError.merkle ((bitmapTrie H).apply root st.edits)
  return if root ≠ .empty then some (root.hash H) else none

end Write

end BitmapTrie

/-! ### The trie of the terms -/

/-- The terms' branch trie. -/
def indexTrie (H : HashProvider) : Trie 32 :=
  ⟨INDEX_TRIE, INDEX_BRANCH_DOMAIN, H, hash_width_pos, hash_width_le⟩

namespace IndexTerm

variable (H : HashProvider)

def routingPath (t : IndexTerm) : Hash := H.hash t.bytes

def leafHash (t : IndexTerm) (bitmapRoot : Hash) : Hash :=
  H.hashParts [[INDEX_LEAF_DOMAIN], (t.routingPath H).1, bitmapRoot.1]

end IndexTerm

/-- The digest in an Index row. -/
def decodeRoot (H : HashProvider) (bytes : Bytes) : Except IndexError Hash :=
  match toArr? 32 bytes with
  | none => .error (.corruption "bitmap root is not 32 bytes")
  | some hash =>
    if hash = H.hash [] then .error (.corruption "empty bitmap root in Index row") else .ok hash

namespace IndexTrie

variable (H : HashProvider)

def leaf (term : IndexTerm) (bitmap : Hash) : LeafRef 32 := ⟨term.routingPath H, term.leafHash H bitmap⟩

section Read

variable {τ : Type} [ReadTransaction τ]

/-- The leaf at the term's hash must commit to the digest read from the table. -/
def check (tx : τ) (root : RootRef 32) (term : IndexTerm) (before : Option Hash) :
    Except IndexError Unit := do
  let found ← ((indexTrie H).get tx root (term.routingPath H)).mapError IndexError.merkle
  if found ≠ before.map (leaf H term) then .error .rootMismatch else .ok ()

/-- The only row of a one-row table must reconstruct the digest. -/
def reopenSingleton (tx : τ) (hash : Hash) : Except IndexError (RootRef 32) := do
  let cursor ← (ReadTransaction.cursor tx INDEX []).mapError IndexError.storage
  let (row, cursor) ← (cursorNext cursor).mapError IndexError.storage
  match row with
  | none => .error .rootMismatch
  | some (key, value) =>
    let (second, _) ← (cursorNext cursor).mapError IndexError.storage
    if second.isSome then .error .rootMismatch
    else
      let term ← (IndexTerm.decode key).mapError IndexError.term
      let bitmap ← decodeRoot H value
      let leaf := leaf H term bitmap
      if leaf.hash ≠ hash then .error .rootMismatch else return .leaf leaf

/-- Recover a root from its digest, as the cells' trie does. -/
def reopen (tx : τ) (hash : Hash) : Except IndexError (RootRef 32) := do
  if hash = H.hash [] then
    let cursor ← (ReadTransaction.cursor tx INDEX []).mapError IndexError.storage
    let (row, _) ← (cursorNext cursor).mapError IndexError.storage
    if row.isSome then .error .rootMismatch else return .empty
  else
    match ← (ReadTransaction.get tx INDEX_TRIE hash.1).mapError IndexError.storage with
    | some _ =>
      ((indexTrie H).validateRoot tx (.branch hash)).mapError IndexError.merkle
      return .branch hash
    | none => reopenSingleton H tx hash

end Read

/-- Set or remove each term's leaf, in one batch. -/
def set {τ : Type} [WriteTransaction τ] (root : RootRef 32)
    (changes : List (IndexTerm × Option Hash)) : Prog IndexError τ (RootRef 32) :=
  let edits := changes.map fun c => (c.1.routingPath H, c.2.map fun hash => (leaf H c.1 hash).hash)
  Prog.mapError IndexError.merkle ((indexTrie H).apply root edits)

end IndexTrie

/-! ### The index -/

/-- Add a record id to a term's set or remove it; in a batch the last change wins. -/
inductive PostingChange where
  | add (term : IndexTerm) (recordId : U64)
  | remove (term : IndexTerm) (recordId : U64)
deriving DecidableEq

/-- A term's digest before and after a batch; none stands for the empty set. -/
structure TermRootChange where
  term : IndexTerm
  before : Option Hash
  after : Option Hash
deriving DecidableEq

structure IndexUpdate where
  root : RootRef 32
  /-- Actual changes only, in term order. -/
  changedTerms : List TermRootChange
deriving DecidableEq

/-- The sort key of a posting: the term, the container and the offset. -/
abbrev PostingKey := Lex (IndexTerm × Lex (ℕ × Offset))

def PostingChange.toPair : PostingChange → PostingKey × Bool
  | add term id => (toLex (term, toLex (split id)), true)
  | remove term id => (toLex (term, toLex (split id)), false)

section Store

variable (H : HashProvider) (R : Roaring)

section Read

variable {τ : Type} [ReadTransaction τ]

def bitmapRoot (tx : τ) (term : IndexTerm) : Except IndexError (Option Hash) := do
  match ← (ReadTransaction.get tx INDEX term.bytes).mapError IndexError.storage with
  | none => return none
  | some bytes => return some (← decodeRoot H bytes)

def reopen (tx : τ) (hash : Hash) : Except IndexError (RootRef 32) := IndexTrie.reopen H tx hash

/-- The posting set under a digest. -/
def bitmapAt (tx : τ) (root : Hash) : Except IndexError Bitmap := BitmapTrie.bitmap H R tx root

/-- **A term's posting set**; an absent term has none. -/
def bitmap (tx : τ) (term : IndexTerm) : Except IndexError (Option Bitmap) := do
  match ← bitmapRoot H tx term with
  | none => return none
  | some hash => return some (← bitmapAt H R tx hash)

end Read

variable {τ : Type} [WriteTransaction τ]

/-- The container, the offset and the membership of a posting. -/
def postingOf (e : PostingKey × Bool) : ℕ × Offset × Bool :=
  ((ofLex (ofLex e.1).2).1, (ofLex (ofLex e.1).2).2, e.2)

/-- One turn of the loop over the terms of a batch. -/
def applyTerm (root : RootRef 32) (changed : List TermRootChange) :
    List (PostingKey × Bool) → Prog IndexError τ (List TermRootChange)
  | [] => return changed
  | e :: rest => do
    let term := (ofLex e.1).1
    let before ← Prog.read fun tx => bitmapRoot H tx term
    Prog.read fun tx => IndexTrie.check H tx root term before
    let after ← BitmapTrie.apply H R before ((e :: rest).map postingOf)
    return if before = after then changed else changed ++ [⟨term, before, after⟩]

/-- Write the new digest of a term, or delete its row. -/
def writeTerm (_ : Unit) (c : TermRootChange) : Prog IndexError τ Unit :=
  match c.after with
  | some hash => Prog.mapError IndexError.storage (WriteTransaction.put INDEX c.term.bytes hash.1)
  | none => do
    let _ ← Prog.mapError IndexError.storage (WriteTransaction.delete INDEX c.term.bytes)

/-- **Apply a batch of postings**, the last one of a term and an id winning. -/
def apply (root : RootRef 32) (changes : List PostingChange) : Prog IndexError τ IndexUpdate := do
  let changes := normalize (changes.map PostingChange.toPair)
  let changedTerms ← (chunkBy (fun e : PostingKey × Bool => (ofLex e.1).1) changes).foldlM
    (applyTerm H R root) []
  let root ← IndexTrie.set H root (changedTerms.map fun c => (c.term, c.after))
  changedTerms.foldlM writeTerm ()
  return ⟨root, changedTerms⟩

end Store

end GolemDb.Index
