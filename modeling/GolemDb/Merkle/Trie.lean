import GolemDb.Merkle.Node
import GolemDb.Lib.LastWins

/-!
The branch-only compressed hexary trie over a storage transaction: point reads, one edit at a
time, the batched edit and the lazy walk. Branch rows are immutable, keyed by their hash.
Recursion goes down the nibbles of a path, so every recursive function takes the depth that is
left as its fuel; the callers start it at one more than the nibbles of a path.
-/

namespace GolemDb.Merkle

open GolemDb.Lib GolemDb.Storage

/-- The settings of a trie: its table, the domain byte of its branch hashes, its hash, and a
path width the source accepts. -/
structure Trie (N : ℕ) where
  table : Table
  domain : UInt8
  hasher : HashProvider
  width_pos : 1 ≤ N
  width_le : N ≤ 32

lemma hash_width_pos : 1 ≤ 32 := by decide

lemma hash_width_le : 32 ≤ 32 := le_rfl

/-- A group of two leaves and more is not empty. -/
lemma leaves_ne_nil {N : ℕ} (next : LeafRef N) (rest : List (LeafRef N)) : next :: rest ≠ [] :=
  List.cons_ne_nil next rest

/-- `slice[lo..hi]`, which panics out of bounds. -/
def slice {α : Type} (l : List α) (lo hi : ℕ) : Except MerkleError (List α) :=
  if lo ≤ hi ∧ hi ≤ l.length then .ok ((l.take hi).drop lo) else .error .panic

/-- `slice[i]`, which panics out of bounds. -/
def index {α : Type} (l : List α) (i : ℕ) : Except MerkleError α :=
  match l[i]? with
  | some a => .ok a
  | none => .error .panic

namespace Trie

variable {N : ℕ} (T : Trie N) {τ : Type}

section Read

variable [ReadTransaction τ]

/-- Read a branch row: it must decode, hash to its key, and fit its route. -/
def load (tx : τ) (hash : Hash) (route : List Nibble) :
    Except MerkleError (BranchNodeCompact N) := do
  match ← (ReadTransaction.get tx T.table hash.1).mapError .storage with
  | none => .error (.missingBranch hash)
  | some bytes =>
    let node ← BranchNodeCompact.decode bytes
    if node.hash T.domain T.hasher ≠ hash then .error .hashMismatch
    else
      node.validateAt route
      return node

/-- Check a branch root's row at depth zero. -/
def validateRoot (tx : τ) : RootRef N → Except MerkleError Unit
  | .branch hash => do
    let _ ← T.load tx hash []
  | _ => .ok ()

/-- The loop of `get`: the reference at the route, and the path that is looked up. -/
def getLoop (tx : τ) (path : Arr N) :
    ℕ → RootRef N → List Nibble → Except MerkleError (Option (LeafRef N))
  | 0, _, _ => .error .panic
  | _ + 1, .empty, _ => .ok none
  | _ + 1, .leaf leaf, _ => .ok (if leaf.path = path then some leaf else none)
  | fuel + 1, .branch hash, route => do
    let node ← T.load tx hash route
    let route := route ++ node.unpackPrefix
    if ¬ route <+: nibbles path.1 then .ok none
    else
      let slot ← index (nibbles path.1) route.length
      getLoop tx path fuel ((node.child slot).getD .empty) (route ++ [slot])

def get (tx : τ) (root : RootRef N) (path : Arr N) : Except MerkleError (Option (LeafRef N)) :=
  T.getLoop tx path (2 * N + 1) root []

end Read

/-! ### Single edits -/

section Edit

variable [WriteTransaction τ]

/-- Insert a branch row; a row already there must hold the same bytes. -/
def store (node : BranchNodeCompact N) (route : List Nibble) :
    Prog MerkleError τ (RootRef N) := do
  Prog.ofExcept (node.validateAt route)
  let hash := node.hash T.domain T.hasher
  let bytes := node.encode
  match ← Prog.outcome (WriteTransaction.insert T.table hash.1 bytes) with
  | .ok () => return .branch hash
  | .error .alreadyExists =>
    let found ← Prog.read fun tx => (ReadTransaction.get tx T.table hash.1).mapError .storage
    if found ≠ some bytes then throw .conflictingBranch else return .branch hash
  | .error e => throw (.storage e)

/-- Store the branch with the prefix and the children at the route. -/
def storeChildren (pfx : List Nibble) (children : Nibble → RootRef N) (route : List Nibble) :
    Prog MerkleError τ (RootRef N) := do
  let node ← Prog.ofExcept (BranchNodeCompact.fromChildren pfx children)
  T.store node route

/-- What an edit leaves where it finds nothing or the edited leaf. -/
def replaced (replacement : Option (LeafRef N)) : RootRef N :=
  match replacement with
  | some leaf => .leaf leaf
  | none => .empty

/-- Replace or delete a matching leaf, or split distinct leaves on insertion. -/
def editLeaf (old : LeafRef N) (target : Arr N) (replacement : Option (LeafRef N))
    (route : List Nibble) : Prog MerkleError τ (RootRef N) :=
  if old.path = target then return replaced replacement
  else
    match replacement with
    | none => return .leaf old
    | some new => do
      let oldPath := nibbles old.path.1
      let newPath := nibbles target.1
      match firstDiff oldPath newPath route.length (N * 2) with
      | none => throw .panic
      | some depth =>
        let a ← Prog.ofExcept (index oldPath depth)
        let b ← Prog.ofExcept (index newPath depth)
        let pfx ← Prog.ofExcept (slice newPath route.length depth)
        T.storeChildren pfx
          (Function.update (Function.update (fun _ => .empty) a (.leaf old)) b (.leaf new)) route

/-- Insert a leaf diverging within a branch's prefix: the shortened old branch is stored first,
then a parent joining it with the new leaf. -/
def splitBranch (node : BranchNodeCompact N) (pfx : List Nibble) (new : LeafRef N) (shared : ℕ)
    (route : List Nibble) : Prog MerkleError τ (RootRef N) := do
  let kept ← Prog.ofExcept (slice pfx 0 (shared + 1))
  let rest ← Prog.ofExcept (slice pfx (shared + 1) pfx.length)
  let old ← T.storeChildren rest node.children (route ++ kept)
  let a ← Prog.ofExcept (index pfx shared)
  let b ← Prog.ofExcept (index (nibbles new.path.1) (route.length + shared))
  let parent ← Prog.ofExcept (slice pfx 0 shared)
  T.storeChildren parent
    (Function.update (Function.update (fun _ => .empty) a old) b (.leaf new)) route

/-- Store updated children, promoting a lone leaf or merging a lone branch's prefix. -/
def rebuildBranch (pfx : List Nibble) (children : Nibble → RootRef N) (route : List Nibble) :
    Prog MerkleError τ (RootRef N) :=
  match (List.finRange 16).filter fun slot => children slot ≠ .empty with
  | [slot] =>
    match children slot with
    | .branch hash => do
      let child ← Prog.read fun tx => T.load tx hash (route ++ pfx ++ [slot])
      T.storeChildren (pfx ++ [slot] ++ child.unpackPrefix) child.children route
    | only => return only
  | _ => T.storeChildren pfx children route

/-- Split a divergent prefix or edit the matching child with `editChild`. -/
def editBranch (editChild : RootRef N → List Nibble → Prog MerkleError τ (RootRef N)) (hash : Hash)
    (target : Arr N) (replacement : Option (LeafRef N)) (route : List Nibble) :
    Prog MerkleError τ (RootRef N) := do
  let node ← Prog.read fun tx => T.load tx hash route
  let pfx := node.unpackPrefix
  let targetPath := nibbles target.1
  let rest ← Prog.ofExcept (slice targetPath route.length targetPath.length)
  let shared := ((pfx.zip rest).takeWhile fun e => e.1 = e.2).length
  if shared ≠ pfx.length then
    match replacement with
    | none => return .branch hash
    | some new => T.splitBranch node pfx new shared route
  else
    let slot ← Prog.ofExcept (index targetPath (route ++ pfx).length)
    let children := node.children
    let changed ← editChild (children slot) (route ++ pfx ++ [slot])
    if changed = children slot then return .branch hash
    else T.rebuildBranch pfx (Function.update children slot changed) route

def edit (target : Arr N) (replacement : Option (LeafRef N)) :
    ℕ → RootRef N → List Nibble → Prog MerkleError τ (RootRef N)
  | 0, _, _ => throw .panic
  | _ + 1, .empty, _ => return replaced replacement
  | _ + 1, .leaf leaf, route => T.editLeaf leaf target replacement route
  | fuel + 1, .branch hash, route =>
    T.editBranch (edit target replacement fuel) hash target replacement route

def insert (root : RootRef N) (leaf : LeafRef N) : Prog MerkleError τ (RootRef N) :=
  T.edit leaf.path (some leaf) (2 * N + 1) root []

def remove (root : RootRef N) (path : Arr N) : Prog MerkleError τ (RootRef N) :=
  T.edit path none (2 * N + 1) root []

end Edit

end Trie

/-! ### Batched edits -/

/-- A subtrie edited by a batch: already stored, or a new branch that is stored only once its
parent keeps it beside a sibling. -/
inductive Edited (N : ℕ) where
  | stored (root : RootRef N)
  | new (pfx : List Nibble) (children : Nibble → RootRef N)
deriving DecidableEq

/-- One batch edit: the leaf hash to set at a path, or none to remove it. -/
abbrev Edit (N : ℕ) := Arr N × Option Hash

/-- Split a branch's prefix at the first nibble an insertion leaves it: how many nibbles the
branch keeps, and its children. -/
def splitPrefix {N : ℕ} (pfx : List Nibble) (children : Nibble → RootRef N) (edits : List (Edit N))
    (depth : ℕ) : ℕ × (Nibble → Edited N) :=
  let kept := (((edits.filter fun e => e.2.isSome).map fun e => matched pfx e.1.1 depth).min?).getD
    pfx.length
  match pfx[kept]? with
  | none => (kept, fun slot => .stored (children slot))
  | some slot => (kept, Function.update (fun _ => .stored .empty) slot (.new (pfx.drop (kept + 1)) children))

/-- The edits whose paths follow the prefix from nibble `depth`: one subslice of the sorted
edits, from the first of them to the last. -/
def following {N : ℕ} (edits : List (Edit N)) (pfx : List Nibble) (depth : ℕ) : List (Edit N) :=
  let follows := fun e : Edit N => decide (matched pfx e.1.1 depth = pfx.length)
  ((edits.dropWhile (!follows ·)).reverse.dropWhile (!follows ·)).reverse

namespace Trie

variable {N : ℕ} (T : Trie N) {τ : Type}

section Apply

variable [WriteTransaction τ]

/-- Store a new branch at the route; anything else has its row or needs none. -/
def storeEdited (edited : Edited N) (route : List Nibble) : Prog MerkleError τ (RootRef N) :=
  match edited with
  | .stored root => return root
  | .new pfx children => T.storeChildren pfx children route

/-- One turn of the loop of `build`: the subtrie of a group is built and stored in its slot. -/
def buildGroup (buildChild : List (LeafRef N) → List Nibble → Prog MerkleError τ (Edited N))
    (childRoute : List Nibble) (children : Nibble → RootRef N) :
    List (LeafRef N) → Prog MerkleError τ (Nibble → RootRef N)
  | [] => return children
  | leaf :: rest => do
    let slot := nibbleAt leaf.path.1 childRoute.length
    let child ← buildChild (leaf :: rest) (childRoute ++ [slot])
    let root ← T.storeEdited child (childRoute ++ [slot])
    return Function.update children slot root

/-- The canonical subtrie at the route for leaves sorted by path. -/
def build : ℕ → List (LeafRef N) → List Nibble → Prog MerkleError τ (Edited N)
  | _, [], _ => return .stored .empty
  | _, [only], _ => return .stored (.leaf only)
  | 0, _ :: _ :: _, _ => throw .panic
  | fuel + 1, first :: next :: rest, route => do
    let leaves := first :: next :: rest
    let firstPath := nibbles first.path.1
    let lastPath := nibbles ((next :: rest).getLast (leaves_ne_nil next rest)).path.1
    match firstDiff firstPath lastPath route.length (N * 2) with
    | none => throw .panic
    | some depth =>
      let childRoute ← Prog.ofExcept (slice firstPath 0 depth)
      let children ← (chunkBy (fun leaf : LeafRef N => nibbleAt leaf.path.1 depth) leaves).foldlM
        (T.buildGroup (build fuel) childRoute) (fun _ => RootRef.empty)
      let pfx ← Prog.ofExcept (slice firstPath route.length depth)
      return .new pfx children

/-- The subtrie of an empty or single-leaf subtrie merged with edits: the old leaf survives
unless an edit replaces or removes it. -/
def rebuild (old : Option (LeafRef N)) (edits : List (Edit N)) (route : List Nibble) :
    Prog MerkleError τ (Edited N) :=
  let leaves := edits.filterMap fun e => e.2.map fun hash => (⟨e.1, hash⟩ : LeafRef N)
  match old with
  | some old =>
    if edits.all fun e => e.1 ≠ old.path then
      T.build (2 * N + 1) ((leaves ++ [old]).insertionSort fun a b => a.path ≤ b.path) route
    else T.build (2 * N + 1) leaves route
  | none => T.build (2 * N + 1) leaves route

/-- Form the edited branch from its edited children: empty, a lone leaf, a lone branch that
absorbs the prefix, or a new branch over its stored children. `childRoute` is the branch's route
followed by its prefix. -/
def collapse (pfx : List Nibble) (edited : Nibble → Edited N) (childRoute : List Nibble) :
    Prog MerkleError τ (Edited N) :=
  match (List.finRange 16).filter fun slot => edited slot ≠ .stored .empty with
  | [] => return .stored .empty
  | [slot] =>
    match edited slot with
    | .new childPfx grandchildren => return .new (pfx ++ [slot] ++ childPfx) grandchildren
    | .stored (.branch hash) => do
      let child ← Prog.read fun tx => T.load tx hash (childRoute ++ [slot])
      return .new (pfx ++ [slot] ++ child.unpackPrefix) child.children
    | leaf => return leaf
  | _ => do
    let children ← (List.finRange 16).foldlM
      (fun children slot => do
        let root ← T.storeEdited (edited slot) (childRoute ++ [slot])
        return Function.update children slot root)
      (fun _ => RootRef.empty)
    return .new pfx children

/-- One turn of the loop of `apply_at`: the subtrie in the group's slot is edited. -/
def applyGroup (applyChild : Edited N → List (Edit N) → List Nibble → Prog MerkleError τ (Edited N))
    (childRoute : List Nibble) (edited : Nibble → Edited N) :
    List (Edit N) → Prog MerkleError τ (Nibble → Edited N)
  | [] => return edited
  | e :: rest => do
    let slot := nibbleAt e.1.1 childRoute.length
    let child ← applyChild (edited slot) (e :: rest) (childRoute ++ [slot])
    return Function.update edited slot child

/-- One branch of `apply_at`: the branch's hash when it is stored, its prefix and children, and
`applyChild` for the edited slots. -/
def applyBranch (applyChild : Edited N → List (Edit N) → List Nibble → Prog MerkleError τ (Edited N))
    (hash? : Option Hash) (pfx : List Nibble) (children : Nibble → RootRef N) (edits : List (Edit N))
    (route : List Nibble) : Prog MerkleError τ (Edited N) := do
  -- the source indexes the edited paths below the prefix
  if N * 2 ≤ route.length + pfx.length then throw .panic
  else
    let (kept, split) := splitPrefix pfx children edits route.length
    let edits := following edits (pfx.take kept) route.length
    let wasSplit := kept < pfx.length
    let pfx := pfx.take kept
    let childRoute := route ++ pfx
    let edited ← (chunkBy (fun e : Edit N => nibbleAt e.1.1 childRoute.length) edits).foldlM
      (applyGroup applyChild childRoute) split
    if ¬ wasSplit ∧ ∀ slot, edited slot = .stored (children slot) then
      match hash? with
      | some hash => return .stored (.branch hash)
      | none => return .new pfx children
    else T.collapse pfx edited childRoute

/-- Apply edits that are sorted by path, unique and below the route to a subtrie. -/
def applyAt : ℕ → Edited N → List (Edit N) → List Nibble → Prog MerkleError τ (Edited N)
  | 0, _, _, _ => throw .panic
  | _ + 1, .stored .empty, edits, route => T.rebuild none edits route
  | _ + 1, .stored (.leaf leaf), edits, route => T.rebuild (some leaf) edits route
  | fuel + 1, .stored (.branch hash), edits, route => do
    let node ← Prog.read fun tx => T.load tx hash route
    T.applyBranch (applyAt fuel) (some hash) node.unpackPrefix node.children edits route
  | fuel + 1, .new pfx children, edits, route =>
    T.applyBranch (applyAt fuel) none pfx children edits route

/-- Set the leaf hash at each path, or remove the path; the last edit of a path wins. -/
def apply (root : RootRef N) (edits : List (Edit N)) : Prog MerkleError τ (RootRef N) := do
  let edited ← T.applyAt (2 * N + 1) (.stored root) (normalize edits) []
  T.storeEdited edited []

end Apply

/-! ### The walk -/

/-- The references still to visit, the next one first, each with its route. -/
structure Walk (N : ℕ) where
  stack : List (RootRef N × List Nibble)

def walk (root : RootRef N) : Walk N := ⟨[(root, [])]⟩

variable [ReadTransaction τ]

/-- The occupied slots of a node in ascending order, below the route. -/
def pushed (node : BranchNodeCompact N) (route : List Nibble) : List (RootRef N × List Nibble) :=
  (List.finRange 16).filterMap fun slot => (node.child slot).map fun child => (child, route ++ [slot])

/-- One call of the iterator: the next leaf or the error that ends the walk. -/
def Walk.nextLoop (tx : τ) : ℕ → Walk N → Option (Except MerkleError (LeafRef N)) × Walk N
  | 0, w => (some (.error .panic), w)
  | _ + 1, ⟨[]⟩ => (none, ⟨[]⟩)
  | fuel + 1, ⟨(.empty, _) :: stack⟩ => nextLoop tx fuel ⟨stack⟩
  | _ + 1, ⟨(.leaf leaf, _) :: stack⟩ => (some (.ok leaf), ⟨stack⟩)
  | fuel + 1, ⟨(.branch hash, route) :: stack⟩ =>
    match T.load tx hash route with
    | .error e => (some (.error e), ⟨[]⟩)
    | .ok node => nextLoop tx fuel ⟨pushed node (route ++ node.unpackPrefix) ++ stack⟩

def Walk.next (tx : τ) (w : Walk N) : Option (Except MerkleError (LeafRef N)) × Walk N :=
  Walk.nextLoop T tx (2 * N + 2) w

/-- At most `fuel` items of the walk. -/
def Walk.collect (tx : τ) : ℕ → Walk N → List (Except MerkleError (LeafRef N))
  | 0, _ => []
  | fuel + 1, w =>
    match Walk.next T tx w with
    | (none, _) => []
    | (some item, w') => item :: collect tx fuel w'

end Trie

end GolemDb.Merkle
