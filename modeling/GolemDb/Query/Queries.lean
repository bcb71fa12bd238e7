import GolemDb.Query.Plan

/-!
Queries over committed state. A call admits its filter, opens one snapshot, evaluates the plan there
and, for `query`, materializes the matching records in the order of their ids.
-/

namespace GolemDb.Query

open GolemDb.Lib GolemDb.Storage GolemDb.Merkle GolemDb.Cells GolemDb.Index GolemDb.Branch GolemDb.Records

inductive Direction where
  | asc
  | desc
deriving DecidableEq

structure SortKey where
  field : CellName
  ty : CellType
  direction : Direction
deriving DecidableEq

/-- A filtered, optionally projected read. The budget of the source is not read by any call. -/
structure QueryOp where
  filter : Filter
  sort : List SortKey
  projection : Option (List CellName)
  limit : Option U64
  offset : Option U64
  withTotal : Bool
deriving DecidableEq

def QueryOp.fromFilter (filter : Filter) : QueryOp := ⟨filter, [], none, none, none, false⟩

structure QueryPage where
  records : List Record
  totalMatched : Option U64
  evaluatedAt : CommitId
deriving DecidableEq

/-! ### Evaluation -/

section Evaluation

variable (H : HashProvider) (R : Roaring) {ρ : Type} [ReadTransaction ρ]

/-- The record ids indexed under a term; empty when the term is absent. -/
def postings (tx : ρ) (term : IndexTerm) : Except IndexError Bitmap := do
  return (← Index.bitmap H R tx term).getD ⟨OrdMap.empty⟩

/-- The posting sets of the terms in a range, in their order. -/
def scanPostings (tx : ρ) (range : TermRange) : Except IndexError (List (Except IndexError Bitmap)) := do
  let items ← Index.terms H tx range
  return items.map fun item => item.bind fun entry => bitmapAt H R tx entry.2

/-- The union of posting sets, one after another; the first error ends it. -/
def union (postings : List (Except IndexError Bitmap)) : Except QueryError Bitmap :=
  postings.foldlM (fun union item => do
    let postings ← item.mapError QueryError.ofIndex
    return ⟨union.values.union postings.values⟩) ⟨OrdMap.empty⟩

/-- **The match set of an admitted filter.** -/
def matchSet (tx : ρ) : Plan → Except QueryError Bitmap
  | .termRead term => (postings H R tx term).mapError QueryError.ofIndex
  | .termReads terms => union (terms.toList.map (postings H R tx))
  | .scan range => do
    let items ← (scanPostings H R tx range).mapError QueryError.ofIndex
    union items
  | .empty => .ok ⟨OrdMap.empty⟩

end Evaluation

/-! ### The facade -/

section Queries

variable (H : HashProvider) (R : Roaring) {σ : Type} [Store σ]

/-- Admit a filter, open one snapshot and evaluate the filter there. -/
def evaluate (store : σ) (commitId : Option CommitId) (filter : Filter) :
    Except QueryError (Store.Read σ × CommitId × Bitmap) := do
  let plan ← Plan.tryFrom filter
  let (snapshot, head) ← (committedSnapshot store commitId).mapError QueryError.ofRecord
  let found ← matchSet H R snapshot plan
  return (snapshot, head, found)

/-- **The records that match**, in the order of their ids, projected as `get` projects. -/
def query (store : σ) (commitId : Option CommitId) (op : QueryOp) : Except QueryError QueryPage :=
  if op.sort ≠ [] then .error (.notImplemented "query: sort")
  else if op.limit.isSome then .error (.notImplemented "query: limit")
  else if op.offset.isSome then .error (.notImplemented "query: offset")
  else do
    let (snapshot, head, found) ← evaluate H R store commitId op.filter
    let records ← (found.values.toList.mapM fun id =>
      readCommittedById snapshot id op.projection).mapError QueryError.ofRecord
    return ⟨records, if op.withTotal then some (Fin.ofNat _ found.values.toList.length) else none, head⟩

/-- **The size of the match set.** -/
def count (store : σ) (commitId : Option CommitId) (filter : Filter) : Except QueryError U64 := do
  let (_, _, found) ← evaluate H R store commitId filter
  return Fin.ofNat _ found.values.toList.length

end Queries

end GolemDb.Query
