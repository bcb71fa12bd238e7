import GolemDb.Index.TermRange
import GolemDb.Records.Crud

/-!
Filters and their admission. A plan is a filter with its leaves resolved to index terms; building
one checks the whole filter and reads no state.
-/

namespace GolemDb.Query

open GolemDb.Lib GolemDb.Storage GolemDb.Merkle GolemDb.Cells GolemDb.Index GolemDb.Branch GolemDb.Records

/-- The error behind an internal one. -/
inductive Cause where
  | index (source : IndexError)
  | record (source : RecordError)
deriving DecidableEq

inductive QueryError where
  | invalidArgument (field : CellName) (source : TermError)
  | invalidQuery (reason : String)
  | notImplemented (operation : String)
  | commitUnavailable (requested head : CommitId)
  | internal (source : Cause)
deriving DecidableEq

def QueryError.ofIndex (e : IndexError) : QueryError := .internal (.index e)

/-- A record's errors are internal to a query, but for an unavailable commit. -/
def QueryError.ofRecord : RecordError → QueryError
  | .commitUnavailable requested head => .commitUnavailable requested head
  | e => .internal (.record e)

/-- A query's filter, as the caller writes it. -/
inductive Filter where
  | eq (field : CellName) (value : CellValue)
  | isIn (field : CellName) (values : List CellValue)
  | range (field : CellName) (lower upper : Bound CellValue)
deriving DecidableEq

/-- The filter with its terms resolved. -/
inductive Plan where
  | termRead (term : IndexTerm)
  | termReads (terms : OrdSet IndexTerm)
  | scan (range : TermRange)
  | empty
deriving DecidableEq

/-- The term `field = value` is indexed under. -/
def term (field : CellName) (value : CellValue) : Except QueryError IndexTerm :=
  (IndexTerm.fromCellName field value).mapError (QueryError.invalidArgument field)

/-- The terms of `field IN values`; none when there are no values. The list's shape is checked
first; with no value the name is still checked. -/
def terms (field : CellName) (values : List CellValue) : Except QueryError (Option (OrdSet IndexTerm)) :=
  match values with
  | [] => do
    (IndexTerm.checkCellName field).mapError (QueryError.invalidArgument field)
    return none
  | first :: rest =>
    if rest.any fun value => value.ty ≠ first.ty then .error (.invalidQuery "`In` values must all have one type")
    else do
      let terms ← (first :: rest).mapM (term field)
      return some (OrdSet.ofList terms)

def rangeError (field : CellName) : RangeError → QueryError
  | .term source => .invalidArgument field source
  | .noBound => .invalidQuery "`Range` needs at least one bound"
  | .typeMismatch _ _ => .invalidQuery "`Range` bounds must have one type"

/-- The terms of a field between two bounds. -/
def range (field : CellName) (lower upper : Bound CellValue) : Except QueryError (Option TermRange) :=
  (TermRange.between field lower upper).mapError (rangeError field)

/-- **Admission.** -/
def Plan.tryFrom : Filter → Except QueryError Plan
  | .eq field value => (term field value).map Plan.termRead
  | .isIn field values => (terms field values).map fun found => found.elim .empty Plan.termReads
  | .range field lower upper => (range field lower upper).map fun found => found.elim .empty Plan.scan

end GolemDb.Query
