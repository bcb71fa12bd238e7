import GolemDb.Index.Index
import GolemDb.Storage.Scan

/-!
Ranges of index terms. A range lies in one run, the terms of one name and type; a bounded side is
the term of its value and an unbounded one reaches the end of the run. A scan of a range yields the
terms of the Index table between its bounds, each with the digest of its posting set.
-/

namespace GolemDb.Index

open GolemDb.Lib GolemDb.Storage GolemDb.Merkle GolemDb.Cells

/-- Why bounds make no range. -/
inductive RangeError where
  | noBound
  | typeMismatch (lower upper : CellType)
  | term (source : TermError)
deriving DecidableEq

/-- A range of index keys inside one run. -/
structure TermRange where
  lower : Bound Bytes
  upper : Bound Bytes
deriving DecidableEq

/-- The upper bound just past the keys with a prefix: the least key above all of them, if there is
one. -/
def past (pfx : Bytes) : Bound Bytes :=
  match (pfx.reverse.dropWhile (· = 0xff)) with
  | [] => .unbounded
  | last :: rest => .excluded (rest.reverse ++ [last + 1])

namespace TermRange

/-- The common type of the bounds. -/
def boundType (lower upper : Bound CellValue) : Except RangeError CellType :=
  match lower.value?, upper.value? with
  | none, none => .error .noBound
  | some low, some high => if low.ty ≠ high.ty then .error (.typeMismatch low.ty high.ty) else .ok low.ty
  | some value, none => .ok value.ty
  | none, some value => .ok value.ty

/-- A bounded side is the term of its value. -/
def side (name : Bytes) (bound : Bound CellValue) (whole : Bound Bytes) : Except RangeError (Bound Bytes) :=
  match bound with
  | .included value => ((IndexTerm.fromStrName name value).mapError RangeError.term).map fun t => .included t.bytes
  | .excluded value => ((IndexTerm.fromStrName name value).mapError RangeError.term).map fun t => .excluded t.bytes
  | .unbounded => .ok whole

/-- Whether the keys admit no term. -/
def isEmpty (lower upper : Bound Bytes) : Bool :=
  match lower, upper with
  | .included low, .included high => high < low
  | .unbounded, _ => false
  | _, .unbounded => false
  | .included low, .excluded high => high ≤ low
  | .excluded low, .included high => high ≤ low
  | .excluded low, .excluded high => high ≤ low

/-- **The terms of a name between two values**; none when the keys admit no term. The bounds' shape
is checked first, then the name and the type. -/
def between (name : CellName) (lower upper : Bound CellValue) : Except RangeError (Option TermRange) := do
  let ty ← boundType lower upper
  let name ← (nameStr name).mapError RangeError.term
  let run ← (IndexTerm.pfx name ty).mapError RangeError.term
  let lower ← side name lower (.included run)
  let upper ← side name upper (past run)
  return if isEmpty lower upper then none else some ⟨lower, upper⟩

end TermRange

/-! ### Scans of terms -/

section Terms

variable (H : HashProvider) (R : Roaring) {τ : Type} [ReadTransaction τ]

/-- A decoded row of the Index table. -/
def decodeTermRow (row : Except StorageError Entry) : Except IndexError (IndexTerm × Hash) := do
  let (key, value) ← row.mapError IndexError.storage
  let term ← (IndexTerm.decode key).mapError IndexError.term
  let root ← decodeRoot H value
  return (term, root)

/-- The items of a term scan: the decoded rows, up to the first error. -/
def decodeTermRows : List (Except StorageError Entry) → List (Except IndexError (IndexTerm × Hash))
  | [] => []
  | row :: rest =>
    match decodeTermRow H row with
    | .ok item => .ok item :: decodeTermRows rest
    | .error e => [.error e]

/-- **The terms of a range**, as the items of the lazy scan. -/
def terms (tx : τ) (range : TermRange) : Except IndexError (List (Except IndexError (IndexTerm × Hash))) := do
  let scan ← (scan tx INDEX range.lower range.upper).mapError IndexError.storage
  return decodeTermRows H (scan.collect (ReadTransaction.fuel tx INDEX + 1))

end Terms

end GolemDb.Index
