import GolemDb.Lib.OrdMap
import GolemDb.Lib.Bytes
import GolemDb.Lib.Prog
import Mathlib.Data.String.Basic

/-!
The transaction traits of the storage crate: tables named by strings, point reads, cursors and
writes, all of which may fail, and the store that begins and commits them. `LawfulRead`,
`LawfulCursor`, `LawfulWrite` and `LawfulStore` are the contract a backend keeps when no operation
fails: every table is an ordered map of rows, a cursor moves from row to row, and a write changes
one row.
-/

namespace GolemDb.Storage

open GolemDb.Lib

/-! ### Tables and errors -/

/-- A logical table name. -/
structure Table where
  name : String
deriving DecidableEq

instance : LinearOrder Table :=
  LinearOrder.lift' Table.name fun a b h => by cases a; cases b; simpa using h

inductive StorageError where
  | alreadyExists
  | full
  | invalidTableName (table : Table)
  | invalidRange
  | keyTooLarge (actual max : ℕ)
  | valueTooLarge (actual max : ℕ)
  | poisoned (lock : String)
  | backend (source : String)
deriving DecidableEq

/-- Names are nonempty and hold no NUL. -/
def Table.validate (t : Table) : Except StorageError Unit :=
  if t.name = "" || t.name.toList.contains '\x00' then .error (.invalidTableName t) else .ok ()

abbrev Entry := Bytes × Bytes

abbrev Rows := OrdMap Bytes Bytes

/-! ### The traits -/

/-- A bidirectional cursor. -/
class ReadCursor (γ : Type) where
  next : Prog StorageError γ (Option Entry)
  prev : Prog StorageError γ (Option Entry)

/-- `fuel` is not part of the source: it bounds the rows of a table, and so the turns of a loop
that moves a cursor to the end. -/
class ReadTransaction (τ : Type) where
  Cursor : Type
  [readCursor : ReadCursor Cursor]
  fuel : τ → Table → ℕ
  /-- `none` for an absent key or a table not yet written. -/
  get : τ → Table → Bytes → Except StorageError (Option Bytes)
  /-- A cursor at the key: its first `next` returns the least key not below it, its first `prev`
  the greatest not above it. -/
  cursor : τ → Table → Bytes → Except StorageError Cursor

instance (τ : Type) [ReadTransaction τ] : ReadCursor (ReadTransaction.Cursor τ) :=
  ReadTransaction.readCursor

class WriteTransaction (τ : Type) extends ReadTransaction τ where
  /-- Whether no table exists; an adapter that cannot inspect its catalogue fails. -/
  isEmpty : τ → Except StorageError Bool :=
    fun _ => .error (.backend "backend cannot inspect its table catalogue")
  /-- Insert or replace a row. -/
  put : Table → Bytes → Bytes → Prog StorageError τ Unit
  /-- Insert a row that must be absent. -/
  insert : Table → Bytes → Bytes → Prog StorageError τ Unit
  /-- Remove a row, returning whether it was there. -/
  delete : Table → Bytes → Prog StorageError τ Bool

/-- A store: a reader keeps the state committed when it begins, writers are serialized, and a
commit publishes the writer's rows. -/
class Store (σ : Type) where
  Read : Type
  Write : Type
  [readTransaction : ReadTransaction Read]
  [writeTransaction : WriteTransaction Write]
  /-- Physical ceilings; an unbounded backend keeps `usize::MAX`. -/
  maxKeySize : σ → ℕ := fun _ => 2 ^ 64 - 1
  maxValueSize : σ → ℕ := fun _ => 2 ^ 64 - 1
  beginRead : σ → Except StorageError Read
  beginWrite : σ → Except StorageError Write
  commit : Write → Prog StorageError σ Unit

instance (σ : Type) [Store σ] : ReadTransaction (Store.Read σ) := Store.readTransaction

instance (σ : Type) [Store σ] : WriteTransaction (Store.Write σ) := Store.writeTransaction

/-! ### The contract -/

/-- A point read returns the row of an ordered map. -/
class LawfulRead (τ : Type) [ReadTransaction τ] where
  rows : τ → Table → Rows
  get_eq : ∀ {t : Table}, t.validate = .ok () → ∀ (tx : τ) (k : Bytes),
    ReadTransaction.get tx t k = .ok ((rows tx t).get? k)

export LawfulRead (rows)

/-- Where a cursor stands: at a start key, on a row, or past an end. -/
inductive Position where
  | key (k : Bytes)
  | before
  | at (k : Bytes)
  | after
deriving DecidableEq

/-- The row a forward move from the position reaches. -/
def rowNext (rows : Rows) : Position → Option Entry
  | .before => rows.entries.head?
  | .key k => rows.firstGe k
  | .at k => rows.firstGt k
  | .after => none

/-- The row a backward move from the position reaches. -/
def rowPrev (rows : Rows) : Position → Option Entry
  | .after => rows.entries.getLast?
  | .key k => rows.lastLe k
  | .at k => rows.lastLt k
  | .before => none

/-- The place of the row a move returned, or the end it ran past. -/
def settle (row : Option Entry) (end' : Position) : Position :=
  match row with
  | some (k, _) => .at k
  | none => end'

/-- A cursor moves from row to row: `At c r p` says that `c` stands at `p` in the rows `r`. -/
class LawfulCursor (τ : Type) [ReadTransaction τ] extends LawfulRead τ where
  At : ReadTransaction.Cursor τ → Rows → Position → Prop
  size_le : ∀ (tx : τ) (t : Table), (rows tx t).size ≤ ReadTransaction.fuel tx t
  cursor_eq : ∀ {t : Table}, t.validate = .ok () → ∀ (tx : τ) (k : Bytes),
    ∃ c, ReadTransaction.cursor tx t k = .ok c ∧ At c (rows tx t) (.key k)
  next_eq : ∀ {c : ReadTransaction.Cursor τ} {r : Rows} {p : Position}, At c r p →
    ∃ c', Prog.Runs ReadCursor.next c (rowNext r p) c' ∧ At c' r (settle (rowNext r p) .after)
  prev_eq : ∀ {c : ReadTransaction.Cursor τ} {r : Rows} {p : Position}, At c r p →
    ∃ c', Prog.Runs ReadCursor.prev c (rowPrev r p) c' ∧ At c' r (settle (rowPrev r p) .before)

/-- A write changes one row of one table, and says whether the row was there. -/
class LawfulWrite (τ : Type) [WriteTransaction τ] extends LawfulRead τ where
  put_eq : ∀ {t : Table}, t.validate = .ok () → ∀ (tx : τ) (k v : Bytes),
    ∃ tx', Prog.Runs (WriteTransaction.put t k v) tx () tx' ∧
      rows tx' = Function.update (rows tx) t ((rows tx t).insert k v)
  insert_eq : ∀ {t : Table}, t.validate = .ok () → ∀ (tx : τ) (k v : Bytes),
    (rows tx t).get? k = none → ∃ tx', Prog.Runs (WriteTransaction.insert t k v) tx () tx' ∧
      rows tx' = Function.update (rows tx) t ((rows tx t).insert k v)
  insert_exists : ∀ {t : Table}, t.validate = .ok () → ∀ (tx : τ) (k v : Bytes),
    (rows tx t).get? k ≠ none → ∃ tx', Prog.exec (WriteTransaction.insert t k v) tx =
      (.error .alreadyExists, tx') ∧ rows tx' = rows tx
  delete_eq : ∀ {t : Table}, t.validate = .ok () → ∀ (tx : τ) (k : Bytes),
    ∃ tx', Prog.Runs (WriteTransaction.delete t k) tx ((rows tx t).contains k) tx' ∧
      rows tx' = Function.update (rows tx) t ((rows tx t).erase k)

/-- An unbounded store: no operation fails, a transaction begins with the committed tables, and a
commit publishes the writer's tables. -/
class LawfulStore (σ : Type) [Store σ] where
  [lawfulCursor : LawfulCursor (Store.Read σ)]
  [lawfulWrite : LawfulWrite (Store.Write σ)]
  tables : σ → Table → Rows
  beginRead_eq : ∀ s : σ, ∃ tx, Store.beginRead s = .ok tx ∧ rows tx = tables s
  beginWrite_eq : ∀ s : σ, ∃ tx, Store.beginWrite s = .ok tx ∧ rows tx = tables s
  commit_eq : ∀ (s : σ) (tx : Store.Write σ), ∃ s', Prog.Runs (Store.commit tx) s () s' ∧ tables s' = rows tx
  isEmpty_eq : ∀ tx : Store.Write σ, WriteTransaction.isEmpty tx = .ok true →
    ∀ t, rows tx t = OrdMap.empty

export LawfulStore (tables)

instance (σ : Type) [Store σ] [LawfulStore σ] : LawfulCursor (Store.Read σ) := LawfulStore.lawfulCursor

instance (σ : Type) [Store σ] [LawfulStore σ] : LawfulWrite (Store.Write σ) := LawfulStore.lawfulWrite

end GolemDb.Storage
