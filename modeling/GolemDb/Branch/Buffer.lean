import GolemDb.Storage.Basic
import GolemDb.Lib.Overlay

/-!
Storage writes staged over a committed snapshot. A buffer is a write transaction that never
touches the store: reads fall through to the origin, and the staged rows are handed over at the
end. Every table reads as the origin's rows with the staged ones set over them, so the buffer keeps
the contract of a write transaction whenever its origin keeps that of a read transaction.
-/

namespace GolemDb.Branch

open GolemDb.Lib GolemDb.Storage

/-- Staged rows of a table; `none` is a deletion. -/
abbrev StagedRows := OrdMap Bytes (Option Bytes)

abbrev Writes := OrdMap Table StagedRows

/-- The staged rows of a table; none for a table not written. -/
def Writes.rowsOf (w : Writes) (t : Table) : StagedRows := (w.get? t).getD OrdMap.empty

structure Buffered (ρ : Type) where
  origin : ρ
  writes : Writes

/-! ### The cursor -/

structure BufferedCursor (ρ : Type) [ReadTransaction ρ] where
  origin : ρ
  table : Table
  cursor : ReadTransaction.Cursor ρ
  rows : Option StagedRows
  position : Position

namespace BufferedCursor

variable {ρ : Type} [ReadTransaction ρ]

/-- A staged row that is not a deletion. -/
def liveRow (e : Bytes × Option Bytes) : Option Entry := e.2.map (Prod.mk e.1)

/-- The first staged row in the direction, from the place on. -/
def stagedNext (rows : StagedRows) (p : Position) (forward : Bool) : Option Entry :=
  let inRange := fun e : Bytes × Option Bytes => match p, forward with
    | .key k, true => decide (k ≤ e.1)
    | .key k, false => decide (e.1 ≤ k)
    | .at k, true => decide (k < e.1)
    | .at k, false => decide (e.1 < k)
    | _, _ => true
  let range := rows.entries.filter inRange
  (if forward then range else range.reverse).findSome? liveRow

/-- Whether the merge passes over an origin row: it was returned last, or a staged row hides it. -/
def skips (c : BufferedCursor ρ) (key : Bytes) : Bool :=
  (match c.position with
    | .at k => decide (k = key)
    | _ => false) ||
  match c.rows with
    | some rows => rows.contains key
    | none => false

/-- Move the origin cursor to the next row the merge does not pass over. -/
def originNext (forward : Bool) : ℕ → Prog StorageError (BufferedCursor ρ) (Option Entry)
  | 0 => throw (.backend "cursor beyond its table")
  | fuel + 1 => do
    let row ← fun c : BufferedCursor ρ =>
      let (row, cursor) := if forward then ReadCursor.next.exec c.cursor else ReadCursor.prev.exec c.cursor
      (row, { c with cursor := cursor })
    match row with
    | none => return none
    | some (key, value) =>
      if ← Prog.read fun c : BufferedCursor ρ => .ok (c.skips key) then originNext forward fuel
      else return some (key, value)

/-- Place the origin cursor again, unless it stands past an end. -/
def reposition : Prog StorageError (BufferedCursor ρ) Unit := fun c =>
  match c.position with
  | .key k | .at k =>
    match ReadTransaction.cursor c.origin c.table k with
    | .ok cursor => (.ok (), { c with cursor := cursor })
    | .error e => (.error e, c)
  | _ => (.ok (), c)

/-- Of an origin row and a staged row, the one that comes first in the direction. -/
def merged (forward : Bool) : Option Entry → Option Entry → Option Entry
  | some a, some b => some (if decide (a.1 < b.1) = forward then a else b)
  | a, b => a.or b

def step (forward : Bool) : Prog StorageError (BufferedCursor ρ) (Option Entry) := do
  let c ← Prog.read .ok
  if forward = true ∧ c.position = .after ∨ forward = false ∧ c.position = .before then return none
  else
    reposition
    let staged := c.rows.bind fun rows => stagedNext rows c.position forward
    let origin ← originNext forward (ReadTransaction.fuel c.origin c.table + 1)
    let row := merged forward origin staged
    let settled := settle row (if forward then .after else .before)
    fun c => (.ok row, { c with position := settled })

instance : ReadCursor (BufferedCursor ρ) := ⟨step true, step false⟩

end BufferedCursor

/-! ### The transaction -/

namespace Buffered

variable {ρ : Type}

def new (origin : ρ) : Buffered ρ := ⟨origin, OrdMap.empty⟩

def intoWrites (b : Buffered ρ) : Writes := b.writes

/-- The buffer after one row was staged. -/
def stage (b : Buffered ρ) (t : Table) (k : Bytes) (v : Option Bytes) : Buffered ρ :=
  ⟨b.origin, b.writes.insert t ((b.writes.rowsOf t).insert k v)⟩

variable [ReadTransaction ρ]

def get (b : Buffered ρ) (t : Table) (k : Bytes) : Except StorageError (Option Bytes) := do
  t.validate
  match (b.writes.get? t).bind (·.get? k) with
  | some value => return value
  | none => ReadTransaction.get b.origin t k

def cursor (b : Buffered ρ) (t : Table) (k : Bytes) : Except StorageError (BufferedCursor ρ) := do
  t.validate
  let cursor ← ReadTransaction.cursor b.origin t k
  return ⟨b.origin, t, cursor, b.writes.get? t, .key k⟩

def put (t : Table) (k v : Bytes) : Prog StorageError (Buffered ρ) Unit := do
  Prog.ofExcept t.validate
  fun b => (.ok (), b.stage t k (some v))

def insert (t : Table) (k v : Bytes) : Prog StorageError (Buffered ρ) Unit := do
  let found ← Prog.read fun b : Buffered ρ => b.get t k
  if found.isSome then throw .alreadyExists else put t k v

def delete (t : Table) (k : Bytes) : Prog StorageError (Buffered ρ) Bool := do
  let found ← Prog.read fun b : Buffered ρ => b.get t k
  if found.isSome then fun b => (.ok true, b.stage t k none) else return false

end Buffered

instance {ρ : Type} [ReadTransaction ρ] : ReadTransaction (Buffered ρ) where
  Cursor := BufferedCursor ρ
  fuel b t := ReadTransaction.fuel b.origin t + (b.writes.rowsOf t).size
  get := Buffered.get
  cursor := Buffered.cursor

instance {ρ : Type} [ReadTransaction ρ] : WriteTransaction (Buffered ρ) where
  put := Buffered.put
  insert := Buffered.insert
  delete := Buffered.delete

/-! ### The buffer keeps the contract -/

namespace Buffered

variable {ρ : Type} [ReadTransaction ρ] [LawfulRead ρ]

/-- The rows of a table as the buffer shows them. -/
def rowsOf (b : Buffered ρ) (t : Table) : Rows := (rows b.origin t).overlay (b.writes.rowsOf t)

lemma get_rowsOf {t : Table} (ht : t.validate = .ok ()) (b : Buffered ρ) (k : Bytes) :
    b.get t k = .ok ((b.rowsOf t).get? k) := by
  unfold get rowsOf Writes.rowsOf
  rw [ht, OrdMap.get?_overlay]
  cases hw : b.writes.get? t with
  | none =>
    show ReadTransaction.get b.origin t k = _
    rw [LawfulRead.get_eq ht]
    rfl
  | some staged =>
    simp only [ok_bind, Option.bind_some, Option.getD_some]
    cases staged.get? k with
    | none => exact LawfulRead.get_eq ht b.origin k
    | some v => rfl

lemma rowsOf_stage (b : Buffered ρ) (t : Table) (k : Bytes) (v : Option Bytes) :
    (b.stage t k v).rowsOf = Function.update b.rowsOf t ((b.rowsOf t).set k v) := by
  funext u
  unfold rowsOf stage Writes.rowsOf
  by_cases hu : u = t
  · subst hu
    rw [Function.update_self, OrdMap.get?_insert, if_pos rfl, Option.getD_some, OrdMap.overlay_insert]
  · rw [Function.update_of_ne hu, OrdMap.get?_insert, if_neg hu]

/-- A point read inside a write. -/
lemma runs_get {t : Table} (ht : t.validate = .ok ()) (b : Buffered ρ) (k : Bytes) :
    Prog.Runs (Prog.read fun b : Buffered ρ => b.get t k) b ((b.rowsOf t).get? k) b :=
  Prog.Runs.read (get_rowsOf ht b k)

omit [ReadTransaction ρ] [LawfulRead ρ] in
lemma runs_put {t : Table} (ht : t.validate = .ok ()) (b : Buffered ρ) (k v : Bytes) :
    Prog.Runs (put t k v) b () (b.stage t k (some v)) :=
  (Prog.Runs.ofExcept ht).bind rfl

end Buffered

instance {ρ : Type} [ReadTransaction ρ] [LawfulRead ρ] : LawfulRead (Buffered ρ) where
  rows := Buffered.rowsOf
  get_eq ht b k := Buffered.get_rowsOf ht b k

instance {ρ : Type} [ReadTransaction ρ] [LawfulRead ρ] : LawfulWrite (Buffered ρ) where
  rows := Buffered.rowsOf
  get_eq ht b k := Buffered.get_rowsOf ht b k
  put_eq {t} ht b k v := ⟨_, Buffered.runs_put ht b k v, Buffered.rowsOf_stage b t k (some v)⟩
  insert_eq {t} ht b k v hk := by
    refine ⟨_, ?_, Buffered.rowsOf_stage b t k (some v)⟩
    have hget := Buffered.runs_get ht b k
    rw [hk] at hget
    exact hget.bind (Buffered.runs_put ht b k v)
  insert_exists {t} ht b k v hk := by
    refine ⟨b, ?_, rfl⟩
    obtain ⟨w, hw⟩ := Option.ne_none_iff_exists'.mp hk
    have hget := Buffered.runs_get ht b k
    rw [hw] at hget
    show (Prog.read _ >>= _).exec b = _
    rw [Prog.exec_bind, hget]
    rfl
  delete_eq {t} ht b k := by
    have hget := Buffered.runs_get ht b k
    cases hk : (b.rowsOf t).get? k with
    | none =>
      rw [hk] at hget
      refine ⟨b, ?_, ?_⟩
      · rw [OrdMap.contains, hk]
        exact hget.bind (Prog.Runs.pure false b)
      · have he : (b.rowsOf t).erase k = b.rowsOf t := by
          have := OrdMap.set_self (b.rowsOf t) k
          rwa [hk] at this
        rw [he, Function.update_eq_self]
    | some w =>
      rw [hk] at hget
      refine ⟨b.stage t k none, ?_, Buffered.rowsOf_stage b t k none⟩
      rw [OrdMap.contains, hk]
      exact hget.bind rfl

end GolemDb.Branch
