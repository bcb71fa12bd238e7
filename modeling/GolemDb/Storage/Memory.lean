import GolemDb.Storage.Basic

/-!
The in-memory backend: a committed state of tables, read transactions that keep the state they
began with, write transactions that work on a copy, and a cursor over one table.
-/

namespace GolemDb.Storage

open GolemDb.Lib

/-- The tables of a store. -/
abbrev State := OrdMap Table Rows

/-- The rows of a table; none for a table not yet written. -/
def State.rowsOf (state : State) (t : Table) : Rows := (state.get? t).getD OrdMap.empty

/-- `rows`: the table's rows after its name has been checked. -/
def State.rows (state : State) (t : Table) : Except StorageError (Option Rows) := do
  t.validate
  return state.get? t

/-! ### The cursor -/

structure MemoryCursor where
  rows : Option Rows
  position : Position

namespace MemoryCursor

def new (rows : Option Rows) (key : Bytes) : MemoryCursor := ⟨rows, .key key⟩

def next : Prog StorageError MemoryCursor (Option Entry) := fun c =>
  match c.rows with
  | none => (.ok none, c)
  | some rows =>
    let row := rowNext rows c.position
    (.ok row, { c with position := settle row .after })

def prev : Prog StorageError MemoryCursor (Option Entry) := fun c =>
  match c.rows with
  | none => (.ok none, c)
  | some rows =>
    let row := rowPrev rows c.position
    (.ok row, { c with position := settle row .before })

instance : ReadCursor MemoryCursor := ⟨next, prev⟩

end MemoryCursor

/-! ### Transactions -/

structure MemoryReadTransaction where
  state : State

structure MemoryWriteTransaction where
  state : State

/-- A point read of either transaction. -/
def State.get (state : State) (t : Table) (k : Bytes) : Except StorageError (Option Bytes) := do
  let rows ← state.rows t
  return rows.bind (·.get? k)

def State.cursor (state : State) (t : Table) (k : Bytes) : Except StorageError MemoryCursor := do
  return MemoryCursor.new (← state.rows t) k

instance : ReadTransaction MemoryReadTransaction where
  Cursor := MemoryCursor
  fuel tx t := (tx.state.rowsOf t).size
  get tx := tx.state.get
  cursor tx := tx.state.cursor

namespace MemoryWriteTransaction

/-- The transaction after the rows of a table were replaced, which creates the table. -/
def setRows (tx : MemoryWriteTransaction) (t : Table) (rows : Rows) : MemoryWriteTransaction :=
  ⟨tx.state.insert t rows⟩

def put (t : Table) (k v : Bytes) : Prog StorageError MemoryWriteTransaction Unit := fun tx =>
  match t.validate with
  | .error e => (.error e, tx)
  | .ok () => (.ok (), tx.setRows t ((tx.state.rowsOf t).insert k v))

def insert (t : Table) (k v : Bytes) : Prog StorageError MemoryWriteTransaction Unit := fun tx =>
  match t.validate with
  | .error e => (.error e, tx)
  | .ok () =>
    -- `entry(table).or_default()` creates the table before the key is looked up
    let rows := tx.state.rowsOf t
    if rows.contains k then (.error .alreadyExists, tx.setRows t rows)
    else (.ok (), tx.setRows t (rows.insert k v))

def delete (t : Table) (k : Bytes) : Prog StorageError MemoryWriteTransaction Bool := fun tx =>
  match t.validate with
  | .error e => (.error e, tx)
  | .ok () =>
    match tx.state.get? t with
    | none => (.ok false, tx)
    | some rows => (.ok (rows.contains k), tx.setRows t (rows.erase k))

end MemoryWriteTransaction

instance : WriteTransaction MemoryWriteTransaction where
  Cursor := MemoryCursor
  fuel tx t := (tx.state.rowsOf t).size
  get tx := tx.state.get
  cursor tx := tx.state.cursor
  isEmpty tx := .ok tx.state.isEmpty
  put := MemoryWriteTransaction.put
  insert := MemoryWriteTransaction.insert
  delete := MemoryWriteTransaction.delete

/-- The store: one committed state, shared by its clones. -/
structure MemoryStore where
  committed : State

namespace MemoryStore

def new : MemoryStore := ⟨OrdMap.empty⟩

/-- A reader keeps the state committed when it begins. -/
def beginRead (store : MemoryStore) : MemoryReadTransaction := ⟨store.committed⟩

/-- A writer starts from the latest committed state. -/
def beginWrite (store : MemoryStore) : MemoryWriteTransaction := ⟨store.committed⟩

/-- Commit publishes the writer's state over all tables at once. -/
def commit (_store : MemoryStore) (tx : MemoryWriteTransaction) : MemoryStore := ⟨tx.state⟩

end MemoryStore

instance : Store MemoryStore where
  Read := MemoryReadTransaction
  Write := MemoryWriteTransaction
  beginRead store := .ok store.beginRead
  beginWrite store := .ok store.beginWrite
  commit tx store := (.ok (), store.commit tx)

/-! ### The backend keeps the contract -/

lemma State.get_eq {state : State} {t : Table} (ht : t.validate = .ok ()) (k : Bytes) :
    state.get t k = .ok ((state.rowsOf t).get? k) := by
  unfold State.get State.rows State.rowsOf
  rw [ht]
  cases state.get? t <;> simp [Pure.pure, Except.pure, Bind.bind, Except.bind]

lemma MemoryWriteTransaction.rowsOf_setRows (tx : MemoryWriteTransaction) (t : Table)
    (rows : Rows) :
    (tx.setRows t rows).state.rowsOf = Function.update tx.state.rowsOf t rows := by
  funext t'
  unfold setRows State.rowsOf
  by_cases h : t' = t
  · subst h; simp
  · simp [h]

namespace MemoryCursor

/-- The cursor's rows and place; a cursor over a table not yet written stands nowhere. -/
def At (c : MemoryCursor) (r : Rows) (p : Position) : Prop :=
  c.rows = some r ∧ c.position = p ∨ c.rows = none ∧ r = OrdMap.empty

lemma rowNext_empty (p : Position) : rowNext OrdMap.empty p = none := by cases p <;> rfl
lemma rowPrev_empty (p : Position) : rowPrev OrdMap.empty p = none := by cases p <;> rfl

lemma next_at {c : MemoryCursor} {r : Rows} {p : Position} (h : c.At r p) :
    ∃ c', Prog.Runs next c (rowNext r p) c' ∧ c'.At r (settle (rowNext r p) .after) := by
  rcases h with ⟨hr, hp⟩ | ⟨hr, rfl⟩
  · refine ⟨{ c with position := settle (rowNext r p) .after }, ?_, .inl ⟨hr, rfl⟩⟩
    show next c = _
    simp only [next, hr, hp]
  · refine ⟨c, ?_, .inr ⟨hr, rfl⟩⟩
    show next c = _
    simp only [next, hr, rowNext_empty]

lemma prev_at {c : MemoryCursor} {r : Rows} {p : Position} (h : c.At r p) :
    ∃ c', Prog.Runs prev c (rowPrev r p) c' ∧ c'.At r (settle (rowPrev r p) .before) := by
  rcases h with ⟨hr, hp⟩ | ⟨hr, rfl⟩
  · refine ⟨{ c with position := settle (rowPrev r p) .before }, ?_, .inl ⟨hr, rfl⟩⟩
    show prev c = _
    simp only [prev, hr, hp]
  · refine ⟨c, ?_, .inr ⟨hr, rfl⟩⟩
    show prev c = _
    simp only [prev, hr, rowPrev_empty]

end MemoryCursor

lemma State.cursor_eq (state : State) {t : Table} (ht : t.validate = .ok ()) (k : Bytes) :
    ∃ c, state.cursor t k = .ok c ∧ c.At (state.rowsOf t) (.key k) := by
  refine ⟨MemoryCursor.new (state.get? t) k, ?_, ?_⟩
  · unfold State.cursor State.rows
    rw [ht]
    rfl
  · unfold MemoryCursor.At MemoryCursor.new State.rowsOf
    cases state.get? t <;> simp

instance : LawfulCursor MemoryReadTransaction where
  rows tx := tx.state.rowsOf
  get_eq ht _ k := State.get_eq ht k
  At := MemoryCursor.At
  size_le _ _ := le_rfl
  cursor_eq ht _ k := State.cursor_eq _ ht k
  next_eq := MemoryCursor.next_at
  prev_eq := MemoryCursor.prev_at

instance : LawfulCursor MemoryWriteTransaction where
  rows tx := tx.state.rowsOf
  get_eq ht _ k := State.get_eq ht k
  At := MemoryCursor.At
  size_le _ _ := le_rfl
  cursor_eq ht _ k := State.cursor_eq _ ht k
  next_eq := MemoryCursor.next_at
  prev_eq := MemoryCursor.prev_at

instance : LawfulWrite MemoryWriteTransaction where
  rows tx := tx.state.rowsOf
  get_eq ht _ k := State.get_eq ht k
  put_eq {t} ht tx k v := by
    refine ⟨tx.setRows t ((tx.state.rowsOf t).insert k v), ?_, tx.rowsOf_setRows t _⟩
    show MemoryWriteTransaction.put t k v tx = _
    unfold MemoryWriteTransaction.put
    rw [ht]
  insert_eq {t} ht tx k v hk := by
    refine ⟨tx.setRows t ((tx.state.rowsOf t).insert k v), ?_, tx.rowsOf_setRows t _⟩
    show MemoryWriteTransaction.insert t k v tx = _
    unfold MemoryWriteTransaction.insert OrdMap.contains
    rw [ht]
    simp [hk]
  insert_exists {t} ht tx k v hk := by
    refine ⟨tx.setRows t (tx.state.rowsOf t), ?_, ?_⟩
    · show MemoryWriteTransaction.insert t k v tx = _
      unfold MemoryWriteTransaction.insert OrdMap.contains
      rw [ht]
      simp [Option.isSome_iff_ne_none.mpr hk]
    · show (tx.setRows t _).state.rowsOf = _
      rw [tx.rowsOf_setRows, Function.update_eq_self]
  delete_eq {t} ht tx k := by
    show ∃ tx', MemoryWriteTransaction.delete t k tx = _ ∧ _
    unfold MemoryWriteTransaction.delete
    rw [ht]
    cases hs : tx.state.get? t with
    | none =>
      have hr : tx.state.rowsOf t = OrdMap.empty := by simp [State.rowsOf, hs]
      refine ⟨tx, ?_, ?_⟩
      · simp [hr, OrdMap.contains]
      · show tx.state.rowsOf = Function.update tx.state.rowsOf t ((tx.state.rowsOf t).erase k)
        rw [hr]
        have he : (OrdMap.empty : Rows).erase k = OrdMap.empty := OrdMap.ext_get fun j => by simp
        rw [he, ← hr, Function.update_eq_self]
    | some rows =>
      have hr : tx.state.rowsOf t = rows := by simp [State.rowsOf, hs]
      refine ⟨tx.setRows t (rows.erase k), ?_, ?_⟩
      · simp [hr]
      · show (tx.setRows t _).state.rowsOf = _
        rw [tx.rowsOf_setRows, hr]

instance : LawfulStore MemoryStore where
  lawfulCursor := inferInstanceAs (LawfulCursor MemoryReadTransaction)
  lawfulWrite := inferInstanceAs (LawfulWrite MemoryWriteTransaction)
  tables store := store.committed.rowsOf
  beginRead_eq store := ⟨store.beginRead, rfl, rfl⟩
  beginWrite_eq store := ⟨store.beginWrite, rfl, rfl⟩
  commit_eq store tx := ⟨store.commit tx, rfl, rfl⟩
  isEmpty_eq tx h t := by
    have he : tx.state.isEmpty = true := Except.ok.inj h
    have hn := OrdMap.isEmpty_iff.mp he t
    show tx.state.rowsOf t = _
    rw [State.rowsOf, hn, Option.getD_none]

lemma rows_beginRead (store : MemoryStore) : rows store.beginRead = tables store := rfl

end GolemDb.Storage
