import GolemDb.Storage.Basic

/-!
A backend with ceilings, as the MDBX adapter is one: reads and writes first check the table's name,
the key and the value against the limits of the environment, and then go to the engine. The engine
itself is any store.
-/

namespace GolemDb.Storage

open GolemDb.Lib

/-- The largest key, which also bounds table names, and the largest value. -/
structure Limits where
  key : ℕ
  value : ℕ
deriving DecidableEq

/-- A key of so many bytes is within the limit. -/
def Limits.checkKey (limits : Limits) (bytes : ℕ) : Except StorageError Unit :=
  if limits.key < bytes then .error (.keyTooLarge bytes limits.key) else .ok ()

def Limits.checkValue (limits : Limits) (bytes : ℕ) : Except StorageError Unit :=
  if limits.value < bytes then .error (.valueTooLarge bytes limits.value) else .ok ()

/-- A transaction of the engine under the limits of its environment. -/
structure Limited (τ : Type) where
  inner : τ
  limits : Limits

namespace Limited

variable {τ : Type}

/-- The checks of a read: the table and the key, then the table's name. -/
def checkRead (limits : Limits) (t : Table) (key : Bytes) : Except StorageError Unit := do
  t.validate
  limits.checkKey key.length
  limits.checkKey t.name.utf8ByteSize

/-- The checks of a write. -/
def checkWrite (limits : Limits) (t : Table) (key value : Bytes) : Except StorageError Unit := do
  t.validate
  limits.checkKey t.name.utf8ByteSize
  limits.checkKey key.length
  limits.checkValue value.length

section Read

variable [ReadTransaction τ]

instance : ReadTransaction (Limited τ) where
  Cursor := ReadTransaction.Cursor τ
  fuel tx t := ReadTransaction.fuel tx.inner t
  get tx t key := do
    checkRead tx.limits t key
    ReadTransaction.get tx.inner t key
  cursor tx t key := do
    checkRead tx.limits t key
    ReadTransaction.cursor tx.inner t key

end Read

/-- A step of the engine's transaction. -/
def lift {α : Type} (c : Prog StorageError τ α) : Prog StorageError (Limited τ) α := fun tx =>
  match c.exec tx.inner with
  | (r, inner) => (r, { tx with inner := inner })

section Write

variable [WriteTransaction τ]

def checked {α : Type} (check : Limits → Except StorageError Unit) (c : Prog StorageError τ α) :
    Prog StorageError (Limited τ) α := do
  let _ ← Prog.read fun tx => check tx.limits
  lift c

instance : WriteTransaction (Limited τ) where
  isEmpty tx := WriteTransaction.isEmpty tx.inner
  put t key value := checked (checkWrite · t key value) (WriteTransaction.put t key value)
  insert t key value := checked (checkWrite · t key value) (WriteTransaction.insert t key value)
  delete t key := checked (checkRead · t key) (WriteTransaction.delete t key)

end Write

end Limited

/-- A store of the engine and its limits. -/
structure LimitedStore (σ : Type) where
  inner : σ
  limits : Limits

instance (σ : Type) [Store σ] : Store (LimitedStore σ) where
  Read := Limited (Store.Read σ)
  Write := Limited (Store.Write σ)
  maxKeySize store := store.limits.key
  maxValueSize store := store.limits.value
  beginRead store := (Store.beginRead store.inner).map fun tx => ⟨tx, store.limits⟩
  beginWrite store := (Store.beginWrite store.inner).map fun tx => ⟨tx, store.limits⟩
  commit tx := fun store =>
    match (Store.commit tx.inner).exec store.inner with
    | (r, inner) => (r, { store with inner := inner })

/-! ### Reads within the limits -/

section Within

variable {τ : Type} [ReadTransaction τ] {tx : τ} {limits : Limits} {t : Table} {key : Bytes}

lemma Limits.checkKey_ok {n : ℕ} (h : n ≤ limits.key) : limits.checkKey n = .ok () :=
  if_neg (not_lt.mpr h)

lemma Limited.checkRead_ok (ht : t.validate = .ok ()) (hname : t.name.utf8ByteSize ≤ limits.key)
    (hkey : key.length ≤ limits.key) : Limited.checkRead limits t key = .ok () := by
  unfold Limited.checkRead
  rw [ht, ok_bind, Limits.checkKey_ok hkey, ok_bind, Limits.checkKey_ok hname]

/-- A read within the limits is the engine's. -/
lemma Limited.get_eq (ht : t.validate = .ok ()) (hname : t.name.utf8ByteSize ≤ limits.key)
    (hkey : key.length ≤ limits.key) :
    ReadTransaction.get (⟨tx, limits⟩ : Limited τ) t key = ReadTransaction.get tx t key := by
  show (Limited.checkRead limits t key >>= fun _ => ReadTransaction.get tx t key) = _
  rw [Limited.checkRead_ok ht hname hkey, ok_bind]

lemma Limited.cursor_eq (ht : t.validate = .ok ()) (hname : t.name.utf8ByteSize ≤ limits.key)
    (hkey : key.length ≤ limits.key) :
    ReadTransaction.cursor (⟨tx, limits⟩ : Limited τ) t key = ReadTransaction.cursor tx t key := by
  show (Limited.checkRead limits t key >>= fun _ => ReadTransaction.cursor tx t key) = _
  rw [Limited.checkRead_ok ht hname hkey, ok_bind]

/-- A read beyond the limit fails, whatever the table holds. -/
lemma Limited.get_long (ht : t.validate = .ok ()) (hkey : limits.key < key.length) :
    ReadTransaction.get (⟨tx, limits⟩ : Limited τ) t key = .error (.keyTooLarge key.length limits.key) := by
  show (Limited.checkRead limits t key >>= fun _ => ReadTransaction.get tx t key) = _
  unfold Limited.checkRead Limits.checkKey
  rw [ht, ok_bind, if_pos hkey]
  rfl

lemma Limited.cursor_long (ht : t.validate = .ok ()) (hkey : limits.key < key.length) :
    ReadTransaction.cursor (⟨tx, limits⟩ : Limited τ) t key = .error (.keyTooLarge key.length limits.key) := by
  show (Limited.checkRead limits t key >>= fun _ => ReadTransaction.cursor tx t key) = _
  unfold Limited.checkRead Limits.checkKey
  rw [ht, ok_bind, if_pos hkey]
  rfl

end Within

end GolemDb.Storage
