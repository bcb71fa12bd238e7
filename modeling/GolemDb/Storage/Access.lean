import GolemDb.Storage.Memory
import GolemDb.Storage.Frame

/-!
A transaction seen from outside: the accesses a caller can make and the answers they get. Two
transactions with the same rows that keep the contract answer every sequence of accesses alike
(`run_eq`). Cursor moves are treated in both directions at once: the rows ahead of a place are the
rows on its far side, in the order of the direction.
-/

namespace GolemDb.Storage

open GolemDb.Lib

/-! ### Moves in a direction -/

section Moves

/-- The order of keys in a direction. -/
def Dir (forward : Bool) (a b : Bytes) : Prop := if forward then a < b else b < a

instance (forward : Bool) (a b : Bytes) : Decidable (Dir forward a b) := by
  unfold Dir
  infer_instance

lemma Dir.trans {forward : Bool} {a b c : Bytes} (h : Dir forward a b) (h' : Dir forward b c) :
    Dir forward a c := by
  cases forward with
  | true => exact lt_trans h h'
  | false => exact lt_trans h' h

lemma Dir.irrefl {forward : Bool} {a : Bytes} : ¬ Dir forward a a := by
  cases forward <;> exact lt_irrefl a

lemma Dir.total {forward : Bool} {a b : Bytes} (h : a ≠ b) : Dir forward a b ∨ Dir forward b a := by
  cases forward with
  | true => exact lt_or_gt_of_ne h
  | false => exact (lt_or_gt_of_ne h).symm

/-- A list of rows in the order of the direction. -/
def inOrder {α : Type} (forward : Bool) (l : List α) : List α := if forward then l else l.reverse

@[simp] lemma mem_inOrder {α : Type} {forward : Bool} {l : List α} {a : α} : a ∈ inOrder forward l ↔ a ∈ l := by
  cases forward <;> simp [inOrder]

lemma inOrder_sorted {α : Type} {f : α → Bytes} (forward : Bool) {l : List α}
    (h : l.Pairwise fun a b => f a < f b) : (inOrder forward l).Pairwise fun a b => Dir forward (f a) (f b) := by
  cases forward with
  | true => exact h
  | false => exact List.pairwise_reverse.mpr h

lemma inOrder_filter {α : Type} (forward : Bool) (l : List α) (q : α → Bool) :
    inOrder forward (l.filter q) = (inOrder forward l).filter q := by
  cases forward with
  | true => rfl
  | false => exact (List.filter_reverse ..).symm

/-- Whether a move from the place can reach the key. -/
def Position.reaches (forward : Bool) (p : Position) (key : Bytes) : Bool :=
  match p with
  | .key k => decide (k = key) || decide (Dir forward k key)
  | .at k => decide (Dir forward k key)
  | .before => forward
  | .after => !forward

/-- The rows that moves from a place reach, in their order. -/
def rowsAhead (forward : Bool) (r : Rows) (p : Position) : List Entry :=
  (inOrder forward r.entries).filter fun e => p.reaches forward e.1

/-- The row that a move reaches. -/
def rowMove (forward : Bool) (r : Rows) (p : Position) : Option Entry :=
  if forward then rowNext r p else rowPrev r p

/-- The place past the last row in a direction. -/
def Position.past (forward : Bool) : Position := if forward then .after else .before

lemma rowMove_eq (forward : Bool) (r : Rows) (p : Position) :
    rowMove forward r p = (rowsAhead forward r p).head? := by
  rw [rowsAhead, List.head?_filter]
  cases forward with
  | true =>
    cases p with
    | key k =>
      show r.entries.find? (fun e => decide (k ≤ e.1)) = r.entries.find? _
      congr 1
      funext e
      simp only [Position.reaches, Dir, if_true, ← Bool.decide_or, le_iff_eq_or_lt]
    | before =>
      show r.entries.head? = r.entries.find? fun _ => true
      cases r.entries <;> rfl
    | «at» k =>
      show r.firstGt k = r.entries.find? _
      rw [OrdMap.firstGt]
      congr 1
      funext e
      exact decide_eq_decide.mpr Iff.rfl
    | after =>
      show none = r.entries.find? fun _ => false
      exact (List.find?_eq_none.mpr (by simp)).symm
  | false =>
    cases p with
    | key k =>
      show r.entries.reverse.find? (fun e => decide (e.1 ≤ k)) = r.entries.reverse.find? _
      congr 1
      funext e
      simp only [Position.reaches, Dir, ← Bool.decide_or, le_iff_eq_or_lt, eq_comm,
        Bool.false_eq_true, if_false]
    | before =>
      show none = r.entries.reverse.find? fun _ => false
      exact (List.find?_eq_none.mpr (by simp)).symm
    | «at» k =>
      show r.lastLt k = r.entries.reverse.find? _
      rw [OrdMap.lastLt]
      congr 1
      funext e
      exact decide_eq_decide.mpr Iff.rfl
    | after =>
      show r.entries.getLast? = r.entries.reverse.find? fun _ => true
      rw [← List.head?_reverse]
      cases r.entries.reverse <;> rfl

lemma rowsAhead_sorted (forward : Bool) (r : Rows) (p : Position) :
    (rowsAhead forward r p).Pairwise fun a b => Dir forward a.1 b.1 :=
  (inOrder_sorted forward r.sorted).filter _

lemma mem_rowsAhead {forward : Bool} {r : Rows} {p : Position} {e : Entry} :
    e ∈ rowsAhead forward r p ↔ r.get? e.1 = some e.2 ∧ p.reaches forward e.1 = true := by
  rw [rowsAhead, List.mem_filter, mem_inOrder, OrdMap.mem_entries]

lemma rowsAhead_length_le (forward : Bool) (r : Rows) (p : Position) :
    (rowsAhead forward r p).length ≤ r.size := by
  refine (List.length_filter_le _ _).trans (le_of_eq ?_)
  cases forward <;> simp [inOrder, OrdMap.size]

/-- What lies beyond a key that a place reaches is reached too. -/
lemma Position.reaches_trans {forward : Bool} {p : Position} {a b : Bytes}
    (h : p.reaches forward a = true) (hab : Dir forward a b) : p.reaches forward b = true := by
  cases p with
  | key k =>
    simp only [reaches, Bool.or_eq_true, decide_eq_true_eq] at h ⊢
    rcases h with rfl | h
    · exact .inr hab
    · exact .inr (h.trans hab)
  | before => exact h
  | «at» k =>
    simp only [reaches, decide_eq_true_eq] at h ⊢
    exact h.trans hab
  | after => exact h

/-- After a row of an ordered list come the rows beyond it. -/
lemma filter_beyond {forward : Bool} {l : List Entry} (hl : l.Pairwise fun a b => Dir forward a.1 b.1)
    {q : Entry → Bool} {e : Entry} {rest : List Entry} (h : l.filter q = e :: rest)
    (hq : ∀ a b, q a = true → Dir forward a.1 b.1 → q b = true) :
    l.filter (fun x => decide (Dir forward e.1 x.1)) = rest := by
  induction l with
  | nil => simp at h
  | cons x l ih =>
    obtain ⟨hx, hl⟩ := List.pairwise_cons.mp hl
    by_cases hqx : q x = true
    · rw [List.filter_cons_of_pos hqx] at h
      obtain ⟨rfl, hrest⟩ := List.cons.inj h
      rw [List.filter_cons_of_neg (by simpa using Dir.irrefl), ← hrest]
      refine List.filter_congr fun y hy => ?_
      rw [hq x y hqx (hx y hy)]
      simpa using hx y hy
    · rw [List.filter_cons_of_neg hqx] at h
      have he : e ∈ l := List.mem_of_mem_filter (h ▸ List.mem_cons_self ..)
      have hnot : ¬ Dir forward e.1 x.1 := fun hex => Dir.irrefl (hex.trans (hx e he))
      rw [List.filter_cons_of_neg (by simpa using hnot), ih hl h]

/-- A move leaves the rest of the rows ahead. -/
lemma rowsAhead_settle (forward : Bool) (r : Rows) (p : Position) :
    rowsAhead forward r (settle (rowMove forward r p) (.past forward)) = (rowsAhead forward r p).tail := by
  rw [rowMove_eq]
  cases h : rowsAhead forward r p with
  | nil =>
    show rowsAhead forward r (.past forward) = []
    refine List.eq_nil_iff_forall_not_mem.mpr fun e he => ?_
    have := (mem_rowsAhead.mp he).2
    cases forward <;> cases this
  | cons e rest =>
    exact filter_beyond (inOrder_sorted forward r.sorted) h
      fun a b ha hab => Position.reaches_trans ha hab

/-- The first row of an ordered list is the one that all others lie beyond. -/
lemma head?_eq_some_iff {forward : Bool} {l : List Entry} (hl : l.Pairwise fun a b => Dir forward a.1 b.1)
    {e : Entry} : l.head? = some e ↔ e ∈ l ∧ ∀ x ∈ l, x = e ∨ Dir forward e.1 x.1 := by
  cases l with
  | nil => simp
  | cons y l =>
    obtain ⟨hy, -⟩ := List.pairwise_cons.mp hl
    rw [List.head?_cons, Option.some.injEq]
    constructor
    · rintro rfl
      refine ⟨List.mem_cons_self .., fun x hx => ?_⟩
      rcases List.mem_cons.mp hx with rfl | hx
      · exact .inl rfl
      · exact .inr (hy x hx)
    · rintro ⟨he, hleast⟩
      rcases List.mem_cons.mp he with rfl | he
      · rfl
      · rcases hleast y (List.mem_cons_self ..) with h | h
        · exact h
        · exact absurd (h.trans (hy e he)) Dir.irrefl

end Moves

/-- One move of a cursor. -/
def move {γ : Type} [ReadCursor γ] (forward : Bool) : Prog StorageError γ (Option Entry) :=
  if forward then ReadCursor.next else ReadCursor.prev

lemma LawfulCursor.move_eq {τ : Type} [ReadTransaction τ] [LawfulCursor τ]
    {c : ReadTransaction.Cursor τ} {r : Rows} {p : Position} (h : LawfulCursor.At c r p) (forward : Bool) :
    ∃ c', Prog.Runs (move forward) c (rowMove forward r p) c' ∧
      LawfulCursor.At c' r (settle (rowMove forward r p) (.past forward)) := by
  cases forward with
  | true => exact LawfulCursor.next_eq h
  | false => exact LawfulCursor.prev_eq h

/-! ### Accesses and answers -/

/-- What a caller asks of a transaction; a cursor is opened at a key and moved any number of times
in either direction. -/
inductive Access where
  | put (t : Table) (k v : Bytes)
  | insert (t : Table) (k v : Bytes)
  | delete (t : Table) (k : Bytes)
  | get (t : Table) (k : Bytes)
  | walk (t : Table) (k : Bytes) (moves : List Bool)

inductive Answer where
  | written (result : Except StorageError Unit)
  | deleted (result : Except StorageError Bool)
  | found (result : Except StorageError (Option Bytes))
  | walked (result : Except StorageError (List (Except StorageError (Option Entry))))

/-- The results of moving a cursor. -/
def moveAll {γ : Type} [ReadCursor γ] : List Bool → γ → List (Except StorageError (Option Entry))
  | [], _ => []
  | forward :: moves, c => ((move forward).exec c).1 :: moveAll moves ((move forward).exec c).2

section Run

variable {τ : Type} [WriteTransaction τ]

def Access.exec (tx : τ) : Access → Answer × τ
  | .put t k v =>
    let r := (WriteTransaction.put t k v).exec tx
    (.written r.1, r.2)
  | .insert t k v =>
    let r := (WriteTransaction.insert t k v).exec tx
    (.written r.1, r.2)
  | .delete t k =>
    let r := (WriteTransaction.delete t k).exec tx
    (.deleted r.1, r.2)
  | .get t k => (.found (ReadTransaction.get tx t k), tx)
  | .walk t k moves => (.walked ((ReadTransaction.cursor tx t k).map (moveAll moves)), tx)

/-- The answers to a sequence of accesses, and the transaction after it. -/
def run : List Access → τ → List Answer × τ
  | [], tx => ([], tx)
  | a :: accesses, tx =>
    let (answer, tx') := a.exec tx
    let (answers, tx'') := run accesses tx'
    (answer :: answers, tx'')

end Run

/-! ### The answers of ordered maps -/

/-- The rows that moves over a map reach. -/
def moveRows (r : Rows) : Position → List Bool → List (Except StorageError (Option Entry))
  | _, [] => []
  | p, forward :: moves =>
    .ok (rowMove forward r p) :: moveRows r (settle (rowMove forward r p) (.past forward)) moves

/-- The answer to an access when the tables are ordered maps, and the tables after it. -/
def Access.spec (tables : Table → Rows) : Access → Answer × (Table → Rows)
  | .put t k v => match t.validate with
    | .error e => (.written (.error e), tables)
    | .ok () => (.written (.ok ()), Function.update tables t ((tables t).insert k v))
  | .insert t k v => match t.validate with
    | .error e => (.written (.error e), tables)
    | .ok () =>
      if (tables t).contains k then (.written (.error .alreadyExists), tables)
      else (.written (.ok ()), Function.update tables t ((tables t).insert k v))
  | .delete t k => match t.validate with
    | .error e => (.deleted (.error e), tables)
    | .ok () => (.deleted (.ok ((tables t).contains k)), Function.update tables t ((tables t).erase k))
  | .get t k => match t.validate with
    | .error e => (.found (.error e), tables)
    | .ok () => (.found (.ok ((tables t).get? k)), tables)
  | .walk t k moves => match t.validate with
    | .error e => (.walked (.error e), tables)
    | .ok () => (.walked (.ok (moveRows (tables t) (.key k) moves)), tables)

/-- A transaction that keeps the whole contract and refuses invalid table names. -/
class LawfulTransaction (τ : Type) [WriteTransaction τ] extends LawfulCursor τ, LawfulWrite τ where
  put_invalid : ∀ {t : Table} {e : StorageError}, t.validate = .error e → ∀ (tx : τ) (k v : Bytes),
    Prog.exec (WriteTransaction.put t k v) tx = (.error e, tx)
  insert_invalid : ∀ {t : Table} {e : StorageError}, t.validate = .error e → ∀ (tx : τ) (k v : Bytes),
    Prog.exec (WriteTransaction.insert t k v) tx = (.error e, tx)
  delete_invalid : ∀ {t : Table} {e : StorageError}, t.validate = .error e → ∀ (tx : τ) (k : Bytes),
    Prog.exec (WriteTransaction.delete t k) tx = (.error e, tx)
  get_invalid : ∀ {t : Table} {e : StorageError}, t.validate = .error e → ∀ (tx : τ) (k : Bytes),
    ReadTransaction.get tx t k = .error e
  cursor_invalid : ∀ {t : Table} {e : StorageError}, t.validate = .error e → ∀ (tx : τ) (k : Bytes),
    ReadTransaction.cursor tx t k = .error e

section Lawful

variable {τ : Type} [WriteTransaction τ] [LawfulTransaction τ]

lemma moveAll_eq {r : Rows} : ∀ (moves : List Bool) (p : Position) (c : ReadTransaction.Cursor τ),
    LawfulCursor.At c r p → moveAll moves c = moveRows r p moves := by
  intro moves
  induction moves with
  | nil => intro p c _; rfl
  | cons forward moves ih =>
    intro p c hat
    obtain ⟨c', hmove, hat'⟩ := LawfulCursor.move_eq hat forward
    have hexec : (move forward).exec c = (.ok (rowMove forward r p), c') := hmove
    rw [moveAll, moveRows, hexec, ih _ c' hat']

/-- **An access is answered from the rows**, and leaves the rows the access makes. -/
theorem exec_spec (tx : τ) (a : Access) :
    (a.exec tx).1 = (a.spec (rows tx)).1 ∧ rows (a.exec tx).2 = (a.spec (rows tx)).2 := by
  cases a with
  | put t k v =>
    cases ht : t.validate with
    | error e => simp only [Access.exec, Access.spec, ht, LawfulTransaction.put_invalid ht, and_self]
    | ok u =>
      obtain ⟨tx', hrun, hrows⟩ := LawfulWrite.put_eq ht tx k v
      have hexec : (WriteTransaction.put t k v).exec tx = (.ok (), tx') := hrun
      simp only [Access.exec, Access.spec, ht, hexec]
      exact ⟨trivial, hrows⟩
  | insert t k v =>
    cases ht : t.validate with
    | error e => simp only [Access.exec, Access.spec, ht, LawfulTransaction.insert_invalid ht, and_self]
    | ok u =>
      simp only [Access.exec, Access.spec, ht]
      by_cases hk : (rows tx t).get? k = none
      · obtain ⟨tx', hrun, hrows⟩ := LawfulWrite.insert_eq ht tx k v hk
        have hexec : (WriteTransaction.insert t k v).exec tx = (.ok (), tx') := hrun
        rw [hexec, OrdMap.contains, hk]
        exact ⟨rfl, hrows⟩
      · obtain ⟨tx', hexec, hrows⟩ := LawfulWrite.insert_exists ht tx k v hk
        rw [hexec, OrdMap.contains, Option.isSome_iff_ne_none.mpr hk]
        exact ⟨rfl, hrows⟩
  | delete t k =>
    cases ht : t.validate with
    | error e => simp only [Access.exec, Access.spec, ht, LawfulTransaction.delete_invalid ht, and_self]
    | ok u =>
      obtain ⟨tx', hrun, hrows⟩ := LawfulWrite.delete_eq ht tx k
      have hexec : (WriteTransaction.delete t k).exec tx = (.ok ((rows tx t).contains k), tx') := hrun
      simp only [Access.exec, Access.spec, ht, hexec]
      exact ⟨trivial, hrows⟩
  | get t k =>
    cases ht : t.validate with
    | error e => simp only [Access.exec, Access.spec, ht, LawfulTransaction.get_invalid ht, and_self]
    | ok u => simp only [Access.exec, Access.spec, ht, LawfulRead.get_eq ht, and_self]
  | walk t k moves =>
    cases ht : t.validate with
    | error e =>
      simp only [Access.exec, Access.spec, ht, LawfulTransaction.cursor_invalid ht, Except.map, and_self]
    | ok u =>
      obtain ⟨c, hc, hat⟩ := LawfulCursor.cursor_eq ht tx k
      simp only [Access.exec, Access.spec, ht, hc, Except.map, moveAll_eq moves _ c hat, and_self]

/-- **Transactions with the same rows cannot be told apart.** -/
theorem run_eq {τ' : Type} [WriteTransaction τ'] [LawfulTransaction τ'] :
    ∀ (accesses : List Access) (tx : τ) (tx' : τ'), rows tx = rows tx' →
      (run accesses tx).1 = (run accesses tx').1 ∧ rows (run accesses tx).2 = rows (run accesses tx').2 := by
  intro accesses
  induction accesses with
  | nil => exact fun tx tx' h => ⟨rfl, h⟩
  | cons a accesses ih =>
    intro tx tx' h
    obtain ⟨h1, h2⟩ := exec_spec tx a
    obtain ⟨h1', h2'⟩ := exec_spec tx' a
    rw [h] at h1 h2
    obtain ⟨hrest, hrows⟩ := ih (a.exec tx).2 (a.exec tx').2 (h2.trans h2'.symm)
    refine ⟨?_, hrows⟩
    show (a.exec tx).1 :: (run accesses (a.exec tx).2).1 = (a.exec tx').1 :: (run accesses (a.exec tx').2).1
    rw [h1, h1', hrest]

/-- Accesses keep a frame that allows every table with a valid name. -/
lemma run_keeps {F : Prog.Frame τ} (hF : ∀ t : Table, t.validate = .ok () → Allows F t) :
    ∀ (accesses : List Access) (tx : τ), F.rel tx (run accesses tx).2 := by
  have hexec : ∀ (a : Access) (tx : τ), F.rel tx (a.exec tx).2 := by
    intro a tx
    cases a with
    | put t k v =>
      cases ht : t.validate with
      | error e =>
        simp only [Access.exec, LawfulTransaction.put_invalid ht]
        exact F.refl tx
      | ok u => exact (hF t ht).put k v tx
    | insert t k v =>
      cases ht : t.validate with
      | error e =>
        simp only [Access.exec, LawfulTransaction.insert_invalid ht]
        exact F.refl tx
      | ok u => exact (hF t ht).insert k v tx
    | delete t k =>
      cases ht : t.validate with
      | error e =>
        simp only [Access.exec, LawfulTransaction.delete_invalid ht]
        exact F.refl tx
      | ok u => exact (hF t ht).delete k tx
    | get t k => exact F.refl tx
    | walk t k moves => exact F.refl tx
  intro accesses
  induction accesses with
  | nil => exact fun tx => F.refl tx
  | cons a accesses ih => exact fun tx => F.trans (hexec a tx) (ih (a.exec tx).2)

end Lawful

instance : LawfulTransaction MemoryWriteTransaction where
  toLawfulCursor := inferInstanceAs (LawfulCursor MemoryWriteTransaction)
  put_eq := LawfulWrite.put_eq
  insert_eq := LawfulWrite.insert_eq
  insert_exists := LawfulWrite.insert_exists
  delete_eq := LawfulWrite.delete_eq
  put_invalid {t e} ht tx k v := by
    show MemoryWriteTransaction.put t k v tx = _
    rw [MemoryWriteTransaction.put, ht]
  insert_invalid {t e} ht tx k v := by
    show MemoryWriteTransaction.insert t k v tx = _
    rw [MemoryWriteTransaction.insert, ht]
  delete_invalid {t e} ht tx k := by
    show MemoryWriteTransaction.delete t k tx = _
    rw [MemoryWriteTransaction.delete, ht]
  get_invalid {t e} ht tx k := by
    show tx.state.get t k = _
    rw [State.get, State.rows, ht]
    rfl
  cursor_invalid {t e} ht tx k := by
    show tx.state.cursor t k = _
    rw [State.cursor, State.rows, ht]
    rfl

end GolemDb.Storage
