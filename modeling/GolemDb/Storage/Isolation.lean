import GolemDb.Storage.Memory

/-!
Isolation of the in-memory backend. Readers and writers take their steps in any order; beginning a
writer is two steps, since the writer lock is taken before the committed state is copied, and so is
a commit, since the lock is released after the state is published. `Ledger` is the bookkeeping of
what should be seen: the write sets committed so far, in order, how many of them each reader began
after, and each writer's own writes. Every answer of a run is the ledger's (`isolated`).
-/

namespace GolemDb.Storage

open GolemDb.Lib

/-! ### Operations and their meaning on rows -/

inductive ReadOp where
  | get (t : Table) (k : Bytes)
  /-- Open a cursor and move it; `true` is forward. -/
  | walk (t : Table) (k : Bytes) (moves : List Bool)

inductive WriteOp where
  | put (t : Table) (k v : Bytes)
  | insert (t : Table) (k v : Bytes)
  | delete (t : Table) (k : Bytes)

/-- The answer of an operation. -/
inductive Output where
  | none
  | got (r : Except StorageError (Option Bytes))
  | walked (r : Except StorageError (List (Option Entry)))
  | wrote (r : Except StorageError Unit)
  | deleted (r : Except StorageError Bool)
deriving DecidableEq

/-- The rows a cursor returns on its moves. -/
def walkRows (r : Rows) : Position → List Bool → List (Option Entry)
  | _, [] => []
  | p, true :: moves => rowNext r p :: walkRows r (settle (rowNext r p) .after) moves
  | p, false :: moves => rowPrev r p :: walkRows r (settle (rowPrev r p) .before) moves

/-- What a read of these tables answers. -/
def ReadOp.answer (r : Table → Rows) : ReadOp → Output
  | get t k => .got (t.validate.map fun _ => (r t).get? k)
  | walk t k moves => .walked (t.validate.map fun _ => walkRows (r t) (.key k) moves)

/-- What a write to these tables answers. -/
def WriteOp.answer (r : Table → Rows) : WriteOp → Output
  | put t _ _ => .wrote t.validate
  | insert t k _ => .wrote (t.validate.bind fun _ => if (r t).contains k then .error .alreadyExists else .ok ())
  | delete t k => .deleted (t.validate.map fun _ => (r t).contains k)

/-- The tables after a write; a name that is not valid, or an insert over a row, changes nothing. -/
def WriteOp.apply (r : Table → Rows) : WriteOp → Table → Rows
  | put t k v => if t.validate = .ok () then Function.update r t ((r t).insert k v) else r
  | insert t k v =>
    if t.validate = .ok () ∧ (r t).contains k = false then Function.update r t ((r t).insert k v) else r
  | delete t k => if t.validate = .ok () then Function.update r t ((r t).erase k) else r

/-- The tables after a write set. -/
def applyAll (r : Table → Rows) (ops : List WriteOp) : Table → Rows := ops.foldl WriteOp.apply r

/-- **The sequential composition of write sets.** -/
def composed (r : Table → Rows) (commits : List (List WriteOp)) : Table → Rows := commits.foldl applyAll r

lemma applyAll_append (r : Table → Rows) (ops : List WriteOp) (op : WriteOp) :
    applyAll r (ops ++ [op]) = op.apply (applyAll r ops) := by
  rw [applyAll, List.foldl_append]
  rfl

lemma composed_append (r : Table → Rows) (commits : List (List WriteOp)) (ops : List WriteOp) :
    composed r (commits ++ [ops]) = applyAll (composed r commits) ops := by
  rw [composed, List.foldl_append]
  rfl

/-! ### The backend's answers -/

/-- Move a cursor. -/
def MemoryCursor.walk : MemoryCursor → List Bool → Except StorageError (List (Option Entry))
  | _, [] => .ok []
  | c, true :: moves =>
    match next c with
    | (.ok row, c) => (c.walk moves).map (row :: ·)
    | (.error e, _) => .error e
  | c, false :: moves =>
    match prev c with
    | (.ok row, c) => (c.walk moves).map (row :: ·)
    | (.error e, _) => .error e

/-- A read of either transaction. -/
def State.read (state : State) : ReadOp → Output
  | .get t k => .got (state.get t k)
  | .walk t k moves => .walked ((state.cursor t k).bind fun c => c.walk moves)

def MemoryWriteTransaction.write (tx : MemoryWriteTransaction) : WriteOp → MemoryWriteTransaction × Output
  | .put t k v => ((put t k v tx).2, .wrote (put t k v tx).1)
  | .insert t k v => ((insert t k v tx).2, .wrote (insert t k v tx).1)
  | .delete t k => ((delete t k tx).2, .deleted (delete t k tx).1)

lemma MemoryCursor.walk_eq {r : Rows} : ∀ (moves : List Bool) {c : MemoryCursor} {p : Position}, c.At r p →
    c.walk moves = .ok (walkRows r p moves) := by
  intro moves
  induction moves with
  | nil => exact fun _ => rfl
  | cons forward moves ih =>
    intro c p h
    cases forward with
    | true =>
      obtain ⟨c', hrun, hat⟩ := next_at h
      have hn : next c = (.ok (rowNext r p), c') := hrun
      rw [walk, hn]
      simp only [ih hat]
      rfl
    | false =>
      obtain ⟨c', hrun, hat⟩ := prev_at h
      have hn : prev c = (.ok (rowPrev r p), c') := hrun
      rw [walk, hn]
      simp only [ih hat]
      rfl

/-- A transaction's reads are the reads of its tables. -/
lemma State.read_eq (state : State) (q : ReadOp) : state.read q = q.answer state.rowsOf := by
  cases q with
  | get t k =>
    show Output.got (state.get t k) = .got (t.validate.map fun _ => (state.rowsOf t).get? k)
    cases ht : t.validate with
    | ok u =>
      rw [State.get_eq ht]
      rfl
    | error e =>
      unfold State.get State.rows
      rw [ht]
      rfl
  | walk t k moves =>
    show Output.walked ((state.cursor t k).bind fun c => c.walk moves)
      = .walked (t.validate.map fun _ => walkRows (state.rowsOf t) (.key k) moves)
    cases ht : t.validate with
    | ok u =>
      obtain ⟨c, hc, hat⟩ := State.cursor_eq _ ht k
      rw [hc]
      show Output.walked (c.walk moves) = _
      rw [MemoryCursor.walk_eq moves hat]
      rfl
    | error e =>
      unfold State.cursor State.rows
      rw [ht]
      rfl

/-- A writer's writes are the writes of its tables. -/
lemma MemoryWriteTransaction.write_eq (tx : MemoryWriteTransaction) (op : WriteOp) :
    (tx.write op).2 = op.answer tx.state.rowsOf ∧
      (tx.write op).1.state.rowsOf = op.apply tx.state.rowsOf := by
  cases op with
  | put t k v =>
    unfold write put WriteOp.answer WriteOp.apply
    cases ht : t.validate with
    | error e => simp [ht]
    | ok u =>
      simp only [ht, if_true, true_and]
      exact tx.rowsOf_setRows t _
  | insert t k v =>
    unfold write insert WriteOp.answer WriteOp.apply
    cases ht : t.validate with
    | error e => simp [ht, Except.bind]
    | ok u =>
      cases hk : (tx.state.rowsOf t).contains k with
      | true =>
        simp only [ht, hk, if_true, Except.bind, true_and, reduceCtorEq, and_false, if_false]
        rw [tx.rowsOf_setRows, Function.update_eq_self]
      | false =>
        simp only [ht, hk, Bool.false_eq_true, if_false, Except.bind, true_and, and_self, if_true]
        exact tx.rowsOf_setRows t _
  | delete t k =>
    show Output.deleted (delete t k tx).1 = .deleted (t.validate.map fun _ => (tx.state.rowsOf t).contains k) ∧
      (delete t k tx).2.state.rowsOf = if t.validate = .ok () then
        Function.update tx.state.rowsOf t ((tx.state.rowsOf t).erase k) else tx.state.rowsOf
    cases ht : t.validate with
    | error e =>
      unfold delete
      rw [ht]
      simp [Except.map]
    | ok u =>
      obtain ⟨tx', hrun, hrows⟩ := LawfulWrite.delete_eq ht tx k
      have hd : delete t k tx = (.ok ((tx.state.rowsOf t).contains k), tx') := hrun
      rw [hd, if_pos rfl]
      exact ⟨rfl, hrows⟩

/-! ### Steps of many readers and writers -/

/-- What a writer is doing. -/
inductive Phase where
  | idle
  /-- It owns the writer lock and has not copied the committed state yet. -/
  | owner
  | active (tx : MemoryWriteTransaction)
  /-- It has published and still owns the lock. -/
  | published

/-- A step of one reader or writer. -/
inductive Event where
  | beginRead (r : ℕ)
  | read (r : ℕ) (q : ReadOp)
  | dropRead (r : ℕ)
  /-- `begin_write` takes the writer lock, then copies the committed state. -/
  | lockWrite (w : ℕ)
  | copyWrite (w : ℕ)
  | readWrite (w : ℕ) (q : ReadOp)
  | write (w : ℕ) (op : WriteOp)
  /-- `commit` publishes, then drops the guard of the writer lock. -/
  | publish (w : ℕ)
  | release (w : ℕ)
  /-- `abort`, or a transaction that is dropped. -/
  | abort (w : ℕ)

/-- The store, its writer lock and the live transactions. -/
structure System where
  store : MemoryStore
  lock : Option ℕ
  readers : ℕ → Option MemoryReadTransaction
  writers : ℕ → Phase

namespace System

/-- A store nobody is using. -/
def start (store : MemoryStore) : System := ⟨store, none, fun _ => none, fun _ => .idle⟩

/-- One step; none where the step is not enabled. A writer waits for the lock by not stepping. -/
def step (s : System) : Event → Option (System × Output)
  | .beginRead r =>
    match s.readers r with
    | none => some ({ s with readers := Function.update s.readers r (some s.store.beginRead) }, .none)
    | some _ => none
  | .read r q => (s.readers r).map fun tx => (s, tx.state.read q)
  | .dropRead r => (s.readers r).map fun _ => ({ s with readers := Function.update s.readers r none }, .none)
  | .lockWrite w =>
    match s.lock, s.writers w with
    | none, .idle => some ({ s with lock := some w, writers := Function.update s.writers w .owner }, .none)
    | _, _ => none
  | .copyWrite w =>
    match s.writers w with
    | .owner => some ({ s with writers := Function.update s.writers w (.active s.store.beginWrite) }, .none)
    | _ => none
  | .readWrite w q =>
    match s.writers w with
    | .active tx => some (s, tx.state.read q)
    | _ => none
  | .write w op =>
    match s.writers w with
    | .active tx => some ({ s with writers := Function.update s.writers w (.active (tx.write op).1) }, (tx.write op).2)
    | _ => none
  | .publish w =>
    match s.writers w with
    | .active tx =>
      some ({ s with store := s.store.commit tx, writers := Function.update s.writers w .published }, .none)
    | _ => none
  | .release w =>
    match s.writers w with
    | .published => some ({ s with lock := none, writers := Function.update s.writers w .idle }, .none)
    | _ => none
  | .abort w =>
    match s.writers w with
    | .active _ => some ({ s with lock := none, writers := Function.update s.writers w .idle }, .none)
    | _ => none

/-- Steps in order, with their answers. -/
def run : List Event → System → Option (System × List Output)
  | [], s => some (s, [])
  | e :: events, s =>
    match s.step e with
    | none => none
    | some (s, out) => (run events s).map fun p => (p.1, out :: p.2)

end System

/-! ### What should be seen -/

/-- The bookkeeping of a run. -/
structure Ledger where
  /-- The write sets of the committed writers, in commit order. -/
  commits : List (List WriteOp)
  /-- How many commits there were when a reader began. -/
  began : ℕ → ℕ
  /-- The writes of each writer since it began. -/
  own : ℕ → List WriteOp

namespace Ledger

def start : Ledger := ⟨[], fun _ => 0, fun _ => []⟩

def step (l : Ledger) : Event → Ledger
  | .beginRead r => { l with began := Function.update l.began r l.commits.length }
  | .copyWrite w => { l with own := Function.update l.own w [] }
  | .write w op => { l with own := Function.update l.own w (l.own w ++ [op]) }
  | .publish w => { l with commits := l.commits ++ [l.own w] }
  | _ => l

/-- **The committed state**: the write sets of the committed writers, composed in commit order. -/
def committed (base : Table → Rows) (l : Ledger) : Table → Rows := composed base l.commits

/-- **What a reader sees**: the state committed when it began. -/
def seen (base : Table → Rows) (l : Ledger) (r : ℕ) : Table → Rows := composed base (l.commits.take (l.began r))

/-- **What a writer sees**: the latest committed state with its own writes. -/
def working (base : Table → Rows) (l : Ledger) (w : ℕ) : Table → Rows := applyAll (l.committed base) (l.own w)

/-- The answer of a step. -/
def answer (base : Table → Rows) (l : Ledger) : Event → Output
  | .read r q => q.answer (l.seen base r)
  | .readWrite w q => q.answer (l.working base w)
  | .write w op => op.answer (l.working base w)
  | _ => .none

/-- The bookkeeping and the answers of a run. -/
def run (base : Table → Rows) : List Event → Ledger → Ledger × List Output
  | [], l => (l, [])
  | e :: events, l => ((run base events (l.step e)).1, l.answer base e :: (run base events (l.step e)).2)

end Ledger

/-! ### Every run is isolated -/

/-- The system and its bookkeeping agree, and the writer lock is the only writer's. -/
structure Agrees (base : Table → Rows) (s : System) (l : Ledger) : Prop where
  committed : s.store.committed.rowsOf = l.committed base
  readers : ∀ r tx, s.readers r = some tx → tx.state.rowsOf = l.seen base r ∧ l.began r ≤ l.commits.length
  writers : ∀ w tx, s.writers w = .active tx → tx.state.rowsOf = l.working base w
  lock : ∀ w, s.writers w ≠ .idle → s.lock = some w

lemma agrees_start (store : MemoryStore) : Agrees store.committed.rowsOf (System.start store) Ledger.start :=
  ⟨rfl, nofun, nofun, fun _ h => absurd rfl h⟩

section Step

variable {base : Table → Rows} {s s' : System} {l : Ledger} {e : Event} {out : Output}

/-- Two writers that are not idle are one. -/
lemma Agrees.only (h : Agrees base s l) {w w' : ℕ} (hw : s.writers w ≠ .idle) (hw' : s.writers w' ≠ .idle) : w = w' :=
  Option.some.inj ((h.lock w hw).symm.trans (h.lock w' hw'))

/-- The others are unchanged by a step of one writer. -/
lemma Agrees.setWriter (h : Agrees base s l) {w : ℕ} {phase : Phase} {lock : Option ℕ}
    (hlock : ∀ w', w' ≠ w → s.writers w' ≠ .idle → lock = some w') (hown : phase ≠ .idle → lock = some w)
    (hactive : ∀ tx, phase = .active tx → tx.state.rowsOf = l.working base w) :
    Agrees base { s with lock := lock, writers := Function.update s.writers w phase } l := by
  refine ⟨h.committed, h.readers, fun w' tx hw' => ?_, fun w' hw' => ?_⟩
  · simp only at hw'
    by_cases he : w' = w
    · subst he
      rw [Function.update_self] at hw'
      exact hactive tx hw'
    · rw [Function.update_of_ne he] at hw'
      exact h.writers w' tx hw'
  · simp only at hw' ⊢
    by_cases he : w' = w
    · subst he
      rw [Function.update_self] at hw'
      exact hown hw'
    · rw [Function.update_of_ne he] at hw'
      exact hlock w' he hw'

/-- **One step** answers as the ledger says, and the two still agree. -/
theorem Agrees.step (h : Agrees base s l) (hs : s.step e = some (s', out)) :
    out = l.answer base e ∧ Agrees base s' (l.step e) := by
  cases e with
  | beginRead r =>
    simp only [System.step] at hs
    split at hs
    · obtain ⟨rfl, rfl⟩ := Prod.mk.inj (Option.some.inj hs)
      refine ⟨rfl, h.committed, fun r' tx hr => ?_, h.writers, h.lock⟩
      simp only [Ledger.step, Ledger.seen] at hr ⊢
      by_cases he : r' = r
      · subst he
        rw [Function.update_self] at hr ⊢
        obtain rfl := Option.some.inj hr
        rw [List.take_length]
        exact ⟨h.committed, le_rfl⟩
      · rw [Function.update_of_ne he] at hr ⊢
        exact h.readers r' tx hr
    · cases hs
  | read r q =>
    obtain ⟨tx, hr, heq⟩ := Option.map_eq_some_iff.mp hs
    obtain ⟨rfl, rfl⟩ := Prod.mk.inj heq
    refine ⟨?_, h⟩
    rw [State.read_eq, (h.readers r tx hr).1]
    rfl
  | dropRead r =>
    obtain ⟨tx, hr, heq⟩ := Option.map_eq_some_iff.mp hs
    obtain ⟨rfl, rfl⟩ := Prod.mk.inj heq
    refine ⟨rfl, h.committed, fun r' tx' hr' => ?_, h.writers, h.lock⟩
    simp only at hr'
    by_cases he : r' = r
    · subst he
      rw [Function.update_self] at hr'
      cases hr'
    · rw [Function.update_of_ne he] at hr'
      exact h.readers r' tx' hr'
  | lockWrite w =>
    simp only [System.step] at hs
    split at hs
    · rename_i hl hw
      obtain ⟨rfl, rfl⟩ := Prod.mk.inj (Option.some.inj hs)
      refine ⟨rfl, h.setWriter (fun w' _ hw' => ?_) (fun _ => rfl) nofun⟩
      have hlock := h.lock w' hw'
      rw [hl] at hlock
      cases hlock
    · cases hs
  | copyWrite w =>
    simp only [System.step] at hs
    split at hs
    · rename_i hw
      obtain ⟨rfl, rfl⟩ := Prod.mk.inj (Option.some.inj hs)
      have hlock := h.lock w (by rw [hw]; nofun)
      refine ⟨rfl, h.committed, h.readers, fun w' tx hw' => ?_, fun w' hw' => ?_⟩
      · simp only [Ledger.step, Ledger.working] at hw' ⊢
        by_cases he : w' = w
        · subst he
          rw [Function.update_self] at hw' ⊢
          cases hw'
          exact h.committed
        · rw [Function.update_of_ne he] at hw' ⊢
          exact h.writers w' tx hw'
      · simp only at hw' ⊢
        by_cases he : w' = w
        · rw [he]
          exact hlock
        · rw [Function.update_of_ne he] at hw'
          exact h.lock w' hw'
    · cases hs
  | readWrite w q =>
    simp only [System.step] at hs
    split at hs
    · rename_i tx hw
      obtain ⟨rfl, rfl⟩ := Prod.mk.inj (Option.some.inj hs)
      refine ⟨?_, h⟩
      rw [State.read_eq, h.writers w tx hw]
      rfl
    · cases hs
  | write w op =>
    simp only [System.step] at hs
    split at hs
    · rename_i tx hw
      obtain ⟨rfl, rfl⟩ := Prod.mk.inj (Option.some.inj hs)
      obtain ⟨hanswer, hrows⟩ := tx.write_eq op
      rw [h.writers w tx hw] at hanswer hrows
      have hlock := h.lock w (by rw [hw]; nofun)
      refine ⟨hanswer, h.committed, h.readers, fun w' tx' hw' => ?_, fun w' hw' => ?_⟩
      · simp only [Ledger.step, Ledger.working] at hw' ⊢
        by_cases he : w' = w
        · subst he
          rw [Function.update_self] at hw' ⊢
          cases hw'
          rw [applyAll_append]
          exact hrows
        · rw [Function.update_of_ne he] at hw' ⊢
          exact h.writers w' tx' hw'
      · simp only at hw' ⊢
        by_cases he : w' = w
        · rw [he]
          exact hlock
        · rw [Function.update_of_ne he] at hw'
          exact h.lock w' hw'
    · cases hs
  | publish w =>
    simp only [System.step] at hs
    split at hs
    · rename_i tx hw
      obtain ⟨rfl, rfl⟩ := Prod.mk.inj (Option.some.inj hs)
      have hbusy : s.writers w ≠ .idle := by rw [hw]; nofun
      refine ⟨rfl, ?_, fun r tx' hr => ?_, fun w' tx' hw' => ?_, fun w' hw' => ?_⟩
      · show tx.state.rowsOf = composed base (l.commits ++ [l.own w])
        rw [composed_append]
        exact h.writers w tx hw
      · obtain ⟨hseen, hle⟩ := h.readers r tx' hr
        refine ⟨?_, ?_⟩
        · show tx'.state.rowsOf = composed base ((l.commits ++ [l.own w]).take (l.began r))
          rw [List.take_append_of_le_length hle]
          exact hseen
        · show l.began r ≤ (l.commits ++ [l.own w]).length
          rw [List.length_append]
          exact Nat.le_add_right_of_le hle
      · -- a second active writer would own the lock
        simp only at hw'
        by_cases he : w' = w
        · subst he
          rw [Function.update_self] at hw'
          cases hw'
        · rw [Function.update_of_ne he] at hw'
          exact absurd (h.only (by rw [hw']; nofun) hbusy) he
      · simp only at hw' ⊢
        by_cases he : w' = w
        · rw [he]
          exact h.lock w hbusy
        · rw [Function.update_of_ne he] at hw'
          exact h.lock w' hw'
    · cases hs
  | release w =>
    simp only [System.step] at hs
    split at hs
    · rename_i hw
      obtain ⟨rfl, rfl⟩ := Prod.mk.inj (Option.some.inj hs)
      refine ⟨rfl, h.setWriter (fun w' hne hw' => ?_) (fun hi => absurd rfl hi) nofun⟩
      exact absurd (h.only hw' (by rw [hw]; nofun)) hne
    · cases hs
  | abort w =>
    simp only [System.step] at hs
    split at hs
    · rename_i tx hw
      obtain ⟨rfl, rfl⟩ := Prod.mk.inj (Option.some.inj hs)
      refine ⟨rfl, h.setWriter (fun w' hne hw' => ?_) (fun hi => absurd rfl hi) nofun⟩
      exact absurd (h.only hw' (by rw [hw]; nofun)) hne
    · cases hs

/-- Steps in order answer as the ledger says. -/
lemma Agrees.run : ∀ (events : List Event) {s s' : System} {l : Ledger} {outs : List Output}, Agrees base s l →
    System.run events s = some (s', outs) →
    outs = (Ledger.run base events l).2 ∧ Agrees base s' (Ledger.run base events l).1 := by
  intro events
  induction events with
  | nil =>
    intro s s' l outs h hrun
    obtain ⟨rfl, rfl⟩ := Prod.mk.inj (Option.some.inj hrun)
    exact ⟨rfl, h⟩
  | cons e events ih =>
    intro s s' l outs h hrun
    simp only [System.run] at hrun
    split at hrun
    · cases hrun
    · rename_i s₁ out hstep
      obtain ⟨hout, h₁⟩ := h.step hstep
      obtain ⟨p, hrest, heq⟩ := Option.map_eq_some_iff.mp hrun
      obtain ⟨rfl, rfl⟩ := Prod.mk.inj heq
      obtain ⟨houts, h'⟩ := ih h₁ hrest
      exact ⟨by rw [hout, houts]; rfl, h'⟩

end Step

/-- **Transactions are isolated.** In every run, from a store nobody is using, every answer is the
ledger's; the committed state is the composition of the committed writers' write sets in commit
order; a live reader holds the state committed when it began, a live writer the latest committed
state with its own writes, and there is at most one writer. -/
theorem isolated (store : MemoryStore) (events : List Event) {s : System} {outs : List Output}
    (hrun : System.run events (System.start store) = some (s, outs)) :
    outs = (Ledger.run (tables store) events Ledger.start).2 ∧
      tables s.store = (Ledger.run (tables store) events Ledger.start).1.committed (tables store) ∧
      (∀ r tx, s.readers r = some tx →
        rows tx = (Ledger.run (tables store) events Ledger.start).1.seen (tables store) r) ∧
      (∀ w tx, s.writers w = .active tx →
        tx.state.rowsOf = (Ledger.run (tables store) events Ledger.start).1.working (tables store) w) ∧
      ∀ w w', s.writers w ≠ .idle → s.writers w' ≠ .idle → w = w' := by
  obtain ⟨houts, h⟩ := Agrees.run events (agrees_start store) hrun
  exact ⟨houts, h.committed, fun r tx hr => (h.readers r tx hr).1, h.writers, fun _ _ => h.only⟩

/-- A writer commits while a reader that began before it is alive. -/
def demoEvents : List Event :=
  [.beginRead 0, .lockWrite 0, .copyWrite 0, .write 0 (.put ⟨"T"⟩ [1] [2]), .readWrite 0 (.get ⟨"T"⟩ [1]), .publish 0,
    .read 0 (.get ⟨"T"⟩ [1]), .beginRead 1, .read 1 (.get ⟨"T"⟩ [1]), .release 0]

theorem isolated_demo : ∃ s outs, System.run demoEvents (System.start MemoryStore.new) = some (s, outs) ∧
    outs = [.none, .none, .none, .wrote (.ok ()), .got (.ok (some [2])), .none, .got (.ok none), .none,
      .got (.ok (some [2])), .none] ∧
    outs = (Ledger.run (tables MemoryStore.new) demoEvents Ledger.start).2 := by
  have houts : (System.run demoEvents (System.start MemoryStore.new)).map Prod.snd = some
      [.none, .none, .none, .wrote (.ok ()), .got (.ok (some [2])), .none, .got (.ok none), .none,
        .got (.ok (some [2])), .none] := by decide +kernel
  obtain ⟨⟨s, outs⟩, hrun, rfl⟩ := Option.map_eq_some_iff.mp houts
  exact ⟨s, _, hrun, rfl, (isolated MemoryStore.new demoEvents hrun).1⟩

end GolemDb.Storage
