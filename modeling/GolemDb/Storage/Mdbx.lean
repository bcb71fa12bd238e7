import GolemDb.Storage.Access
import GolemDb.Storage.Limited

/-!
The cursor of the MDBX adapter. The native cursor seeks a key, moves from the row it stands on and
goes to either end; the adapter remembers whether it has started and past which end it ran. Over a
native cursor that behaves as documented the adapter's moves are those of the memory cursor
(`cursor_agrees`).
-/

namespace GolemDb.Storage

open GolemDb.Lib

/-! ### The native cursor -/

/-- The errors of the native library that the adapter tells apart. -/
inductive NativeError where
  | mapFull
  | keyExist
  | other (text : String)
deriving DecidableEq

def backend : NativeError → StorageError
  | .mapFull => .full
  | .keyExist => .alreadyExists
  | .other text => .backend text

/-- The primitives of a native cursor. -/
class NativeCursor (κ : Type) where
  /-- Go to the least key that is not below the argument. -/
  setRange : Bytes → Prog NativeError κ (Option Entry)
  first : Prog NativeError κ (Option Entry)
  last : Prog NativeError κ (Option Entry)
  next : Prog NativeError κ (Option Entry)
  prev : Prog NativeError κ (Option Entry)

/-- The native cursor on a table of unique keys in byte order: `Stands c r k` says that `c` is over the
rows `r`, on the row of `k` if a key is given. -/
class LawfulNativeCursor (κ : Type) [NativeCursor κ] where
  Stands : κ → Rows → Option Bytes → Prop
  setRange_eq : ∀ {c : κ} {r : Rows} {at' : Option Bytes}, Stands c r at' → ∀ k : Bytes,
    ∃ c', Prog.Runs (NativeCursor.setRange k) c (r.firstGe k) c' ∧ Stands c' r ((r.firstGe k).map Prod.fst)
  first_eq : ∀ {c : κ} {r : Rows} {at' : Option Bytes}, Stands c r at' →
    ∃ c', Prog.Runs NativeCursor.first c r.entries.head? c' ∧ Stands c' r (r.entries.head?.map Prod.fst)
  last_eq : ∀ {c : κ} {r : Rows} {at' : Option Bytes}, Stands c r at' →
    ∃ c', Prog.Runs NativeCursor.last c r.entries.getLast? c' ∧ Stands c' r (r.entries.getLast?.map Prod.fst)
  next_eq : ∀ {c : κ} {r : Rows} {k : Bytes}, Stands c r (some k) →
    ∃ c', Prog.Runs NativeCursor.next c (r.firstGt k) c' ∧ Stands c' r ((r.firstGt k).map Prod.fst)
  prev_eq : ∀ {c : κ} {r : Rows} {k : Bytes}, Stands c r (some k) →
    ∃ c', Prog.Runs NativeCursor.prev c (r.lastLt k) c' ∧ Stands c' r ((r.lastLt k).map Prod.fst)

/-! ### The adapter -/

/-- Where the adapter's cursor is: not yet moved, on the native cursor's row, or past an end. -/
inductive MdbxPosition where
  | start (key : Bytes)
  | at
  | before
  | after
deriving DecidableEq

/-- The adapter's cursor; a table not yet written has no native one. -/
structure MdbxCursor (κ : Type) where
  inner : Option κ
  position : MdbxPosition

namespace MdbxCursor

variable {κ : Type} [NativeCursor κ]

/-- The native moves of one move of the adapter. -/
def seek (forward : Bool) : MdbxPosition → Prog NativeError κ (Option Entry)
  | .start key => do
    let row ← NativeCursor.setRange key
    if forward then return row
    else match row with
      | some (found, value) => if found = key then return some (found, value) else NativeCursor.prev
      | none => NativeCursor.last
  | .before => if forward then NativeCursor.first else return none
  | .after => if forward then return none else NativeCursor.last
  | .at => if forward then NativeCursor.next else NativeCursor.prev

/-- One move in either direction. -/
def advance (forward : Bool) : Prog StorageError (MdbxCursor κ) (Option Entry) := fun c =>
  match c.inner with
  | none => (.ok none, c)
  | some cursor =>
    match (Prog.mapError backend (seek forward c.position)).exec cursor with
    | (.error e, cursor') => (.error e, { c with inner := some cursor' })
    | (.ok row, cursor') =>
      (.ok row, ⟨some cursor', if row.isSome then .at else if forward then .after else .before⟩)

instance : ReadCursor (MdbxCursor κ) := ⟨advance true, advance false⟩

end MdbxCursor

/-- A transaction of the adapter: its tables as the native library opens cursors over them, none for a
table not yet written, and the limits of the environment. -/
structure MdbxTransaction (κ : Type) where
  openTable : Table → Except NativeError (Option κ)
  limits : Limits

def MdbxTransaction.cursor {κ : Type} (tx : MdbxTransaction κ) (t : Table) (key : Bytes) :
    Except StorageError (MdbxCursor κ) := do
  Limited.checkRead tx.limits t key
  let inner ← (tx.openTable t).mapError backend
  return ⟨inner, .start key⟩

/-! ### Moves over rows -/

/-- **A move reaches the nearest row** in its direction, of those its place allows. -/
theorem rowMove_eq_some {forward : Bool} {r : Rows} {p : Position} {e : Entry} :
    rowMove forward r p = some e ↔ (r.get? e.1 = some e.2 ∧ p.reaches forward e.1 = true) ∧
      ∀ x : Entry, r.get? x.1 = some x.2 → p.reaches forward x.1 = true → x = e ∨ Dir forward e.1 x.1 := by
  rw [rowMove_eq, head?_eq_some_iff (rowsAhead_sorted forward r p), mem_rowsAhead]
  simp only [mem_rowsAhead, and_imp]

/-- Places that allow the same rows move alike. -/
lemma rowMove_congr {forward : Bool} {r : Rows} {p q : Position}
    (h : ∀ e ∈ r.entries, p.reaches forward e.1 = q.reaches forward e.1) :
    rowMove forward r p = rowMove forward r q := by
  rw [rowMove_eq, rowMove_eq, rowsAhead, rowsAhead]
  congr 1
  exact List.filter_congr fun e he => h e (mem_inOrder.mp he)

/-- The greatest key not above a start, from the least one not below it. -/
lemma lastLe_eq (r : Rows) (k : Bytes) : r.lastLe k =
    match r.firstGe k with
    | some e => if e.1 = k then some e else r.lastLt e.1
    | none => r.entries.getLast? := by
  show rowMove false r (.key k) = match rowMove true r (.key k) with
    | some e => if e.1 = k then some e else rowMove false r (.at e.1)
    | none => rowMove false r .after
  cases hge : rowMove true r (.key k) with
  | none =>
    -- every key is below the start
    refine rowMove_congr fun e he => ?_
    rw [rowMove_eq, List.head?_eq_none_iff, rowsAhead, List.filter_eq_nil_iff] at hge
    have hlt : e.1 < k := by
      have := hge e (mem_inOrder.mpr he)
      simp only [Position.reaches, Dir, if_true, Bool.or_eq_true, decide_eq_true_eq, not_or] at this
      exact lt_of_le_of_ne (not_lt.mp this.2) fun h => this.1 h.symm
    simp [Position.reaches, Dir, hlt]
  | some e =>
    obtain ⟨⟨hget, hreach⟩, hleast⟩ := rowMove_eq_some.mp hge
    by_cases hk : e.1 = k
    · refine (rowMove_eq_some.mpr ⟨⟨hget, by simp [Position.reaches, hk]⟩, fun x hx hle => ?_⟩).trans (if_pos hk).symm
      simp only [Position.reaches, Dir, Bool.or_eq_true, decide_eq_true_eq, Bool.false_eq_true, if_false] at hle ⊢
      rcases hle with hkx | hlt
      · have hxe : x.1 = e.1 := hkx.symm.trans hk.symm
        rw [hxe, hget] at hx
        exact .inl (Prod.ext hxe (Option.some.inj hx).symm)
      · exact .inr (hk ▸ hlt)
    · refine (rowMove_congr fun x hx => ?_).trans (if_neg hk).symm
      have hke : k < e.1 := by
        simp only [Position.reaches, Dir, if_true, Bool.or_eq_true, decide_eq_true_eq] at hreach
        exact hreach.resolve_left fun h => hk h.symm
      -- no key lies between the start and the row found
      have hiff : k = x.1 ∨ x.1 < k ↔ x.1 < e.1 := by
        constructor
        · rintro (h | h)
          · exact h ▸ hke
          · exact lt_trans h hke
        · intro hlt
          by_contra hnot
          rw [not_or, not_lt] at hnot
          have hkx : k < x.1 := lt_of_le_of_ne hnot.2 hnot.1
          have hreaches : Position.reaches true (.key k) x.1 = true := by simp [Position.reaches, Dir, hkx]
          rcases hleast x (OrdMap.mem_entries.mp hx) hreaches with rfl | hex
          · exact lt_irrefl _ hlt
          · exact lt_irrefl _ (lt_trans hlt hex)
      simp only [Position.reaches, Dir, Bool.false_eq_true, if_false, ← Bool.decide_or, hiff]

/-! ### The adapter moves as the memory cursor does -/

/-- The adapter's position, over a native cursor on the given row, is the place of a cursor over rows. -/
inductive MdbxPlace : MdbxPosition → Option Bytes → Position → Prop where
  | start (k : Bytes) (at' : Option Bytes) : MdbxPlace (.start k) at' (.key k)
  | at (k : Bytes) : MdbxPlace .at (some k) (.at k)
  | before (at' : Option Bytes) : MdbxPlace .before at' .before
  | after (at' : Option Bytes) : MdbxPlace .after at' .after

namespace MdbxCursor

variable {κ : Type} [NativeCursor κ] [LawfulNativeCursor κ]

/-- The cursor stands at the place in the rows; without a native cursor there are none. -/
def At (c : MdbxCursor κ) (r : Rows) (p : Position) : Prop :=
  match c.inner with
  | none => r = OrdMap.empty
  | some cursor => ∃ at', LawfulNativeCursor.Stands cursor r at' ∧ MdbxPlace c.position at' p

/-- The native moves reach the row that a move over the rows does, and stand on it. -/
lemma seek_eq {cursor : κ} {r : Rows} {at' : Option Bytes} {q : MdbxPosition} {p : Position} (forward : Bool)
    (hc : LawfulNativeCursor.Stands cursor r at') (hp : MdbxPlace q at' p) :
    ∃ cursor' at'', Prog.Runs (seek forward q) cursor (rowMove forward r p) cursor' ∧
      LawfulNativeCursor.Stands cursor' r at'' ∧ ∀ e, rowMove forward r p = some e → at'' = some e.1 := by
  -- a native move that stands on the row it returns
  have hmove : ∀ {c₀ : κ} {row : Option Entry} {m : Prog NativeError κ (Option Entry)},
      (∃ c', Prog.Runs m c₀ row c' ∧ LawfulNativeCursor.Stands c' r (row.map Prod.fst)) →
      ∃ c' at'', Prog.Runs m c₀ row c' ∧ LawfulNativeCursor.Stands c' r at'' ∧ ∀ e, row = some e → at'' = some e.1 := by
    rintro c₀ row m ⟨c', hrun, hstands⟩
    refine ⟨c', _, hrun, hstands, ?_⟩
    rintro e rfl
    rfl
  -- no native move at all
  have hstay : ∃ c' at'', Prog.Runs (pure none : Prog NativeError κ (Option Entry)) cursor none c' ∧
      LawfulNativeCursor.Stands c' r at'' ∧ ∀ e : Entry, none = some e → at'' = some e.1 :=
    ⟨cursor, at', Prog.Runs.pure none cursor, hc, nofun⟩
  cases hp with
  | before =>
    cases forward with
    | true => exact hmove (LawfulNativeCursor.first_eq hc)
    | false => exact hstay
  | after =>
    cases forward with
    | true => exact hstay
    | false => exact hmove (LawfulNativeCursor.last_eq hc)
  | «at» k =>
    cases forward with
    | true => exact hmove (LawfulNativeCursor.next_eq hc)
    | false => exact hmove (LawfulNativeCursor.prev_eq hc)
  | start k =>
    obtain ⟨c₁, hrun, hstands⟩ := LawfulNativeCursor.setRange_eq hc k
    cases forward with
    | true => exact hmove ⟨c₁, hrun.bind (Prog.Runs.pure _ c₁), hstands⟩
    | false =>
      show ∃ c' at'', Prog.Runs _ cursor (r.lastLe k) c' ∧ _ ∧ ∀ e, r.lastLe k = some e → _
      rw [lastLe_eq]
      cases hge : r.firstGe k with
      | none =>
        rw [hge] at hrun hstands
        obtain ⟨c₂, hrun₂, hstands₂⟩ := LawfulNativeCursor.last_eq hstands
        exact hmove ⟨c₂, hrun.bind hrun₂, hstands₂⟩
      | some e =>
        rw [hge] at hrun hstands
        by_cases hk : e.1 = k
        · simp only [if_pos hk]
          exact hmove
            ⟨c₁, hrun.bind (by simp only [Bool.false_eq_true, if_false, if_pos hk]; exact Prog.Runs.pure _ c₁), hstands⟩
        · simp only [if_neg hk]
          obtain ⟨c₂, hrun₂, hstands₂⟩ := LawfulNativeCursor.prev_eq hstands
          exact hmove ⟨c₂, hrun.bind (by simp only [Bool.false_eq_true, if_false, if_neg hk]; exact hrun₂), hstands₂⟩

/-- **A move of the adapter is a move over the rows.** -/
lemma advance_at {c : MdbxCursor κ} {r : Rows} {p : Position} (h : c.At r p) (forward : Bool) :
    ∃ c', Prog.Runs (advance forward) c (rowMove forward r p) c' ∧
      c'.At r (settle (rowMove forward r p) (.past forward)) := by
  unfold At at h
  cases hi : c.inner with
  | none =>
    rw [hi] at h
    obtain rfl : r = OrdMap.empty := h
    have hnone : rowMove forward OrdMap.empty p = none := by
      cases forward with
      | true => exact MemoryCursor.rowNext_empty p
      | false => exact MemoryCursor.rowPrev_empty p
    refine ⟨c, ?_, by unfold At; rw [hi]⟩
    show advance forward c = _
    simp only [advance, hi, hnone]
  | some cursor =>
    rw [hi] at h
    obtain ⟨at', hstands, hplace⟩ := h
    obtain ⟨cursor', at'', hrun, hstands', hat⟩ := seek_eq forward hstands hplace
    have hexec : (Prog.mapError backend (seek forward c.position)).exec cursor = (.ok (rowMove forward r p), cursor') :=
      hrun.mapError
    refine ⟨⟨some cursor', if (rowMove forward r p).isSome then .at else if forward then .after else .before⟩, ?_, ?_⟩
    · show advance forward c = _
      simp only [advance, hi, hexec]
    · refine ⟨at'', hstands', ?_⟩
      cases hrow : rowMove forward r p with
      | none => cases forward <;> constructor
      | some e =>
        rw [hat e hrow]
        exact .at e.1

/-- Any sequence of moves meets the rows that moves over the rows reach. -/
theorem moveAll_at {r : Rows} : ∀ (moves : List Bool) {p : Position} {c : MdbxCursor κ}, c.At r p →
    moveAll moves c = moveRows r p moves := by
  intro moves
  induction moves with
  | nil => intro p c _; rfl
  | cons forward moves ih =>
    intro p c hat
    obtain ⟨c', hrun, hat'⟩ := advance_at hat forward
    have hexec : (move forward).exec c = (.ok (rowMove forward r p), c') := by
      cases forward <;> exact hrun
    rw [moveAll, moveRows, hexec, ih hat']

end MdbxCursor

section Agree

variable {κ : Type} [NativeCursor κ] [LawfulNativeCursor κ]

/-- The native library opens cursors over the tables; one not yet written is empty. -/
def MdbxTransaction.Holds (tx : MdbxTransaction κ) (tables : Table → Rows) : Prop :=
  ∀ t, t.validate = .ok () → ∃ native, tx.openTable t = .ok native ∧
    match native with
    | none => tables t = OrdMap.empty
    | some cursor => ∃ at', LawfulNativeCursor.Stands cursor (tables t) at'

lemma MdbxTransaction.cursor_eq {tx : MdbxTransaction κ} {tables : Table → Rows} (h : tx.Holds tables) {t : Table}
    (ht : t.validate = .ok ()) (hname : t.name.utf8ByteSize ≤ tx.limits.key) {key : Bytes}
    (hkey : key.length ≤ tx.limits.key) : ∃ c, tx.cursor t key = .ok c ∧ c.At (tables t) (.key key) := by
  obtain ⟨native, hopen, hnative⟩ := h t ht
  refine ⟨⟨native, .start key⟩, ?_, ?_⟩
  · unfold MdbxTransaction.cursor
    rw [Limited.checkRead_ok ht hname hkey, hopen]
    rfl
  · unfold MdbxCursor.At
    cases native with
    | none => exact hnative
    | some cursor =>
      obtain ⟨at', hstands⟩ := hnative
      exact ⟨at', hstands, .start key at'⟩

/-- **The adapter's cursor and the memory cursor return the same rows** for every sequence of moves, those
nearest in the direction of each move: from the start key, which counts in both directions, from the row last
returned, or from the end last run past. -/
theorem cursor_agrees (tx : MdbxTransaction κ) (state : State) (h : tx.Holds state.rowsOf) {t : Table}
    (ht : t.validate = .ok ()) (hname : t.name.utf8ByteSize ≤ tx.limits.key) {key : Bytes}
    (hkey : key.length ≤ tx.limits.key) (moves : List Bool) :
    (∃ c m, tx.cursor t key = .ok c ∧ state.cursor t key = .ok m ∧ moveAll moves c = moveAll moves m ∧
      moveAll moves m = moveRows (state.rowsOf t) (.key key) moves) ∧
    ∀ forward p (e : Entry), rowMove forward (state.rowsOf t) p = some e ↔
      ((state.rowsOf t).get? e.1 = some e.2 ∧ p.reaches forward e.1 = true) ∧
        ∀ x : Entry, (state.rowsOf t).get? x.1 = some x.2 → p.reaches forward x.1 = true →
          x = e ∨ Dir forward e.1 x.1 := by
  refine ⟨?_, fun forward p e => rowMove_eq_some⟩
  obtain ⟨c, hc, hat⟩ := MdbxTransaction.cursor_eq h ht hname hkey
  obtain ⟨m, hm, hat'⟩ := state.cursor_eq ht key
  have hmem := moveAll_eq (τ := MemoryWriteTransaction) moves (.key key) m hat'
  exact ⟨c, m, hc, hm, (MdbxCursor.moveAll_at moves hat).trans hmem.symm, hmem⟩

end Agree

/-- A native cursor over rows in memory. -/
structure RowCursor where
  rows : Rows
  current : Option Bytes

namespace RowCursor

/-- Stand on the row found, or nowhere. -/
def goto (find : RowCursor → Option Entry) : Prog NativeError RowCursor (Option Entry) := fun c =>
  (.ok (find c), ⟨c.rows, (find c).map Prod.fst⟩)

def rowAfter (c : RowCursor) : Option Entry :=
  match c.current with
  | some k => c.rows.firstGt k
  | none => c.rows.entries.head?

def rowBefore (c : RowCursor) : Option Entry :=
  match c.current with
  | some k => c.rows.lastLt k
  | none => c.rows.entries.getLast?

instance : NativeCursor RowCursor where
  setRange k := goto fun c => c.rows.firstGe k
  first := goto fun c => c.rows.entries.head?
  last := goto fun c => c.rows.entries.getLast?
  next := goto rowAfter
  prev := goto rowBefore

lemma goto_eq (c : RowCursor) (find : RowCursor → Option Entry) {row : Option Entry} (h : find c = row) :
    ∃ c', Prog.Runs (goto find) c row c' ∧ c'.rows = c.rows ∧ c'.current = row.map Prod.fst := by
  subst h
  exact ⟨_, rfl, rfl, rfl⟩

instance : LawfulNativeCursor RowCursor where
  Stands c r at' := c.rows = r ∧ ∀ k, at' = some k → c.current = some k
  setRange_eq := by
    rintro c r at' ⟨rfl, -⟩ k
    obtain ⟨c', hrun, hrows, hcur⟩ := goto_eq c (fun c : RowCursor => c.rows.firstGe k) rfl
    exact ⟨c', hrun, hrows, fun j hj => hcur.trans hj⟩
  first_eq := by
    rintro c r at' ⟨rfl, -⟩
    obtain ⟨c', hrun, hrows, hcur⟩ := goto_eq c (fun c : RowCursor => c.rows.entries.head?) rfl
    exact ⟨c', hrun, hrows, fun j hj => hcur.trans hj⟩
  last_eq := by
    rintro c r at' ⟨rfl, -⟩
    obtain ⟨c', hrun, hrows, hcur⟩ := goto_eq c (fun c : RowCursor => c.rows.entries.getLast?) rfl
    exact ⟨c', hrun, hrows, fun j hj => hcur.trans hj⟩
  next_eq := by
    rintro c r k ⟨rfl, hk⟩
    obtain ⟨c', hrun, hrows, hcur⟩ := goto_eq c rowAfter (show _ = c.rows.firstGt k by rw [rowAfter, hk k rfl])
    exact ⟨c', hrun, hrows, fun j hj => hcur.trans hj⟩
  prev_eq := by
    rintro c r k ⟨rfl, hk⟩
    obtain ⟨c', hrun, hrows, hcur⟩ := goto_eq c rowBefore (show _ = c.rows.lastLt k by rw [rowBefore, hk k rfl])
    exact ⟨c', hrun, hrows, fun j hj => hcur.trans hj⟩

end RowCursor

/-- A table of two rows. -/
def sampleRows : Rows := (OrdMap.empty.insert [1] [10]).insert [3] [30]

def sampleState : State := OrdMap.empty.insert ⟨"t"⟩ sampleRows

/-- The same table behind the native library. -/
def sampleMdbx : MdbxTransaction RowCursor where
  openTable t := .ok (if t = ⟨"t"⟩ then some ⟨sampleRows, none⟩ else none)
  limits := ⟨1, 1⟩

lemma sampleMdbx_holds : sampleMdbx.Holds sampleState.rowsOf := by
  intro t _
  refine ⟨_, rfl, ?_⟩
  by_cases h : t = ⟨"t"⟩
  · subst h
    simp only [if_true]
    exact ⟨none, by simp [sampleState, State.rowsOf], nofun⟩
  · simp only [if_neg h]
    simp [sampleState, State.rowsOf, h]

/-- From between the rows: forward to the second and past it, back to both and past them. -/
theorem cursor_agrees_demo : ∃ c m, sampleMdbx.cursor ⟨"t"⟩ [2] = .ok c ∧ sampleState.cursor ⟨"t"⟩ [2] = .ok m ∧
    moveAll [true, true, false, false, false, true] c = moveAll [true, true, false, false, false, true] m ∧
    moveAll [true, true, false, false, false, true] m = [.ok (some ([3], [30])), .ok none, .ok (some ([3], [30])),
      .ok (some ([1], [10])), .ok none, .ok (some ([1], [10]))] := by
  obtain ⟨⟨c, m, hc, hm, hcm, hspec⟩, -⟩ := cursor_agrees sampleMdbx sampleState sampleMdbx_holds
    (show (⟨"t"⟩ : Table).validate = .ok () by decide) (by decide) (show ([2] : Bytes).length ≤ 1 by decide)
    [true, true, false, false, false, true]
  exact ⟨c, m, hc, hm, hcm, hspec.trans (by rfl)⟩

end GolemDb.Storage
