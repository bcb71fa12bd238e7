import GolemDb.Branch.Visible

/-!
The iterator over the cells under a prefix. It merges a storage scan with a range of staged cells,
with one item of lookahead on each side, and decodes a row of the origin when it returns it. Its
calls return the items of `mergeScan` (`CellScan.merges_yields`): the visible cells in key order, up
to a row that shows and does not decode (`prefix_scan_exact`).
-/

namespace GolemDb.Branch

open GolemDb.Lib GolemDb.Storage GolemDb.Cells

/-! ### The iterator -/

/-- A scan with one item of lookahead. -/
structure Peekable (γ : Type) where
  scan : Scan γ
  peeked : Option (Option (Except StorageError Entry))

namespace Peekable

variable {γ : Type} [ReadCursor γ]

def peek (s : Peekable γ) : Option (Except StorageError Entry) × Peekable γ :=
  match s.peeked with
  | some item => (item, s)
  | none => (s.scan.next.1, ⟨s.scan.next.2, some s.scan.next.1⟩)

def next (s : Peekable γ) : Option (Except StorageError Entry) × Peekable γ :=
  match s.peeked with
  | some item => (item, ⟨s.scan, none⟩)
  | none => (s.scan.next.1, ⟨s.scan.next.2, none⟩)

end Peekable

/-- A row of the origin, decoded. -/
def decodeCellRow (row : Entry) : ScanItem := do
  let key ← (CellKey.decode row.1).mapError BranchError.key
  let value ← (CellValue.parse row.2).mapError BranchError.value
  return (key, value)

/-- The lazy merge. The staged cells that are left are a list. -/
structure CellScan (γ : Type) where
  origin : Peekable γ
  overlay : List (CellKey × Option CellValue)
  done : Bool

namespace CellScan

def new {ρ : Type} [ReadTransaction ρ] (origin : ρ) (entries : Entries) (pfx : Bytes) :
    Except BranchError (CellScan (ReadTransaction.Cursor ρ)) := do
  let scan ← (scanPrefix origin CELL pfx).mapError BranchError.storage
  return ⟨⟨scan, none⟩, overlayRange entries pfx, false⟩

variable {γ : Type} [ReadCursor γ]

/-- Take the origin's item, which was peeked and is there. -/
def takeRow (origin : Peekable γ) (overlay : List (CellKey × Option CellValue)) :
    Except BranchError (Option (CellKey × CellValue)) × CellScan γ :=
  match origin.next with
  | (some (.ok row), origin) => ((decodeCellRow row).map some, ⟨origin, overlay, false⟩)
  | (some (.error e), origin) => (.error (.storage e), ⟨origin, overlay, false⟩)
  | (none, origin) => (.ok none, ⟨origin, overlay, false⟩)

/-- The next cell of the merge. The loop ends: each turn that goes on has taken a tombstone. -/
def advance (origin : Peekable γ) : List (CellKey × Option CellValue) →
    Except BranchError (Option (CellKey × CellValue)) × CellScan γ
  | [] =>
    match origin.peek with
    | (none, origin) => (.ok none, ⟨origin, [], false⟩)
    | (some _, origin) => takeRow origin []
  | (key, value) :: overlay =>
    match origin.peek with
    | (some (.error _), origin) => takeRow origin ((key, value) :: overlay)
    | (some (.ok row), origin) =>
      if row.1 < key.encode then takeRow origin ((key, value) :: overlay)
      else
        -- a row under a staged key is dropped as it is
        let origin := if row.1 = key.encode then origin.next.2 else origin
        match value with
        | some v => (.ok (some (key, v)), ⟨origin, overlay, false⟩)
        | none => advance origin overlay
    | (none, origin) =>
      match value with
      | some v => (.ok (some (key, v)), ⟨origin, overlay, false⟩)
      | none => advance origin overlay

/-- One call of the iterator; the end and an error are final. -/
def next (s : CellScan γ) : Option ScanItem × CellScan γ :=
  if s.done then (none, s)
  else
    match advance s.origin s.overlay with
    | (.ok (some row), s) => (some (.ok row), s)
    | (.ok none, s) => (none, { s with done := true })
    | (.error e, s) => (some (.error e), { s with done := true })

/-- What so many calls return, past the end as well. -/
def calls : ℕ → CellScan γ → List (Option ScanItem)
  | 0, _ => []
  | n + 1, s => s.next.1 :: calls n s.next.2

/-- **The iterator yields the items**, in their order, and then nothing for good. -/
def Yields (s : CellScan γ) (items : List ScanItem) : Prop :=
  ∀ n, calls n s = (items.map some ++ List.replicate n none).take n

end CellScan

/-! ### What the origin still has to yield -/

namespace Peekable

variable {γ : Type} [ReadCursor γ] {s : Peekable γ}

/-- The scan yields these items next: rows, up to the end or to a first error. -/
def Upcoming : Peekable γ → List (Except StorageError Entry) → Prop
  | s, [] => s.peek.1 = none
  | s, .ok row :: items => s.peek.1 = some (.ok row) ∧ Upcoming s.next.2 items
  | s, .error e :: items => s.peek.1 = some (.error e) ∧ items = []

lemma next_fst : s.next.1 = s.peek.1 := by
  rcases s with ⟨scan, _ | item⟩ <;> rfl

lemma peek_peek : s.peek.2.peek = s.peek := by
  rcases s with ⟨scan, _ | item⟩ <;> rfl

lemma next_peek : s.peek.2.next = s.next := by
  rcases s with ⟨scan, _ | item⟩ <;> rfl

lemma Upcoming.peeked {items : List (Except StorageError Entry)} (h : s.Upcoming items) : s.peek.2.Upcoming items := by
  match items, h with
  | [], h => exact (congrArg Prod.fst peek_peek).trans h
  | .ok row :: items, ⟨hrow, hrest⟩ =>
    exact ⟨(congrArg Prod.fst peek_peek).trans hrow, next_peek (s := s) ▸ hrest⟩
  | .error e :: items, ⟨hrow, hend⟩ => exact ⟨(congrArg Prod.fst peek_peek).trans hrow, hend⟩

/-- A scan that yields rows, with nothing looked at. -/
lemma upcoming_of_yields {items : List Entry} : ∀ {scan : Scan γ}, scan.Yields items →
    (⟨scan, none⟩ : Peekable γ).Upcoming (items.map .ok) := by
  induction items with
  | nil =>
    intro scan h
    have hone := h 1
    show scan.next.1 = none
    simpa [Scan.calls] using hone
  | cons e items ih =>
    intro scan h
    have hone := h 1
    have hfirst : scan.next.1 = some (.ok e) := by simpa [Scan.calls] using hone
    refine ⟨hfirst, ih fun n => ?_⟩
    have hsucc := h (n + 1)
    rw [Scan.calls, List.map_cons, List.cons_append, List.take_succ_cons] at hsucc
    rw [(List.cons.inj hsucc).2]
    exact Scan.take_pad _ _ n.le_succ le_rfl

end Peekable

/-! ### The iterator is the merge -/

lemma originRow_eq (key value : Bytes) (tail : List ScanItem) : originRow key value tail =
    match decodeCellRow (key, value) with
    | .ok row => .ok row :: tail
    | .error e => [.error e] := by
  unfold originRow decodeCellRow
  cases CellKey.decode key with
  | error e => rfl
  | ok k =>
    cases CellValue.parse value with
    | error e => rfl
    | ok v => rfl

namespace CellScan

variable {γ : Type} [ReadCursor γ] {s : CellScan γ}

/-- The calls to come return the items of a merge. -/
def Merges (s : CellScan γ) (items : List ScanItem) : Prop :=
  s.done = false ∧ ∃ rows, s.origin.Upcoming rows ∧ mergeScan rows s.overlay = items

/-- A step has returned the head of the items and left the tail. -/
def Steps (r : Except BranchError (Option (CellKey × CellValue)) × CellScan γ) : List ScanItem → Prop
  | [] => r.1 = .ok none
  | .ok row :: items => r.1 = .ok (some row) ∧ r.2.Merges items
  | .error e :: items => r.1 = .error e ∧ items = []

variable {origin : Peekable γ} {overlay : List (CellKey × Option CellValue)} {rows : List (Except StorageError Entry)}

lemma takeRow_error {e : StorageError} (h : origin.Upcoming (.error e :: rows)) :
    Steps (takeRow origin.peek.2 overlay) [.error (.storage e)] := by
  have hnext : origin.peek.2.next = (some (.error e), origin.peek.2.next.2) :=
    Prod.ext (Peekable.next_fst.trans h.peeked.1) rfl
  unfold takeRow
  rw [hnext]
  exact ⟨rfl, rfl⟩

lemma takeRow_ok {key value : Bytes} (h : origin.Upcoming (.ok (key, value) :: rows)) :
    Steps (takeRow origin.peek.2 overlay) (originRow key value (mergeScan rows overlay)) := by
  have hnext : origin.peek.2.next = (some (.ok (key, value)), origin.peek.2.next.2) :=
    Prod.ext (Peekable.next_fst.trans h.peeked.1) rfl
  have hrest := h.peeked.2
  unfold takeRow
  rw [hnext, originRow_eq]
  cases hrow : decodeCellRow (key, value) with
  | error e => exact ⟨by simp only [hrow]; rfl, rfl⟩
  | ok row => exact ⟨by simp only [hrow]; rfl, rfl, rows, hrest, rfl⟩

/-- A staged cell is returned, a tombstone passed over. -/
lemma steps_overlayRow {key : CellKey} {value : Option CellValue} (h : origin.Upcoming rows)
    (htail : Steps (advance origin overlay) (mergeScan rows overlay)) :
    Steps (match value with
      | some v => (.ok (some (key, v)), (⟨origin, overlay, false⟩ : CellScan γ))
      | none => advance origin overlay) (overlayRow key value (mergeScan rows overlay)) := by
  cases value with
  | some v => exact ⟨rfl, rfl, rows, h, rfl⟩
  | none => exact htail

/-- **A step of the iterator is a step of the merge**, by induction on the staged cells. -/
lemma advance_steps : ∀ (overlay : List (CellKey × Option CellValue)) (origin : Peekable γ)
    (rows : List (Except StorageError Entry)), origin.Upcoming rows →
    Steps (advance origin overlay) (mergeScan rows overlay) := by
  intro overlay
  induction overlay with
  | nil =>
    intro origin rows h
    unfold advance
    match rows, h with
    | [], h =>
      have hpeek : origin.peek = (none, origin.peek.2) := Prod.ext h rfl
      rw [hpeek]
      exact rfl
    | .error e :: rows, h =>
      have hpeek : origin.peek = (some (.error e), origin.peek.2) := Prod.ext h.1 rfl
      rw [hpeek]
      exact takeRow_error h
    | .ok (key, value) :: rows, h =>
      have hpeek : origin.peek = (some (.ok (key, value)), origin.peek.2) := Prod.ext h.1 rfl
      rw [hpeek]
      exact takeRow_ok h
  | cons staged overlay ih =>
    intro origin rows h
    obtain ⟨k, v⟩ := staged
    unfold advance
    match rows, h with
    | [], h =>
      have hpeek : origin.peek = (none, origin.peek.2) := Prod.ext h rfl
      have hrest := Peekable.Upcoming.peeked h
      rw [hpeek]
      exact steps_overlayRow hrest (ih _ _ hrest)
    | .error e :: rows, h =>
      have hpeek : origin.peek = (some (.error e), origin.peek.2) := Prod.ext h.1 rfl
      rw [hpeek]
      exact takeRow_error h
    | .ok (key, value) :: rows, h =>
      have hpeek : origin.peek = (some (.ok (key, value)), origin.peek.2) := Prod.ext h.1 rfl
      rw [hpeek, mergeScan, mergeRow]
      simp only
      by_cases hlt : key < k.encode
      · rw [if_pos hlt, if_pos hlt]
        exact takeRow_ok h
      · rw [if_neg hlt, if_neg hlt]
        by_cases heq : key = k.encode
        · rw [if_pos heq, if_pos heq]
          exact steps_overlayRow h.peeked.2 (ih _ _ h.peeked.2)
        · rw [if_neg heq, if_neg heq]
          exact steps_overlayRow h.peeked (ih _ _ h.peeked)

lemma calls_done (h : s.done = true) (n : ℕ) : calls n s = List.replicate n none := by
  have hnext : s.next = (none, s) := if_pos h
  induction n with
  | zero => rfl
  | succ n ih => rw [calls, hnext, ih, List.replicate_succ]

/-- **The calls return the items of the merge.** -/
theorem merges_yields {items : List ScanItem} (h : s.Merges items) : s.Yields items := by
  intro n
  induction n generalizing s items with
  | zero => rfl
  | succ n ih =>
    obtain ⟨hdone, rows, hrows, rfl⟩ := h
    have hstep := advance_steps s.overlay s.origin rows hrows
    have hlive : ¬ s.done = true := by rw [hdone]; exact Bool.false_ne_true
    rw [calls, next, if_neg hlive]
    rcases hadv : advance s.origin s.overlay with ⟨result, s'⟩
    rw [hadv] at hstep
    generalize mergeScan rows s.overlay = items at hstep
    match items, hstep with
    | [], hstep =>
      obtain rfl : result = .ok none := hstep
      rw [calls_done rfl]
      simp [List.replicate_succ]
    | .ok row :: items, ⟨hrow, hrest⟩ =>
      obtain rfl : result = .ok (some row) := hrow
      rw [ih hrest, List.map_cons, List.cons_append, List.take_succ_cons]
      exact congrArg _ (Scan.take_pad _ _ le_rfl n.le_succ)
    | .error e :: items, ⟨herr, hend⟩ =>
      obtain rfl : result = .error e := herr
      subst hend
      rw [calls_done rfl, List.map_cons, List.map_nil, List.cons_append, List.nil_append, List.take_succ_cons,
        List.take_replicate, Nat.min_eq_left n.le_succ]

end CellScan

/-! ### The cells that show -/

/-- The items up to and with the first error. -/
def untilError : List ScanItem → List ScanItem
  | [] => []
  | .ok row :: items => .ok row :: untilError items
  | .error e :: _ => [.error e]

lemma untilError_ok (cells : List (CellKey × CellValue)) : untilError (cells.map .ok) = cells.map .ok := by
  induction cells with
  | nil => rfl
  | cons e cells ih => rw [List.map_cons, untilError, ih]

/-- No staged cell has the encoded key. -/
def Unstaged (entries : Entries) (key : Bytes) : Prop := ∀ k : CellKey, k.encode = key → entries.get? k = none

/-- **What shows under an encoded key**: a staged value, or what the origin's row decodes to where
nothing is staged. -/
def ShowsItem (r : Rows) (entries : Entries) (key : Bytes) (item : ScanItem) : Prop :=
  (∃ k v, k.encode = key ∧ entries.get? k = some (some v) ∧ item = .ok (k, v)) ∨
    Unstaged entries key ∧ ∃ value, r.get? key = some value ∧ item = decodeCellRow (key, value)

/-- A row with what it decodes to. -/
def labelRow (row : Entry) : Bytes × ScanItem := (row.1, decodeCellRow row)

/-- A staged cell under its encoded key. -/
def labelStaged (e : CellKey × Option CellValue) : Bytes × Option ScanItem :=
  (e.1.encode, e.2.map fun v => .ok (e.1, v))

lemma overlayRow_untilError (k : CellKey) (v : Option CellValue) (items : List (Bytes × ScanItem)) :
    overlayRow k v (untilError (items.map Prod.snd))
      = untilError ((((labelStaged (k, v)).2.map (Prod.mk k.encode)).toList ++ items).map Prod.snd) := by
  cases v <;> rfl

lemma originRow_untilError (row : Entry) (items : List (Bytes × ScanItem)) :
    originRow row.1 row.2 (untilError (items.map Prod.snd)) = untilError ((labelRow row :: items).map Prod.snd) := by
  rw [originRow_eq, List.map_cons, labelRow]
  cases decodeCellRow row <;> rfl

/-- The merge of any rows is the merge of what they decode to, up to its first error. -/
lemma mergeScan_untilError : ∀ (origin : List Entry) (overlay : List (CellKey × Option CellValue)),
    mergeScan (origin.map .ok) overlay
      = untilError ((mergeOver (origin.map labelRow) (overlay.map labelStaged)).map Prod.snd) := by
  intro origin
  induction origin with
  | nil =>
    intro overlay
    induction overlay with
    | nil => rfl
    | cons e overlay ih =>
      simp only [List.map_nil, mergeScan, List.foldr_cons, mergeOver, List.map_cons, List.flatMap_cons] at ih ⊢
      rw [ih, overlayRow_untilError]
      rfl
  | cons row origin ih =>
    intro overlay
    show mergeRow row.1 row.2 (mergeScan (origin.map .ok)) overlay
      = untilError
        ((mergeEntry (labelRow row) (mergeOver (origin.map labelRow)) (overlay.map labelStaged)).map Prod.snd)
    induction overlay with
    | nil => rw [mergeRow, List.map_nil, mergeEntry, ← originRow_untilError, ih, List.map_nil]
    | cons s overlay ihs =>
      obtain ⟨k, v⟩ := s
      rw [mergeRow, List.map_cons]
      show _ = untilError ((mergeEntry (labelRow row) (mergeOver (origin.map labelRow))
        ((k.encode, (labelStaged (k, v)).2) :: overlay.map labelStaged)).map Prod.snd)
      rw [mergeEntry]
      by_cases hlt : row.1 < k.encode
      · have hlt' : (labelRow row).1 < k.encode := hlt
        rw [if_pos hlt, if_pos hlt', ← originRow_untilError, ih]
        rfl
      · have hge : ¬ (labelRow row).1 < k.encode := hlt
        rw [if_neg hlt, if_neg hge]
        by_cases heq : row.1 = k.encode
        · have heq' : (labelRow row).1 = k.encode := heq
          rw [if_pos heq, if_pos heq', ih, overlayRow_untilError]
        · have hne : ¬ (labelRow row).1 = k.encode := heq
          rw [if_neg heq, if_neg hne, ihs, overlayRow_untilError]

/-- What shows under a prefix, in key order. -/
def shownItems (r : Rows) (entries : Entries) (pfx : Bytes) : List (Bytes × ScanItem) :=
  mergeOver ((r.entries.filter fun e => pfx.isPrefixOf e.1).map labelRow) ((overlayRange entries pfx).map labelStaged)

lemma shownItems_spec (r : Rows) (entries : Entries) (pfx : Bytes) :
    (shownItems r entries pfx).Pairwise (fun a b => a.1 < b.1) ∧
      ∀ key item, (key, item) ∈ shownItems r entries pfx ↔ pfx <+: key ∧ ShowsItem r entries key item := by
  have hrows : ((r.entries.filter fun e => pfx.isPrefixOf e.1).map labelRow).Pairwise fun a b => a.1 < b.1 :=
    List.pairwise_map.mpr (r.sorted.filter _)
  have hstaged : ((overlayRange entries pfx).map labelStaged).Pairwise fun a b => a.1 < b.1 := by
    refine List.pairwise_map.mpr ((entries.sorted.filter _).imp fun h => ?_)
    exact CellKey.encode_lt_iff.mpr h
  obtain ⟨hs, hm⟩ := mergeOver_spec _ _ hrows hstaged
  have hrow : ∀ key item, (key, item) ∈ (r.entries.filter fun e => pfx.isPrefixOf e.1).map labelRow ↔
      pfx <+: key ∧ ∃ value, r.get? key = some value ∧ item = decodeCellRow (key, value) := by
    intro key item
    simp only [List.mem_map, List.mem_filter, List.isPrefixOf_iff_prefix, labelRow, Prod.mk.injEq]
    constructor
    · rintro ⟨⟨k, value⟩, ⟨he, hp⟩, rfl, rfl⟩
      exact ⟨hp, value, OrdMap.mem_entries.mp he, rfl⟩
    · rintro ⟨hp, value, he, rfl⟩
      exact ⟨(key, value), ⟨OrdMap.mem_entries.mpr he, hp⟩, rfl, rfl⟩
  have hover : ∀ key shown, (key, shown) ∈ (overlayRange entries pfx).map labelStaged ↔
      pfx <+: key ∧ ∃ k v, k.encode = key ∧ entries.get? k = some v ∧ shown = v.map fun v => .ok (k, v) := by
    intro key shown
    rw [overlayRange_eq]
    simp only [List.mem_map, List.mem_filter, List.isPrefixOf_iff_prefix, labelStaged, Prod.mk.injEq]
    constructor
    · rintro ⟨⟨k, v⟩, ⟨he, hp⟩, rfl, rfl⟩
      exact ⟨hp, k, v, rfl, OrdMap.mem_entries.mp he, rfl⟩
    · rintro ⟨hp, k, v, rfl, he, rfl⟩
      exact ⟨(k, v), ⟨OrdMap.mem_entries.mpr he, hp⟩, rfl, rfl⟩
  refine ⟨hs, fun key item => ?_⟩
  rw [shownItems, hm, hrow, hover]
  constructor
  · rintro (⟨hp, k, v, hk, he, hv⟩ | ⟨⟨hp, hvalue⟩, hnone⟩)
    · obtain ⟨w, rfl, rfl⟩ := Option.map_eq_some_iff.mp hv.symm
      exact ⟨hp, .inl ⟨k, w, hk, he, rfl⟩⟩
    · refine ⟨hp, .inr ⟨fun k hk => ?_, hvalue⟩⟩
      cases he : entries.get? k with
      | none => rfl
      | some v => exact absurd ((hover _ _).mpr ⟨hp, k, v, hk, he, rfl⟩) (hnone _)
  · rintro ⟨hp, ⟨k, v, hk, he, rfl⟩ | ⟨hnone, hvalue⟩⟩
    · exact .inl ⟨hp, k, some v, hk, he, rfl⟩
    · refine .inr ⟨⟨hp, hvalue⟩, fun w hw => ?_⟩
      obtain ⟨-, k, v, hk, he, -⟩ := (hover _ _).mp hw
      rw [hnone k hk] at he
      cases he

/-! ### Prefix scans -/

/-- The bounds of the range of staged keys are in order, so that the range is one. -/
lemma lowerKey_lt {pfx successor : Bytes} (h : afterPrefix pfx = some successor) :
    lowerKey pfx < lowerKey successor := by
  have hpfx : pfx <+: (lowerKey pfx).encode := by
    rw [encode_lowerKey]
    exact List.prefix_append _ _
  have hbelow := (prefix_iff_range.mp hpfx).2 successor h
  rw [← not_le, lowerKey_le_iff, not_le]
  exact hbelow

/-- The rows decode. -/
def ValidRows (r : Rows) : Prop := ∀ row ∈ r.entries, ∃ cell, decodeCellRow row = .ok cell

lemma encode_of_decodeCellRow {row : Entry} {cell : CellKey × CellValue} (h : decodeCellRow row = .ok cell) :
    cell.1.encode = row.1 := by
  obtain ⟨key, hkey, h⟩ := bind_eq_ok.mp h
  obtain ⟨value, hvalue, h⟩ := bind_eq_ok.mp h
  rw [← pure_eq_ok.mp h]
  exact CellKey.encode_of_decode (mapError_eq_ok.mp hkey)

section Scan

variable {ρ : Type} [ReadTransaction ρ] {origin : ρ} {o : CellOverlay} {k : CellKey} {v : CellValue}

/-- A read returns the value that shows. -/
lemma get_iff_showsItem [LawfulRead ρ] : o.get origin k = .ok (some v) ↔
    ShowsItem (rows origin CELL) o.entries k.encode (.ok (k, v)) := by
  unfold CellOverlay.get
  cases he : o.entries.get? k with
  | some w =>
    simp only [Except.ok.injEq]
    constructor
    · rintro rfl
      exact .inl ⟨k, v, rfl, he, rfl⟩
    · rintro (⟨k', v', hk, hv, hitem⟩ | ⟨hnone, -⟩)
      · obtain ⟨rfl, rfl⟩ := Prod.mk.inj (Except.ok.inj hitem)
        exact Option.some.inj (he.symm.trans hv)
      · rw [hnone k rfl] at he
        cases he
  | none =>
    have hunstaged : Unstaged o.entries k.encode := fun k' hk => CellKey.encode_inj hk ▸ he
    have hshows : ShowsItem (rows origin CELL) o.entries k.encode (.ok (k, v)) ↔
        ∃ value, (rows origin CELL).get? k.encode = some value ∧ .ok (k, v) = decodeCellRow (k.encode, value) := by
      constructor
      · rintro (⟨k', v', hk, hv, -⟩ | ⟨-, hvalue⟩)
        · rw [hunstaged k' hk] at hv
          cases hv
        · exact hvalue
      · exact fun h => .inr ⟨hunstaged, h⟩
    rw [hshows]
    simp only
    rw [LawfulRead.get_eq CELL_valid, mapError_ok, ok_bind]
    cases (rows origin CELL).get? k.encode with
    | none => simp [Pure.pure, Except.pure]
    | some bytes =>
      simp only [decodeCellRow, CellKey.decode_encode, mapError_ok, ok_bind, Option.some.injEq, exists_eq_left']
      cases CellValue.parse bytes with
      | error e => simp [Except.mapError, bind, Except.bind]
      | ok w => simp [Pure.pure, Except.pure, eq_comm]

variable [LawfulCursor ρ]

/-- The iterator yields what shows under the prefix, up to the first error. -/
lemma scan_shown (origin : ρ) (entries : Entries) (pfx : Bytes) : ∃ s, CellScan.new origin entries pfx = .ok s ∧
    s.Yields (untilError ((shownItems (rows origin CELL) entries pfx).map Prod.snd)) := by
  obtain ⟨scan, hscan, hcollect⟩ := collect_scanPrefix CELL_valid origin pfx
  have hrows := Peekable.upcoming_of_yields (Scan.yields_of_collect hcollect)
  refine ⟨⟨⟨scan, none⟩, overlayRange entries pfx, false⟩, ?_,
    CellScan.merges_yields ⟨rfl, _, hrows, mergeScan_untilError _ _⟩⟩
  rw [CellScan.new, hscan]
  rfl

/-- **A prefix scan is exact.** It yields what shows under the prefix, in ascending order of encoded keys and up to
the first row that shows and does not decode: so over valid rows the keys that `get` has a value for, with that
value, and the same over origins that differ only in rows under staged keys. The bounds of the range of staged
keys are in order. -/
theorem prefix_scan_exact (origin : ρ) (o : CellOverlay) (pfx : Bytes) :
    (∀ successor, afterPrefix pfx = some successor → lowerKey pfx < lowerKey successor) ∧
    ∃ s, CellScan.new origin o.entries pfx = .ok s ∧
      (ValidRows (rows origin CELL) → ∃ cells : List (CellKey × CellValue), s.Yields (cells.map .ok) ∧
        cells.Pairwise (fun a b => a.1.encode < b.1.encode) ∧
        ∀ k v, (k, v) ∈ cells ↔ pfx <+: k.encode ∧ o.get origin k = .ok (some v)) ∧
      (∃ items : List (Bytes × ScanItem), s.Yields (untilError (items.map Prod.snd)) ∧
        items.Pairwise (fun a b => a.1 < b.1) ∧
        ∀ key item, (key, item) ∈ items ↔ pfx <+: key ∧ ShowsItem (rows origin CELL) o.entries key item) ∧
      ∀ origin' : ρ, (∀ key, Unstaged o.entries key → (rows origin' CELL).get? key = (rows origin CELL).get? key) →
        ∃ s', CellScan.new origin' o.entries pfx = .ok s' ∧ ∀ n, s'.calls n = s.calls n := by
  obtain ⟨s, hs, hyields⟩ := scan_shown origin o.entries pfx
  obtain ⟨hsorted, hmem⟩ := shownItems_spec (rows origin CELL) o.entries pfx
  refine ⟨fun _ => lowerKey_lt, s, hs, fun hvalid => ?_, ⟨_, hyields, hsorted, hmem⟩, fun origin' hsame => ?_⟩
  · -- over valid rows every item is a cell under its key
    have hcell : ∀ x ∈ shownItems (rows origin CELL) o.entries pfx,
        x ∈ Set.range fun c : CellKey × CellValue => (c.1.encode, (Except.ok c : ScanItem)) := by
      rintro ⟨key, item⟩ hx
      rcases ((hmem key item).mp hx).2 with ⟨k, v, hk, -, rfl⟩ | ⟨-, value, hvalue, rfl⟩
      · exact ⟨(k, v), by rw [← hk]⟩
      · obtain ⟨cell, hdecode⟩ := hvalid _ (OrdMap.mem_entries.mpr hvalue)
        exact ⟨cell, Prod.ext (encode_of_decodeCellRow hdecode) hdecode.symm⟩
    obtain ⟨cells, hcells⟩ : shownItems (rows origin CELL) o.entries pfx ∈
        Set.range (List.map fun c : CellKey × CellValue => (c.1.encode, (Except.ok c : ScanItem))) := by
      rw [Set.range_list_map]
      exact hcell
    rw [← hcells, List.map_map] at hyields
    rw [← hcells, List.pairwise_map] at hsorted
    refine ⟨cells, untilError_ok cells ▸ hyields, hsorted, fun k v => ?_⟩
    rw [get_iff_showsItem, ← hmem, ← hcells, List.mem_map]
    constructor
    · exact fun h => ⟨_, h, rfl⟩
    · rintro ⟨c, hc, he⟩
      obtain rfl : c = (k, v) := Except.ok.inj (Prod.mk.inj he).2
      exact hc
  · obtain ⟨s', hs', hyields'⟩ := scan_shown origin' o.entries pfx
    obtain ⟨hsorted', hmem'⟩ := shownItems_spec (rows origin' CELL) o.entries pfx
    have hshown : shownItems (rows origin' CELL) o.entries pfx = shownItems (rows origin CELL) o.entries pfx := by
      refine OrdMap.eq_of_sorted hsorted' hsorted fun ⟨key, item⟩ => ?_
      rw [hmem, hmem']
      refine and_congr_right fun _ => or_congr_right (and_congr_right fun hnone => ?_)
      rw [hsame key hnone]
    rw [hshown] at hyields'
    exact ⟨s', hs', fun n => (hyields' n).trans (hyields n).symm⟩

end Scan

/-- A Cell table of two rows, the second of which is no cell. -/
def brokenReader : MemoryReadTransaction :=
  ⟨OrdMap.empty.insert CELL ((OrdMap.empty.insert (CellKey.encode ⟨70, [97]⟩) (CellValue.fromU32 7).encode).insert
    (CellKey.encode ⟨71, [97]⟩) [255])⟩

/-- A Cell table of two rows that are cells of two records. -/
def soundReader : MemoryReadTransaction :=
  ⟨OrdMap.empty.insert CELL ((OrdMap.empty.insert (CellKey.encode ⟨70, [97]⟩) (CellValue.fromU32 7).encode).insert
    (CellKey.encode ⟨71, [97]⟩) (CellValue.fromU32 9).encode)⟩

lemma soundReader_valid : ValidRows (rows soundReader CELL) := by
  have hall : ∀ row ∈ (rows soundReader CELL).entries, (decodeCellRow row).toBool = true := by decide
  intro row hrow
  cases hrow' : decodeCellRow row with
  | ok cell => exact ⟨cell, rfl⟩
  | error e =>
    have hok := hall row hrow
    rw [hrow'] at hok
    cases hok

/-- A record's prefix shows its row and its staged cell, and no cell of the other record. The broken row shows as an
error; under a tombstone it does not show, and the other row still does. -/
theorem prefix_scan_exact_demo :
    (∃ s, ∃ cells : List (CellKey × CellValue), CellScan.new soundReader
        (CellOverlay.new.set ⟨70, [98]⟩ (some (CellValue.fromU32 8))).entries (U64.toBeBytes 70) = .ok s ∧
      s.Yields (cells.map .ok) ∧ (⟨70, [97]⟩, CellValue.fromU32 7) ∈ cells ∧
      (⟨70, [98]⟩, CellValue.fromU32 8) ∈ cells ∧ ∀ v, (⟨71, [97]⟩, v) ∉ cells) ∧
    (∃ s, ∃ items : List (Bytes × ScanItem), CellScan.new brokenReader CellOverlay.new.entries [] = .ok s ∧
      s.Yields (untilError (items.map Prod.snd)) ∧
      (CellKey.encode ⟨71, [97]⟩, .error (.value (.reservedType 127))) ∈ items) ∧
    ∃ s, ∃ items : List (Bytes × ScanItem), CellScan.new brokenReader
      (CellOverlay.new.set ⟨71, [97]⟩ none).entries [] = .ok s ∧ s.Yields (untilError (items.map Prod.snd)) ∧
      (CellKey.encode ⟨70, [97]⟩, .ok (⟨70, [97]⟩, CellValue.fromU32 7)) ∈ items ∧
      ∀ item, (CellKey.encode ⟨71, [97]⟩, item) ∉ items := by
  obtain ⟨-, s₀, hs₀, hcells, -⟩ :=
    prefix_scan_exact soundReader (CellOverlay.new.set ⟨70, [98]⟩ (some (CellValue.fromU32 8))) (U64.toBeBytes 70)
  obtain ⟨cells, hyields₀, -, hmem₀⟩ := hcells soundReader_valid
  obtain ⟨-, s, hs, -, ⟨items, hyields, -, hmem⟩, -⟩ := prefix_scan_exact brokenReader CellOverlay.new []
  obtain ⟨-, s', hs', -, ⟨items', hyields', -, hmem'⟩, -⟩ :=
    prefix_scan_exact brokenReader (CellOverlay.new.set ⟨71, [97]⟩ none) []
  refine ⟨⟨s₀, cells, hs₀, hyields₀, ?_, ?_, fun v hv => ?_⟩, ⟨s, items, hs, hyields, ?_⟩, s', items', hs', hyields',
    ?_, fun item hitem => ?_⟩
  · exact (hmem₀ _ _).mpr ⟨by decide, rfl⟩
  · exact (hmem₀ _ _).mpr ⟨by decide, rfl⟩
  · exact absurd ((hmem₀ _ _).mp hv).1 (by decide)
  · exact (hmem _ _).mpr ⟨List.nil_prefix, .inr ⟨fun _ _ => rfl, [255], by decide, rfl⟩⟩
  · refine (hmem' _ _).mpr ⟨List.nil_prefix, .inr ⟨fun k hk => ?_, (CellValue.fromU32 7).encode, by decide, rfl⟩⟩
    obtain rfl := CellKey.encode_inj hk
    decide
  · have hstaged : (CellOverlay.new.set ⟨71, [97]⟩ none).entries.get? ⟨71, [97]⟩ = some none := by decide
    rcases ((hmem' _ _).mp hitem).2 with ⟨k, v, hk, hv, -⟩ | ⟨hnone, -⟩
    · rw [CellKey.encode_inj hk, hstaged] at hv
      cases hv
    · rw [hnone _ rfl] at hstaged
      cases hstaged

end GolemDb.Branch
