import GolemDb.Storage.Memory

/-!
Lazy forward scans over a cursor: byte ranges and prefixes. A scan is an iterator with a `done`
flag; `collect` lists what it yields. Over a lawful cursor a scan yields the rows within its
bounds, in order (`collect_scan`, `collect_scanPrefix`).
-/

namespace GolemDb.Storage

open GolemDb.Lib

/-- A side of a range. -/
inductive Bound (α : Type) where
  | included (a : α)
  | excluded (a : α)
  | unbounded
deriving DecidableEq

namespace Bound

variable {α : Type}

def value? : Bound α → Option α
  | included a => some a
  | excluded a => some a
  | unbounded => none

/-- The key that a lower bound excludes. -/
def excludedKey : Bound α → Option α
  | excluded a => some a
  | _ => none

/-- Whether a key is within the bound, as a lower or as an upper one. -/
def below (lower : Bound Bytes) (key : Bytes) : Bool :=
  match lower with
  | included a => a ≤ key
  | excluded a => a < key
  | unbounded => true

def above (upper : Bound Bytes) (key : Bytes) : Bool :=
  match upper with
  | included a => key ≤ a
  | excluded a => key < a
  | unbounded => true

end Bound

/-! ### Iterators -/

structure Scan (γ : Type) where
  cursor : γ
  excludedStart : Option Bytes
  upper : Bound Bytes
  pfx : Option Bytes
  done : Bool

section Open

variable {τ : Type} [ReadTransaction τ]

/-- Both bounds with equal keys, and a side excluded. -/
def emptyRange (lower upper : Bound Bytes) : Bool :=
  match lower, upper with
  | .included _, .included _ => false
  | _, _ => lower.value?.isSome && lower.value? = upper.value?

/-- Reversed bounds. -/
def reversed (lower upper : Bound Bytes) : Bool :=
  match lower.value?, upper.value? with
  | some a, some b => b < a
  | _, _ => false

/-- A bytewise range scan; reversed bounds are rejected. -/
def scan (tx : τ) (t : Table) (lower upper : Bound Bytes) :
    Except StorageError (Scan (ReadTransaction.Cursor τ)) := do
  if reversed lower upper then .error .invalidRange
  else
    let cursor ← ReadTransaction.cursor tx t (lower.value?.getD [])
    return { cursor := cursor
             excludedStart := match lower with
               | .excluded key => some key
               | _ => none
             upper := upper
             pfx := none
             done := emptyRange lower upper }

/-- A prefix scan, with no successor key. -/
def scanPrefix (tx : τ) (t : Table) (pfx : Bytes) :
    Except StorageError (Scan (ReadTransaction.Cursor τ)) := do
  let cursor ← ReadTransaction.cursor tx t pfx
  return { cursor := cursor, excludedStart := none, upper := .unbounded, pfx := some pfx, done := false }

end Open

namespace Scan

variable {γ : Type} [ReadCursor γ]

/-- The key is within the upper bound and under the prefix. -/
def within (upper : Bound Bytes) (pfx : Option Bytes) (key : Bytes) : Bool :=
  upper.above key && match pfx with
    | some p => p.isPrefixOf key
    | none => true

/-- The next row of the cursor; the excluded start is skipped once. -/
def advance (s : Scan γ) : Except StorageError (Option Entry) × Scan γ :=
  match ReadCursor.next.exec s.cursor with
  | (.error e, c) => (.error e, { s with cursor := c })
  | (.ok row, c) =>
    match s.excludedStart with
    | none => (.ok row, { s with cursor := c })
    | some excluded =>
      let s := { s with cursor := c, excludedStart := none }
      if row.any (fun e => e.1 = excluded) then
        match ReadCursor.next.exec c with
        | (r, c') => (r, { s with cursor := c' })
      else (.ok row, s)

/-- One call of the iterator; the end and an error are final. -/
def next (s : Scan γ) : Option (Except StorageError Entry) × Scan γ :=
  if s.done then (none, s)
  else
    match s.advance with
    | (.ok (some (key, value)), s) =>
      if within s.upper s.pfx key then (some (.ok (key, value)), s) else (none, { s with done := true })
    | (.ok none, s) => (none, { s with done := true })
    | (.error e, s) => (some (.error e), { s with done := true })

/-- At most `fuel` items of the scan. -/
def collect : ℕ → Scan γ → List (Except StorageError Entry)
  | 0, _ => []
  | fuel + 1, s =>
    match s.next with
    | (none, _) => []
    | (some item, s') => item :: collect fuel s'

end Scan

/-! ### What a lawful cursor still has to yield -/

/-- The rows a forward cursor has ahead of it. -/
def ahead (r : Rows) : Position → List Entry
  | .key k => r.entries.filter fun e => k ≤ e.1
  | .at k => r.entries.filter fun e => k < e.1
  | .before => r.entries
  | .after => []

lemma rowNext_eq (r : Rows) (p : Position) : rowNext r p = (ahead r p).head? := by
  cases p with
  | key k => rw [ahead, List.head?_filter]; rfl
  | before => rfl
  | «at» k =>
    rw [ahead, List.head?_filter, rowNext, OrdMap.firstGt]
    congr 1
    funext e
    exact decide_eq_decide.mpr Iff.rfl
  | after => rfl

/-- After a row of an ordered list come the rows with greater keys. -/
lemma filter_gt_head {l : List Entry} (hl : l.Pairwise fun a b => a.1 < b.1) {q : Entry → Bool}
    {e : Entry} {rest : List Entry} (h : l.filter q = e :: rest)
    (hq : ∀ a b, q a = true → a.1 < b.1 → q b = true) : l.filter (fun x => e.1 < x.1) = rest := by
  induction l with
  | nil => simp at h
  | cons x l ih =>
    obtain ⟨hx, hl⟩ := List.pairwise_cons.mp hl
    by_cases hqx : q x = true
    · rw [List.filter_cons_of_pos hqx] at h
      obtain ⟨rfl, hrest⟩ := List.cons.inj h
      rw [List.filter_cons_of_neg (by simp), ← hrest]
      refine List.filter_congr fun y hy => ?_
      rw [hq x y hqx (hx y hy)]
      simpa using hx y hy
    · rw [List.filter_cons_of_neg hqx] at h
      have he : e ∈ l := List.mem_of_mem_filter (h ▸ List.mem_cons_self ..)
      rw [List.filter_cons_of_neg (by simpa using le_of_lt (hx e he)), ih hl h]

lemma ahead_settle (r : Rows) (p : Position) :
    ahead r (settle (rowNext r p) .after) = (ahead r p).tail := by
  rw [rowNext_eq]
  cases h : ahead r p with
  | nil => rfl
  | cons e rest =>
    show r.entries.filter (fun x => decide (e.1 < x.1)) = rest
    cases p with
    | key k =>
      refine filter_gt_head r.sorted h fun a b ha hab => ?_
      simp only [decide_eq_true_eq] at ha ⊢
      exact le_of_lt (lt_of_le_of_lt ha hab)
    | before =>
      refine filter_gt_head (q := fun _ => true) r.sorted ?_ fun _ _ _ _ => rfl
      rw [List.filter_true]
      exact h
    | «at» k =>
      refine filter_gt_head r.sorted h fun a b ha hab => ?_
      simp only [decide_eq_true_eq] at ha ⊢
      exact lt_trans ha hab
    | after => simp [ahead] at h

lemma ahead_sorted (r : Rows) (p : Position) : (ahead r p).Pairwise fun a b => a.1 < b.1 := by
  cases p with
  | key k => exact r.sorted.filter _
  | before => exact r.sorted
  | «at» k => exact r.sorted.filter _
  | after => exact List.Pairwise.nil

lemma ahead_length_le (r : Rows) (p : Position) : (ahead r p).length ≤ r.size := by
  cases p with
  | key k => exact List.length_filter_le _ _
  | before => exact le_rfl
  | «at» k => exact List.length_filter_le _ _
  | after => exact Nat.zero_le _

/-- Upper bounds are downward closed. -/
lemma above_of_lt {upper : Bound Bytes} {a b : Bytes} (h : a < b) (hb : upper.above b = true) :
    upper.above a = true := by
  cases upper with
  | included k =>
    have hk : b ≤ k := by simpa [Bound.above] using hb
    simpa [Bound.above] using le_of_lt (lt_of_lt_of_le h hk)
  | excluded k =>
    have hk : b < k := by simpa [Bound.above] using hb
    simpa [Bound.above] using lt_trans h hk
  | unbounded => rfl

/-- No key is between the bounds of an empty range. -/
lemma not_between_of_empty {lower upper : Bound Bytes} (h : emptyRange lower upper = true) {key : Bytes}
    (hl : lower.below key = true) (hu : upper.above key = true) : False := by
  cases lower <;> cases upper <;> simp [emptyRange, Bound.value?, Bound.below, Bound.above] at h hl hu
  all_goals
    subst h
    first
      | exact absurd (lt_of_lt_of_le hl hu) (lt_irrefl _)
      | exact absurd (lt_of_le_of_lt hl hu) (lt_irrefl _)
      | exact absurd (lt_trans hl hu) (lt_irrefl _)

/-! ### Scans of lawful cursors -/

section Lawful

variable {τ : Type} [ReadTransaction τ] [LawfulCursor τ]

/-- Without an excluded start a scan yields what is ahead, as long as it is within bounds. -/
lemma collect_ahead {r : Rows} {upper : Bound Bytes} {pfx : Option Bytes} :
    ∀ (fuel : ℕ) (p : Position) (c : ReadTransaction.Cursor τ), LawfulCursor.At c r p →
      (ahead r p).length < fuel →
      Scan.collect fuel ⟨c, none, upper, pfx, false⟩ =
        ((ahead r p).takeWhile fun e => Scan.within upper pfx e.1).map .ok := by
  intro fuel
  induction fuel with
  | zero => intro p c _ h; omega
  | succ fuel ih =>
    intro p c hat hlen
    obtain ⟨c', hnext, hat'⟩ := LawfulCursor.next_eq hat
    have hn : ReadCursor.next.exec c = (.ok (rowNext r p), c') := hnext
    have htail := ahead_settle r p
    rw [rowNext_eq] at hn htail hat'
    rw [Scan.collect, Scan.next]
    simp only [Bool.false_eq_true, if_false, Scan.advance, hn]
    cases ha : ahead r p with
    | nil => simp
    | cons e rest =>
      rw [ha] at hlen htail hat'
      simp only [List.head?_cons, List.takeWhile_cons]
      by_cases hw : Scan.within upper pfx e.1 = true
      · simp only [hw, if_true, List.map_cons]
        rw [ih _ c' hat' (by rw [htail]; simpa using hlen), htail, List.tail_cons]
      · simp [hw]

/-- On an ordered list a downward closed test keeps an initial part. -/
lemma takeWhile_eq_filter {l : List Entry} (hl : l.Pairwise fun a b => a.1 < b.1) {q : Entry → Bool}
    (hq : ∀ a ∈ l, ∀ b ∈ l, a.1 < b.1 → q b = true → q a = true) : l.takeWhile q = l.filter q := by
  induction l with
  | nil => rfl
  | cons x l ih =>
    obtain ⟨hx, hl⟩ := List.pairwise_cons.mp hl
    have ih := ih hl fun a ha b hb => hq a (List.mem_cons_of_mem _ ha) b (List.mem_cons_of_mem _ hb)
    by_cases hqx : q x = true
    · rw [List.takeWhile_cons_of_pos hqx, List.filter_cons_of_pos hqx, ih]
    · rw [List.takeWhile_cons_of_neg hqx, List.filter_cons_of_neg hqx, eq_comm, List.filter_eq_nil_iff]
      intro y hy hqy
      exact hqx (hq x (List.mem_cons_self ..) y (List.mem_cons_of_mem _ hy) (hx y hy) hqy)

/-- **A prefix scan yields the rows under the prefix.** -/
theorem collect_scanPrefix {t : Table} (ht : t.validate = .ok ()) (tx : τ) (p : Bytes) :
    ∃ s, scanPrefix tx t p = .ok s ∧ ∀ fuel, (rows tx t).size < fuel →
      Scan.collect fuel s = ((rows tx t).entries.filter fun e => p.isPrefixOf e.1).map .ok := by
  obtain ⟨c, hc, hat⟩ := LawfulCursor.cursor_eq ht tx p
  refine ⟨⟨c, none, .unbounded, some p, false⟩, ?_, fun fuel hfuel => ?_⟩
  · rw [scanPrefix, hc]
    rfl
  rw [collect_ahead fuel _ c hat (lt_of_le_of_lt (ahead_length_le _ _) hfuel)]
  congr 1
  rw [takeWhile_eq_filter (ahead_sorted _ _), ahead, List.filter_filter]
  · refine List.filter_congr fun e _ => ?_
    by_cases hp : p <+: e.1
    · simp [Scan.within, Bound.above, prefix_le hp]
    · simp [Scan.within, Bound.above, hp]
  · intro a ha b hb hab hw
    simp only [Scan.within, Bound.above, Bool.true_and, List.isPrefixOf_iff_prefix] at hw ⊢
    have hpa : p ≤ a.1 := by simpa using (List.mem_filter.mp ha).2
    exact prefix_of_between (List.prefix_refl p) hw hpa (le_of_lt hab)

/-- A scan with an excluded start moves past it once. -/
lemma advance_excluded {r : Rows} {k : Bytes} {upper : Bound Bytes} {c : ReadTransaction.Cursor τ}
    (hat : LawfulCursor.At c r (.key k)) :
    ∃ c' p', (⟨c, some k, upper, none, false⟩ : Scan (ReadTransaction.Cursor τ)).advance
        = (.ok (ahead r (.at k)).head?, ⟨c', none, upper, none, false⟩) ∧
      LawfulCursor.At c' r p' ∧ ahead r p' = (ahead r (.at k)).tail := by
  obtain ⟨c₁, hnext, hat₁⟩ := LawfulCursor.next_eq hat
  have hn : ReadCursor.next.exec c = (.ok (rowNext r (.key k)), c₁) := hnext
  have htail := ahead_settle r (.key k)
  have hgt : (ahead r (.key k)).filter (fun e => k < e.1) = ahead r (.at k) := by
    rw [ahead, ahead, List.filter_filter]
    refine List.filter_congr fun e _ => ?_
    by_cases hk : k < e.1
    · simp [hk, le_of_lt hk]
    · simp [hk]
  unfold Scan.advance
  simp only [hn]
  by_cases hrow : (rowNext r (.key k)).any (fun e => e.1 = k) = true
  · -- the start is there: the next row is the answer
    rw [if_pos hrow]
    obtain ⟨e, he, hek⟩ : ∃ e, rowNext r (.key k) = some e ∧ e.1 = k := by
      cases h : rowNext r (.key k) with
      | none => simp [h] at hrow
      | some e => exact ⟨e, rfl, by simpa [h] using hrow⟩
    have hset : settle (rowNext r (.key k)) .after = .at k := by rw [he, ← hek]; rfl
    rw [hset] at hat₁
    obtain ⟨c₂, hnext₂, hat₂⟩ := LawfulCursor.next_eq hat₁
    have hn₂ : ReadCursor.next.exec c₁ = (.ok (rowNext r (.at k)), c₂) := hnext₂
    rw [hn₂]
    exact ⟨c₂, _, by rw [rowNext_eq], hat₂, ahead_settle r (.at k)⟩
  · rw [if_neg hrow]
    have hsame : ahead r (.key k) = ahead r (.at k) := by
      rw [← hgt, List.filter_eq_self.mpr]
      intro e he
      cases hl : ahead r (.key k) with
      | nil =>
        rw [hl] at he
        cases he
      | cons x l =>
        have hmem : e ∈ x :: l := hl ▸ he
        have hx : x ∈ ahead r (.key k) := hl ▸ List.mem_cons_self ..
        have hkx : k < x.1 := by
          refine lt_of_le_of_ne (by simpa using (List.mem_filter.mp hx).2) fun hk => hrow ?_
          rw [rowNext_eq, hl]
          simpa using hk.symm
        have hsorted := ahead_sorted r (.key k)
        rw [hl, List.pairwise_cons] at hsorted
        rcases List.mem_cons.mp hmem with rfl | hmem
        · simpa using hkx
        · simpa using lt_trans hkx (hsorted.1 e hmem)
    rw [rowNext_eq] at hat₁ htail ⊢
    exact ⟨c₁, _, by rw [hsame], hat₁, by rw [htail, hsame]⟩

/-- The rows of a scan, given those ahead of its start. -/
lemma collect_start {r : Rows} {lower upper : Bound Bytes} {c : ReadTransaction.Cursor τ} {fuel : ℕ}
    (hat : LawfulCursor.At c r (.key (lower.value?.getD []))) (hfuel : r.size < fuel) :
    Scan.collect fuel ⟨c, lower.excludedKey, upper, none, false⟩
      = ((r.entries.filter fun e => lower.below e.1).takeWhile fun e => upper.above e.1).map .ok := by
  have hwithin : ∀ key, Scan.within upper none key = upper.above key := fun key => by simp [Scan.within]
  have hplain : ∀ k, LawfulCursor.At c r (.key k) → Scan.collect fuel ⟨c, none, upper, none, false⟩
      = ((r.entries.filter fun e => k ≤ e.1).takeWhile fun e => upper.above e.1).map .ok := by
    intro k hk
    rw [collect_ahead fuel _ c hk (lt_of_le_of_lt (ahead_length_le _ _) hfuel)]
    simp only [hwithin]
    rfl
  cases lower with
  | included k => exact hplain k hat
  | unbounded =>
    have h := hplain [] hat
    have hnil : ∀ e : Entry, decide (([] : Bytes) ≤ e.1) = true := fun e =>
      decide_eq_true (prefix_le List.nil_prefix)
    simp only [hnil] at h
    exact h
  | excluded k =>
    obtain ⟨fuel, rfl⟩ : ∃ n, fuel = n + 1 := ⟨fuel - 1, by omega⟩
    have hstart : LawfulCursor.At c r (.key k) := hat
    obtain ⟨c', p', hadv, hat', htail⟩ := @advance_excluded _ _ _ _ _ upper _ hstart
    have hlen := ahead_length_le r (.at k)
    show Scan.collect (fuel + 1) ⟨c, some k, upper, none, false⟩ = _
    rw [Scan.collect, Scan.next]
    simp only [Bool.false_eq_true, if_false, hadv]
    show _ = ((ahead r (.at k)).takeWhile fun e => upper.above e.1).map Except.ok
    cases ha : ahead r (.at k) with
    | nil => simp
    | cons e rest =>
      rw [ha] at htail hlen
      simp only [List.head?_cons, hwithin, List.takeWhile_cons]
      by_cases hw : upper.above e.1 = true
      · simp only [hw, if_true, List.map_cons]
        rw [collect_ahead fuel _ c' hat' (by rw [htail]; simp at hlen ⊢; omega), htail, List.tail_cons]
        simp only [hwithin]
      · simp [hw]

/-- **A range scan yields the rows between its bounds.** -/
theorem collect_scan {t : Table} (ht : t.validate = .ok ()) (tx : τ) {lower upper : Bound Bytes}
    (hrev : reversed lower upper = false) :
    ∃ s, scan tx t lower upper = .ok s ∧ ∀ fuel, (rows tx t).size < fuel →
      Scan.collect fuel s = ((rows tx t).entries.filter fun e => lower.below e.1 && upper.above e.1).map .ok := by
  obtain ⟨c, hc, hat⟩ := LawfulCursor.cursor_eq ht tx (lower.value?.getD [])
  refine ⟨⟨c, lower.excludedKey, upper, none, emptyRange lower upper⟩, ?_, fun fuel hfuel => ?_⟩
  · unfold scan
    rw [if_neg (by rw [hrev]; simp), hc, ok_bind]
    cases lower <;> rfl
  cases he : emptyRange lower upper with
  | true =>
    obtain ⟨fuel, rfl⟩ : ∃ n, fuel = n + 1 := ⟨fuel - 1, by omega⟩
    rw [Scan.collect, Scan.next, if_pos rfl, eq_comm, List.map_eq_nil_iff, List.filter_eq_nil_iff]
    intro e _ hin
    rw [Bool.and_eq_true] at hin
    exact not_between_of_empty he hin.1 hin.2
  | false =>
    rw [collect_start hat hfuel, takeWhile_eq_filter ((rows tx t).sorted.filter _), List.filter_filter]
    · exact congrArg _ (List.filter_congr fun e _ => Bool.and_comm ..)
    · intro a _ b _ hab hb
      exact above_of_lt hab hb

end Lawful

/-! ### Calls of the iterator -/

namespace Scan

variable {γ : Type} [ReadCursor γ]

/-- What so many calls return, past the end as well. -/
def calls : ℕ → Scan γ → List (Option (Except StorageError Entry))
  | 0, _ => []
  | n + 1, s => s.next.1 :: calls n s.next.2

/-- The item ends the scan: none is left, or the cursor failed. -/
def final : Option (Except StorageError Entry) → Bool
  | some (.ok _) => false
  | _ => true

lemma next_done {s : Scan γ} (h : s.done = true) : s.next = (none, s) := by
  unfold next
  rw [if_pos h]

/-- A call either ends the scan or returns a row. -/
lemma next_cases (s : Scan γ) : s.next.2.done = true ∨ ∃ e, s.next.1 = some (.ok e) := by
  unfold next
  by_cases hd : s.done = true
  · rw [if_pos hd]
    exact .inl hd
  · rw [if_neg hd]
    rcases s.advance with ⟨e | row, s'⟩
    · exact .inl rfl
    · cases row with
      | none => exact .inl rfl
      | some e =>
        by_cases hw : within s'.upper s'.pfx e.1 = true
        · exact .inr ⟨e, by simp only [hw, if_true]⟩
        · exact .inl (by simp only [hw, Bool.false_eq_true, if_false])

lemma done_of_final {s : Scan γ} (h : final s.next.1 = true) : s.next.2.done = true := by
  refine s.next_cases.resolve_right ?_
  rintro ⟨e, he⟩
  rw [he] at h
  cases h

lemma calls_done {s : Scan γ} (h : s.done = true) (n : ℕ) : calls n s = List.replicate n none := by
  induction n with
  | zero => rfl
  | succ n ih => rw [calls, next_done h, ih, List.replicate_succ]

@[simp] lemma calls_length (n : ℕ) (s : Scan γ) : (calls n s).length = n := by
  induction n generalizing s with
  | zero => rfl
  | succ n ih => rw [calls, List.length_cons, ih]

/-- **A scan is fused**: nothing follows its end or its first error. -/
theorem calls_fused {s : Scan γ} {n : ℕ} : ∀ {i j : ℕ} {item : Option (Except StorageError Entry)}, i < j → j < n →
    (calls n s)[i]? = some item → final item = true → (calls n s)[j]? = some none := by
  induction n generalizing s with
  | zero => omega
  | succ n ih =>
    intro i j item hij hj hi hfinal
    obtain ⟨j, rfl⟩ : ∃ k, j = k + 1 := ⟨j - 1, by omega⟩
    rw [calls] at hi ⊢
    rw [List.getElem?_cons_succ]
    cases i with
    | zero =>
      rw [List.getElem?_cons_zero, Option.some.injEq] at hi
      rw [calls_done (done_of_final (hi ▸ hfinal)), List.getElem?_replicate, if_pos (by omega)]
    | succ i =>
      rw [List.getElem?_cons_succ] at hi
      exact ih (by omega) (by omega) hi hfinal

/-- How far a list is padded does not matter below. -/
lemma take_pad {α : Type} (l : List α) (x : α) {n m k : ℕ} (hm : n ≤ m) (hk : n ≤ k) :
    (l ++ List.replicate m x).take n = (l ++ List.replicate k x).take n := by
  rw [List.take_append, List.take_append, List.take_replicate, List.take_replicate]
  congr 2
  omega

/-- The calls return the items the scan yields, then nothing for good. -/
lemma calls_eq_collect (n : ℕ) (s : Scan γ) : calls n s = ((collect n s).map some ++ List.replicate n none).take n := by
  induction n generalizing s with
  | zero => rfl
  | succ n ih =>
    rw [calls, collect]
    cases h : s.next.1 with
    | none =>
      have hd : s.next.2.done = true := done_of_final (by rw [h]; rfl)
      have he : s.next = (none, s.next.2) := Prod.ext h rfl
      rw [calls_done hd, he]
      simp [List.replicate_succ]
    | some item =>
      have he : s.next = (some item, s.next.2) := Prod.ext h rfl
      rw [he, ih, List.map_cons, List.cons_append, List.take_succ_cons, take_pad _ _ le_rfl n.le_succ]

lemma calls_take {n m : ℕ} (h : n ≤ m) (s : Scan γ) : (calls m s).take n = calls n s := by
  induction n generalizing s m with
  | zero => rfl
  | succ n ih =>
    obtain ⟨m, rfl⟩ : ∃ k, m = k + 1 := ⟨m - 1, by omega⟩
    rw [calls, calls, List.take_succ_cons, ih (by omega)]

/-- **The scan yields the rows**, in their order, and then nothing for good. -/
def Yields (s : Scan γ) (items : List Entry) : Prop :=
  ∀ n, calls n s = (items.map (fun e => some (Except.ok e)) ++ List.replicate n none).take n

/-- What a scan yields with enough fuel is what its calls return. -/
lemma yields_of_collect {s : Scan γ} {items : List Entry} {size : ℕ}
    (h : ∀ fuel, size < fuel → collect fuel s = items.map Except.ok) : s.Yields items := by
  intro n
  have hle : n ≤ n + size + 1 := by omega
  rw [← calls_take hle, calls_eq_collect, h _ (by omega), List.take_take, Nat.min_eq_left hle, List.map_map,
    take_pad _ _ hle le_rfl]
  rfl

end Scan

section Exact

variable {τ : Type} [ReadTransaction τ] [LawfulCursor τ]

lemma reversed_iff {lower upper : Bound Bytes} :
    reversed lower upper = true ↔ ∃ a b, lower.value? = some a ∧ upper.value? = some b ∧ b < a := by
  unfold reversed
  cases lower.value? <;> cases upper.value? <;> simp

/-- A range scan is refused for reversed bounds alone. -/
lemma scan_refused {t : Table} (ht : t.validate = .ok ()) (tx : τ) (lower upper : Bound Bytes) :
    reversed lower upper = true ↔ scan tx t lower upper = .error .invalidRange := by
  constructor
  · intro h
    unfold scan
    rw [if_pos h]
  · intro h
    by_contra hrev
    obtain ⟨s, hs, -⟩ := collect_scan ht tx (Bool.not_eq_true _ ▸ hrev)
    rw [hs] at h
    cases h

/-- **Scans are exact.** A range scan is refused where both sides are bounded and the lower key is the greater,
and otherwise yields the rows within its bounds, in ascending order; a prefix scan yields those under its prefix;
and nothing follows the end of a scan or its first error, whatever the cursor. -/
theorem scans_exact {t : Table} (ht : t.validate = .ok ()) (tx : τ) :
    (∀ lower upper, scan tx t lower upper = .error .invalidRange ↔
      ∃ a b, lower.value? = some a ∧ upper.value? = some b ∧ b < a) ∧
    (∀ lower upper, scan tx t lower upper ≠ .error .invalidRange → ∃ s, scan tx t lower upper = .ok s ∧
      s.Yields ((rows tx t).entries.filter fun e => lower.below e.1 && upper.above e.1)) ∧
    (∀ p, ∃ s, scanPrefix tx t p = .ok s ∧ s.Yields ((rows tx t).entries.filter fun e => p.isPrefixOf e.1)) ∧
    (rows tx t).entries.Pairwise (fun a b => a.1 < b.1) ∧
    ∀ {γ : Type} [ReadCursor γ] (s : Scan γ) n i j item, i < j → j < n → (s.calls n)[i]? = some item →
      (item = none ∨ ∃ e, item = some (.error e)) → (s.calls n)[j]? = some none := by
  refine ⟨fun lower upper => (scan_refused ht tx lower upper).symm.trans reversed_iff, fun lower upper h => ?_,
    fun p => ?_, (rows tx t).sorted, fun s n i j item hij hj hi hitem => Scan.calls_fused hij hj hi ?_⟩
  · have hrev : reversed lower upper = false := by
      rw [← Bool.not_eq_true]
      exact fun hrev => h ((scan_refused ht tx lower upper).mp hrev)
    obtain ⟨s, hs, hcollect⟩ := collect_scan ht tx hrev
    exact ⟨s, hs, Scan.yields_of_collect hcollect⟩
  · obtain ⟨s, hs, hcollect⟩ := collect_scanPrefix ht tx p
    exact ⟨s, hs, Scan.yields_of_collect hcollect⟩
  · rcases hitem with rfl | ⟨e, rfl⟩ <;> rfl

end Exact

/-- A reader of one table of two rows. -/
def sampleReader : MemoryReadTransaction := ⟨OrdMap.empty.insert ⟨"t"⟩ ((OrdMap.empty.insert [1] [10]).insert [3] [30])⟩

/-- Reversed bounds are refused; an excluded start is skipped; a prefix selects its rows. -/
theorem scans_exact_demo :
    scan sampleReader ⟨"t"⟩ (.included [3]) (.excluded [1]) = .error .invalidRange ∧
    (∃ s, scan sampleReader ⟨"t"⟩ (.excluded [1]) .unbounded = .ok s ∧ s.Yields [([3], [30])]) ∧
    ∃ s, scanPrefix sampleReader ⟨"t"⟩ [1] = .ok s ∧ s.Yields [([1], [10])] := by
  obtain ⟨hrefused, hscan, hprefix, -⟩ :=
    scans_exact (show (⟨"t"⟩ : Table).validate = .ok () by decide) sampleReader
  have hopen : scan sampleReader ⟨"t"⟩ (.excluded [1]) .unbounded ≠ .error .invalidRange := by
    intro h
    obtain ⟨x, y, -, hy, -⟩ := (hrefused _ _).mp h
    cases hy
  refine ⟨(hrefused _ _).mpr ⟨[3], [1], rfl, rfl, by decide⟩, ?_, ?_⟩
  · obtain ⟨s, hs, hyields⟩ := hscan (.excluded [1]) .unbounded hopen
    exact ⟨s, hs, hyields⟩
  · exact hprefix [1]

end GolemDb.Storage
