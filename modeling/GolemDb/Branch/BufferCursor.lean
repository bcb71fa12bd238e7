import GolemDb.Branch.Publish
import GolemDb.Storage.Access

/-!
The merged cursor of a seal buffer. At a row or a start key the origin cursor is placed again; at
an end it already stands there. Each move then compares the next origin row that no staged row
hides with the next staged row that is no deletion. This moves over the rows that the buffer shows
(`step_at`), so the buffer keeps the whole contract of a transaction, and a caller cannot tell it
from the writer of a store (`buffered_indistinguishable`).
-/

namespace GolemDb.Branch

open GolemDb.Lib GolemDb.Storage

/-! ### Rows ahead, staged and merged -/

section Merge

variable {forward : Bool} {p : Position} {base : Rows} {staged : StagedRows}

/-- The staged rows that a move can reach, without the deletions. -/
def stagedAhead (forward : Bool) (staged : StagedRows) (p : Position) : List Entry :=
  ((inOrder forward staged.entries).filter fun e => p.reaches forward e.1).filterMap BufferedCursor.liveRow

/-- The origin rows that a move can reach and that no staged row hides. -/
def originAhead (forward : Bool) (base : Rows) (staged : StagedRows) (p : Position) : List Entry :=
  (rowsAhead forward base p).filter fun e => !staged.contains e.1

lemma mem_stagedAhead {e : Entry} :
    e ∈ stagedAhead forward staged p ↔ staged.get? e.1 = some (some e.2) ∧ p.reaches forward e.1 = true := by
  simp only [stagedAhead, List.mem_filterMap, List.mem_filter, mem_inOrder, BufferedCursor.liveRow,
    Option.map_eq_some_iff]
  constructor
  · rintro ⟨⟨k, w⟩, ⟨hmem, hreach⟩, v, rfl, rfl⟩
    exact ⟨OrdMap.mem_entries.mp hmem, hreach⟩
  · rintro ⟨hget, hreach⟩
    exact ⟨(e.1, some e.2), ⟨OrdMap.mem_entries.mpr hget, hreach⟩, e.2, rfl, rfl⟩

lemma stagedAhead_sorted (forward : Bool) (staged : StagedRows) (p : Position) :
    (stagedAhead forward staged p).Pairwise fun a b => Dir forward a.1 b.1 := by
  refine List.pairwise_filterMap.mpr (((inOrder_sorted forward staged.sorted).filter _).imp ?_)
  intro a b hab x hx y hy
  obtain ⟨v, -, rfl⟩ := Option.map_eq_some_iff.mp hx
  obtain ⟨w, -, rfl⟩ := Option.map_eq_some_iff.mp hy
  exact hab

/-- The rows ahead in the merged table come from one side or the other. -/
lemma mem_rowsAhead_overlay {e : Entry} : e ∈ rowsAhead forward (base.overlay staged) p ↔
    e ∈ originAhead forward base staged p ∨ e ∈ stagedAhead forward staged p := by
  rw [mem_rowsAhead, OrdMap.get?_overlay, originAhead, List.mem_filter, mem_rowsAhead, mem_stagedAhead,
    OrdMap.contains]
  cases staged.get? e.1 with
  | none => simp
  | some w => simp

/-- **The merge of the two next rows is the next row of the merged table.** -/
theorem merged_eq : BufferedCursor.merged forward (originAhead forward base staged p).head?
      (stagedAhead forward staged p).head? = rowMove forward (base.overlay staged) p := by
  have hA : (originAhead forward base staged p).Pairwise fun a b => Dir forward a.1 b.1 :=
    (rowsAhead_sorted forward base p).filter _
  have hB := stagedAhead_sorted forward staged p
  have hC := rowsAhead_sorted forward (base.overlay staged) p
  have hmem := @mem_rowsAhead_overlay forward p base staged
  rw [rowMove_eq]
  cases ha : (originAhead forward base staged p).head? with
  | none =>
    rw [List.head?_eq_none_iff] at ha
    cases hb : (stagedAhead forward staged p).head? with
    | none =>
      rw [List.head?_eq_none_iff] at hb
      refine (List.head?_eq_none_iff.mpr (List.eq_nil_iff_forall_not_mem.mpr fun e he => ?_)).symm
      rw [hmem, ha, hb] at he
      simp at he
    | some b =>
      obtain ⟨hbm, hleast⟩ := (head?_eq_some_iff hB).mp hb
      refine ((head?_eq_some_iff hC).mpr ⟨hmem.mpr (.inr hbm), fun x hx => ?_⟩).symm
      rw [hmem, ha] at hx
      exact hleast x (hx.resolve_left (by simp))
  | some a =>
    obtain ⟨ham, hleastA⟩ := (head?_eq_some_iff hA).mp ha
    cases hb : (stagedAhead forward staged p).head? with
    | none =>
      rw [List.head?_eq_none_iff] at hb
      refine ((head?_eq_some_iff hC).mpr ⟨hmem.mpr (.inl ham), fun x hx => ?_⟩).symm
      rw [hmem, hb] at hx
      exact hleastA x (hx.resolve_right (by simp))
    | some b =>
      obtain ⟨hbm, hleastB⟩ := (head?_eq_some_iff hB).mp hb
      -- an origin row that is not hidden and a staged row have different keys
      have hne : a.1 ≠ b.1 := by
        intro he
        have h1 := (List.mem_filter.mp ham).2
        rw [he, OrdMap.contains, (mem_stagedAhead.mp hbm).1] at h1
        simp at h1
      have hdir : decide (a.1 < b.1) = forward ↔ Dir forward a.1 b.1 := by
        cases forward with
        | true => simp [Dir]
        | false =>
          rw [decide_eq_false_iff_not, not_lt]
          exact ⟨fun h => lt_of_le_of_ne h (Ne.symm hne), fun h => le_of_lt h⟩
      show some (if decide (a.1 < b.1) = forward then a else b) = _
      refine ((head?_eq_some_iff hC).mpr ?_).symm
      by_cases hab : Dir forward a.1 b.1
      · rw [if_pos (hdir.mpr hab)]
        refine ⟨hmem.mpr (.inl ham), fun x hx => ?_⟩
        rcases hmem.mp hx with hx | hx
        · exact hleastA x hx
        · rcases hleastB x hx with rfl | h
          · exact .inr hab
          · exact .inr (hab.trans h)
      · rw [if_neg (mt hdir.mp hab)]
        have hba := (Dir.total hne).resolve_left hab
        refine ⟨hmem.mpr (.inr hbm), fun x hx => ?_⟩
        rcases hmem.mp hx with hx | hx
        · rcases hleastA x hx with rfl | h
          · exact .inr hba
          · exact .inr (hba.trans h)
        · exact hleastB x hx

end Merge

/-! ### The cursor -/

namespace BufferedCursor

lemma stagedNext_eq {forward : Bool} {p : Position} (hp : p ≠ .past forward) (staged : StagedRows) :
    stagedNext staged p forward = (stagedAhead forward staged p).head? := by
  have hrange : ∀ q : Bytes × Option Bytes → Bool, (∀ e, q e = p.reaches forward e.1) →
      (if forward then staged.entries.filter q else (staged.entries.filter q).reverse).findSome? liveRow
        = (stagedAhead forward staged p).head? := by
    intro q hq
    rw [stagedAhead, List.head?_filterMap, ← inOrder_filter, ← funext hq]
    rfl
  unfold stagedNext
  refine hrange _ fun e => ?_
  cases forward with
  | true =>
    cases p with
    | key k => simp only [Position.reaches, Dir, if_true, ← Bool.decide_or, le_iff_eq_or_lt]
    | before => rfl
    | «at» k => exact decide_eq_decide.mpr Iff.rfl
    | after => exact absurd rfl hp
  | false =>
    cases p with
    | key k =>
      simp only [Position.reaches, Dir, ← Bool.decide_or, le_iff_eq_or_lt, eq_comm, Bool.false_eq_true,
        if_false]
    | before => exact absurd rfl hp
    | «at» k => exact decide_eq_decide.mpr Iff.rfl
    | after => rfl

variable {ρ : Type} [ReadTransaction ρ] [LawfulCursor ρ]

/-- **The origin loop** stops at the first row ahead that is not passed over. -/
lemma originNext_runs (forward : Bool) {base : Rows} :
    ∀ (fuel : ℕ) (q : Position) (c : BufferedCursor ρ), LawfulCursor.At c.cursor base q →
      (rowsAhead forward base q).length < fuel →
      ∃ cursor, Prog.Runs (originNext forward fuel) c
          ((rowsAhead forward base q).find? fun e => !c.skips e.1) { c with cursor := cursor } ∧
        ((rowsAhead forward base q).find? (fun e => !c.skips e.1) = none →
          LawfulCursor.At cursor base (.past forward)) := by
  intro fuel
  induction fuel with
  | zero => intro q c _ h; omega
  | succ fuel ih =>
    intro q c hat hlen
    obtain ⟨cursor, hmove, hat'⟩ := LawfulCursor.move_eq hat forward
    have hread : Prog.Runs (fun c : BufferedCursor ρ =>
        let moved := if forward then ReadCursor.next.exec c.cursor else ReadCursor.prev.exec c.cursor
        (moved.1, { c with cursor := moved.2 })) c (rowMove forward base q) { c with cursor := cursor } := by
      have hexec : (move forward).exec c.cursor = (.ok (rowMove forward base q), cursor) := hmove
      cases forward with
      | true =>
        simp only [move, if_true] at hexec
        show ((ReadCursor.next.exec c.cursor).1, { c with cursor := (ReadCursor.next.exec c.cursor).2 }) = _
        rw [hexec]
      | false =>
        simp only [move, Bool.false_eq_true, if_false] at hexec
        show ((ReadCursor.prev.exec c.cursor).1, { c with cursor := (ReadCursor.prev.exec c.cursor).2 }) = _
        rw [hexec]
    have htail := rowsAhead_settle forward base q
    have hhead := rowMove_eq forward base q
    cases ha : rowsAhead forward base q with
    | nil =>
      rw [ha, List.head?_nil] at hhead
      rw [hhead] at hread hat'
      exact ⟨cursor, hread.bind (Prog.Runs.pure _ _), fun _ => hat'⟩
    | cons e rest =>
      rw [ha, List.head?_cons] at hhead
      rw [hhead] at hread hat' htail
      rw [ha, List.tail_cons] at htail
      rw [ha] at hlen
      have hskip : Prog.Runs (Prog.read fun c : BufferedCursor ρ => Except.ok (ε := StorageError) (c.skips e.1))
          { c with cursor := cursor } (c.skips e.1) { c with cursor := cursor } := Prog.Runs.read rfl
      by_cases hs : c.skips e.1 = true
      · obtain ⟨cursor', hr, hend⟩ := ih (.at e.1) { c with cursor := cursor } hat'
          (by rw [show rowsAhead forward base (.at e.1) = rest from htail]; simpa using hlen)
        rw [show rowsAhead forward base (.at e.1) = rest from htail] at hr hend
        rw [List.find?_cons_of_neg (by simp [hs])]
        refine ⟨cursor', ?_, hend⟩
        refine hread.bind (hskip.bind ?_)
        rw [hs]
        exact hr
      · rw [List.find?_cons_of_pos (by simp [hs])]
        refine ⟨cursor, ?_, fun h => by cases h⟩
        refine hread.bind (hskip.bind ?_)
        rw [if_neg hs]
        exact Prog.Runs.pure _ _

/-- **Where the merged cursor stands**: in the merged rows of its table; past an end, the origin
cursor stands past that end too. -/
structure At (c : BufferedCursor ρ) (r : Rows) (p : Position) : Prop where
  valid : c.table.validate = .ok ()
  rows_eq : r = (LawfulRead.rows c.origin c.table).overlay (c.rows.getD OrdMap.empty)
  position_eq : c.position = p
  at_end : ∀ forward, p = .past forward →
    LawfulCursor.At c.cursor (LawfulRead.rows c.origin c.table) (.past forward)

omit [LawfulCursor ρ] in
lemma skips_eq (c : BufferedCursor ρ) (key : Bytes) :
    c.skips key = (decide (c.position = .at key) || (c.rows.getD OrdMap.empty).contains key) := by
  unfold skips
  cases c.rows with
  | none => cases c.position <;> simp [OrdMap.contains]
  | some rows => cases c.position <;> simp

/-- The origin cursor after it was placed again, and what a move can then reach: the rows ahead
of the merged position, and perhaps the row at it. -/
lemma reposition_runs {c : BufferedCursor ρ} {r : Rows} {p : Position} (h : c.At r p) {forward : Bool}
    (hp : p ≠ .past forward) :
    ∃ cursor q, Prog.Runs reposition c () { c with cursor := cursor } ∧
      LawfulCursor.At cursor (LawfulRead.rows c.origin c.table) q ∧
      (rowsAhead forward (LawfulRead.rows c.origin c.table) q).filter (fun e => !c.skips e.1)
        = originAhead forward (LawfulRead.rows c.origin c.table) (c.rows.getD OrdMap.empty) p := by
  have hfilter : ∀ q : Position, (∀ key, (q.reaches forward key && !decide (p = .at key)) = p.reaches forward key) →
      (rowsAhead forward (LawfulRead.rows c.origin c.table) q).filter (fun e => !c.skips e.1)
        = originAhead forward (LawfulRead.rows c.origin c.table) (c.rows.getD OrdMap.empty) p := by
    intro q hq
    rw [originAhead, rowsAhead, rowsAhead, List.filter_filter, List.filter_filter]
    refine List.filter_congr fun e _ => ?_
    rw [skips_eq, h.position_eq, ← hq e.1, Bool.not_or]
    cases q.reaches forward e.1 <;> cases decide (p = .at e.1) <;> simp
  have hplace : ∀ k, c.position = .key k ∨ c.position = .at k → ∃ cursor,
      Prog.Runs reposition c () { c with cursor := cursor } ∧
      LawfulCursor.At cursor (LawfulRead.rows c.origin c.table) (.key k) := by
    intro k hk
    obtain ⟨cursor, hc, hat⟩ := LawfulCursor.cursor_eq h.valid c.origin k
    refine ⟨cursor, ?_, hat⟩
    show reposition c = _
    unfold reposition
    rcases hk with hk | hk
    · simp only [hk, hc]
    · simp only [hk, hc]
  have hstay : c.position = .before ∨ c.position = .after → Prog.Runs reposition c () c := by
    intro hk
    show reposition c = _
    unfold reposition
    rcases hk with hk | hk
    · simp only [hk]
    · simp only [hk]
  have hpos := h.position_eq
  cases p with
  | key k =>
    obtain ⟨cursor, hr, hat⟩ := hplace k (.inl hpos)
    exact ⟨cursor, .key k, hr, hat, hfilter _ fun key => by simp⟩
  | «at» k =>
    obtain ⟨cursor, hr, hat⟩ := hplace k (.inr hpos)
    refine ⟨cursor, .key k, hr, hat, hfilter _ fun key => ?_⟩
    simp only [Position.reaches, Position.at.injEq]
    by_cases hk : k = key
    · subst hk
      simp [Dir.irrefl]
    · simp [hk]
  | before =>
    refine ⟨c.cursor, .before, hstay (.inl hpos), ?_, hfilter _ fun key => by simp⟩
    exact h.at_end false rfl
  | after =>
    refine ⟨c.cursor, .after, hstay (.inr hpos), ?_, hfilter _ fun key => by simp⟩
    exact h.at_end true rfl

/-- **A move of the merged cursor** reaches the next row of the merged table. -/
theorem step_at {c : BufferedCursor ρ} {r : Rows} {p : Position} (h : c.At r p) (forward : Bool) :
    ∃ c', Prog.Runs (step forward) c (rowMove forward r p) c' ∧
      c'.At r (settle (rowMove forward r p) (.past forward)) := by
  by_cases hp : p = .past forward
  · have hnone : rowMove forward r p = none := by
      subst hp
      cases forward <;> rfl
    refine ⟨c, ?_, ?_⟩
    · rw [hnone]
      refine (Prog.Runs.read rfl).bind ?_
      rw [if_pos (by rw [h.position_eq, hp]; cases forward <;> simp [Position.past])]
      exact Prog.Runs.pure _ _
    · rw [hnone]
      subst hp
      exact h
  · obtain ⟨cursor, q, hrepos, hat, hfilter⟩ := reposition_runs h hp
    obtain ⟨cursor', horigin, hend⟩ := originNext_runs forward
      (ReadTransaction.fuel c.origin c.table + 1) q { c with cursor := cursor } hat
      (Nat.lt_succ_of_le ((rowsAhead_length_le forward _ q).trans (LawfulCursor.size_le c.origin c.table)))
    rw [← List.head?_filter] at horigin hend
    rw [show (rowsAhead forward (LawfulRead.rows c.origin c.table) q).filter
      (fun e => !({ c with cursor := cursor } : BufferedCursor ρ).skips e.1) = _ from hfilter] at horigin hend
    have hstaged : (c.rows.bind fun rows => stagedNext rows c.position forward)
        = (stagedAhead forward (c.rows.getD OrdMap.empty) p).head? := by
      rw [h.position_eq]
      cases c.rows with
      | none => cases forward <;> rfl
      | some rows => exact stagedNext_eq hp rows
    have hmerged := @merged_eq forward p (LawfulRead.rows c.origin c.table) (c.rows.getD OrdMap.empty)
    rw [← h.rows_eq] at hmerged
    refine ⟨{ c with cursor := cursor', position := settle (rowMove forward r p) (.past forward) }, ?_, ?_⟩
    · refine (Prog.Runs.read rfl).bind ?_
      rw [if_neg (by rw [h.position_eq]; cases forward <;> simpa [Position.past] using hp)]
      refine hrepos.bind (horigin.bind ?_)
      rw [hstaged, hmerged]
      rfl
    · refine ⟨h.valid, h.rows_eq, rfl, fun dir hdir => ?_⟩
      cases hrow : rowMove forward r p with
      | some e =>
        rw [hrow] at hdir
        cases dir <;> cases hdir
      | none =>
        have hdir : dir = forward := by
          rw [hrow] at hdir
          cases dir <;> cases forward <;> first | rfl | cases hdir
        subst hdir
        refine hend ?_
        rw [hrow] at hmerged
        cases hA : (originAhead dir (LawfulRead.rows c.origin c.table) (c.rows.getD OrdMap.empty) p).head? with
        | none => rfl
        | some a =>
          rw [hA] at hmerged
          cases hB : (stagedAhead dir (c.rows.getD OrdMap.empty) p).head? <;> rw [hB] at hmerged <;>
            cases hmerged

end BufferedCursor

/-! ### The buffer keeps the whole contract -/

lemma size_overlay_le (base : Rows) (staged : StagedRows) :
    (base.overlay staged).size ≤ base.size + staged.size := by
  have hinsert : ∀ (k v : Bytes) (l : List Entry), (OrdMap.insertEntry k v l).length ≤ l.length + 1 := by
    intro k v l
    induction l with
    | nil => exact le_rfl
    | cons e l ih =>
      rw [OrdMap.insertEntry]
      split_ifs
      · simp
      · simp
      · simpa using ih
  have hset : ∀ (m : Rows) (k : Bytes) (v : Option Bytes), (m.set k v).size ≤ m.size + 1 := by
    intro m k v
    cases v with
    | none => exact (List.length_filter_le _ _).trans (Nat.le_succ _)
    | some v => exact hinsert k v m.entries
  have hfold : ∀ (l : List (Bytes × Option Bytes)) (m : Rows),
      (l.foldl (fun m e => m.set e.1 e.2) m).size ≤ m.size + l.length := by
    intro l
    induction l with
    | nil => exact fun m => le_rfl
    | cons e l ih =>
      intro m
      have h1 := ih (m.set e.1 e.2)
      have h2 := hset m e.1 e.2
      rw [List.foldl_cons, List.length_cons]
      omega
  exact hfold staged.entries base

variable {ρ : Type} [ReadTransaction ρ] [LawfulCursor ρ]

instance : LawfulCursor (Buffered ρ) where
  At := BufferedCursor.At
  size_le b t := (size_overlay_le _ _).trans
    (Nat.add_le_add_right (LawfulCursor.size_le b.origin t) _)
  cursor_eq {t} ht b k := by
    obtain ⟨cursor, hc, hat⟩ := LawfulCursor.cursor_eq ht b.origin k
    refine ⟨⟨b.origin, t, cursor, b.writes.get? t, .key k⟩, ?_, ⟨ht, rfl, rfl, fun forward h => ?_⟩⟩
    · show Buffered.cursor b t k = _
      rw [Buffered.cursor, ht, hc]
      rfl
    · cases forward <;> cases h
  next_eq h := BufferedCursor.step_at h true
  prev_eq h := BufferedCursor.step_at h false

instance : LawfulTransaction (Buffered ρ) where
  put_eq := LawfulWrite.put_eq
  insert_eq := LawfulWrite.insert_eq
  insert_exists := LawfulWrite.insert_exists
  delete_eq := LawfulWrite.delete_eq
  put_invalid {t e} ht b k v := by
    show (Buffered.put t k v).exec b = _
    rw [Buffered.put, Prog.exec_bind, ht]
    rfl
  insert_invalid {t e} ht b k v := by
    show (Buffered.insert t k v).exec b = _
    have hget : (Prog.read fun b : Buffered ρ => b.get t k).exec b = (.error e, b) :=
      Prod.ext (by rw [Prog.exec, Prog.read, Buffered.get, ht]; rfl) rfl
    rw [Buffered.insert, Prog.exec_bind, hget]
  delete_invalid {t e} ht b k := by
    show (Buffered.delete t k).exec b = _
    have hget : (Prog.read fun b : Buffered ρ => b.get t k).exec b = (.error e, b) :=
      Prod.ext (by rw [Prog.exec, Prog.read, Buffered.get, ht]; rfl) rfl
    rw [Buffered.delete, Prog.exec_bind, hget]
  get_invalid {t e} ht b k := by
    show b.get t k = _
    rw [Buffered.get, ht]
    rfl
  cursor_invalid {t e} ht b k := by
    show b.cursor t k = _
    rw [Buffered.cursor, ht]
    rfl

/-- **A seal buffer cannot be told from a store's writer**: both answer every sequence of accesses
alike, and the rows of the buffer, replayed over the state it was begun in, are the rows that the
writer would commit. -/
theorem buffered_indistinguishable (store : MemoryStore) (accesses : List Access) :
    (run accesses (Buffered.new store.beginRead)).1 = (run accesses store.beginWrite).1 ∧
      ∃ tx, Prog.Runs (replay (run accesses (Buffered.new store.beginRead)).2.intoWrites)
          store.beginWrite () tx ∧
        (store.commit tx).committed.rowsOf
          = (store.commit (run accesses store.beginWrite).2).committed.rowsOf := by
  obtain ⟨hanswers, hrows⟩ := run_eq accesses (Buffered.new store.beginRead) store.beginWrite rfl
  refine ⟨hanswers, ?_⟩
  set b := (run accesses (Buffered.new store.beginRead)).2 with hb
  have horigin : b.origin = store.beginRead :=
    run_keeps (fun t _ => originFrame_allows t) accesses (Buffered.new store.beginRead)
  have hvalid : b.writes.Valid := by
    refine run_keeps (fun t ht => validFrame_allows ht) accesses (Buffered.new store.beginRead) ?_
    intro t ht
    exact absurd rfl ht
  obtain ⟨tx, hrun, htx⟩ := runs_replay hvalid store.beginWrite
  refine ⟨tx, hrun, ?_⟩
  show rows tx = rows (run accesses store.beginWrite).2
  rw [← hrows]
  funext t
  rw [htx t]
  show (rows store.beginRead t).overlay _ = (rows b.origin t).overlay _
  rw [horigin]

end GolemDb.Branch
