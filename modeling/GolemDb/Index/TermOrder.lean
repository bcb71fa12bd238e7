import GolemDb.Cells.Native
import GolemDb.Index.Table

/-!
Terms and ranges in the order of values. The terms of one name and type sort as the native values
they were made from (`term_order`), and a range of terms selects the terms of its run whose values
lie between its bounds (`range_selects`): the open ends stay inside the run, and the scan of a range
lists the selected rows.
-/

namespace GolemDb.Index

open GolemDb.Lib GolemDb.Storage GolemDb.Merkle GolemDb.Cells

/-! ### The order of terms -/

lemma supported_ok {ty : CellType} : supported ty = .ok () ↔ ty ≠ .bytes := by
  unfold supported
  split_ifs with h <;> simp [h]

/-- The term of a value under a valid name. -/
lemma fromStrName_eq {name : Bytes} {v : CellValue} (hn : UserName name) (hty : v.ty ≠ .bytes) :
    ∃ t, IndexTerm.fromStrName name v = .ok t ∧ t.bytes = termBytes name v.ty v.value := by
  have hp := IndexTerm.pfx_ok.mpr ⟨hn, hty, rfl⟩
  unfold IndexTerm.fromStrName
  split
  · rename_i e he
    rw [hp] at he
    cases he
  · rename_i out ho
    rw [hp] at ho
    cases ho
    exact ⟨_, rfl, rfl⟩

/-- **The terms of a name and a type sort as the values do**, and are equal when the values are. -/
theorem term_order {name : Bytes} (hname : validateName name = .ok ()) {ty : CellType} (hty : supported ty = .ok ())
    {a b : Native ty} {va vb : CellValue} (ha : ofNative ty a = .ok va) (hb : ofNative ty b = .ok vb) :
    ∃ ta tb, IndexTerm.fromStrName name va = .ok ta ∧ IndexTerm.fromStrName name vb = .ok tb ∧
      (ta.bytes < tb.bytes ↔ NativeLt ty a b) ∧ (ta = tb ↔ NativeEq ty a b) := by
  have hn := validateName_ok.mp hname
  have hb' := supported_ok.mp hty
  have hta := (ofNative_ok ha).1
  have htb := (ofNative_ok hb).1
  obtain ⟨ta, h1, h2⟩ := fromStrName_eq (v := va) hn (by rw [hta]; exact hb')
  obtain ⟨tb, h3, h4⟩ := fromStrName_eq (v := vb) hn (by rw [htb]; exact hb')
  have hlt : ta.bytes < tb.bytes ↔ NativeLt ty a b := by
    rw [h2, h4, hta, htb, termBytes, termBytes, append_lt_append_left_iff, ofNative_lt_iff hb' ha hb]
  have hgt : tb.bytes < ta.bytes ↔ NativeLt ty b a := by
    rw [h2, h4, hta, htb, termBytes, termBytes, append_lt_append_left_iff, ofNative_lt_iff hb' hb ha]
  refine ⟨ta, tb, h1, h3, hlt, ?_⟩
  rw [nativeEq_iff hb', ← hlt, ← hgt, not_lt, not_lt, and_comm, ← le_antisymm_iff]
  exact ⟨fun h => by rw [h], IndexTerm.ext_bytes⟩

/-- Minus one sorts below zero, and the two zeros of a float have one term. -/
theorem term_order_numbers :
    (∃ ta tb, IndexTerm.fromStrName (ascii "age") (CellValue.fromI32 ⟨-1, by decide⟩) = .ok ta ∧
      IndexTerm.fromStrName (ascii "age") (CellValue.fromI32 ⟨0, by decide⟩) = .ok tb ∧ ta.bytes < tb.bytes) ∧
    ∃ vz vm tz tm, CellValue.fromF32 0 = .ok vz ∧ CellValue.fromF32 (Fin.ofNat _ (2 ^ 31)) = .ok vm ∧
      IndexTerm.fromStrName (ascii "age") vz = .ok tz ∧ IndexTerm.fromStrName (ascii "age") vm = .ok tm ∧ tz = tm := by
  have hname : validateName (ascii "age") = .ok () := by decide
  constructor
  · obtain ⟨ta, tb, h1, h2, hlt, -⟩ := term_order hname (show supported (.int .w4) = .ok () from rfl)
      (show ofNative (.int .w4) ⟨-1, by decide⟩ = .ok _ from rfl)
      (show ofNative (.int .w4) ⟨0, by decide⟩ = .ok _ from rfl)
    exact ⟨ta, tb, h1, h2, hlt.mpr (by show (-1 : ℤ) < 0; decide)⟩
  · obtain ⟨vz, hz⟩ : ∃ v, CellValue.fromF32 0 = .ok v := fromF32_accepts (by decide +kernel)
    obtain ⟨vm, hm⟩ : ∃ v, CellValue.fromF32 (Fin.ofNat _ (2 ^ 31)) = .ok v :=
      fromF32_accepts (by decide +kernel)
    obtain ⟨tz, tm, h1, h2, -, heq⟩ := term_order hname (show supported (.float .f32) = .ok () from rfl) hz hm
    exact ⟨vz, vm, tz, tm, hz, hm, h1, h2, heq.mpr (by
      show magnitudeOfBe (U32.toBeBytes 0) = magnitudeOfBe (U32.toBeBytes (Fin.ofNat _ (2 ^ 31)))
      decide +kernel)⟩

/-! ### What a range stands for -/

/-- The bounded sides have the type, and there is one. -/
def CommonType (lower upper : Bound CellValue) (ty : CellType) : Prop :=
  (lower ≠ .unbounded ∨ upper ≠ .unbounded) ∧ ∀ v, lower.value? = some v ∨ upper.value? = some v → v.ty = ty

/-- The payload's value is within the lower bound, in the order of the type. -/
def FromLower (ty : CellType) (lower : Bound CellValue) (payload : Bytes) : Prop :=
  match lower with
  | .included v => ¬ PayloadLt ty payload v.value
  | .excluded v => PayloadLt ty v.value payload
  | .unbounded => True

/-- The payload's value is within the upper bound. -/
def ToUpper (ty : CellType) (upper : Bound CellValue) (payload : Bytes) : Prop :=
  match upper with
  | .included v => ¬ PayloadLt ty v.value payload
  | .excluded v => PayloadLt ty payload v.value
  | .unbounded => True

/-- **The terms a range stands for**: those of the name and the bounds' type with a value between
the bounds. -/
def Selects (name : CellName) (lower upper : Bound CellValue) (t : IndexTerm) : Prop :=
  ∃ ty payload, CommonType lower upper ty ∧ TermParts name ty payload ∧ t.bytes = termBytes name ty payload ∧
    FromLower ty lower payload ∧ ToUpper ty upper payload

lemma boundType_ok {lower upper : Bound CellValue} {ty : CellType} :
    TermRange.boundType lower upper = .ok ty ↔ CommonType lower upper ty := by
  have hnone : ∀ b : Bound CellValue, b.value? = none ↔ b = .unbounded := by
    intro b
    cases b <;> simp [Bound.value?]
  unfold TermRange.boundType CommonType
  rw [← not_and_or, ← hnone, ← hnone]
  cases hl : lower.value? with
  | none => cases hu : upper.value? <;> simp
  | some l =>
    cases hu : upper.value? with
    | none => simp
    | some h =>
      by_cases he : l.ty = h.ty
      · simp only [he, ne_eq, not_true_eq_false, if_false, Except.ok.injEq, reduceCtorEq, false_and, not_false_eq_true,
          Option.some.injEq, true_and]
        constructor
        · rintro ht v (rfl | rfl)
          · exact he.trans ht
          · exact ht
        · exact fun hall => hall h (.inr rfl)
      · simp only [ne_eq, he, not_false_eq_true, if_true, reduceCtorEq, Option.some.injEq, false_iff, not_and]
        intro _ hall
        exact he ((hall l (.inl rfl)).trans (hall h (.inr rfl)).symm)

/-! ### Keys of a run -/

/-- The prefix of a run. -/
def runPrefix (name : Bytes) (ty : CellType) : Bytes := name ++ [0, CellValue.tag ty true]

/-- The key of a side, `whole` standing for the end of the run. -/
def sideKey (run : Bytes) (whole : Bound Bytes) : Bound CellValue → Bound Bytes
  | .included v => .included (run ++ v.value)
  | .excluded v => .excluded (run ++ v.value)
  | .unbounded => whole

lemma side_eq {name : Bytes} {ty : CellType} {bound : Bound CellValue} {whole : Bound Bytes} (hn : UserName name)
    (hty : ty ≠ .bytes) (hv : ∀ v, bound.value? = some v → v.ty = ty) :
    TermRange.side name bound whole = .ok (sideKey (runPrefix name ty) whole bound) := by
  have hterm : ∀ v, bound.value? = some v →
      ∃ t, IndexTerm.fromStrName name v = .ok t ∧ t.bytes = runPrefix name ty ++ v.value := by
    intro v h
    have hvt := hv v h
    obtain ⟨t, ht, hb⟩ := fromStrName_eq (v := v) hn (by rw [hvt]; exact hty)
    exact ⟨t, ht, by rw [hb, hvt]; rfl⟩
  cases bound with
  | unbounded => rfl
  | included v =>
    obtain ⟨t, ht, hb⟩ := hterm v rfl
    rw [TermRange.side, ht, mapError_ok, sideKey, ← hb]
    rfl
  | excluded v =>
    obtain ⟨t, ht, hb⟩ := hterm v rfl
    rw [TermRange.side, ht, mapError_ok, sideKey, ← hb]
    rfl

/-- A range of admissible bounds, by its keys. -/
lemma between_eq {name : Bytes} {lower upper : Bound CellValue} {ty : CellType}
    (hcommon : CommonType lower upper ty) (hn : UserName name) (hty : ty ≠ .bytes) :
    TermRange.between name lower upper =
      .ok (if TermRange.isEmpty (sideKey (runPrefix name ty) (.included (runPrefix name ty)) lower)
          (sideKey (runPrefix name ty) (past (runPrefix name ty)) upper) then none
        else some ⟨sideKey (runPrefix name ty) (.included (runPrefix name ty)) lower,
          sideKey (runPrefix name ty) (past (runPrefix name ty)) upper⟩) := by
  unfold TermRange.between
  rw [boundType_ok.mpr hcommon, ok_bind, nameStr_userName hn, mapError_ok, ok_bind,
    IndexTerm.pfx_ok.mpr ⟨hn, hty, rfl⟩, mapError_ok, ok_bind,
    side_eq hn hty fun v hv => hcommon.2 v (.inl hv), ok_bind,
    side_eq hn hty fun v hv => hcommon.2 v (.inr hv), ok_bind]
  rfl

/-- Below the end of a run are the keys below its successor. -/
lemma past_above {run key : Bytes} : (past run).above key = true ↔ ∀ s, afterPrefix run = some s → key < s := by
  unfold past afterPrefix
  cases run.reverse.dropWhile (· = 0xff) with
  | nil => simp [Bound.above]
  | cons last rest => simp [Bound.above]

lemma append_le_append_left_iff (p a b : Bytes) : p ++ a ≤ p ++ b ↔ a ≤ b := by
  rw [← not_lt, append_lt_append_left_iff, not_lt]

/-- The payload is within a lower side, bytewise. -/
def BytesFrom (lower : Bound CellValue) (payload : Bytes) : Prop :=
  match lower with
  | .included v => v.value ≤ payload
  | .excluded v => v.value < payload
  | .unbounded => True

/-- The payload is within an upper side, bytewise. -/
def BytesTo (upper : Bound CellValue) (payload : Bytes) : Prop :=
  match upper with
  | .included v => payload ≤ v.value
  | .excluded v => payload < v.value
  | .unbounded => True

/-- **The keys between the sides are those of the run** with a payload between the values. -/
lemma between_keys_iff {run key : Bytes} {lower upper : Bound CellValue} :
    (sideKey run (.included run) lower).below key = true ∧ (sideKey run (past run) upper).above key = true ↔
      ∃ payload, key = run ++ payload ∧ BytesFrom lower payload ∧ BytesTo upper payload := by
  constructor
  · rintro ⟨hl, hu⟩
    have hrun : run ≤ key := by
      cases lower with
      | included v => exact le_trans (le_append run v.value) (by simpa [sideKey, Bound.below] using hl)
      | excluded v => exact le_trans (le_append run v.value) (le_of_lt (by simpa [sideKey, Bound.below] using hl))
      | unbounded => simpa [sideKey, Bound.below] using hl
    -- a key of the run lies below the run's successor, and so does what is below it
    have hend : ∀ s, afterPrefix run = some s → key < s := by
      intro s hs
      have hkey : ∀ v : CellValue, run ++ v.value < s := fun v =>
        (prefix_iff_range.mp (List.prefix_append run v.value)).2 s hs
      cases upper with
      | included v => exact lt_of_le_of_lt (by simpa [sideKey, Bound.above] using hu) (hkey v)
      | excluded v => exact lt_trans (by simpa [sideKey, Bound.above] using hu) (hkey v)
      | unbounded => exact past_above.mp hu s hs
    obtain ⟨payload, rfl⟩ := prefix_iff_range.mpr ⟨hrun, hend⟩
    refine ⟨payload, rfl, ?_, ?_⟩
    · cases lower with
      | included v => exact (append_le_append_left_iff run _ _).mp (by simpa [sideKey, Bound.below] using hl)
      | excluded v => exact (append_lt_append_left_iff run _ _).mp (by simpa [sideKey, Bound.below] using hl)
      | unbounded => trivial
    · cases upper with
      | included v => exact (append_le_append_left_iff run _ _).mp (by simpa [sideKey, Bound.above] using hu)
      | excluded v => exact (append_lt_append_left_iff run _ _).mp (by simpa [sideKey, Bound.above] using hu)
      | unbounded => trivial
  · rintro ⟨payload, rfl, hl, hu⟩
    constructor
    · cases lower with
      | included v => exact decide_eq_true ((append_le_append_left_iff run _ _).mpr hl)
      | excluded v => exact decide_eq_true ((append_lt_append_left_iff run _ _).mpr hl)
      | unbounded => exact decide_eq_true (le_append run payload)
    · cases upper with
      | included v => exact decide_eq_true ((append_le_append_left_iff run _ _).mpr hu)
      | excluded v => exact decide_eq_true ((append_lt_append_left_iff run _ _).mpr hu)
      | unbounded => exact past_above.mpr (prefix_iff_range.mp (List.prefix_append run payload)).2

/-- A side in the order of the type is the side bytewise. -/
lemma fromLower_iff {ty : CellType} (hty : ty ≠ .bytes) {lower : Bound CellValue} {payload : Bytes}
    (hv : ∀ v, lower.value? = some v → v.ty = ty) (hp : ty.validate payload = .ok ()) :
    FromLower ty lower payload ↔ BytesFrom lower payload := by
  have hvalid : ∀ v, lower.value? = some v → ty.validate v.value = .ok () := fun v h => hv v h ▸ v.valid
  cases lower with
  | included v => exact (not_congr (payloadLt_iff hty hp (hvalid v rfl))).trans not_lt
  | excluded v => exact payloadLt_iff hty (hvalid v rfl) hp
  | unbounded => exact Iff.rfl

lemma toUpper_iff {ty : CellType} (hty : ty ≠ .bytes) {upper : Bound CellValue} {payload : Bytes}
    (hv : ∀ v, upper.value? = some v → v.ty = ty) (hp : ty.validate payload = .ok ()) :
    ToUpper ty upper payload ↔ BytesTo upper payload := by
  have hvalid : ∀ v, upper.value? = some v → ty.validate v.value = .ok () := fun v h => hv v h ▸ v.valid
  cases upper with
  | included v => exact (not_congr (payloadLt_iff hty (hvalid v rfl) hp)).trans not_lt
  | excluded v => exact payloadLt_iff hty hp (hvalid v rfl)
  | unbounded => exact Iff.rfl

/-- The terms with a key between the sides are the selected ones. -/
lemma selects_iff {name : Bytes} {lower upper : Bound CellValue} {ty : CellType}
    (hcommon : CommonType lower upper ty) (hn : UserName name) (hty : ty ≠ .bytes) (t : IndexTerm) :
    ((sideKey (runPrefix name ty) (.included (runPrefix name ty)) lower).below t.bytes = true ∧
      (sideKey (runPrefix name ty) (past (runPrefix name ty)) upper).above t.bytes = true) ↔
      Selects name lower upper t := by
  have htype : ∀ {ty'}, CommonType lower upper ty' → ty' = ty := fun h =>
    Except.ok.inj ((boundType_ok.mpr h).symm.trans (boundType_ok.mpr hcommon))
  rw [between_keys_iff]
  constructor
  · rintro ⟨payload, hkey, hl, hu⟩
    obtain ⟨name', ty', payload', hparts, hbytes⟩ := t.canonical
    obtain ⟨rfl, rfl, rfl⟩ := IndexTerm.termBytes_inj hparts.1 hn (hbytes.symm.trans hkey)
    exact ⟨ty', payload', hcommon, hparts, hbytes,
      (fromLower_iff hty (fun v h => hcommon.2 v (.inl h)) hparts.2.2).mpr hl,
      (toUpper_iff hty (fun v h => hcommon.2 v (.inr h)) hparts.2.2).mpr hu⟩
  · rintro ⟨ty', payload, hc, hparts, hbytes, hl, hu⟩
    obtain rfl := htype hc
    exact ⟨payload, hbytes, (fromLower_iff hty (fun v h => hcommon.2 v (.inl h)) hparts.2.2).mp hl,
      (toUpper_iff hty (fun v h => hcommon.2 v (.inr h)) hparts.2.2).mp hu⟩

/-- Sides that admit no term have no key between them. -/
lemma not_between_of_isEmpty {lower upper : Bound Bytes} (h : TermRange.isEmpty lower upper = true) {key : Bytes}
    (hl : lower.below key = true) (hu : upper.above key = true) : False := by
  cases lower <;> cases upper <;> simp [TermRange.isEmpty, Bound.below, Bound.above] at h hl hu
  · exact absurd (lt_of_le_of_lt (le_trans hl hu) h) (lt_irrefl _)
  · exact absurd (lt_of_le_of_lt hl (lt_of_lt_of_le hu h)) (lt_irrefl _)
  · exact absurd (lt_of_lt_of_le hl (le_trans hu h)) (lt_irrefl _)
  · exact absurd (lt_trans hl (lt_of_lt_of_le hu h)) (lt_irrefl _)

/-- Sides that admit a term are not reversed. -/
lemma not_reversed_of_not_isEmpty {lower upper : Bound Bytes} (h : TermRange.isEmpty lower upper = false) :
    reversed lower upper = false := by
  cases lower <;> cases upper <;> simp [TermRange.isEmpty, reversed, Bound.value?] at h ⊢
  · exact h
  · exact le_of_lt h
  · exact le_of_lt h
  · exact le_of_lt h

/-! ### Ranges -/

section Range

variable {name : CellName} {lower upper : Bound CellValue} {ty : CellType}

lemma nameStr_invalid (h : ¬ UserName name) :
    nameStr name = .error .invalidName ∨ nameStr name = .ok name ∧ validateName name = .error .invalidName := by
  cases hs : nameStr name with
  | error e =>
    unfold nameStr at hs
    split at hs
    · cases hs
    · exact .inl hs.symm
  | ok s =>
    obtain rfl := nameStr_ok hs
    refine .inr ⟨rfl, ?_⟩
    cases hv : validateName s with
    | ok u => exact absurd (validateName_ok.mp hv) h
    | error e =>
      unfold validateName at hv
      split at hv
      · exact hv.symm
      · split_ifs at hv
        exact hv.symm

/-- A bad name fails before the type is looked at. -/
lemma between_invalidName (hcommon : CommonType lower upper ty) (hn : ¬ UserName name) :
    TermRange.between name lower upper = .error (.term .invalidName) := by
  unfold TermRange.between
  rw [boundType_ok.mpr hcommon, ok_bind]
  rcases nameStr_invalid hn with hs | ⟨hs, hv⟩
  · rw [hs]
    rfl
  · rw [hs, mapError_ok, ok_bind, IndexTerm.pfx, hv]
    rfl

lemma between_unsupported (hcommon : CommonType lower upper .bytes) (hn : UserName name) :
    TermRange.between name lower upper = .error (.term (.unsupportedType .bytes)) := by
  unfold TermRange.between
  rw [boundType_ok.mpr hcommon, ok_bind, nameStr_userName hn, mapError_ok, ok_bind, IndexTerm.pfx,
    validateName_ok.mpr hn]
  rfl

/-- Bounds that make a range or an empty one have a common type and a valid name. -/
lemma between_ok {r : Option TermRange} (h : TermRange.between name lower upper = .ok r) :
    ∃ ty, CommonType lower upper ty ∧ UserName name ∧ ty ≠ .bytes := by
  obtain ⟨ty, hty, -⟩ := bind_eq_ok.mp h
  have hcommon := boundType_ok.mp hty
  by_cases hn : UserName name
  · by_cases hb : ty = .bytes
    · subst hb
      rw [between_unsupported hcommon hn] at h
      cases h
    · exact ⟨ty, hcommon, hn, hb⟩
  · rw [between_invalidName hcommon hn] at h
    cases h

/-- A range contains the selected terms, and its sides are in order. -/
lemma between_some {range : TermRange} (h : TermRange.between name lower upper = .ok (some range)) :
    (∀ t : IndexTerm, (range.lower.below t.bytes = true ∧ range.upper.above t.bytes = true) ↔
      Selects name lower upper t) ∧ reversed range.lower range.upper = false := by
  obtain ⟨ty, hcommon, hn, hb⟩ := between_ok h
  rw [between_eq hcommon hn hb] at h
  have h := Except.ok.inj h
  split_ifs at h with he
  obtain rfl := Option.some.inj h
  exact ⟨selects_iff hcommon hn hb, not_reversed_of_not_isEmpty (by simpa using he)⟩

lemma between_none (h : TermRange.between name lower upper = .ok none) (t : IndexTerm) :
    ¬ Selects name lower upper t := by
  obtain ⟨ty, hcommon, hn, hb⟩ := between_ok h
  rw [between_eq hcommon hn hb] at h
  have h := Except.ok.inj h
  split_ifs at h with he
  intro ht
  obtain ⟨hl, hu⟩ := (selects_iff hcommon hn hb t).mpr ht
  exact not_between_of_isEmpty he hl hu

end Range

/-- **A range of terms selects its run between the bounds.** The errors of `between` come in the order
no bound, two types, a bad name, a type without an order; a range it returns contains the selected
terms alone, and its scan never fails on the bounds and lists the selected rows in order; where it
returns none there is no such term. -/
theorem range_selects (H : HashProvider) {τ : Type} [ReadTransaction τ] [LawfulCursor τ] (tx : τ) (name : CellName)
    (lower upper : Bound CellValue) :
    (lower = .unbounded ∧ upper = .unbounded → TermRange.between name lower upper = .error .noBound) ∧
    (∀ low high, lower.value? = some low → upper.value? = some high → low.ty ≠ high.ty →
      TermRange.between name lower upper = .error (.typeMismatch low.ty high.ty)) ∧
    (∀ ty, CommonType lower upper ty → ¬ UserName name →
      TermRange.between name lower upper = .error (.term .invalidName)) ∧
    (CommonType lower upper .bytes → UserName name →
      TermRange.between name lower upper = .error (.term (.unsupportedType .bytes))) ∧
    (∀ ty, CommonType lower upper ty → UserName name → ty ≠ .bytes → ∃ r, TermRange.between name lower upper = .ok r) ∧
    (TermRange.between name lower upper = .ok none → ∀ t, ¬ Selects name lower upper t) ∧
    ∀ range, TermRange.between name lower upper = .ok (some range) →
      (∀ t : IndexTerm, (range.lower.below t.bytes = true ∧ range.upper.above t.bytes = true) ↔
        Selects name lower upper t) ∧
      (∃ items, terms H tx range = .ok items) ∧
      ∀ m : TermMap, rows tx INDEX = termRows m → Rooted H m → ∃ items : List (IndexTerm × Hash),
        terms H tx range = .ok (items.map .ok) ∧ items.Pairwise (fun a b => a.1 < b.1) ∧
          ∀ e, e ∈ items ↔ m.get? e.1 = some e.2 ∧ Selects name lower upper e.1 := by
  refine ⟨?_, ?_, fun ty => between_invalidName, between_unsupported, ?_, between_none, ?_⟩
  · rintro ⟨rfl, rfl⟩
    rfl
  · intro low high hl hu hne
    unfold TermRange.between TermRange.boundType
    rw [hl, hu]
    simp only
    rw [if_pos hne]
    rfl
  · intro ty hcommon hn hb
    exact ⟨_, between_eq hcommon hn hb⟩
  · intro range hrange
    obtain ⟨hselects, hreversed⟩ := between_some hrange
    refine ⟨hselects, ?_, fun m hm hroots => ?_⟩
    · obtain ⟨s, hs, -⟩ := collect_scan INDEX_valid tx hreversed
      unfold terms
      rw [hs, mapError_ok, ok_bind]
      exact ⟨_, rfl⟩
    · refine ⟨_, terms_termRows hroots hm hreversed, m.sorted.filter _, fun e => ?_⟩
      rw [List.mem_filter, OrdMap.mem_entries, Bool.and_eq_true, hselects]

/-- Nothing lies between two bounds in the wrong order. -/
example : TermRange.between (ascii "age") (.included (CellValue.fromU32 2))
    (.included (CellValue.fromU32 1)) = .ok none := by
  decide +kernel

end GolemDb.Index
