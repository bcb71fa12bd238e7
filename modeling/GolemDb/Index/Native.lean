import GolemDb.Cells.Access
import GolemDb.Index.Term

/-!
Terms from native values. `IndexTerm.new` takes a native big-endian string, classifies floats by
masking bits and applies the sign transforms itself; the cell's constructor does so by its own
functions. The two give one term (`new_agrees`), and every term of either is decoded to itself
(`term_codec`).
-/

namespace GolemDb.Index

open GolemDb.Lib GolemDb.Cells

/-! ### Native construction -/

/-- The sign, exponent and fraction masks of a bit pattern. -/
def floatMasks : FloatWidth → UInt64 × UInt64 × UInt64
  | .f32 => (0x80000000, 0x7f800000, 0x007fffff)
  | .f64 => (0x8000000000000000, 0x7ff0000000000000, 0x000fffffffffffff)

/-- Classify by bits: what is no number is refused, both zeros become zero bytes. -/
def validateFloat (bytes : Bytes) (width : FloatWidth) : Except TermError Bytes :=
  let bits := UInt64.ofNat (ofBe bytes)
  let (sign, exponent, fraction) := floatMasks width
  if bits &&& exponent = exponent ∧ bits &&& fraction ≠ 0 then .error .nan
  else if bits &&& ~~~sign = 0 then .ok (List.replicate bytes.length 0)
  else .ok bytes

/-- The sign transform of a classified float. -/
def orderFloat : Bytes → Bytes
  | [] => []
  | b :: l => if b &&& 0x80 ≠ 0 then (b :: l).map (~~~ ·) else (b ^^^ 0x80) :: l

/-- The ordered payload of native bytes, before the check of the stored form. -/
def ordered (ty : CellType) (value : Bytes) : Except TermError Bytes :=
  match ty with
  | .int _ => .ok (flipSign value)
  | .decimal _ => .ok (flipSign value)
  | .date32 => .ok (flipSign value)
  | .timestamp64 => .ok (flipSign value)
  | .float width => (validateFloat value width).map orderFloat
  | _ => .ok value

/-- What `new` appends to the prefix. -/
def payload (ty : CellType) (value : Bytes) : Except TermError Bytes := do
  (ty.checkWidth value).mapError TermError.value
  let ordered ← ordered ty value
  (ty.validate ordered).mapError TermError.value
  return ordered

lemma payload_valid {ty : CellType} {value out : Bytes} (h : payload ty value = .ok out) :
    ty.validate out = .ok () := by
  unfold payload at h
  simp only [bind_eq_ok, mapError_eq_ok, pure_eq_ok] at h
  obtain ⟨-, -, out', -, u, hv, rfl⟩ := h
  exact hv

/-- The term of a native value: two's complement for signed numbers, a bit pattern for floats. -/
def IndexTerm.new (name : Bytes) (ty : CellType) (value : Bytes) : Except TermError IndexTerm :=
  match h : IndexTerm.pfx name ty with
  | .error e => .error e
  | .ok out =>
    match hp : payload ty value with
    | .error e => .error e
    | .ok ordered => .ok ⟨out ++ ordered, name, ty, ordered,
        ⟨(IndexTerm.pfx_ok.mp h).1, (IndexTerm.pfx_ok.mp h).2.1, payload_valid hp⟩,
        by rw [termBytes, (IndexTerm.pfx_ok.mp h).2.2]⟩

/-- A name or type without terms has none of any value. -/
lemma IndexTerm.new_pfx_error {name : Bytes} {ty : CellType} {e : TermError} (h : IndexTerm.pfx name ty = .error e)
    (value : Bytes) : IndexTerm.new name ty value = .error e := by
  unfold IndexTerm.new
  split
  · rename_i e' he
    exact congrArg Except.error (Except.error.inj (he.symm.trans h))
  · rename_i out ho
    rw [h] at ho
    cases ho

lemma IndexTerm.new_payload_error {name value : Bytes} {ty : CellType} {e : TermError} (hn : UserName name)
    (hty : ty ≠ .bytes) (h : payload ty value = .error e) : IndexTerm.new name ty value = .error e := by
  have hpre := IndexTerm.pfx_ok.mpr ⟨hn, hty, rfl⟩
  unfold IndexTerm.new
  split
  · rename_i e' he
    rw [hpre] at he
    cases he
  · split
    · rename_i e' he
      exact congrArg Except.error (Except.error.inj (he.symm.trans h))
    · rename_i out ho
      rw [h] at ho
      cases ho

lemma IndexTerm.new_payload_ok {name value out : Bytes} {ty : CellType} (hn : UserName name) (hty : ty ≠ .bytes)
    (h : payload ty value = .ok out) : ∃ t, IndexTerm.new name ty value = .ok t ∧ t.bytes = termBytes name ty out := by
  have hpre := IndexTerm.pfx_ok.mpr ⟨hn, hty, rfl⟩
  unfold IndexTerm.new
  split
  · rename_i e' he
    rw [hpre] at he
    cases he
  · rename_i pre he
    rw [hpre] at he
    obtain rfl := Except.ok.inj he
    split
    · rename_i e' he'
      rw [h] at he'
      cases he'
    · rename_i out' he'
      rw [h] at he'
      obtain rfl := Except.ok.inj he'
      exact ⟨_, rfl, rfl⟩

/-- A term is built of a user name, an ordered type and a payload of it. -/
lemma IndexTerm.new_ok {name value : Bytes} {ty : CellType} {t : IndexTerm} (h : IndexTerm.new name ty value = .ok t) :
    UserName name ∧ ty ≠ .bytes ∧ ∃ out, payload ty value = .ok out ∧ t.bytes = termBytes name ty out := by
  cases hpre : IndexTerm.pfx name ty with
  | error e =>
    rw [IndexTerm.new_pfx_error hpre] at h
    cases h
  | ok pre =>
    obtain ⟨hn, hty, -⟩ := IndexTerm.pfx_ok.mp hpre
    cases hout : payload ty value with
    | error e =>
      rw [IndexTerm.new_payload_error hn hty hout] at h
      cases h
    | ok out =>
      obtain ⟨t', ht', hb⟩ := IndexTerm.new_payload_ok hn hty hout
      obtain rfl := Except.ok.inj (h.symm.trans ht')
      exact ⟨hn, hty, out, rfl, hb⟩

/-- The value matters by its payload alone. -/
lemma IndexTerm.new_congr {name value value' : Bytes} {ty : CellType} (h : payload ty value = payload ty value') :
    IndexTerm.new name ty value = IndexTerm.new name ty value' := by
  cases hpre : IndexTerm.pfx name ty with
  | error e => rw [IndexTerm.new_pfx_error hpre, IndexTerm.new_pfx_error hpre]
  | ok pre =>
    obtain ⟨hn, hty, -⟩ := IndexTerm.pfx_ok.mp hpre
    cases hout : payload ty value with
    | error e => rw [IndexTerm.new_payload_error hn hty hout, IndexTerm.new_payload_error hn hty (h ▸ hout)]
    | ok out =>
      obtain ⟨t, ht, hb⟩ := IndexTerm.new_payload_ok hn hty hout
      obtain ⟨t', ht', hb'⟩ := IndexTerm.new_payload_ok hn hty (h ▸ hout)
      rw [ht, ht', IndexTerm.ext_bytes (hb.trans hb'.symm)]

/-! ### Masks and fields -/

/-- A mask of `m` bits above `k` reads a field. -/
lemma and_field (x m k : ℕ) : x &&& (2 ^ m - 1) * 2 ^ k = x / 2 ^ k % 2 ^ m * 2 ^ k := by
  rw [← Nat.shiftLeft_eq, ← Nat.shiftLeft_eq, ← Nat.and_two_pow_sub_one_eq_mod, ← Nat.shiftRight_eq_div_pow]
  refine Nat.eq_of_testBit_eq fun i => ?_
  simp only [Nat.testBit_and, Nat.testBit_shiftLeft, Nat.testBit_shiftRight]
  by_cases hi : k ≤ i
  · simp [hi]
  · simp [hi]

/-- The masks of a width, by the widths of its fields. -/
lemma floatMasks_toNat (w : FloatWidth) :
    (floatMasks w).2.1.toNat = (2 ^ w.layout.1 - 1) * 2 ^ w.layout.2 ∧ (floatMasks w).2.2.toNat = 2 ^ w.layout.2 - 1 ∧
      (~~~(floatMasks w).1).toNat &&& 2 ^ (w.layout.1 + w.layout.2) - 1 = 2 ^ (w.layout.1 + w.layout.2) - 1 ∧
      2 ^ (w.layout.1 + w.layout.2) &&& (~~~(floatMasks w).1).toNat = 0 := by
  cases w <;> decide +kernel

/-- All but the sign bit are clear in the two zeros alone. -/
lemma and_unsigned {n k mask : ℕ} (hn : n < 2 * 2 ^ k) (hlow : mask &&& 2 ^ k - 1 = 2 ^ k - 1)
    (hsign : 2 ^ k &&& mask = 0) : n &&& mask = 0 ↔ n = 0 ∨ n = 2 ^ k := by
  constructor
  · intro h
    have hmod : n % 2 ^ k = 0 := by
      rw [← Nat.and_two_pow_sub_one_eq_mod, ← hlow, ← Nat.and_assoc, h, Nat.zero_and]
    obtain ⟨q, rfl⟩ := Nat.dvd_of_mod_eq_zero hmod
    have hq : q < 2 := by
      by_contra hq
      have : 2 ^ k * 2 ≤ 2 ^ k * q := Nat.mul_le_mul_left _ (by omega)
      omega
    interval_cases q
    · exact .inl (by omega)
    · exact .inr (by omega)
  · rintro (rfl | rfl)
    · exact Nat.zero_and _
    · exact hsign

/-- **The masks classify as the float operations do**, on every bit pattern. -/
lemma validateFloat_eq {w : FloatWidth} {be : Bytes} (h : (CellType.float w).width = some be.length) :
    validateFloat be w = if isNaN w be then .error .nan
      else if ofBe be = 0 ∨ isNegativeZero w be = true then .ok (List.replicate be.length 0) else .ok be := by
  have hhalf := half_width h
  have hlt : ofBe be < 2 * 2 ^ (w.layout.1 + w.layout.2) := by
    have hbe := ofBe_lt be
    cases hlen : be.length with
    | zero => cases w <;> (rw [hlen] at h; cases h)
    | succ n => rwa [hlen, pow_eq_half, ← hlen, hhalf] at hbe
  have hsize : ofBe be < 2 ^ 64 := by
    refine lt_of_lt_of_le hlt ?_
    cases w <;> decide
  obtain ⟨hexp, hfrac, hlow, hsign⟩ := floatMasks_toNat w
  have hbits : (UInt64.ofNat (ofBe be)).toNat = ofBe be := UInt64.toNat_ofNat_of_lt' hsize
  have hnan : (UInt64.ofNat (ofBe be) &&& (floatMasks w).2.1 = (floatMasks w).2.1 ∧
      UInt64.ofNat (ofBe be) &&& (floatMasks w).2.2 ≠ 0) ↔ isNaN w be = true := by
    have hpos : 0 < 2 ^ w.layout.2 := Nat.two_pow_pos _
    rw [← UInt64.toNat_inj, UInt64.toNat_and, hbits, hexp, and_field, Nat.mul_left_inj hpos.ne', ne_eq,
      ← UInt64.toNat_inj, UInt64.toNat_and, hbits, hfrac, Nat.and_two_pow_sub_one_eq_mod, isNaN]
    simp
  have hzero : UInt64.ofNat (ofBe be) &&& ~~~(floatMasks w).1 = 0 ↔ ofBe be = 0 ∨ isNegativeZero w be = true := by
    rw [← UInt64.toNat_inj, UInt64.toNat_and, hbits, isNegativeZero_iff h, hhalf]
    exact and_unsigned hlt hlow hsign
  unfold validateFloat
  simp only [hnan, hzero]

/-! ### Admissible values -/

/-- **The native strings a type admits**: of its width, and a truth value, a text or a number. -/
def Admissible (ty : CellType) (be : Bytes) : Prop :=
  (∀ n, ty.width = some n → be.length = n) ∧
    match ty with
    | .bool => be = [0] ∨ be = [1]
    | .str => fromUtf8 be = .ok be
    | .float w => isNaN w be = false
    | _ => True

lemma checkWidth_ok {ty : CellType} {value : Bytes} :
    ty.checkWidth value = .ok () ↔ ∀ n, ty.width = some n → value.length = n := by
  unfold CellType.checkWidth
  cases ty.width with
  | none => exact ⟨nofun, fun _ => rfl⟩
  | some n =>
    simp only [Option.some.injEq, forall_eq']
    split_ifs with h
    · simp [h]
    · simp [not_not.mp h]

/-- A classified float takes the stored form the cell's constructor gives it. -/
lemma orderFloat_cons {b : UInt8} {l : Bytes} (h : ¬ (b = 0x80 ∧ l.all (· = 0) = true)) :
    orderFloat (b :: l) = encodeFloat (b :: l) := by
  rw [orderFloat, encodeFloat, if_neg h]
  by_cases hs : b &&& 0x80 = 0
  · rw [if_neg (not_not.mpr hs), if_pos hs, flipSign]
  · rw [if_pos hs, if_neg hs]

lemma orderFloat_eq {w : FloatWidth} {be : Bytes} (h : (CellType.float w).width = some be.length)
    (hz : isNegativeZero w be = false) : orderFloat be = encodeFloat be := by
  cases be with
  | nil => rfl
  | cons b l =>
    refine orderFloat_cons fun hneg => ?_
    rw [(isNegativeZero_iff h).mpr (ofBe_eq_half_iff.mpr hneg)] at hz
    cases hz

/-- Both zeros take the stored form of zero. -/
lemma orderFloat_zero {w : FloatWidth} {be : Bytes} (h : (CellType.float w).width = some be.length)
    (hz : ofBe be = 0 ∨ isNegativeZero w be = true) : orderFloat (List.replicate be.length 0) = encodeFloat be := by
  cases be with
  | nil => rfl
  | cons b l =>
    rcases hz with hz | hz
    · have hzero : b :: l = List.replicate (b :: l).length 0 := by
        refine ofBe_inj (by simp) ?_
        rw [hz, ofBe_replicate_zero]
      rw [← hzero]
      refine orderFloat_cons fun hneg => ?_
      rw [hneg.1] at hzero
      cases (List.cons.inj hzero).1
    · rw [encodeFloat, if_pos (ofBe_eq_half_iff.mp ((isNegativeZero_iff h).mp hz)), List.length_cons,
        List.replicate_succ, orderFloat, if_neg (by decide), flipSign]

/-- **The two float transforms agree**: one refuses what is no number, as the other's caller does. -/
lemma ordered_float {w : FloatWidth} {be : Bytes} (h : (CellType.float w).width = some be.length) :
    ordered (.float w) be = if isNaN w be then .error .nan else .ok (stored (.float w) be) := by
  show (validateFloat be w).map orderFloat = _
  rw [validateFloat_eq h]
  split_ifs with hnan hz
  · rfl
  · exact congrArg Except.ok (orderFloat_zero h hz)
  · exact congrArg Except.ok (orderFloat_eq h (by simpa using fun hneg => hz (.inr hneg)))

/-- An admissible string is stored as a valid payload. -/
lemma validate_stored {ty : CellType} {be : Bytes} (h : Admissible ty be) : ty.validate (stored ty be) = .ok () := by
  obtain ⟨hlen, hval⟩ := h
  have hplain : ∀ {n : ℕ}, ty.plain = true → ty.width = some n → (stored ty be).length = be.length →
      ty.validate (stored ty be) = .ok () := fun hp hn hl =>
    CellType.validate_plain hp hn (hl.trans (hlen _ hn))
  cases ty with
  | bool => rcases hval with rfl | rfl <;> rfl
  | str => exact CellValue.valid (CellValue.fromStr ⟨be, hval⟩)
  | bytes => rfl
  | bytes20 => exact hplain rfl rfl rfl
  | fixedBytes w => exact hplain rfl rfl rfl
  | uint w => exact hplain rfl rfl rfl
  | int w => exact hplain rfl rfl (flipSign_length be)
  | decimal w => exact hplain rfl rfl (flipSign_length be)
  | date32 => exact hplain rfl rfl (flipSign_length be)
  | timestamp64 => exact hplain rfl rfl (flipSign_length be)
  | float w =>
    obtain ⟨n, hn⟩ : ∃ n, (CellType.float w).width = some n := by cases w <;> exact ⟨_, rfl⟩
    exact CellValue.validate_encodeFloat (hn.trans (by rw [hlen n hn])) hval

/-- An admissible string's payload is its stored form; every other string is refused. -/
lemma payload_ok {ty : CellType} {be out : Bytes} :
    payload ty be = .ok out ↔ Admissible ty be ∧ out = stored ty be := by
  constructor
  · intro h
    have hv := payload_valid h
    unfold payload at h
    simp only [bind_eq_ok, mapError_eq_ok, pure_eq_ok] at h
    obtain ⟨u, hw, out', ho, -, -, rfl⟩ := h
    have hlen := checkWidth_ok.mp hw
    cases ty with
    | float w =>
      obtain ⟨n, hn⟩ : ∃ n, (CellType.float w).width = some n := by cases w <;> exact ⟨_, rfl⟩
      rw [ordered_float (hn.trans (by rw [hlen n hn]))] at ho
      split_ifs at ho with hnan
      exact ⟨⟨hlen, by simpa using hnan⟩, (Except.ok.inj ho).symm⟩
    | bool =>
      obtain rfl := Except.ok.inj ho
      exact ⟨⟨hlen, bool_of_validate hv⟩, rfl⟩
    | str =>
      obtain rfl := Except.ok.inj ho
      exact ⟨⟨hlen, str_of_validate hv⟩, rfl⟩
    | _ => exact ⟨⟨hlen, trivial⟩, (Except.ok.inj ho).symm⟩
  · rintro ⟨h, rfl⟩
    have hv := validate_stored h
    have hw := checkWidth_ok.mpr h.1
    have ho : ordered ty be = .ok (stored ty be) := by
      cases ty with
      | float w =>
        obtain ⟨n, hn⟩ : ∃ n, (CellType.float w).width = some n := by cases w <;> exact ⟨_, rfl⟩
        rw [ordered_float (hn.trans (by rw [h.1 n hn])),
          if_neg (by rw [show isNaN w be = false from h.2]; exact Bool.false_ne_true)]
      | _ => rfl
    unfold payload
    simp only [bind_eq_ok, mapError_eq_ok, pure_eq_ok]
    exact ⟨(), hw, _, ho, (), hv, rfl⟩

/-! ### Native and stored construction -/

/-- Every admissible string is that of a native value. -/
lemma exists_native {ty : CellType} {be : Bytes} (h : Admissible ty be) : ∃ a, nativeBytes ty a = be := by
  obtain ⟨hlen, hval⟩ := h
  cases ty with
  | bool => rcases hval with rfl | rfl; exacts [⟨false, rfl⟩, ⟨true, rfl⟩]
  | str => exact ⟨⟨be, hval⟩, rfl⟩
  | bytes => exact ⟨be, rfl⟩
  | bytes20 => exact ⟨⟨be, hlen _ rfl⟩, rfl⟩
  | fixedBytes w => cases w <;> exact ⟨⟨be, hlen _ rfl⟩, rfl⟩
  | uint w =>
    cases w with
    | w4 => exact ⟨_, U32.toBeBytes_fromBeBytes ⟨be, hlen _ rfl⟩⟩
    | w8 => exact ⟨_, U64.toBeBytes_fromBeBytes ⟨be, hlen _ rfl⟩⟩
    | w16 => exact ⟨_, U128.toBeBytes_fromBeBytes ⟨be, hlen _ rfl⟩⟩
    | w32 => exact ⟨⟨be, hlen _ rfl⟩, rfl⟩
  | int w =>
    cases w with
    | w32 => exact ⟨⟨be, hlen _ rfl⟩, rfl⟩
    | _ => exact ⟨_, Signed.toBeBytes_fromBeBytes ⟨be, hlen _ rfl⟩⟩
  | decimal w =>
    cases w with
    | w32 => exact ⟨⟨be, hlen _ rfl⟩, rfl⟩
    | _ => exact ⟨_, Signed.toBeBytes_fromBeBytes ⟨be, hlen _ rfl⟩⟩
  | float w =>
    cases w with
    | f32 => exact ⟨_, U32.toBeBytes_fromBeBytes ⟨be, hlen _ rfl⟩⟩
    | f64 => exact ⟨_, U64.toBeBytes_fromBeBytes ⟨be, hlen _ rfl⟩⟩
  | date32 => exact ⟨_, Signed.toBeBytes_fromBeBytes ⟨be, hlen _ rfl⟩⟩
  | timestamp64 => exact ⟨_, Signed.toBeBytes_fromBeBytes ⟨be, hlen _ rfl⟩⟩

/-- A native value's string is admissible where its constructor accepts the value. -/
lemma admissible_native {ty : CellType} (a : Native ty) :
    Admissible ty (nativeBytes ty a) ↔ ∃ v, ofNative ty a = .ok v := by
  have hlen : ∀ n, ty.width = some n → (nativeBytes ty a).length = n := fun n hn => nativeBytes_length hn a
  obtain ⟨haccept, hreject⟩ := ofNative_accepts a
  constructor
  · rintro ⟨-, hval⟩
    refine haccept ?_
    cases ty with
    | float w => cases w <;> exact hval
    | _ => rfl
  · rintro ⟨v, hv⟩
    refine ⟨hlen, ?_⟩
    cases ty with
    | float w =>
      cases w with
      | f32 =>
        cases hn : nativeNaN (.float .f32) a with
        | false => exact hn
        | true => rw [hreject hn] at hv; cases hv
      | f64 =>
        cases hn : nativeNaN (.float .f64) a with
        | false => exact hn
        | true => rw [hreject hn] at hv; cases hv
    | bool =>
      exact (by decide : ∀ a : Bool, [if a then (1 : UInt8) else 0] = [0] ∨ [if a then (1 : UInt8) else 0] = [1]) a
    | str => exact a.2
    | _ => trivial

lemma isNaN_negativeZero {w : FloatWidth} {be : Bytes} (hz : isNegativeZero w be = true) : isNaN w be = false := by
  have hbe : ofBe be = 2 ^ (w.layout.1 + w.layout.2) := by rwa [isNegativeZero, decide_eq_true_eq] at hz
  have hmod : ofBe be % 2 ^ w.layout.2 = 0 := by rw [hbe, pow_add, Nat.mul_mod_left]
  simp [isNaN, hmod]

/-- Negative zero has the payload of zero, and none at another width. -/
lemma payload_negativeZero {w : FloatWidth} {be : Bytes} (hz : isNegativeZero w be = true) :
    payload (.float w) be = payload (.float w) (List.replicate be.length 0) := by
  obtain ⟨n, hn⟩ : ∃ n, (CellType.float w).width = some n := by cases w <;> exact ⟨_, rfl⟩
  by_cases hlen : be.length = n
  · have hw : (CellType.float w).width = some be.length := by rw [hlen, hn]
    have hw' : (CellType.float w).width = some (List.replicate be.length (0 : UInt8)).length := by
      rw [List.length_replicate, hw]
    have hzero := orderFloat_zero hw' (.inl (ofBe_replicate_zero _))
    rw [List.length_replicate] at hzero
    have hnan : isNaN w (List.replicate be.length 0) = false := by simp [isNaN, ofBe_replicate_zero]
    have hwidth : ∀ m, (CellType.float w).width = some m → be.length = m := fun m hm =>
      Option.some.inj (hw.symm.trans hm)
    rw [payload_ok.mpr ⟨⟨hwidth, isNaN_negativeZero hz⟩, rfl⟩,
      payload_ok.mpr ⟨⟨fun m hm => List.length_replicate.trans (hwidth m hm), hnan⟩, rfl⟩]
    exact congrArg Except.ok ((orderFloat_zero hw (.inr hz)).symm.trans hzero)
  · have hcheck : (CellType.float w).checkWidth be =
        (CellType.float w).checkWidth (List.replicate be.length 0) := by
      unfold CellType.checkWidth
      rw [List.length_replicate]
    have herr : ∃ e, (CellType.float w).checkWidth be = .error e := by
      unfold CellType.checkWidth
      rw [hn]
      exact ⟨_, if_pos hlen⟩
    obtain ⟨e, herr⟩ := herr
    unfold payload
    rw [← hcheck, herr]
    rfl

/-- **Native and stored construction agree.** -/
theorem new_agrees (name : Bytes) (ty : CellType) (be : Bytes) :
    ((∃ t, IndexTerm.new name ty be = .ok t) ↔ UserName name ∧ ty ≠ .bytes ∧ Admissible ty be) ∧
    (Admissible ty be ↔ ∃ a v, nativeBytes ty a = be ∧ ofNative ty a = .ok v) ∧
    (∀ a v, nativeBytes ty a = be → ofNative ty a = .ok v →
      IndexTerm.new name ty be = IndexTerm.fromStrName name v) ∧
    (∀ t, IndexTerm.new name ty be = .ok t →
      t.bytes = termBytes name ty (stored ty be) ∧ ty.validate (stored ty be) = .ok ()) ∧
    (∀ w, ty = .float w → isNegativeZero w be = true →
      IndexTerm.new name ty be = IndexTerm.new name ty (List.replicate be.length 0)) := by
  refine ⟨⟨?_, ?_⟩, ⟨fun h => ?_, ?_⟩, ?_, fun t ht => ?_, ?_⟩
  · rintro ⟨t, ht⟩
    obtain ⟨hn, hty, out, hout, -⟩ := IndexTerm.new_ok ht
    exact ⟨hn, hty, (payload_ok.mp hout).1⟩
  · rintro ⟨hn, hty, h⟩
    obtain ⟨t, ht, -⟩ := IndexTerm.new_payload_ok hn hty (payload_ok.mpr ⟨h, rfl⟩)
    exact ⟨t, ht⟩
  · obtain ⟨a, rfl⟩ := exists_native h
    obtain ⟨v, hv⟩ := (admissible_native a).mp h
    exact ⟨a, v, rfl, hv⟩
  · rintro ⟨a, v, rfl, hv⟩
    exact (admissible_native a).mpr ⟨v, hv⟩
  · rintro a v rfl hv
    obtain ⟨hvty, hval⟩ := ofNative_ok hv
    subst hvty
    cases hpre : IndexTerm.pfx name v.ty with
    | error e => rw [IndexTerm.new_pfx_error hpre, IndexTerm.fromStrName_pfx_error hpre]
    | ok pre =>
      obtain ⟨hn, hty, -⟩ := IndexTerm.pfx_ok.mp hpre
      have hp := payload_ok.mpr ⟨(admissible_native a).mpr ⟨v, hv⟩, rfl⟩
      obtain ⟨t, ht, hb⟩ := IndexTerm.new_payload_ok hn hty hp
      obtain ⟨t', ht', hb'⟩ := IndexTerm.fromStrName_userName hn hty
      rw [ht, ht', IndexTerm.ext_bytes (hb.trans (hval ▸ hb'.symm))]
  · obtain ⟨hn, hty, out, hout, hb⟩ := IndexTerm.new_ok ht
    obtain ⟨h, rfl⟩ := payload_ok.mp hout
    exact ⟨hb, validate_stored h⟩
  · rintro w rfl hz
    exact IndexTerm.new_congr (payload_negativeZero hz)

/-! ### The codec -/

/-- **The term codec is exact and unambiguous.** The strings decoded are those of a user name, an ordered type
and a payload of it, kept unchanged; every term built decodes to itself; the bytes determine the three parts. -/
theorem term_codec :
    (∀ bytes, (∃ t, IndexTerm.decode bytes = .ok t) ↔
      ∃ name ty payload, TermParts name ty payload ∧ bytes = termBytes name ty payload) ∧
    (∀ bytes t, IndexTerm.decode bytes = .ok t → t.bytes = bytes) ∧
    (∀ name value t, IndexTerm.fromStrName name value = .ok t → IndexTerm.decode t.bytes = .ok t) ∧
    (∀ name value t, IndexTerm.fromCellName name value = .ok t → IndexTerm.decode t.bytes = .ok t) ∧
    (∀ name ty value t, IndexTerm.new name ty value = .ok t → IndexTerm.decode t.bytes = .ok t) ∧
    (∀ name ty payload name' ty' payload', TermParts name ty payload → TermParts name' ty' payload' →
      termBytes name ty payload = termBytes name' ty' payload' → name = name' ∧ ty = ty' ∧ payload = payload') := by
  refine ⟨fun bytes => ⟨?_, ?_⟩, fun bytes t h => IndexTerm.decode_ok h, fun _ _ t _ => IndexTerm.decode_bytes t,
    fun _ _ t _ => IndexTerm.decode_bytes t, fun _ _ _ t _ => IndexTerm.decode_bytes t,
    fun _ _ _ _ _ _ h h' => IndexTerm.termBytes_inj h.1 h'.1⟩
  · rintro ⟨t, h⟩
    obtain ⟨name, ty, payload, hp, hb⟩ := t.canonical
    exact ⟨name, ty, payload, hp, (IndexTerm.decode_ok h).symm.trans hb⟩
  · rintro ⟨name, ty, payload, hp, rfl⟩
    exact ⟨_, IndexTerm.decode_bytes ⟨_, name, ty, payload, hp, rfl⟩⟩

end GolemDb.Index
