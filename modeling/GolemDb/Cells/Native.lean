import GolemDb.Cells.Order
import GolemDb.Cells.Value
import GolemDb.Lib.Prog

/-!
The typed constructors of cell values and the order of the values they take. A native value is what
the constructor of its type takes: a truth value, a text, an array of bytes, a machine integer, or
the bit pattern of a float. The payloads of a type sort as its native values do (`ofNative_lt_iff`).
-/

namespace GolemDb.Cells

open GolemDb.Lib

/-! ### Machine types -/

/-- A signed integer of `n` bytes. -/
abbrev Signed (n : ℕ) := {v : ℤ // -(half n : ℤ) ≤ v ∧ v < half n}

abbrev I32 := Signed 4
abbrev I64 := Signed 8
abbrev I128 := Signed 16
abbrev U128 := Fin (2 ^ 128)

/-- `to_be_bytes` of a signed integer: two's complement. -/
def Signed.toBeBytes {n : ℕ} (v : Signed n) : Bytes := beBytes n (v.1 % 256 ^ n).toNat

def U128.toBeBytes (n : U128) : Bytes := beBytes 16 n.val

/-- A text, `&str`. -/
abbrev Str := {l : Bytes // fromUtf8 l = .ok l}

@[simp] lemma Signed.toBeBytes_length {n : ℕ} (v : Signed n) : v.toBeBytes.length = n := beBytes_length _ _

/-- Two's complement reads back. -/
lemma Signed.signedOfBe_toBeBytes {n : ℕ} (v : Signed (n + 1)) : signedOfBe v.toBeBytes = v.1 := by
  obtain ⟨v, hlo, hhi⟩ := v
  have hpow : (256 : ℤ) ^ (n + 1) = 2 * half (n + 1) := by exact_mod_cast pow_eq_half n
  have hpos : (0 : ℤ) < 256 ^ (n + 1) := by positivity
  have hmod := Int.emod_nonneg v (ne_of_gt hpos)
  have hlt := Int.emod_lt_of_pos v hpos
  have hval : ofBe (Signed.toBeBytes ⟨v, hlo, hhi⟩) = (v % 256 ^ (n + 1)).toNat := by
    refine ofBe_beBytes ?_
    zify
    rw [Int.toNat_of_nonneg hmod]
    exact hlt
  rw [signedOfBe, Signed.toBeBytes_length, hval]
  by_cases hv : 0 ≤ v
  · have he : v % 256 ^ (n + 1) = v := Int.emod_eq_of_lt hv (by omega)
    rw [he, if_pos (by omega)]
    exact Int.toNat_of_nonneg hv
  · have he : v % 256 ^ (n + 1) = v + 256 ^ (n + 1) := by
      rw [← Int.add_emod_right]
      exact Int.emod_eq_of_lt (by omega) (by omega)
    rw [he, if_neg (by omega), Int.toNat_of_nonneg (by omega)]
    exact Int.add_sub_cancel v _

/-! ### Typed constructors -/

/-- The types whose payloads are all the strings of their width. -/
def CellType.plain : CellType → Bool
  | .bool => false
  | .str => false
  | .bytes => false
  | .float _ => false
  | _ => true

lemma CellType.validate_plain {ty : CellType} {n : ℕ} {value : Bytes} (hty : ty.plain = true)
    (hn : ty.width = some n) (h : value.length = n) : ty.validate value = .ok () := by
  have hwidth : ty.checkWidth value = .ok () := by
    rw [checkWidth, hn]
    exact if_neg (not_not.mpr h)
  unfold validate
  rw [hwidth]
  cases ty <;> first | rfl | cases hty

namespace CellValue

/-- A constructor of a type whose payloads are all the strings of their width. -/
def ofWidth (ty : CellType) (n : ℕ) (value : Bytes) (hty : ty.plain = true ∧ ty.width = some n)
    (h : value.length = n) : CellValue :=
  fieldFromTyped ty value (CellType.validate_plain hty.1 hty.2 h)

def fromBool (value : Bool) : CellValue :=
  fieldFromTyped .bool [if value then 1 else 0] (by cases value <;> rfl)

/-- Copy a text as a field. -/
def fromStr (value : Str) : CellValue :=
  fieldFromTyped .str value.1 (by
    have h := value.2
    simp [CellType.validate, CellType.checkWidth, CellType.width, h, Bind.bind, Except.bind])

def fromBytes4 (value : Arr 4) : CellValue := ofWidth (.fixedBytes .w4) 4 value.1 (by decide) value.2
def fromBytes8 (value : Arr 8) : CellValue := ofWidth (.fixedBytes .w8) 8 value.1 (by decide) value.2
def fromBytes16 (value : Arr 16) : CellValue := ofWidth (.fixedBytes .w16) 16 value.1 (by decide) value.2
def fromBytes20 (value : Arr 20) : CellValue := ofWidth .bytes20 20 value.1 (by decide) value.2

def fromU128 (value : U128) : CellValue := ofWidth (.uint .w16) 16 value.toBeBytes (by decide) (beBytes_length _ _)

/-- An unsigned 256-bit integer in big-endian form. -/
def fromU256Be (value : Arr 32) : CellValue := ofWidth (.uint .w32) 32 value.1 (by decide) value.2

/-- A constructor of a type stored with the sign bit flipped, from two's complement. -/
def ofSigned (ty : CellType) (n : ℕ) (value : Bytes) (hty : ty.plain = true ∧ ty.width = some n)
    (h : value.length = n) : CellValue :=
  ofWidth ty n (flipSign value) hty (by rw [flipSign_length, h])

def fromI32 (value : I32) : CellValue := ofSigned (.int .w4) 4 value.toBeBytes (by decide) (by simp)
def fromI64 (value : I64) : CellValue := ofSigned (.int .w8) 8 value.toBeBytes (by decide) (by simp)
def fromI128 (value : I128) : CellValue := ofSigned (.int .w16) 16 value.toBeBytes (by decide) (by simp)

/-- A signed 256-bit integer in two's complement, the sign bit not flipped. -/
def fromI256Be (value : Arr 32) : CellValue := ofSigned (.int .w32) 32 value.1 (by decide) value.2

def fromDec32Unscaled (value : I32) : CellValue := ofSigned (.decimal .w4) 4 value.toBeBytes (by decide) (by simp)
def fromDec64Unscaled (value : I64) : CellValue := ofSigned (.decimal .w8) 8 value.toBeBytes (by decide) (by simp)
def fromDec128Unscaled (value : I128) : CellValue := ofSigned (.decimal .w16) 16 value.toBeBytes (by decide) (by simp)
def fromDec256UnscaledBe (value : Arr 32) : CellValue := ofSigned (.decimal .w32) 32 value.1 (by decide) value.2

/-- Days since the epoch. -/
def fromDate32 (days : I32) : CellValue := ofSigned .date32 4 days.toBeBytes (by decide) (by simp)

/-- Microseconds since the epoch. -/
def fromTimestamp64 (microseconds : I64) : CellValue :=
  ofSigned .timestamp64 8 microseconds.toBeBytes (by decide) (by simp)

/-- The stored form of a float that is no number is not valid, every other one is. -/
lemma validate_encodeFloat {w : FloatWidth} {be : Bytes} (hlen : (CellType.float w).width = some be.length)
    (hnan : isNaN w be = false) : (CellType.float w).validate (encodeFloat be) = .ok () := by
  have hwidth : (CellType.float w).checkWidth (encodeFloat be) = .ok () := by
    rw [CellType.checkWidth, hlen]
    exact if_neg (not_not.mpr (encodeFloat_length be))
  have hbits : w.layout.1 + w.layout.2 + 1 = 8 * be.length := by
    cases w <;> simp [CellType.width] at hlen <;> rw [← hlen] <;> rfl
  have hne : be ≠ [] := by
    rintro rfl
    simp at hbits
  obtain ⟨b, l, rfl⟩ := List.exists_cons_of_ne_nil hne
  have hhalf : half (b :: l).length = 2 ^ (w.layout.1 + w.layout.2) := by
    rw [half, show (256 : ℕ) = 2 ^ 8 by rfl, ← pow_mul, ← hbits, pow_succ]
    omega
  unfold CellType.validate
  rw [hwidth, ok_bind]
  simp only
  rw [decodeFloat_encodeFloat]
  split_ifs with hz h1 h2 h1 h2
  · exfalso
    rw [isNaN, ofBe_replicate_zero] at h1
    simp at h1
  · exfalso
    rw [isNegativeZero, ofBe_replicate_zero, decide_eq_true_eq] at h2
    exact absurd h2.symm (Nat.two_pow_pos _).ne'
  · rfl
  · rw [hnan] at h1
    cases h1
  · exfalso
    rw [isNegativeZero, decide_eq_true_eq] at h2
    exact hz (ofBe_eq_half_iff.mp (h2.trans hhalf.symm))
  · rfl

/-- Reject what is no number, normalize negative zero, keep the infinities. -/
def ofFloat (w : FloatWidth) (be : Bytes) (hlen : (CellType.float w).width = some be.length) :
    Except CellValueParseError CellValue :=
  if h : isNaN w be then .error .floatNaN
  else .ok (fieldFromTyped (.float w) (encodeFloat be) (validate_encodeFloat hlen (by simpa using h)))

/-- A float of 32 bits, by its bit pattern. -/
def fromF32 (value : U32) : Except CellValueParseError CellValue :=
  ofFloat .f32 value.toBeBytes (by rw [U32.toBeBytes_length]; rfl)

/-- A float of 64 bits, by its bit pattern. -/
def fromF64 (value : U64) : Except CellValueParseError CellValue :=
  ofFloat .f64 value.toBeBytes (by rw [U64.toBeBytes_length]; rfl)

end CellValue

/-! ### Native values -/

/-- What the constructor of a type takes; a float is its bit pattern. -/
def Native : CellType → Type
  | .bool => Bool
  | .str => Str
  | .bytes => Bytes
  | .bytes20 => Arr 20
  | .fixedBytes .w4 => Arr 4
  | .fixedBytes .w8 => Arr 8
  | .fixedBytes .w16 => Arr 16
  | .fixedBytes .w32 => Arr 32
  | .uint .w4 => U32
  | .uint .w8 => U64
  | .uint .w16 => U128
  | .uint .w32 => Arr 32
  | .int .w4 => I32
  | .int .w8 => I64
  | .int .w16 => I128
  | .int .w32 => Arr 32
  | .decimal .w4 => I32
  | .decimal .w8 => I64
  | .decimal .w16 => I128
  | .decimal .w32 => Arr 32
  | .float .f32 => U32
  | .float .f64 => U64
  | .date32 => I32
  | .timestamp64 => I64

/-- **The typed constructors**, by type. -/
def ofNative : (ty : CellType) → Native ty → Except CellValueParseError CellValue
  | .bool, v => .ok (CellValue.fromBool v)
  | .str, v => .ok (CellValue.fromStr v)
  | .bytes, v => .ok (CellValue.fromBytes v)
  | .bytes20, v => .ok (CellValue.fromBytes20 v)
  | .fixedBytes .w4, v => .ok (CellValue.fromBytes4 v)
  | .fixedBytes .w8, v => .ok (CellValue.fromBytes8 v)
  | .fixedBytes .w16, v => .ok (CellValue.fromBytes16 v)
  | .fixedBytes .w32, v => .ok (CellValue.fromBytes32 v)
  | .uint .w4, v => .ok (CellValue.fromU32 v)
  | .uint .w8, v => .ok (CellValue.fromU64 v)
  | .uint .w16, v => .ok (CellValue.fromU128 v)
  | .uint .w32, v => .ok (CellValue.fromU256Be v)
  | .int .w4, v => .ok (CellValue.fromI32 v)
  | .int .w8, v => .ok (CellValue.fromI64 v)
  | .int .w16, v => .ok (CellValue.fromI128 v)
  | .int .w32, v => .ok (CellValue.fromI256Be v)
  | .decimal .w4, v => .ok (CellValue.fromDec32Unscaled v)
  | .decimal .w8, v => .ok (CellValue.fromDec64Unscaled v)
  | .decimal .w16, v => .ok (CellValue.fromDec128Unscaled v)
  | .decimal .w32, v => .ok (CellValue.fromDec256UnscaledBe v)
  | .float .f32, v => CellValue.fromF32 v
  | .float .f64, v => CellValue.fromF64 v
  | .date32, v => .ok (CellValue.fromDate32 v)
  | .timestamp64, v => .ok (CellValue.fromTimestamp64 v)

/-- The decimal places of a width, `decimal_scale`. -/
def Width.decimalScale : Width → ℕ
  | .w4 => 4
  | .w8 => 6
  | .w16 => 18
  | .w32 => 18

/-- The number of an unscaled decimal. -/
def decimalValue (w : Width) (unscaled : ℤ) : ℚ := unscaled / 10 ^ w.decimalScale

/-- **The native order of a type**: numeric for integers and decimals, sign and magnitude for floats,
bytewise for texts and arrays. Variable-length bytes have none. -/
def NativeLt : (ty : CellType) → Native ty → Native ty → Prop
  | .bool, a, b => a = false ∧ b = true
  | .str, a, b => a.1 < b.1
  | .bytes, _, _ => False
  | .bytes20, a, b => a.1 < b.1
  | .fixedBytes .w4, a, b => a.1 < b.1
  | .fixedBytes .w8, a, b => a.1 < b.1
  | .fixedBytes .w16, a, b => a.1 < b.1
  | .fixedBytes .w32, a, b => a.1 < b.1
  | .uint .w4, a, b => a.val < b.val
  | .uint .w8, a, b => a.val < b.val
  | .uint .w16, a, b => a.val < b.val
  | .uint .w32, a, b => ofBe a.1 < ofBe b.1
  | .int .w4, a, b => a.1 < b.1
  | .int .w8, a, b => a.1 < b.1
  | .int .w16, a, b => a.1 < b.1
  | .int .w32, a, b => signedOfBe a.1 < signedOfBe b.1
  | .decimal .w4, a, b => decimalValue .w4 a.1 < decimalValue .w4 b.1
  | .decimal .w8, a, b => decimalValue .w8 a.1 < decimalValue .w8 b.1
  | .decimal .w16, a, b => decimalValue .w16 a.1 < decimalValue .w16 b.1
  | .decimal .w32, a, b => decimalValue .w32 (signedOfBe a.1) < decimalValue .w32 (signedOfBe b.1)
  | .float .f32, a, b => magnitudeOfBe (U32.toBeBytes a) < magnitudeOfBe (U32.toBeBytes b)
  | .float .f64, a, b => magnitudeOfBe (U64.toBeBytes a) < magnitudeOfBe (U64.toBeBytes b)
  | .date32, a, b => a.1 < b.1
  | .timestamp64, a, b => a.1 < b.1

/-- Equality of native values; the two zeros of a float are equal. -/
def NativeEq : (ty : CellType) → Native ty → Native ty → Prop
  | .float .f32, a, b => magnitudeOfBe (U32.toBeBytes a) = magnitudeOfBe (U32.toBeBytes b)
  | .float .f64, a, b => magnitudeOfBe (U64.toBeBytes a) = magnitudeOfBe (U64.toBeBytes b)
  | _, a, b => a = b

/-! ### Payloads sort as native values -/

/-- How a type reads a native big-endian string. -/
inductive Reading where
  | raw
  | unsigned
  | signed
  | magnitude

def CellType.reading : CellType → Reading
  | .uint _ => .unsigned
  | .int _ => .signed
  | .decimal _ => .signed
  | .date32 => .signed
  | .timestamp64 => .signed
  | .float _ => .magnitude
  | _ => .raw

/-- The stored form of a native string. -/
def stored (ty : CellType) (be : Bytes) : Bytes :=
  match ty.reading with
  | .raw => be
  | .unsigned => be
  | .signed => flipSign be
  | .magnitude => encodeFloat be

/-- The order of native strings. -/
def StringLt (ty : CellType) (a b : Bytes) : Prop :=
  match ty.reading with
  | .raw => a < b
  | .unsigned => ofBe a < ofBe b
  | .signed => signedOfBe a < signedOfBe b
  | .magnitude => magnitudeOfBe a < magnitudeOfBe b

/-- The native big-endian string of a value. -/
def nativeBytes : (ty : CellType) → Native ty → Bytes
  | .bool, v => [if (show Bool from v) then 1 else 0]
  | .str, v => v.1
  | .bytes, v => v
  | .bytes20, v => v.1
  | .fixedBytes .w4, v => v.1
  | .fixedBytes .w8, v => v.1
  | .fixedBytes .w16, v => v.1
  | .fixedBytes .w32, v => v.1
  | .uint .w4, v => U32.toBeBytes v
  | .uint .w8, v => U64.toBeBytes v
  | .uint .w16, v => U128.toBeBytes v
  | .uint .w32, v => v.1
  | .int .w4, v => Signed.toBeBytes (show I32 from v)
  | .int .w8, v => Signed.toBeBytes (show I64 from v)
  | .int .w16, v => Signed.toBeBytes (show I128 from v)
  | .int .w32, v => v.1
  | .decimal .w4, v => Signed.toBeBytes (show I32 from v)
  | .decimal .w8, v => Signed.toBeBytes (show I64 from v)
  | .decimal .w16, v => Signed.toBeBytes (show I128 from v)
  | .decimal .w32, v => v.1
  | .float .f32, v => U32.toBeBytes v
  | .float .f64, v => U64.toBeBytes v
  | .date32, v => Signed.toBeBytes (show I32 from v)
  | .timestamp64, v => Signed.toBeBytes (show I64 from v)

lemma ofFloat_ok {w : FloatWidth} {be : Bytes} {hlen : (CellType.float w).width = some be.length} {v : CellValue}
    (h : CellValue.ofFloat w be hlen = .ok v) : v.ty = .float w ∧ v.value = encodeFloat be := by
  unfold CellValue.ofFloat at h
  split_ifs at h
  obtain rfl := Except.ok.inj h
  exact ⟨rfl, rfl⟩

lemma fromF32_ok {n : U32} {v : CellValue} (h : CellValue.fromF32 n = .ok v) :
    v.ty = .float .f32 ∧ v.value = encodeFloat n.toBeBytes := by
  unfold CellValue.fromF32 at h
  exact ofFloat_ok h

lemma fromF64_ok {n : U64} {v : CellValue} (h : CellValue.fromF64 n = .ok v) :
    v.ty = .float .f64 ∧ v.value = encodeFloat n.toBeBytes := by
  unfold CellValue.fromF64 at h
  exact ofFloat_ok h

/-- Every float that is a number is accepted. -/
lemma fromF32_accepts {n : U32} (h : isNaN .f32 n.toBeBytes = false) : ∃ v, CellValue.fromF32 n = .ok v := by
  unfold CellValue.fromF32 CellValue.ofFloat
  rw [dif_neg (by rw [h]; simp)]
  exact ⟨_, rfl⟩

/-- A constructor stores the native string. -/
lemma ofNative_ok {ty : CellType} {a : Native ty} {v : CellValue} (h : ofNative ty a = .ok v) :
    v.ty = ty ∧ v.value = stored ty (nativeBytes ty a) := by
  cases ty with
  | float w =>
    cases w with
    | f32 => exact fromF32_ok h
    | f64 => exact fromF64_ok h
  | fixedBytes w => cases w <;> (obtain rfl := Except.ok.inj h; exact ⟨rfl, rfl⟩)
  | uint w => cases w <;> (obtain rfl := Except.ok.inj h; exact ⟨rfl, rfl⟩)
  | int w => cases w <;> (obtain rfl := Except.ok.inj h; exact ⟨rfl, rfl⟩)
  | decimal w => cases w <;> (obtain rfl := Except.ok.inj h; exact ⟨rfl, rfl⟩)
  | _ => obtain rfl := Except.ok.inj h; exact ⟨rfl, rfl⟩

lemma nativeBytes_length {ty : CellType} {n : ℕ} (hn : ty.width = some n) (a : Native ty) :
    (nativeBytes ty a).length = n := by
  cases ty with
  | bool => exact Option.some.inj hn
  | str => cases hn
  | bytes => cases hn
  | bytes20 => exact a.2.trans (Option.some.inj hn)
  | fixedBytes w => cases w <;> exact a.2.trans (Option.some.inj hn)
  | uint w =>
    cases w with
    | w32 => exact a.2.trans (Option.some.inj hn)
    | _ => exact (beBytes_length _ _).trans (Option.some.inj hn)
  | int w =>
    cases w with
    | w32 => exact a.2.trans (Option.some.inj hn)
    | _ => exact (beBytes_length _ _).trans (Option.some.inj hn)
  | decimal w =>
    cases w with
    | w32 => exact a.2.trans (Option.some.inj hn)
    | _ => exact (beBytes_length _ _).trans (Option.some.inj hn)
  | float w => cases w <;> exact (beBytes_length _ _).trans (Option.some.inj hn)
  | date32 => exact (beBytes_length _ _).trans (Option.some.inj hn)
  | timestamp64 => exact (beBytes_length _ _).trans (Option.some.inj hn)

lemma decimalValue_lt_iff {w : Width} {a b : ℤ} : decimalValue w a < decimalValue w b ↔ a < b := by
  have hpos : (0 : ℚ) < 10 ^ w.decimalScale := by positivity
  rw [decimalValue, decimalValue, div_lt_div_iff_of_pos_right hpos, Int.cast_lt]

/-- The order of native values is the order of their strings. -/
lemma nativeLt_iff {ty : CellType} (hty : ty ≠ .bytes) (a b : Native ty) :
    NativeLt ty a b ↔ StringLt ty (nativeBytes ty a) (nativeBytes ty b) := by
  have hsigned : ∀ {n : ℕ} (a b : Signed (n + 1)), a.1 < b.1 ↔ signedOfBe a.toBeBytes < signedOfBe b.toBeBytes :=
    fun a b => by rw [Signed.signedOfBe_toBeBytes, Signed.signedOfBe_toBeBytes]
  have hunsigned : ∀ {w m : ℕ} (_ : m = 256 ^ w) (a b : Fin m),
      a.val < b.val ↔ ofBe (beBytes w a.val) < ofBe (beBytes w b.val) := by
    rintro w m rfl a b
    rw [ofBe_beBytes a.isLt, ofBe_beBytes b.isLt]
  cases ty with
  | bytes => exact absurd rfl hty
  | bool =>
    have h : ∀ a b : Bool, a = false ∧ b = true ↔ [if a then (1 : UInt8) else 0] < [if b then (1 : UInt8) else 0] := by
      decide
    exact h a b
  | str => exact Iff.rfl
  | bytes20 => exact Iff.rfl
  | fixedBytes w => cases w <;> exact Iff.rfl
  | uint w =>
    cases w with
    | w4 => exact hunsigned (by norm_num) a b
    | w8 => exact hunsigned (by norm_num) a b
    | w16 => exact hunsigned (by norm_num) a b
    | w32 => exact Iff.rfl
  | int w =>
    cases w with
    | w4 => exact hsigned (n := 3) a b
    | w8 => exact hsigned (n := 7) a b
    | w16 => exact hsigned (n := 15) a b
    | w32 => exact Iff.rfl
  | decimal w =>
    cases w with
    | w4 => exact decimalValue_lt_iff.trans (hsigned (n := 3) a b)
    | w8 => exact decimalValue_lt_iff.trans (hsigned (n := 7) a b)
    | w16 => exact decimalValue_lt_iff.trans (hsigned (n := 15) a b)
    | w32 => exact decimalValue_lt_iff
  | float w => cases w <;> exact Iff.rfl
  | date32 => exact hsigned (n := 3) a b
  | timestamp64 => exact hsigned (n := 7) a b

lemma bytes_eq_iff {p : Bytes → Prop} (a b : Subtype p) : a = b ↔ ¬ a.1 < b.1 ∧ ¬ b.1 < a.1 := by
  rw [not_lt, not_lt, and_comm, ← le_antisymm_iff, Subtype.ext_iff]

/-- Arrays are equal when their two's complement numbers are. -/
lemma signed_eq_iff (a b : Arr 32) :
    a = b ↔ ¬ signedOfBe a.1 < signedOfBe b.1 ∧ ¬ signedOfBe b.1 < signedOfBe a.1 := by
  have hne : ∀ c : Arr 32, c.1 ≠ [] := fun c hc => by
    have hlen := c.2
    rw [hc] at hlen
    cases hlen
  rw [← flipSign_lt_iff (hne a) (a.2.trans b.2.symm), ← flipSign_lt_iff (hne b) (b.2.trans a.2.symm), not_lt, not_lt,
    and_comm, ← le_antisymm_iff, Subtype.ext_iff]
  constructor
  · intro h
    rw [h]
  · intro h
    rw [← flipSign_flipSign a.1, h, flipSign_flipSign]

/-- Native values of a type are equal when neither is less. -/
lemma nativeEq_iff {ty : CellType} (hty : ty ≠ .bytes) (a b : Native ty) :
    NativeEq ty a b ↔ ¬ NativeLt ty a b ∧ ¬ NativeLt ty b a := by
  have hbe : ∀ {n : ℕ} (a b : Arr n), a = b ↔ ¬ ofBe a.1 < ofBe b.1 ∧ ¬ ofBe b.1 < ofBe a.1 := fun a b => by
    rw [← ofBe_lt_iff (a.2.trans b.2.symm), ← ofBe_lt_iff (b.2.trans a.2.symm), bytes_eq_iff]
  have hfin : ∀ {n : ℕ} (a b : Fin n), a = b ↔ ¬ a.val < b.val ∧ ¬ b.val < a.val := fun a b => by
    rw [Fin.ext_iff]
    omega
  have hsigned : ∀ {n : ℕ} (a b : Signed n), a = b ↔ ¬ a.1 < b.1 ∧ ¬ b.1 < a.1 := fun a b => by
    rw [Subtype.ext_iff]
    omega
  cases ty with
  | bytes => exact absurd rfl hty
  | bool =>
    have h : ∀ a b : Bool, a = b ↔ ¬ (a = false ∧ b = true) ∧ ¬ (b = false ∧ a = true) := by decide
    exact h a b
  | str => exact bytes_eq_iff a b
  | bytes20 => exact bytes_eq_iff a b
  | fixedBytes w => cases w <;> exact bytes_eq_iff a b
  | uint w =>
    cases w with
    | w32 => exact hbe a b
    | _ => exact hfin a b
  | int w =>
    cases w with
    | w32 => exact signed_eq_iff a b
    | _ => exact hsigned a b
  | decimal w =>
    cases w with
    | w32 => exact (signed_eq_iff a b).trans (and_congr (not_congr decimalValue_lt_iff.symm)
      (not_congr decimalValue_lt_iff.symm))
    | _ =>
      exact (hsigned a b).trans (and_congr (not_congr decimalValue_lt_iff.symm) (not_congr decimalValue_lt_iff.symm))
  | float w =>
    cases w with
    | f32 =>
      show magnitudeOfBe (U32.toBeBytes a) = magnitudeOfBe (U32.toBeBytes b) ↔
        ¬ magnitudeOfBe (U32.toBeBytes a) < magnitudeOfBe (U32.toBeBytes b) ∧
          ¬ magnitudeOfBe (U32.toBeBytes b) < magnitudeOfBe (U32.toBeBytes a)
      omega
    | f64 =>
      show magnitudeOfBe (U64.toBeBytes a) = magnitudeOfBe (U64.toBeBytes b) ↔
        ¬ magnitudeOfBe (U64.toBeBytes a) < magnitudeOfBe (U64.toBeBytes b) ∧
          ¬ magnitudeOfBe (U64.toBeBytes b) < magnitudeOfBe (U64.toBeBytes a)
      omega
  | date32 => exact hsigned a b
  | timestamp64 => exact hsigned a b

/-- The stored forms of native strings sort as the strings do. -/
lemma stored_lt_iff {ty : CellType} {n : ℕ} (hn : ty.width = some n) {a b : Bytes} (ha : a.length = n)
    (hb : b.length = n) : stored ty a < stored ty b ↔ StringLt ty a b := by
  have hpos : a ≠ [] := by
    rintro rfl
    cases ty with
    | fixedBytes w => cases w <;> (rw [← ha] at hn; cases hn)
    | uint w => cases w <;> (rw [← ha] at hn; cases hn)
    | int w => cases w <;> (rw [← ha] at hn; cases hn)
    | decimal w => cases w <;> (rw [← ha] at hn; cases hn)
    | float w => cases w <;> (rw [← ha] at hn; cases hn)
    | _ => rw [← ha] at hn; cases hn
  unfold stored StringLt
  cases ty.reading with
  | raw => exact Iff.rfl
  | unsigned => exact ofBe_lt_iff (ha.trans hb.symm)
  | signed => exact flipSign_lt_iff hpos (ha.trans hb.symm)
  | magnitude => exact encodeFloat_lt_iff hpos (ha.trans hb.symm)

/-- The native string of a stored payload, as the accessors decode it. -/
def unstored (ty : CellType) (payload : Bytes) : Bytes :=
  match ty.reading with
  | .raw => payload
  | .unsigned => payload
  | .signed => flipSign payload
  | .magnitude => decodeFloat payload

/-- **The order of a type's payloads**: the order of the values they store. -/
def PayloadLt (ty : CellType) (p q : Bytes) : Prop := StringLt ty (unstored ty p) (unstored ty q)

lemma unstored_length (ty : CellType) (p : Bytes) : (unstored ty p).length = p.length := by
  unfold unstored
  cases ty.reading with
  | raw => rfl
  | unsigned => rfl
  | signed => exact flipSign_length p
  | magnitude =>
    cases p with
    | nil => rfl
    | cons b l =>
      simp only [decodeFloat]
      split_ifs <;> simp

/-- A valid payload is the stored form of its value. -/
lemma stored_unstored {ty : CellType} {p : Bytes} (h : ty.validate p = .ok ()) : stored ty (unstored ty p) = p := by
  cases ty with
  | float w =>
    obtain ⟨n, hn⟩ : ∃ n, (CellType.float w).width = some n := by cases w <;> exact ⟨_, rfl⟩
    have hlen := CellType.length_of_validate hn h
    have hzero : isNegativeZero w (decodeFloat p) = false := by
      unfold CellType.validate at h
      obtain ⟨-, -, h⟩ := bind_eq_ok.mp h
      simp only at h
      split_ifs at h with h1 h2
      simpa using h2
    have hbits : w.layout.1 + w.layout.2 + 1 = 8 * p.length := by
      rw [hlen]
      cases w <;> (obtain rfl := Option.some.inj hn; rfl)
    cases p with
    | nil => simp at hbits
    | cons b l =>
      exact encodeFloat_decodeFloat fun hz => by
        rw [isNegativeZero, decide_eq_false_iff_not] at hzero
        refine hzero (hz.trans ?_)
        rw [half, show (256 : ℕ) = 2 ^ 8 by rfl, ← pow_mul, ← hbits, pow_succ]
        omega
  | int w => exact flipSign_flipSign p
  | decimal w => exact flipSign_flipSign p
  | date32 => exact flipSign_flipSign p
  | timestamp64 => exact flipSign_flipSign p
  | _ => rfl

/-- The bytewise order of valid payloads is the order of their values. -/
theorem payloadLt_iff {ty : CellType} (hty : ty ≠ .bytes) {p q : Bytes} (hp : ty.validate p = .ok ())
    (hq : ty.validate q = .ok ()) : PayloadLt ty p q ↔ p < q := by
  cases hn : ty.width with
  | some n =>
    have h := stored_lt_iff hn ((unstored_length ty p).trans (CellType.length_of_validate hn hp))
      ((unstored_length ty q).trans (CellType.length_of_validate hn hq))
    rw [stored_unstored hp, stored_unstored hq] at h
    exact h.symm
  | none =>
    cases ty with
    | bytes => exact absurd rfl hty
    | str => exact Iff.rfl
    | float w => cases w <;> cases hn
    | _ => cases hn

/-- **The payloads of a type sort as its native values.** -/
theorem ofNative_lt_iff {ty : CellType} (hty : ty ≠ .bytes) {a b : Native ty} {va vb : CellValue}
    (ha : ofNative ty a = .ok va) (hb : ofNative ty b = .ok vb) : va.value < vb.value ↔ NativeLt ty a b := by
  rw [(ofNative_ok ha).2, (ofNative_ok hb).2, nativeLt_iff hty]
  cases hn : ty.width with
  | some n => exact stored_lt_iff hn (nativeBytes_length hn a) (nativeBytes_length hn b)
  | none =>
    -- of the two types of variable width, texts alone have an order
    cases ty with
    | bytes => exact absurd rfl hty
    | str => exact Iff.rfl
    | float w => cases w <;> cases hn
    | _ => cases hn

end GolemDb.Cells
