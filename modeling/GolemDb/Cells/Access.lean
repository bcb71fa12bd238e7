import GolemDb.Cells.Native

/-!
The typed accessors of cell values, and what they read of a typed constructor's output: the value
it was given, a negative zero as zero (`accessors_exact`). An accessor asks for its own type's
width, which a value's check has fixed, so that it never fails on a value of its type.
-/

namespace GolemDb.Cells

open GolemDb.Lib

/-! ### Reading machine types -/

lemma signedOfBe_range {n : ℕ} (a : Arr (n + 1)) :
    -(half (n + 1) : ℤ) ≤ signedOfBe a.1 ∧ signedOfBe a.1 < half (n + 1) := by
  have hlt := ofBe_lt a.1
  have hpow : (256 : ℤ) ^ (n + 1) = 2 * half (n + 1) := by exact_mod_cast pow_eq_half n
  have hpow' := pow_eq_half n
  rw [a.2] at hlt
  rw [signedOfBe, a.2, hpow]
  split_ifs <;> omega

/-- `from_be_bytes` of a signed type. -/
def Signed.fromBeBytes {n : ℕ} (a : Arr (n + 1)) : Signed (n + 1) := ⟨signedOfBe a.1, signedOfBe_range a⟩

def U128.fromBeBytes (a : Arr 16) : U128 :=
  ⟨ofBe a.1, by
    have h := ofBe_lt a.1
    rw [a.2] at h
    exact lt_of_lt_of_eq h (by norm_num)⟩

/-- `flip_sign` of an array. -/
def flipSignArr {n : ℕ} (a : Arr n) : Arr n := ⟨flipSign a.1, (flipSign_length a.1).trans a.2⟩

lemma decodeFloat_length (l : Bytes) : (decodeFloat l).length = l.length := by
  cases l with
  | nil => rfl
  | cons b l =>
    rw [decodeFloat]
    split_ifs <;> simp

/-- `decode_float` of an array. -/
def decodeFloatArr {n : ℕ} (a : Arr n) : Arr n := ⟨decodeFloat a.1, (decodeFloat_length a.1).trans a.2⟩

/-- A big-endian string is determined by the number it is in two's complement. -/
lemma signedOfBe_inj {a b : Bytes} (hlen : a.length = b.length) (h : signedOfBe a = signedOfBe b) : a = b := by
  by_cases ha : a = []
  · rw [ha, List.length_nil] at hlen
    rw [ha, List.length_eq_zero_iff.mp hlen.symm]
  · have hb : b ≠ [] := fun hb => ha (List.length_eq_zero_iff.mp (by rw [hlen, hb]; rfl))
    have h1 := ofBe_flipSign ha
    have h2 := ofBe_flipSign hb
    have he : flipSign a = flipSign b := ofBe_inj (by simpa using hlen) (by rw [hlen] at h1; omega)
    rw [← flipSign_flipSign a, he, flipSign_flipSign]

@[simp] lemma Signed.toBeBytes_fromBeBytes {n : ℕ} (a : Arr (n + 1)) : (Signed.fromBeBytes a).toBeBytes = a.1 :=
  signedOfBe_inj ((Signed.toBeBytes_length _).trans a.2.symm) (Signed.signedOfBe_toBeBytes _)

lemma Signed.toBeBytes_inj {n : ℕ} {a b : Signed (n + 1)} (h : a.toBeBytes = b.toBeBytes) : a = b := by
  rw [Subtype.ext_iff, ← Signed.signedOfBe_toBeBytes a, h, Signed.signedOfBe_toBeBytes]

lemma U32.toBeBytes_fromBeBytes (a : Arr 4) : (U32.fromBeBytes a).toBeBytes = a.1 := by
  have h := beBytes_ofBe a.1
  rwa [a.2] at h

lemma U128.toBeBytes_fromBeBytes (a : Arr 16) : (U128.fromBeBytes a).toBeBytes = a.1 := by
  have h := beBytes_ofBe a.1
  rwa [a.2] at h

/-! ### Accessors -/

namespace CellValue

def asBool (v : CellValue) : Option Bool := (v.exact 1 .bool).map fun b => b.1.headD 0 = 1

/-- The text of a string cell: its payload, where that is UTF-8. -/
def asStr (v : CellValue) : Option Str :=
  match v.ty with
  | .str => if h : fromUtf8 v.value = .ok v.value then some ⟨v.value, h⟩ else none
  | _ => none

def asBytes4 (v : CellValue) : Option (Arr 4) := v.exact 4 (.fixedBytes .w4)
def asBytes8 (v : CellValue) : Option (Arr 8) := v.exact 8 (.fixedBytes .w8)
def asBytes16 (v : CellValue) : Option (Arr 16) := v.exact 16 (.fixedBytes .w16)
def asBytes20 (v : CellValue) : Option (Arr 20) := v.exact 20 .bytes20

def asU128 (v : CellValue) : Option U128 := (v.exact 16 (.uint .w16)).map U128.fromBeBytes

def asU256Be (v : CellValue) : Option (Arr 32) := v.exact 32 (.uint .w32)

/-- An accessor of a type stored with the sign bit flipped. -/
def exactSigned (v : CellValue) (n : ℕ) (want : CellType) : Option (Signed (n + 1)) :=
  (v.exact (n + 1) want).map fun b => Signed.fromBeBytes (flipSignArr b)

def asI32 (v : CellValue) : Option I32 := v.exactSigned 3 (.int .w4)
def asI64 (v : CellValue) : Option I64 := v.exactSigned 7 (.int .w8)
def asI128 (v : CellValue) : Option I128 := v.exactSigned 15 (.int .w16)

/-- Two's complement big-endian. -/
def asI256Be (v : CellValue) : Option (Arr 32) := (v.exact 32 (.int .w32)).map flipSignArr

def asDec32Unscaled (v : CellValue) : Option I32 := v.exactSigned 3 (.decimal .w4)
def asDec64Unscaled (v : CellValue) : Option I64 := v.exactSigned 7 (.decimal .w8)
def asDec128Unscaled (v : CellValue) : Option I128 := v.exactSigned 15 (.decimal .w16)
def asDec256UnscaledBe (v : CellValue) : Option (Arr 32) := (v.exact 32 (.decimal .w32)).map flipSignArr

/-- A float by its bit pattern. -/
def asF32 (v : CellValue) : Option U32 := (v.exact 4 (.float .f32)).map fun b => U32.fromBeBytes (decodeFloatArr b)
def asF64 (v : CellValue) : Option U64 := (v.exact 8 (.float .f64)).map fun b => U64.fromBeBytes (decodeFloatArr b)

/-- Days since the epoch. -/
def asDate32 (v : CellValue) : Option I32 := v.exactSigned 3 .date32

/-- Microseconds since the epoch. -/
def asTimestamp64 (v : CellValue) : Option I64 := v.exactSigned 7 .timestamp64

end CellValue

/-- **The typed accessors**, by type. -/
def toNative : (ty : CellType) → CellValue → Option (Native ty)
  | .bool, v => v.asBool
  | .str, v => v.asStr
  | .bytes, v => v.asBytes
  | .bytes20, v => v.asBytes20
  | .fixedBytes .w4, v => v.asBytes4
  | .fixedBytes .w8, v => v.asBytes8
  | .fixedBytes .w16, v => v.asBytes16
  | .fixedBytes .w32, v => v.asBytes32
  | .uint .w4, v => v.asU32
  | .uint .w8, v => v.asU64
  | .uint .w16, v => v.asU128
  | .uint .w32, v => v.asU256Be
  | .int .w4, v => v.asI32
  | .int .w8, v => v.asI64
  | .int .w16, v => v.asI128
  | .int .w32, v => v.asI256Be
  | .decimal .w4, v => v.asDec32Unscaled
  | .decimal .w8, v => v.asDec64Unscaled
  | .decimal .w16, v => v.asDec128Unscaled
  | .decimal .w32, v => v.asDec256UnscaledBe
  | .float .f32, v => v.asF32
  | .float .f64, v => v.asF64
  | .date32, v => v.asDate32
  | .timestamp64, v => v.asTimestamp64

/-! ### An accessor and its type -/

/-- An accessor's array is the payload: a value of the type has the width the accessor asks for. -/
lemma CellValue.exact_self {v : CellValue} {n : ℕ} {want : CellType} (hn : want.width = some n) (h : v.ty = want) :
    ∃ a : Arr n, v.exact n want = some a ∧ a.1 = v.value := by
  have hlen : v.value.length = n := CellType.length_of_validate (h ▸ hn) v.valid
  refine ⟨takeArr n v.value, if_pos h, ?_⟩
  rw [takeArr_val hlen.ge, ← hlen, List.take_length]

lemma CellValue.exact_ne {v : CellValue} {n : ℕ} {want : CellType} (h : v.ty ≠ want) : v.exact n want = none :=
  if_neg h

lemma toNative_ne {ty : CellType} {v : CellValue} (h : v.ty ≠ ty) : toNative ty v = none := by
  have hex : ∀ n, v.exact n ty = none := fun n => CellValue.exact_ne h
  cases ty with
  | str =>
    show v.asStr = none
    unfold CellValue.asStr
    split
    · contradiction
    · rfl
  | bytes => exact if_neg h
  | bool => exact congrArg (Option.map _) (hex 1)
  | bytes20 => exact hex 20
  | fixedBytes w => cases w <;> exact hex _
  | uint w => cases w <;> first | exact hex _ | exact congrArg (Option.map _) (hex _)
  | int w => cases w <;> exact congrArg (Option.map _) (hex _)
  | decimal w => cases w <;> exact congrArg (Option.map _) (hex _)
  | float w => cases w <;> exact congrArg (Option.map _) (hex _)
  | date32 => exact congrArg (Option.map _) (hex 4)
  | timestamp64 => exact congrArg (Option.map _) (hex 8)

lemma bool_of_validate {value : Bytes} (h : CellType.bool.validate value = .ok ()) :
    value = [0] ∨ value = [1] := by
  have hlen := CellType.length_of_validate rfl h
  obtain ⟨b, rfl⟩ := List.length_eq_one_iff.mp hlen
  unfold CellType.validate at h
  obtain ⟨-, -, h⟩ := bind_eq_ok.mp h
  change (if 1 < b then Except.error (CellValueParseError.invalidBool b) else Except.ok ()) = Except.ok () at h
  by_cases hb : 1 < b
  · rw [if_pos hb] at h
    cases h
  have hle : b.toNat ≤ 1 := not_lt.mp hb
  rcases Nat.le_one_iff_eq_zero_or_eq_one.mp hle with h0 | h1
  · exact .inl (congrArg (· :: []) (UInt8.toNat_inj.mp h0))
  · exact .inr (congrArg (· :: []) (UInt8.toNat_inj.mp h1))

lemma str_of_validate {value : Bytes} (h : CellType.str.validate value = .ok ()) : fromUtf8 value = .ok value := by
  unfold CellType.validate at h
  obtain ⟨-, -, h⟩ := bind_eq_ok.mp h
  simp only at h
  split at h
  · rename_i s hs
    rw [hs, fromUtf8_self hs]
  · cases h

/-- **An accessor reads a value of its type**, as the native string its payload stores. -/
theorem toNative_self {ty : CellType} {v : CellValue} (h : v.ty = ty) :
    ∃ a, toNative ty v = some a ∧ nativeBytes ty a = unstored ty v.value := by
  have hvalid : ty.validate v.value = .ok () := h ▸ v.valid
  have hex : ∀ {n : ℕ}, ty.width = some n → ∃ a : Arr n, v.exact n ty = some a ∧ a.1 = v.value :=
    fun hn => CellValue.exact_self hn h
  cases ty with
  | str =>
    refine ⟨⟨v.value, str_of_validate hvalid⟩, ?_, rfl⟩
    show v.asStr = _
    unfold CellValue.asStr
    rw [h]
    exact dif_pos (str_of_validate hvalid)
  | bytes => exact ⟨v.value, if_pos h, rfl⟩
  | bool =>
    obtain ⟨a, ha, hav⟩ := hex rfl
    refine ⟨_, congrArg (Option.map _) ha, ?_⟩
    show [if decide (a.1.headD 0 = 1) then (1 : UInt8) else 0] = v.value
    rw [hav]
    rcases bool_of_validate hvalid with hv | hv <;> (rw [hv]; rfl)
  | bytes20 => exact hex rfl
  | fixedBytes w => cases w <;> exact hex rfl
  | uint w =>
    cases w with
    | w4 =>
      obtain ⟨a, ha, hav⟩ := hex rfl
      exact ⟨_, congrArg (Option.map _) ha, (U32.toBeBytes_fromBeBytes a).trans hav⟩
    | w8 =>
      obtain ⟨a, ha, hav⟩ := hex rfl
      exact ⟨_, congrArg (Option.map _) ha, (U64.toBeBytes_fromBeBytes a).trans hav⟩
    | w16 =>
      obtain ⟨a, ha, hav⟩ := hex rfl
      exact ⟨_, congrArg (Option.map _) ha, (U128.toBeBytes_fromBeBytes a).trans hav⟩
    | w32 => exact hex rfl
  | int w =>
    cases w with
    | w32 =>
      obtain ⟨a, ha, hav⟩ := hex rfl
      exact ⟨_, congrArg (Option.map _) ha, congrArg flipSign hav⟩
    | _ =>
      obtain ⟨a, ha, hav⟩ := hex rfl
      exact ⟨_, congrArg (Option.map _) ha, (Signed.toBeBytes_fromBeBytes _).trans (congrArg flipSign hav)⟩
  | decimal w =>
    cases w with
    | w32 =>
      obtain ⟨a, ha, hav⟩ := hex rfl
      exact ⟨_, congrArg (Option.map _) ha, congrArg flipSign hav⟩
    | _ =>
      obtain ⟨a, ha, hav⟩ := hex rfl
      exact ⟨_, congrArg (Option.map _) ha, (Signed.toBeBytes_fromBeBytes _).trans (congrArg flipSign hav)⟩
  | float w =>
    cases w with
    | f32 =>
      obtain ⟨a, ha, hav⟩ := hex rfl
      exact ⟨_, congrArg (Option.map _) ha, (U32.toBeBytes_fromBeBytes _).trans (congrArg decodeFloat hav)⟩
    | f64 =>
      obtain ⟨a, ha, hav⟩ := hex rfl
      exact ⟨_, congrArg (Option.map _) ha, (U64.toBeBytes_fromBeBytes _).trans (congrArg decodeFloat hav)⟩
  | date32 =>
    obtain ⟨a, ha, hav⟩ := hex rfl
    exact ⟨_, congrArg (Option.map _) ha, (Signed.toBeBytes_fromBeBytes _).trans (congrArg flipSign hav)⟩
  | timestamp64 =>
    obtain ⟨a, ha, hav⟩ := hex rfl
    exact ⟨_, congrArg (Option.map _) ha, (Signed.toBeBytes_fromBeBytes _).trans (congrArg flipSign hav)⟩

/-! ### Constructors and accessors -/

/-- A negative zero as zero, every other native value as it is. -/
def normalize : (ty : CellType) → Native ty → Native ty
  | .float .f32, a => if isNegativeZero .f32 (U32.toBeBytes a) then (0 : U32) else a
  | .float .f64, a => if isNegativeZero .f64 (U64.toBeBytes a) then (0 : U64) else a
  | _, a => a

/-- Whether a native value is a float that is no number. -/
def nativeNaN : (ty : CellType) → Native ty → Bool
  | .float .f32, a => isNaN .f32 (U32.toBeBytes a)
  | .float .f64, a => isNaN .f64 (U64.toBeBytes a)
  | _, _ => false

/-- The sign bit of a float is worth the exponent and the fraction together. -/
lemma half_width {w : FloatWidth} {n : ℕ} (h : (CellType.float w).width = some n) :
    half n = 2 ^ (w.layout.1 + w.layout.2) := by
  cases w <;> (obtain rfl := Option.some.inj h; norm_num [half, FloatWidth.layout])

lemma isNegativeZero_iff {w : FloatWidth} {be : Bytes} (h : (CellType.float w).width = some be.length) :
    isNegativeZero w be = true ↔ ofBe be = half be.length := by
  rw [isNegativeZero, decide_eq_true_eq, half_width h]

/-- A float's bit pattern is read back, negative zero as zero. -/
lemma decodeFloat_stored {w : FloatWidth} {α : Type} {n : ℕ} (be : α → Bytes) (hbe : ∀ a, (be a).length = n)
    (hn : (CellType.float w).width = some n) {zero : α} (hzero : be zero = List.replicate n 0) (a : α) :
    decodeFloat (encodeFloat (be a)) = be (if isNegativeZero w (be a) then zero else a) := by
  have hlen : (CellType.float w).width = some (be a).length := by rw [hbe, hn]
  have hne : be a ≠ [] := by
    intro h
    rw [h] at hlen
    cases w <;> cases hlen
  obtain ⟨b, l, he⟩ := List.exists_cons_of_ne_nil hne
  have hiff := isNegativeZero_iff hlen
  rw [he, ofBe_eq_half_iff] at hiff
  have hl : l.length + 1 = n := by rw [← hbe a, he, List.length_cons]
  by_cases hz : isNegativeZero w (be a) = true
  · rw [if_pos hz, he, decodeFloat_encodeFloat, if_pos (hiff.mp (he ▸ hz)), hzero, hl]
  · rw [if_neg hz, he, decodeFloat_encodeFloat, if_neg fun h => hz (he ▸ hiff.mpr h)]

/-- A stored native string reads back as the normalized value's. -/
lemma unstored_stored {ty : CellType} (a : Native ty) :
    unstored ty (stored ty (nativeBytes ty a)) = nativeBytes ty (normalize ty a) := by
  cases ty with
  | float w =>
    cases w with
    | f32 => exact decodeFloat_stored U32.toBeBytes U32.toBeBytes_length rfl rfl a
    | f64 => exact decodeFloat_stored U64.toBeBytes U64.toBeBytes_length rfl rfl a
  | int w => cases w <;> exact flipSign_flipSign (nativeBytes _ a)
  | decimal w => cases w <;> exact flipSign_flipSign (nativeBytes _ a)
  | date32 => exact flipSign_flipSign (nativeBytes _ a)
  | timestamp64 => exact flipSign_flipSign (nativeBytes _ a)
  | fixedBytes w => cases w <;> rfl
  | uint w => cases w <;> rfl
  | _ => rfl

/-- A native value is determined by its string. -/
lemma nativeBytes_inj {ty : CellType} {a b : Native ty} (h : nativeBytes ty a = nativeBytes ty b) : a = b := by
  have hfin : ∀ {w m : ℕ} (_ : m = 256 ^ w) (a b : Fin m), beBytes w a.val = beBytes w b.val → a = b := by
    rintro w m rfl a b h
    exact Fin.ext (beBytes_inj a.isLt b.isLt h)
  cases ty with
  | bool => exact (by decide : ∀ a b : Bool, [if a then (1 : UInt8) else 0] = [if b then 1 else 0] → a = b) a b h
  | str => exact Subtype.ext h
  | bytes => exact h
  | bytes20 => exact Subtype.ext h
  | fixedBytes w => cases w <;> exact Subtype.ext h
  | uint w =>
    cases w with
    | w4 => exact hfin (by norm_num) a b h
    | w8 => exact hfin (by norm_num) a b h
    | w16 => exact hfin (by norm_num) a b h
    | w32 => exact Subtype.ext h
  | int w =>
    cases w with
    | w32 => exact Subtype.ext h
    | _ => exact Signed.toBeBytes_inj h
  | decimal w =>
    cases w with
    | w32 => exact Subtype.ext h
    | _ => exact Signed.toBeBytes_inj h
  | float w =>
    cases w with
    | f32 => exact hfin (by norm_num) a b h
    | f64 => exact hfin (by norm_num) a b h
  | date32 => exact Signed.toBeBytes_inj h
  | timestamp64 => exact Signed.toBeBytes_inj h

/-- A constructor accepts all but the floats that are no numbers. -/
lemma ofNative_accepts {ty : CellType} (a : Native ty) :
    (nativeNaN ty a = false → ∃ v, ofNative ty a = .ok v) ∧
      (nativeNaN ty a = true → ofNative ty a = .error .floatNaN) := by
  cases ty with
  | float w =>
    cases w with
    | f32 =>
      refine ⟨fun h => ⟨_, dif_neg (by rw [show isNaN .f32 (U32.toBeBytes a) = false from h]; nofun)⟩,
        fun h => dif_pos h⟩
    | f64 =>
      refine ⟨fun h => ⟨_, dif_neg (by rw [show isNaN .f64 (U64.toBeBytes a) = false from h]; nofun)⟩,
        fun h => dif_pos h⟩
  | fixedBytes w => cases w <;> exact ⟨fun _ => ⟨_, rfl⟩, nofun⟩
  | uint w => cases w <;> exact ⟨fun _ => ⟨_, rfl⟩, nofun⟩
  | int w => cases w <;> exact ⟨fun _ => ⟨_, rfl⟩, nofun⟩
  | decimal w => cases w <;> exact ⟨fun _ => ⟨_, rfl⟩, nofun⟩
  | _ => exact ⟨fun _ => ⟨_, rfl⟩, nofun⟩

/-- **The accessor of a constructor's type reads the value it was given.** -/
theorem toNative_ofNative {ty : CellType} {a : Native ty} {v : CellValue} (h : ofNative ty a = .ok v) :
    toNative ty v = some (normalize ty a) := by
  obtain ⟨hty, hval⟩ := ofNative_ok h
  obtain ⟨b, hb, hbytes⟩ := toNative_self hty
  have hn : b = normalize ty a := nativeBytes_inj (by rw [hbytes, hval, unstored_stored])
  rw [hb, hn]

/-! ### Owned buffers -/

lemma CellValue.ext_parts {v w : CellValue} (hty : v.ty = w.ty) (hval : v.value = w.value)
    (hi : v.indexable = w.indexable) : v = w := by
  cases v
  cases w
  obtain rfl := hty
  obtain rfl := hval
  obtain rfl := hi
  rfl

/-- **An owned encoding**, with the type it parses to; a value is the view of one. -/
structure OwnedCellValue where
  bytes : Bytes
  ty : CellType
  parsed : ∃ v : CellValue, CellValue.parse bytes = .ok v ∧ v.ty = ty

namespace OwnedCellValue

/-- Validate once and keep the buffer. -/
def parse (bytes : Bytes) : Except CellValueParseError OwnedCellValue :=
  match h : CellValue.parse bytes with
  | .error e => .error e
  | .ok v => .ok ⟨bytes, v.ty, v, h, rfl⟩

/-- A buffer is the encoding of a value: the tag of its type, and a payload. -/
lemma exists_encode (o : OwnedCellValue) : ∃ v : CellValue, o.bytes = v.encode ∧ v.ty = o.ty :=
  o.parsed.imp fun _ h => ⟨(CellValue.encode_of_parse h.1).symm, h.2⟩

lemma tail_valid (o : OwnedCellValue) : o.ty.validate o.bytes.tail = .ok () := by
  obtain ⟨v, hb, hty⟩ := o.exists_encode
  rw [hb, ← hty]
  exact v.valid

lemma head_ordered (o : OwnedCellValue) (h : decide (o.bytes.headD 0 &&& INDEXABLE_BIT ≠ 0) = true) :
    o.ty ≠ .bytes := by
  obtain ⟨v, hb, hty⟩ := o.exists_encode
  rw [hb] at h
  rw [← hty]
  exact v.ordered ((CellValue.tag_indexable v.ty v.indexable).symm.trans h)

/-- The view, without checking the payload again. -/
def asView (o : OwnedCellValue) : CellValue :=
  ⟨o.ty, o.bytes.tail, o.bytes.headD 0 &&& INDEXABLE_BIT ≠ 0, o.head_ordered, o.tail_valid⟩

/-- Copy a view into a buffer of its own. -/
def ofView (v : CellValue) : OwnedCellValue := ⟨v.encode, v.ty, v, CellValue.parse_encode v, rfl⟩

/-- Rewrite the tag for another kind; the payload stays. -/
def withKind (o : OwnedCellValue) (kind : CellKind) : Except CellValueParseError OwnedCellValue :=
  if h : kind = .attribute ∧ o.ty = .bytes then .error .notIndexable
  else
    .ok ⟨(UInt8.ofNat o.ty.id ||| if kind = .attribute then INDEXABLE_BIT else 0) :: o.bytes.tail, o.ty,
      ⟨o.ty, o.bytes.tail, kind = .attribute, fun hk ht => h ⟨by simpa using hk, ht⟩, o.tail_valid⟩, by
        rw [← CellValue.parse_encode, CellValue.encode, CellValue.metadata, CellValue.tag]
        simp only [decide_eq_true_eq], rfl⟩

/-- The bytes determine the buffer. -/
lemma ext_bytes {o p : OwnedCellValue} (h : o.bytes = p.bytes) : o = p := by
  obtain ⟨v, hv, hty⟩ := o.parsed
  obtain ⟨w, hw, hty'⟩ := p.parsed
  rw [h, hw] at hv
  obtain rfl := Except.ok.inj hv
  have ht : o.ty = p.ty := hty.symm.trans hty'
  cases o
  cases p
  obtain rfl := ht
  obtain rfl := h
  rfl

@[simp] lemma asView_ofView (v : CellValue) : (ofView v).asView = v :=
  CellValue.ext_parts rfl rfl (CellValue.tag_indexable v.ty v.indexable)

@[simp] lemma ofView_asView (o : OwnedCellValue) : ofView o.asView = o := by
  obtain ⟨v, hb, -⟩ := o.exists_encode
  have ho : o = ofView v := ext_bytes hb
  rw [ho, asView_ofView]

/-- Parsing a buffer is parsing its view. -/
lemma parse_ok {bytes : Bytes} {o : OwnedCellValue} (h : parse bytes = .ok o) :
    o.bytes = bytes ∧ CellValue.parse bytes = .ok o.asView := by
  unfold parse at h
  split at h
  · cases h
  · rename_i v hv
    obtain rfl := Except.ok.inj h
    refine ⟨rfl, hv.trans ?_⟩
    have ho : (⟨bytes, v.ty, v, hv, rfl⟩ : OwnedCellValue) = ofView v := ext_bytes (CellValue.encode_of_parse hv).symm
    rw [ho, asView_ofView]

/-- A new kind rewrites the tag alone. -/
lemma withKind_bytes {o p : OwnedCellValue} {kind : CellKind} (h : o.withKind kind = .ok p) :
    p.ty = o.ty ∧ p.bytes = CellValue.tag o.ty (kind = .attribute) :: o.bytes.tail := by
  by_cases hk : kind = .attribute ∧ o.ty = .bytes
  · rw [withKind, dif_pos hk] at h
    cases h
  · rw [withKind, dif_neg hk] at h
    obtain rfl := Except.ok.inj h
    refine ⟨rfl, ?_⟩
    rw [CellValue.tag]
    simp only [decide_eq_true_eq]

/-- A buffer changes its kind as its view does. -/
lemma withKind_asView (o : OwnedCellValue) (kind : CellKind) :
    (o.withKind kind).map asView = o.asView.withKind kind := by
  by_cases hk : kind = .attribute ∧ o.ty = .bytes
  · have hview : o.asView.withKind kind = .error .notIndexable := dif_pos hk
    rw [withKind, dif_pos hk, hview]
    rfl
  · obtain ⟨p, hp⟩ : ∃ p, o.withKind kind = .ok p := ⟨_, dif_neg hk⟩
    obtain ⟨hty, hb⟩ := withKind_bytes hp
    have hi := CellValue.tag_indexable o.ty (decide (kind = .attribute))
    have hview : o.asView.withKind kind = .ok p.asView := by
      refine (dif_neg hk).trans (congrArg Except.ok (CellValue.ext_parts hty.symm (congrArg List.tail hb).symm ?_))
      show _ = decide (p.bytes.headD 0 &&& INDEXABLE_BIT ≠ 0)
      rw [hb]
      exact hi.symm
    rw [hp, hview]
    rfl

/-- The type bits of a tag do not depend on the kind. -/
lemma head_type (o : OwnedCellValue) : (o.bytes.headD 0 &&& TYPE_MASK).toNat = o.ty.id := by
  obtain ⟨v, hb, hty⟩ := o.exists_encode
  rw [hb, ← hty]
  exact CellValue.tag_type v.ty v.indexable

end OwnedCellValue

/-- The strings parsed are the tags of a type over a payload valid for it. -/
lemma CellValue.parse_accepts (bytes : Bytes) : (∃ v, CellValue.parse bytes = .ok v) ↔ ∃ ty payload indexable,
    bytes = CellValue.tag ty indexable :: payload ∧ (indexable = true → ty ≠ .bytes) ∧
      ty.validate payload = .ok () := by
  constructor
  · rintro ⟨v, hv⟩
    exact ⟨v.ty, v.value, v.indexable, (CellValue.encode_of_parse hv).symm, v.ordered, v.valid⟩
  · rintro ⟨ty, payload, indexable, rfl, ho, hv⟩
    have hp := CellValue.parse_encode ⟨ty, payload, indexable, ho, hv⟩
    exact ⟨_, hp⟩

/-- Parsing a buffer is parsing its view. -/
lemma OwnedCellValue.parse_asView (bytes : Bytes) :
    (OwnedCellValue.parse bytes).map OwnedCellValue.asView = CellValue.parse bytes := by
  cases h : OwnedCellValue.parse bytes with
  | ok o => exact (OwnedCellValue.parse_ok h).2.symm
  | error e =>
    unfold OwnedCellValue.parse at h
    split at h
    · rename_i e' he
      rw [he, ← Except.error.inj h]
      rfl
    · cases h

/-- A value of a type and a payload valid for it is built, and read back from its encoding. -/
lemma CellValue.new_valid {ty : CellType} {payload : Bytes} {indexable : Bool} (ho : indexable = true → ty ≠ .bytes)
    (hv : ty.validate payload = .ok ()) : ∃ v, CellValue.new ty payload indexable = .ok v ∧ v.ty = ty ∧
      v.value = payload ∧ v.indexable = indexable ∧ CellValue.parse v.encode = .ok v := by
  have hn := CellValue.new_self ⟨ty, payload, indexable, ho, hv⟩
  exact ⟨_, hn, rfl, rfl, rfl, CellValue.parse_encode _⟩

/-- A constructor's output is read by the accessor of its type alone. -/
lemma ofNative_read {ty : CellType} (a : Native ty) (hn : nativeNaN ty a = false) :
    ∃ v, ofNative ty a = .ok v ∧ CellValue.parse v.encode = .ok v ∧ toNative ty v = some (normalize ty a) ∧
      ∀ ty', ty' ≠ ty → toNative ty' v = none := by
  obtain ⟨v, hv⟩ := (ofNative_accepts a).1 hn
  refine ⟨v, hv, CellValue.parse_encode v, toNative_ofNative hv, fun ty' hty => toNative_ne ?_⟩
  rw [(ofNative_ok hv).1]
  exact hty.symm

/-- A new kind changes the tag's high bit alone. -/
lemma OwnedCellValue.withKind_tag {o : OwnedCellValue} {kind : CellKind} (hk : ¬ (kind = .attribute ∧ o.ty = .bytes)) :
    ∃ p, o.withKind kind = .ok p ∧ p.ty = o.ty ∧ p.bytes.tail = o.bytes.tail ∧
      p.bytes.headD 0 &&& TYPE_MASK = o.bytes.headD 0 &&& TYPE_MASK ∧
      (p.bytes.headD 0 &&& INDEXABLE_BIT ≠ 0 ↔ kind = .attribute) := by
  obtain ⟨p, hp⟩ : ∃ p, o.withKind kind = .ok p := ⟨_, dif_neg hk⟩
  obtain ⟨hty, hb⟩ := OwnedCellValue.withKind_bytes hp
  refine ⟨p, hp, hty, by rw [hb, List.tail_cons], UInt8.toNat_inj.mp ?_, ?_⟩
  · rw [p.head_type, o.head_type, hty]
  · rw [hb]
    exact decide_eq_decide.mp (CellValue.tag_indexable o.ty (decide (kind = .attribute)))

/-! ### The codec -/

/-- **The value codec is exact.** The strings parsed are the tags of a type over a payload valid for it,
and encode back; a payload built and encoded parses to itself; a constructor's output is read by its own
accessor alone; a new kind changes the tag's high bit alone. -/
theorem value_codec :
    (∀ bytes, (∃ v, CellValue.parse bytes = .ok v) ↔ ∃ ty payload indexable,
      bytes = CellValue.tag ty indexable :: payload ∧ (indexable = true → ty ≠ .bytes) ∧ ty.validate payload = .ok ()) ∧
    (∀ bytes v, CellValue.parse bytes = .ok v → v.encode = bytes) ∧
    (∀ bytes, (OwnedCellValue.parse bytes).map OwnedCellValue.asView = CellValue.parse bytes) ∧
    (∀ ty payload indexable, (indexable = true → ty ≠ .bytes) → ty.validate payload = .ok () →
      ∃ v, CellValue.new ty payload indexable = .ok v ∧ v.ty = ty ∧ v.value = payload ∧ v.indexable = indexable ∧
        CellValue.parse v.encode = .ok v) ∧
    (∀ (v : CellValue) n, v.ty.width = some n → v.value.length = n) ∧
    (∀ ty (a : Native ty), (nativeNaN ty a = true → ofNative ty a = .error .floatNaN) ∧
      (nativeNaN ty a = false → ∃ v, ofNative ty a = .ok v ∧ CellValue.parse v.encode = .ok v ∧
        toNative ty v = some (normalize ty a) ∧ ∀ ty', ty' ≠ ty → toNative ty' v = none)) ∧
    (∀ (o : OwnedCellValue) kind, (o.withKind kind).map OwnedCellValue.asView = o.asView.withKind kind ∧
      (kind = .attribute ∧ o.ty = .bytes → o.withKind kind = .error .notIndexable) ∧
      (¬ (kind = .attribute ∧ o.ty = .bytes) → ∃ p, o.withKind kind = .ok p ∧ p.ty = o.ty ∧
        p.bytes.tail = o.bytes.tail ∧ p.bytes.headD 0 &&& TYPE_MASK = o.bytes.headD 0 &&& TYPE_MASK ∧
        (p.bytes.headD 0 &&& INDEXABLE_BIT ≠ 0 ↔ kind = .attribute))) :=
  ⟨CellValue.parse_accepts, fun _ _ => CellValue.encode_of_parse, OwnedCellValue.parse_asView,
    fun _ _ _ ho hv => CellValue.new_valid ho hv, fun v _ hn => CellType.length_of_validate hn v.valid,
    fun _ a => ⟨(ofNative_accepts a).2, ofNative_read a⟩,
    fun o kind => ⟨o.withKind_asView kind, fun hk => dif_pos hk, OwnedCellValue.withKind_tag⟩⟩

end GolemDb.Cells
