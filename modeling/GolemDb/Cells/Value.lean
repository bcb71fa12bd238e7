import GolemDb.Cells.Types

/-!
A cell value: a type, the stored payload and whether the cell is indexable. A value carries the
facts its constructors check, so that the codec is exact: `parse` accepts the bytes `encode`
gives, and nothing else (`parse_encode`, `encode_of_parse`).
-/

namespace GolemDb.Cells

open GolemDb.Lib

/-- The metadata byte's high bit. -/
def INDEXABLE_BIT : UInt8 := 0x80

/-- The metadata byte's low seven bits. -/
def TYPE_MASK : UInt8 := 0x7f

/-- **A validated cell value.** The owned buffer and the borrowed view of the source are one type
here; the buffer is `encode`. -/
structure CellValue where
  ty : CellType
  value : Bytes
  indexable : Bool
  ordered : indexable = true → ty ≠ .bytes
  valid : ty.validate value = .ok ()
deriving DecidableEq

namespace CellValue

/-- Build a cell from a stored payload, validating it. -/
def new (ty : CellType) (value : Bytes) (indexable : Bool) : Except CellValueParseError CellValue :=
  if ho : indexable = true ∧ ty = .bytes then .error .notIndexable
  else
    match h : ty.validate value with
    | .error e => .error e
    | .ok () => .ok ⟨ty, value, indexable, fun hi ht => ho ⟨hi, ht⟩, h⟩

/-- The metadata byte of a type and a kind: the indexable bit over the type id. -/
def tag (ty : CellType) (indexable : Bool) : UInt8 :=
  UInt8.ofNat ty.id ||| if indexable then INDEXABLE_BIT else 0

/-- Decode one complete cell buffer. -/
def parse (bytes : Bytes) : Except CellValueParseError CellValue :=
  match bytes with
  | [] => .error .empty
  | metadata :: value => do
    let ty ← CellType.fromId (metadata &&& TYPE_MASK).toNat
    new ty value (metadata &&& INDEXABLE_BIT ≠ 0)

def metadata (v : CellValue) : UInt8 := tag v.ty v.indexable

/-- The complete storage encoding: the metadata byte and the payload. -/
def encode (v : CellValue) : Bytes := v.metadata :: v.value

def kind (v : CellValue) : CellKind := if v.indexable then .attribute else .field

/-- Change the kind alone; variable-length bytes cannot become an attribute. -/
def withKind (v : CellValue) (kind : CellKind) : Except CellValueParseError CellValue :=
  if h : kind = .attribute ∧ v.ty = .bytes then .error .notIndexable
  else .ok ⟨v.ty, v.value, kind = .attribute, fun hk ht => h ⟨by simpa using hk, ht⟩, v.valid⟩

/-! ### The codec -/

lemma new_self (v : CellValue) : new v.ty v.value v.indexable = .ok v := by
  unfold new
  rw [dif_neg fun h => v.ordered h.1 h.2]
  split
  · rename_i e h
    rw [v.valid] at h
    cases h
  · rfl

lemma new_eq_ok {ty : CellType} {value : Bytes} {indexable : Bool} {v : CellValue}
    (h : new ty value indexable = .ok v) :
    v.ty = ty ∧ v.value = value ∧ v.indexable = indexable := by
  unfold new at h
  split at h
  · cases h
  · split at h
    · cases h
    · cases h
      exact ⟨rfl, rfl, rfl⟩

lemma tag_type (ty : CellType) (i : Bool) : (tag ty i &&& TYPE_MASK).toNat = ty.id := by
  cases ty with
  | fixedBytes w => cases w <;> cases i <;> decide
  | uint w => cases w <;> cases i <;> decide
  | int w => cases w <;> cases i <;> decide
  | decimal w => cases w <;> cases i <;> decide
  | float w => cases w <;> cases i <;> decide
  | _ => cases i <;> decide

lemma tag_indexable (ty : CellType) (i : Bool) : decide (tag ty i &&& INDEXABLE_BIT ≠ 0) = i := by
  cases ty with
  | fixedBytes w => cases w <;> cases i <;> decide
  | uint w => cases w <;> cases i <;> decide
  | int w => cases w <;> cases i <;> decide
  | decimal w => cases w <;> cases i <;> decide
  | float w => cases w <;> cases i <;> decide
  | _ => cases i <;> decide

/-- A tag is determined by its two parts. -/
lemma tag_eq {b : UInt8} {ty : CellType} (h : (b &&& TYPE_MASK).toNat = ty.id) :
    tag ty (b &&& INDEXABLE_BIT ≠ 0) = b := by
  have hsplit : ∀ n : Fin 256, UInt8.ofNat (UInt8.ofNat n.val &&& TYPE_MASK).toNat |||
      (if decide (UInt8.ofNat n.val &&& INDEXABLE_BIT ≠ 0) then INDEXABLE_BIT else 0)
        = UInt8.ofNat n.val := by
    decide +kernel
  have hb := hsplit ⟨b.toNat, b.toNat_lt⟩
  simp only [UInt8.ofNat_toNat] at hb
  rw [tag, ← h, UInt8.ofNat_toNat]
  exact hb

@[simp] theorem parse_encode (v : CellValue) : parse v.encode = .ok v := by
  unfold parse encode metadata
  simp only
  rw [tag_type, CellType.fromId_id]
  show new v.ty v.value (decide (tag v.ty v.indexable &&& INDEXABLE_BIT ≠ 0)) = _
  rw [tag_indexable, new_self]

theorem encode_of_parse {bytes : Bytes} {v : CellValue} (h : parse bytes = .ok v) :
    v.encode = bytes := by
  unfold parse at h
  split at h
  · cases h
  · rename_i b value
    cases hty : CellType.fromId (b &&& TYPE_MASK).toNat with
    | error e =>
      rw [hty] at h
      cases h
    | ok ty =>
      rw [hty] at h
      obtain ⟨h1, h2, h3⟩ := new_eq_ok h
      rw [encode, metadata, h1, h2, h3, tag_eq (CellType.id_fromId hty).symm]

lemma encode_inj {v w : CellValue} (h : v.encode = w.encode) : v = w := by
  have hv := parse_encode v
  rw [h, parse_encode] at hv
  exact (Except.ok.inj hv).symm

/-! ### Typed construction and access -/

/-- `field_from_typed`, for payloads known to satisfy the codec. -/
def fieldFromTyped (ty : CellType) (value : Bytes) (valid : ty.validate value = .ok ()) : CellValue :=
  ⟨ty, value, false, nofun, valid⟩

def fromBytes (value : Bytes) : CellValue := fieldFromTyped .bytes value rfl

def fromBytes32 (value : Arr 32) : CellValue :=
  fieldFromTyped (.fixedBytes .w32) value.1 (by
    simp [CellType.validate, CellType.checkWidth, CellType.width, Width.bytes, Width.toNat, value.2,
      Bind.bind, Except.bind])

def fromU32 (n : U32) : CellValue :=
  fieldFromTyped (.uint .w4) n.toBeBytes (by
    simp [CellType.validate, CellType.checkWidth, CellType.width, Width.bytes, Width.toNat,
      Bind.bind, Except.bind])

def fromU64 (n : U64) : CellValue :=
  fieldFromTyped (.uint .w8) n.toBeBytes (by
    simp [CellType.validate, CellType.checkWidth, CellType.width, Width.bytes, Width.toNat,
      Bind.bind, Except.bind])

/-- The payload as an array, if the cell is of the type. -/
def exact (v : CellValue) (n : ℕ) (want : CellType) : Option (Arr n) :=
  if v.ty = want then some (takeArr n v.value) else none

def asBytes (v : CellValue) : Option Bytes := if v.ty = .bytes then some v.value else none

def asBytes32 (v : CellValue) : Option (Arr 32) := v.exact 32 (.fixedBytes .w32)

def asU32 (v : CellValue) : Option U32 := (v.exact 4 (.uint .w4)).map U32.fromBeBytes

def asU64 (v : CellValue) : Option U64 := (v.exact 8 (.uint .w8)).map U64.fromBeBytes

@[simp] lemma asU32_fromU32 (n : U32) : (fromU32 n).asU32 = some n := by
  unfold asU32 exact fromU32 fieldFromTyped
  rw [if_pos rfl, Option.map_some]
  congr 1
  have h : takeArr 4 n.toBeBytes = ⟨n.toBeBytes, n.toBeBytes_length⟩ := by
    have := takeArr_self (⟨n.toBeBytes, n.toBeBytes_length⟩ : Arr 4) []
    rwa [List.append_nil] at this
  rw [h, U32.fromBeBytes_toBeBytes]

@[simp] lemma asU64_fromU64 (n : U64) : (fromU64 n).asU64 = some n := by
  unfold asU64 exact fromU64 fieldFromTyped
  rw [if_pos rfl, Option.map_some]
  congr 1
  have h : takeArr 8 n.toBeBytes = ⟨n.toBeBytes, n.toBeBytes_length⟩ := by
    have := takeArr_self (⟨n.toBeBytes, n.toBeBytes_length⟩ : Arr 8) []
    rwa [List.append_nil] at this
  rw [h, U64.fromBeBytes_toBeBytes]

/-- A field that reads as a 64-bit word is the word's cell. -/
lemma eq_fromU64 {v : CellValue} {n : U64} (h : v.asU64 = some n) (hi : v.indexable = false) :
    v = fromU64 n := by
  unfold asU64 exact at h
  split_ifs at h with hty
  · have hn := Option.some.inj h
    have hlen : v.value.length = 8 :=
      CellType.length_of_validate (n := 8) (by rw [hty]; rfl) v.valid
    have hval : v.value = n.toBeBytes := by
      rw [← hn, U64.toBeBytes_fromBeBytes, takeArr_val (by omega), ← hlen, List.take_length]
    cases v
    simp only [fromU64, fieldFromTyped, CellValue.mk.injEq]
    exact ⟨hty, hval, hi⟩
  · cases h

@[simp] lemma asBytes32_fromBytes32 (a : Arr 32) : (fromBytes32 a).asBytes32 = some a := by
  unfold asBytes32 exact fromBytes32 fieldFromTyped
  rw [if_pos rfl]
  have := takeArr_self a []
  rw [List.append_nil] at this
  rw [this]

@[simp] lemma fromU32_indexable (n : U32) : (fromU32 n).indexable = false := rfl
@[simp] lemma fromU64_indexable (n : U64) : (fromU64 n).indexable = false := rfl
@[simp] lemma fromBytes32_indexable (a : Arr 32) : (fromBytes32 a).indexable = false := rfl
@[simp] lemma fromBytes_indexable (b : Bytes) : (fromBytes b).indexable = false := rfl

lemma fromU32_inj {n n' : U32} (h : fromU32 n = fromU32 n') : n = n' := by
  have := congrArg asU32 h
  simpa using this

lemma fromU64_inj {n n' : U64} (h : fromU64 n = fromU64 n') : n = n' := by
  have := congrArg asU64 h
  simpa using this

lemma fromBytes32_inj {a a' : Arr 32} (h : fromBytes32 a = fromBytes32 a') : a = a' := by
  have := congrArg asBytes32 h
  simpa using this

end CellValue

end GolemDb.Cells
