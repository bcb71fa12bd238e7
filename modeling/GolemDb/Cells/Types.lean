import GolemDb.Lib.Bytes

/-!
The cell types: their ids in the low seven bits of a value's tag, the widths of their payloads,
and the check that a byte string is a stored payload of a type. Signed numbers are stored with the
sign bit flipped and floats in the total order of their bit patterns, so that the bytewise order
of payloads is the order of the values.
-/

namespace GolemDb.Cells

open GolemDb.Lib

/-! ### Types -/

/-- Whether a cell takes part in the index. -/
inductive CellKind where
  | field
  | attribute
deriving DecidableEq

/-- The `w` of a `4 · 2^w`-byte family. -/
inductive Width where
  | w4
  | w8
  | w16
  | w32
deriving DecidableEq

namespace Width

def toNat : Width → ℕ
  | w4 => 0
  | w8 => 1
  | w16 => 2
  | w32 => 3

def fromW : ℕ → Width
  | 0 => w4
  | 1 => w8
  | 2 => w16
  | _ => w32

def bytes (w : Width) : ℕ := 4 <<< w.toNat

end Width

inductive FloatWidth where
  | f32
  | f64
deriving DecidableEq

inductive CellType where
  | bool
  | str
  /-- Field-only: no order, so never indexable. -/
  | bytes
  | bytes20
  | fixedBytes (w : Width)
  | uint (w : Width)
  | int (w : Width)
  | decimal (w : Width)
  | float (w : FloatWidth)
  | date32
  | timestamp64
deriving DecidableEq

/-- Why bytes are no cell value. -/
inductive CellValueParseError where
  | empty
  | absentTag
  | reservedType (id : ℕ)
  | lengthMismatch (ty : CellType) (expected actual : ℕ)
  | invalidBool (byte : UInt8)
  | invalidUtf8 (validUpTo : ℕ)
  | floatNaN
  | negativeZero
  | notIndexable
deriving DecidableEq

namespace CellType

def id : CellType → ℕ
  | bool => 1
  | str => 2
  | bytes => 3
  | bytes20 => 4
  | fixedBytes w => 8 + w.toNat
  | uint w => 12 + w.toNat
  | int w => 16 + w.toNat
  | decimal w => 20 + w.toNat
  | float .f32 => 24
  | float .f64 => 25
  | date32 => 28
  | timestamp64 => 29

/-- Decode a 7-bit type id. -/
def fromId (id : ℕ) : Except CellValueParseError CellType :=
  match id with
  | 0 => .error .absentTag
  | 1 => .ok bool
  | 2 => .ok str
  | 3 => .ok bytes
  | 4 => .ok bytes20
  | 24 => .ok (float .f32)
  | 25 => .ok (float .f64)
  | 28 => .ok date32
  | 29 => .ok timestamp64
  | id =>
    if 8 ≤ id ∧ id ≤ 11 then .ok (fixedBytes (Width.fromW (id - 8)))
    else if 12 ≤ id ∧ id ≤ 15 then .ok (uint (Width.fromW (id - 12)))
    else if 16 ≤ id ∧ id ≤ 19 then .ok (int (Width.fromW (id - 16)))
    else if 20 ≤ id ∧ id ≤ 23 then .ok (decimal (Width.fromW (id - 20)))
    else .error (.reservedType id)

/-- The payload width in bytes, none for the types of variable width. -/
def width : CellType → Option ℕ
  | str => none
  | bytes => none
  | bool => some 1
  | bytes20 => some 20
  | fixedBytes w => some w.bytes
  | uint w => some w.bytes
  | int w => some w.bytes
  | decimal w => some w.bytes
  | float .f32 => some 4
  | date32 => some 4
  | float .f64 => some 8
  | timestamp64 => some 8

end CellType

/-! ### Stored forms -/

/-- Two's complement to stored form and back: flip the sign bit. -/
def flipSign : Bytes → Bytes
  | [] => []
  | b :: l => (b ^^^ 0x80) :: l

/-- The bit patterns as stored: a non-negative one flips its sign bit, a negative one every bit,
and negative zero becomes positive zero. -/
def encodeFloat (be : Bytes) : Bytes :=
  match be with
  | [] => []
  | b :: l =>
    if b = 0x80 ∧ l.all (· = 0) then flipSign (List.replicate be.length 0)
    else if b &&& 0x80 = 0 then flipSign be
    else be.map (~~~ ·)

/-- Stored form to bit pattern: the stored top bit is set for the non-negative ones. -/
def decodeFloat (stored : Bytes) : Bytes :=
  match stored with
  | [] => []
  | b :: _ => if b &&& 0x80 ≠ 0 then flipSign stored else stored.map (~~~ ·)

/-- The exponent and fraction widths of a float. -/
def FloatWidth.layout : FloatWidth → ℕ × ℕ
  | .f32 => (8, 23)
  | .f64 => (11, 52)

/-- `is_nan` of a big-endian bit pattern: all exponent bits set, some fraction bit set. -/
def isNaN (w : FloatWidth) (be : Bytes) : Bool :=
  let (exponent, fraction) := w.layout
  ofBe be / 2 ^ fraction % 2 ^ exponent = 2 ^ exponent - 1 && ofBe be % 2 ^ fraction ≠ 0

/-- `x == 0.0 && x.is_sign_negative()`: the sign bit alone. -/
def isNegativeZero (w : FloatWidth) (be : Bytes) : Bool :=
  let (exponent, fraction) := w.layout
  ofBe be = 2 ^ (exponent + fraction)

/-! ### UTF-8 -/

def isContinuation (b : UInt8) : Bool := 0x80 ≤ b && b ≤ 0xbf

/-- The length of the well-formed UTF-8 sequence a string begins with. -/
def utf8Len : Bytes → Option ℕ
  | [] => none
  | b0 :: rest =>
    if b0 < 0x80 then some 1
    else if b0 < 0xc2 then none
    else if b0 < 0xe0 then
      match rest with
      | b1 :: _ => if isContinuation b1 then some 2 else none
      | [] => none
    else if b0 < 0xf0 then
      match rest with
      | b1 :: b2 :: _ =>
        if (if b0 = 0xe0 then 0xa0 else 0x80) ≤ b1 ∧ b1 ≤ (if b0 = 0xed then 0x9f else 0xbf)
          ∧ isContinuation b2 then some 3 else none
      | _ => none
    else if b0 < 0xf5 then
      match rest with
      | b1 :: b2 :: b3 :: _ =>
        if (if b0 = 0xf0 then 0x90 else 0x80) ≤ b1 ∧ b1 ≤ (if b0 = 0xf4 then 0x8f else 0xbf)
          ∧ isContinuation b2 ∧ isContinuation b3 then some 4 else none
      | _ => none
    else none

/-- The bytes of the well-formed sequences a string begins with; the fuel is its length. -/
def validUpTo : ℕ → Bytes → ℕ
  | 0, _ => 0
  | fuel + 1, l =>
    match utf8Len l with
    | some n => n + validUpTo fuel (l.drop n)
    | none => 0

/-- `from_utf8`: the text, or where it stops being one. -/
def fromUtf8 (l : Bytes) : Except ℕ Bytes :=
  let n := validUpTo l.length l
  if n = l.length then .ok l else .error n

/-- The text read is the string itself. -/
lemma fromUtf8_self {l s : Bytes} (h : fromUtf8 l = .ok s) : s = l := by
  unfold fromUtf8 at h
  simp only at h
  split_ifs at h
  exact (Except.ok.inj h).symm

lemma validUpTo_ascii : ∀ l : Bytes, (∀ b ∈ l, b < 0x80) → validUpTo l.length l = l.length := by
  intro l
  induction l with
  | nil => intro _; rfl
  | cons b l ih =>
    intro h
    have hb : utf8Len (b :: l) = some 1 := by
      rw [utf8Len.eq_def]
      exact if_pos (h b (List.mem_cons_self ..))
    rw [List.length_cons, validUpTo, hb]
    simp only [List.drop_succ_cons, List.drop_zero]
    rw [ih fun c hc => h c (List.mem_cons_of_mem _ hc)]
    omega

/-- An ASCII string is UTF-8. -/
lemma fromUtf8_ascii {l : Bytes} (h : ∀ b ∈ l, b < 0x80) : fromUtf8 l = .ok l := by
  rw [fromUtf8, validUpTo_ascii l h]
  simp

/-! ### Validation -/

namespace CellType

/-- The payload's length against the type's width. -/
def checkWidth (ty : CellType) (value : Bytes) : Except CellValueParseError Unit :=
  match ty.width with
  | some n => if value.length ≠ n then .error (.lengthMismatch ty n value.length) else .ok ()
  | none => .ok ()

/-- **A stored payload of the type.** -/
def validate (ty : CellType) (value : Bytes) : Except CellValueParseError Unit := do
  ty.checkWidth value
  match ty with
  | bool => if 1 < value.headD 0 then .error (.invalidBool (value.headD 0)) else .ok ()
  | str =>
    match fromUtf8 value with
    | .ok _ => .ok ()
    | .error n => .error (.invalidUtf8 n)
  | float w =>
    let x := decodeFloat value
    if isNaN w x then .error .floatNaN
    else if isNegativeZero w x then .error .negativeZero
    else .ok ()
  | _ => .ok ()

lemma fromId_id (ty : CellType) : fromId ty.id = .ok ty := by
  cases ty with
  | fixedBytes w => cases w <;> rfl
  | uint w => cases w <;> rfl
  | int w => cases w <;> rfl
  | decimal w => cases w <;> rfl
  | float w => cases w <;> rfl
  | _ => rfl

lemma id_inj {ty ty' : CellType} (h : ty.id = ty'.id) : ty = ty' := by
  have := fromId_id ty
  rw [h, fromId_id] at this
  exact (Except.ok.inj this).symm

lemma id_fromId {id : ℕ} {ty : CellType} (h : fromId id = .ok ty) : ty.id = id := by
  unfold fromId at h
  split at h
  any_goals first | (cases h; rfl) | cases h
  split_ifs at h with h1 h2 h3 h4
  · cases h
    obtain ⟨h1, h2⟩ := h1
    interval_cases id <;> rfl
  · cases h
    obtain ⟨h1, h2⟩ := h2
    interval_cases id <;> rfl
  · cases h
    obtain ⟨h1, h2⟩ := h3
    interval_cases id <;> rfl
  · cases h
    obtain ⟨h1, h2⟩ := h4
    interval_cases id <;> rfl

/-- A valid payload has its type's width. -/
lemma length_of_validate {ty : CellType} {value : Bytes} {n : ℕ} (hn : ty.width = some n)
    (h : ty.validate value = .ok ()) : value.length = n := by
  by_contra hne
  unfold validate checkWidth at h
  rw [hn] at h
  simp [hne, Bind.bind, Except.bind] at h

end CellType

end GolemDb.Cells
