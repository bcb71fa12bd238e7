import GolemDb.Cells.Value
import Mathlib.Data.Prod.Lex

/-!
Cell addresses: a record id and a name within the record. User names follow a grammar; the names
of reserved records are raw bytes. A key is stored as the id's eight bytes and the name, which
sorts as the pairs do.
-/

namespace GolemDb.Cells

open GolemDb.Lib

/-- The bytes of an ASCII literal. -/
def ascii (s : String) : Bytes := s.toList.map fun c => UInt8.ofNat c.toNat

/-! ### Names -/

/-- A within-record name, as bytes. -/
abbrev CellName := Bytes

inductive CellNameError where
  | empty
  | tooLong (max actual : ℕ)
  | notAlphaFirst (byte : UInt8)
  | invalidByte (at' : ℕ) (byte : UInt8)
deriving DecidableEq

/-- `{:#04x}`: two hexadecimal digits after `0x`. -/
def hexByte (b : UInt8) : String :=
  "0x" ++ String.ofList [Nat.digitChar (b.toNat / 16), Nat.digitChar (b.toNat % 16)]

def CellNameError.display : CellNameError → String
  | empty => "cell name is empty"
  | tooLong max actual =>
    "cell name is " ++ toString actual ++ " bytes, the maximum is " ++ toString max
  | notAlphaFirst b => "cell name must begin with a letter, got " ++ hexByte b
  | invalidByte i b => "byte " ++ hexByte b ++ " at offset " ++ toString i ++ " is not a name character"

/-- `is_ascii_alphabetic`. -/
def isAlpha (b : UInt8) : Bool := (0x41 ≤ b && b ≤ 0x5a) || (0x61 ≤ b && b ≤ 0x7a)

/-- A letter, a digit, or one of `_`, `-`, `.` and `:`. -/
def isRest (b : UInt8) : Bool :=
  isAlpha b || (0x30 ≤ b && b ≤ 0x39) || b = 0x5f || b = 0x2d || b = 0x2e || b = 0x3a

/-- `first *rest`; the base shifts error offsets behind a sigil. -/
def check (name : Bytes) (base : ℕ) : Except CellNameError Unit :=
  match name with
  | [] => .error .empty
  | first :: rest =>
    if ¬ isAlpha first then .error (.notAlphaFirst first)
    else
      match rest.findIdx? (fun b => !isRest b) with
      | some i => .error (.invalidByte (base + 1 + i) (rest.getD i 0))
      | none => .ok ()

/-- `$`. -/
def DOLLAR : UInt8 := 0x24

/-- A user name: the grammar, at most `max_len` bytes. -/
def parseUser (name : Bytes) (maxLen : ℕ) : Except CellNameError CellName :=
  if maxLen < name.length then .error (.tooLong maxLen name.length)
  else do
    match name with
    | b :: rest => if b = DOLLAR then check rest 1 else check name 0
    | [] => check name 0
    return name

/-- An engine name: `#` or `@`, then the grammar. -/
def parseEngine (name : Bytes) : Except CellNameError CellName :=
  match name with
  | [] => .error .empty
  | b :: rest =>
    if b = 0x23 ∨ b = 0x40 then do
      check rest 1
      return name
    else .error (.invalidByte 0 b)

namespace Reserved

/-- A record's logical key. -/
def KEY : CellName := ascii "#key"
/-- The next record id to hand out. -/
def NEXT_RECORD_ID : CellName := ascii "#nextRecordID"
def MAX_STR_LEN : CellName := ascii "#maxStrLen"
def MAX_BYTES_LEN : CellName := ascii "#maxBytesLen"
def MAX_CELL_NAME_LEN : CellName := ascii "#maxCellNameLen"

end Reserved

/-- The grammar of user names: an optional `$`, a letter, and name characters. -/
def UserName (name : Bytes) : Prop :=
  ∃ first rest, (name = first :: rest ∨ name = DOLLAR :: first :: rest) ∧ isAlpha first = true ∧
    ∀ b ∈ rest, isRest b = true

lemma check_ok {name : Bytes} {base : ℕ} : check name base = .ok () ↔
    ∃ first rest, name = first :: rest ∧ isAlpha first = true ∧ ∀ b ∈ rest, isRest b = true := by
  unfold check
  cases name with
  | nil => simp
  | cons first rest =>
    by_cases hf : isAlpha first = true
    · simp only [hf, not_true_eq_false, if_false]
      cases hi : rest.findIdx? (fun b => !isRest b) with
      | none =>
        rw [List.findIdx?_eq_none_iff] at hi
        simpa [hf] using hi
      | some i =>
        obtain ⟨hlt, hbad, -⟩ := List.findIdx?_eq_some_iff_getElem.mp hi
        simp only [reduceCtorEq, List.cons.injEq, false_iff, not_exists, not_and]
        rintro first' rest' ⟨rfl, rfl⟩ - hall
        have := hall _ (List.getElem_mem hlt)
        simp [this] at hbad
    · simp [hf]

lemma isAlpha_dollar : isAlpha DOLLAR = false := by decide

lemma parseUser_ok {name : Bytes} {maxLen : ℕ} {n : CellName} (h : parseUser name maxLen = .ok n) :
    n = name ∧ UserName name := by
  unfold parseUser at h
  split_ifs at h with hlen
  cases name with
  | nil => cases h
  | cons b rest =>
    by_cases hb : b = DOLLAR
    · subst hb
      simp only [if_true] at h
      cases hc : check rest 1 with
      | error e => rw [hc] at h; cases h
      | ok u =>
        rw [hc] at h
        cases h
        obtain ⟨first, tail, rfl, hf, ht⟩ := check_ok.mp hc
        exact ⟨rfl, first, tail, .inr rfl, hf, ht⟩
    · simp only [hb, if_false] at h
      cases hc : check (b :: rest) 0 with
      | error e => rw [hc] at h; cases h
      | ok u =>
        rw [hc] at h
        cases h
        obtain ⟨first, tail, he, hf, ht⟩ := check_ok.mp hc
        exact ⟨rfl, first, tail, .inl he, hf, ht⟩

/-- A name of the grammar is accepted wherever it is not too long. -/
lemma parseUser_userName {name : Bytes} {maxLen : ℕ} (h : UserName name) (hlen : name.length ≤ maxLen) :
    parseUser name maxLen = .ok name := by
  obtain ⟨first, rest, he, hf, hr⟩ := h
  have hcheck : ∀ base, check (first :: rest) base = .ok () := fun base => check_ok.mpr ⟨first, rest, rfl, hf, hr⟩
  unfold parseUser
  rw [if_neg (not_lt.mpr hlen)]
  rcases he with rfl | rfl
  · have hb : first ≠ DOLLAR := by
      rintro rfl
      rw [isAlpha_dollar] at hf
      cases hf
    simp only [if_neg hb, hcheck]
    rfl
  · simp only [if_true, hcheck]
    rfl

/-- An engine name has a sigil of its own, which no user name begins with. -/
lemma parseEngine_ok {name : Bytes} {n : CellName} (h : parseEngine name = .ok n) : ¬ UserName name := by
  rintro ⟨first, rest, he, hf, -⟩
  have hfirst : ¬ (first = 0x23 ∨ first = 0x40) := by
    rintro (rfl | rfl) <;> cases hf
  rcases he with rfl | rfl
  · have hp : parseEngine (first :: rest) = .error (.invalidByte 0 first) := if_neg hfirst
    rw [hp] at h
    cases h
  · have hp : parseEngine (DOLLAR :: first :: rest) = .error (.invalidByte 0 DOLLAR) := rfl
    rw [hp] at h
    cases h

lemma isAlpha_lt {b : UInt8} (h : isAlpha b = true) : 0 < b ∧ b < 0x80 ∧ b ≠ 0x23 := by
  have hall : ∀ n : Fin 256, isAlpha (UInt8.ofNat n.val) = true →
      0 < UInt8.ofNat n.val ∧ UInt8.ofNat n.val < 0x80 ∧ UInt8.ofNat n.val ≠ 0x23 := by
    decide +kernel
  have := hall ⟨b.toNat, b.toNat_lt⟩
  simp only [UInt8.ofNat_toNat] at this
  exact this h

lemma isRest_lt {b : UInt8} (h : isRest b = true) : 0 < b ∧ b < 0x80 := by
  have hall : ∀ n : Fin 256, isRest (UInt8.ofNat n.val) = true →
      0 < UInt8.ofNat n.val ∧ UInt8.ofNat n.val < 0x80 := by
    decide +kernel
  have := hall ⟨b.toNat, b.toNat_lt⟩
  simp only [UInt8.ofNat_toNat] at this
  exact this h

namespace UserName

/-- User names are nonempty ASCII strings without NUL. -/
lemma ascii {name : Bytes} (h : UserName name) : ∀ b ∈ name, 0 < b ∧ b < 0x80 := by
  obtain ⟨first, rest, he, hf, hr⟩ := h
  have hd : (0 : UInt8) < DOLLAR ∧ DOLLAR < 0x80 := by decide
  have hfirst := isAlpha_lt hf
  intro b hb
  rcases he with rfl | rfl
  · rcases List.mem_cons.mp hb with rfl | hb
    · exact ⟨hfirst.1, hfirst.2.1⟩
    · exact isRest_lt (hr b hb)
  · rcases List.mem_cons.mp hb with rfl | hb
    · exact hd
    · rcases List.mem_cons.mp hb with rfl | hb
      · exact ⟨hfirst.1, hfirst.2.1⟩
      · exact isRest_lt (hr b hb)

/-- No user name begins with `#`. -/
lemma head_ne {name : Bytes} (h : UserName name) : name.head? ≠ some 0x23 := by
  obtain ⟨first, rest, he, hf, -⟩ := h
  have hfirst := (isAlpha_lt hf).2.2
  rcases he with rfl | rfl
  · simpa using hfirst
  · simp [DOLLAR]

/-- No user name begins with `@`. -/
lemma head_ne_at {name : Bytes} (h : UserName name) : name.head? ≠ some 0x40 := by
  obtain ⟨first, rest, he, hf, -⟩ := h
  rcases he with rfl | rfl
  · rintro ⟨⟩
    exact absurd hf (by decide)
  · simp [DOLLAR]

lemma ne_key {name : Bytes} (h : UserName name) : name ≠ Reserved.KEY := by
  rintro rfl
  exact h.head_ne (by decide)

end UserName

/-! ### Keys -/

/-- **A complete address in the Cell table.** -/
structure CellKey where
  recordId : U64
  name : CellName
deriving DecidableEq

namespace CellKey

/-- Keys are ordered by the record id, then by the name. -/
instance : LinearOrder CellKey :=
  LinearOrder.lift' (fun k => toLex (k.recordId, k.name)) fun a b h => by
    cases a
    cases b
    simpa using h

inductive CellKeyError where
  | missingRecordId (actual : ℕ)
deriving DecidableEq

def encode (k : CellKey) : Bytes := k.recordId.toBeBytes ++ k.name

/-- Decode a storage key; the name is taken raw. -/
def decode (bytes : Bytes) : Except CellKeyError CellKey :=
  match toArr? 8 (bytes.take 8) with
  | none => .error (.missingRecordId bytes.length)
  | some id => .ok ⟨U64.fromBeBytes id, bytes.drop 8⟩

@[simp] theorem decode_encode (k : CellKey) : decode k.encode = .ok k := by
  have htake : k.encode.take 8 = k.recordId.toBeBytes := List.take_left' k.recordId.toBeBytes_length
  have hdrop : k.encode.drop 8 = k.name := List.drop_left' k.recordId.toBeBytes_length
  unfold decode
  rw [htake, hdrop, toArr?_val (⟨k.recordId.toBeBytes, k.recordId.toBeBytes_length⟩ : Arr 8)]
  simp only [U64.fromBeBytes_toBeBytes]

theorem encode_of_decode {bytes : Bytes} {k : CellKey} (h : decode bytes = .ok k) :
    k.encode = bytes := by
  unfold decode at h
  cases ha : toArr? 8 (bytes.take 8) with
  | none => rw [ha] at h; cases h
  | some id =>
    rw [ha] at h
    cases h
    rw [encode, U64.toBeBytes_fromBeBytes, ← toArr?_eq_some.mp ha, List.take_append_drop]

lemma encode_inj {k k' : CellKey} (h : k.encode = k'.encode) : k = k' := by
  have hk := decode_encode k
  rw [h, decode_encode] at hk
  exact (Except.ok.inj hk).symm

lemma lt_iff {k k' : CellKey} :
    k < k' ↔ k.recordId < k'.recordId ∨ k.recordId = k'.recordId ∧ k.name < k'.name := by
  show toLex (k.recordId, k.name) < toLex (k'.recordId, k'.name) ↔ _
  rw [Prod.Lex.toLex_lt_toLex]

/-- The order of the keys is the order of their encodings. -/
theorem encode_lt_iff {k k' : CellKey} : k.encode < k'.encode ↔ k < k' := by
  unfold encode
  rw [append_lt_append_iff (by simp), U64.toBeBytes_lt_iff, lt_iff]
  constructor
  · rintro (h | ⟨h, h'⟩)
    · exact .inl h
    · exact .inr ⟨U64.toBeBytes_inj h, h'⟩
  · rintro (h | ⟨h, h'⟩)
    · exact .inl h
    · exact .inr ⟨by rw [h], h'⟩

/-- The keys of a record are those with its id as a prefix. -/
lemma prefix_encode_iff {id : U64} {k : CellKey} : id.toBeBytes <+: k.encode ↔ k.recordId = id := by
  constructor
  · rintro ⟨t, ht⟩
    exact (U64.toBeBytes_inj (List.append_inj ht (by simp)).1).symm
  · rintro rfl
    exact List.prefix_append _ _

/-- Strings without a whole record id are no keys, all others are. -/
lemma decode_short {bytes : Bytes} (h : bytes.length < 8) : decode bytes = .error (.missingRecordId bytes.length) := by
  unfold decode
  cases ha : toArr? 8 (bytes.take 8) with
  | none => rfl
  | some id =>
    have hlen := congrArg List.length (toArr?_eq_some.mp ha)
    rw [List.length_take, id.2] at hlen
    omega

lemma decode_long {bytes : Bytes} (h : 8 ≤ bytes.length) : ∃ k, decode bytes = .ok k := by
  have hlen : (bytes.take 8).length = 8 := by
    rw [List.length_take]
    omega
  have ha := toArr?_val (⟨bytes.take 8, hlen⟩ : Arr 8)
  unfold decode
  rw [ha]
  exact ⟨_, rfl⟩

/-- **Keys and their encodings**: the codec is exact, the encodings sort as the keys do, and those of a record
are the strings its id begins. -/
theorem key_codec :
    (∀ k, decode k.encode = .ok k) ∧
    (∀ bytes, 8 ≤ bytes.length → ∃ k, decode bytes = .ok k ∧ k.encode = bytes) ∧
    (∀ bytes, bytes.length < 8 → decode bytes = .error (.missingRecordId bytes.length)) ∧
    (∀ k k' : CellKey, k < k' ↔ k.recordId < k'.recordId ∨ k.recordId = k'.recordId ∧ k.name < k'.name) ∧
    (∀ k k' : CellKey, k < k' ↔ k.encode < k'.encode) ∧
    (∀ ks : List CellKey, ks.Pairwise (· < ·) ↔ (ks.map encode).Pairwise (· < ·)) ∧
    (∀ (id : U64) bytes, (∃ k : CellKey, k.recordId = id ∧ k.encode = bytes) ↔ id.toBeBytes <+: bytes) := by
  refine ⟨decode_encode, fun bytes h => ?_, fun bytes => decode_short, fun _ _ => lt_iff,
    fun _ _ => encode_lt_iff.symm, fun ks => ?_, fun id bytes => ⟨?_, ?_⟩⟩
  · obtain ⟨k, hk⟩ := decode_long h
    exact ⟨k, hk, encode_of_decode hk⟩
  · rw [List.pairwise_map]
    simp only [encode_lt_iff]
  · rintro ⟨k, hid, rfl⟩
    exact prefix_encode_iff.mpr hid
  · rintro ⟨name, rfl⟩
    exact ⟨⟨id, name⟩, rfl, rfl⟩

end CellKey

export CellKey (CellKeyError)

/-! ### Reserved records -/

namespace System

/-- User record ids begin here. -/
def FIRST_USER_RECORD_ID : U64 := 64

structure SystemRecord where
  id : U64
  key : Arr 32
deriving DecidableEq

/-- A reserved record: its name, filled up with zeros, is its key. -/
def record (id : U64) (name : String) : SystemRecord := ⟨id, takeArr 32 (ascii name)⟩

def PARAMS : SystemRecord := record 0 "#params"
def ALLOC : SystemRecord := record 1 "#alloc"
def ROOTS : SystemRecord := record 2 "#roots"
def RECORD_KEYS : SystemRecord := record 3 "#recordKeys"
def ROOT_INDEX : SystemRecord := record 4 "#rootIndex"
def METERING_MODEL : SystemRecord := record 32 "@meteringModel"
def MODEL_WEIGHT : SystemRecord := record 33 "@modelWeight"

def ALL : List SystemRecord :=
  [PARAMS, ALLOC, ROOTS, RECORD_KEYS, ROOT_INDEX, METERING_MODEL, MODEL_WEIGHT]

def byKey (key : Arr 32) : Option SystemRecord := ALL.find? fun record => record.key = key

end System

/-! ### Limits -/

/-- The deployment's admission limits, in bytes. -/
structure CellLimits where
  maxCellNameLen : U32
  maxStrLen : U32
  maxBytesLen : U32
deriving DecidableEq

structure CellLimitError where
  ty : CellType
  max : U32
  actual : ℕ
deriving DecidableEq

/-- The name of a limited type as `{:?}` prints it. -/
def CellLimitError.display (e : CellLimitError) : String :=
  (if e.ty = .str then "Str" else "Bytes") ++ " value is " ++ toString e.actual
    ++ " bytes, the configured maximum is " ++ toString e.max.val

namespace CellLimits

def parseUserName (limits : CellLimits) (name : Bytes) : Except CellNameError CellName :=
  parseUser name limits.maxCellNameLen.val

/-- The size policy; fixed-width types have no limit. -/
def validateValue (limits : CellLimits) (cell : CellValue) : Except CellLimitError Unit :=
  match cell.ty with
  | .str =>
    if limits.maxStrLen.val < cell.value.length then .error ⟨cell.ty, limits.maxStrLen, cell.value.length⟩
    else .ok ()
  | .bytes =>
    if limits.maxBytesLen.val < cell.value.length then
      .error ⟨cell.ty, limits.maxBytesLen, cell.value.length⟩
    else .ok ()
  | _ => .ok ()

end CellLimits

end GolemDb.Cells
