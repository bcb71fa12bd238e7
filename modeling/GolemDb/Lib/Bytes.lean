import Mathlib.Tactic
import Mathlib.Data.List.Lex
import Mathlib.Data.List.Sort
import Mathlib.Data.List.SplitBy
import Mathlib.Data.List.FinRange
import Mathlib.Data.Finset.Sort

/-!
Byte strings: the bytewise order, arrays of a fixed width, and the big-endian code of a number.

The order on `Bytes` is the lexicographic order of `List`, so `a < b` compares the first byte at
which the two strings differ, and a proper initial segment comes first. On strings of one length
it is the order of the numbers the strings code (`ofBe_lt_iff`).
-/

namespace GolemDb.Lib

/-! ### The order on bytes -/

instance byteLinearOrder : LinearOrder UInt8 where
  le_refl := UInt8.le_refl
  le_trans _ _ _ := UInt8.le_trans
  le_antisymm _ _ := UInt8.le_antisymm
  le_total := UInt8.le_total
  lt_iff_le_not_ge a b := by simp [UInt8.lt_iff_toNat_lt, UInt8.le_iff_toNat_le]; omega
  toDecidableLE := inferInstance
  toDecidableEq := inferInstance
  toDecidableLT := inferInstance

/-- A byte string, `Vec<u8>` or `&[u8]`. -/
abbrev Bytes := List UInt8

/-- An array of `n` bytes, `[u8; n]`. -/
abbrev Arr (n : ℕ) := {l : Bytes // l.length = n}

lemma Arr.lt_iff {n : ℕ} (a b : Arr n) : a < b ↔ a.1 < b.1 := Iff.rfl

/-- The first `n` bytes of `l`, filled up with zeros: `try_into().unwrap()` on a slice whose
length is known to be `n`. -/
def takeArr (n : ℕ) (l : Bytes) : Arr n :=
  ⟨(l ++ List.replicate n 0).take n, by simp⟩

lemma takeArr_val {n : ℕ} {l : Bytes} (h : n ≤ l.length) : (takeArr n l).1 = l.take n := by
  show (l ++ List.replicate n 0).take n = l.take n
  rw [List.take_append_of_le_length h]

lemma takeArr_self {n : ℕ} (a : Arr n) (rest : Bytes) : takeArr n (a.1 ++ rest) = a := by
  apply Subtype.ext
  rw [takeArr_val (by simp [a.2]), List.take_left' a.2]

/-- The bytes of `l` as an array of exactly `n` bytes, `try_into()`. -/
def toArr? (n : ℕ) (l : Bytes) : Option (Arr n) :=
  if h : l.length = n then some ⟨l, h⟩ else none

@[simp] lemma toArr?_val {n : ℕ} (a : Arr n) : toArr? n a.1 = some a := dif_pos a.2

lemma toArr?_eq_some {n : ℕ} {l : Bytes} {a : Arr n} : toArr? n l = some a ↔ l = a.1 := by
  constructor
  · intro h
    unfold toArr? at h
    split at h
    · simpa using congrArg Subtype.val (Option.some.inj h)
    · cases h
  · rintro rfl
    exact toArr?_val a

/-! ### Big-endian numbers -/

/-- The `w` low bytes of `n`, the most significant first: `to_be_bytes`. -/
def beBytes : (w n : ℕ) → Bytes
  | 0, _ => []
  | w + 1, n => UInt8.ofNat (n / 256 ^ w) :: beBytes w n

/-- The number a byte string codes, the most significant byte first: `from_be_bytes`. -/
def ofBe : Bytes → ℕ
  | [] => 0
  | b :: l => b.toNat * 256 ^ l.length + ofBe l

@[simp] lemma beBytes_length (w n : ℕ) : (beBytes w n).length = w := by
  induction w with
  | zero => rfl
  | succ w ih => simp [beBytes, ih]

lemma ofBe_lt (l : Bytes) : ofBe l < 256 ^ l.length := by
  induction l with
  | nil => simp [ofBe]
  | cons b l ih =>
    have hb : b.toNat < 256 := b.toNat_lt
    have hpos : 0 < 256 ^ l.length := Nat.pos_of_ne_zero (by positivity)
    rw [ofBe, List.length_cons, pow_succ]
    nlinarith

lemma ofBe_beBytes_mod (w n : ℕ) : ofBe (beBytes w n) = n % 256 ^ w := by
  induction w with
  | zero => simp [beBytes, ofBe, Nat.mod_one]
  | succ w ih =>
    have h : n % 256 ^ (w + 1) = n % 256 ^ w + 256 ^ w * (n / 256 ^ w % 256) := by
      rw [pow_succ, Nat.mod_mul]
    simp only [beBytes, ofBe, beBytes_length, ih, h]
    rw [show (UInt8.ofNat (n / 256 ^ w)).toNat = n / 256 ^ w % 256 by simp]
    ring

lemma ofBe_beBytes {w n : ℕ} (h : n < 256 ^ w) : ofBe (beBytes w n) = n := by
  rw [ofBe_beBytes_mod, Nat.mod_eq_of_lt h]

lemma beBytes_inj {w a b : ℕ} (ha : a < 256 ^ w) (hb : b < 256 ^ w)
    (h : beBytes w a = beBytes w b) : a = b := by
  rw [← ofBe_beBytes ha, ← ofBe_beBytes hb, h]

/-- On strings of one length the bytewise order is the order of the coded numbers. -/
theorem ofBe_lt_iff {a b : Bytes} (h : a.length = b.length) : a < b ↔ ofBe a < ofBe b := by
  induction a generalizing b with
  | nil =>
    obtain rfl : b = [] := List.length_eq_zero_iff.mp h.symm
    simp [ofBe]
  | cons x a ih =>
    obtain ⟨y, b, rfl⟩ : ∃ y b', b = y :: b' := by
      cases b with
      | nil => simp at h
      | cons y b => exact ⟨y, b, rfl⟩
    simp only [List.length_cons, Nat.add_right_cancel_iff] at h
    have ha := ofBe_lt a
    have hb := ofBe_lt b
    rw [List.cons_lt_cons_iff, ih h]
    simp only [ofBe, h, UInt8.lt_iff_toNat_lt, ← UInt8.toNat_inj] at ha ⊢
    constructor
    · rintro (hlt | ⟨heq, hlt⟩)
      · nlinarith
      · rw [heq]; omega
    · intro hlt
      rcases Nat.lt_trichotomy x.toNat y.toNat with hxy | hxy | hxy
      · exact Or.inl hxy
      · rw [hxy] at hlt
        exact Or.inr ⟨hxy, by omega⟩
      · nlinarith

lemma ofBe_inj {a b : Bytes} (h : a.length = b.length) (he : ofBe a = ofBe b) : a = b := by
  rcases lt_trichotomy a b with hlt | heq | hlt
  · exact absurd ((ofBe_lt_iff h).mp hlt) (by omega)
  · exact heq
  · exact absurd ((ofBe_lt_iff h.symm).mp hlt) (by omega)

lemma beBytes_ofBe (l : Bytes) : beBytes l.length (ofBe l) = l :=
  ofBe_inj (by simp) (ofBe_beBytes (ofBe_lt l))

lemma beBytes_lt_iff {w a b : ℕ} (ha : a < 256 ^ w) (hb : b < 256 ^ w) :
    beBytes w a < beBytes w b ↔ a < b := by
  rw [ofBe_lt_iff (by simp), ofBe_beBytes ha, ofBe_beBytes hb]

/-- A 64-bit machine word, `u64`. -/
abbrev U64 := Fin (2 ^ 64)

instance neZeroU64 : NeZero (2 ^ 64) := ⟨by decide⟩

/-- `to_be_bytes` of a 64-bit word. -/
def U64.toBeBytes (n : U64) : Bytes := beBytes 8 n.val

/-- `from_be_bytes` of eight bytes. -/
def U64.fromBeBytes (a : Arr 8) : U64 := ⟨ofBe a.1, by
  have h := ofBe_lt a.1
  rw [a.2] at h
  exact lt_of_lt_of_eq h (by norm_num)⟩

lemma U64.lt_pow (n : U64) : n.val < 256 ^ 8 := lt_of_lt_of_eq n.isLt (by norm_num)

@[simp] lemma U64.toBeBytes_length (n : U64) : n.toBeBytes.length = 8 := beBytes_length 8 n.val

lemma U64.toBeBytes_inj {a b : U64} (h : a.toBeBytes = b.toBeBytes) : a = b :=
  Fin.ext (beBytes_inj a.lt_pow b.lt_pow h)

lemma U64.toBeBytes_lt_iff {a b : U64} : a.toBeBytes < b.toBeBytes ↔ a < b :=
  beBytes_lt_iff a.lt_pow b.lt_pow

lemma U64.fromBeBytes_toBeBytes (n : U64) :
    U64.fromBeBytes ⟨n.toBeBytes, n.toBeBytes_length⟩ = n :=
  Fin.ext (ofBe_beBytes n.lt_pow)

lemma U64.toBeBytes_fromBeBytes (a : Arr 8) : (U64.fromBeBytes a).toBeBytes = a.1 := by
  have h := beBytes_ofBe a.1
  rwa [a.2] at h

/-- A 32-bit machine word, `u32`. -/
abbrev U32 := Fin (2 ^ 32)

instance neZeroU32 : NeZero (2 ^ 32) := ⟨by decide⟩

/-- `to_be_bytes` of a 32-bit word. -/
def U32.toBeBytes (n : U32) : Bytes := beBytes 4 n.val

/-- `from_be_bytes` of four bytes. -/
def U32.fromBeBytes (a : Arr 4) : U32 := ⟨ofBe a.1, by
  have := ofBe_lt a.1
  rw [a.2] at this
  exact lt_of_lt_of_eq this (by norm_num)⟩

@[simp] lemma U32.toBeBytes_length (n : U32) : n.toBeBytes.length = 4 := beBytes_length 4 n.val

lemma U32.fromBeBytes_toBeBytes (n : U32) :
    U32.fromBeBytes ⟨n.toBeBytes, n.toBeBytes_length⟩ = n :=
  Fin.ext (ofBe_beBytes (lt_of_lt_of_eq n.isLt (by norm_num)))

/-! ### Order and concatenation -/

lemma append_lt_append_left_iff (p a b : Bytes) : p ++ a < p ++ b ↔ a < b := by
  induction p with
  | nil => rfl
  | cons x p ih => simp [ih]

/-- Two strings that begin with strings of one length are compared there first. -/
lemma append_lt_append_iff {p q : Bytes} (h : p.length = q.length) (a b : Bytes) :
    p ++ a < q ++ b ↔ p < q ∨ p = q ∧ a < b := by
  induction p generalizing q with
  | nil =>
    obtain rfl : q = [] := List.length_eq_zero_iff.mp h.symm
    simp
  | cons x p ih =>
    obtain ⟨y, q, rfl⟩ : ∃ y q', q = y :: q' := by
      cases q with
      | nil => simp at h
      | cons y q => exact ⟨y, q, rfl⟩
    simp only [List.length_cons, Nat.add_right_cancel_iff] at h
    simp only [List.cons_append, List.cons_lt_cons_iff, ih h, List.cons.injEq]
    constructor
    · rintro (h1 | ⟨h1, h2 | ⟨h2, h3⟩⟩)
      · exact Or.inl (Or.inl h1)
      · exact Or.inl (Or.inr ⟨h1, h2⟩)
      · exact Or.inr ⟨⟨h1, h2⟩, h3⟩
    · rintro ((h1 | ⟨h1, h2⟩) | ⟨⟨h1, h2⟩, h3⟩)
      · exact Or.inl h1
      · exact Or.inr ⟨h1, Or.inl h2⟩
      · exact Or.inr ⟨h1, Or.inr ⟨h2, h3⟩⟩

lemma le_append (p t : Bytes) : p ≤ p ++ t := by
  have h := append_lt_append_left_iff p t []
  rw [List.append_nil] at h
  exact not_lt.mp fun hlt => List.not_lt_nil t (h.mp hlt)

lemma cons_le_cons {x y : UInt8} {a b : Bytes} : x :: a ≤ y :: b ↔ x < y ∨ x = y ∧ a ≤ b := by
  rw [← not_lt, List.cons_lt_cons_iff, ← not_lt (a := b)]
  constructor
  · intro h
    rcases lt_trichotomy x y with hlt | heq | hgt
    · exact .inl hlt
    · exact .inr ⟨heq, fun hba => h (.inr ⟨heq.symm, hba⟩)⟩
    · exact absurd (.inl hgt) h
  · rintro (hlt | ⟨rfl, hab⟩) (h | ⟨h, hba⟩)
    · exact lt_asymm hlt h
    · exact (ne_of_lt hlt) h.symm
    · exact lt_irrefl _ h
    · exact hab hba

/-! ### Prefix ranges -/

lemma prefix_le {p k : Bytes} (h : p <+: k) : p ≤ k := by
  obtain ⟨t, rfl⟩ := h
  exact le_append p t

/-- The strings between two strings with a common prefix have the prefix. -/
lemma prefix_of_between {p a b k : Bytes} (ha : p <+: a) (hb : p <+: b) (h1 : a ≤ k) (h2 : k ≤ b) :
    p <+: k := by
  induction p generalizing a b k with
  | nil => exact List.nil_prefix
  | cons x p ih =>
    obtain ⟨a', rfl⟩ := ha
    obtain ⟨b', rfl⟩ := hb
    cases k with
    | nil => exact absurd h1 (not_le.mpr (List.nil_lt_cons _ _))
    | cons y k =>
      rw [List.cons_append, cons_le_cons] at h1 h2
      have hxy : x = y := by
        rcases h1 with h1 | ⟨h1, -⟩
        · rcases h2 with h2 | ⟨h2, -⟩
          · exact absurd (lt_trans h1 h2) (lt_irrefl _)
          · exact h2.symm
        · exact h1
      subst hxy
      have h1' : p ++ a' ≤ k := by simpa using h1
      have h2' : k ≤ p ++ b' := by simpa using h2
      exact List.cons_prefix_cons.mpr ⟨rfl, ih (List.prefix_append _ _) (List.prefix_append _ _) h1' h2'⟩

/-- The least string above every string with the prefix: drop the `ff`s at the end and increment
the last byte; none when every byte is `ff`. -/
def afterPrefix (p : Bytes) : Option Bytes :=
  match p.reverse.dropWhile (· = 0xff) with
  | [] => none
  | b :: rest => some ((b + 1) :: rest).reverse

lemma byte_lt_succ {b c : UInt8} (hb : b ≠ 0xff) : c < b + 1 ↔ c ≤ b := by
  have hb' : b.toNat ≠ 255 := fun h => hb (UInt8.toNat_inj.mp (by simpa using h))
  have := b.toNat_lt
  have h1 : (b + 1).toNat = b.toNat + 1 := by
    rw [UInt8.toNat_add]
    simp only [UInt8.reduceToNat]
    omega
  rw [UInt8.lt_iff_toNat_lt, UInt8.le_iff_toNat_le, h1]
  omega

lemma byte_le_max (c : UInt8) : c ≤ 0xff := by
  have := c.toNat_lt
  rw [UInt8.le_iff_toNat_le]
  simp only [UInt8.reduceToNat]
  omega

lemma afterPrefix_cons (x : UInt8) (p : Bytes) :
    afterPrefix (x :: p) = match afterPrefix p with
      | some s => some (x :: s)
      | none => if x = 0xff then none else some [x + 1] := by
  unfold afterPrefix
  rw [List.reverse_cons, List.dropWhile_append]
  cases h : p.reverse.dropWhile (· = 0xff) with
  | nil =>
    by_cases hx : x = 0xff
    · simp [hx]
    · simp [hx]
  | cons b rest => simp

/-- **The strings with a prefix are a range.** -/
theorem prefix_iff_range {p k : Bytes} :
    p <+: k ↔ p ≤ k ∧ ∀ s, afterPrefix p = some s → k < s := by
  induction p generalizing k with
  | nil => simp [afterPrefix, not_lt.mp (List.not_lt_nil k)]
  | cons x p ih =>
    cases k with
    | nil => simp [not_le.mpr (List.nil_lt_cons x p)]
    | cons y k =>
      rw [List.cons_prefix_cons, cons_le_cons, afterPrefix_cons, ih]
      cases hs : afterPrefix p with
      | some s =>
        simp only [Option.some.injEq, forall_eq', List.cons_lt_cons_iff]
        constructor
        · rintro ⟨rfl, h1, h2⟩
          exact ⟨.inr ⟨rfl, h1⟩, .inr ⟨rfl, h2⟩⟩
        · rintro ⟨h1 | ⟨rfl, h1⟩, h2 | ⟨h2, h3⟩⟩
          · exact absurd (lt_trans h1 h2) (lt_irrefl _)
          · exact absurd h1 (by rw [h2]; exact lt_irrefl _)
          · exact absurd h2 (lt_irrefl _)
          · exact ⟨rfl, h1, h3⟩
      | none =>
        simp only [reduceCtorEq, false_imp_iff, implies_true, and_true]
        by_cases hx : x = 0xff
        · have hy : ¬ x < y := by rw [hx]; exact not_lt.mpr (byte_le_max y)
          simp only [if_pos hx, reduceCtorEq, false_imp_iff, implies_true, and_true, hy, false_or]
        · simp only [hx, if_false, Option.some.injEq, forall_eq', List.cons_lt_cons_iff,
            byte_lt_succ hx]
          constructor
          · rintro ⟨rfl, h1⟩
            exact ⟨.inr ⟨rfl, h1⟩, .inl le_rfl⟩
          · rintro ⟨h1 | h1, h2 | ⟨-, h2⟩⟩
            · exact absurd h1 (not_lt.mpr h2)
            · simp at h2
            · exact h1
            · simp at h2

/-- The string filled up with zeros to eight bytes. -/
def padded (p : Bytes) : Bytes := p ++ List.replicate (8 - p.length) 0

lemma zeros_le {n : ℕ} {k : Bytes} (h : n ≤ k.length) : List.replicate n 0 ≤ k := by
  induction n generalizing k with
  | zero => exact not_lt.mp (List.not_lt_nil k)
  | succ n ih =>
    cases k with
    | nil => simp at h
    | cons y k =>
      rw [List.replicate_succ, cons_le_cons]
      have hy : (0 : UInt8) ≤ y := by simp [UInt8.le_iff_toNat_le]
      rcases lt_or_eq_of_le hy with hlt | heq
      · exact .inl hlt
      · exact .inr ⟨heq, ih (by simpa using h)⟩

/-- Zeros at the end do not move a bound past a long string. -/
lemma append_zeros_le_iff {p k : Bytes} {n : ℕ} (h : p.length + n ≤ k.length) :
    p ++ List.replicate n 0 ≤ k ↔ p ≤ k := by
  induction p generalizing k with
  | nil => exact iff_of_true (zeros_le (by simpa using h)) (not_lt.mp (List.not_lt_nil k))
  | cons x p ih =>
    cases k with
    | nil => simp at h
    | cons y k =>
      have h' : p.length + n ≤ k.length := by simp only [List.length_cons] at h; omega
      rw [List.cons_append, cons_le_cons, cons_le_cons, ih h']

lemma padded_le_iff {p k : Bytes} (h : 8 ≤ k.length) : padded p ≤ k ↔ p ≤ k := by
  by_cases hp : p.length ≤ 8
  · exact append_zeros_le_iff (by omega)
  · rw [padded, Nat.sub_eq_zero_of_le (by omega), List.replicate_zero, List.append_nil]

lemma padded_length (p : Bytes) : 8 ≤ (padded p).length := by
  simp only [padded, List.length_append, List.length_replicate]
  omega

end GolemDb.Lib
