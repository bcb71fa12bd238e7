import GolemDb.Cells.Types

/-!
The stored forms of numbers sort as the numbers do. A big-endian string reads as an unsigned
number, in two's complement, or as a sign and a magnitude; flipping the sign bit shifts the second
reading to the first by half the range, and `encodeFloat` is strictly increasing in the third.
-/

namespace GolemDb.Cells

open GolemDb.Lib

/-! ### Readings of a big-endian string -/

/-- Half the range of `n` bytes: the weight of the sign bit. -/
def half (n : ℕ) : ℕ := 256 ^ n / 2

/-- The two's complement number of a big-endian string, `from_be_bytes` of a signed type. -/
def signedOfBe (l : Bytes) : ℤ := if ofBe l < half l.length then ofBe l else ofBe l - 256 ^ l.length

/-- The magnitude of a bit pattern, with its sign: both zeros are zero. -/
def magnitudeOfBe (l : Bytes) : ℤ :=
  if ofBe l < half l.length then ofBe l else -((ofBe l : ℤ) - half l.length)

lemma half_succ (n : ℕ) : half (n + 1) = 128 * 256 ^ n := by
  rw [half, pow_succ]
  omega

lemma pow_eq_half (n : ℕ) : 256 ^ (n + 1) = 2 * half (n + 1) := by
  rw [half_succ, pow_succ]
  ring

/-- The sign bit is the top bit of the first byte. -/
lemma ofBe_cons_lt_half {b : UInt8} {l : Bytes} : ofBe (b :: l) < half (b :: l).length ↔ b.toNat < 128 := by
  have hl := ofBe_lt l
  rw [List.length_cons, half_succ, ofBe]
  constructor
  · intro h
    by_contra hb
    have hmul : 128 * 256 ^ l.length ≤ b.toNat * 256 ^ l.length := Nat.mul_le_mul_right _ (by omega)
    omega
  · intro hb
    have hmul : (b.toNat + 1) * 256 ^ l.length ≤ 128 * 256 ^ l.length := Nat.mul_le_mul_right _ (by omega)
    rw [Nat.add_mul, one_mul] at hmul
    omega

/-! ### Bytes -/

/-- A fact about bytes is a fact about the numbers below 256. -/
lemma forall_byte {P : UInt8 → Prop} (h : ∀ n : Fin 256, P (UInt8.ofNat n.val)) (b : UInt8) : P b := by
  have hb := h ⟨b.toNat, b.toNat_lt⟩
  rwa [UInt8.ofNat_toNat] at hb

lemma toNat_flip : ∀ b : UInt8, (b ^^^ 0x80).toNat = if b.toNat < 128 then b.toNat + 128 else b.toNat - 128 :=
  forall_byte (by decide +kernel)

lemma and_sign_eq_zero : ∀ {b : UInt8}, b &&& 0x80 = 0 ↔ b.toNat < 128 :=
  fun {b} => forall_byte (P := fun b => b &&& 0x80 = 0 ↔ b.toNat < 128) (by decide +kernel) b

lemma toNat_not : ∀ b : UInt8, (~~~b).toNat = 255 - b.toNat := forall_byte (by decide +kernel)

lemma not_not_byte (b : UInt8) : ~~~(~~~b) = b := by
  refine UInt8.toNat_inj.mp ?_
  have hb := b.toNat_lt
  rw [toNat_not, toNat_not]
  omega

/-! ### Flipping the sign bit -/

@[simp] lemma flipSign_length (l : Bytes) : (flipSign l).length = l.length := by cases l <;> rfl

lemma flipSign_flipSign (l : Bytes) : flipSign (flipSign l) = l := by
  cases l with
  | nil => rfl
  | cons b l => simp only [flipSign, UInt8.xor_assoc, UInt8.xor_self, UInt8.xor_zero]

/-- **Flipping the sign bit shifts two's complement by half the range.** -/
theorem ofBe_flipSign {l : Bytes} (h : l ≠ []) : (ofBe (flipSign l) : ℤ) = signedOfBe l + half l.length := by
  cases l with
  | nil => exact absurd rfl h
  | cons b l =>
    have hhalf := half_succ l.length
    have hpow := pow_eq_half l.length
    have hflip := toNat_flip b
    unfold signedOfBe
    by_cases hb : b.toNat < 128
    · rw [if_pos (ofBe_cons_lt_half.mpr hb), flipSign, ofBe, ofBe, hflip, if_pos hb, Nat.add_mul, List.length_cons]
      omega
    · have hge : 128 * 256 ^ l.length ≤ b.toNat * 256 ^ l.length := Nat.mul_le_mul_right _ (by omega)
      rw [if_neg fun hlt => hb (ofBe_cons_lt_half.mp hlt), flipSign, ofBe, ofBe, hflip, if_neg hb, Nat.sub_mul,
        List.length_cons]
      push_cast [Nat.cast_sub hge]
      have hpow' : ((256 : ℤ) ^ (l.length + 1)) = 2 * half (l.length + 1) := by exact_mod_cast hpow
      have hhalf' : (half (l.length + 1) : ℤ) = 128 * 256 ^ l.length := by exact_mod_cast hhalf
      rw [hpow', hhalf']
      ring

/-- The stored forms of signed numbers sort as the numbers do. -/
lemma flipSign_lt_iff {a b : Bytes} (ha : a ≠ []) (hlen : a.length = b.length) :
    flipSign a < flipSign b ↔ signedOfBe a < signedOfBe b := by
  have hb : b ≠ [] := fun hb => ha (List.length_eq_zero_iff.mp (by rw [hlen, hb]; rfl))
  have h1 := ofBe_flipSign ha
  have h2 := ofBe_flipSign hb
  rw [ofBe_lt_iff (by simpa using hlen), ← Int.ofNat_lt, h1, h2, hlen]
  omega

/-! ### Floats -/

lemma ofBe_replicate_zero (n : ℕ) : ofBe (List.replicate n 0) = 0 := by
  induction n with
  | zero => rfl
  | succ n ih =>
    rw [List.replicate_succ, ofBe, ih]
    simp

lemma ofBe_eq_zero {l : Bytes} : ofBe l = 0 ↔ l.all (· = 0) = true := by
  induction l with
  | nil => simp [ofBe]
  | cons b l ih =>
    have hpos : 0 < 256 ^ l.length := Nat.pow_pos (by norm_num)
    rw [ofBe, List.all_cons, Bool.and_eq_true, ← ih, Nat.add_eq_zero_iff, Nat.mul_eq_zero, decide_eq_true_eq]
    constructor
    · rintro ⟨hb | hb, hl⟩
      · exact ⟨UInt8.toNat_inj.mp hb, hl⟩
      · omega
    · rintro ⟨rfl, hl⟩
      exact ⟨.inl rfl, hl⟩

/-- Every bit flipped: the complement to the largest number. -/
lemma ofBe_map_not (l : Bytes) : ofBe (l.map (~~~ ·)) + ofBe l + 1 = 256 ^ l.length := by
  induction l with
  | nil => rfl
  | cons b l ih =>
    have hb := b.toNat_lt
    have hsum : (255 - b.toNat) * 256 ^ l.length + b.toNat * 256 ^ l.length = 255 * 256 ^ l.length := by
      rw [← Nat.add_mul]
      congr 1
      omega
    rw [List.map_cons, ofBe, ofBe, toNat_not, List.length_map, List.length_cons, pow_succ]
    omega

/-- The sign bit alone is the bit pattern of negative zero. -/
lemma ofBe_eq_half_iff {b : UInt8} {l : Bytes} :
    ofBe (b :: l) = half (b :: l).length ↔ b = 0x80 ∧ l.all (· = 0) = true := by
  have hzero : ofBe (0x80 :: List.replicate l.length 0) = half (b :: l).length := by
    rw [ofBe, ofBe_replicate_zero, List.length_replicate, List.length_cons, half_succ]
    rfl
  constructor
  · intro h
    obtain ⟨rfl, hl⟩ := List.cons.inj (ofBe_inj (by simp) (h.trans hzero.symm))
    refine ⟨rfl, ofBe_eq_zero.mp ?_⟩
    rw [hl, ofBe_replicate_zero]
  · rintro ⟨rfl, hl⟩
    rw [ofBe, ofBe_eq_zero.mpr hl, List.length_cons, half_succ]
    rfl

lemma encodeFloat_length (l : Bytes) : (encodeFloat l).length = l.length := by
  unfold encodeFloat
  split
  · rfl
  · split_ifs <;> simp

/-- The stored form of a float, by the sign of its magnitude. -/
lemma ofBe_encodeFloat {l : Bytes} (h : l ≠ []) : (ofBe (encodeFloat l) : ℤ) =
    half l.length + magnitudeOfBe l - if magnitudeOfBe l < 0 then 1 else 0 := by
  cases l with
  | nil => exact absurd rfl h
  | cons b l =>
    have hhalf := half_succ l.length
    have hpow := pow_eq_half l.length
    unfold encodeFloat
    simp only
    by_cases hz : b = 0x80 ∧ l.all (· = 0)
    · obtain ⟨rfl, hz⟩ := hz
      have hbe := ofBe_eq_half_iff.mpr ⟨rfl, hz⟩
      have hmag : magnitudeOfBe (0x80 :: l) = 0 := by
        rw [magnitudeOfBe, hbe, if_neg (lt_irrefl _)]
        ring
      have hzero : signedOfBe (List.replicate (l.length + 1) 0) = 0 := by
        rw [signedOfBe, ofBe_replicate_zero, List.length_replicate, if_pos (by rw [hhalf]; positivity)]
        rfl
      rw [if_pos ⟨rfl, hz⟩, hmag, List.length_cons, ofBe_flipSign (by simp), List.length_replicate, hzero]
      simp
    rw [if_neg hz]
    by_cases hs : b &&& 0x80 = 0
    · have hlt : ofBe (b :: l) < half (b :: l).length := ofBe_cons_lt_half.mpr (and_sign_eq_zero.mp hs)
      rw [if_pos hs, ofBe_flipSign (by simp), signedOfBe, magnitudeOfBe, if_pos hlt, if_pos hlt, if_neg (by omega)]
      ring
    · have hge : ¬ ofBe (b :: l) < half (b :: l).length := fun hlt =>
        hs (and_sign_eq_zero.mpr (ofBe_cons_lt_half.mp hlt))
      have hnot := ofBe_map_not (b :: l)
      have hne : ofBe (b :: l) ≠ half (b :: l).length := fun he => hz (ofBe_eq_half_iff.mp he)
      rw [List.length_cons] at hge hne hnot ⊢
      rw [if_neg hs, magnitudeOfBe, List.length_cons, if_neg hge, if_pos (by omega)]
      omega

/-- A stored float decodes to its bit pattern, negative zero to zero. -/
lemma decodeFloat_encodeFloat (b : UInt8) (l : Bytes) : decodeFloat (encodeFloat (b :: l)) =
    if b = 0x80 ∧ l.all (· = 0) then List.replicate (l.length + 1) 0 else b :: l := by
  have hflip : ∀ (c : UInt8) (m : Bytes), c.toNat < 128 → decodeFloat (flipSign (c :: m)) = c :: m := by
    intro c m hc
    have hset : ¬ (c ^^^ 0x80) &&& 0x80 = 0 := by
      rw [and_sign_eq_zero, toNat_flip, if_pos hc]
      omega
    rw [flipSign, decodeFloat, if_pos hset, ← flipSign, flipSign_flipSign]
  unfold encodeFloat
  simp only
  by_cases hz : b = 0x80 ∧ l.all (· = 0)
  · rw [if_pos hz, if_pos hz, List.length_cons, List.replicate_succ, hflip 0 _ (by decide)]
  rw [if_neg hz, if_neg hz]
  by_cases hs : b &&& 0x80 = 0
  · rw [if_pos hs, hflip b l (and_sign_eq_zero.mp hs)]
  · have hclear : (~~~b) &&& 0x80 = 0 := by
      have hb := b.toNat_lt
      rw [and_sign_eq_zero] at hs ⊢
      rw [toNat_not]
      omega
    rw [if_neg hs, List.map_cons, decodeFloat, if_neg (not_not.mpr hclear), List.map_cons, not_not_byte, List.map_map]
    congr 1
    exact (List.map_congr_left fun c _ => not_not_byte c).trans (List.map_id _)

/-- A bit pattern other than negative zero is stored back. -/
lemma encodeFloat_decodeFloat {b : UInt8} {l : Bytes}
    (h : ofBe (decodeFloat (b :: l)) ≠ half (b :: l).length) : encodeFloat (decodeFloat (b :: l)) = b :: l := by
  rw [decodeFloat] at h ⊢
  by_cases hs : b &&& 0x80 = 0
  · have hset : ¬ (~~~b) &&& 0x80 = 0 := by
      rw [and_sign_eq_zero] at hs ⊢
      rw [toNat_not]
      omega
    rw [if_neg (not_not.mpr hs), List.map_cons] at h ⊢
    have hz : ¬ (~~~b = 0x80 ∧ (l.map (~~~ ·)).all (· = 0) = true) := fun hz => h (by
      rw [ofBe_eq_half_iff.mpr hz, List.length_cons, List.length_map, List.length_cons])
    rw [encodeFloat, if_neg hz, if_neg hset, List.map_cons, not_not_byte, List.map_map]
    congr 1
    exact (List.map_congr_left fun c _ => not_not_byte c).trans (List.map_id _)
  · have hclear : (b ^^^ 0x80) &&& 0x80 = 0 := by
      have hb := b.toNat_lt
      rw [and_sign_eq_zero] at hs ⊢
      rw [toNat_flip, if_neg hs]
      omega
    have hz : ¬ (b ^^^ 0x80 = 0x80 ∧ l.all (· = 0) = true) := by
      rintro ⟨hb, -⟩
      rw [hb] at hclear
      cases hclear
    rw [if_pos hs, flipSign, encodeFloat, if_neg hz, if_pos hclear, ← flipSign, flipSign_flipSign]

/-- **The stored forms of floats sort as their magnitudes do**, the two zeros being one. -/
theorem encodeFloat_lt_iff {a b : Bytes} (ha : a ≠ []) (hlen : a.length = b.length) :
    encodeFloat a < encodeFloat b ↔ magnitudeOfBe a < magnitudeOfBe b := by
  have hb : b ≠ [] := fun hb => ha (List.length_eq_zero_iff.mp (by rw [hlen, hb]; rfl))
  have h1 := ofBe_encodeFloat ha
  have h2 := ofBe_encodeFloat hb
  rw [ofBe_lt_iff (by rw [encodeFloat_length, encodeFloat_length, hlen]), ← Int.ofNat_lt, h1, h2, hlen]
  split_ifs <;> omega

end GolemDb.Cells
