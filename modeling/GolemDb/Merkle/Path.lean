import GolemDb.Lib.Bytes
import GolemDb.Lib.RadixList

/-!
Paths as nibbles: the nibbles of a byte path, high nibble first, the packing of a nibble prefix
into bytes, and how far a path follows a prefix. Nibble order is byte order (`nibbles_lt_iff`).
-/

namespace GolemDb.Merkle

open GolemDb.Lib

abbrev Nibble := Fin 16

instance neZeroNibble : NeZero 16 := ⟨by decide⟩

/-- Nibble `depth` of a path, high nibble first; none past its end. -/
def nibble (path : Bytes) (depth : ℕ) : Option Nibble :=
  path[depth / 2]?.map fun b => Fin.ofNat 16 (b.toNat >>> (4 * (1 - depth % 2)))

/-- The nibble at a depth the path has. -/
def nibbleAt (path : Bytes) (depth : ℕ) : Nibble := (nibble path depth).getD 0

/-- How many leading nibbles of the list `path` repeats from nibble `depth` onwards. -/
def matched : List Nibble → Bytes → ℕ → ℕ
  | [], _, _ => 0
  | n :: ns, path, depth => if nibble path depth = some n then matched ns path (depth + 1) + 1 else 0

def nibbles (path : Bytes) : List Nibble := (List.range (path.length * 2)).filterMap (nibble path)

/-- Two nibbles a byte, high nibble first; an odd end is padded with zero. -/
def pack : List Nibble → Bytes
  | [] => []
  | [a] => [UInt8.ofNat (a.val * 16)]
  | a :: b :: rest => UInt8.ofNat (a.val * 16 + b.val) :: pack rest

/-! ### Nibbles of a path -/

section Nibbles

def hiNibble (b : UInt8) : Nibble := Fin.ofNat 16 (b.toNat / 16)
def loNibble (b : UInt8) : Nibble := Fin.ofNat 16 b.toNat

lemma nibble_cons_zero (b : UInt8) (bs : Bytes) : nibble (b :: bs) 0 = some (hiNibble b) := by
  simp [nibble, hiNibble, Nat.shiftRight_eq_div_pow]

lemma nibble_cons_one (b : UInt8) (bs : Bytes) : nibble (b :: bs) 1 = some (loNibble b) := by
  simp [nibble, loNibble]

lemma nibble_cons_add_two (b : UInt8) (bs : Bytes) (i : ℕ) :
    nibble (b :: bs) (i + 2) = nibble bs i := by
  unfold nibble
  rw [show (i + 2) / 2 = i / 2 + 1 by omega, show (i + 2) % 2 = i % 2 by omega]
  simp

@[simp] lemma nibbles_nil : nibbles [] = [] := rfl

lemma nibbles_cons (b : UInt8) (bs : Bytes) :
    nibbles (b :: bs) = hiNibble b :: loNibble b :: nibbles bs := by
  have hr : List.range ((b :: bs).length * 2)
      = 0 :: 1 :: (List.range (bs.length * 2)).map (· + 2) := by
    rw [show (b :: bs).length * 2 = (bs.length * 2 + 1) + 1 by simp; omega,
      List.range_succ_eq_map, List.range_succ_eq_map]
    simp
  unfold nibbles
  rw [hr]
  simp only [List.filterMap_cons, nibble_cons_zero, nibble_cons_one, List.filterMap_map]
  congr 3
  funext i
  exact nibble_cons_add_two b bs i

@[simp] lemma nibbles_length (path : Bytes) : (nibbles path).length = 2 * path.length := by
  induction path with
  | nil => rfl
  | cons b bs ih => rw [nibbles_cons]; simp [ih]; omega

/-- Indexing a path by nibbles is indexing its list of nibbles. -/
lemma nibble_eq (path : Bytes) (i : ℕ) : nibble path i = (nibbles path)[i]? := by
  induction path generalizing i with
  | nil => simp [nibble]
  | cons b bs ih =>
    rw [nibbles_cons]
    match i with
    | 0 => simp [nibble_cons_zero]
    | 1 => simp [nibble_cons_one]
    | i + 2 => simp [nibble_cons_add_two, ih]

lemma hi_lo_lt_iff (a b : UInt8) :
    a < b ↔ hiNibble a < hiNibble b ∨ hiNibble a = hiNibble b ∧ loNibble a < loNibble b := by
  have ha := a.toNat_lt
  have hb := b.toNat_lt
  simp only [hiNibble, loNibble, Fin.lt_def, Fin.ext_iff, Fin.val_ofNat, UInt8.lt_iff_toNat_lt]
  omega

lemma hi_lo_inj {a b : UInt8} (h : hiNibble a = hiNibble b) (l : loNibble a = loNibble b) :
    a = b := by
  have ha := a.toNat_lt
  have hb := b.toNat_lt
  simp only [hiNibble, loNibble, Fin.ext_iff, Fin.val_ofNat] at h l
  exact UInt8.toNat_inj.mp (by omega)

lemma nibbles_inj {a b : Bytes} (h : nibbles a = nibbles b) : a = b := by
  induction a generalizing b with
  | nil =>
    cases b with
    | nil => rfl
    | cons y ys => rw [nibbles_cons] at h; simp at h
  | cons x xs ih =>
    cases b with
    | nil => rw [nibbles_cons] at h; simp at h
    | cons y ys =>
      rw [nibbles_cons, nibbles_cons] at h
      injection h with h1 h
      injection h with h2 h
      rw [hi_lo_inj h1 h2, ih h]

/-- **Nibble order is byte order.** -/
theorem nibbles_lt_iff {a b : Bytes} : nibbles a < nibbles b ↔ a < b := by
  induction a generalizing b with
  | nil =>
    cases b with
    | nil => simp
    | cons y ys => rw [nibbles_cons]; simp
  | cons x xs ih =>
    cases b with
    | nil => rw [nibbles_cons]; simp
    | cons y ys =>
      rw [nibbles_cons, nibbles_cons, List.cons_lt_cons_iff, List.cons_lt_cons_iff,
        List.cons_lt_cons_iff, ih, hi_lo_lt_iff]
      constructor
      · rintro (h | ⟨h, h' | ⟨h', hr⟩⟩)
        · exact .inl (.inl h)
        · exact .inl (.inr ⟨h, h'⟩)
        · exact .inr ⟨hi_lo_inj h h', hr⟩
      · rintro ((h | ⟨h, h'⟩) | ⟨rfl, hr⟩)
        · exact .inl h
        · exact .inr ⟨h, .inl h'⟩
        · exact .inr ⟨rfl, .inr ⟨rfl, hr⟩⟩

lemma nibbles_eq_some {path : Bytes} {d : ℕ} (h : d < 2 * path.length) :
    (nibbles path)[d]? = some (nibbleAt path d) := by
  have hd : d < (nibbles path).length := by simpa using h
  rw [nibbleAt, nibble_eq, List.getElem?_eq_getElem hd, Option.getD_some]

/-- `matched` counts the nibbles a prefix shares with the path from `depth` on. -/
lemma matched_spec (ns : List Nibble) (path : Bytes) (depth : ℕ) :
    matched ns path depth ≤ ns.length ∧
      ns.take (matched ns path depth) <+: (nibbles path).drop depth ∧
      ∀ n, ns[matched ns path depth]? = some n →
        (nibbles path)[depth + matched ns path depth]? ≠ some n := by
  induction ns generalizing depth with
  | nil => simp [matched]
  | cons n ns ih =>
    unfold matched
    split
    · rename_i h
      rw [nibble_eq] at h
      obtain ⟨h1, h2, h3⟩ := ih (depth + 1)
      obtain ⟨hlt, hn⟩ := List.getElem?_eq_some_iff.mp h
      refine ⟨by simpa using h1, ?_, ?_⟩
      · rw [List.take_succ_cons, List.drop_eq_getElem_cons hlt, hn]
        exact List.cons_prefix_cons.mpr ⟨rfl, h2⟩
      · intro n' hn'
        rw [List.getElem?_cons_succ] at hn'
        have := h3 n' hn'
        rwa [show depth + (matched ns path (depth + 1) + 1)
          = depth + 1 + matched ns path (depth + 1) by omega]
    · rename_i h
      rw [nibble_eq] at h
      refine ⟨by simp, by simp, ?_⟩
      intro n' hn'
      rw [List.getElem?_cons_zero, Option.some.injEq] at hn'
      subst hn'
      simpa using h

/-- A prefix is matched whole exactly when the path follows it. -/
lemma matched_eq_length {ns : List Nibble} {path : Bytes} {depth : ℕ} :
    matched ns path depth = ns.length ↔ ns <+: (nibbles path).drop depth := by
  obtain ⟨h1, h2, h3⟩ := matched_spec ns path depth
  constructor
  · intro h
    rwa [h, List.take_length] at h2
  · intro h
    by_contra hne
    have hlt : matched ns path depth < ns.length := by omega
    refine h3 _ (List.getElem?_eq_getElem hlt) ?_
    obtain ⟨t, ht⟩ := h
    have hd : ((nibbles path).drop depth)[matched ns path depth]? = some (ns[matched ns path depth]) := by
      rw [← ht, List.getElem?_append_left hlt, List.getElem?_eq_getElem hlt]
    rwa [List.getElem?_drop] at hd

end Nibbles

/-! ### Packed prefixes -/

section Pack

@[simp] lemma pack_length (ns : List Nibble) : (pack ns).length = (ns.length + 1) / 2 := by
  induction ns using pack.induct with
  | case1 => rfl
  | case2 a => simp [pack]
  | case3 a b rest ih => simp only [pack, List.length_cons, ih]; omega

lemma hi_pack (a b : Nibble) : hiNibble (UInt8.ofNat (a.val * 16 + b.val)) = a := by
  have ha := a.isLt
  have hb := b.isLt
  apply Fin.ext
  simp only [hiNibble, Fin.val_ofNat, UInt8.toNat_ofNat']
  omega

lemma lo_pack (a b : Nibble) : loNibble (UInt8.ofNat (a.val * 16 + b.val)) = b := by
  have ha := a.isLt
  have hb := b.isLt
  apply Fin.ext
  simp only [loNibble, Fin.val_ofNat, UInt8.toNat_ofNat']
  omega

/-- Packing and unpacking: the nibbles of a packed prefix start with the prefix. -/
lemma nibbles_pack (ns : List Nibble) : (nibbles (pack ns)).take ns.length = ns := by
  induction ns using pack.induct with
  | case1 => rfl
  | case2 a =>
    have := hi_pack a 0
    simp only [Fin.val_zero, Nat.add_zero] at this
    rw [pack, nibbles_cons, this]
    rfl
  | case3 a b rest ih =>
    rw [pack, nibbles_cons, hi_pack, lo_pack, List.length_cons, List.length_cons,
      List.take_succ_cons, List.take_succ_cons, ih]

/-- The padding nibble of an odd prefix is zero. -/
lemma pack_padding {ns : List Nibble} (h : ns.length % 2 = 1) {b : UInt8}
    (hb : (pack ns).getLast? = some b) : b &&& 15 = 0 := by
  induction ns using pack.induct with
  | case1 => simp at h
  | case2 a =>
    simp only [pack, List.getLast?_singleton, Option.some.injEq] at hb
    subst hb
    revert a
    decide
  | case3 a c rest ih =>
    have hr : rest.length % 2 = 1 := by simp at h; omega
    refine ih hr ?_
    rw [pack, List.getLast?_cons] at hb
    cases hl : (pack rest).getLast? with
    | none =>
      have := congrArg List.length (List.getLast?_eq_none_iff.mp hl)
      rw [pack_length, List.length_nil] at this
      omega
    | some x => rw [hl] at hb; simpa using hb

/-- Packed prefixes of one length are equal only when the prefixes are. -/
lemma pack_inj {a b : List Nibble} (hl : a.length = b.length) (h : pack a = pack b) : a = b := by
  rw [← nibbles_pack a, ← nibbles_pack b, h, hl]

/-- Packing the nibbles of a path gives the path back. -/
lemma pack_nibbles (path : Bytes) : pack (nibbles path) = path := by
  induction path with
  | nil => rfl
  | cons b bs ih =>
    have hb := b.toNat_lt
    rw [nibbles_cons, pack, ih]
    congr 1
    refine UInt8.toNat_inj.mp ?_
    simp only [hiNibble, loNibble, Fin.val_ofNat, UInt8.toNat_ofNat']
    omega

end Pack

end GolemDb.Merkle
