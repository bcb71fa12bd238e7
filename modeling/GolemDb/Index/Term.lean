import GolemDb.Cells.Key
import GolemDb.Lib.Prog

/-!
Index terms: `name ‖ 00 ‖ (80 | type id) ‖ payload`. A term carries the fact that its bytes have
this form, which determines the three parts (`termBytes_inj`), since a name holds no NUL.
-/

namespace GolemDb.Index

open GolemDb.Lib GolemDb.Cells

inductive TermError where
  | invalidName
  | unsupportedType (ty : CellType)
  | value (source : CellValueParseError)
  | nan
  | invalidEncoding
deriving DecidableEq

/-! ### Names and types -/

/-- A stored cell name as a term name, which must be UTF-8. -/
def nameStr (name : CellName) : Except TermError Bytes :=
  match fromUtf8 name with
  | .ok s => .ok s
  | .error _ => .error .invalidName

/-- The name without a leading `$`. -/
def stripDollar : Bytes → Bytes
  | [] => []
  | b :: rest => if b = DOLLAR then rest else b :: rest

def validateName (name : Bytes) : Except TermError Unit :=
  match stripDollar name with
  | [] => .error .invalidName
  | first :: rest => if !isAlpha first || !rest.all isRest then .error .invalidName else .ok ()

/-- Every type but variable-length bytes has an ordered codec. -/
def supported (ty : CellType) : Except TermError Unit :=
  if ty = .bytes then .error (.unsupportedType ty) else .ok ()

lemma validateName_ok {name : Bytes} : validateName name = .ok () ↔ UserName name := by
  unfold validateName UserName
  constructor
  · intro h
    split at h
    · cases h
    · rename_i first rest hs
      split_ifs at h with hc
      simp only [Bool.or_eq_true, Bool.not_eq_true', not_or, Bool.not_eq_false, List.all_eq_true] at hc
      refine ⟨first, rest, ?_, hc.1, hc.2⟩
      cases name with
      | nil => simp [stripDollar] at hs
      | cons b l =>
        rw [stripDollar] at hs
        split_ifs at hs with hb
        · exact .inr (by rw [hb, hs])
        · exact .inl hs
  · rintro ⟨first, rest, he, hf, hr⟩
    have hs : stripDollar name = first :: rest := by
      rcases he with rfl | rfl
      · rw [stripDollar, if_neg]
        rintro rfl
        rw [isAlpha_dollar] at hf
        cases hf
      · rw [stripDollar, if_pos rfl]
    rw [hs]
    simp only [hf, Bool.not_true, Bool.false_or]
    rw [if_neg]
    simpa using hr

/-- A user name passes the check of stored names. -/
lemma nameStr_userName {name : Bytes} (h : UserName name) : nameStr name = .ok name := by
  rw [nameStr, fromUtf8_ascii fun b hb => (h.ascii b hb).2]

lemma nameStr_ok {name s : Bytes} (h : nameStr name = .ok s) : s = name := by
  unfold nameStr at h
  split at h
  · rename_i t ht
    obtain rfl := Except.ok.inj h
    exact fromUtf8_self ht
  · cases h

/-! ### Terms -/

def termBytes (name : Bytes) (ty : CellType) (payload : Bytes) : Bytes :=
  name ++ [0, CellValue.tag ty true] ++ payload

/-- The parts of a term: a user name, an ordered type and a payload of that type. -/
def TermParts (name : Bytes) (ty : CellType) (payload : Bytes) : Prop :=
  UserName name ∧ ty ≠ .bytes ∧ ty.validate payload = .ok ()

/-- **A canonical ordered index key.** -/
structure IndexTerm where
  bytes : Bytes
  canonical : ∃ name ty payload, TermParts name ty payload ∧ bytes = termBytes name ty payload
deriving DecidableEq

namespace IndexTerm

/-- Terms are ordered by their bytes. -/
instance : LinearOrder IndexTerm :=
  LinearOrder.lift' IndexTerm.bytes fun a b h => by
    cases a
    cases b
    simpa using h

lemma lt_iff {t t' : IndexTerm} : t < t' ↔ t.bytes < t'.bytes := Iff.rfl

lemma ext_bytes {t t' : IndexTerm} (h : t.bytes = t'.bytes) : t = t' := by
  cases t
  cases t'
  simpa using h

/-- The prefix of one name and type. -/
def pfx (name : Bytes) (ty : CellType) : Except TermError Bytes := do
  validateName name
  supported ty
  return name ++ [0, CellValue.tag ty true]

lemma pfx_ok {name : Bytes} {ty : CellType} {out : Bytes} :
    pfx name ty = .ok out ↔
      UserName name ∧ ty ≠ .bytes ∧ out = name ++ [0, CellValue.tag ty true] := by
  unfold pfx supported
  cases hn : validateName name with
  | error e =>
    simp only [Bind.bind, Except.bind, reduceCtorEq, false_iff, not_and]
    intro h
    rw [validateName_ok.mpr h] at hn
    cases hn
  | ok u =>
    have hu := validateName_ok.mp hn
    by_cases hty : ty = .bytes
    · simp [hty, Bind.bind, Except.bind]
    · simp [hty, hu, Bind.bind, Except.bind, Pure.pure, Except.pure, eq_comm]

/-- The term `name = value`, whatever the cell's kind. -/
def fromStrName (name : Bytes) (value : CellValue) : Except TermError IndexTerm :=
  match h : pfx name value.ty with
  | .error e => .error e
  | .ok out => .ok ⟨out ++ value.value, name, value.ty, value.value,
      ⟨(pfx_ok.mp h).1, (pfx_ok.mp h).2.1, value.valid⟩, by rw [termBytes, (pfx_ok.mp h).2.2]⟩

/-- The term of a stored cell name. -/
def fromCellName (name : CellName) (value : CellValue) : Except TermError IndexTerm := do
  fromStrName (← nameStr name) value

/-- Check a stored cell name with no value to build a term from. -/
def checkCellName (name : CellName) : Except TermError Unit := do
  validateName (← nameStr name)

/-- The name, type and payload of a byte string in term form. -/
def decodeParts (bytes : Bytes) : Except TermError (Bytes × CellType × Bytes) := do
  match bytes.findIdx? (· = 0) with
  | none => .error .invalidEncoding
  | some split =>
    let name ← nameStr (bytes.take split)
    validateName name
    match bytes.drop (split + 1) with
    | [] => .error .invalidEncoding
    | tag :: value =>
      if tag &&& INDEXABLE_BIT = 0 then .error .invalidEncoding
      else
        let ty ← (CellType.fromId (tag &&& TYPE_MASK).toNat).mapError TermError.value
        supported ty
        (ty.validate value).mapError TermError.value
        return (name, ty, value)

/-! ### The codec -/

/-- Names hold no NUL, so the first one ends the name. -/
lemma findIdx?_termBytes {name : Bytes} (h : UserName name) (ty : CellType) (payload : Bytes) :
    (termBytes name ty payload).findIdx? (· = 0) = some name.length := by
  have hn : ∀ b ∈ name, decide (b = 0) = false := fun b hb =>
    decide_eq_false (ne_of_gt (h.ascii b hb).1)
  rw [termBytes, List.append_assoc, List.findIdx?_append, List.findIdx?_eq_none_iff.mpr hn]
  simp [List.findIdx?_cons]

lemma split_termBytes {name : Bytes} (ty : CellType) (payload : Bytes) :
    (termBytes name ty payload).take name.length = name ∧
      (termBytes name ty payload).drop (name.length + 1) = CellValue.tag ty true :: payload := by
  constructor
  · rw [termBytes, List.append_assoc, List.take_left]
  · have : termBytes name ty payload = (name ++ [0]) ++ (CellValue.tag ty true :: payload) := by
      simp [termBytes]
    rw [this, List.drop_left' (by simp)]

/-- **The parts of a term are determined by its bytes.** -/
theorem termBytes_inj {name name' payload payload' : Bytes} {ty ty' : CellType}
    (h : UserName name) (h' : UserName name')
    (he : termBytes name ty payload = termBytes name' ty' payload') :
    name = name' ∧ ty = ty' ∧ payload = payload' := by
  have hi := findIdx?_termBytes h ty payload
  rw [he, findIdx?_termBytes h' ty' payload'] at hi
  have hlen : name'.length = name.length := Option.some.inj hi
  have h1 := @split_termBytes name ty payload
  have h2 := @split_termBytes name' ty' payload'
  rw [he, ← hlen] at h1
  have hrest := h1.2.symm.trans h2.2
  obtain ⟨htag, hpay⟩ := List.cons.inj hrest
  have hty : ty.id = ty'.id := by rw [← CellValue.tag_type ty true, htag, CellValue.tag_type]
  exact ⟨h1.1.symm.trans h2.1, CellType.id_inj hty, hpay⟩

lemma decodeParts_termBytes {name payload : Bytes} {ty : CellType} (h : TermParts name ty payload) :
    decodeParts (termBytes name ty payload) = .ok (name, ty, payload) := by
  obtain ⟨hn, hty, hval⟩ := h
  have hbit : CellValue.tag ty true &&& INDEXABLE_BIT ≠ 0 := by
    simpa using CellValue.tag_indexable ty true
  unfold decodeParts
  rw [findIdx?_termBytes hn]
  simp only [(split_termBytes ty payload).1, (split_termBytes ty payload).2, nameStr_userName hn,
    validateName_ok.mpr hn, hbit, if_false, CellValue.tag_type, CellType.fromId_id, supported, hty,
    hval, Bind.bind, Except.bind, Except.mapError, Pure.pure, Except.pure]

lemma decodeParts_ok {bytes : Bytes} {p : Bytes × CellType × Bytes} (h : decodeParts bytes = .ok p) :
    TermParts p.1 p.2.1 p.2.2 ∧ bytes = termBytes p.1 p.2.1 p.2.2 := by
  unfold decodeParts at h
  split at h
  · cases h
  · rename_i split hi
    obtain ⟨name, hn, u, hv, h⟩ : ∃ name, nameStr (bytes.take split) = .ok name ∧ ∃ u,
        validateName name = .ok u ∧ _ := by
      simpa only [bind_eq_ok] using h
    obtain rfl := nameStr_ok hn
    split at h
    · cases h
    · rename_i tag value hd
      split_ifs at h with hbit
      simp only [bind_eq_ok, mapError_eq_ok, pure_eq_ok] at h
      obtain ⟨ty, hty, u₁, hsup, u₂, hval, rfl⟩ := h
      have hb : ty ≠ .bytes := by
        rintro rfl
        cases hsup
      have htag : CellValue.tag ty true = tag := by
        have := CellValue.tag_eq (b := tag) (CellType.id_fromId hty).symm
        rwa [decide_eq_true hbit] at this
      obtain ⟨hlt, hz, -⟩ := List.findIdx?_eq_some_iff_getElem.mp hi
      have hzero : bytes[split] = 0 := by simpa using hz
      refine ⟨⟨validateName_ok.mp hv, hb, hval⟩, ?_⟩
      rw [termBytes, htag, List.append_assoc, List.cons_append, List.cons_append, List.nil_append,
        ← hd, ← hzero, List.getElem_cons_drop, List.take_append_drop]

/-- Decode exactly one term; the bytes are kept. -/
def decode (bytes : Bytes) : Except TermError IndexTerm :=
  match h : decodeParts bytes with
  | .error e => .error e
  | .ok p => .ok ⟨bytes, p.1, p.2.1, p.2.2, decodeParts_ok h⟩

theorem decode_bytes (t : IndexTerm) : decode t.bytes = .ok t := by
  obtain ⟨name, ty, payload, hp, hb⟩ := t.canonical
  have h : decodeParts t.bytes = .ok (name, ty, payload) := by rw [hb, decodeParts_termBytes hp]
  unfold decode
  split
  · rename_i e he
    rw [h] at he
    cases he
  · rfl

lemma decode_ok {bytes : Bytes} {t : IndexTerm} (h : decode bytes = .ok t) : t.bytes = bytes := by
  unfold decode at h
  split at h
  · cases h
  · obtain rfl := Except.ok.inj h
    rfl

lemma fromStrName_ok {name : Bytes} {value : CellValue} {t : IndexTerm} (h : fromStrName name value = .ok t) :
    TermParts name value.ty value.value ∧ t.bytes = termBytes name value.ty value.value := by
  unfold fromStrName at h
  split at h
  · cases h
  · rename_i out hp
    obtain ⟨hu, hty, rfl⟩ := pfx_ok.mp hp
    cases h
    exact ⟨⟨hu, hty, value.valid⟩, rfl⟩

/-- A name or type without terms has none of any value. -/
lemma fromStrName_pfx_error {name : Bytes} {value : CellValue} {e : TermError} (h : pfx name value.ty = .error e) :
    fromStrName name value = .error e := by
  unfold fromStrName
  split
  · rename_i e' he
    exact congrArg Except.error (Except.error.inj (he.symm.trans h))
  · rename_i out ho
    rw [h] at ho
    cases ho

lemma fromStrName_userName {name : Bytes} {value : CellValue} (hn : UserName name) (hty : value.ty ≠ .bytes) :
    ∃ t, fromStrName name value = .ok t ∧ t.bytes = termBytes name value.ty value.value := by
  have hp := pfx_ok.mpr ⟨hn, hty, rfl⟩
  unfold fromStrName
  split
  · rename_i e he
    rw [hp] at he
    cases he
  · rename_i out ho
    rw [hp] at ho
    cases ho
    exact ⟨_, rfl, rfl⟩

lemma fromCellName_ok {name : CellName} {value : CellValue} {t : IndexTerm}
    (h : fromCellName name value = .ok t) :
    TermParts name value.ty value.value ∧ t.bytes = termBytes name value.ty value.value := by
  unfold fromCellName at h
  obtain ⟨s, hn, hs⟩ := bind_eq_ok.mp h
  obtain rfl := nameStr_ok hn
  exact fromStrName_ok hs

/-- The term of a value under a user name. -/
lemma fromCellName_userName {name : CellName} {value : CellValue} (hn : UserName name)
    (hty : value.ty ≠ .bytes) :
    ∃ t, fromCellName name value = .ok t ∧ t.bytes = termBytes name value.ty value.value := by
  unfold fromCellName
  rw [nameStr_userName hn]
  exact fromStrName_userName hn hty

/-! ### Name validators -/

/-- **The validators of names accept one grammar**: the check of an attribute's stored name and the parser of
user names, at any length it allows. No name of it holds a NUL or is an engine name. -/
theorem checkCellName_iff (b : Bytes) :
    (checkCellName b = .ok () ↔ ∀ max, b.length ≤ max → ∃ n, parseUser b max = .ok n) ∧
    ((∀ max, b.length ≤ max → ∃ n, parseUser b max = .ok n) ↔ UserName b) ∧
    (UserName b → ∀ max, b.length ≤ max → parseUser b max = .ok b) ∧
    (UserName b → 0 ∉ b) ∧
    ¬ ((∃ max n, parseUser b max = .ok n) ∧ ∃ n, parseEngine b = .ok n) := by
  have hcheck : checkCellName b = .ok () ↔ UserName b := by
    unfold checkCellName
    constructor
    · intro h
      obtain ⟨s, hs, hv⟩ := bind_eq_ok.mp h
      obtain rfl := nameStr_ok hs
      exact validateName_ok.mp hv
    · intro h
      rw [nameStr_userName h]
      exact validateName_ok.mpr h
  have hparse : (∀ max, b.length ≤ max → ∃ n, parseUser b max = .ok n) ↔ UserName b := by
    constructor
    · intro h
      obtain ⟨n, hn⟩ := h b.length le_rfl
      exact (parseUser_ok hn).2
    · exact fun h max hlen => ⟨b, parseUser_userName h hlen⟩
  refine ⟨hcheck.trans hparse.symm, hparse, fun h max => parseUser_userName h, fun h h0 => ?_, ?_⟩
  · exact absurd (h.ascii 0 h0).1 (lt_irrefl 0)
  · rintro ⟨⟨max, n, hn⟩, n', hn'⟩
    exact parseEngine_ok hn' (parseUser_ok hn).2

end IndexTerm

end GolemDb.Index
