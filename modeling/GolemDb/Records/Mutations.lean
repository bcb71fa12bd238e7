import GolemDb.Records.Identity

/-!
Creating, patching and deleting records. Each mutation of a consistent map either fails with an
error of its caller's making or leaves a map that is known cell by cell, and the map it leaves is
consistent again.
-/

namespace GolemDb.Records

open GolemDb.Lib GolemDb.Storage GolemDb.Merkle GolemDb.Cells GolemDb.Index GolemDb.Branch

/-! ### What the mutations do -/

/-- The cell of a name in a record. -/
def cellOf (id : U64) (name : CellName) : CellKey := ⟨id, name⟩

lemma cellOf_strictMono (id : U64) : StrictMono (cellOf id) := fun _ _ h =>
  CellKey.lt_iff.mpr (.inr ⟨rfl, h⟩)

/-- The map with edits of one record. -/
def editCells {ν : Type} (m : CellMap) (id : U64) (edits : OrdMap CellName ν)
    (value : ν → Option CellValue) : CellMap :=
  m.overlay (edits.relabel (cellOf id) (cellOf_strictMono id) value)

lemma get?_editCells {ν : Type} (m : CellMap) (id : U64) (edits : OrdMap CellName ν)
    (value : ν → Option CellValue) (k : CellKey) :
    (editCells m id edits value).get? k =
      if k.recordId = id then ((edits.get? k.name).map value).getD (m.get? k) else m.get? k := by
  unfold editCells
  rw [OrdMap.get?_overlay]
  by_cases hk : k.recordId = id
  · have hcell : k = cellOf id k.name := by
      cases k
      subst hk
      rfl
    rw [if_pos hk]
    conv_lhs => rw [hcell, OrdMap.get?_relabel]
    rw [← hcell]
  · rw [if_neg hk]
    have hnone : (edits.relabel (cellOf id) (cellOf_strictMono id) value).get? k = none := by
      by_contra hne
      obtain ⟨w, hw⟩ := Option.ne_none_iff_exists'.mp hne
      obtain ⟨name, v, rfl, -⟩ := OrdMap.get?_relabel_eq_some.mp hw
      exact hk rfl
    rw [hnone, Option.getD_none]

lemma on_putAll (id : U64) : ∀ (l : List (CellName × CellValue)) (m : CellMap),
    (putAll id l).runOn m = (.ok (), (l.map fun e => (cellOf id e.1, some e.2)).foldl
      (fun m e => m.set e.1 e.2) m) := by
  intro l
  induction l with
  | nil => exact fun m => rfl
  | cons e l ih =>
    intro m
    rw [putAll, on_bind (on_put _ _ m), ih]
    rfl

lemma on_patchCell (k : CellKey) (change : CellPatch) (m : CellMap) :
    (patchCell k change).runOn m = (.ok (), m.set k change.value?) := by
  unfold patchCell
  rw [on_bind (on_get k m)]
  cases change with
  | set value =>
    simp only
    split_ifs with hne
    · rfl
    · rw [not_not] at hne
      show (Except.ok (), m) = (.ok (), m.set k (some value))
      rw [← hne, OrdMap.set_self]
  | remove =>
    simp only
    split_ifs with hsome
    · rfl
    · have hnone : m.get? k = none := by simpa using hsome
      show (Except.ok (), m) = (.ok (), m.set k none)
      rw [← hnone, OrdMap.set_self]

lemma on_patchAll (id : U64) : ∀ (l : List (CellName × CellPatch)) (m : CellMap),
    (patchAll id l).runOn m = (.ok (), (l.map fun e => (cellOf id e.1, e.2.value?)).foldl
      (fun m e => m.set e.1 e.2) m) := by
  intro l
  induction l with
  | nil => exact fun m => rfl
  | cons e l ih =>
    intro m
    rw [patchAll, on_bind (on_patchCell _ _ m), ih]
    rfl

lemma on_deleteAll : ∀ (l : List CellKey) (m : CellMap),
    (deleteAll l).runOn m = (.ok (), l.foldl OrdMap.erase m) := by
  intro l
  induction l with
  | nil => exact fun m => rfl
  | cons k l ih =>
    intro m
    rw [deleteAll, on_bind (on_delete k m), ih]
    rfl

lemma get?_foldl_erase (l : List CellKey) (m : CellMap) (k : CellKey) :
    (l.foldl OrdMap.erase m).get? k = if k ∈ l then none else m.get? k := by
  induction l generalizing m with
  | nil => simp
  | cons x l ih =>
    rw [List.foldl_cons, ih, OrdMap.get?_erase]
    by_cases hx : k = x
    · simp [hx]
    · simp [hx]

lemma validate_user {limits : CellLimits} {name : CellName} {value : Option CellValue}
    (h : validate limits name value = .ok ()) : UserName name ∧ name.length ≤ limits.maxCellNameLen.val := by
  obtain ⟨n, hn, -⟩ := bind_eq_ok.mp h
  have hparse := mapError_eq_ok.mp hn
  refine ⟨(parseUser_ok hparse).2, ?_⟩
  by_contra hlt
  rw [CellLimits.parseUserName, parseUser, if_pos (by omega)] at hparse
  cases hparse

lemma validate_cases (limits : CellLimits) (name : CellName) (value : Option CellValue) :
    (∃ text, validate limits name value = .error (.invalidArgument text)) ∨
      validate limits name value = .ok () := by
  unfold validate
  cases hn : limits.parseUserName name with
  | error err => exact .inl ⟨err.display, rfl⟩
  | ok n =>
    rw [mapError_ok, ok_bind]
    cases value with
    | none => exact .inr rfl
    | some v =>
      cases hval : limits.validateValue v with
      | ok u => exact .inr (by simp [hval])
      | error err => exact .inl ⟨err.display, by simp [hval, Except.mapError]⟩

lemma validateAll_cases (limits : CellLimits) : ∀ l : List (CellName × Option CellValue),
    (∃ text, validateAll limits l = .error (.invalidArgument text)) ∨
      validateAll limits l = .ok () ∧ ∀ e ∈ l, validate limits e.1 e.2 = .ok () := by
  intro l
  induction l with
  | nil => exact .inr ⟨rfl, by simp⟩
  | cons e l ih =>
    rw [validateAll]
    rcases validate_cases limits e.1 e.2 with ⟨text, hv⟩ | hv
    · exact .inl ⟨text, by rw [hv]; rfl⟩
    · rw [hv, ok_bind]
      rcases ih with ⟨text, ih⟩ | ⟨ih, hall⟩
      · exact .inl ⟨text, ih⟩
      · refine .inr ⟨ih, fun x hx => ?_⟩
        rcases List.mem_cons.mp hx with rfl | hx
        · exact hv
        · exact hall x hx

/-- The map after a record was created. -/
def created (m : CellMap) (id next : U64) (K : RecordKey) (values : RecordCells) : CellMap :=
  (((editCells m id values some).insert (State.identityCell id) (CellValue.fromBytes32 K)).insert
    (State.binding K) (CellValue.fromU64 id)).insert State.allocatorKey (CellValue.fromU64 next)

/-- The map after a record was deleted. -/
def deleted (m : CellMap) (id : U64) (K : RecordKey) : CellMap :=
  (((m.entries.filter fun e => e.1.recordId = id).map Prod.fst).foldl OrdMap.erase m).erase
    (State.binding K)

lemma get?_deleted (m : CellMap) (id : U64) (K : RecordKey) (k : CellKey) :
    (deleted m id K).get? k =
      if k.recordId = id ∨ k = State.binding K then none else m.get? k := by
  unfold deleted
  rw [OrdMap.get?_erase, get?_foldl_erase]
  by_cases hb : k = State.binding K
  · simp [hb]
  · have hmem : k ∈ (m.entries.filter fun e => e.1.recordId = id).map Prod.fst ↔
        k.recordId = id ∧ m.get? k ≠ none := by
      rw [List.mem_map]
      constructor
      · rintro ⟨e, he, rfl⟩
        obtain ⟨h1, h2⟩ := List.mem_filter.mp he
        exact ⟨by simpa using h2, by rw [OrdMap.mem_entries.mp h1]; simp⟩
      · rintro ⟨hid, hne⟩
        obtain ⟨v, hv⟩ := Option.ne_none_iff_exists'.mp hne
        exact ⟨(k, v), List.mem_filter.mpr ⟨OrdMap.mem_entries.mpr hv, by simpa using hid⟩, rfl⟩
    rw [if_neg hb]
    simp only [hmem, hb, or_false]
    by_cases hid : k.recordId = id
    · rw [if_pos hid]
      split_ifs with hne
      · rfl
      · simpa [hid] using hne
    · rw [if_neg hid, if_neg fun hc => hid hc.1]

/-- The record the allocator points at has no cell. -/
lemma get?_fresh {m : CellMap} {n : U64} (hn : ∀ k v, m.get? k = some v →
      System.FIRST_USER_RECORD_ID ≤ k.recordId → k.recordId < n)
    (h64 : System.FIRST_USER_RECORD_ID ≤ n) (k : CellKey) (hk : k.recordId = n) : m.get? k = none := by
  by_contra hne
  obtain ⟨v, hv⟩ := Option.ne_none_iff_exists'.mp hne
  have := hn k v hv (by rw [hk]; exact h64)
  rw [hk] at this
  exact lt_irrefl _ this

section Mutations

variable {c : CommitId} {m : CellMap} (h : Consistent c m)

include h

/-- **The outcomes of a creation.** -/
theorem Consistent.create_cases {l : CellLimits} (hl : HasLimits m l) (K : RecordKey) (values : RecordCells) :
    (∃ e, (createGroup K values).runOn m = (.error (.error e), m) ∧ ∀ text, e ≠ .corruptState text) ∨
    ∃ n next, (createGroup K values).runOn m = (.ok K, created m n next K values) ∧
      m.get? State.allocatorKey = some (CellValue.fromU64 n) ∧ System.FIRST_USER_RECORD_ID ≤ n ∧
      (∀ k v, m.get? k = some v → System.FIRST_USER_RECORD_ID ≤ k.recordId → k.recordId < n) ∧
      checkedSucc n = some next ∧ m.get? (State.binding K) = none ∧
      ∀ name v, values.get? name = some v → validate l name (some v) = .ok () := by
  obtain ⟨n, hn, h64, hbelow⟩ := h.allocator
  unfold createGroup
  rw [on_bind (on_limits hl)]
  rcases validateAll_cases l (values.entries.map fun e => (e.1, some e.2)) with ⟨text, he⟩ | ⟨hok, hnames⟩
  · exact .inl ⟨_, on_bind_error (on_lift_error he), by simp⟩
  rw [on_bind (on_lift_ok hok), on_bind (h.resolve K)]
  cases hb : boundId m K with
  | some r => exact .inl ⟨.alreadyExists, rfl, by simp⟩
  | none =>
    have hunbound : m.get? (State.binding K) = none := by
      by_contra hne
      obtain ⟨v, hv⟩ := Option.ne_none_iff_exists'.mp hne
      obtain ⟨r, rfl, -⟩ := h.identity hv
      rw [boundId_eq.mpr hv] at hb
      cases hb
    have hfield : State.nextId.runOn m = (checkedSucc n).elim (.error (.error .recordIdExhausted), m)
        fun next => (.ok (n, next), m) := by
      unfold State.nextId
      rw [on_bind (on_get _ m), hn]
      simp only [fieldU64_fromU64]
      rw [if_neg (not_lt.mpr h64)]
      cases checkedSucc n <;> rfl
    cases hs : checkedSucc n with
    | none =>
      rw [hs] at hfield
      exact .inl ⟨.recordIdExhausted, on_bind_error hfield, by simp⟩
    | some next =>
      rw [hs] at hfield
      refine .inr ⟨n, next, ?_, hn, h64, hbelow, hs, hunbound, fun name v hv => ?_⟩
      · have hempty : m.entries.filter (fun e => e.1.recordId = n) = [] := by
          rw [List.filter_eq_nil_iff]
          intro e he hid
          have := get?_fresh hbelow h64 e.1 (by simpa using hid)
          rw [OrdMap.mem_entries.mp he] at this
          cases this
        simp only
        rw [on_bind hfield]
        simp only
        rw [on_bind (on_scan n m), hempty, on_bind (on_lift_ok (show View.anyItem _ = .ok false from rfl))]
        simp only [Bool.false_eq_true, if_false]
        rw [on_bind (on_putAll n _ m), on_bind (on_put _ _ _), on_bind (on_put _ _ _), on_bind (on_put _ _ _)]
        rfl
      · exact hnames (name, some v) (List.mem_map.mpr ⟨(name, v), OrdMap.mem_entries.mpr hv, rfl⟩)

/-- **The outcomes of a patch.** -/
theorem Consistent.patch_cases {l : CellLimits} (hl : HasLimits m l) (K : RecordKey) (changes : RecordPatch) :
    (∃ e, (patchGroup K changes).runOn m = (.error (.error e), m) ∧ ∀ text, e ≠ .corruptState text) ∨
    ∃ id, (patchGroup K changes).runOn m = (.ok (), editCells m id changes CellPatch.value?) ∧
      m.get? (State.binding K) = some (CellValue.fromU64 id) ∧
      ∀ name p, changes.get? name = some p → validate l name p.value? = .ok () := by
  unfold patchGroup
  rw [on_bind (h.resolve K)]
  cases hb : boundId m K with
  | none => exact .inl ⟨.notFound, rfl, by simp⟩
  | some id =>
    simp only
    rw [on_bind (on_limits hl)]
    rcases validateAll_cases l (changes.entries.map fun e => (e.1, e.2.value?)) with ⟨text, he⟩ | ⟨hok, hnames⟩
    · exact .inl ⟨_, on_bind_error (on_lift_error he), by simp⟩
    · refine .inr ⟨id, ?_, boundId_eq.mp hb, fun name p hp => ?_⟩
      · rw [on_bind (on_lift_ok hok), on_patchAll]
        rfl
      · exact hnames (name, p.value?) (List.mem_map.mpr ⟨(name, p), OrdMap.mem_entries.mpr hp, rfl⟩)

/-- **The outcomes of a deletion.** -/
theorem Consistent.delete_cases (K : RecordKey) :
    (deleteGroup K).runOn m = (.error (.error .notFound), m) ∨
    ∃ id, (deleteGroup K).runOn m = (.ok (), deleted m id K) ∧
      m.get? (State.binding K) = some (CellValue.fromU64 id) := by
  unfold deleteGroup
  rw [on_bind (h.resolve K)]
  cases hb : boundId m K with
  | none => exact .inl rfl
  | some id =>
    refine .inr ⟨id, ?_, boundId_eq.mp hb⟩
    simp only
    rw [on_bind (on_scan id m), on_bind (on_lift_ok (allItems_ok _)), on_bind (on_deleteAll _ m)]
    rfl

end Mutations

/-! ### The mutations keep the invariant -/

lemma key_ne {k k' : CellKey} (h : k.recordId ≠ k'.recordId) : k ≠ k' := fun he => h (by rw [he])

lemma user_ne {r s : U64} (hr : System.FIRST_USER_RECORD_ID ≤ r) (hs : s < System.FIRST_USER_RECORD_ID) :
    r ≠ s := (lt_of_lt_of_le hs hr).ne'

lemma binding_inj {K K' : RecordKey} (h : State.binding K = State.binding K') : K = K' :=
  Subtype.ext (congrArg CellKey.name h)

lemma system_ids : ∀ s ∈ System.ALL, s.id < System.FIRST_USER_RECORD_ID := by decide

lemma identity_ne_allocator (r : U64) : State.identityCell r ≠ State.allocatorKey := by
  intro h
  have hname : Reserved.KEY = Reserved.NEXT_RECORD_ID := congrArg CellKey.name h
  exact absurd hname (by decide)

lemma key_ne_of_unreserved {K : RecordKey} (hK : System.byKey K = none) :
    ∀ s ∈ System.ALL, s.key ≠ K := by
  rintro s hs rfl
  have := List.find?_eq_none.mp hK s hs
  simp at this

lemma identity_ne_binding (r : U64) (K : RecordKey) : State.identityCell r ≠ State.binding K := by
  intro h
  have hname : Reserved.KEY = K.1 := congrArg CellKey.name h
  have hlen : Reserved.KEY.length = 32 := by rw [hname, K.2]
  exact absurd hlen (by decide)

/-- The cells of reserved records besides the bindings and the allocator stay in place. -/
def KeepsSystem (m m' : CellMap) (K : RecordKey) : Prop :=
  ∀ k, k.recordId < System.FIRST_USER_RECORD_ID → k ≠ State.binding K → k ≠ State.allocatorKey →
    m'.get? k = m.get? k

/-- **What no mutation changes**: the cells of reserved records besides the bindings of user keys
and the allocator. -/
def Frozen (m m' : CellMap) : Prop :=
  ∀ k, k.recordId < System.FIRST_USER_RECORD_ID → (∀ K, System.byKey K = none → k ≠ State.binding K) →
    k ≠ State.allocatorKey → m'.get? k = m.get? k

lemma Frozen.refl (m : CellMap) : Frozen m m := fun _ _ _ _ => rfl

lemma Frozen.trans {m₁ m₂ m₃ : CellMap} (h : Frozen m₁ m₂) (h' : Frozen m₂ m₃) : Frozen m₁ m₃ :=
  fun k h1 h2 h3 => (h' k h1 h2 h3).trans (h k h1 h2 h3)

lemma KeepsSystem.frozen {m m' : CellMap} {K : RecordKey} (h : KeepsSystem m m' K) (hK : System.byKey K = none) :
    Frozen m m' := fun k h1 h2 h3 => h k h1 (h2 K hK) h3

lemma Frozen.of_record {m m' : CellMap} (h : Frozen m m') {k : CellKey} (hlt : k.recordId < System.FIRST_USER_RECORD_ID)
    (h1 : k.recordId ≠ System.RECORD_KEYS.id) (h2 : k.recordId ≠ System.ALLOC.id) : m'.get? k = m.get? k :=
  h k hlt (fun _ _ => key_ne h1) (key_ne h2)

lemma Frozen.limits {m m' : CellMap} {l : CellLimits} (h : Frozen m m') (hl : HasLimits m l) : HasLimits m' l := by
  have hsame : ∀ name, m'.get? ⟨System.PARAMS.id, name⟩ = m.get? ⟨System.PARAMS.id, name⟩ := fun name =>
    h.of_record (by decide : System.PARAMS.id < _) (by decide : System.PARAMS.id ≠ _) (by decide : System.PARAMS.id ≠ _)
  exact ⟨by rw [hsame]; exact hl.name, by rw [hsame]; exact hl.str, by rw [hsame]; exact hl.bytes⟩

/-- **The cells a mutation writes.** -/
inductive Written (l : CellLimits) : CellKey → CellValue → Prop
  | allocator (n : U64) : Written l State.allocatorKey (CellValue.fromU64 n)
  | binding (K : RecordKey) (r : U64) : Written l (State.binding K) (CellValue.fromU64 r)
  | identity (r : U64) (K : RecordKey) : Written l (State.identityCell r) (CellValue.fromBytes32 K)
  | cell (r : U64) (name : CellName) (v : CellValue) (hv : validate l name (some v) = .ok ()) : Written l ⟨r, name⟩ v

section Keep

variable {c : CommitId} {m m' : CellMap} {K : RecordKey} (h : Consistent c m)
  (hK : System.byKey K = none)

include h hK

lemma Consistent.reserved_of (hs : KeepsSystem m m' K) : ∀ s ∈ System.ALL,
    m'.get? (State.binding s.key) = some (CellValue.fromU64 s.id) ∧
      m'.get? (State.identityCell s.id) = some (CellValue.fromBytes32 s.key) := by
  intro s hm
  obtain ⟨h1, h2⟩ := h.reserved s hm
  constructor
  · rw [hs _ (by decide : System.RECORD_KEYS.id < _) (fun he => key_ne_of_unreserved hK s hm (binding_inj he))
      (key_ne (by decide : System.RECORD_KEYS.id ≠ System.ALLOC.id)), h1]
  · rw [hs _ (system_ids s hm) (identity_ne_binding _ _) (identity_ne_allocator _), h2]

omit hK in
lemma Consistent.params_of (hs : KeepsSystem m m' K) : ∀ name ∈ limitNames,
    ∃ n, m'.get? ⟨System.PARAMS.id, name⟩ = some (CellValue.fromU32 n) := by
  intro name hn
  rw [hs _ (by decide : System.PARAMS.id < _) (key_ne (by decide : System.PARAMS.id ≠ System.RECORD_KEYS.id))
    (key_ne (by decide : System.PARAMS.id ≠ System.ALLOC.id))]
  exact h.params name hn

omit hK in
lemma Consistent.roots_of (hs : KeepsSystem m m' K) : ∀ i, m'.get? (rootsKey i) ≠ none → i < c := by
  intro i hi
  rw [hs _ (by decide : System.ROOTS.id < _) (key_ne (by decide : System.ROOTS.id ≠ System.RECORD_KEYS.id))
    (key_ne (by decide : System.ROOTS.id ≠ System.ALLOC.id))] at hi
  exact h.roots i hi

omit h hK in
/-- The four kinds of cells a creation writes. -/
lemma get?_created {n next : U64} {values : RecordCells} (h64 : System.FIRST_USER_RECORD_ID ≤ n)
    (hbelow : ∀ k v, m.get? k = some v → System.FIRST_USER_RECORD_ID ≤ k.recordId → k.recordId < n) (k : CellKey) :
    (Records.created m n next K values).get? k =
      if k = State.allocatorKey then some (CellValue.fromU64 next)
      else if k = State.binding K then some (CellValue.fromU64 n)
      else if k = State.identityCell n then some (CellValue.fromBytes32 K)
      else if k.recordId = n then values.get? k.name else m.get? k := by
  unfold Records.created
  rw [OrdMap.get?_insert, OrdMap.get?_insert, OrdMap.get?_insert, get?_editCells]
  by_cases hn : k.recordId = n
  · rw [if_pos hn, if_pos hn, get?_fresh hbelow h64 k hn]
    cases values.get? k.name <;> split_ifs <;> rfl
  · rw [if_neg hn, if_neg hn]
    split_ifs <;> rfl

omit h hK in
lemma keepsSystem_created {n next : U64} {values : RecordCells} (h64 : System.FIRST_USER_RECORD_ID ≤ n)
    (hbelow : ∀ k v, m.get? k = some v → System.FIRST_USER_RECORD_ID ≤ k.recordId → k.recordId < n) :
    KeepsSystem m (Records.created m n next K values) K := by
  intro k hk h1 h2
  have hne : k.recordId ≠ n := (user_ne h64 hk).symm
  rw [get?_created h64 hbelow, if_neg h2, if_neg h1, if_neg (key_ne hne), if_neg hne]

omit h hK in
lemma keepsSystem_edited {ν : Type} {id : U64} (h64 : System.FIRST_USER_RECORD_ID ≤ id) (edits : OrdMap CellName ν)
    (value : ν → Option CellValue) : KeepsSystem m (editCells m id edits value) K := by
  intro k hk _ _
  rw [get?_editCells, if_neg (user_ne h64 hk).symm]

omit h hK in
lemma keepsSystem_deleted {id : U64} (h64 : System.FIRST_USER_RECORD_ID ≤ id) :
    KeepsSystem m (Records.deleted m id K) K := by
  intro k hk h1 _
  have hne : k.recordId ≠ id := (user_ne h64 hk).symm
  rw [get?_deleted, if_neg (by tauto)]

/-- **A creation keeps the invariant.** -/
theorem Consistent.created {n next : U64} {values : RecordCells}
    (h64 : System.FIRST_USER_RECORD_ID ≤ n)
    (hbelow : ∀ k v, m.get? k = some v → System.FIRST_USER_RECORD_ID ≤ k.recordId → k.recordId < n)
    (hnext : checkedSucc n = some next) (hfree : m.get? (State.binding K) = none)
    (hnames : ∀ name v, values.get? name = some v → UserName name) :
    Consistent c (created m n next K values) := by
  have hlt : n < next := by
    unfold checkedSucc at hnext
    split_ifs at hnext
    obtain rfl := Option.some.inj hnext
    exact Fin.lt_def.mpr (Nat.lt_succ_self _)
  have hget := @get?_created m K n next values h64 hbelow
  have hsame : ∀ k, k.recordId ≠ n → k ≠ State.binding K → k ≠ State.allocatorKey →
      (Records.created m n next K values).get? k = m.get? k := by
    intro k h1 h2 h3
    rw [hget, if_neg h3, if_neg h2, if_neg (key_ne h1), if_neg h1]
  have hsys : KeepsSystem m (Records.created m n next K values) K := keepsSystem_created h64 hbelow
  have hbindK : (Records.created m n next K values).get? (State.binding K) = some (CellValue.fromU64 n) := by
    rw [hget, if_neg (key_ne (by decide : System.RECORD_KEYS.id ≠ System.ALLOC.id)), if_pos rfl]
  have hidn : (Records.created m n next K values).get? (State.identityCell n)
      = some (CellValue.fromBytes32 K) := by
    rw [hget, if_neg (identity_ne_allocator n), if_neg (identity_ne_binding n K), if_pos rfl]
  have hbind : ∀ K', K' ≠ K → (Records.created m n next K values).get? (State.binding K')
      = m.get? (State.binding K') := fun K' hne =>
    hsame _ (user_ne h64 (by decide : System.RECORD_KEYS.id < _)).symm (fun he => hne (binding_inj he))
      (key_ne (by decide : System.RECORD_KEYS.id ≠ System.ALLOC.id))
  -- a user cell outside the new record was there before
  have hold : ∀ k, System.FIRST_USER_RECORD_ID ≤ k.recordId → k.recordId ≠ n →
      (Records.created m n next K values).get? k = m.get? k := fun k hk hne =>
    hsame k hne (key_ne (user_ne hk (by decide : System.RECORD_KEYS.id < _)))
      (key_ne (user_ne hk (by decide : System.ALLOC.id < _)))
  refine ⟨fun K' v hK' hv => ?_, fun k v hv hk => ?_, ⟨next, ?_, le_trans h64 hlt.le, fun k v hv hk => ?_⟩,
    h.reserved_of hK hsys, h.params_of hsys, fun k v hv hi => ?_, h.roots_of hsys⟩
  · by_cases hne : K' = K
    · subst hne
      rw [hbindK] at hv
      exact ⟨n, (Option.some.inj hv).symm, h64, hidn⟩
    · rw [hbind K' hne] at hv
      obtain ⟨r, rfl, hr, hid⟩ := h.bound K' v hK' hv
      exact ⟨r, rfl, hr, by rw [hold (State.identityCell r) hr (hbelow _ _ hid hr).ne, hid]⟩
  · by_cases hn : k.recordId = n
    · exact ⟨K, hK, by rw [hn, hbindK]⟩
    · rw [hold k hk hn] at hv
      obtain ⟨K', hK', hb⟩ := h.owned k v hv hk
      refine ⟨K', hK', ?_⟩
      rw [hbind K' ?_, hb]
      rintro rfl
      rw [hfree] at hb
      cases hb
  · rw [hget, if_pos rfl]
  · by_cases hn : k.recordId = n
    · rw [hn]
      exact hlt
    · rw [hold k hk hn] at hv
      exact lt_trans (hbelow k v hv hk) hlt
  · rw [hget] at hv
    split_ifs at hv with h1 h2 h3 h4
    · obtain rfl := Option.some.inj hv
      cases hi
    · obtain rfl := Option.some.inj hv
      cases hi
    · obtain rfl := Option.some.inj hv
      cases hi
    · exact ⟨by rw [h4]; exact h64, hnames k.name v hv⟩
    · exact h.attributes k v hv hi

/-- **A patch keeps the invariant.** -/
theorem Consistent.patched {id : U64} {changes : RecordPatch}
    (hb : m.get? (State.binding K) = some (CellValue.fromU64 id))
    (hnames : ∀ name p, changes.get? name = some p → UserName name) :
    Consistent c (editCells m id changes CellPatch.value?) := by
  obtain ⟨r, hr, h64, hid⟩ := h.bound K _ hK hb
  obtain rfl := CellValue.fromU64_inj hr
  have hsame : ∀ k, k.recordId ≠ id ∨ k.name = Reserved.KEY →
      (editCells m id changes CellPatch.value?).get? k = m.get? k := by
    intro k hk
    rw [get?_editCells]
    split_ifs with hrec
    · have hkey := hk.resolve_left fun hne => hne hrec
      have hnone : changes.get? k.name = none := by
        by_contra hne
        obtain ⟨p, hp⟩ := Option.ne_none_iff_exists'.mp hne
        exact (hnames _ p hp).ne_key hkey
      rw [hnone]
      rfl
    · rfl
  have hlow : ∀ k, k.recordId < System.FIRST_USER_RECORD_ID →
      (editCells m id changes CellPatch.value?).get? k = m.get? k := fun k hk =>
    hsame k (.inl (user_ne h64 hk).symm)
  have hsys : KeepsSystem m (editCells m id changes CellPatch.value?) K := keepsSystem_edited h64 changes _
  -- a cell of the patched map was there before or lies in the bound record
  have hcell : ∀ k v, (editCells m id changes CellPatch.value?).get? k = some v →
      m.get? k = some v ∨ k.recordId = id ∧ UserName k.name := by
    intro k v hv
    rw [get?_editCells] at hv
    split_ifs at hv with hrec
    · cases hp : changes.get? k.name with
      | none =>
        rw [hp] at hv
        exact .inl hv
      | some p => exact .inr ⟨hrec, hnames _ p hp⟩
    · exact .inl hv
  obtain ⟨n, hn, hn64, hbelow⟩ := h.allocator
  refine ⟨fun K' v hK' hv => ?_, fun k v hv hk => ?_, ⟨n, ?_, hn64, fun k v hv hk => ?_⟩,
    h.reserved_of hK hsys, h.params_of hsys, fun k v hv hi => ?_, h.roots_of hsys⟩
  · rw [hlow _ (by decide : System.RECORD_KEYS.id < _)] at hv
    obtain ⟨r, rfl, hr, hid'⟩ := h.bound K' v hK' hv
    exact ⟨r, rfl, hr, by rw [hsame (State.identityCell r) (.inr rfl), hid']⟩
  · rcases hcell k v hv with hv | ⟨hrec, -⟩
    · obtain ⟨K', hK', hb'⟩ := h.owned k v hv hk
      exact ⟨K', hK', by rw [hlow _ (by decide : System.RECORD_KEYS.id < _), hb']⟩
    · exact ⟨K, hK, by rw [hlow _ (by decide : System.RECORD_KEYS.id < _), hb, hrec]⟩
  · rw [hlow _ (by decide : System.ALLOC.id < _), hn]
  · rcases hcell k v hv with hv | ⟨hrec, -⟩
    · exact hbelow k v hv hk
    · rw [hrec]
      exact hbelow _ _ hid h64
  · rcases hcell k v hv with hv | ⟨hrec, huser⟩
    · exact h.attributes k v hv hi
    · exact ⟨by rw [hrec]; exact h64, huser⟩

/-- **A deletion keeps the invariant.** -/
theorem Consistent.deleted {id : U64} (hb : m.get? (State.binding K) = some (CellValue.fromU64 id)) :
    Consistent c (deleted m id K) := by
  obtain ⟨r, hr, h64, hid⟩ := h.bound K _ hK hb
  obtain rfl := CellValue.fromU64_inj hr
  have hsame : ∀ k, k.recordId ≠ id → k ≠ State.binding K →
      (Records.deleted m id K).get? k = m.get? k := by
    intro k h1 h2
    rw [get?_deleted, if_neg (by tauto)]
  have hsub : ∀ k v, (Records.deleted m id K).get? k = some v →
      m.get? k = some v ∧ k.recordId ≠ id ∧ k ≠ State.binding K := by
    intro k v hv
    rw [get?_deleted] at hv
    split_ifs at hv with hc
    exact ⟨hv, not_or.mp hc⟩
  have hsys : KeepsSystem m (Records.deleted m id K) K := keepsSystem_deleted h64
  obtain ⟨n, hn, hn64, hbelow⟩ := h.allocator
  refine ⟨fun K' v hK' hv => ?_, fun k v hv hk => ?_, ⟨n, ?_, hn64, fun k v hv hk => ?_⟩,
    h.reserved_of hK hsys, h.params_of hsys, fun k v hv hi => ?_, h.roots_of hsys⟩
  · obtain ⟨hv, -, hne⟩ := hsub _ v hv
    obtain ⟨r, rfl, hr, hid'⟩ := h.bound K' v hK' hv
    refine ⟨r, rfl, hr, ?_⟩
    rw [hsame _ ?_ (identity_ne_binding r K), hid']
    -- another key's record is another record
    rintro rfl
    rw [show State.identityCell (State.identityCell r).recordId = State.identityCell r from rfl, hid'] at hid
    exact hne (by rw [CellValue.fromBytes32_inj (Option.some.inj hid)])
  · obtain ⟨hv, hrec, -⟩ := hsub k v hv
    obtain ⟨K', hK', hb'⟩ := h.owned k v hv hk
    refine ⟨K', hK', ?_⟩
    rw [hsame _ (user_ne h64 (by decide : System.RECORD_KEYS.id < _)).symm, hb']
    intro he
    rw [he, hb] at hb'
    exact hrec (CellValue.fromU64_inj (Option.some.inj hb')).symm
  · rw [hsame _ (user_ne h64 (by decide : System.ALLOC.id < _)).symm
      (key_ne (by decide : System.ALLOC.id ≠ System.RECORD_KEYS.id)), hn]
  · exact hbelow k v (hsub k v hv).1 hk
  · exact h.attributes k v (hsub k v hv).1 hi

end Keep

/-! ### Groups -/

/-- The three mutations. -/
inductive Mutation where
  | create (key : RecordKey) (values : RecordCells)
  | patch (key : RecordKey) (changes : RecordPatch)
  | delete (key : RecordKey)

namespace Mutation

def key : Mutation → RecordKey
  | create key _ => key
  | patch key _ => key
  | delete key => key

/-- The group of a mutation, without its result. -/
def group : Mutation → CellOperation RecordError Unit
  | create key values => do let _ ← createGroup key values
  | patch key changes => patchGroup key changes
  | delete key => deleteGroup key

/-- The map a mutation leaves: consistent, with the frozen cells in place, and what is new in it
was written by the mutation. -/
structure Edited (c : CommitId) (l : CellLimits) (m m' : CellMap) : Prop where
  consistent : Consistent c m'
  frozen : Frozen m m'
  written : ∀ k v, m'.get? k = some v → m.get? k = some v ∨ Written l k v

/-- **A mutation of a consistent map** is sane, and edits the map where it succeeds. -/
theorem group_spec {c : CommitId} {m : CellMap} (h : Consistent c m) {l : CellLimits} (hl : HasLimits m l)
    (u : Mutation) (hK : System.byKey u.key = none) :
    Sane (u.group.runOn m).1 ∧ ∀ a m', Prog.Runs u.group.runOn m a m' → Edited c l m m' := by
  have herror : ∀ {e : RecordError}, u.group.runOn m = (.error (.error e), m) →
      (∀ text, e ≠ .corruptState text) →
      Sane (u.group.runOn m).1 ∧ ∀ a m', Prog.Runs u.group.runOn m a m' → Edited c l m m' := by
    intro e he hne
    refine ⟨by rw [he]; exact sane_error hne, fun a m' hr => ?_⟩
    cases congrArg Prod.fst (he.symm.trans hr)
  have hok : ∀ {m₁ : CellMap}, u.group.runOn m = (.ok (), m₁) → Edited c l m m₁ →
      Sane (u.group.runOn m).1 ∧ ∀ a m', Prog.Runs u.group.runOn m a m' → Edited c l m m' := by
    intro m₁ he hc
    refine ⟨by rw [he]; exact sane_ok (), fun a m' hr => ?_⟩
    obtain rfl : m₁ = m' := congrArg Prod.snd (he.symm.trans hr)
    exact hc
  cases u with
  | create K values =>
    rcases h.create_cases hl K values with ⟨e, he, hne⟩ | ⟨n, next, he, -, h64, hbelow, hs, hfree, hvalid⟩
    · exact herror (on_bind_error he) hne
    · refine hok (on_bind he) ⟨h.created hK h64 hbelow hs hfree fun name v hv => (validate_user (hvalid name v hv)).1,
        (keepsSystem_created h64 hbelow).frozen hK, fun k v hv => ?_⟩
      rw [get?_created h64 hbelow] at hv
      split_ifs at hv with h1 h2 h3 h4
      · obtain rfl := Option.some.inj hv
        exact .inr (h1 ▸ .allocator _)
      · obtain rfl := Option.some.inj hv
        exact .inr (h2 ▸ .binding _ _)
      · obtain rfl := Option.some.inj hv
        exact .inr (h3 ▸ .identity _ _)
      · exact .inr (.cell k.recordId k.name v (hvalid _ v hv))
      · exact .inl hv
  | patch K changes =>
    rcases h.patch_cases hl K changes with ⟨e, he, hne⟩ | ⟨id, he, hb, hvalid⟩
    · exact herror he hne
    · obtain ⟨r, hr, h64, -⟩ := h.bound K _ hK hb
      obtain rfl := CellValue.fromU64_inj hr
      refine hok he ⟨h.patched hK hb fun name p hp => (validate_user (hvalid name p hp)).1,
        (keepsSystem_edited h64 changes _).frozen hK, fun k v hv => ?_⟩
      rw [get?_editCells] at hv
      split_ifs at hv
      · cases hp : changes.get? k.name with
        | none =>
          rw [hp] at hv
          exact .inl hv
        | some p =>
          rw [hp] at hv
          have hp' := hvalid _ p hp
          rw [show p.value? = some v from hv] at hp'
          exact .inr (.cell k.recordId k.name v hp')
      · exact .inl hv
  | delete K =>
    rcases h.delete_cases K with he | ⟨id, he, hb⟩
    · exact herror he (by simp)
    · obtain ⟨r, hr, h64, -⟩ := h.bound K _ hK hb
      obtain rfl := CellValue.fromU64_inj hr
      refine hok he ⟨h.deleted hK hb, (keepsSystem_deleted h64).frozen hK, fun k v hv => .inl ?_⟩
      rw [get?_deleted] at hv
      split_ifs at hv
      exact hv

end Mutation

/-! ### Branches -/

/-- **What a branch over a committed state shows**: a consistent map with the frozen cells of the
state, in which every other cell was written by a mutation. -/
structure Visible (c : CommitId) (base m : CellMap) : Prop where
  consistent : Consistent c m
  frozen : Frozen base m
  written : ∀ l, HasLimits base l → ∀ k v, m.get? k = some v → base.get? k = some v ∨ Written l k v

lemma Consistent.visible {c : CommitId} {base : CellMap} (h : Consistent c base) : Visible c base base :=
  ⟨h, Frozen.refl base, fun _ _ _ _ hv => .inl hv⟩

lemma Visible.mutate {c : CommitId} {base m m' : CellMap} (h : Visible c base m) {u : Mutation} {a : Unit}
    (hK : System.byKey u.key = none) (hr : Prog.Runs u.group.runOn m a m') : Visible c base m' := by
  obtain ⟨l, hl⟩ := h.consistent.limits
  have he := (u.group_spec h.consistent hl hK).2 a m' hr
  refine ⟨he.consistent, h.frozen.trans he.frozen, fun l' hl' k v hv => ?_⟩
  rcases ((u.group_spec h.consistent (h.frozen.limits hl') hK).2 a m' hr).written k v hv with hv | hv
  · exact h.written l' hl' k v hv
  · exact .inr hv

/-! ### Publication -/

/-- Publishing the roots of the head keeps the invariant under the next commit number. -/
theorem Consistent.committed {c c' : CommitId} {m : CellMap} (h : Consistent c m) (hs : checkedSucc c = some c')
    (head : Head) :
    Consistent c' (m.insert (rootsKey c) (rootsValue head)) := by
  have hlt : c < c' := by
    unfold checkedSucc at hs
    split_ifs at hs
    obtain rfl := Option.some.inj hs
    exact Fin.lt_def.mpr (Nat.lt_succ_self _)
  have hsame : ∀ k, k.recordId ≠ System.ROOTS.id → (m.insert (rootsKey c) (rootsValue head)).get? k = m.get? k := by
    intro k hk
    rw [OrdMap.get?_insert, if_neg (key_ne hk)]
  have huser : ∀ k, System.FIRST_USER_RECORD_ID ≤ k.recordId →
      (m.insert (rootsKey c) (rootsValue head)).get? k = m.get? k := fun k hk =>
    hsame k (user_ne hk (by decide : System.ROOTS.id < _))
  have hbind : ∀ K, (m.insert (rootsKey c) (rootsValue head)).get? (State.binding K)
      = m.get? (State.binding K) := fun K => hsame _ (by decide : System.RECORD_KEYS.id ≠ System.ROOTS.id)
  obtain ⟨n, hn, hn64, hbelow⟩ := h.allocator
  refine ⟨fun K v hK hv => ?_, fun k v hv hk => ?_, ⟨n, ?_, hn64, fun k v hv hk => ?_⟩,
    fun s hm => ?_, fun name hname => ?_, fun k v hv hi => ?_, fun i hi => ?_⟩
  · rw [hbind] at hv
    obtain ⟨r, rfl, hr, hid⟩ := h.bound K v hK hv
    exact ⟨r, rfl, hr, by rw [huser (State.identityCell r) hr, hid]⟩
  · rw [huser k hk] at hv
    obtain ⟨K, hK, hb⟩ := h.owned k v hv hk
    exact ⟨K, hK, by rw [hbind, hb]⟩
  · rw [hsame _ (by decide : System.ALLOC.id ≠ System.ROOTS.id), hn]
  · rw [huser k hk] at hv
    exact hbelow k v hv hk
  · obtain ⟨h1, h2⟩ := h.reserved s hm
    refine ⟨by rw [hbind, h1], ?_⟩
    rw [OrdMap.get?_insert, if_neg, h2]
    intro he
    have hname : Reserved.KEY = c.toBeBytes := congrArg CellKey.name he
    have hlen : Reserved.KEY.length = 8 := by rw [hname, U64.toBeBytes_length]
    exact absurd hlen (by decide)
  · rw [hsame _ (by decide : System.PARAMS.id ≠ System.ROOTS.id)]
    exact h.params name hname
  · rw [OrdMap.get?_insert] at hv
    split_ifs at hv
    · obtain rfl := Option.some.inj hv
      cases hi
    · exact h.attributes k v hv hi
  · rw [OrdMap.get?_insert] at hi
    split_ifs at hi with he
    · have hname : i.toBeBytes = c.toBeBytes := congrArg CellKey.name he
      rw [U64.toBeBytes_inj hname]
      exact hlt
    · exact lt_trans (h.roots i hi) hlt

end GolemDb.Records
