import GolemDb.Records.Crud
import GolemDb.Branch.Groups
import GolemDb.Branch.Publish

/-!
The identity of records. In a consistent map of cells the bindings of user keys and the `#key`
cells of user records agree, every cell of a user record belongs to a bound one, and the allocator
is above every record in use. The reserved records, the parameters and the index names of the
attributes are part of the invariant, too. No read of a consistent map reports a corrupt state.
-/

namespace GolemDb.Records

open GolemDb.Lib GolemDb.Storage GolemDb.Merkle GolemDb.Cells GolemDb.Index GolemDb.Branch

/-! ### The invariant -/

/-- The names of the `#params` cells the record layer reads. -/
def limitNames : List CellName :=
  [Reserved.MAX_CELL_NAME_LEN, Reserved.MAX_STR_LEN, Reserved.MAX_BYTES_LEN]

/-- **A consistent map of cells** over a head with the commit number `c`. -/
structure Consistent (c : CommitId) (m : CellMap) : Prop where
  /-- A bound user key names a user record with that key. -/
  bound : ∀ K v, System.byKey K = none → m.get? (State.binding K) = some v →
    ∃ r, v = CellValue.fromU64 r ∧ System.FIRST_USER_RECORD_ID ≤ r ∧
      m.get? (State.identityCell r) = some (CellValue.fromBytes32 K)
  /-- Every cell of a user record belongs to a bound record. -/
  owned : ∀ k v, m.get? k = some v → System.FIRST_USER_RECORD_ID ≤ k.recordId →
    ∃ K, System.byKey K = none ∧ m.get? (State.binding K) = some (CellValue.fromU64 k.recordId)
  /-- The allocator is above every user record. -/
  allocator : ∃ n, m.get? State.allocatorKey = some (CellValue.fromU64 n) ∧
    System.FIRST_USER_RECORD_ID ≤ n ∧
    ∀ k v, m.get? k = some v → System.FIRST_USER_RECORD_ID ≤ k.recordId → k.recordId < n
  /-- The reserved records are in place. -/
  reserved : ∀ s ∈ System.ALL, m.get? (State.binding s.key) = some (CellValue.fromU64 s.id) ∧
    m.get? (State.identityCell s.id) = some (CellValue.fromBytes32 s.key)
  params : ∀ name ∈ limitNames, ∃ n, m.get? ⟨System.PARAMS.id, name⟩ = some (CellValue.fromU32 n)
  /-- Attributes belong to user records and have user names. -/
  attributes : ∀ k v, m.get? k = some v → v.indexable = true →
    System.FIRST_USER_RECORD_ID ≤ k.recordId ∧ UserName k.name
  /-- Only the roots of commits before the head are kept. -/
  roots : ∀ i, m.get? (rootsKey i) ≠ none → i < c

/-! ### Groups on a map -/

section Eval

variable {α β : Type} {m m' : CellMap} {op : CellOperation RecordError α}
  {f : α → CellOperation RecordError β}

lemma on_bind {a : α} (h : op.runOn m = (.ok a, m')) : (op >>= f).runOn m = (f a).runOn m' := by
  have he : op.runOn.exec m = (.ok a, m') := h
  rw [CellOperation.runOn_bind]
  show Prog.exec _ m = _
  rw [Prog.exec_bind, he]
  rfl

lemma on_bind_error {e : Fault RecordError} (h : op.runOn m = (.error e, m')) :
    (op >>= f).runOn m = (.error e, m') := by
  have he : op.runOn.exec m = (.error e, m') := h
  rw [CellOperation.runOn_bind]
  show Prog.exec _ m = _
  rw [Prog.exec_bind, he]

lemma on_get (k : CellKey) (m : CellMap) : (View.get k).runOn m = (.ok (m.get? k), m) := rfl

lemma on_put (k : CellKey) (v : CellValue) (m : CellMap) :
    (View.put k v).runOn m = (.ok (), m.insert k v) := rfl

lemma on_delete (k : CellKey) (m : CellMap) : (View.delete k).runOn m = (.ok (), m.erase k) := rfl

lemma on_scan (id : U64) (m : CellMap) : (View.scanPrefix id.toBeBytes).runOn m =
    (.ok ((m.entries.filter fun e => e.1.recordId = id).map .ok), m) := by
  show (Except.ok ((m.entries.filter fun e => id.toBeBytes.isPrefixOf e.1.encode).map
    (Except.ok : _ → ScanItem)), m) = _
  congr 3
  refine List.filter_congr fun e _ => ?_
  rw [Bool.eq_iff_iff, List.isPrefixOf_iff_prefix, decide_eq_true_eq]
  exact CellKey.prefix_encode_iff

lemma on_lift_ok {r : Except RecordError α} {a : α} (h : r = .ok a) :
    (View.lift r).runOn m = (.ok a, m) := by
  rw [h]
  rfl

lemma on_lift_error {r : Except RecordError α} {e : RecordError} (h : r = .error e) :
    (View.lift r).runOn m = (.error (.error e), m) := by
  rw [h]
  rfl

end Eval

/-! ### Reads of a consistent map -/

/-- The record id a key is bound to. -/
def boundId (m : CellMap) (K : RecordKey) : Option U64 :=
  (m.get? (State.binding K)).bind State.fieldU64

lemma fieldU64_fromU64 (n : U64) : State.fieldU64 (CellValue.fromU64 n) = some n := by
  simp [State.fieldU64]

lemma byKey_some {K : RecordKey} {s : System.SystemRecord} (h : System.byKey K = some s) :
    s ∈ System.ALL ∧ s.key = K :=
  ⟨List.mem_of_find?_eq_some h, by simpa using List.find?_some h⟩

lemma boundId_eq {m : CellMap} {K : RecordKey} {r : U64} :
    boundId m K = some r ↔ m.get? (State.binding K) = some (CellValue.fromU64 r) := by
  constructor
  · intro hb
    obtain ⟨v, hv, hr⟩ := Option.bind_eq_some_iff.mp hb
    rw [hv]
    unfold State.fieldU64 at hr
    obtain ⟨h1, h2⟩ := Option.filter_eq_some_iff.mp hr
    rw [CellValue.eq_fromU64 h1 (by simpa using h2)]
  · intro hv
    rw [boundId, hv, Option.bind_some, fieldU64_fromU64]

/-- The limits the `#params` cells hold. -/
structure HasLimits (m : CellMap) (l : CellLimits) : Prop where
  name : m.get? ⟨System.PARAMS.id, Reserved.MAX_CELL_NAME_LEN⟩ = some (CellValue.fromU32 l.maxCellNameLen)
  str : m.get? ⟨System.PARAMS.id, Reserved.MAX_STR_LEN⟩ = some (CellValue.fromU32 l.maxStrLen)
  bytes : m.get? ⟨System.PARAMS.id, Reserved.MAX_BYTES_LEN⟩ = some (CellValue.fromU32 l.maxBytesLen)

lemma on_readLimit {m : CellMap} {name : CellName} {n : U32}
    (hv : m.get? ⟨System.PARAMS.id, name⟩ = some (CellValue.fromU32 n)) :
    (State.readLimit name).runOn m = (.ok n, m) := by
  unfold State.readLimit
  rw [on_bind (on_get _ m), hv]
  simp only [CellValue.asU32_fromU32, CellValue.fromU32_indexable, Bool.not_false, Option.filter_some_pos]
  rfl

lemma on_limits {m : CellMap} {l : CellLimits} (h : HasLimits m l) : State.limits.runOn m = (.ok l, m) := by
  unfold State.limits
  rw [on_bind (on_readLimit h.name), on_bind (on_readLimit h.str), on_bind (on_readLimit h.bytes)]
  rfl

section Reads

variable {c : CommitId} {m : CellMap} (h : Consistent c m)

include h

/-- A binding, reserved or not, names a record with the key. -/
lemma Consistent.identity {K : RecordKey} {v : CellValue} (hv : m.get? (State.binding K) = some v) :
    ∃ r, v = CellValue.fromU64 r ∧ m.get? (State.identityCell r) = some (CellValue.fromBytes32 K) ∧
      State.recordId K (some v) = .ok (some r) := by
  unfold State.recordId
  cases hk : System.byKey K with
  | some s =>
    obtain ⟨hs, rfl⟩ := byKey_some hk
    obtain ⟨h1, h2⟩ := h.reserved s hs
    rw [h1] at hv
    obtain rfl := Option.some.inj hv
    exact ⟨s.id, rfl, h2, by simp [fieldU64_fromU64]⟩
  | none =>
    obtain ⟨r, rfl, hr, hid⟩ := h.bound K v hk hv
    refine ⟨r, rfl, hid, ?_⟩
    simp only [fieldU64_fromU64]
    rw [if_neg (not_lt.mpr hr)]

/-- **Resolving a key** reads its binding and never fails. -/
lemma Consistent.resolve (K : RecordKey) : (State.resolve K).runOn m = (.ok (boundId m K), m) := by
  unfold State.resolve
  rw [on_bind (on_get _ m)]
  cases hv : m.get? (State.binding K) with
  | none =>
    have hnone : System.byKey K = none := by
      by_contra hne
      obtain ⟨s, hs⟩ := Option.ne_none_iff_exists'.mp hne
      obtain ⟨hmem, rfl⟩ := byKey_some hs
      rw [(h.reserved s hmem).1] at hv
      cases hv
    rw [on_bind (on_lift_ok (a := none) (by simp [State.recordId, hnone])), boundId, hv]
    rfl
  | some v =>
    obtain ⟨r, rfl, hid, hrec⟩ := h.identity hv
    rw [on_bind (on_lift_ok hrec)]
    simp only
    rw [on_bind (on_get _ m), hid, on_bind (on_lift_ok (a := ()) (by
      simp [State.checkIdentity, State.identityKey])), boundId_eq.mpr hv]
    rfl

lemma Consistent.limits : ∃ l, HasLimits m l := by
  obtain ⟨a, ha⟩ := h.params Reserved.MAX_CELL_NAME_LEN (by simp [limitNames])
  obtain ⟨b, hb⟩ := h.params Reserved.MAX_STR_LEN (by simp [limitNames])
  obtain ⟨d, hd⟩ := h.params Reserved.MAX_BYTES_LEN (by simp [limitNames])
  exact ⟨⟨a, b, d⟩, ha, hb, hd⟩

end Reads

/-! ### Sane outcomes -/

/-- Neither a panic nor a report of a corrupt state. -/
def Sane {α : Type} (r : Except (Fault RecordError) α) : Prop :=
  r ≠ .error .panic ∧ ∀ text, r ≠ .error (.error (.corruptState text))

lemma sane_ok {α : Type} (a : α) : Sane (.ok a) := ⟨by simp, by simp⟩

lemma sane_error {α : Type} {e : RecordError} (h : ∀ text, e ≠ .corruptState text) :
    Sane (.error (.error e) : Except (Fault RecordError) α) :=
  ⟨by simp, fun text he => h text (Fault.error.inj (Except.error.inj he))⟩

lemma allItems_ok (l : List (CellKey × CellValue)) : View.allItems (l.map .ok) = .ok l := by
  unfold View.allItems
  induction l with
  | nil => rfl
  | cons e l ih =>
    rw [List.map_cons, List.mapM_cons, ih]
    rfl

end GolemDb.Records
