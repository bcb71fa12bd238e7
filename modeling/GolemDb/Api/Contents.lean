import GolemDb.Api.Effects

/-!
Records without the cells of the engine: what users have under their keys, and the number of the next
record. Every consistent map of cells has contents (`HasContents`), and a mutation of the map is the
same mutation of its contents: it fails with the same error, or both succeed and the map that is left
has the contents that are left (`mutation_contents`). It stages a cell exactly if the contents change
(`mutation_staged`).
-/

namespace GolemDb.Api

open GolemDb.Lib GolemDb.Storage GolemDb.Merkle GolemDb.Cells GolemDb.Index GolemDb.Branch GolemDb.Records

/-! ### Contents and their mutations -/

/-- **The records of users by their keys**, each with its `#key`, and the number of the next one. -/
structure Contents where
  records : OrdMap RecordKey RecordCells
  nextId : U64
deriving DecidableEq

/-- The projected cells of a record. -/
def pick (projection : Option (List CellName)) (cells : RecordCells) : RecordCells :=
  match projection with
  | some names => ⟨cells.entries.filter fun e => e.1 ∈ names, cells.sorted.filter _⟩
  | none => cells

/-- The cells of a record after a patch. -/
def patched (cells : RecordCells) (changes : RecordPatch) : RecordCells :=
  cells.overlay (changes.relabel id strictMono_id CellPatch.value?)

namespace Contents

def empty : Contents := ⟨OrdMap.empty, System.FIRST_USER_RECORD_ID⟩

/-- The record of a key. -/
def record (key : RecordKey) (projection : Option (List CellName)) (s : Contents) : Except RecordError Record :=
  match s.records.get? key with
  | none => .error .notFound
  | some cells => .ok ⟨key, pick projection cells⟩

def create (limits : CellLimits) (key : RecordKey) (values : RecordCells) (s : Contents) :
    Except RecordError Contents := do
  validateAll limits (values.entries.map fun e => (e.1, some e.2))
  if s.records.contains key then .error .alreadyExists
  else match checkedSucc s.nextId with
    | none => .error .recordIdExhausted
    | some next => return ⟨s.records.insert key (values.insert Reserved.KEY (CellValue.fromBytes32 key)), next⟩

def patch (limits : CellLimits) (key : RecordKey) (changes : RecordPatch) (s : Contents) :
    Except RecordError Contents :=
  match s.records.get? key with
  | none => .error .notFound
  | some cells => do
    validateAll limits (changes.entries.map fun e => (e.1, e.2.value?))
    return ⟨s.records.insert key (patched cells changes), s.nextId⟩

def delete (key : RecordKey) (s : Contents) : Except RecordError Contents :=
  if s.records.contains key then .ok ⟨s.records.erase key, s.nextId⟩ else .error .notFound

/-- **A mutation of the contents.** -/
def mutate (limits : CellLimits) (u : Mutation) (s : Contents) : Except RecordError Contents :=
  match u with
  | .create key values => create limits key values s
  | .patch key changes => patch limits key changes s
  | .delete key => delete key s

end Contents

/-! ### The contents of a map of cells -/

/-- **A map of cells with the contents.** -/
structure HasContents (m : CellMap) (s : Contents) : Prop where
  records : ∀ K, System.byKey K = none → s.records.get? K = (boundId m K).map fun id => projected m id none
  users : ∀ K, System.byKey K ≠ none → s.records.get? K = none
  next : m.get? State.allocatorKey = some (CellValue.fromU64 s.nextId)

lemma get?_pick (projection : Option (List CellName)) (cells : RecordCells) (name : CellName)
    [Decidable (Projects projection name)] :
    (pick projection cells).get? name = if Projects projection name then cells.get? name else none := by
  cases projection with
  | none =>
    have hall : Projects none name := fun names hn => by cases hn
    exact (if_pos hall).symm
  | some names =>
    have hiff : Projects (some names) name ↔ name ∈ names :=
      ⟨fun h => h names rfl, fun h names' hn => by obtain rfl := Option.some.inj hn; exact h⟩
    refine Option.ext fun v => ?_
    rw [← OrdMap.mem_entries]
    show (name, v) ∈ List.filter _ _ ↔ _
    rw [List.mem_filter, OrdMap.mem_entries, decide_eq_true_eq]
    by_cases hn : name ∈ names
    · rw [if_pos (hiff.mpr hn)]
      simp [hn]
    · rw [if_neg fun h => hn (hiff.mp h)]
      simp [hn]

lemma get?_patched (cells : RecordCells) (changes : RecordPatch) (name : CellName) :
    (patched cells changes).get? name = ((changes.get? name).map CellPatch.value?).getD (cells.get? name) := by
  have hrelabel : (changes.relabel id strictMono_id CellPatch.value?).get? name
      = (changes.get? name).map CellPatch.value? :=
    OrdMap.get?_relabel name
  rw [patched, OrdMap.get?_overlay]
  exact congrArg (Option.getD · (cells.get? name)) hrelabel

/-- All cells of a record. -/
lemma get?_projected_none (m : CellMap) (id : U64) (name : CellName) :
    (projected m id none).get? name = m.get? ⟨id, name⟩ := by
  classical
  have hall : Projects none name := fun names hn => by cases hn
  rw [get?_projected, if_pos hall]

lemma pick_projected (m : CellMap) (id : U64) (projection : Option (List CellName)) :
    pick projection (projected m id none) = projected m id projection := by
  classical
  refine OrdMap.ext_get fun name => ?_
  rw [get?_pick, get?_projected_none, get?_projected]

/-- A map has one contents. -/
lemma HasContents.unique {m : CellMap} {s s' : Contents} (h : HasContents m s) (h' : HasContents m s') : s = s' := by
  have hrecords : s.records = s'.records := by
    refine OrdMap.ext_get fun K => ?_
    by_cases hK : System.byKey K = none
    · rw [h.records K hK, h'.records K hK]
    · rw [h.users K hK, h'.users K hK]
  have hnext : s.nextId = s'.nextId := CellValue.fromU64_inj (Option.some.inj (h.next.symm.trans h'.next))
  cases s
  cases s'
  simp_all

section Reads

variable {c : CommitId} {m : CellMap} {s : Contents} {K : RecordKey}

lemma HasContents.contains (h : HasContents m s) (hK : System.byKey K = none) :
    s.records.contains K = (boundId m K).isSome := by
  rw [OrdMap.contains, h.records K hK, Option.isSome_map]

/-- **The record of a user key is that of the contents.** -/
lemma HasContents.recordOf (h : HasContents m s) (hm : Consistent c m) (hK : System.byKey K = none)
    (projection : Option (List CellName)) : Records.recordOf m K projection = s.record K projection := by
  rw [hm.recordOf, Contents.record, h.records K hK]
  cases boundId m K with
  | none => rfl
  | some id => simp only [Option.map_some, pick_projected]

end Reads

/-! ### What a patch stages -/

section Staging

variable {ε α β : Type}

/-- A snapshot runs one group after another. -/
lemma runRef_bind (op : CellOperation ε α) (f : α → CellOperation ε β) : ∀ (x : Snapshot × Bool),
    (op >>= f).runRef x = match op.runRef x with
      | (.ok a, x') => (f a).runRef x'
      | (.error e, x') => (.error e, x') := by
  show ∀ x, (op.bind f).runRef x = _
  induction op with
  | done r => exact fun x => by cases r <;> rfl
  | panic => exact fun x => rfl
  | get key next ih => exact fun x => ih _ x
  | scan pfx next ih => exact fun x => ih _ x
  | set key value next ih => exact fun x => ih _

/-- A group that was not seen to write has written nothing. -/
lemma runRef_unwritten (op : CellOperation ε α) : ∀ (x : Snapshot × Bool), (op.runRef x).2.2 = false →
    (op.runRef x).2 = x := by
  induction op with
  | done r => exact fun x _ => by cases r <;> rfl
  | panic => exact fun x _ => rfl
  | get key next ih => exact fun x h => ih _ x h
  | scan pfx next ih => exact fun x h => ih _ x h
  | set key value next ih =>
    intro x h
    have := congrArg Prod.snd (ih (x.1.set key value, true) h)
    rw [show (next.runRef (x.1.set key value, true)).2.2 = false from h] at this
    cases this

/-- The group stages no cell. -/
def ReadOnly : CellOperation ε α → Prop
  | .done _ => True
  | .panic => True
  | .get _ next => ∀ r, ReadOnly (next r)
  | .scan _ next => ∀ r, ReadOnly (next r)
  | .set .. => False

lemma ReadOnly.bind {op : CellOperation ε α} {f : α → CellOperation ε β} (h : ReadOnly op) (hf : ∀ a, ReadOnly (f a)) :
    ReadOnly (op >>= f) := by
  show ReadOnly (op.bind f)
  induction op with
  | done r =>
    cases r with
    | ok a => exact hf a
    | error e => trivial
  | panic => trivial
  | get key next ih => exact fun r => ih r (h r)
  | scan pfx next ih => exact fun r => ih r (h r)
  | set key value next ih => cases h

lemma ReadOnly.runRef {op : CellOperation ε α} (h : ReadOnly op) : ∀ x : Snapshot × Bool, (op.runRef x).2 = x := by
  induction op with
  | done r => exact fun x => by cases r <;> rfl
  | panic => exact fun x => rfl
  | get key next ih => exact fun x => ih _ (h _) x
  | scan pfx next ih => exact fun x => ih _ (h _) x
  | set key value next ih => cases h

end Staging

lemma readOnly_get (key : CellKey) : ReadOnly (View.get key) := fun _ => trivial

lemma readOnly_lift {α : Type} (r : Except RecordError α) : ReadOnly (View.lift r) := trivial

lemma readOnly_resolve (K : RecordKey) : ReadOnly (State.resolve K) := by
  refine (readOnly_get _).bind fun v => (readOnly_lift _).bind fun id => ?_
  cases id with
  | none => trivial
  | some id => exact (readOnly_get _).bind fun v => (readOnly_lift _).bind fun u => trivial

lemma readOnly_readLimit (name : CellName) : ReadOnly (State.readLimit name) := by
  refine (readOnly_get _).bind fun v => ?_
  cases v with
  | none => trivial
  | some value =>
    simp only
    cases value.asU32.filter fun _ => !value.indexable <;> trivial

lemma readOnly_limits : ReadOnly State.limits :=
  (readOnly_readLimit _).bind fun _ => (readOnly_readLimit _).bind fun _ => (readOnly_readLimit _).bind fun _ => trivial

/-- Past the reads at the front of a group nothing is staged. -/
lemma ReadOnly.skip {α β : Type} {op : CellOperation RecordError α} {f : α → CellOperation RecordError β}
    (h : ReadOnly op) {x : Snapshot} (hs : ((op >>= f).runRef (x, false)).2.2 = true) :
    ∃ a, (op.runOn x.cells).1 = .ok a ∧ ((f a).runRef (x, false)).2.2 = true := by
  rw [runRef_bind] at hs
  have hkeep := h.runRef (x, false)
  have hon := (op.runRef_runOn x false).1
  rcases hr : op.runRef (x, false) with ⟨e | a, x'⟩
  · rw [hr] at hs hkeep
    obtain rfl : x' = (x, false) := hkeep
    cases hs
  · rw [hr] at hs hkeep hon
    obtain rfl : x' = (x, false) := hkeep
    exact ⟨a, hon.symm, hs⟩

/-- **A patch that stages a cell changes one**: of the edits of distinct names one differs from what was there. -/
lemma patchAll_staged (id : U64) : ∀ (edits : List (CellName × CellPatch)), (edits.map Prod.fst).Nodup → ∀ x : Snapshot,
    ((patchAll id edits).runRef (x, false)).2.2 = true → ∃ e ∈ edits, x.cells.get? ⟨id, e.1⟩ ≠ e.2.value? := by
  intro edits
  induction edits with
  | nil =>
    intro _ x hs
    cases hs
  | cons e edits ih =>
    intro hnodup x hs
    by_cases he : x.cells.get? ⟨id, e.1⟩ = e.2.value?
    · -- an edit that changes nothing is passed over
      have hskip : (patchCell ⟨id, e.1⟩ e.2).runRef (x, false) = (.ok (), (x, false)) := by
        unfold patchCell
        rw [runRef_bind]
        have hget : (View.get (⟨id, e.1⟩ : CellKey) : CellOperation RecordError _).runRef (x, false)
            = (.ok (x.cells.get? ⟨id, e.1⟩), (x, false)) := rfl
        rw [hget, he]
        cases e.2 with
        | set value => simp [CellPatch.value?]; rfl
        | remove => simp [CellPatch.value?]; rfl
      rw [patchAll, runRef_bind, hskip] at hs
      obtain ⟨e', he', hne⟩ := ih (List.nodup_cons.mp hnodup).2 x hs
      exact ⟨e', List.mem_cons_of_mem _ he', hne⟩
    · exact ⟨e, List.mem_cons_self .., he⟩

/-! ### Mutations of a consistent map -/

section Mutations

variable {c : CommitId} {m m' : CellMap} {s s' : Contents} {l : CellLimits} {K : RecordKey}

/-- A mutation that succeeds changes the contents under its key alone. -/
lemma HasContents.moved (h : HasContents m s) (hm : Consistent c m) (hm' : Consistent c m') (hmoved : Moved K m m')
    (hK : System.byKey K = none) (hother : ∀ K', K' ≠ K → s'.records.get? K' = s.records.get? K')
    (hown : s'.records.get? K = (boundId m' K).map fun id => projected m' id none)
    (hnext : m'.get? State.allocatorKey = some (CellValue.fromU64 s'.nextId)) : HasContents m' s' := by
  have ht := touches_of_moved hm hm' hmoved
  refine ⟨fun K' hK' => ?_, fun K' hK' => ?_, hnext⟩
  · by_cases he : K' = K
    · rw [he, hown]
    · have hbind : m'.get? (State.binding K') = m.get? (State.binding K') :=
        ht.system _ (by decide : System.RECORD_KEYS.id < _)
          (key_ne (by decide : System.RECORD_KEYS.id ≠ System.ALLOC.id))
          fun hb => he (binding_inj hb)
      rw [hother K' he, h.records K' hK', boundId, boundId, hbind]
      cases hb : (m.get? (State.binding K')).bind State.fieldU64 with
      | none => rfl
      | some id =>
        -- the cells of the other record are as they were
        have hcells := (ht.others K' id he hK' (boundId_eq.mp hb)).2
        rw [Option.map_some, Option.map_some, Option.some.injEq]
        refine OrdMap.ext_get fun name => ?_
        rw [get?_projected_none, get?_projected_none, hcells]
  · have he : K' ≠ K := fun he => hK' (he ▸ hK)
    rw [hother K' he, h.users K' hK']

/-- The result and the cells of a creation whose contents are `r`. -/
def creation (m : CellMap) (s : Contents) (K : RecordKey) (values : RecordCells) (r : Except RecordError Contents) :
    Except (Fault RecordError) RecordKey × CellMap :=
  match r with
  | .error e => (.error (.error e), m)
  | .ok s' => (.ok K, created m s.nextId s'.nextId K values)

/-- The outcome of a creation, by the contents. -/
lemma on_createGroup (h : HasContents m s) (hm : Consistent c m) (hl : HasLimits m l) (hK : System.byKey K = none)
    (values : RecordCells) : (createGroup K values).runOn m = creation m s K values (s.create l K values) := by
  obtain ⟨n, hn, h64, hbelow⟩ := hm.allocator
  obtain rfl : n = s.nextId := CellValue.fromU64_inj (Option.some.inj (hn.symm.trans h.next))
  unfold createGroup Contents.create
  rw [on_bind (on_limits hl)]
  cases validateAll l (values.entries.map fun e => (e.1, some e.2)) with
  | error e => exact on_bind_error (on_lift_error rfl)
  | ok u =>
    rw [on_bind (on_lift_ok rfl), on_bind (hm.resolve K), ok_bind, h.contains hK]
    cases boundId m K with
    | some r => rfl
    | none =>
      have hnext : State.nextId.runOn m = (checkedSucc s.nextId).elim (.error (.error .recordIdExhausted), m)
          fun next => (.ok (s.nextId, next), m) := by
        unfold State.nextId
        rw [on_bind (on_get _ m), h.next]
        simp only [fieldU64_fromU64]
        rw [if_neg (not_lt.mpr h64)]
        cases checkedSucc s.nextId <;> rfl
      cases hs : checkedSucc s.nextId with
      | none =>
        rw [hs] at hnext
        exact on_bind_error hnext
      | some next =>
        rw [hs] at hnext
        have hempty : m.entries.filter (fun e => e.1.recordId = s.nextId) = [] := by
          rw [List.filter_eq_nil_iff]
          intro e he hid
          have := get?_fresh hbelow h64 e.1 (by simpa using hid)
          rw [OrdMap.mem_entries.mp he] at this
          cases this
        simp only [Option.isSome_none, Bool.false_eq_true, if_false]
        rw [on_bind hnext]
        simp only
        rw [on_bind (on_scan _ m), hempty, on_bind (on_lift_ok (show View.anyItem _ = .ok false from rfl))]
        simp only [Bool.false_eq_true, if_false]
        rw [on_bind (on_putAll _ _ m), on_bind (on_put _ _ _), on_bind (on_put _ _ _), on_bind (on_put _ _ _)]
        rfl

/-- A creation that succeeds. -/
lemma Contents.create_ok {values : RecordCells} (h : s.create l K values = .ok s') :
    s.records.get? K = none ∧ checkedSucc s.nextId = some s'.nextId ∧
      s'.records = s.records.insert K (values.insert Reserved.KEY (CellValue.fromBytes32 K)) := by
  obtain ⟨u, -, hrest⟩ := bind_eq_ok.mp h
  split_ifs at hrest with hk
  cases hs : checkedSucc s.nextId with
  | none =>
    rw [hs] at hrest
    cases hrest
  | some next =>
    rw [hs] at hrest
    obtain rfl := pure_eq_ok.mp hrest
    exact ⟨by simpa [OrdMap.contains] using hk, rfl, rfl⟩

/-- **A mutation performed** on a map and its contents: one result, one contents after it, and where a cell was
staged the contents have changed. -/
structure Performs {α : Type} (op : CellOperation RecordError α) (a : α) (u : Mutation) (m m' : CellMap)
    (s s' : Contents) :
    Prop where
  runs : Prog.Runs op.runOn m a m'
  group : Prog.Runs u.group.runOn m () m'
  contents : HasContents m' s'
  staged : ∀ entries, (op.runRef (⟨entries, m⟩, false)).2.2 = true → s' ≠ s

/-- **The group does to the map what the mutation does to its contents**: it fails with the same error, or both
are performed. -/
def Mirrors {α : Type} (l : CellLimits) (op : CellOperation RecordError α) (a : α) (u : Mutation) (m : CellMap)
    (s : Contents) : Prop :=
  match s.mutate l u with
  | .error e => op.runOn m = (.error (.error e), m)
  | .ok s' => ∃ m', Performs op a u m m' s s'

/-- The consistent map and the moved records that a performed mutation leaves. -/
lemma moved_of_group {u : Mutation} (hm : Consistent c m) (hl : HasLimits m l) (hK : System.byKey u.key = none)
    (hr : Prog.Runs u.group.runOn m () m') : Consistent c m' ∧ Moved u.key m m' :=
  ⟨((u.group_spec hm hl hK).2 () m' hr).consistent, u.group_moved hm hK hr⟩

/-- **Creating a record.** -/
theorem create_mirrors (h : HasContents m s) (hm : Consistent c m) (hl : HasLimits m l) (hK : System.byKey K = none)
    (values : RecordCells) : Mirrors l (createGroup K values) K (.create K values) m s := by
  have hop := on_createGroup h hm hl hK values
  unfold Mirrors
  rw [show s.mutate l (.create K values) = s.create l K values from rfl]
  cases hs : s.create l K values with
  | error e =>
    rw [hs] at hop
    exact hop
  | ok s' =>
    rw [hs] at hop
    obtain ⟨hfree, hnext, hrecords⟩ := Contents.create_ok hs
    obtain ⟨n, hn, h64, hbelow⟩ := hm.allocator
    obtain rfl : n = s.nextId := CellValue.fromU64_inj (Option.some.inj (hn.symm.trans h.next))
    have hgroup : Prog.Runs (Mutation.create K values).group.runOn m ()
        (created m s.nextId s'.nextId K values) := on_bind hop
    obtain ⟨hm', hmoved⟩ : Consistent c _ ∧ Moved K m _ := moved_of_group hm hl (u := .create K values) hK hgroup
    have hget := @get?_created m K s.nextId s'.nextId values h64 hbelow
    have hbound : boundId (created m s.nextId s'.nextId K values) K = some s.nextId := by
      rw [boundId_eq, hget, if_neg (key_ne (by decide : System.RECORD_KEYS.id ≠ System.ALLOC.id)), if_pos rfl]
    refine ⟨_, hop, hgroup, h.moved hm hm' hmoved hK (fun K' he => ?_) ?_ ?_, fun entries _ he => ?_⟩
    · rw [hrecords, OrdMap.get?_insert, if_neg he]
    · rw [hrecords, OrdMap.get?_insert, if_pos rfl, hbound, Option.map_some, Option.some.injEq]
      refine OrdMap.ext_get fun name => ?_
      rw [get?_projected_none, hget, if_neg (key_ne (user_ne h64 (by decide : System.ALLOC.id < _))),
        if_neg (key_ne (user_ne h64 (by decide : System.RECORD_KEYS.id < _))), OrdMap.get?_insert]
      by_cases hname : name = Reserved.KEY
      · rw [if_pos hname, if_pos (by rw [hname]; rfl)]
      · rw [if_neg hname, if_neg fun he => hname (congrArg CellKey.name he), if_pos rfl]
    · rw [hget, if_pos rfl]
    · -- the key had no record before
      have hself : s'.records.get? K = none := by rw [he, hfree]
      rw [hrecords, OrdMap.get?_insert, if_pos rfl] at hself
      cases hself

/-- **Deleting a record.** -/
theorem delete_mirrors (h : HasContents m s) (hm : Consistent c m) (hl : HasLimits m l) (hK : System.byKey K = none) :
    Mirrors l (deleteGroup K) () (.delete K) m s := by
  unfold Mirrors
  rw [show s.mutate l (.delete K) = s.delete K from rfl, Contents.delete, h.contains hK]
  have hop : (deleteGroup K).runOn m = match boundId m K with
      | none => (.error (.error .notFound), m)
      | some id => (.ok (), deleted m id K) := by
    unfold deleteGroup
    rw [on_bind (hm.resolve K)]
    cases boundId m K with
    | none => rfl
    | some id =>
      simp only
      rw [on_bind (on_scan id m), on_bind (on_lift_ok (allItems_ok _)), on_bind (on_deleteAll _ m)]
      rfl
  cases hb : boundId m K with
  | none =>
    rw [hb] at hop
    exact hop
  | some id =>
    rw [hb] at hop
    obtain ⟨hm', hmoved⟩ : Consistent c _ ∧ Moved K m _ := moved_of_group (u := .delete K) hm hl hK hop
    have hgone : (deleted m id K).get? (State.binding K) = none := by rw [get?_deleted, if_pos (.inr rfl)]
    refine ⟨_, hop, hop, h.moved hm hm' hmoved hK (fun K' he => ?_) ?_ ?_, fun entries _ he => ?_⟩
    · show (s.records.erase K).get? K' = _
      rw [OrdMap.get?_erase, if_neg he]
    · show (s.records.erase K).get? K = _
      rw [OrdMap.get?_erase, if_pos rfl, boundId, hgone]
      rfl
    · obtain ⟨r, hr, h64, -⟩ := hm.bound K _ hK (boundId_eq.mp hb)
      obtain rfl := CellValue.fromU64_inj hr
      rw [get?_deleted, if_neg, h.next]
      rintro (he | he)
      · exact user_ne h64 (by decide : System.ALLOC.id < _) he.symm
      · exact key_ne (by decide : System.ALLOC.id ≠ System.RECORD_KEYS.id) he
    · -- the key had a record before
      have hself : (s.records.erase K).get? K = s.records.get? K := congrArg (fun s => s.records.get? K) he
      rw [OrdMap.get?_erase, if_pos rfl, h.records K hK, hb] at hself
      cases hself

/-- **Patching a record.** -/
theorem patch_mirrors (h : HasContents m s) (hm : Consistent c m) (hl : HasLimits m l) (hK : System.byKey K = none)
    (changes : RecordPatch) : Mirrors l (patchGroup K changes) () (.patch K changes) m s := by
  unfold Mirrors
  rw [show s.mutate l (.patch K changes) = s.patch l K changes from rfl, Contents.patch, h.records K hK]
  have hgo : ∀ {id}, boundId m K = some id → (patchGroup K changes).runOn m
      = (do View.lift (validateAll l (changes.entries.map fun e => (e.1, e.2.value?))); patchAll id changes.entries :
          CellOperation RecordError Unit).runOn m := by
    intro id hb
    unfold patchGroup
    rw [on_bind (hm.resolve K), hb]
    simp only
    rw [on_bind (on_limits hl)]
  cases hb : boundId m K with
  | none =>
    show (patchGroup K changes).runOn m = _
    unfold patchGroup
    rw [on_bind (hm.resolve K), hb]
    rfl
  | some id =>
    have hop := hgo hb
    simp only [Option.map_some]
    cases hv : validateAll l (changes.entries.map fun e => (e.1, e.2.value?)) with
    | error e =>
      rw [hv] at hop
      exact hop.trans (on_bind_error (on_lift_error rfl))
    | ok u =>
      rw [hv, on_bind (on_lift_ok rfl), on_patchAll] at hop
      have hrun : Prog.Runs (patchGroup K changes).runOn m () (editCells m id changes CellPatch.value?) := hop
      obtain ⟨hm', hmoved⟩ : Consistent c _ ∧ Moved K m _ := moved_of_group (u := .patch K changes) hm hl hK hrun
      obtain ⟨r, hr, h64, -⟩ := hm.bound K _ hK (boundId_eq.mp hb)
      obtain rfl := CellValue.fromU64_inj hr
      have hbind : (editCells m id changes CellPatch.value?).get? (State.binding K) = m.get? (State.binding K) := by
        have hne : (State.binding K).recordId ≠ id := (user_ne h64 (by decide : System.RECORD_KEYS.id < _)).symm
        rw [get?_editCells, if_neg hne]
      have hcells : projected (editCells m id changes CellPatch.value?) id none
          = patched (projected m id none) changes := by
        refine OrdMap.ext_get fun name => ?_
        rw [get?_projected_none, get?_editCells, if_pos rfl, get?_patched, get?_projected_none]
      refine ⟨_, hrun, hrun, h.moved hm hm' hmoved hK (fun K' he => ?_) ?_ ?_, fun entries hs he => ?_⟩
      · show (s.records.insert K _).get? K' = _
        rw [OrdMap.get?_insert, if_neg he]
      · show (s.records.insert K _).get? K = _
        rw [OrdMap.get?_insert, if_pos rfl, boundId, hbind, ← boundId, hb, Option.map_some, hcells]
      · have hne : State.allocatorKey.recordId ≠ id := (user_ne h64 (by decide : System.ALLOC.id < _)).symm
        rw [get?_editCells, if_neg hne]
        exact h.next
      · -- the edit that differs shows in the record
        obtain ⟨found, hfound, hs⟩ := (readOnly_resolve K).skip hs
        rw [hm.resolve K, hb] at hfound
        obtain rfl := Except.ok.inj hfound
        obtain ⟨limits, -, hs⟩ := readOnly_limits.skip hs
        obtain ⟨u, -, hs⟩ := (readOnly_lift _).skip hs
        obtain ⟨e, hmem, hne⟩ := patchAll_staged id changes.entries
          (List.Pairwise.map _ (fun a b hab => hab.ne) changes.sorted) _ hs
        have hself : (s.records.insert K (patched (projected m id none) changes)).get? K = s.records.get? K :=
          congrArg (fun s => s.records.get? K) he
        rw [OrdMap.get?_insert, if_pos rfl, h.records K hK, hb, Option.map_some, Option.some.injEq] at hself
        have hname := congrArg (fun cells => cells.get? e.1) hself
        simp only [get?_patched, get?_projected_none, OrdMap.mem_entries.mp hmem, Option.map_some,
          Option.getD_some] at hname
        exact hne hname.symm

end Mutations

/-! ### Genesis and publication -/

/-- Genesis holds no record of a user. -/
lemma hasContents_initial (g : Genesis) : HasContents (initialCells g) Contents.empty := by
  have hcons := initialCells_consistent g
  refine ⟨fun K hK => ?_, fun K _ => rfl, get?_initialCells.mpr (List.mem_append_right _ (by simp [Contents.empty]))⟩
  cases hb : boundId (initialCells g) K with
  | none => rfl
  | some id =>
    obtain ⟨r, hr, h64, hid⟩ := hcons.bound K _ hK (boundId_eq.mp hb)
    exact absurd (initialList_system (get?_initialCells.mp hid)) (not_lt.mpr h64)

/-- The roots of a head are no contents. -/
lemma HasContents.published {m : CellMap} {s : Contents} (h : HasContents m s) {c : CommitId} (hm : Consistent c m)
    (head : Head) : HasContents (m.insert (rootsKey head.commitId) (rootsValue head)) s := by
  have hsame : ∀ k : CellKey, k.recordId ≠ System.ROOTS.id →
      (m.insert (rootsKey head.commitId) (rootsValue head)).get? k = m.get? k := by
    intro k hk
    rw [OrdMap.get?_insert, if_neg (key_ne hk)]
  refine ⟨fun K hK => ?_, h.users, ?_⟩
  · rw [h.records K hK, boundId, boundId, hsame _ (by decide : System.RECORD_KEYS.id ≠ System.ROOTS.id)]
    cases hb : (m.get? (State.binding K)).bind State.fieldU64 with
    | none => rfl
    | some id =>
      obtain ⟨r, hr, h64, -⟩ := hm.bound K _ hK (boundId_eq.mp hb)
      obtain rfl := CellValue.fromU64_inj hr
      rw [Option.map_some, Option.map_some, Option.some.injEq]
      refine OrdMap.ext_get fun name => ?_
      rw [get?_projected_none, get?_projected_none, hsame _ (user_ne h64 (by decide : System.ROOTS.id < _))]
  · rw [hsame _ (by decide : System.ALLOC.id ≠ System.ROOTS.id)]
    exact h.next

end GolemDb.Api
