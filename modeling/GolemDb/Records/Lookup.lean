import GolemDb.Records.Identity

/-!
The record a map of cells holds under a key. Reads of a branch and committed reads go through
different code, an overlay merge and a table scan; both return this record of the map they show.
-/

namespace GolemDb.Records

open GolemDb.Lib GolemDb.Storage GolemDb.Merkle GolemDb.Cells GolemDb.Index GolemDb.Branch

/-! ### The record of a key -/

/-- The cells of the names in a record. -/
def namedCells (m : CellMap) (id : U64) : List CellName → RecordCells → RecordCells
  | [], values => values
  | name :: names, values =>
    match m.get? ⟨id, name⟩ with
    | some value => namedCells m id names (values.insert name value)
    | none => namedCells m id names values

/-- All cells of a record, or the projected ones. -/
def projected (m : CellMap) (id : U64) : Option (List CellName) → RecordCells
  | some names => namedCells m id names OrdMap.empty
  | none => cellsOf (m.entries.filter fun e => e.1.recordId = id)

/-- The record id of a key, with its identity checked. -/
def resolveIn (m : CellMap) (K : RecordKey) : Except RecordError (Option U64) := do
  match ← State.recordId K (m.get? (State.binding K)) with
  | none => return none
  | some id =>
    State.checkIdentity K (m.get? (State.identityCell id))
    return some id

/-- **The record of a key in a map of cells.** -/
def recordOf (m : CellMap) (K : RecordKey) (projection : Option (List CellName)) : Except RecordError Record := do
  match ← resolveIn m K with
  | none => .error .notFound
  | some id => return ⟨K, projected m id projection⟩

/-- The projection has the name. -/
def Projects (projection : Option (List CellName)) (name : CellName) : Prop :=
  ∀ names, projection = some names → name ∈ names

lemma get?_namedCells (m : CellMap) (id : U64) (name : CellName) : ∀ (names : List CellName) (values : RecordCells),
    (namedCells m id names values).get? name =
      if name ∈ names then (m.get? ⟨id, name⟩).or (values.get? name) else values.get? name := by
  intro names
  induction names with
  | nil => exact fun values => rfl
  | cons n names ih =>
    intro values
    rw [namedCells]
    cases hn : m.get? ⟨id, n⟩ with
    | none =>
      simp only
      rw [ih]
      by_cases he : name = n
      · subst he
        simp [hn]
      · simp [he]
    | some v =>
      simp only
      rw [ih, OrdMap.get?_insert]
      by_cases he : name = n
      · subst he
        simp [hn]
      · simp [he]

lemma get?_cellsOf {l : List (CellKey × CellValue)} {id : U64} (hl : l.Pairwise fun a b => a.1 < b.1)
    (hid : ∀ e ∈ l, e.1.recordId = id) (name : CellName) (v : CellValue) :
    (cellsOf l).get? name = some v ↔ (⟨id, name⟩, v) ∈ l := by
  have hfold : cellsOf l = (l.map fun e => (e.1.name, e.2)).foldl (fun m e => m.insert e.1 e.2) OrdMap.empty := by
    rw [List.foldl_map]
    rfl
  have hnodup : ((l.map fun e => (e.1.name, e.2)).map Prod.fst).Nodup := by
    rw [List.map_map, List.nodup_iff_pairwise_ne, List.pairwise_map]
    refine hl.imp_of_mem fun ha hb hlt he => ?_
    have hkey : ∀ {a b : CellKey}, a.recordId = b.recordId → a.name = b.name → a = b := by
      rintro ⟨_, _⟩ ⟨_, _⟩ rfl rfl
      rfl
    rw [hkey ((hid _ ha).trans (hid _ hb).symm) he] at hlt
    exact lt_irrefl _ hlt
  rw [hfold, OrdMap.get?_foldl_insert _ hnodup]
  simp only [OrdMap.get?_empty, reduceCtorEq, and_false, or_false, List.mem_map, Prod.mk.injEq]
  constructor
  · rintro ⟨e, he, rfl, rfl⟩
    rw [← hid e he]
    exact he
  · intro he
    exact ⟨_, he, rfl, rfl⟩

open Classical in
/-- A projected record holds the map's cells of the projected names. -/
lemma get?_projected (m : CellMap) (id : U64) (projection : Option (List CellName)) (name : CellName) :
    (projected m id projection).get? name = if Projects projection name then m.get? ⟨id, name⟩ else none := by
  cases projection with
  | some names =>
    rw [projected, get?_namedCells, OrdMap.get?_empty, Option.or_none]
    exact if_congr ⟨fun h n hn => by obtain rfl := Option.some.inj hn; exact h, fun h => h names rfl⟩ rfl rfl
  | none =>
    have hall : Projects none name := fun names hn => by cases hn
    rw [if_pos hall]
    refine Option.ext fun v => ?_
    rw [projected, get?_cellsOf (m.sorted.filter _) (fun e he => by simpa using (List.mem_filter.mp he).2),
      List.mem_filter, OrdMap.mem_entries]
    simp

/-! ### The two reads -/

lemma on_getAll_eq (m : CellMap) (id : U64) : ∀ (names : List CellName) (values : RecordCells),
    (getAll id names values).runOn m = (.ok (namedCells m id names values), m) := by
  intro names
  induction names with
  | nil => exact fun values => rfl
  | cons name names ih =>
    intro values
    rw [getAll, on_bind (on_get _ m), namedCells]
    cases m.get? ⟨id, name⟩ with
    | none => exact ih values
    | some value => exact ih _

lemma on_resolve (m : CellMap) (K : RecordKey) :
    (State.resolve K).runOn m = ((resolveIn m K).mapError Fault.error, m) := by
  unfold State.resolve resolveIn
  rw [on_bind (on_get _ m)]
  cases State.recordId K (m.get? (State.binding K)) with
  | error e => rfl
  | ok found =>
    rw [on_bind (on_lift_ok rfl)]
    cases found with
    | none => rfl
    | some id =>
      simp only
      rw [on_bind (on_get _ m)]
      cases hc : State.checkIdentity K (m.get? (State.identityCell id)) with
      | error e =>
        rw [on_bind_error (on_lift_error rfl)]
        simp [hc, Bind.bind, Except.bind, Except.mapError]
      | ok u =>
        rw [on_bind (on_lift_ok rfl)]
        simp only [ok_bind, hc]
        rfl

/-- **A branch read returns the record of the visible map.** -/
theorem on_readBranchRecord (m : CellMap) (K : RecordKey) (projection : Option (List CellName)) :
    (readBranchRecord K projection).runOn m = ((recordOf m K projection).mapError Fault.error, m) := by
  have hres := on_resolve m K
  unfold readBranchRecord recordOf
  cases hid : resolveIn m K with
  | error e =>
    rw [hid] at hres
    rw [on_bind_error hres]
    rfl
  | ok found =>
    rw [hid] at hres
    rw [on_bind hres]
    cases found with
    | none => rfl
    | some id =>
      cases projection with
      | some names =>
        simp only
        rw [on_bind (on_getAll_eq m id names _)]
        rfl
      | none =>
        simp only
        rw [on_bind (on_scan id m), on_bind (on_lift_ok (allItems_ok _))]
        rfl

section Committed

variable {ρ : Type} [ReadTransaction ρ] [LawfulCursor ρ] {tx : ρ} {m : CellMap} (htx : rows tx CELL = cellRows m)

include htx

lemma readNamed_eq (id : U64) : ∀ (names : List CellName) (values : RecordCells),
    readNamed tx id names values = .ok (namedCells m id names values) := by
  intro names
  induction names with
  | nil => exact fun values => rfl
  | cons name names ih =>
    intro values
    rw [readNamed, Cells.get, readValue_cellRows htx, mapError_ok, ok_bind, namedCells]
    cases m.get? ⟨id, name⟩ with
    | none => exact ih values
    | some value => exact ih _

lemma readCells_eq (id : U64) (projection : Option (List CellName)) :
    readCells tx id projection = .ok (projected m id projection) := by
  cases projection with
  | some names => exact readNamed_eq htx id names OrdMap.empty
  | none =>
    have hall : ∀ l : List (CellKey × CellValue), (l.map Except.ok).mapM
        (fun item : Except CellError (CellKey × CellValue) => item.mapError RecordError.cells) = .ok l := by
      intro l
      induction l with
      | nil => rfl
      | cons e l ih =>
        rw [List.map_cons, List.mapM_cons, ih]
        rfl
    unfold readCells
    simp only
    rw [scanRecord_cellRows htx, mapError_ok, ok_bind, hall]
    rfl

/-- **A committed read returns the record of the committed map.** -/
theorem readCommittedByKey_eq (K : RecordKey) (projection : Option (List CellName)) :
    readCommittedByKey tx K projection = recordOf m K projection := by
  unfold readCommittedByKey recordOf resolveIn
  rw [Cells.get, readValue_cellRows htx, mapError_ok, ok_bind]
  cases State.recordId K (m.get? (State.binding K)) with
  | error e => rfl
  | ok found =>
    cases found with
    | none => rfl
    | some id =>
      simp only [ok_bind]
      rw [Cells.get, readValue_cellRows htx, mapError_ok, ok_bind, readCells_eq htx]
      cases State.checkIdentity K (m.get? (State.identityCell id)) <;> rfl

end Committed

/-! ### Consistent maps -/

section Consistent

variable {c : CommitId} {m : CellMap} (h : Consistent c m)

include h

lemma Consistent.resolveIn (K : RecordKey) : resolveIn m K = .ok (boundId m K) := by
  have hres := (h.resolve K).symm.trans (on_resolve m K)
  have hfst := congrArg Prod.fst hres
  cases he : Records.resolveIn m K with
  | error e =>
    rw [he] at hfst
    cases hfst
  | ok found =>
    rw [he] at hfst
    rw [← Except.ok.inj hfst]

/-- **A consistent map holds a record under a bound key**, and none under any other. -/
theorem Consistent.recordOf (K : RecordKey) (projection : Option (List CellName)) :
    recordOf m K projection = match boundId m K with
      | some id => .ok ⟨K, projected m id projection⟩
      | none => .error .notFound := by
  unfold Records.recordOf
  rw [h.resolveIn]
  cases boundId m K <;> rfl

/-- A read of a branch's record is sane. -/
lemma Consistent.readBranch_sane (K : RecordKey) (projection : Option (List CellName)) :
    Sane ((readBranchRecord K projection).runOn m).1 := by
  rw [on_readBranchRecord, h.recordOf]
  cases boundId m K with
  | none => exact sane_error (by simp)
  | some id => exact sane_ok _

end Consistent

end GolemDb.Records
