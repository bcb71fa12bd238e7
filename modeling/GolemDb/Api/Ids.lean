import GolemDb.Api.Steps

/-!
Record ids along a run. The commits of a run follow one another by surviving mutations, so the
allocator of a commit is no smaller than that of an earlier one, and an id that belonged to a record
of a commit belongs to that record or to none in every later one (`run_ids_fresh`).
-/

namespace GolemDb.Api

open GolemDb.Lib GolemDb.Storage GolemDb.Merkle GolemDb.Cells GolemDb.Index GolemDb.Branch GolemDb.Records

section Ids

variable {H : HashProvider} {R : Roaring} {σ : Type} [Store σ] [LawfulStore σ] {g : Genesis} {Good : StateProp}
  {hist : History} {head : Head} {db : Branches σ}

/-- What a branch shows descends from the commit it began at. -/
def Descends : ShownProp := fun c base m => Lineage (c, base) (c, m)

omit [Store σ] [LawfulStore σ] in
lemma shown_descends : Shown Descends := by
  refine ⟨fun _ => .refl, fun u hvis h hK hr => ?_⟩
  exact h.tail (.mutate u hK hr)

/-- **The commits of a run are a lineage.** -/
lemma Chain.lineage {c : CommitId} (h : Chain g hist c) (hp : PublishedBy Descends hist c) :
    ∀ j ≤ c, ∀ i ≤ j, Lineage (i, (hist i).cells) (j, (hist j).cells) := by
  refine h.induct (P := fun j v => ∀ i ≤ j, Lineage (i, (hist i).cells) (j, v.cells)) (fun i hi => ?_)
    fun j j' hs hj ih _ i hi => ?_
  · obtain rfl : i = 0 := le_antisymm hi (Fin.zero_le i)
    exact .refl
  · obtain ⟨hlt, hle⟩ := checkedSucc_lt hs
    rcases hle i hi with hi | rfl
    · obtain ⟨shown, -, hshown, hcells⟩ := hp j j' hs hj
      rw [hcells, nextCells, h.number (le_trans hlt.le hj)]
      exact ((ih i hi).trans hshown).tail (.publish _ hs)
    · exact .refl

/-- The cells a branch shows over a history. -/
def shownBy (hist : History) (st : BranchState) : CellMap := (hist st.commitId).cells.overlay st.overlay.entries

omit [Store σ] [LawfulStore σ] in
lemma withState_self (db : Branches σ) (b : BranchId) (st : BranchState) :
    (db.withState b st).branches.get? b = some st := by
  show (db.branches.insert b st).get? b = some st
  rw [OrdMap.get?_insert, if_pos rfl]

/-- The result of a creation, when the key is not reserved. -/
lemma Inv.create_wrote (h : Inv H R g Good hist head db) (b : BranchId) {K : RecordKey} (hK : System.byKey K = none)
    (values : RecordCells) : ∃ r db', Wrote (hist head.commitId).cells db head b (createGroup K values) (r, db') ∧
      (Records.create b K values).exec db = (r.mapError RecordError.ofOperation, db') := by
  have hw := write_wrote h.head_is h.cells b (createGroup K values)
  rcases hx : (Branches.write b (createGroup K values)).exec db with ⟨r, db'⟩
  rw [hx] at hw
  refine ⟨r, db', hw, ?_⟩
  rcases exec_rejectReserved K (Prog.mapError RecordError.ofOperation (Branches.write b (createGroup K values))) db with
    ⟨hne, -⟩ | ⟨-, he⟩
  · exact absurd hK hne
  · show (Prog.exec (do Prog.ofExcept (rejectReserved K); _) db) = _
    rw [he, Prog.exec_mapError, hx]

/-- **A creation takes an id that no commit before it knows.** -/
theorem Inv.create_fresh (h : Inv H R g Good hist head db) (hs : db.Each (ShowsWith Descends hist))
    (hp : PublishedBy Descends hist head.commitId) {b : BranchId} {K K' : RecordKey} {values : RecordCells}
    {db' : Branches σ} (hrun : Prog.Runs (Records.create b K values) db K' db') :
    ∃ st n, db'.branches.get? b = some st ∧ st.commitId = head.commitId ∧
      (shownBy hist st).get? (State.binding K) = some (CellValue.fromU64 n) ∧
      ∀ i ≤ head.commitId, ∀ k v, (hist i).cells.get? k = some v → k.recordId ≠ n := by
  have hK : System.byKey K = none := by
    rcases exec_rejectReserved K (Prog.mapError RecordError.ofOperation (Branches.write b (createGroup K values))) db
      with
      ⟨-, he⟩ | ⟨hK, -⟩
    · cases congrArg Prod.fst (he.symm.trans hrun)
    · exact hK
  obtain ⟨r, db₁, hw, he⟩ := h.create_wrote b hK values
  obtain ⟨hr, rfl⟩ := Prod.mk.inj (he.symm.trans hrun)
  cases hw with
  | absent => cases hr
  | stale => cases hr
  | kept => cases hr
  | done st o a hb hc hopen hgroup =>
    have hst := (hs b st hb).visible
    rw [hc] at hst
    obtain ⟨hvis, hline⟩ := hst
    obtain ⟨l, hl⟩ := hvis.consistent.limits
    rcases hvis.consistent.create_cases hl K values with ⟨e, hfail, -⟩ | ⟨n, next, hok, hn, h64, hbelow, hsucc, -, -⟩
    · cases congrArg Prod.fst (hfail.symm.trans hgroup)
    · obtain ⟨-, hcells⟩ := Prod.mk.inj (hok.symm.trans hgroup)
      refine ⟨⟨st.commitId, o, none⟩, n, withState_self .., hc, ?_, fun i hi k v hv => ?_⟩
      · rw [shownBy]
        simp only [hc]
        rw [← hcells, get?_created h64 hbelow,
          if_neg (key_ne (by decide : System.RECORD_KEYS.id ≠ System.ALLOC.id)), if_pos rfl]
      · -- the allocator of the branch is no smaller than the commit's
        have hcons := h.chain.consistent i hi
        obtain ⟨-, nᵢ, n', hnᵢ, hn', hle, -⟩ := Lineage.aged ((h.chain.lineage hp _ le_rfl i hi).trans hline) hcons
        obtain rfl := CellValue.fromU64_inj (Option.some.inj (hn.symm.trans hn'))
        by_cases hk : System.FIRST_USER_RECORD_ID ≤ k.recordId
        · obtain ⟨m, hm, -, hlt⟩ := hcons.allocator
          obtain rfl := CellValue.fromU64_inj (Option.some.inj (hm.symm.trans hnᵢ))
          exact (lt_of_lt_of_le (hlt k v hv hk) hle).ne
        · exact (lt_of_lt_of_le (not_le.mp hk) h64).ne

/-- **The allocator does not wrap.** -/
theorem Inv.create_exhausted (h : Inv H R g Good hist head db) {b : BranchId} {st : BranchState}
    (hb : db.branches.get? b = some st) (hc : st.commitId = head.commitId) {n : U64}
    (hn : (shownBy hist st).get? State.allocatorKey = some (CellValue.fromU64 n)) (hmax : checkedSucc n = none)
    (K : RecordKey) (values : RecordCells) :
    (∀ K' db', ¬ Prog.Runs (Records.create b K values) db K' db') ∧
    (st.sealed = none → System.byKey K = none → (shownBy hist st).get? (State.binding K) = none →
      (∀ l, HasLimits (shownBy hist st) l → ∀ name v, values.get? name = some v → validate l name (some v) = .ok ()) →
      ((Records.create b K values).exec db).1 = .error .recordIdExhausted) := by
  have hvis := (h.branches b st hb).working.visible
  have hshown : (hist head.commitId).cells.overlay st.overlay.entries = shownBy hist st := by rw [shownBy, hc]
  obtain ⟨l, hl⟩ := hvis.consistent.limits
  constructor
  · intro K' db' hrun
    have hK : System.byKey K = none := by
      rcases exec_rejectReserved K (Prog.mapError RecordError.ofOperation (Branches.write b (createGroup K values))) db
        with
        ⟨-, he⟩ | ⟨hK, -⟩
      · cases congrArg Prod.fst (he.symm.trans hrun)
      · exact hK
    obtain ⟨r, db₁, hw, he⟩ := h.create_wrote b hK values
    obtain ⟨hr, rfl⟩ := Prod.mk.inj (he.symm.trans hrun)
    cases hw with
    | absent => cases hr
    | stale => cases hr
    | kept => cases hr
    | done st' o a hb' hc' hopen hgroup =>
      obtain rfl := Option.some.inj (hb.symm.trans hb')
      rw [hshown] at hgroup
      rcases hvis.consistent.create_cases hl K values with ⟨e, hfail, -⟩ | ⟨n', next, -, hn', -, -, hsucc, -, -⟩
      · cases congrArg Prod.fst (hfail.symm.trans hgroup)
      · obtain rfl := CellValue.fromU64_inj (Option.some.inj (hn.symm.trans hn'))
        rw [hmax] at hsucc
        cases hsucc
  · intro hopen hK hfree hvalid
    obtain ⟨r, db₁, hw, he⟩ := h.create_wrote b hK values
    rw [he]
    have hfail := hvis.consistent.create_exhausted hl hn hmax hfree (hvalid l hl)
    cases hw with
    | absent _ hnone =>
      rw [hb] at hnone
      cases hnone
    | stale st' _ hb' hc' =>
      obtain rfl := Option.some.inj (hb.symm.trans hb')
      exact absurd hc hc'
    | kept st' e hb' hc' hwhy =>
      obtain rfl := Option.some.inj (hb.symm.trans hb')
      obtain ⟨fault, hfault, rfl⟩ := hwhy hopen
      rw [hshown] at hfault
      obtain rfl := Except.error.inj ((congrArg Prod.fst hfail).symm.trans hfault)
      rfl
    | done st' o a hb' hc' _ hgroup =>
      obtain rfl := Option.some.inj (hb.symm.trans hb')
      rw [hshown] at hgroup
      cases congrArg Prod.fst (hfail.symm.trans hgroup)

/-- **One incarnation**: the id holds the key at both states, and in every state of a lineage between them. -/
def SameRecord (hist : History) (i j : CommitId) (r : U64) (key : CellValue) : Prop :=
  keyOf (hist j).cells r = some key ∧ ∀ x, Lineage (i, (hist i).cells) x → Lineage x (j, (hist j).cells) →
    keyOf x.2 r = some key

/-- From a commit on the id has no cell. -/
def Burned (hist : History) (last j : CommitId) (r : U64) : Prop :=
  ∀ j', j ≤ j' → j' ≤ last → ∀ k : CellKey, k.recordId = r → (hist j').cells.get? k = none

/-- **Committed record ids are never reused.** -/
theorem run_ids_fresh {config : OpenConfig} (h : Created H config db) (ops : List Op) :
    ∃ hist last, HistoryOf H R ops db hist last ∧
      (∀ i j, i ≤ j → j ≤ last → Lineage (i, (hist i).cells) (j, (hist j).cells) ∧
        ∃ n n', (hist i).cells.get? State.allocatorKey = some (CellValue.fromU64 n) ∧
          (hist j).cells.get? State.allocatorKey = some (CellValue.fromU64 n') ∧ n ≤ n') ∧
      (∀ i j r key, i ≤ j → j ≤ last → System.FIRST_USER_RECORD_ID ≤ r → keyOf (hist i).cells r = some key →
        SameRecord hist i j r key ∨ Burned hist last j r) ∧
      (∀ b K K' values db', Prog.Runs (Records.create b K values) (run H R ops db) K' db' →
        ∃ st n, db'.branches.get? b = some st ∧ st.commitId = last ∧
          (shownBy hist st).get? (State.binding K) = some (CellValue.fromU64 n) ∧
          ∀ i ≤ last, ∀ k v, (hist i).cells.get? k = some v → k.recordId ≠ n) ∧
      ∀ b st, (run H R ops db).branches.get? b = some st → st.commitId = last →
        ∀ n : U64, n.val = 2 ^ 64 - 1 → (shownBy hist st).get? State.allocatorKey = some (CellValue.fromU64 n) →
          ∀ K values, (∀ K' db', ¬ Prog.Runs (Records.create b K values) (run H R ops db) K' db') ∧
            (st.sealed = none → System.byKey K = none → (shownBy hist st).get? (State.binding K) = none →
              (∀ l, HasLimits (shownBy hist st) l →
                ∀ name v, values.get? name = some v → validate l name (some v) = .ok ()) →
              ((Records.create b K values).exec (run H R ops db)).1 = .error .recordIdExhausted) := by
  obtain ⟨hist, head, hinv, hof, hs, hp⟩ := h.run_keeps (R := R) shown_descends ops
  have hline := hinv.chain.lineage hp
  refine ⟨hist, head.commitId, hof, fun i j hij hj => ⟨hline j hj i hij, ?_⟩, fun i j r key hij hj hr hkey => ?_,
    fun b K K' values db' hrun => hinv.create_fresh hs hp hrun, fun b st hb hc n hmax hn K values => ?_⟩
  · obtain ⟨-, n, n', hn, hn', hle, -⟩ := (hline j hj i hij).aged (hinv.chain.consistent i (le_trans hij hj))
    exact ⟨n, n', hn, hn', hle⟩
  · have hcons := hinv.chain.consistent i (le_trans hij hj)
    obtain ⟨n, hn, -, hbelow⟩ := hcons.allocator
    have hlt : r < n := hbelow _ _ hkey hr
    -- whatever has happened since, the id has kept its key or lost its record
    have hage : ∀ j', i ≤ j' → j' ≤ head.commitId →
        keyOf (hist j').cells r = some key ∨ keyOf (hist j').cells r = none := by
      intro j' hij' hj'
      obtain ⟨-, n₁, -, h1, -, -, hold⟩ := (hline j' hj' i hij').aged hcons
      obtain rfl := CellValue.fromU64_inj (Option.some.inj (hn.symm.trans h1))
      rw [← hkey]
      exact hold r hr hlt
    cases hkj : keyOf (hist j).cells r with
    | some key' =>
      left
      obtain rfl : key' = key := (Lineage.unbroken (hline j hj i hij) .refl hcons hr hkey hkj).2
      exact ⟨hkj, fun x hix hxj => (Lineage.unbroken hix hxj hcons hr hkey hkj).1⟩
    | none =>
      right
      intro j' hjj' hj' k hk
      refine (hinv.chain.consistent j' hj').no_cells (by rw [hk]; exact hr) ?_
      rw [hk]
      rcases hage j' (le_trans hij hjj') hj' with he | he
      · have := (Lineage.unbroken (hline j hj i hij) (hline j' hj' j hjj') hcons hr hkey he).1
        rw [hkj] at this
        cases this
      · exact he
  · have hexh : checkedSucc n = none := by
      unfold checkedSucc
      rw [dif_neg (by omega)]
    exact hinv.create_exhausted hb hc hn hexh K values

end Ids

theorem run_ids_fresh_demo : ∃ hist last, HistoryOf Trie.polyHash arrayRoaring demoOps demoDb hist last ∧
    ∀ i j r key, i ≤ j → j ≤ last → System.FIRST_USER_RECORD_ID ≤ r → keyOf (hist i).cells r = some key →
      SameRecord hist i j r key ∨ Burned hist last j r := by
  obtain ⟨hist, last, hof, -, hids, -⟩ := run_ids_fresh (R := arrayRoaring) demoDb_created demoOps
  exact ⟨hist, last, hof, hids⟩

end GolemDb.Api
