import GolemDb.Api.Ids

/-!
What users can change. Among the cells of reserved records the mutations of a run change only the
allocator and the bindings of keys that are not reserved, and the commits add the roots; the names
in a user record are `#key` and user names (`run_engine_kept`). One mutation changes one branch, and
there only the record of its key (`Touches`).
-/

namespace GolemDb.Api

open GolemDb.Lib GolemDb.Storage GolemDb.Merkle GolemDb.Cells GolemDb.Index GolemDb.Branch GolemDb.Records

/-! ### The engine's cells -/

/-- **The engine's cells are as at genesis**, in cells over commits below `c`. -/
structure EngineKept (g : Genesis) (c : CommitId) (m : CellMap) : Prop where
  /-- Only the allocator, bindings of user keys and the roots of earlier commits differ. -/
  system : ∀ k, k.recordId < System.FIRST_USER_RECORD_ID → k ≠ State.allocatorKey →
    (∀ K, System.byKey K = none → k ≠ State.binding K) → (∀ i < c, k ≠ rootsKey i) → m.get? k = (initialCells g).get? k
  /-- The cells of user records have the names `#key` and user names. -/
  names : ∀ k v, m.get? k = some v → System.FIRST_USER_RECORD_ID ≤ k.recordId → k.name = Reserved.KEY ∨ UserName k.name

namespace EngineKept

variable {g : Genesis} {c : CommitId} {m : CellMap}

lemma initial (g : Genesis) : EngineKept g 0 (initialCells g) :=
  ⟨fun _ _ _ _ _ => rfl, fun _ _ hv hk => absurd (initialList_system (get?_initialCells.mp hv)) (not_lt.mpr hk)⟩

/-- What a branch shows keeps the engine's cells. -/
lemma visible (h : EngineKept g c m) (hc : Consistent c m) {shown : CellMap} (hvis : Visible c m shown) :
    EngineKept g c shown := by
  refine ⟨fun k hk h1 h2 h3 => ?_, fun k v hv hk => ?_⟩
  · rw [hvis.frozen k hk h2 h1]
    exact h.system k hk h1 h2 h3
  · obtain ⟨l, hl⟩ := hc.limits
    rcases hvis.written l hl k v hv with hv | hw
    · exact h.names k v hv hk
    · cases hw with
      | allocator n => exact absurd hk (by decide : ¬ System.FIRST_USER_RECORD_ID ≤ System.ALLOC.id)
      | binding K r => exact absurd hk (by decide : ¬ System.FIRST_USER_RECORD_ID ≤ System.RECORD_KEYS.id)
      | identity r K => exact .inl rfl
      | cell r name v hvalid => exact .inr (validate_user hvalid).1

/-- A publication adds the roots of the head. -/
lemma published (h : EngineKept g c m) {c' : CommitId} (hs : checkedSucc c = some c') (head : Head) :
    EngineKept g c' (m.insert (rootsKey c) (rootsValue head)) := by
  have hlt := (checkedSucc_lt hs).1
  refine ⟨fun k hk h1 h2 h3 => ?_, fun k v hv hk => ?_⟩
  · rw [OrdMap.get?_insert, if_neg (h3 c hlt)]
    exact h.system k hk h1 h2 fun i hi => h3 i (lt_trans hi hlt)
  · rw [OrdMap.get?_insert, if_neg (key_ne (user_ne hk (by decide : System.ROOTS.id < _)))] at hv
    exact h.names k v hv hk

/-- The reserved records keep their keys and bindings. -/
lemma reserved (h : EngineKept g c m) {s : System.SystemRecord} (hs : s ∈ System.ALL) :
    m.get? (State.identityCell s.id) = (initialCells g).get? (State.identityCell s.id) ∧
      m.get? (State.binding s.key) = (initialCells g).get? (State.binding s.key) := by
  constructor
  · refine h.system _ (system_ids s hs) (identity_ne_allocator _) (fun K _ => identity_ne_binding _ K) fun i _ he => ?_
    have hname : Reserved.KEY = i.toBeBytes := congrArg CellKey.name he
    have hlen : Reserved.KEY.length = 8 := by rw [hname, U64.toBeBytes_length]
    exact absurd hlen (by decide)
  · refine h.system _ (by decide : System.RECORD_KEYS.id < _)
      (key_ne (by decide : System.RECORD_KEYS.id ≠ System.ALLOC.id))
      (fun K hK he => key_ne_of_unreserved hK s hs (binding_inj he)) fun i _ =>
        key_ne (by decide : System.RECORD_KEYS.id ≠ System.ROOTS.id)

lemma params (h : EngineKept g c m) (name : CellName) :
    m.get? ⟨System.PARAMS.id, name⟩ = (initialCells g).get? ⟨System.PARAMS.id, name⟩ :=
  h.system _ (by decide : System.PARAMS.id < _) (key_ne (by decide : System.PARAMS.id ≠ System.ALLOC.id))
    (fun _ _ => key_ne (by decide : System.PARAMS.id ≠ System.RECORD_KEYS.id)) fun _ _ =>
      key_ne (by decide : System.PARAMS.id ≠ System.ROOTS.id)

end EngineKept

/-- **Every commit keeps the engine's cells.** -/
lemma Chain.engine_kept {g : Genesis} {hist : History} {c : CommitId} (h : Chain g hist c) :
    ∀ i ≤ c, EngineKept g i (hist i).cells := by
  refine h.induct (P := fun i v => EngineKept g i v.cells) ?_ fun i j hij hj ih hnext => ?_
  · rw [h.genesis]
    exact EngineKept.initial g
  · have hi := le_trans (checkedSucc_lt hij).1.le hj
    obtain ⟨shown, hvis, hcells⟩ := hnext.cells
    rw [h.number hi] at hvis
    rw [hcells, nextCells, h.number hi]
    exact (ih.visible (h.consistent i hi) hvis).published hij _

/-! ### One mutation -/

/-- **What a mutation of a key touches** in the cells of a branch. -/
structure Touches (K : RecordKey) (m m' : CellMap) : Prop where
  /-- Of the reserved records only the allocator and the key's binding. -/
  system : ∀ k, k.recordId < System.FIRST_USER_RECORD_ID → k ≠ State.allocatorKey → k ≠ State.binding K →
    m'.get? k = m.get? k
  /-- Of the user records only the one of the key, before or after. -/
  own : ∀ k, System.FIRST_USER_RECORD_ID ≤ k.recordId → m'.get? k ≠ m.get? k →
    m.get? (State.binding K) = some (CellValue.fromU64 k.recordId) ∨
      m'.get? (State.binding K) = some (CellValue.fromU64 k.recordId)
  /-- The records of other keys stay as they are. -/
  others : ∀ K' r, K' ≠ K → System.byKey K' = none → m.get? (State.binding K') = some (CellValue.fromU64 r) →
    m'.get? (State.binding K') = some (CellValue.fromU64 r) ∧ ∀ name, m'.get? ⟨r, name⟩ = m.get? ⟨r, name⟩

lemma Touches.refl (K : RecordKey) (m : CellMap) : Touches K m m :=
  ⟨fun _ _ _ _ => rfl, fun _ _ hne => absurd rfl hne, fun _ _ _ _ hb => ⟨hb, fun _ => rfl⟩⟩

/-- A mutation that succeeds touches its own record. -/
lemma touches_of_moved {c : CommitId} {m m' : CellMap} {K : RecordKey} (h : Consistent c m) (h' : Consistent c m')
    (hm : Moved K m m') : Touches K m m' := by
  refine ⟨fun k hk h1 h2 => hm.keeps k hk h2 h1, hm.own, fun K' r hne hK' hb => ?_⟩
  have hb' : m'.get? (State.binding K') = some (CellValue.fromU64 r) := by
    rw [hm.keeps _ (by decide : System.RECORD_KEYS.id < _) (fun he => hne (binding_inj he))
      (key_ne (by decide : System.RECORD_KEYS.id ≠ System.ALLOC.id)), hb]
  refine ⟨hb', fun name => ?_⟩
  obtain ⟨r', hr', h64, -⟩ := h.bound K' _ hK' hb
  obtain rfl := CellValue.fromU64_inj hr'
  by_contra hchanged
  -- the changed cell would be in the record of the key
  rcases hm.own ⟨r, name⟩ h64 hchanged with hK | hK
  · exact hne ((identified_of_consistent h).injective _ _ _ hb hK)
  · exact hne ((identified_of_consistent h').injective _ _ _ hb' hK)

section Runs

variable {H : HashProvider} {R : Roaring} {σ : Type} [Store σ] [LawfulStore σ] {g : Genesis} {Good : StateProp}
  {hist : History} {head : Head} {db : Branches σ}

/-- The call of a mutation on a branch. -/
def mutationOp (b : BranchId) : Mutation → Op
  | .create K values => .create b K values
  | .patch K changes => .patch b K changes
  | .delete K => .delete b K

/-- **One branch is touched**: the store and the other branches are as they were, and the cells the branch shows
differ in what the mutation touches. -/
structure TouchesBranch (hist : History) (b : BranchId) (K : RecordKey) (db db' : Branches σ) : Prop where
  store : db'.store = db.store
  others : ∀ b', b' ≠ b → db'.branches.get? b' = db.branches.get? b'
  shown : ∀ st', db'.branches.get? b = some st' → ∃ st, db.branches.get? b = some st ∧ st'.commitId = st.commitId ∧
    Touches K (shownBy hist st) (shownBy hist st')

omit [Store σ] [LawfulStore σ] in
lemma TouchesBranch.refl (b : BranchId) (K : RecordKey) (db : Branches σ) : TouchesBranch hist b K db db :=
  ⟨rfl, fun _ _ => rfl, fun st hb => ⟨st, hb, rfl, Touches.refl K _⟩⟩

omit [Store σ] [LawfulStore σ] in
lemma TouchesBranch.withState {b : BranchId} {K : RecordKey} {st st' : BranchState} (hb : db.branches.get? b = some st)
    (hc : st'.commitId = st.commitId) (h : Touches K (shownBy hist st) (shownBy hist st')) :
    TouchesBranch hist b K db (db.withState b st') := by
  refine ⟨rfl, fun b' hne => ?_, fun st'' hb'' => ?_⟩
  · show (db.branches.insert b st').get? b' = _
    rw [OrdMap.get?_insert, if_neg hne]
  · obtain rfl := Option.some.inj ((withState_self db b st').symm.trans hb'')
    exact ⟨st, hb, hc, h⟩

omit [Store σ] [LawfulStore σ] in
lemma TouchesBranch.without (b : BranchId) (K : RecordKey) (db : Branches σ) :
    TouchesBranch hist b K db (db.without b) := by
  refine ⟨rfl, fun b' hne => ?_, fun st' hb' => ?_⟩
  · show (db.branches.erase b).get? b' = _
    rw [OrdMap.get?_erase, if_neg hne]
  · have hnone : (db.branches.erase b).get? b = none := by rw [OrdMap.get?_erase, if_pos rfl]
    rw [show (db.without b).branches = db.branches.erase b from rfl, hnone] at hb'
    cases hb'

/-- A mutation's group touches one branch. -/
lemma Inv.touches_group (h : Inv H R g Good hist head db) {α : Type} (b : BranchId) (u : Mutation)
    (group : CellOperation RecordError α)
    (hgroup : ∀ m a m', Prog.Runs group.runOn m a m' → Prog.Runs u.group.runOn m () m') :
    TouchesBranch hist b u.key db (((do
      Prog.ofExcept (rejectReserved u.key)
      Prog.mapError RecordError.ofOperation (Branches.write b group)) :
        Prog RecordError (Branches σ) α).exec db).2 := by
  rcases exec_rejectReserved u.key (Prog.mapError RecordError.ofOperation (Branches.write b group)) db with
    ⟨-, he⟩ | ⟨hK, he⟩
  · rw [he]
    exact TouchesBranch.refl b u.key db
  · rw [he, Prog.exec_mapError]
    have hw := write_wrote h.head_is h.cells b group
    rcases hx : (Branches.write b group).exec db with ⟨r, db'⟩
    rw [hx] at hw
    show TouchesBranch hist b u.key db db'
    cases hw with
    | absent e hb => exact TouchesBranch.refl b u.key db
    | stale st e hb hc => exact TouchesBranch.without b u.key db
    | kept st e hb hc hfail => exact TouchesBranch.withState hb rfl (Touches.refl u.key _)
    | done st o a hb hc hs hrun =>
      refine TouchesBranch.withState hb rfl ?_
      have hvis := (h.branches b st hb).working.visible
      have hrun' : Prog.Runs u.group.runOn (shownBy hist st) () (shownBy hist ⟨st.commitId, o, none⟩) := by
        unfold shownBy
        rw [hc]
        exact hgroup _ _ _ hrun
      exact touches_of_moved hvis.consistent (hvis.mutate hK hrun').consistent (u.group_moved hvis.consistent hK hrun')

/-- **A mutation touches one branch, and there its own record.** -/
theorem Inv.touches (h : Inv H R g Good hist head db) (b : BranchId) (u : Mutation) :
    TouchesBranch hist b u.key db ((mutationOp b u).exec H R db) := by
  cases u with
  | create K values => exact h.touches_group b (.create K values) _ fun m a m' hr => on_bind hr
  | patch K changes => exact h.touches_group b (.patch K changes) _ fun m a m' hr => hr
  | delete K => exact h.touches_group b (.delete K) _ fun m a m' hr => hr

/-- **User operations cannot touch engine state**, along every run. -/
theorem run_engine_kept {config : OpenConfig} (h : Created H config db) (ops : List Op) :
    ∃ hist last, HistoryOf H R ops db hist last ∧
      (∀ c m, (c ≤ last ∧ m = (hist c).cells ∨ ∃ b st, (run H R ops db).branches.get? b = some st ∧ c = st.commitId ∧
          m = shownBy hist st) →
        (∀ k, k.recordId < System.FIRST_USER_RECORD_ID → m.get? k ≠ (initialCells config.genesis).get? k →
          k = State.allocatorKey ∨ (∃ K, System.byKey K = none ∧ k = State.binding K) ∨ ∃ i < c, k = rootsKey i) ∧
        (∀ s ∈ System.ALL,
          m.get? (State.identityCell s.id) = (initialCells config.genesis).get? (State.identityCell s.id) ∧
          m.get? (State.binding s.key) = (initialCells config.genesis).get? (State.binding s.key)) ∧
        (∀ name, m.get? ⟨System.PARAMS.id, name⟩ = (initialCells config.genesis).get? ⟨System.PARAMS.id, name⟩) ∧
        ∀ k v, m.get? k = some v → System.FIRST_USER_RECORD_ID ≤ k.recordId →
          k.name = Reserved.KEY ∨ k.name.head? ≠ some 0x23 ∧ k.name.head? ≠ some 0x40) ∧
      ∀ b (u : Mutation), TouchesBranch hist b u.key (run H R ops db) ((mutationOp b u).exec H R (run H R ops db)) := by
  obtain ⟨hist, head, hinv, hof⟩ := h.run (R := R) ops
  refine ⟨hist, head.commitId, hof, fun c m hwhere => ?_, fun b u => hinv.touches b u⟩
  have hkept : EngineKept config.genesis c m := by
    rcases hwhere with ⟨hc, rfl⟩ | ⟨b, st, hb, rfl, rfl⟩
    · exact hinv.chain.engine_kept c hc
    · have hle := (hinv.branches b st hb).le
      exact (hinv.chain.engine_kept _ hle).visible (hinv.chain.consistent _ hle) (hinv.branches b st hb).working.visible
  refine ⟨fun k hk hne => ?_, fun s hs => hkept.reserved hs, hkept.params, fun k v hv hk => ?_⟩
  · by_contra hnone
    simp only [not_or] at hnone
    obtain ⟨h1, h2, h3⟩ := hnone
    exact hne (hkept.system k hk h1 (fun K hK he => h2 ⟨K, hK, he⟩) fun i hi he => h3 ⟨i, hi, he⟩)
  · exact (hkept.names k v hv hk).imp id fun hname => ⟨hname.head_ne, hname.head_ne_at⟩

end Runs

theorem run_engine_kept_demo : ∃ hist last, HistoryOf Trie.polyHash arrayRoaring demoOps demoDb hist last ∧
    ∀ b (u : Mutation), TouchesBranch hist b u.key (run Trie.polyHash arrayRoaring demoOps demoDb)
      ((mutationOp b u).exec Trie.polyHash arrayRoaring (run Trie.polyHash arrayRoaring demoOps demoDb)) := by
  obtain ⟨hist, last, hof, -, htouch⟩ := run_engine_kept (R := arrayRoaring) demoDb_created demoOps
  exact ⟨hist, last, hof, htouch⟩

end GolemDb.Api
