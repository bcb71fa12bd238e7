import GolemDb.Api.Runs

/-!
A commit publishes what the branch showed: the record a branch shows before its commit is the
record the head holds after it. Only the `#roots` record differs, by the cell of the commit that
was the head.
-/

namespace GolemDb.Api

open GolemDb.Lib GolemDb.Storage GolemDb.Merkle GolemDb.Cells GolemDb.Index GolemDb.Branch GolemDb.Records

/-! ### Maps that differ in one record -/

section Agree

variable {m m' : CellMap}

lemma system_ids_inj : ∀ s ∈ System.ALL, ∀ s' ∈ System.ALL, s.id = s'.id → s = s' := by decide

/-- A key other than a reserved record's own is not bound to it. -/
lemma recordId_ne {s : System.SystemRecord} (hs : s ∈ System.ALL) {K : RecordKey} (hK : K ≠ s.key)
    {v : Option CellValue} {id : U64} (h : State.recordId K v = .ok (some id)) : id ≠ s.id := by
  unfold State.recordId at h
  cases v with
  | none =>
    simp only at h
    split_ifs at h
    cases h
  | some value =>
    simp only at h
    cases hf : State.fieldU64 value with
    | none =>
      rw [hf] at h
      cases h
    | some r =>
      rw [hf] at h
      simp only at h
      cases hb : System.byKey K with
      | none =>
        rw [hb] at h
        simp only at h
        split_ifs at h with hlt
        obtain rfl := Option.some.inj (Except.ok.inj h)
        intro he
        have hsmall : s.id < System.FIRST_USER_RECORD_ID :=
          (by decide : ∀ s ∈ System.ALL, s.id < System.FIRST_USER_RECORD_ID) s hs
        exact hlt (he ▸ hsmall)
      | some s' =>
        rw [hb] at h
        simp only at h
        split_ifs at h with hne
        obtain rfl := Option.some.inj (Except.ok.inj h)
        obtain ⟨hs', rfl⟩ := byKey_some hb
        intro he
        rw [not_not] at hne
        exact hK (by rw [system_ids_inj s' hs' s hs (hne.symm.trans he)])

/-- Maps with the same bindings and `#key` cells resolve keys alike. -/
lemma resolveIn_congr (hbind : ∀ K, m'.get? (State.binding K) = m.get? (State.binding K))
    (hid : ∀ id, m'.get? (State.identityCell id) = m.get? (State.identityCell id)) (K : RecordKey) :
    resolveIn m' K = resolveIn m K := by
  unfold resolveIn
  rw [hbind K]
  cases State.recordId K (m.get? (State.binding K)) with
  | error e => rfl
  | ok found =>
    cases found with
    | none => rfl
    | some id =>
      simp only [ok_bind]
      rw [hid id]

lemma projected_congr {id : U64} (h : ∀ name, m'.get? ⟨id, name⟩ = m.get? ⟨id, name⟩)
    (projection : Option (List CellName)) : projected m' id projection = projected m id projection := by
  refine OrdMap.ext_get fun name => ?_
  rw [get?_projected, get?_projected, h name]

lemma resolveIn_recordId {K : RecordKey} {id : U64} (h : resolveIn m K = .ok (some id)) :
    State.recordId K (m.get? (State.binding K)) = .ok (some id) := by
  unfold resolveIn at h
  obtain ⟨found, hf, h⟩ := bind_eq_ok.mp h
  cases found with
  | none =>
    cases Except.ok.inj h
  | some id' =>
    obtain ⟨u, -, h⟩ := bind_eq_ok.mp h
    rw [hf, Except.ok.inj h]

end Agree

/-! ### The commit of a branch -/

/-- The map a commit publishes. -/
def withRoots (m : CellMap) (head : Head) : CellMap := m.insert (rootsKey head.commitId) (rootsValue head)

section Roots

variable (m : CellMap) (head : Head)

lemma get?_withRoots_of_record {k : CellKey} (hk : k.recordId ≠ System.ROOTS.id) :
    (withRoots m head).get? k = m.get? k := by
  rw [withRoots, OrdMap.get?_insert, if_neg fun he => hk (by rw [he]; rfl)]

lemma get?_withRoots_of_name {k : CellKey} (hk : k.name ≠ head.commitId.toBeBytes) :
    (withRoots m head).get? k = m.get? k := by
  rw [withRoots, OrdMap.get?_insert, if_neg fun he => hk (by rw [he]; rfl)]

lemma resolveIn_withRoots (K : RecordKey) : resolveIn (withRoots m head) K = resolveIn m K := by
  refine resolveIn_congr (fun K => get?_withRoots_of_record m head (by decide : System.RECORD_KEYS.id ≠ _))
    (fun id => get?_withRoots_of_name m head fun he => ?_) K
  have hname : Reserved.KEY = head.commitId.toBeBytes := he
  have hlen : Reserved.KEY.length = 8 := by rw [hname, U64.toBeBytes_length]
  exact absurd hlen (by decide)

/-- Every record but `#roots` stays as it was. -/
lemma recordOf_withRoots {K : RecordKey} (hK : K ≠ System.ROOTS.key) (projection : Option (List CellName)) :
    recordOf (withRoots m head) K projection = recordOf m K projection := by
  unfold recordOf
  rw [resolveIn_withRoots]
  cases hres : resolveIn m K with
  | error e => rfl
  | ok found =>
    cases found with
    | none => rfl
    | some id =>
      have hne : id ≠ System.ROOTS.id := recordId_ne (by decide) hK (resolveIn_recordId hres)
      simp only [ok_bind]
      rw [projected_congr (fun name => get?_withRoots_of_record m head hne)]

/-- **The two reads of the `#roots` record**: the same error, or records that differ in the cell of
the head's number alone. -/
structure RootsDiffer (head : Head) (projection : Option (List CellName)) (before after : Except RecordError Record) :
    Prop where
  error : ∀ e, before = .error e ↔ after = .error e
  record : ∀ r r', before = .ok r → after = .ok r' → r'.key = r.key ∧
    (∀ name ≠ head.commitId.toBeBytes, r'.cells.get? name = r.cells.get? name) ∧
    r.cells.get? head.commitId.toBeBytes = none ∧
    (Projects projection head.commitId.toBeBytes →
      r'.cells.get? head.commitId.toBeBytes = some (rootsValue head))

lemma roots_differ (hfree : m.get? (rootsKey head.commitId) = none) (projection : Option (List CellName)) :
    RootsDiffer head projection (recordOf m System.ROOTS.key projection)
      (recordOf (withRoots m head) System.ROOTS.key projection) := by
  unfold recordOf
  rw [resolveIn_withRoots]
  cases hres : resolveIn m System.ROOTS.key with
  | error e => exact ⟨fun e' => Iff.rfl, fun r r' hr => by cases hr⟩
  | ok found =>
    cases found with
    | none => exact ⟨fun e' => Iff.rfl, fun r r' hr => by cases hr⟩
    | some id =>
      have hid : id = System.ROOTS.id := by
        have h := resolveIn_recordId hres
        unfold State.recordId at h
        cases hv : m.get? (State.binding System.ROOTS.key) with
        | none =>
          rw [hv] at h
          simp only at h
          split_ifs at h
          cases h
        | some value =>
          rw [hv] at h
          simp only at h
          cases hf : State.fieldU64 value with
          | none =>
            rw [hf] at h
            cases h
          | some r =>
            rw [hf, show System.byKey System.ROOTS.key = some System.ROOTS from by decide] at h
            simp only at h
            split_ifs at h with hne
            rw [← Option.some.inj (Except.ok.inj h)]
            exact not_not.mp hne
      subst hid
      refine ⟨fun e => ⟨nofun, nofun⟩, fun r r' hr hr' => ?_⟩
      obtain rfl := Except.ok.inj hr
      obtain rfl := Except.ok.inj hr'
      refine ⟨rfl, fun name hname => ?_, ?_, fun hproj => ?_⟩
      · show (projected (withRoots m head) _ projection).get? name = (projected m _ projection).get? name
        rw [get?_projected, get?_projected, get?_withRoots_of_name m head hname]
      · show (projected m _ projection).get? _ = none
        rw [get?_projected, show m.get? ⟨System.ROOTS.id, head.commitId.toBeBytes⟩ = none from hfree]
        split_ifs <;> rfl
      · show (projected (withRoots m head) _ projection).get? _ = _
        rw [get?_projected, if_pos hproj, withRoots, OrdMap.get?_insert]
        exact if_pos rfl

end Roots

section Commit

variable {H : HashProvider} {R : Roaring} {σ : Type} [Store σ] [LawfulStore σ] {head : Head} {cells : CellMap}
  {db : Branches σ}

/-- What a branch over the head shows. -/
lemma get_branch (h : Managed H R head cells db) {b : BranchId} {st : BranchState}
    (hb : db.branches.get? b = some st) (hc : st.commitId = head.commitId) (K : RecordKey)
    (projection : Option (List CellName)) :
    ((Records.get (.branch b) K projection).exec db).1 = recordOf (cells.overlay st.overlay.entries) K projection := by
  show ((Prog.mapError RecordError.ofOperation (Branches.read b (readBranchRecord K projection))).exec db).1 = _
  rw [Prog.exec_mapError]
  obtain ⟨origin, hr, he⟩ := read_live h.head_is hb hc (readBranchRecord K projection)
  rw [he, (run_runOn (by rw [hr, h.cells]) _ st.overlay).1, on_readBranchRecord]
  cases recordOf (cells.overlay st.overlay.entries) K projection <;> rfl

/-- What the head holds. -/
lemma get_head (h : Managed H R head cells db) (K : RecordKey) (projection : Option (List CellName)) :
    ((Records.get .head K projection).exec db).1 = recordOf cells K projection := by
  show readCommitted db.store none K projection = _
  obtain ⟨tx, htx, hrows⟩ := LawfulStore.beginRead_eq db.store
  have hhead : readHead tx = .ok head.commitId := HeadIs.readHead (by rw [hrows]; exact h.head_is)
  unfold readCommitted committedSnapshot
  rw [htx, mapError_ok, ok_bind, hhead, mapError_ok, ok_bind]
  exact readCommittedByKey_eq (by rw [hrows, h.cells]) K projection

/-- **A commit publishes what the branch showed.** -/
theorem commit_publishes {store : σ} {next : BranchId} {db₀ db' : Branches σ} {cells₀ : CellMap}
    (hnew : Branches.new store next = .ok db₀) (hcells : tables store CELL = cellRows cells₀) (calls : List Call)
    {b : BranchId} {st : BranchState} {c : CommitId} (hb : (runCalls H R calls db₀).branches.get? b = some st)
    (hstaged : st.overlay.entries.get? (rootsKey st.commitId) = none)
    (hcommit : (Branches.commit H R b).exec (runCalls H R calls db₀) = (.ok c, db')) :
    ∃ head, HeadIs (tables (runCalls H R calls db₀).store) head ∧ head.commitId = st.commitId ∧
      ∀ projection, (∀ K, K ≠ System.ROOTS.key →
        ((Records.get (.branch b) K projection).exec (runCalls H R calls db₀)).1
          = ((Records.get .head K projection).exec db').1) ∧
        RootsDiffer head projection
          ((Records.get (.branch b) System.ROOTS.key projection).exec (runCalls H R calls db₀)).1
          ((Records.get .head System.ROOTS.key projection).exec db').1 := by
  obtain ⟨head₀, h₀, -⟩ := managed_new (H := H) (R := R) hnew hcells
  obtain ⟨head, cells, h⟩ := h₀.runCalls calls
  rcases h.commit b with ⟨e, he⟩ | he | ⟨st', origin, s, store', hb', hc, hr, hcomp, ht, he, hm⟩
  · cases (Prod.mk.inj (hcommit.symm.trans he)).1
  · cases (Prod.mk.inj (hcommit.symm.trans he)).1
  · obtain rfl := Option.some.inj (hb.symm.trans hb')
    obtain ⟨-, rfl⟩ := Prod.mk.inj (hcommit.symm.trans he)
    have hfree : (cells.overlay st.overlay.entries).get? (rootsKey head.commitId) = none := by
      rw [OrdMap.get?_overlay, ← hc, hstaged]
      exact h.roots_free hr hcomp hc
    refine ⟨head, h.head_is, hc.symm, fun projection => ⟨fun K hK => ?_, ?_⟩⟩
    · rw [get_branch h hb hc, get_head hm]
      exact (recordOf_withRoots _ head hK projection).symm
    · rw [get_branch h hb hc, get_head hm]
      exact roots_differ _ head hfree projection

/-- The cells of a record, bound to its key, in one group of raw operations. -/
def demoGroup : CellOperation Unit Unit :=
  .set (State.binding demoKey) (some (CellValue.fromU64 64))
    (.set (State.identityCell 64) (some (CellValue.fromBytes32 demoKey))
    (.set ⟨64, ascii "name"⟩ (some (CellValue.fromU64 7)) (.done (.ok ()))))

def demoCalls : List Call := [.begin, .write 0 demoGroup, .checkpoint 0, .sealBranch 0]

theorem commit_publishes_demo : ∃ db', (Branches.commit Trie.polyHash arrayRoaring 0).exec
      (runCalls Trie.polyHash arrayRoaring demoCalls demoDb) = (.ok 1, db') ∧
    ((Records.get (.branch 0) demoKey none).exec (runCalls Trie.polyHash arrayRoaring demoCalls demoDb)).1
      = ((Records.get .head demoKey none).exec db').1 := by
  obtain ⟨hbranch, hok⟩ : ((runCalls Trie.polyHash arrayRoaring demoCalls demoDb).branches.get? 0).map
      (fun st => st.overlay.entries.get? (rootsKey st.commitId)) = some none ∧
      ((Branches.commit Trie.polyHash arrayRoaring 0).exec (runCalls Trie.polyHash arrayRoaring demoCalls demoDb)).1
        = .ok 1 := by decide +kernel
  obtain ⟨st, hb, hstaged⟩ := Option.map_eq_some_iff.mp hbranch
  cases he : (Branches.commit Trie.polyHash arrayRoaring 0).exec
      (runCalls Trie.polyHash arrayRoaring demoCalls demoDb) with
  | mk r db' =>
    rw [he] at hok
    have he' : (Branches.commit Trie.polyHash arrayRoaring 0).exec
        (runCalls Trie.polyHash arrayRoaring demoCalls demoDb) = (.ok 1, db') := he.trans (by rw [← hok])
    obtain ⟨head, -, -, hsame⟩ := commit_publishes demoDb_created.new demoDb_created.initialized.1.cells demoCalls hb
      hstaged he'
    exact ⟨db', by rw [← hok], (hsame none).1 demoKey (by decide)⟩

end Commit

end GolemDb.Api
