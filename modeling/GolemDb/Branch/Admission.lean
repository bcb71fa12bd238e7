import GolemDb.Branch.Manager
import GolemDb.Branch.Publish
import GolemDb.Branch.Groups

/-!
What the manager's calls do over an unbounded store. A call on a branch finds no branch, drops a
stale one, or works on a snapshot that shows the committed tables; the lemmas of this file say so
once for each call.
-/

namespace GolemDb.Branch

open GolemDb.Lib GolemDb.Storage GolemDb.Merkle GolemDb.Cells GolemDb.Index

section Admission

variable {σ : Type} [Store σ] [LawfulStore σ] {db : Branches σ} {head : Head} {α : Type}

/-- The head row of the committed tables. -/
def HeadIs (r : Table → Rows) (head : Head) : Prop :=
  (r SUPERBLOCK).get? HEAD_KEY = some head.encode

lemma Head.encode_inj {h h' : Head} (he : h.encode = h'.encode) : h = h' := by
  unfold Head.encode at he
  obtain ⟨h1, h2⟩ := List.append_inj he (by simp [h.stateRoot.2, h'.stateRoot.2])
  obtain ⟨h3, h4⟩ := List.append_inj h1 (by simp)
  cases h
  cases h'
  simp only [Head.mk.injEq]
  exact ⟨U64.toBeBytes_inj h3, Subtype.ext h4, Subtype.ext h2⟩

lemma HeadIs.unique {r : Table → Rows} {h h' : Head} (h1 : HeadIs r h) (h2 : HeadIs r h') : h = h' :=
  Head.encode_inj (Option.some.inj (h1.symm.trans h2))

lemma HeadIs.readHeadState {ρ : Type} [ReadTransaction ρ] [LawfulRead ρ] {tx : ρ}
    (h : HeadIs (rows tx) head) : readHeadState tx = .ok head := readHeadState_eq h

lemma HeadIs.readHead {ρ : Type} [ReadTransaction ρ] [LawfulRead ρ] {tx : ρ}
    (h : HeadIs (rows tx) head) : readHead tx = .ok head.commitId := by
  unfold GolemDb.Branch.readHead
  rw [h.readHeadState]
  rfl

/-- **The three outcomes of admission.** -/
theorem withSlot_cases (hh : HeadIs (tables db.store) head) (b : BranchId) (stale : BranchError)
    (operation : BranchState → Store.Read σ → Prog BranchError (Branches σ) α) :
    (db.branches.get? b = none ∧
      (Branches.withSlot b stale operation).exec db = (.error .handleInvalid, db)) ∨
    (∃ st, db.branches.get? b = some st ∧ st.commitId ≠ head.commitId ∧
      (Branches.withSlot b stale operation).exec db
        = (.error stale, { db with branches := db.branches.erase b })) ∨
    ∃ (st : BranchState) (origin : Store.Read σ), db.branches.get? b = some st ∧ st.commitId = head.commitId ∧
      rows origin = tables db.store ∧
      (Branches.withSlot b stale operation).exec db = (operation st origin).exec db := by
  obtain ⟨origin, horigin, hrows⟩ := LawfulStore.beginRead_eq db.store
  have hlook : ∀ {x : Option BranchState}, db.branches.get? b = x →
      (Prog.read fun db : Branches σ => (.ok (db.branches.get? b) : Except BranchError _)).exec db = (.ok x, db) := by
    rintro x rfl
    rfl
  unfold Branches.withSlot
  rw [Prog.exec_bind]
  cases hb : db.branches.get? b with
  | none =>
    rw [hlook hb]
    exact .inl ⟨rfl, rfl⟩
  | some st =>
    have hhead : readHead origin = .ok head.commitId := HeadIs.readHead (by rwa [hrows])
    have hread : (Prog.read fun db : Branches σ =>
        (Store.beginRead db.store).mapError BranchError.storage).exec db = (.ok origin, db) := by
      show ((Store.beginRead db.store).mapError BranchError.storage, db) = _
      rw [horigin]
      rfl
    have hpure : (Prog.ofExcept (readHead origin) : Prog BranchError (Branches σ) CommitId).exec db
        = (.ok head.commitId, db) := by
      rw [hhead]
      rfl
    rw [hlook hb]
    simp only
    rw [Prog.exec_bind, hread]
    simp only
    rw [Prog.exec_bind, hpure]
    by_cases hne : head.commitId ≠ st.commitId
    · refine .inr (.inl ⟨st, rfl, Ne.symm hne, ?_⟩)
      simp only
      rw [if_pos hne]
      rfl
    · rw [not_not] at hne
      refine .inr (.inr ⟨st, origin, rfl, hne.symm, hrows, ?_⟩)
      simp only
      rw [if_neg (not_not.mpr hne)]

/-- The manager with a branch's state replaced. -/
def Branches.withState (db : Branches σ) (b : BranchId) (st : BranchState) : Branches σ :=
  { db with branches := db.branches.insert b st }

/-- The manager without a branch. -/
def Branches.without (db : Branches σ) (b : BranchId) : Branches σ :=
  { db with branches := db.branches.erase b }

/-- What an ordinary call does to the manager: nothing, the loss of a stale branch, or a new state
of the branch. -/
inductive Admitted (db : Branches σ) (head : Head) (b : BranchId)
    (operation : BranchState → Store.Read σ → α × BranchState) : Except BranchError α × Branches σ → Prop
  | absent : Admitted db head b operation (.error .handleInvalid, db)
  | stale (e : BranchError) : Admitted db head b operation (.error e, db.without b)
  | live (st : BranchState) (origin : Store.Read σ) (hb : db.branches.get? b = some st)
      (hc : st.commitId = head.commitId) (hr : rows origin = tables db.store) :
      Admitted db head b operation (.ok (operation st origin).1, db.withState b (operation st origin).2)

lemma withBranch_admitted (hh : HeadIs (tables db.store) head) (b : BranchId)
    (operation : BranchState → Store.Read σ → α × BranchState) :
    Admitted db head b operation ((Branches.withBranch b operation).exec db) := by
  unfold Branches.withBranch
  rcases withSlot_cases hh b .handleInvalid (fun state origin => do
      Branches.setBranch b (some (operation state origin).2)
      return (operation state origin).1) with ⟨-, he⟩ | ⟨st, -, -, he⟩ | ⟨st, origin, hb, hc, hr, he⟩
  · rw [he]
    exact .absent
  · rw [he]
    exact .stale _
  · rw [he]
    exact .live st origin hb hc hr

/-- A branch over the head is admitted. -/
lemma withBranch_live (hh : HeadIs (tables db.store) head) {b : BranchId} {st : BranchState}
    (hb : db.branches.get? b = some st) (hc : st.commitId = head.commitId)
    (operation : BranchState → Store.Read σ → α × BranchState) :
    ∃ origin : Store.Read σ, rows origin = tables db.store ∧ (Branches.withBranch b operation).exec db
      = (.ok (operation st origin).1, db.withState b (operation st origin).2) := by
  unfold Branches.withBranch
  rcases withSlot_cases hh b .handleInvalid (fun state origin => do
      Branches.setBranch b (some (operation state origin).2)
      return (operation state origin).1) with ⟨hn, -⟩ | ⟨st', hb', hne, -⟩ | ⟨st', origin, hb', -, hr, he⟩
  · rw [hb] at hn
    cases hn
  · obtain rfl := Option.some.inj (hb.symm.trans hb')
    exact absurd hc hne
  · obtain rfl := Option.some.inj (hb.symm.trans hb')
    exact ⟨origin, hr, he⟩

/-- Every branch of the manager has the property. -/
def Branches.Each (P : BranchState → Prop) (db : Branches σ) : Prop :=
  ∀ b st, db.branches.get? b = some st → P st

section Each

variable {P : BranchState → Prop}

omit [Store σ] [LawfulStore σ] in
lemma Branches.Each.without (h : db.Each P) (b : BranchId) : (db.without b).Each P := by
  intro b' st hb
  have hb' : (db.branches.erase b).get? b' = some st := hb
  rw [OrdMap.get?_erase] at hb'
  split_ifs at hb'
  exact h b' st hb'

omit [Store σ] [LawfulStore σ] in
lemma Branches.Each.withState (h : db.Each P) (b : BranchId) {st : BranchState} (hst : P st) :
    (db.withState b st).Each P := by
  intro b' st' hb
  have hb' : (db.branches.insert b st).get? b' = some st' := hb
  rw [OrdMap.get?_insert] at hb'
  split_ifs at hb'
  · obtain rfl := Option.some.inj hb'
    exact hst
  · exact h b' st' hb'

/-- An admitted call keeps the store, and a property of the branches that it keeps of its own. -/
lemma Branches.Each.admitted (h : db.Each P) {b : BranchId} {operation : BranchState → Store.Read σ → α × BranchState}
    {out : Except BranchError α × Branches σ} (ha : Admitted db head b operation out)
    (hop : ∀ (st : BranchState) (origin : Store.Read σ), db.branches.get? b = some st →
      st.commitId = head.commitId → rows origin = tables db.store → P st → P (operation st origin).2) :
    out.2.Each P ∧ out.2.store = db.store := by
  cases ha with
  | absent => exact ⟨h, rfl⟩
  | stale e => exact ⟨h.without b, rfl⟩
  | live st origin hb hc hr => exact ⟨h.withState b (hop st origin hb hc hr (h b st hb)), rfl⟩

end Each

omit [Store σ] [LawfulStore σ] in
/-- A call that only unwraps its result leaves the manager as the call below it does. -/
lemma exec_ofExcept {ε β : Type} (c : Prog ε (Branches σ) β) (f : β → Except ε α) (db : Branches σ) :
    ((c >>= fun r => Prog.ofExcept (f r)).exec db).2 = (c.exec db).2 := by
  rw [Prog.exec_bind]
  rcases c.exec db with ⟨e | a, db'⟩ <;> rfl

omit [Store σ] [LawfulStore σ] in
lemma exec_ofExcept_self {ε : Type} (c : Prog ε (Branches σ) (Except ε α)) (db : Branches σ) :
    ((c >>= fun r => Prog.ofExcept r).exec db).2 = (c.exec db).2 := exec_ofExcept c id db

/-- The result of a read of a branch: a failed admission, or the callback's over a snapshot. -/
lemma read_cases {ε : Type} (hh : HeadIs (tables db.store) head) (b : BranchId) (operation : CellOperation ε α) :
    (∃ e, ((Branches.read b operation).exec db).1 = .error (.branch e)) ∨
    ∃ (st : BranchState) (origin : Store.Read σ), db.branches.get? b = some st ∧ st.commitId = head.commitId ∧
      rows origin = tables db.store ∧ ((Branches.read b operation).exec db).1
        = (operation.run origin st.overlay).1.mapError Fault.toOperationError := by
  have ha := withBranch_admitted hh b fun (state : BranchState) (origin : Store.Read σ) =>
    ((operation.run origin state.overlay).1, state)
  unfold Branches.read
  rw [Prog.exec_bind, Prog.exec_mapError]
  generalize (Branches.withBranch b fun (state : BranchState) (origin : Store.Read σ) =>
    ((operation.run origin state.overlay).1, state)).exec db = out at ha ⊢
  cases ha with
  | absent => exact .inl ⟨_, rfl⟩
  | stale e => exact .inl ⟨e, rfl⟩
  | live st origin hb hc hr => exact .inr ⟨st, origin, hb, hc, hr, rfl⟩

/-- A read of a branch over the head is admitted. -/
lemma read_live {ε : Type} (hh : HeadIs (tables db.store) head) {b : BranchId} {st : BranchState}
    (hb : db.branches.get? b = some st) (hc : st.commitId = head.commitId) (operation : CellOperation ε α) :
    ∃ origin : Store.Read σ, rows origin = tables db.store ∧ ((Branches.read b operation).exec db).1
      = (operation.run origin st.overlay).1.mapError Fault.toOperationError := by
  obtain ⟨origin, hr, he⟩ := withBranch_live hh hb hc fun (state : BranchState) (origin : Store.Read σ) =>
    ((operation.run origin state.overlay).1, state)
  refine ⟨origin, hr, ?_⟩
  unfold Branches.read
  rw [Prog.exec_bind, Prog.exec_mapError, he]
  rfl

/-- The result of a call: a failed admission, or the call's over a snapshot. -/
lemma withBranch_cases {ε : Type} (hh : HeadIs (tables db.store) head) (b : BranchId)
    {f : BranchState → Store.Read σ → Except (OperationError ε) α × BranchState}
    {g : BranchState → Store.Read σ → Except (OperationError ε) α}
    (hf : ∀ st origin, (∃ e, (f st origin).1 = .error (.branch e)) ∨ (f st origin).1 = g st origin) :
    (∃ e, ((Prog.mapError OperationError.branch (Branches.withBranch b f) >>= fun r => Prog.ofExcept r).exec db).1
      = .error (.branch e)) ∨
    ∃ (st : BranchState) (origin : Store.Read σ), db.branches.get? b = some st ∧ st.commitId = head.commitId ∧
      rows origin = tables db.store ∧
      ((Prog.mapError OperationError.branch (Branches.withBranch b f) >>= fun r => Prog.ofExcept r).exec db).1
        = g st origin := by
  have ha := withBranch_admitted hh b f
  rw [Prog.exec_bind, Prog.exec_mapError]
  generalize (Branches.withBranch b f).exec db = out at ha ⊢
  cases ha with
  | absent => exact .inl ⟨_, rfl⟩
  | stale e => exact .inl ⟨e, rfl⟩
  | live st origin hb hc hr => exact (hf st origin).imp id fun h => ⟨st, origin, hb, hc, hr, h⟩

/-- The result of a group: a failed admission, or the group's over a snapshot. -/
lemma write_cases {ε : Type} (hh : HeadIs (tables db.store) head) (b : BranchId) (operation : CellOperation ε α) :
    (∃ e, ((Branches.write b operation).exec db).1 = .error (.branch e)) ∨
    ∃ (st : BranchState) (origin : Store.Read σ), db.branches.get? b = some st ∧ st.commitId = head.commitId ∧
      rows origin = tables db.store ∧ ((Branches.write b operation).exec db).1
        = (st.overlay.write origin operation).1.mapError Fault.toOperationError := by
  refine withBranch_cases hh b fun st origin => ?_
  cases hs : st.requireOpen with
  | error e => exact .inl ⟨e, rfl⟩
  | ok u => exact .inr rfl

/-- A new branch is open over the head. -/
lemma begin_each {P : BranchState → Prop} (hh : HeadIs (tables db.store) head) (h : db.Each P)
    (hnew : P ⟨head.commitId, CellOverlay.new, none⟩) :
    (Branches.begin.exec db).2.Each P ∧ (Branches.begin.exec db).2.store = db.store := by
  obtain ⟨origin, horigin, hrows⟩ := LawfulStore.beginRead_eq db.store
  have hhead : (Prog.read Branches.head : Prog BranchError (Branches σ) CommitId).exec db
      = (.ok head.commitId, db) := by
    show (db.head, db) = _
    rw [Branches.head, horigin, mapError_ok, ok_bind, HeadIs.readHead (by rw [hrows]; exact hh)]
  unfold Branches.begin
  rw [Prog.exec_bind, hhead]
  simp only
  rw [Prog.exec_bind]
  cases hs : checkedSucc db.nextBranchId with
  | none =>
    have hall : Branches.allocateBranchId.exec db = (.error .branchNumberExhausted, db) := by
      show Branches.allocateBranchId db = _
      simp [Branches.allocateBranchId, hs]
    rw [hall]
    exact ⟨h, rfl⟩
  | some next =>
    have hall : Branches.allocateBranchId.exec db = (.ok db.nextBranchId, { db with nextBranchId := next }) := by
      show Branches.allocateBranchId db = _
      simp [Branches.allocateBranchId, hs]
    rw [hall]
    have h' : ({ db with nextBranchId := next } : Branches σ).Each P := h
    exact ⟨h'.withState db.nextBranchId hnew, rfl⟩

/-- A discard drops a branch or nothing. -/
lemma discard_each {P : BranchState → Prop} (hh : HeadIs (tables db.store) head) (h : db.Each P) (b : BranchId) :
    ((Branches.discard b).exec db).2.Each P ∧ ((Branches.discard b).exec db).2.store = db.store := by
  unfold Branches.discard
  rcases withSlot_cases hh b .handleInvalid (fun _ _ => Branches.remove b) with
    ⟨-, he⟩ | ⟨st, -, -, he⟩ | ⟨st, origin, hb, hc, hr, he⟩
  · rw [he]
    exact ⟨h, rfl⟩
  · rw [he]
    exact ⟨h.without b, rfl⟩
  · rw [he]
    exact ⟨h.without b, rfl⟩

/-- A call that changes the overlay of an open branch keeps what holds of the new overlay. -/
lemma overlay_each {P : BranchState → Prop} (hh : HeadIs (tables db.store) head) (h : db.Each P) {b : BranchId}
    {operation : BranchState → Store.Read σ → α × BranchState}
    (hop : ∀ (st : BranchState) (origin : Store.Read σ), db.branches.get? b = some st →
      st.commitId = head.commitId → rows origin = tables db.store →
      (operation st origin).2 = st ∨ st.sealed = none ∧ ∃ o, (operation st origin).2 = { st with overlay := o } ∧
        (P st → P { st with overlay := o })) :
    ((Branches.withBranch b operation).exec db).2.Each P ∧
      ((Branches.withBranch b operation).exec db).2.store = db.store := by
  refine h.admitted (withBranch_admitted hh b operation) fun st origin hb hc hr hP => ?_
  rcases hop st origin hb hc hr with he | ⟨-, o, he, hw⟩
  · rw [he]
    exact hP
  · rw [he]
    exact hw hP

/-! ### Publication -/

variable {H : HashProvider} {R : Roaring}

/-- Publishing over the head a branch began at replaces the committed tables. -/
lemma publish_runs (hh : HeadIs (tables db.store) head) {s : SealedCommit} (hw : s.writes.Valid) :
    ∃ store', Prog.Runs (Branches.publish head.commitId s) db s.commitId { db with store := store' } ∧
      tables store' = publishedRows (tables db.store) s := by
  obtain ⟨tx, htx, hrows⟩ := LawfulStore.beginWrite_eq db.store
  have hhead : readHead tx = .ok head.commitId := HeadIs.readHead (by rwa [hrows])
  obtain ⟨tx', hstage, hrows'⟩ := stage_runs hhead hw
  obtain ⟨store', hcommit, htables⟩ := LawfulStore.commit_eq db.store tx'
  refine ⟨store', ?_, by rw [htables, hrows', hrows]⟩
  have hpersist : (persist tx head.commitId s).exec db.store = (.ok s.commitId, store') := by
    unfold persist
    rw [hstage]
    exact hcommit.mapError.bind (Prog.Runs.pure _ _)
  show Branches.publish head.commitId s db = _
  unfold Branches.publish
  rw [htx, mapError_ok]
  simp only
  rw [hpersist]

omit [LawfulStore σ] in
/-- A state after its seal: the cached result, or a computed one. -/
lemma sealState_ok {st st' : BranchState} {origin : Store.Read σ} {s : SealedCommit}
    (h : st.sealState H R origin = .ok (s, st')) :
    (st.sealed = some s ∨ st.sealed = none ∧ compute H R origin st.overlay = .ok s) ∧
      st' = { st with sealed := some s } := by
  unfold BranchState.sealState at h
  cases hopt : st.sealed with
  | some s₀ =>
    rw [hopt] at h
    obtain ⟨rfl, rfl⟩ := Prod.mk.inj (Except.ok.inj h)
    exact ⟨.inl rfl, by rw [← hopt]⟩
  | none =>
    rw [hopt] at h
    obtain ⟨s₀, hcomp, hrest⟩ := bind_eq_ok.mp h
    obtain ⟨rfl, rfl⟩ := Prod.mk.inj (pure_eq_ok.mp hrest)
    exact ⟨.inr ⟨rfl, hcomp⟩, rfl⟩

/-- A seal keeps the result of its branch's overlay over the tables. -/
lemma seal_each {P : BranchState → Prop} (hh : HeadIs (tables db.store) head) (h : db.Each P) (b : BranchId)
    (hop : ∀ (st : BranchState) (origin : Store.Read σ) (s : SealedCommit), st.commitId = head.commitId →
      rows origin = tables db.store → st.sealed = some s ∨ st.sealed = none ∧ compute H R origin st.overlay = .ok s →
      P st → P { st with sealed := some s }) :
    ((Branches.sealBranch H R b).exec db).2.Each P ∧
      ((Branches.sealBranch H R b).exec db).2.store = db.store := by
  rw [Branches.sealBranch, exec_ofExcept_self]
  refine h.admitted (withBranch_admitted hh b _) fun st origin hb hc hr hP => ?_
  cases hs : st.sealState H R origin with
  | error e => exact hP
  | ok p =>
    obtain ⟨s, st'⟩ := p
    obtain ⟨hwhere, rfl⟩ := sealState_ok hs
    exact hop st origin s hc hr hwhere hP

/-- A seal of a branch over the head is the cached one or that of a snapshot of the head. -/
lemma seal_live (hh : HeadIs (tables db.store) head) {b : BranchId} {st : BranchState}
    (hb : db.branches.get? b = some st) (hc : st.commitId = head.commitId) :
    ∃ origin : Store.Read σ, rows origin = tables db.store ∧
      ((Branches.sealBranch H R b).exec db).1 = (st.sealState H R origin).map Prod.fst := by
  obtain ⟨operation, hop, hdef⟩ :
      ∃ operation : BranchState → Store.Read σ → Except BranchError SealedCommit × BranchState,
      (∀ st origin, (operation st origin).1 = (st.sealState H R origin).map Prod.fst) ∧
      Branches.sealBranch H R b = (Branches.withBranch b operation >>= fun r => Prog.ofExcept r) :=
    ⟨_, fun st origin => by cases st.sealState H R origin <;> rfl, rfl⟩
  obtain ⟨origin, hr, he⟩ := withBranch_live hh hb hc operation
  refine ⟨origin, hr, ?_⟩
  rw [hdef, Prog.exec_bind, he]
  exact hop st origin

/-- **The outcomes of a commit.** A branch that is not found or whose seal fails changes nothing, a
stale one is dropped, and any other is published and dropped. -/
theorem commit_cases (hh : HeadIs (tables db.store) head) (b : BranchId)
    (hsealed : ∀ st s, db.branches.get? b = some st → st.commitId = head.commitId → st.sealed = some s →
      s.writes.Valid) :
    (∃ e, (Branches.commit H R b).exec db = (.error e, db)) ∨
    (Branches.commit H R b).exec db = (.error .conflict, db.without b) ∨
    ∃ (st : BranchState) (origin : Store.Read σ) (s : SealedCommit) (store' : σ),
      db.branches.get? b = some st ∧ st.commitId = head.commitId ∧ rows origin = tables db.store ∧
      (st.sealed = some s ∨ st.sealed = none ∧ compute H R origin st.overlay = .ok s) ∧
      tables store' = publishedRows (tables db.store) s ∧
      (Branches.commit H R b).exec db = (.ok s.commitId, { db.without b with store := store' }) := by
  unfold Branches.commit
  rcases withSlot_cases hh b .conflict (Branches.commitSlot H R b)
    with ⟨-, he⟩ | ⟨st, -, -, he⟩ | ⟨st, origin, hb, hc, hr, he⟩
  · exact .inl ⟨_, he⟩
  · exact .inr (.inl he)
  · rw [he]
    unfold Branches.commitSlot
    cases hs : st.sealState H R origin with
    | error e => exact .inl ⟨e, rfl⟩
    | ok p =>
      obtain ⟨s, st'⟩ := p
      obtain ⟨hwhere, hst⟩ := sealState_ok hs
      have hcid : st'.commitId = st.commitId := by rw [hst]
      have hvalid : s.writes.Valid := by
        rcases hwhere with h | ⟨-, h⟩
        · exact hsealed st s hb hc h
        · obtain ⟨-, -, -, -, -, hv⟩ := compute_ok h
          exact hv
      have hh' : HeadIs (tables (db.withState b st').store) head := hh
      obtain ⟨store', hpub, htables⟩ := publish_runs hh' hvalid
      refine .inr (.inr ⟨st, origin, s, store', hb, hc, hr, hwhere, htables, ?_⟩)
      have herase : (db.branches.insert b st').erase b = db.branches.erase b := by
        refine OrdMap.ext_get fun k => ?_
        rw [OrdMap.get?_erase, OrdMap.get?_insert, OrdMap.get?_erase]
        by_cases hk : k = b <;> simp [hk]
      have hsettle : Prog.Runs (Branches.settleCommit b (.ok s.commitId))
          { db.withState b st' with store := store' } s.commitId { db.without b with store := store' } := by
        show (Except.ok s.commitId,
          { (db.withState b st') with store := store', branches := (db.branches.insert b st').erase b }) = _
        rw [herase]
        rfl
      have hout : Prog.Runs (Prog.outcome (Branches.publish st'.commitId s) :
          Prog BranchError (Branches σ) _) (db.withState b st') (.ok s.commitId)
          { db.withState b st' with store := store' } := by
        rw [hcid, hc]
        show (Except.ok ((Branches.publish head.commitId s).exec (db.withState b st')).1, _) = _
        rw [hpub]
      exact (Prog.Runs.ofExcept rfl).bind ((show Prog.Runs (Branches.setBranch b (some st')) db ()
        (db.withState b st') from rfl).bind (hout.bind hsettle))

end Admission

end GolemDb.Branch
