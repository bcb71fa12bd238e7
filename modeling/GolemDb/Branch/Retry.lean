import GolemDb.Branch.Calls
import GolemDb.Storage.Faults
import GolemDb.Merkle.History
import GolemDb.Index.Container

/-!
Publication over storage that fails. A commit that fails leaves the committed tables as they were,
and the branch either as it was or sealed with the computed result; a sealed branch keeps its result
until it is gone, and a later commit over the same head publishes that result (`commit_retryable`).
-/

namespace GolemDb.Branch

open GolemDb.Lib GolemDb.Storage GolemDb.Merkle GolemDb.Cells GolemDb.Index

/-! ### Staging over storage that fails -/

section Stage

/-- An error that a failing storage operation gives. -/
def FromStorage (e : BranchError) : Prop := ∃ source, e = .storage source

/-- The head is read, or the read fails in storage. -/
lemma readHead_meets {ρ : Type} [ReadTransaction ρ] [HonestRead ρ] {tx : ρ} {head : Head}
    (hh : HeadIs (shown tx) head) : Prog.Meets FromStorage (fun c => c = head.commitId) (readHead tx) := by
  cases hget : ReadTransaction.get tx SUPERBLOCK HEAD_KEY with
  | error e =>
    have : readHead tx = .error (.storage e) := by
      rw [readHead, readHeadState, hget]
      rfl
    rw [this]
    exact ⟨e, rfl⟩
  | ok v =>
    rw [HonestRead.get_ok SUPERBLOCK_valid hget, hh] at hget
    have : readHead tx = .ok head.commitId := by
      rw [readHead, readHeadState_of_get hget]
      rfl
    rw [this]
    exact rfl

variable {τ : Type} [WriteTransaction τ]

omit [WriteTransaction τ] in
lemma mapError_storage_post {α : Type} (c : Prog StorageError τ α) :
    Prog.Post FromStorage (fun _ => True) (Prog.mapError BranchError.storage c) :=
  Prog.Post.mapError fun e => ⟨e, rfl⟩

/-- A replay that fails fails in storage. -/
lemma replay_post (w : Writes) : Prog.Post FromStorage (fun _ => True) (replay w : Prog BranchError τ Unit) := by
  refine Prog.Post.foldlM _ _ (fun e _ _ _ => ?_) trivial
  refine Prog.Post.foldlM _ _ (fun row _ _ _ => ?_) trivial
  unfold replayRow
  cases row.2 with
  | some value => exact mapError_storage_post _
  | none => exact (mapError_storage_post _).bind fun _ _ => Prog.Post.pure trivial

variable [HonestWrite τ]

/-- A replay of a row that succeeds sets the row. -/
lemma replayRow_shown {t : Table} (ht : t.validate = .ok ()) {tx tx' : τ} {row : Bytes × Option Bytes}
    (h : Prog.Runs (replayRow t () row) tx () tx') :
    shown tx' = Function.update (shown tx) t ((shown tx t).set row.1 row.2) := by
  unfold replayRow at h
  cases hv : row.2 with
  | some value =>
    rw [hv] at h
    exact HonestWrite.put_ok ht (Prog.runs_mapError.mp h)
  | none =>
    rw [hv] at h
    obtain ⟨existed, tx₁, hd, hp⟩ := Prog.runs_bind_iff.mp h
    obtain rfl := Prog.runs_pure.mp hp
    exact HonestWrite.delete_ok ht (Prog.runs_mapError.mp hd)

/-- A replay that succeeds sets the staged rows over every table. -/
lemma replay_shown {w : Writes} (hw : w.Valid) {tx tx' : τ} (h : Prog.Runs (replay w) tx () tx') :
    ∀ t, shown tx' t = (shown tx t).overlay (w.rowsOf t) := by
  have hrows : ∀ {t : Table}, t.validate = .ok () → ∀ (l : List (Bytes × Option Bytes)) (tx tx' : τ),
      Prog.Runs (l.foldlM (replayRow t) ()) tx () tx' →
      shown tx' = Function.update (shown tx) t (l.foldl (fun r e => r.set e.1 e.2) (shown tx t)) := by
    intro t ht l
    induction l with
    | nil =>
      intro tx tx' h
      obtain rfl := Prog.runs_pure.mp h
      simp
    | cons e l ih =>
      intro tx tx' h
      rw [List.foldlM_cons] at h
      obtain ⟨⟨⟩, tx₁, h1, h2⟩ := Prog.runs_bind_iff.mp h
      rw [ih tx₁ tx' h2, replayRow_shown ht h1, Function.update_self, Function.update_idem, List.foldl_cons]
  have htables : ∀ (l : List (Table × StagedRows)), (∀ e ∈ l, e.1.validate = .ok ()) → ∀ tx tx' : τ,
      Prog.Runs (l.foldlM (fun _ e => e.2.entries.foldlM (replayRow e.1) ()) ()) tx () tx' →
      shown tx' = l.foldl (fun r e => Function.update r e.1 ((r e.1).overlay e.2)) (shown tx) := by
    intro l
    induction l with
    | nil =>
      intro _ tx tx' h
      obtain rfl := Prog.runs_pure.mp h
      rfl
    | cons e l ih =>
      intro hv tx tx' h
      rw [List.foldlM_cons] at h
      obtain ⟨⟨⟩, tx₁, h1, h2⟩ := Prog.runs_bind_iff.mp h
      rw [ih (fun x hx => hv x (List.mem_cons_of_mem _ hx)) tx₁ tx' h2,
        hrows (hv e (List.mem_cons_self ..)) _ _ _ h1]
      rfl
  intro t
  rw [htables w.entries (fun e he => hw.mem he) tx tx' h, foldl_staged w.entries w.sorted]

/-- **Staging over the branch's own head** publishes the staged rows and the head into the writer,
or fails in storage. -/
theorem stage_outcome {head : Head} {s : SealedCommit} (hw : s.writes.Valid) {tx : τ}
    (hh : HeadIs (shown tx) head) :
    (∃ tx', (stage head.commitId s).exec tx = (.ok (), tx') ∧ shown tx' = publishedRows (shown tx) s) ∨
      ∃ e tx', (stage head.commitId s).exec tx = (.error (.storage e), tx') := by
  have hread := readHead_meets hh
  unfold stage
  rw [Prog.exec_bind]
  cases hr : readHead tx with
  | error e =>
    rw [hr] at hread
    obtain ⟨e', rfl⟩ := hread
    have hx : (Prog.read fun tx : τ => readHead tx).exec tx = (.error (.storage e'), tx) := Prod.ext hr rfl
    rw [hx]
    exact .inr ⟨e', tx, rfl⟩
  | ok c =>
    rw [hr] at hread
    obtain rfl : c = head.commitId := hread
    have hx : (Prog.read fun tx : τ => readHead tx).exec tx = (.ok head.commitId, tx) := Prod.ext hr rfl
    rw [hx]
    simp only [ne_eq, not_true_eq_false, if_false]
    rw [Prog.exec_bind]
    have hpost := replay_post (τ := τ) s.writes tx
    rcases hrep : (replay s.writes : Prog BranchError τ Unit).exec tx with ⟨e | u, tx₁⟩
    · rw [hrep] at hpost
      obtain ⟨e', rfl⟩ := hpost
      exact .inr ⟨e', tx₁, rfl⟩
    · have hrows : ∀ t, shown tx₁ t = (shown tx t).overlay (s.writes.rowsOf t) :=
        replay_shown hw (by rw [Prog.Runs, hrep])
      have hpost₂ := mapError_storage_post (WriteTransaction.put SUPERBLOCK HEAD_KEY
        (Head.encode ⟨s.commitId, s.stateRoot, s.indexRoot⟩)) tx₁
      simp only
      rcases hput : (writeHead ⟨s.commitId, s.stateRoot, s.indexRoot⟩ : Prog BranchError τ Unit).exec tx₁
        with ⟨e | u, tx₂⟩
      · rw [writeHead] at hput
        rw [hput] at hpost₂
        obtain ⟨e', rfl⟩ := hpost₂
        exact .inr ⟨e', tx₂, rfl⟩
      · refine .inl ⟨tx₂, rfl, ?_⟩
        have hput' : Prog.Runs (WriteTransaction.put SUPERBLOCK HEAD_KEY
            (Head.encode ⟨s.commitId, s.stateRoot, s.indexRoot⟩)) tx₁ () tx₂ := Prog.runs_mapError.mp hput
        funext t
        rw [HonestWrite.put_ok SUPERBLOCK_valid hput', publishedRows]
        by_cases ht : t = SUPERBLOCK
        · subst ht
          rw [Function.update_self, if_pos rfl, hrows]
        · rw [Function.update_of_ne ht, if_neg ht, hrows]

omit [HonestWrite τ] in
/-- A replay into a transaction that serves succeeds. -/
lemma replay_served {W : τ → Prop} (hW : WritesServe W) {w : Writes} (hw : w.Valid) {tx : τ} (htx : W tx) :
    ∃ tx', Prog.Runs (replay w) tx () tx' ∧ W tx' := by
  have hrow : ∀ {t : Table}, t.validate = .ok () → ∀ (row : Bytes × Option Bytes) (tx : τ), W tx →
      ∃ tx', Prog.Runs (replayRow t () row) tx () tx' ∧ W tx' := by
    intro t ht row tx htx
    unfold replayRow
    cases row.2 with
    | some value =>
      obtain ⟨tx', hr, h'⟩ := hW.put tx htx t row.1 value ht
      exact ⟨tx', hr.mapError, h'⟩
    | none =>
      obtain ⟨existed, tx', hr, h'⟩ := hW.delete tx htx t row.1 ht
      exact ⟨tx', hr.mapError.bind (Prog.Runs.pure () tx'), h'⟩
  obtain ⟨⟨⟩, tx', hr, -, h'⟩ := Prog.runs_foldlM
    (f := fun (_ : Unit) (e : Table × StagedRows) => e.2.entries.foldlM (replayRow (τ := τ) e.1) ())
    (fun l _ tx => (∀ e ∈ l, e.1.validate = .ok ()) ∧ W tx)
    (by
      rintro e l ⟨⟩ tx ⟨hv, htx⟩
      obtain ⟨⟨⟩, tx', hr, h'⟩ := Prog.runs_foldlM (f := replayRow (τ := τ) e.1) (fun _ _ tx => W tx)
        (by
          rintro row l ⟨⟩ tx htx
          obtain ⟨tx', hr, h'⟩ := hrow (hv e (List.mem_cons_self ..)) row tx htx
          exact ⟨(), tx', hr, h'⟩) e.2.entries () tx htx
      exact ⟨(), tx', hr, fun x hx => hv x (List.mem_cons_of_mem _ hx), h'⟩)
    w.entries () tx ⟨fun e he => hw.mem he, htx⟩
  exact ⟨tx', hr, h'⟩

/-- Staging into a writer that serves succeeds over the branch's own head. -/
lemma stage_served {W : τ → Prop} (hW : WritesServe W) {head : Head} {s : SealedCommit}
    (hw : s.writes.Valid) {tx : τ} (htx : W tx) (hh : HeadIs (shown tx) head) :
    ∃ tx', Prog.Runs (stage head.commitId s) tx () tx' ∧ W tx' := by
  obtain ⟨v, hget⟩ := hW.reads tx htx SUPERBLOCK HEAD_KEY SUPERBLOCK_valid
  rw [HonestRead.get_ok SUPERBLOCK_valid hget, hh] at hget
  have hread : readHead tx = .ok head.commitId := by
    rw [readHead, readHeadState_of_get hget]
    rfl
  obtain ⟨tx₁, hr₁, h₁⟩ := replay_served hW hw htx
  obtain ⟨tx₂, hr₂, h₂⟩ := hW.put tx₁ h₁ SUPERBLOCK HEAD_KEY
    (Head.encode ⟨s.commitId, s.stateRoot, s.indexRoot⟩) SUPERBLOCK_valid
  refine ⟨tx₂, (Prog.Runs.read hread).bind ?_, h₂⟩
  rw [if_neg (fun h => h rfl)]
  exact hr₁.bind hr₂.mapError

end Stage

/-! ### Calls over storage that fails -/

section Calls

variable {H : HashProvider} {R : Roaring} {σ : Type} [Store σ] {db : Branches σ} {α : Type}

/-- The snapshot of a call that is admitted to the branch. -/
def Admits (db : Branches σ) (st : BranchState) (origin : Store.Read σ) : Prop :=
  Store.beginRead db.store = .ok origin ∧ readHead origin = .ok st.commitId

/-- **The outcomes of admission**, whatever the store does. -/
theorem withSlot_outcomes (db : Branches σ) (b : BranchId) (stale : BranchError)
    (operation : BranchState → Store.Read σ → Prog BranchError (Branches σ) α) :
    (db.branches.get? b = none ∧ (Branches.withSlot b stale operation).exec db = (.error .handleInvalid, db)) ∨
    ∃ st, db.branches.get? b = some st ∧
      ((∃ e, (Branches.withSlot b stale operation).exec db = (.error e, db) ∧
          ((∃ source, Store.beginRead db.store = .error source ∧ e = .storage source) ∨
            ∃ origin, Store.beginRead db.store = .ok origin ∧ readHead origin = .error e)) ∨
        (∃ origin c, Store.beginRead db.store = .ok origin ∧ readHead origin = .ok c ∧ c ≠ st.commitId ∧
          (Branches.withSlot b stale operation).exec db = (.error stale, db.without b)) ∨
        ∃ origin, Admits db st origin ∧
          (Branches.withSlot b stale operation).exec db = (operation st origin).exec db) := by
  have hlook : ∀ {x : Option BranchState}, db.branches.get? b = x →
      (Prog.read fun db : Branches σ => (.ok (db.branches.get? b) : Except BranchError _)).exec db
        = (.ok x, db) := by
    rintro x rfl
    rfl
  unfold Branches.withSlot
  rw [Prog.exec_bind]
  cases hb : db.branches.get? b with
  | none =>
    rw [hlook hb]
    exact .inl ⟨rfl, rfl⟩
  | some st =>
    rw [hlook hb]
    refine .inr ⟨st, rfl, ?_⟩
    simp only
    rw [Prog.exec_bind]
    cases hbegin : Store.beginRead db.store with
    | error source =>
      have hread : (Prog.read fun db : Branches σ =>
          (Store.beginRead db.store).mapError BranchError.storage).exec db = (.error (.storage source), db) :=
        Prod.ext (by rw [Prog.exec, Prog.read, hbegin]; rfl) rfl
      rw [hread]
      exact .inl ⟨_, rfl, .inl ⟨source, rfl, rfl⟩⟩
    | ok origin =>
      have hread : (Prog.read fun db : Branches σ =>
          (Store.beginRead db.store).mapError BranchError.storage).exec db = (.ok origin, db) :=
        Prod.ext (by rw [Prog.exec, Prog.read, hbegin]; rfl) rfl
      rw [hread]
      simp only
      rw [Prog.exec_bind]
      cases hhead : readHead origin with
      | error e => exact .inl ⟨e, rfl, .inr ⟨origin, rfl, hhead⟩⟩
      | ok c =>
        have hpure : (Prog.ofExcept (.ok c) : Prog BranchError (Branches σ) CommitId).exec db = (.ok c, db) := rfl
        rw [hpure]
        simp only
        by_cases hne : c = st.commitId
        · rw [if_neg (not_not.mpr hne)]
          exact .inr (.inr ⟨origin, ⟨hbegin, by rw [hhead, hne]⟩, rfl⟩)
        · rw [if_pos hne]
          exact .inr (.inl ⟨origin, c, rfl, hhead, hne, rfl⟩)

/-- An ordinary call keeps the store and every other branch; its own branch is kept, dropped, or
gets the state that the operation returns. -/
lemma withBranch_outcomes (db : Branches σ) (b : BranchId) (operation : BranchState → Store.Read σ → α × BranchState) :
    ((Branches.withBranch b operation).exec db).2 = db ∨
    ((Branches.withBranch b operation).exec db).2 = db.without b ∨
    ∃ st origin, db.branches.get? b = some st ∧ Admits db st origin ∧
      ((Branches.withBranch b operation).exec db).2 = db.withState b (operation st origin).2 := by
  unfold Branches.withBranch
  rcases withSlot_outcomes db b .handleInvalid (fun state origin => do
      Branches.setBranch b (some (operation state origin).2)
      return (operation state origin).1) with
    ⟨-, he⟩ | ⟨st, hb, ⟨e, he, -⟩ | ⟨origin, c, -, -, -, he⟩ | ⟨origin, hadm, he⟩⟩
  · exact .inl (by rw [he])
  · exact .inl (by rw [he])
  · exact .inr (.inl (by rw [he]))
  · exact .inr (.inr ⟨st, origin, hb, hadm, by rw [he]; rfl⟩)

variable [FallibleStore σ]

/-- **Publication over the branch's own head** replaces the tables, or fails in storage and leaves
them. -/
theorem publish_outcome (db : Branches σ) {head : Head} {s : SealedCommit} (hw : s.writes.Valid)
    (hh : HeadIs (held db.store) head) :
    (∃ store', (Branches.publish head.commitId s).exec db = (.ok s.commitId, { db with store := store' }) ∧
      held store' = publishedRows (held db.store) s) ∨
    ∃ e store', (Branches.publish head.commitId s).exec db = (.error (.storage e), { db with store := store' }) ∧
      held store' = held db.store := by
  show (∃ store', Branches.publish head.commitId s db = _ ∧ _) ∨ ∃ e store', Branches.publish head.commitId s db = _ ∧ _
  unfold Branches.publish
  cases hbegin : Store.beginWrite db.store with
  | error e => exact .inr ⟨e, db.store, rfl, rfl⟩
  | ok tx =>
    have hshown := FallibleStore.beginWrite_ok hbegin
    have htx : HeadIs (shown tx) head := by rw [hshown]; exact hh
    simp only [mapError_ok]
    unfold persist
    rcases stage_outcome hw htx with ⟨tx', hst, hrows⟩ | ⟨e, tx', hst⟩
    · rw [hst]
      simp only
      rw [Prog.exec_bind, Prog.exec_mapError]
      rcases hcommit : (Store.commit tx').exec db.store with ⟨e | u, store'⟩
      · exact .inr ⟨e, store', rfl, FallibleStore.commit_error hcommit⟩
      · refine .inl ⟨store', rfl, ?_⟩
        have hheld : held store' = shown tx' := FallibleStore.commit_ok hcommit
        rw [hheld, hrows, hshown]
    · rw [hst]
      exact .inr ⟨e, db.store, rfl, rfl⟩

/-- Publication succeeds when no operation fails. -/
lemma publish_served (db : Branches σ) {head : Head} {s : SealedCommit} (hw : s.writes.Valid)
    (hh : HeadIs (held db.store) head) (hs : Serves db.store) :
    ((Branches.publish head.commitId s).exec db).1 = .ok s.commitId := by
  obtain ⟨W, hW, ⟨tx, hbegin, htx⟩, hcommit⟩ := hs.writes
  have hshown := FallibleStore.beginWrite_ok hbegin
  obtain ⟨tx', hst, htx'⟩ := stage_served hW hw htx (by rw [hshown]; exact hh)
  obtain ⟨store', hc⟩ := hcommit tx' htx'
  have hpersist : (persist tx head.commitId s).exec db.store = (.ok s.commitId, store') := by
    unfold persist
    rw [hst]
    exact hc.mapError.bind (Prog.Runs.pure _ _)
  show (Branches.publish head.commitId s db).1 = _
  unfold Branches.publish
  rw [hbegin, mapError_ok]
  simp only
  rw [hpersist]

/-- The branch seals, or is sealed already, in the snapshot of an admitted call. -/
def SealsTo (H : HashProvider) (R : Roaring) (db : Branches σ) (st : BranchState) (s : SealedCommit) : Prop :=
  ∃ origin, Admits db st origin ∧ (st.sealed = some s ∨ st.sealed = none ∧ compute H R origin st.overlay = .ok s)

omit [FallibleStore σ] in
lemma SealsTo.valid {st : BranchState} {s : SealedCommit} (h : SealsTo H R db st s)
    (hst : ∀ s, st.sealed = some s → s.writes.Valid) : s.writes.Valid := by
  obtain ⟨origin, -, hs | ⟨-, hs⟩⟩ := h
  · exact hst s hs
  · exact compute_valid hs

/-- **The outcomes of a commit over storage that fails.** -/
theorem commit_outcomes {head : Head} (hh : HeadIs (held db.store) head) {b : BranchId} {st : BranchState}
    (hb : db.branches.get? b = some st) (hst : ∀ s, st.sealed = some s → s.writes.Valid) :
    -- the head has moved: the branch is dropped
    (head.commitId ≠ st.commitId ∧ (Branches.commit H R b).exec db = (.error .conflict, db.without b)) ∨
    -- the branch was not sealed: nothing changes
    (∃ e, (∀ s, ¬ SealsTo H R db st s) ∧ (FromStorage e ∨ st.sealed = none) ∧
      (Branches.commit H R b).exec db = (.error e, db)) ∨
    ∃ s, SealsTo H R db st s ∧ head.commitId = st.commitId ∧
      -- the publication fails: the branch keeps its seal
      ((∃ e store', ((Branches.publish head.commitId s).exec
            (db.withState b { st with sealed := some s })).1 = .error (.storage e) ∧
          (Branches.commit H R b).exec db
            = (.error (.storage e), { db.withState b { st with sealed := some s } with store := store' }) ∧
          held store' = held db.store) ∨
      -- the branch is published
      ∃ store', (Branches.commit H R b).exec db = (.ok s.commitId, { db.without b with store := store' }) ∧
        held store' = publishedRows (held db.store) s) := by
  have hshown : ∀ {origin : Store.Read σ}, Store.beginRead db.store = .ok origin → HeadIs (shown origin) head := by
    intro origin hbegin
    rw [FallibleStore.beginRead_ok hbegin]
    exact hh
  have hhead : ∀ {origin : Store.Read σ} {c : CommitId}, Store.beginRead db.store = .ok origin →
      readHead origin = .ok c → c = head.commitId := by
    intro origin c hbegin hread
    have hmeets := readHead_meets (hshown hbegin)
    rw [hread] at hmeets
    exact hmeets
  unfold Branches.commit
  rcases withSlot_outcomes db b .conflict (Branches.commitSlot H R b) with
    ⟨hn, -⟩ | ⟨st₀, hb₀, ⟨e, he, hfail⟩ | ⟨origin, c, hbegin, hread, hne, he⟩ | ⟨origin, hadm, he⟩⟩
  · rw [hb] at hn
    cases hn
  · refine .inr (.inl ⟨e, ?_, .inl ?_, he⟩)
    · rintro s ⟨origin', ⟨hbegin', hread'⟩, -⟩
      rcases hfail with ⟨source, hbegin, -⟩ | ⟨origin, hbegin, hread⟩
      · rw [hbegin] at hbegin'
        cases hbegin'
      · obtain rfl := Except.ok.inj (hbegin.symm.trans hbegin')
        rw [hread] at hread'
        cases hread'
    · rcases hfail with ⟨source, -, rfl⟩ | ⟨origin, hbegin, hread⟩
      · exact ⟨source, rfl⟩
      · have hmeets := readHead_meets (hshown hbegin)
        rw [hread] at hmeets
        exact hmeets
  · obtain rfl := Option.some.inj (hb.symm.trans hb₀)
    exact .inl ⟨by rw [← hhead hbegin hread]; exact hne, he⟩
  · obtain rfl := Option.some.inj (hb.symm.trans hb₀)
    have hcid : head.commitId = st.commitId := (hhead hadm.1 hadm.2).symm
    rw [he]
    unfold Branches.commitSlot
    rw [Prog.exec_bind]
    cases hs : st.sealState H R origin with
    | error e =>
      unfold BranchState.sealState at hs
      cases hopt : st.sealed with
      | some s₀ =>
        rw [hopt] at hs
        cases hs
      | none =>
        refine .inr (.inl ⟨e, ?_, .inr rfl, rfl⟩)
        rintro s ⟨origin', ⟨hbegin', -⟩, hsome | ⟨-, hcomp⟩⟩
        · rw [hopt] at hsome
          cases hsome
        · obtain rfl := Except.ok.inj (hadm.1.symm.trans hbegin')
          rw [hopt, hcomp] at hs
          cases hs
    | ok p =>
      obtain ⟨s, st'⟩ := p
      obtain ⟨hwhere, rfl⟩ := sealState_ok hs
      have hseals : SealsTo H R db st s := ⟨origin, hadm, hwhere⟩
      refine .inr (.inr ⟨s, hseals, hcid, ?_⟩)
      have hset : (Branches.setBranch b (some { st with sealed := some s })).exec db
          = (.ok (), db.withState b { st with sealed := some s }) := rfl
      have hpure : (Prog.ofExcept (Except.ok (s, { st with sealed := some s })) :
          Prog BranchError (Branches σ) _).exec db = (.ok (s, { st with sealed := some s }), db) := rfl
      have herase : ∀ st', (db.branches.insert b st').erase b = db.branches.erase b := by
        intro st'
        refine OrdMap.ext_get fun k => ?_
        rw [OrdMap.get?_erase, OrdMap.get?_insert, OrdMap.get?_erase]
        by_cases hk : k = b <;> simp [hk]
      rw [hpure]
      simp only
      rw [Prog.exec_bind, hset]
      simp only
      rw [Prog.exec_bind]
      rcases publish_outcome (db.withState b { st with sealed := some s }) (hseals.valid hst) hh with
        ⟨store', hpub, hheld⟩ | ⟨e, store', hpub, hheld⟩
      · refine .inr ⟨store', ?_, hheld⟩
        have hout : (Prog.outcome (Branches.publish st.commitId s) : Prog BranchError (Branches σ) _).exec
            (db.withState b { st with sealed := some s })
              = (.ok (.ok s.commitId), { db.withState b { st with sealed := some s } with store := store' }) := by
          rw [hcid] at hpub
          show (Except.ok ((Branches.publish st.commitId s).exec _).1, _) = _
          rw [hpub]
        rw [hout]
        show (Except.ok s.commitId, { (db.withState b { st with sealed := some s }) with
          store := store', branches := (db.branches.insert b { st with sealed := some s }).erase b }) = _
        rw [herase]
        rfl
      · refine .inl ⟨e, store', by rw [hpub], ?_, hheld⟩
        have hout : (Prog.outcome (Branches.publish st.commitId s) : Prog BranchError (Branches σ) _).exec
            (db.withState b { st with sealed := some s })
              = (.ok (.error (.storage e)), { db.withState b { st with sealed := some s } with store := store' }) := by
          rw [hcid] at hpub
          show (Except.ok ((Branches.publish st.commitId s).exec _).1, _) = _
          rw [hpub]
        rw [hout]
        rfl

end Calls

/-! ### Runs over storage that fails -/

section Runs

variable {H : HashProvider} {R : Roaring} {σ : Type} [Store σ] [FallibleStore σ] {db db' : Branches σ}

/-- What holds of every manager: its branches were numbered before, what they sealed has valid table
names, and the store has a head. -/
structure Sane (db : Branches σ) : Prop where
  numbered : ∀ b st, db.branches.get? b = some st → b < db.nextBranchId
  valid : ∀ b st s, db.branches.get? b = some st → st.sealed = some s → s.writes.Valid
  head : ∃ head, HeadIs (held db.store) head

/-- **What a call can do to the manager**: the store keeps a head, a sealed branch keeps its state
until it is gone, and a new branch has a new number. -/
structure Effect (db db' : Branches σ) : Prop where
  head : ∃ head, HeadIs (held db'.store) head
  next : db.nextBranchId ≤ db'.nextBranchId
  branch : ∀ b st', db'.branches.get? b = some st' →
    (∃ st, db.branches.get? b = some st ∧ (st.sealed ≠ none → st' = st) ∧
      ∀ s, st'.sealed = some s → st.sealed = some s ∨ s.writes.Valid) ∨
    b = db.nextBranchId ∧ db.nextBranchId < db'.nextBranchId ∧ st'.sealed = none

lemma Sane.effect (h : Sane db) (he : Effect db db') : Sane db' := by
  refine ⟨fun b st' hb => ?_, fun b st' s hb hs => ?_, he.head⟩
  · rcases he.branch b st' hb with ⟨st, hst, -⟩ | ⟨rfl, hlt, -⟩
    · exact lt_of_lt_of_le (h.numbered b st hst) he.next
    · exact hlt
  · rcases he.branch b st' hb with ⟨st, hst, -, hvalid⟩ | ⟨-, -, hnone⟩
    · rcases hvalid s hs with hs | hs
      · exact h.valid b st s hst hs
      · exact hs
    · rw [hnone] at hs
      cases hs

namespace Effect

lemma same (h : Sane db) {store' : σ} (hh : ∃ head, HeadIs (held store') head) :
    Effect db { db with store := store' } :=
  ⟨hh, le_rfl, fun b st' hb => .inl ⟨st', hb, fun _ => rfl, fun s hs => .inr (h.valid b st' s hb hs)⟩⟩

lemma without (h : Sane db) (b : BranchId) {store' : σ} (hh : ∃ head, HeadIs (held store') head) :
    Effect db { db.without b with store := store' } := by
  refine ⟨hh, le_rfl, fun b' st' hb' => ?_⟩
  have hb' : (db.branches.erase b).get? b' = some st' := hb'
  rw [OrdMap.get?_erase] at hb'
  split_ifs at hb'
  exact .inl ⟨st', hb', fun _ => rfl, fun s hs => .inr (h.valid b' st' s hb' hs)⟩

lemma withState (h : Sane db) {b : BranchId} {st st' : BranchState} (hb : db.branches.get? b = some st)
    (hsealed : st.sealed ≠ none → st' = st)
    (hvalid : ∀ s, st'.sealed = some s → st.sealed = some s ∨ s.writes.Valid) {store' : σ}
    (hh : ∃ head, HeadIs (held store') head) :
    Effect db { db.withState b st' with store := store' } := by
  refine ⟨hh, le_rfl, fun b' st'' hb' => ?_⟩
  have hb' : (db.branches.insert b st').get? b' = some st'' := hb'
  rw [OrdMap.get?_insert] at hb'
  split_ifs at hb' with heq
  · obtain rfl := Option.some.inj hb'
    exact .inl ⟨st, by rw [heq]; exact hb, hsealed, hvalid⟩
  · exact .inl ⟨st'', hb', fun _ => rfl, fun s hs => .inr (h.valid b' st'' s hb' hs)⟩

/-- An ordinary call that keeps sealed states. -/
lemma withBranch (h : Sane db) {α : Type} (b : BranchId)
    (operation : BranchState → Store.Read σ → α × BranchState)
    (hop : ∀ st origin, (st.sealed ≠ none → (operation st origin).2 = st) ∧
      ∀ s, (operation st origin).2.sealed = some s → st.sealed = some s ∨ s.writes.Valid) :
    Effect db ((Branches.withBranch b operation).exec db).2 := by
  rcases withBranch_outcomes db b operation with he | he | ⟨st, origin, hb, -, he⟩
  · rw [he]
    exact same h h.head
  · rw [he]
    exact without h b h.head
  · rw [he]
    exact withState h hb (hop st origin).1 (hop st origin).2 h.head

end Effect

/-- An operation that a sealed branch refuses, and that leaves an open one open. -/
lemma Effect.refused (h : Sane db) {α : Type} (b : BranchId)
    (operation : BranchState → Store.Read σ → α × BranchState)
    (hsealed : ∀ st origin s, st.sealed = some s → (operation st origin).2 = st)
    (hopen : ∀ st origin, st.sealed = none → (operation st origin).2.sealed = none) :
    Effect db ((Branches.withBranch b operation).exec db).2 := by
  refine Effect.withBranch h b operation fun st origin => ?_
  cases hs : st.sealed with
  | some s =>
    rw [hsealed st origin s hs]
    exact ⟨fun _ => rfl, fun s' hs' => .inl (hs.symm.trans hs')⟩
  | none =>
    refine ⟨fun hne => absurd rfl hne, fun s' hs' => ?_⟩
    rw [hopen st origin hs] at hs'
    cases hs'

/-- **Every call has such an effect.** -/
theorem call_effect (h : Sane db) (call : Call) : Effect db (call.exec H R db) := by
  cases call with
  | begin =>
    show Effect db (Branches.begin.exec db).2
    unfold Branches.begin
    rw [Prog.exec_bind]
    rcases hhead : (Prog.read Branches.head : Prog BranchError (Branches σ) CommitId).exec db with ⟨e | c, db₁⟩
    · obtain rfl : db = db₁ := congrArg Prod.snd hhead
      exact Effect.same h h.head
    · obtain rfl : db = db₁ := congrArg Prod.snd hhead
      simp only
      rw [Prog.exec_bind]
      cases hs : checkedSucc db.nextBranchId with
      | none =>
        have hall : Branches.allocateBranchId.exec db = (.error .branchNumberExhausted, db) := by
          show Branches.allocateBranchId db = _
          simp [Branches.allocateBranchId, hs]
        rw [hall]
        exact Effect.same h h.head
      | some next =>
        have hall : Branches.allocateBranchId.exec db
            = (.ok db.nextBranchId, { db with nextBranchId := next }) := by
          show Branches.allocateBranchId db = _
          simp [Branches.allocateBranchId, hs]
        rw [hall]
        have hlt := (checkedSucc_lt hs).1
        refine ⟨h.head, hlt.le, fun b st' hb => ?_⟩
        have hb : (db.branches.insert db.nextBranchId ⟨c, CellOverlay.new, none⟩).get? b = some st' := hb
        rw [OrdMap.get?_insert] at hb
        split_ifs at hb with heq
        · obtain rfl := Option.some.inj hb
          exact .inr ⟨heq, hlt, rfl⟩
        · exact .inl ⟨st', hb, fun _ => rfl, fun s hs => .inr (h.valid b st' s hb hs)⟩
  | write b group =>
    show Effect db ((Branches.write b group).exec db).2
    rw [Branches.write, exec_ofExcept_self, Prog.exec_mapError]
    refine Effect.refused h b _ (fun st origin s hs => ?_) fun st origin hs => ?_
    · simp only [BranchState.requireOpen, hs, Option.isSome_some, if_true]
    · simp only [BranchState.requireOpen, hs, Option.isSome_none, Bool.false_eq_true, if_false]
  | checkpoint b =>
    show Effect db ((Branches.checkpoint b).exec db).2
    rw [Branches.checkpoint, exec_ofExcept_self]
    refine Effect.refused h b _ (fun st origin s hs => ?_) fun st origin hs => ?_
    · simp only [BranchState.requireOpen, hs, Option.isSome_some, if_true]
    · simp only [BranchState.requireOpen, hs, Option.isSome_none, Bool.false_eq_true, if_false]
  | rollback b =>
    show Effect db ((Branches.rollback b).exec db).2
    rw [Branches.rollback, exec_ofExcept_self]
    refine Effect.refused h b _ (fun st origin s hs => ?_) fun st origin hs => ?_
    · simp only [BranchState.requireOpen, hs, Option.isSome_some, if_true]
    · simp only [BranchState.requireOpen, hs, Option.isSome_none, Bool.false_eq_true, if_false]
  | sealBranch b =>
    show Effect db ((Branches.sealBranch H R b).exec db).2
    rw [Branches.sealBranch, exec_ofExcept_self]
    refine Effect.withBranch h b _ fun st origin => ?_
    cases hs : st.sealState H R origin with
    | error e => exact ⟨fun _ => rfl, fun s hs => .inl hs⟩
    | ok p =>
      obtain ⟨s, st'⟩ := p
      obtain ⟨hwhere, rfl⟩ := sealState_ok hs
      rcases hwhere with hsome | ⟨hnone, hcomp⟩
      · exact ⟨fun _ => by rw [← hsome], fun s' hs' => .inl (by rw [← hs', hsome])⟩
      · refine ⟨fun hne => absurd hnone hne, fun s' hs' => .inr ?_⟩
        obtain rfl := Option.some.inj hs'
        exact compute_valid hcomp
  | commit b =>
    show Effect db ((Branches.commit H R b).exec db).2
    obtain ⟨head, hh⟩ := h.head
    cases hb : db.branches.get? b with
    | none =>
      unfold Branches.commit
      rcases withSlot_outcomes db b .conflict (Branches.commitSlot H R b) with ⟨-, he⟩ | ⟨st, hst, -⟩
      · rw [he]
        exact Effect.same h h.head
      · rw [hb] at hst
        cases hst
    | some st =>
      rcases commit_outcomes (H := H) (R := R) hh hb (fun s => h.valid b st s hb) with
        ⟨-, he⟩ | ⟨e, -, -, he⟩ | ⟨s, hseals, -, ⟨e, store', -, he, hheld⟩ | ⟨store', he, hheld⟩⟩
      · rw [he]
        exact Effect.without h b h.head
      · rw [he]
        exact Effect.same h h.head
      · rw [he]
        refine Effect.withState h hb (fun hne => ?_) (fun s' hs' => .inr ?_) ⟨head, by rw [hheld]; exact hh⟩
        · obtain ⟨origin, -, hsome | ⟨hnone, -⟩⟩ := hseals
          · rw [← hsome]
          · exact absurd hnone hne
        · obtain rfl := Option.some.inj hs'
          exact hseals.valid fun s => h.valid b st s hb
      · rw [he]
        refine Effect.without h b ⟨⟨s.commitId, s.stateRoot, s.indexRoot⟩, ?_⟩
        rw [hheld, HeadIs, publishedRows, if_pos rfl, OrdMap.get?_insert, if_pos rfl]
  | discard b =>
    show Effect db ((Branches.discard b).exec db).2
    unfold Branches.discard
    rcases withSlot_outcomes db b .handleInvalid (fun _ _ => Branches.remove b) with
      ⟨-, he⟩ | ⟨st, hb, ⟨e, he, -⟩ | ⟨origin, c, -, -, -, he⟩ | ⟨origin, hadm, he⟩⟩
    · rw [he]
      exact Effect.same h h.head
    · rw [he]
      exact Effect.same h h.head
    · rw [he]
      exact Effect.without h b h.head
    · rw [he]
      exact Effect.without h b h.head

/-- A manager reached from another: by its calls, and by what happens to the store outside of it.
Other managers publish and storage starts or ceases to fail, but the store keeps a head. -/
inductive Reaches (H : HashProvider) (R : Roaring) (db : Branches σ) : Branches σ → Prop
  | refl : Reaches H R db db
  | call {db' : Branches σ} (call : Call) (h : Reaches H R db db') : Reaches H R db (call.exec H R db')
  | outside {db' : Branches σ} (store : σ) (hh : ∃ head, HeadIs (held store) head) (h : Reaches H R db db') :
      Reaches H R db { db' with store := store }

lemma Sane.new {store : σ} {next : BranchId} (h : Branches.new store next = .ok db) : Sane db := by
  obtain ⟨tx, htx, hrest⟩ := bind_eq_ok.mp h
  obtain ⟨c, hhead, hrest⟩ := bind_eq_ok.mp hrest
  obtain rfl := pure_eq_ok.mp hrest
  obtain ⟨head, hstate, -⟩ := bind_eq_ok.mp hhead
  refine ⟨nofun, nofun, head, ?_⟩
  have hrow := HonestRead.get_ok SUPERBLOCK_valid (get_of_readHeadState hstate)
  rw [FallibleStore.beginRead_ok (mapError_eq_ok.mp htx)] at hrow
  exact hrow.symm

lemma Sane.reaches (h : Sane db) (hr : Reaches H R db db') : Sane db' := by
  induction hr with
  | refl => exact h
  | call call _ ih => exact ih.effect (call_effect ih call)
  | outside store hh _ ih => exact ih.effect (Effect.same ih hh)

/-- **A sealed branch keeps its state** until it is gone, and its number is not given again. -/
theorem Sane.sealed_stays (h : Sane db) {b : BranchId} {st : BranchState} (hb : db.branches.get? b = some st)
    (hs : st.sealed ≠ none) (hr : Reaches H R db db') :
    b < db'.nextBranchId ∧ ∀ st', db'.branches.get? b = some st' → st' = st := by
  have hstep : ∀ {db₁ db₂ : Branches σ}, Effect db₁ db₂ →
      (b < db₁.nextBranchId ∧ ∀ st', db₁.branches.get? b = some st' → st' = st) →
      b < db₂.nextBranchId ∧ ∀ st', db₂.branches.get? b = some st' → st' = st := by
    rintro db₁ db₂ he ⟨hlt, hkept⟩
    refine ⟨lt_of_lt_of_le hlt he.next, fun st' hb' => ?_⟩
    rcases he.branch b st' hb' with ⟨st₁, hb₁, hsealed, -⟩ | ⟨rfl, -, -⟩
    · obtain rfl := hkept st₁ hb₁
      exact hsealed hs
    · exact absurd hlt (lt_irrefl _)
  induction hr with
  | refl =>
    refine ⟨h.numbered b st hb, fun st' hb' => ?_⟩
    exact Option.some.inj (hb'.symm.trans hb)
  | call call hr ih => exact hstep (call_effect (h.reaches hr) call) ih
  | outside store hh hr ih => exact hstep (Effect.same (h.reaches hr) hh) ih

/-- **A commit of a sealed branch over its own head** publishes the sealed result, or fails in
storage and changes nothing; it publishes when no operation fails. -/
theorem Sane.retry (h : Sane db) {head : Head} (hh : HeadIs (held db.store) head) {b : BranchId}
    {st : BranchState} (hb : db.branches.get? b = some st) (hc : head.commitId = st.commitId)
    {s : SealedCommit} (hs : st.sealed = some s) :
    (Serves db.store → ((Branches.commit H R b).exec db).1 = .ok s.commitId) ∧
    (((Branches.commit H R b).exec db).1 = .ok s.commitId ∧
        held ((Branches.commit H R b).exec db).2.store = publishedRows (held db.store) s ∧
        ((Branches.commit H R b).exec db).2.branches = db.branches.erase b ∨
      (∃ e, ((Branches.commit H R b).exec db).1 = .error (.storage e)) ∧
        held ((Branches.commit H R b).exec db).2.store = held db.store ∧
        ((Branches.commit H R b).exec db).2.branches = db.branches) := by
  have hst : { st with sealed := some s } = st := by rw [← hs]
  rcases commit_outcomes (H := H) (R := R) hh hb (fun s => h.valid b st s hb) with
    ⟨hne, -⟩ | ⟨e, hnot, herr, he⟩ | ⟨s', hseals, -, hout⟩
  · exact absurd hc hne
  · refine ⟨fun hserve => ?_, .inr ⟨?_, by rw [he], by rw [he]⟩⟩
    · -- a snapshot that serves admits the call, so the branch is sealed in it
      obtain ⟨tx, hbegin, hreads⟩ := hserve.reads
      obtain ⟨v, hget⟩ := hreads SUPERBLOCK HEAD_KEY SUPERBLOCK_valid
      rw [HonestRead.get_ok SUPERBLOCK_valid hget, FallibleStore.beginRead_ok hbegin, hh] at hget
      refine absurd ⟨tx, ⟨hbegin, ?_⟩, .inl hs⟩ (hnot s)
      rw [readHead, readHeadState_of_get hget, ← hc]
      rfl
    · rcases herr with ⟨source, rfl⟩ | hnone
      · exact ⟨source, by rw [he]⟩
      · rw [hs] at hnone
        cases hnone
  · obtain rfl : s' = s := by
      obtain ⟨-, -, hs' | ⟨hnone, -⟩⟩ := hseals
      · exact Option.some.inj (hs'.symm.trans hs)
      · rw [hs] at hnone
        cases hnone
    rcases hout with ⟨e, store', hpub, he, hheld⟩ | ⟨store', he, hheld⟩
    · refine ⟨fun hserve => ?_, .inr ⟨⟨e, by rw [he]⟩, by rw [he]; exact hheld, ?_⟩⟩
      · have hok := publish_served (db.withState b { st with sealed := some s' })
          (h.valid b st s' hb hs) hh hserve
        rw [hok] at hpub
        cases hpub
      · rw [he, hst]
        refine OrdMap.ext_get fun k => ?_
        show (db.branches.insert b st).get? k = _
        rw [OrdMap.get?_insert]
        split_ifs with hk
        · rw [hk, hb]
        · rfl
    · exact ⟨fun _ => by rw [he], .inl ⟨by rw [he], by rw [he]; exact hheld, by rw [he]; rfl⟩⟩

/-- **A commit that fails is atomic and can be tried again.** Over any run of a manager on storage
that fails: the committed tables are as they were; the branch was dropped because the head has
moved, is as it was when it could not be sealed, or is sealed with the computed result. A sealed
branch then keeps the result for as long as it is there, and a later commit over the branch's head
publishes this result under its number, or fails in storage and changes nothing. -/
theorem commit_retryable {store : σ} {next : BranchId} {db₀ : Branches σ}
    (hnew : Branches.new store next = .ok db₀) (hrun : Reaches H R db₀ db) {b : BranchId} {st : BranchState}
    (hb : db.branches.get? b = some st) {e : BranchError}
    (hfail : (Branches.commit H R b).exec db = (.error e, db')) :
    held db'.store = held db.store ∧
    (e = .conflict ∧ (∃ head, HeadIs (held db.store) head ∧ head.commitId ≠ st.commitId) ∧
        db'.branches = db.branches.erase b ∨
      (∀ s, ¬ SealsTo H R db st s) ∧ db'.branches = db.branches ∨
      ∃ s, SealsTo H R db st s ∧ db'.branches = db.branches.insert b { st with sealed := some s }) ∧
    ∀ s, db'.branches.get? b = some { st with sealed := some s } → ∀ db'', Reaches H R db' db'' →
      ∀ st', db''.branches.get? b = some st' → st' = { st with sealed := some s } ∧
        ∀ head, HeadIs (held db''.store) head → head.commitId = st.commitId →
          (Serves db''.store → ((Branches.commit H R b).exec db'').1 = .ok s.commitId) ∧
          (((Branches.commit H R b).exec db'').1 = .ok s.commitId ∧
              held ((Branches.commit H R b).exec db'').2.store = publishedRows (held db''.store) s ∧
              ((Branches.commit H R b).exec db'').2.branches = db''.branches.erase b ∨
            (∃ e, ((Branches.commit H R b).exec db'').1 = .error (.storage e)) ∧
              held ((Branches.commit H R b).exec db'').2.store = held db''.store ∧
              ((Branches.commit H R b).exec db'').2.branches = db''.branches) := by
  have hsane := (Sane.new hnew).reaches hrun
  obtain ⟨head, hh⟩ := hsane.head
  have hsane' : Sane db' := by
    have heff := call_effect (H := H) (R := R) hsane (.commit b)
    rw [show (Call.commit b).exec H R db = db' from congrArg Prod.snd hfail] at heff
    exact hsane.effect heff
  have houtcome : held db'.store = held db.store ∧
      (e = .conflict ∧ (∃ head, HeadIs (held db.store) head ∧ head.commitId ≠ st.commitId) ∧
          db'.branches = db.branches.erase b ∨
        (∀ s, ¬ SealsTo H R db st s) ∧ db'.branches = db.branches ∨
        ∃ s, SealsTo H R db st s ∧ db'.branches = db.branches.insert b { st with sealed := some s }) := by
    rcases commit_outcomes (H := H) (R := R) hh hb (fun s => hsane.valid b st s hb) with
      ⟨hne, he⟩ | ⟨e', hnot, -, he⟩ | ⟨s, hseals, -, ⟨e', store', -, he, hheld⟩ | ⟨store', he, hheld⟩⟩
    · obtain ⟨h1, rfl⟩ := Prod.mk.inj (hfail.symm.trans he)
      exact ⟨rfl, .inl ⟨Except.error.inj h1, ⟨head, hh, hne⟩, rfl⟩⟩
    · obtain ⟨-, rfl⟩ := Prod.mk.inj (hfail.symm.trans he)
      exact ⟨rfl, .inr (.inl ⟨hnot, rfl⟩)⟩
    · obtain ⟨-, rfl⟩ := Prod.mk.inj (hfail.symm.trans he)
      exact ⟨hheld, .inr (.inr ⟨s, hseals, rfl⟩)⟩
    · cases (Prod.mk.inj (hfail.symm.trans he)).1
  refine ⟨houtcome.1, houtcome.2, fun s hb' db'' hreach st' hb'' => ?_⟩
  obtain ⟨-, hstays⟩ := hsane'.sealed_stays hb' (by simp) hreach
  obtain rfl := hstays st' hb''
  exact ⟨rfl, fun head'' hh'' hc => (hsane'.reaches hreach).retry hh'' hb'' hc rfl⟩

end Runs

/-! ### A store with planted faults -/

section Controlled

/-- Where a controlled store fails. -/
inductive PlantedFault where
  | none
  | open
  | write (step : ℕ)
  | headRead
  | headWrite
  | commit
deriving DecidableEq

/-- A memory store that fails where a fault is planted. -/
structure Controlled where
  inner : MemoryStore
  fault : PlantedFault

structure ControlledWrite where
  inner : MemoryWriteTransaction
  fault : PlantedFault
  step : ℕ

def injected : StorageError := .backend "injected commit failure"

namespace ControlledWrite

/-- Count a mutation, and fail where the fault is planted. -/
def mutation (t : Table) : Prog StorageError ControlledWrite Unit := fun tx =>
  let tx := { tx with step := tx.step + 1 }
  if tx.fault = .write tx.step ∨ tx.fault = .headWrite ∧ t = SUPERBLOCK then (.error injected, tx) else (.ok (), tx)

/-- Run a program of the transaction below. -/
def lift {α : Type} (c : Prog StorageError MemoryWriteTransaction α) : Prog StorageError ControlledWrite α :=
  fun tx => ((c.exec tx.inner).1, { tx with inner := (c.exec tx.inner).2 })

end ControlledWrite

instance : WriteTransaction ControlledWrite where
  Cursor := MemoryCursor
  fuel tx t := (tx.inner.state.rowsOf t).size
  get tx t k := if tx.fault = .headRead ∧ t = SUPERBLOCK ∧ k = HEAD_KEY then .error injected
    else tx.inner.state.get t k
  cursor tx := tx.inner.state.cursor
  put t k v := do
    ControlledWrite.mutation t
    ControlledWrite.lift (MemoryWriteTransaction.put t k v)
  insert t k v := do
    ControlledWrite.mutation t
    ControlledWrite.lift (MemoryWriteTransaction.insert t k v)
  delete t k := do
    ControlledWrite.mutation t
    ControlledWrite.lift (MemoryWriteTransaction.delete t k)

instance : Store Controlled where
  Read := MemoryReadTransaction
  Write := ControlledWrite
  beginRead store := .ok store.inner.beginRead
  beginWrite store := if store.fault = .open then .error injected else .ok ⟨store.inner.beginWrite, store.fault, 0⟩
  commit tx store := if tx.fault = .commit then (.error injected, store)
    else (.ok (), { store with inner := store.inner.commit tx.inner })

lemma ControlledWrite.runs_lift {α : Type} {c : Prog StorageError MemoryWriteTransaction α} {t : Table}
    {tx tx' : ControlledWrite} {a : α}
    (h : Prog.Runs (do ControlledWrite.mutation t; ControlledWrite.lift c) tx a tx') :
    Prog.Runs c tx.inner a tx'.inner := by
  obtain ⟨⟨⟩, tx₁, h1, h2⟩ := Prog.runs_bind_iff.mp h
  have h1 : ControlledWrite.mutation t tx = (.ok (), tx₁) := h1
  have hinner : tx₁.inner = tx.inner := by
    unfold ControlledWrite.mutation at h1
    simp only at h1
    split_ifs at h1
    · cases (Prod.mk.inj h1).1
    · obtain rfl := (Prod.mk.inj h1).2
      rfl
  have h2 : ((c.exec tx₁.inner).1, { tx₁ with inner := (c.exec tx₁.inner).2 }) = (.ok a, tx') := h2
  obtain ⟨ha, rfl⟩ := Prod.mk.inj h2
  rw [hinner] at ha ⊢
  exact Prod.ext ha rfl

instance : FallibleStore Controlled where
  honestRead := (⟨fun tx => tx.state.rowsOf, fun {t} ht {tx k v} h => by
    have h : tx.state.get t k = .ok v := h
    rw [State.get_eq ht] at h
    exact (Except.ok.inj h).symm⟩ : HonestRead MemoryReadTransaction)
  honestWrite := (
    { shown := fun tx => tx.inner.state.rowsOf
      get_ok := fun {t} ht {tx k v} h => by
        have h : (if tx.fault = .headRead ∧ t = SUPERBLOCK ∧ k = HEAD_KEY then Except.error injected
          else tx.inner.state.get t k) = Except.ok v := h
        split_ifs at h
        rw [State.get_eq ht] at h
        exact (Except.ok.inj h).symm
      put_ok := fun {t} ht {tx tx' k v} h => by
        obtain ⟨tx₁, hr, hrows⟩ := LawfulWrite.put_eq ht tx.inner k v
        rw [(hr.unique (ControlledWrite.runs_lift h)).2] at hrows
        exact hrows
      delete_ok := fun {t} ht {tx tx' k existed} h => by
        obtain ⟨tx₁, hr, hrows⟩ := LawfulWrite.delete_eq ht tx.inner k
        rw [(hr.unique (ControlledWrite.runs_lift h)).2] at hrows
        exact hrows } : HonestWrite ControlledWrite)
  held store := store.inner.committed.rowsOf
  beginRead_ok {s tx} h := by
    obtain rfl := Except.ok.inj h
    rfl
  beginWrite_ok {s tx} h := by
    have h : (if s.fault = .open then Except.error injected
      else Except.ok ⟨s.inner.beginWrite, s.fault, 0⟩) = Except.ok tx := h
    split_ifs at h
    obtain rfl := Except.ok.inj h
    rfl
  commit_ok {s s' tx} h := by
    have h : (if tx.fault = .commit then (Except.error injected, s)
      else (Except.ok (), { s with inner := s.inner.commit tx.inner })) = (Except.ok (), s') := h
    split_ifs at h
    · cases (Prod.mk.inj h).1
    · obtain rfl := (Prod.mk.inj h).2
      rfl
  commit_error {s s' tx e} h := by
    have h : (if tx.fault = .commit then (Except.error injected, s)
      else (Except.ok (), { s with inner := s.inner.commit tx.inner })) = (Except.error e, s') := h
    split_ifs at h
    · obtain rfl := (Prod.mk.inj h).2
      rfl
    · cases (Prod.mk.inj h).1

/-- Without a fault the store serves. -/
lemma Controlled.serves (store : MemoryStore) : Serves (⟨store, .none⟩ : Controlled) := by
  have hlift : ∀ {α : Type} {c : Prog StorageError MemoryWriteTransaction α} {tx : ControlledWrite} {t : Table}
      {a : α} {inner : MemoryWriteTransaction}, tx.fault = .none → Prog.Runs c tx.inner a inner →
      ∃ tx', Prog.Runs (do ControlledWrite.mutation t; ControlledWrite.lift c) tx a tx' ∧ tx'.fault = .none := by
    intro α c tx t a inner htx hr
    have hmut : Prog.Runs (ControlledWrite.mutation t) tx () { tx with step := tx.step + 1 } := by
      show ControlledWrite.mutation t tx = _
      simp [ControlledWrite.mutation, htx]
    refine ⟨{ tx with step := tx.step + 1, inner := inner }, hmut.bind ?_, htx⟩
    show ((c.exec tx.inner).1, _) = _
    rw [hr]
  refine ⟨⟨store.beginRead, rfl, fun t k ht => ⟨_, State.get_eq ht k⟩⟩, fun tx => tx.fault = .none, ?_,
    ⟨⟨store.beginWrite, .none, 0⟩, rfl, rfl⟩, fun tx htx => ⟨⟨store.commit tx.inner, .none⟩, ?_⟩⟩
  · refine ⟨fun tx htx t k ht => ⟨(tx.inner.state.rowsOf t).get? k, ?_⟩, fun tx htx t k v ht => ?_,
      fun tx htx t k ht => ?_⟩
    · show (if tx.fault = .headRead ∧ t = SUPERBLOCK ∧ k = HEAD_KEY then Except.error injected
        else tx.inner.state.get t k) = _
      rw [if_neg (by simp [htx]), State.get_eq ht]
    · obtain ⟨inner, hr, -⟩ := LawfulWrite.put_eq ht tx.inner k v
      exact hlift htx hr
    · obtain ⟨inner, hr, -⟩ := LawfulWrite.delete_eq ht tx.inner k
      obtain ⟨tx', hr', hf⟩ := hlift (t := t) htx hr
      exact ⟨_, tx', hr', hf⟩
  · show (if tx.fault = .commit then (Except.error injected, _) else _) = _
    rw [if_neg (by simp [htx])]

/-- A store with the head of an empty state. -/
def demoStore (fault : PlantedFault) : Controlled :=
  ⟨⟨OrdMap.empty.insert SUPERBLOCK (OrdMap.empty.insert HEAD_KEY
    (Head.encode ⟨0, Trie.polyHash.hash [], Trie.polyHash.hash []⟩))⟩, fault⟩

/-- A branch over it, where the second row of a publication fails. -/
def demoManager : Branches Controlled :=
  Call.begin.exec Trie.polyHash arrayRoaring ⟨demoStore (.write 2), OrdMap.empty, 0⟩

theorem commit_retryable_demo : ∃ db' s, (Branches.commit Trie.polyHash arrayRoaring 0).exec demoManager
      = (.error (.storage injected), db') ∧ held db'.store = held demoManager.store ∧
    db'.branches.get? 0 = some ⟨0, CellOverlay.new, some s⟩ ∧
    ((Branches.commit Trie.polyHash arrayRoaring 0).exec { db' with store := demoStore .none }).1
      = .ok s.commitId := by
  have hfail : ((Branches.commit Trie.polyHash arrayRoaring 0).exec demoManager).1
      = .error (.storage injected) := by decide +kernel
  have hsealed : ((((Branches.commit Trie.polyHash arrayRoaring 0).exec demoManager).2.branches.get? 0).map
      fun st => (st.commitId, st.overlay, st.sealed.isSome)) = some (0, CellOverlay.new, true) := by decide +kernel
  cases he : (Branches.commit Trie.polyHash arrayRoaring 0).exec demoManager with
  | mk r db' =>
    rw [he] at hfail hsealed
    simp only at hfail hsealed
    subst hfail
    obtain ⟨⟨c, o, sealed⟩, hb, hst⟩ := Option.map_eq_some_iff.mp hsealed
    simp only [Prod.mk.injEq] at hst
    obtain ⟨rfl, rfl, hsome⟩ := hst
    obtain ⟨s, rfl⟩ := Option.isSome_iff_exists.mp hsome
    have hnew : Branches.new (demoStore (.write 2)) 0 = .ok ⟨demoStore (.write 2), OrdMap.empty, 0⟩ := rfl
    have hbranch : demoManager.branches.get? 0 = some ⟨0, CellOverlay.new, none⟩ := rfl
    obtain ⟨hheld, -, hretry⟩ := commit_retryable hnew (.call .begin .refl) hbranch he
    have hh : HeadIs (held (demoStore .none)) ⟨0, Trie.polyHash.hash [], Trie.polyHash.hash []⟩ := rfl
    obtain ⟨-, hserve⟩ := hretry s hb _ (.outside (demoStore .none) ⟨_, hh⟩ .refl) _ hb
    exact ⟨db', s, rfl, hheld, hb, (hserve _ hh rfl).1 (Controlled.serves _)⟩

end Controlled

end GolemDb.Branch
