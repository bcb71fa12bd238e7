import GolemDb.Branch.Threads

/-!
Entries and locks under concurrent calls. A step of a call that holds a branch's lock keeps the
branch, releases it or consumes it (`Worked`), and every step of the managers is one of six
(`Stepped`). The invariant of entries and locks (`World.Wf`) says who holds a lock, who consumed an
entry, and which numbers are still to be handed out.
-/

namespace GolemDb.Branch

open GolemDb.Lib GolemDb.Storage GolemDb.Merkle GolemDb.Cells GolemDb.Index

section Work

variable {H : HashProvider} {R : Roaring} {σ : Type} [Store σ] {w w' : World σ} {c : CallId} {b : BranchId}
  {st : BranchState} {es : List Emission}

/-! ### Steps under a branch's lock -/

/-- A sealed state keeps its overlay and its seal. -/
def Kept (st st' : BranchState) : Prop := st.sealed.isSome = true → st'.overlay = st.overlay ∧ st'.sealed.isSome = true

lemma Kept.refl (st : BranchState) : Kept st st := fun h => ⟨rfl, h⟩

/-- What a call may show of a branch that lives on. -/
inductive Shows (c : CallId) (b : BranchId) (st st' : BranchState) : Emission → Prop
  | observed (head : CommitId) : Shows c b st st' (.observed c b head head)
  | acted (act : Act) (h : act ≠ .read → st.sealed = none) : Shows c b st st' (.acted c b act)
  | sealed (h : st'.sealed.isSome = true) : Shows c b st st' (.sealed c b)

/-- The replies of a commit that consumed its branch. -/
def Reply.Final (reply : Reply) : Prop := (∃ n, reply = .committed n) ∨ reply = .error (.branch .conflict)

/-- **What ends the life of a handle**: a call on it observes a head other than its origin,
publishes it, discards it, or returns from a commit that succeeded or lost the race. -/
inductive Ends (c : CallId) (b : BranchId) : Emission → Prop
  | observed (origin head : CommitId) (h : head ≠ origin) : Ends c b (.observed c b origin head)
  | published (origin commitId : CommitId) : Ends c b (.published c b origin commitId)
  | discarded : Ends c b (.discarded c b)
  | returned (reply : Reply) (h : reply.Final) : Ends c b (.returned c b reply)

/-- **The outcomes of a step under the lock of a live branch.** -/
inductive Worked (w : World σ) (c : CallId) (b : BranchId) (st : BranchState) : World σ → List Emission → Prop
  | stays (w' : World σ) (st' : BranchState) (pc : Pc σ) (es : List Emission)
      (hentries : w'.entries = Function.update w.entries b (some ⟨some st', some c⟩))
      (hcalls : w'.calls = Function.update w.calls c pc) (hregistry : w'.registry = w.registry)
      (hnext : w'.nextBranchId = w.nextBranchId) (hlive : pc.live = some b) (hkept : Kept st st')
      (hes : ∀ e ∈ es, Shows c b st st' e) : Worked w c b st w' es
  | releases (w' : World σ) (st' : BranchState) (es : List Emission) (reply : Reply)
      (hentries : w'.entries = Function.update w.entries b (some ⟨some st', none⟩))
      (hcalls : w'.calls = Function.update w.calls c .done) (hregistry : w'.registry = w.registry)
      (hnext : w'.nextBranchId = w.nextBranchId) (hkept : Kept st st') (hes : ∀ e ∈ es, Shows c b st st' e)
      (hreply : ¬ reply.Final) : Worked w c b st w' (es ++ [.returned c b reply])
  | consumes (w' : World σ) (holder : Option CallId) (pc : Pc σ) (es : List Emission)
      (hentries : w'.entries = Function.update w.entries b (some ⟨none, holder⟩))
      (hcalls : w'.calls = Function.update w.calls c pc) (hregistry : w'.registry = w.registry)
      (hnext : w'.nextBranchId = w.nextBranchId)
      (hpc : (∃ m reply, holder = some c ∧ pc = .removing m b reply) ∨ ∃ m reply, holder = none ∧
        pc = .dropping m b reply)
      (hes : ∀ e ∈ es, Ends c b e) : Worked w c b st w' es

lemma not_final_error {e : BranchError} (h : e ≠ .conflict) : ¬ (Reply.error (.branch e)).Final := by
  rintro (⟨n, hn⟩ | hc)
  · cases hn
  · exact h (OperationError.branch.inj (Reply.error.inj hc))

lemma worked_release (w : World σ) (c : CallId) (b : BranchId) (st : BranchState) {e : BranchError}
    (h : e ≠ .conflict) :
    Worked w c b st (w.release c b st (.error (.branch e))).1 (w.release c b st (.error (.branch e))).2 :=
  .releases _ st [] _ rfl rfl rfl rfl (Kept.refl st) nofun (not_final_error h)

lemma worked_goto (he : w.entries b = some ⟨some st, some c⟩) {pc : Pc σ} (hlive : pc.live = some b)
    (hes : ∀ e ∈ es, Shows c b st st e) : Worked w c b st (w.goto c pc) es :=
  .stays _ st pc es (by rw [← he, Function.update_eq_self]; rfl) rfl rfl rfl hlive (Kept.refl st) hes

lemma worked_abandon (w : World σ) (c : CallId) (m : ManagerId) (b : BranchId) (st : BranchState) (e : BranchError) :
    Worked w c b st (w.abandon c m b st e).1 (w.abandon c m b st e).2 := by
  unfold World.abandon
  simp only
  split_ifs with he
  · exact .consumes _ _ _ [] rfl rfl rfl rfl (.inl ⟨_, _, rfl, rfl⟩) nofun
  · exact .releases _ st [] _ rfl rfl rfl rfl (Kept.refl st) nofun (not_final_error he)

/-- The store and its writer are not part of a branch. -/
lemma Worked.ofStore {store : σ} {writer : Option CallId}
    (h : Worked { w with store := store, writer := writer } c b st w' es) : Worked w c b st w' es := by
  cases h with
  | stays st' pc _ h1 h2 h3 h4 h5 h6 h7 => exact .stays _ st' pc _ h1 h2 h3 h4 h5 h6 h7
  | releases st' es reply h1 h2 h3 h4 h5 h6 h7 => exact .releases _ st' es reply h1 h2 h3 h4 h5 h6 h7
  | consumes holder pc es h1 h2 h3 h4 h5 h6 => exact .consumes _ holder pc es h1 h2 h3 h4 h5 h6

lemma Worked.of_eq {p : World σ × List Emission} (hw : Worked w c b st p.1 p.2) (h : some p = some (w', es)) :
    Worked w c b st w' es := by
  obtain rfl := Option.some.inj h
  exact hw

lemma sealState_kept {ρ : Type} [ReadTransaction ρ] {origin : ρ} {s : SealedCommit} {st' : BranchState}
    (h : st.sealState H R origin = .ok (s, st')) : Kept st st' ∧ st'.sealed.isSome = true := by
  unfold BranchState.sealState at h
  cases hopt : st.sealed with
  | some s₀ =>
    rw [hopt] at h
    obtain ⟨rfl, rfl⟩ := Prod.mk.inj (Except.ok.inj h)
    exact ⟨Kept.refl _, by rw [hopt]; rfl⟩
  | none =>
    rw [hopt] at h
    obtain ⟨s₀, -, hrest⟩ := bind_eq_ok.mp h
    obtain ⟨rfl, rfl⟩ := Prod.mk.inj (pure_eq_ok.mp hrest)
    exact ⟨fun hs => (by rw [hopt] at hs; cases hs), rfl⟩

/-! ### No seal reports a lost race -/

lemma term_meets (key : CellKey) (value : Option CellValue) :
    Prog.Meets (· ≠ BranchError.conflict) (fun _ => True) (term key value) := by
  unfold term
  cases value with
  | none => trivial
  | some value =>
    simp only
    split_ifs
    · exact (Prog.Meets.mapError fun e h => by cases h).bind fun _ _ => trivial
    · trivial

lemma postingsOf_meets (changes : List CellValueChange) :
    Prog.Meets (· ≠ BranchError.conflict) (fun _ => True) (postingsOf changes) := by
  suffices ∀ acc, Prog.Meets (· ≠ BranchError.conflict) (fun _ => True) (changes.foldlM (fun acc change => do
      let postings ← postingsOfChange change
      return acc ++ postings) acc) from this []
  induction changes with
  | nil => exact fun _ => trivial
  | cons change changes ih =>
    intro acc
    have hone : Prog.Meets (· ≠ BranchError.conflict) (fun _ => True) (postingsOfChange change) := by
      refine (term_meets _ _).bind fun before _ => (term_meets _ _).bind fun after _ => ?_
      split_ifs <;> trivial
    have hstep : Prog.Meets (· ≠ BranchError.conflict) (fun _ => True) (do
        let postings ← postingsOfChange change
        return acc ++ postings) := hone.bind fun _ _ => trivial
    rw [List.foldlM_cons]
    exact hstep.bind fun acc' _ => ih acc'

lemma readHeadState_never {ρ : Type} [ReadTransaction ρ] (tx : ρ) :
    Prog.Meets (· ≠ BranchError.conflict) (fun _ => True) (readHeadState tx) := by
  refine (Prog.Meets.mapError fun e h => by cases h).bind fun row _ => ?_
  cases row with
  | none => exact nofun
  | some bytes =>
    simp only
    split_ifs
    · exact nofun
    · trivial

lemma readHead_never {ρ : Type} [ReadTransaction ρ] (tx : ρ) :
    Prog.Meets (· ≠ BranchError.conflict) (fun _ => True) (readHead tx) :=
  (readHeadState_never tx).bind fun _ _ => trivial

lemma compute_never (H : HashProvider) (R : Roaring) {ρ : Type} [ReadTransaction ρ] (origin : ρ)
    (overlay : CellOverlay) :
    Prog.Meets (· ≠ BranchError.conflict) (fun _ => True) (compute H R origin overlay) := by
  refine (readHeadState_never origin).bind fun head _ => ?_
  cases checkedSucc head.commitId with
  | none => exact nofun
  | some commitId =>
    refine (Prog.Meets.mapError fun e h => by cases h).bind fun cellRoot _ =>
      (Prog.Meets.mapError fun e h => by cases h).bind fun indexRoot _ =>
        (Prog.Meets.mapError fun e h => by cases h).bind fun found _ => ?_
    split_ifs
    · exact nofun
    · refine (Prog.Meets.mapError fun e h => by cases h).bind fun value _ => ?_
      have hstage : Prog.Post (· ≠ BranchError.conflict) (fun _ => True) (stageUpdates H R cellRoot indexRoot
          (overlay.changes ++ [.put (rootsKey head.commitId) value]) : Prog BranchError (Buffered ρ) _) :=
        (Prog.Post.mapError fun e h => by cases h).bind fun update _ =>
          (Prog.Post.ofExcept (postingsOf_meets _)).bind fun _ _ =>
            (Prog.Post.mapError fun e h => by cases h).bind fun _ _ => Prog.Post.pure trivial
      have := hstage (Buffered.new origin)
      split
      · rename_i e tx he
        rw [he] at this
        exact this
      · trivial

lemma sealState_meets (H : HashProvider) (R : Roaring) {ρ : Type} [ReadTransaction ρ] (st : BranchState) (origin : ρ) :
    Prog.Meets (· ≠ BranchError.conflict) (fun _ => True) (st.sealState H R origin) := by
  unfold BranchState.sealState
  cases st.sealed with
  | some s => trivial
  | none => exact (compute_never H R origin st.overlay).bind fun _ _ => trivial

lemma sealState_ne {ρ : Type} [ReadTransaction ρ] {origin : ρ} {e : BranchError}
    (h : st.sealState H R origin = .error e) :
    e ≠ .conflict := by
  have := sealState_meets H R st origin
  rwa [h] at this

lemma rollback_ne {o : CellOverlay} {e : BranchError} (h : o.rollback.1 = .error e) : e ≠ .conflict := by
  have hj : Prog.Meets (· ≠ BranchError.conflict) (fun _ => True) (o.journal.rollback o.entries) := by
    unfold Journal.rollback
    split_ifs
    · split
      · trivial
      · exact nofun
    · trivial
  unfold CellOverlay.rollback at h
  cases hr : o.journal.rollback o.entries with
  | ok p =>
    rw [hr] at h
    cases h
  | error e' =>
    rw [hr] at h hj
    obtain rfl := Except.error.inj h
    exact hj

/-- **An ordinary call** keeps a sealed branch, does more than read it only while it is open, and
never returns from a commit. -/
lemma perform_kept (H : HashProvider) (R : Roaring) {ρ : Type} [ReadTransaction ρ] (b : BranchId) (st : BranchState)
    (origin : ρ) (op : Ordinary) :
    Kept st (op.perform H R b st origin).2.1 ∧
      (∀ act ∈ (op.perform H R b st origin).2.2, act ≠ .read → st.sealed = none) ∧
      ¬ (op.perform H R b st origin).1.Final := by
  have hopen : ∀ {u}, st.requireOpen = .ok u → st.sealed = none := by
    intro u h
    unfold BranchState.requireOpen at h
    cases hs : st.sealed with
    | none => rfl
    | some s => rw [hs] at h; cases h
  have hsealed : ∀ {e}, st.requireOpen = .error e → e ≠ .conflict := by
    rintro e h rfl
    unfold BranchState.requireOpen at h
    split_ifs at h
    cases h
  have hresult : ∀ r : Except (Fault Unit) Unit, ¬ (Reply.ofResult r).Final := by
    rintro (fault | _) (⟨n, hn⟩ | hc)
    · cases hn
    · cases fault <;> cases hc
    · cases hn
    · cases hc
  have hdone : ¬ Reply.done.Final := by
    rintro (⟨n, hn⟩ | hc)
    · cases hn
    · cases hc
  have hedit : ∀ {overlay : CellOverlay} {u}, st.requireOpen = .ok u → Kept st { st with overlay := overlay } :=
    fun h hs => by rw [hopen h] at hs; cases hs
  cases op with
  | branchInfo => exact ⟨Kept.refl st, nofun, fun h => by rcases h with ⟨n, hn⟩ | hc; cases hn; cases hc⟩
  | read operation =>
    exact ⟨Kept.refl st, fun act hact hne => absurd (List.mem_singleton.mp hact) hne, hresult _⟩
  | write operation =>
    unfold Ordinary.perform
    simp only
    split
    · rename_i e h
      exact ⟨Kept.refl st, nofun, not_final_error (hsealed h)⟩
    · rename_i h
      exact ⟨hedit h, fun _ _ _ => hopen h, hresult _⟩
  | checkpoint =>
    unfold Ordinary.perform
    simp only
    split
    · rename_i e h
      exact ⟨Kept.refl st, nofun, not_final_error (hsealed h)⟩
    · rename_i h
      exact ⟨hedit h, fun _ _ _ => hopen h, hdone⟩
  | rollback =>
    unfold Ordinary.perform
    simp only
    split
    · rename_i e h
      exact ⟨Kept.refl st, nofun, not_final_error (hsealed h)⟩
    · rename_i h
      refine ⟨hedit h, fun _ _ _ => hopen h, ?_⟩
      simp only
      split
      · exact hdone
      · rename_i he
        exact not_final_error (rollback_ne he)
  | sealBranch =>
    unfold Ordinary.perform
    simp only
    split
    · rename_i s st' h
      exact ⟨(sealState_kept h).1, nofun, fun hf => by rcases hf with ⟨n, hn⟩ | hc; cases hn; cases hc⟩
    · rename_i e h
      exact ⟨Kept.refl st, nofun, not_final_error (sealState_ne h)⟩

lemma readHead_ne {ρ : Type} [ReadTransaction ρ] {tx : ρ} {e : BranchError} (h : readHead tx = .error e) :
    e ≠ .conflict := by
  have := readHead_never tx
  rwa [h] at this

lemma mapError_ne {α : Type} {r : Except StorageError α} {e : BranchError}
    (h : r.mapError BranchError.storage = .error e) :
    e ≠ .conflict := by
  have : Prog.Meets (· ≠ BranchError.conflict) (fun _ => True) (r.mapError BranchError.storage) :=
    Prog.Meets.mapError fun e h => by cases h
  rwa [h] at this

/-- **One step under a branch's lock.** -/
theorem work_worked (he : w.entries b = some ⟨some st, some c⟩) (h : w.work H R c b st = some (w', es)) :
    Worked w c b st w' es := by
  unfold World.work at h
  split at h
  · -- locked: the head is checked
    split at h
    · rename_i hbegin
      exact (worked_release w c b st (mapError_ne hbegin)).of_eq h
    · split at h
      · rename_i hread
        exact (worked_release w c b st (readHead_ne hread)).of_eq h
      · rename_i head hread
        split_ifs at h with hne
        · obtain ⟨rfl, rfl⟩ := Prod.mk.inj (Option.some.inj h)
          refine .consumes _ _ _ _ rfl rfl rfl rfl (.inl ⟨_, _, rfl, rfl⟩) fun e hin => ?_
          rw [List.mem_singleton.mp hin]
          exact .observed _ head hne
        · obtain ⟨rfl, rfl⟩ := Prod.mk.inj (Option.some.inj h)
          refine worked_goto he rfl fun e hin => ?_
          rw [List.mem_singleton.mp hin, ← not_ne_iff.mp hne]
          exact .observed head
  · -- an ordinary call does its work and releases the lock
    rename_i op origin hpc
    obtain ⟨hkept, hacts, hfinal⟩ := perform_kept H R b st origin op
    obtain ⟨rfl, rfl⟩ := Prod.mk.inj (Option.some.inj h)
    refine .releases _ _ _ _ rfl rfl rfl rfl hkept (fun e hin => ?_) hfinal
    rcases List.mem_append.mp hin with hin | hin
    · obtain ⟨act, hact, rfl⟩ := List.mem_map.mp hin
      exact .acted act (hacts act hact)
    · split_ifs at hin with hs
      · rw [List.mem_singleton.mp hin]
        exact .sealed hs
      · cases hin
  · obtain ⟨rfl, rfl⟩ := Prod.mk.inj (Option.some.inj h)
    refine .consumes _ _ _ _ rfl rfl rfl rfl (.inr ⟨_, _, rfl, rfl⟩) fun e hin => ?_
    rw [List.mem_singleton.mp hin]
    exact .discarded
  · split at h
    · rename_i e hseal
      exact (worked_release w c b st (sealState_ne hseal)).of_eq h
    · rename_i s st' hseal
      obtain ⟨rfl, rfl⟩ := Prod.mk.inj (Option.some.inj h)
      obtain ⟨hkept, hsome⟩ := sealState_kept hseal
      refine .stays _ st' _ _ rfl rfl rfl rfl rfl hkept fun e hin => ?_
      rw [List.mem_singleton.mp hin]
      exact .sealed hsome
  · -- the store's writer
    split at h
    · cases h
    · split at h
      · rename_i hbegin
        exact (worked_release w c b st (mapError_ne hbegin)).of_eq h
      · have hsame : w.entries = Function.update w.entries b (some ⟨some st, some c⟩) := by
          rw [← he, Function.update_eq_self]
        obtain ⟨rfl, rfl⟩ := Prod.mk.inj (Option.some.inj h)
        exact .stays _ st _ [] hsame rfl rfl rfl rfl (Kept.refl st) nofun
  · -- the head is checked again
    split at h
    · exact (worked_abandon w c _ b st _).of_eq h
    · rename_i m _ origin s tx hpc _ head hread
      split_ifs at h with hne
      · obtain ⟨rfl, rfl⟩ := Prod.mk.inj (Option.some.inj h)
        refine .consumes _ _ _ [.observed c b origin head] rfl rfl rfl rfl (.inl ⟨_, _, rfl, rfl⟩) fun e hin => ?_
        rw [List.mem_singleton.mp hin]
        exact .observed origin head hne
      · obtain ⟨rfl, rfl⟩ := Prod.mk.inj (Option.some.inj h)
        refine worked_goto he rfl fun e hin => ?_
        rw [List.mem_singleton.mp hin, ← not_ne_iff.mp hne]
        exact .observed head
  · split at h
    · exact (worked_abandon w c _ b st _).of_eq h
    · exact (worked_goto he rfl (List.forall_mem_nil _)).of_eq h
  · split at h
    · exact (worked_abandon w c _ b st _).of_eq h
    · exact (worked_goto he rfl (List.forall_mem_nil _)).of_eq h
  · split at h
    · exact (Worked.ofStore (worked_abandon _ c _ b st _)).of_eq h
    · rename_i m _ origin s tx hpc _ store hcommit
      obtain ⟨rfl, rfl⟩ := Prod.mk.inj (Option.some.inj h)
      refine .consumes _ (some c) _ _ rfl rfl rfl rfl (.inl ⟨_, _, rfl, rfl⟩) fun e hin => ?_
      rw [List.mem_singleton.mp hin]
      exact .published origin s.commitId
  · cases h

end Work

/-! ### Locks and entries -/

section Wf

variable {H : HashProvider} {R : Roaring} {σ : Type} [Store σ] {w w' : World σ} {c : CallId} {b : BranchId}
  {es : List Emission} {l : Label}

/-- **The invariant of entries and locks**: a call that works on a branch holds its lock, one call
consumed an empty entry and holds it until it is removed, and the entry of a number not yet handed
out, or handed to a call that has not made it yet, is not there. -/
structure World.Wf (w : World σ) : Prop where
  live : ∀ c b, (w.calls c).live = some b → ∃ st, w.entries b = some ⟨some st, some c⟩
  removing : ∀ c m b reply, w.calls c = .removing m b reply → w.entries b = some ⟨none, some c⟩
  dropping : ∀ c m b reply, w.calls c = .dropping m b reply → w.entries b = some ⟨none, none⟩
  only : ∀ c c' b, (w.calls c).dead = some b → (w.calls c').dead = some b → c' = c
  emptied : ∀ c b, w.entries b = some ⟨none, some c⟩ → ∃ m reply, w.calls c = .removing m b reply
  fresh : ∀ b, w.nextBranchId ≤ b → w.entries b = none
  inserting : ∀ c m b commitId, w.calls c = .inserting m b commitId → b < w.nextBranchId ∧ w.entries b = none ∧
    ∀ c' m' commitId', w.calls c' = .inserting m' b commitId' → c' = c

/-- A call that holds nothing: it has no branch, or is in a queue for one. -/
def Pc.outside : Pc σ → Bool
  | .idle => true
  | .beginning _ => true
  | .allocating _ _ => true
  | .looking _ _ _ => true
  | .waiting _ _ _ => true
  | .done => true
  | _ => false

/-- **What a step does**, as far as entries and locks go. -/
inductive Stepped (w : World σ) : World σ → List Emission → Prop
  | queue (c : CallId) (pc : Pc σ) (es : List Emission) (hold : (w.calls c).outside = true) (hpc : pc.outside = true)
      (hes : ∀ e ∈ es, (∃ b, e = .returned c b .handleInvalid) ∨ ∃ err, e = .refused c err) :
      Stepped w (w.goto c pc) es
  | allocate (c : CallId) (m : ManagerId) (commitId : CommitId) (next : BranchId) (hold : (w.calls c).outside = true)
      (hnext : checkedSucc w.nextBranchId = some next) :
      Stepped w ({ w with nextBranchId := next }.goto c (.inserting m w.nextBranchId commitId)) []
  | insert (w' : World σ) (c : CallId) (m : ManagerId) (b : BranchId) (commitId : CommitId)
      (hold : w.calls c = .inserting m b commitId)
      (hentries : w'.entries = Function.update w.entries b (some ⟨some ⟨commitId, CellOverlay.new, none⟩, none⟩))
      (hcalls : w'.calls = Function.update w.calls c .done) (hnext : w'.nextBranchId = w.nextBranchId) :
      Stepped w w' [.began c b]
  | lock (c : CallId) (m : ManagerId) (b : BranchId) (req : Request) (st : BranchState)
      (hold : (w.calls c).outside = true) (he : w.entries b = some ⟨some st, none⟩) :
      Stepped w ((w.setSlot b ⟨some st, some c⟩).goto c (.locked m b req)) []
  | work (w' : World σ) (c : CallId) (b : BranchId) (st : BranchState) (es : List Emission)
      (hold : (w.calls c).live = some b) (he : w.entries b = some ⟨some st, some c⟩) (hw : Worked w c b st w' es) :
      Stepped w w' es
  | remove (w' : World σ) (c : CallId) (b : BranchId) (reply : Reply) (hold : (w.calls c).dead = some b)
      (hentries : w'.entries = Function.update w.entries b (some ⟨none, none⟩))
      (hcalls : w'.calls = Function.update w.calls c .done) (hnext : w'.nextBranchId = w.nextBranchId) :
      Stepped w w' [.returned c b reply]

lemma World.Wf.stepped (h : w.Wf) (hs : w.step H R l = some (w', es)) : Stepped w w' es := by
  cases l with
  | begin c m =>
    simp only [World.step] at hs
    split at hs
    · rename_i hold
      obtain ⟨rfl, rfl⟩ := Prod.mk.inj (Option.some.inj hs)
      exact .queue c _ [] (by rw [hold]; rfl) rfl nofun
    · cases hs
  | call c m b req =>
    simp only [World.step] at hs
    split at hs
    · rename_i hold
      obtain ⟨rfl, rfl⟩ := Prod.mk.inj (Option.some.inj hs)
      exact .queue c _ [] (by rw [hold]; rfl) rfl nofun
    · cases hs
  | advance c =>
    have hrefused : ∀ (err : BranchError), ∀ e ∈ [Emission.refused c err],
        (∃ b, e = .returned c b .handleInvalid) ∨ ∃ err, e = .refused c err :=
      fun err e he => .inr ⟨err, List.mem_singleton.mp he⟩
    simp only [World.step, World.advance] at hs
    split at hs
    · rename_i m hold
      have hout : (w.calls c).outside = true := by rw [hold]; rfl
      split at hs
      · obtain ⟨rfl, rfl⟩ := Prod.mk.inj (Option.some.inj hs)
        exact .queue c _ _ hout rfl (hrefused _)
      · split at hs
        · obtain ⟨rfl, rfl⟩ := Prod.mk.inj (Option.some.inj hs)
          exact .queue c _ _ hout rfl (hrefused _)
        · obtain ⟨rfl, rfl⟩ := Prod.mk.inj (Option.some.inj hs)
          exact .queue c _ _ hout rfl nofun
    · rename_i m commitId hold
      have hout : (w.calls c).outside = true := by rw [hold]; rfl
      split at hs
      · obtain ⟨rfl, rfl⟩ := Prod.mk.inj (Option.some.inj hs)
        exact .queue c _ _ hout rfl (hrefused _)
      · rename_i next hnext
        obtain ⟨rfl, rfl⟩ := Prod.mk.inj (Option.some.inj hs)
        exact .allocate c m commitId next hout hnext
    · rename_i m b commitId hold
      obtain ⟨rfl, rfl⟩ := Prod.mk.inj (Option.some.inj hs)
      exact .insert _ c m b commitId hold rfl rfl rfl
    · rename_i m b req hold
      have hout : (w.calls c).outside = true := by rw [hold]; rfl
      split_ifs at hs
      · obtain ⟨rfl, rfl⟩ := Prod.mk.inj (Option.some.inj hs)
        exact .queue c _ _ hout rfl nofun
      · obtain ⟨rfl, rfl⟩ := Prod.mk.inj (Option.some.inj hs)
        exact .queue c _ _ hout rfl fun e he => .inl ⟨b, List.mem_singleton.mp he⟩
    · rename_i m b req hold
      have hout : (w.calls c).outside = true := by rw [hold]; rfl
      split at hs
      · obtain ⟨rfl, rfl⟩ := Prod.mk.inj (Option.some.inj hs)
        exact .queue c _ _ hout rfl fun e he => .inl ⟨b, List.mem_singleton.mp he⟩
      · rename_i st he
        obtain ⟨rfl, rfl⟩ := Prod.mk.inj (Option.some.inj hs)
        exact .lock c m b req st hout he
      · cases hs
    · rename_i m b reply hold
      obtain ⟨rfl, rfl⟩ := Prod.mk.inj (Option.some.inj hs)
      exact .remove _ c b reply (by rw [hold]; rfl) rfl rfl rfl
    · rename_i m b reply hold
      obtain ⟨rfl, rfl⟩ := Prod.mk.inj (Option.some.inj hs)
      refine .remove _ c b reply (by rw [hold]; rfl) ?_ rfl rfl
      rw [← h.dropping c m b reply hold, Function.update_eq_self]
      rfl
    · split at hs
      · cases hs
      · rename_i b hlive
        obtain ⟨st, he⟩ := h.live c b hlive
        rw [he] at hs
        exact .work _ c b st _ hlive he (work_worked he hs)

lemma Pc.dead_cases {pc : Pc σ} (h : pc.dead = some b) :
    (∃ m reply, pc = .removing m b reply) ∨ ∃ m reply, pc = .dropping m b reply := by
  cases pc with
  | removing m b' reply =>
    obtain rfl := Option.some.inj h
    exact .inl ⟨m, reply, rfl⟩
  | dropping m b' reply =>
    obtain rfl := Option.some.inj h
    exact .inr ⟨m, reply, rfl⟩
  | _ => cases h

lemma Pc.live_eq_none {pc : Pc σ} (h : pc.dead = some b) : pc.live = none := by
  rcases Pc.dead_cases h with ⟨m, reply, rfl⟩ | ⟨m, reply, rfl⟩ <;> rfl

/-- A call that consumed a branch left its entry empty. -/
lemma World.Wf.dead (h : w.Wf) (hc : (w.calls c).dead = some b) : ∃ holder, w.entries b = some ⟨none, holder⟩ := by
  rcases Pc.dead_cases hc with ⟨m, reply, hpc⟩ | ⟨m, reply, hpc⟩
  · exact ⟨some c, h.removing c m b reply hpc⟩
  · exact ⟨none, h.dropping c m b reply hpc⟩

/-- Nobody else is at a branch that a call works on. -/
lemma World.Wf.alone (h : w.Wf) {st : BranchState} {holder : Option CallId}
    (he : w.entries b = some ⟨some st, holder⟩) :
    (∀ c', (w.calls c').live = some b → holder = some c') ∧ ∀ c', (w.calls c').dead ≠ some b := by
  constructor
  · intro c' hc'
    obtain ⟨st', he'⟩ := h.live c' b hc'
    rw [he] at he'
    exact (Slot.mk.inj (Option.some.inj he')).2
  · intro c' hc'
    obtain ⟨holder', he'⟩ := h.dead hc'
    rw [he] at he'
    cases (Slot.mk.inj (Option.some.inj he')).1

/-- A call that holds nothing takes a step that holds nothing, or takes the next number. -/
lemma World.Wf.aside (h : w.Wf) {pc : Pc σ} (hcalls : w'.calls = Function.update w.calls c pc)
    (hentries : w'.entries = w.entries) (hold : (w.calls c).dead = none) (hlive : pc.live = none)
    (hdead : pc.dead = none) (hnext : w.nextBranchId ≤ w'.nextBranchId)
    (hpc : ∀ m b commitId, pc = .inserting m b commitId → w.nextBranchId ≤ b ∧ b < w'.nextBranchId) : w'.Wf := by
  have hself : w'.calls c = pc := by rw [hcalls, Function.update_self]
  have hcall : ∀ {c'}, c' ≠ c → w'.calls c' = w.calls c' := fun hne => by rw [hcalls, Function.update_of_ne hne]
  have hne : ∀ {c' b}, (w'.calls c').dead = some b → c' ≠ c := by
    rintro c' b hc' rfl
    rw [hself, hdead] at hc'
    cases hc'
  refine ⟨fun c' b' hc' => ?_, fun c' m b' reply hc' => ?_, fun c' m b' reply hc' => ?_, fun c₁ c₂ b' h₁ h₂ => ?_,
    fun c' b' he => ?_, fun b' hb' => ?_, fun c' m b' commitId hc' => ?_⟩
  · have hne' : c' ≠ c := by
      rintro rfl
      rw [hself, hlive] at hc'
      cases hc'
    rw [hentries]
    rw [hcall hne'] at hc'
    exact h.live c' b' hc'
  · have hne' := hne (show (w'.calls c').dead = some b' by rw [hc']; rfl)
    rw [hentries]
    rw [hcall hne'] at hc'
    exact h.removing c' m b' reply hc'
  · have hne' := hne (show (w'.calls c').dead = some b' by rw [hc']; rfl)
    rw [hentries]
    rw [hcall hne'] at hc'
    exact h.dropping c' m b' reply hc'
  · have hne₁ := hne h₁
    have hne₂ := hne h₂
    rw [hcall hne₁] at h₁
    rw [hcall hne₂] at h₂
    exact h.only c₁ c₂ b' h₁ h₂
  · rw [hentries] at he
    obtain ⟨m, reply, hc'⟩ := h.emptied c' b' he
    refine ⟨m, reply, ?_⟩
    rw [hcall, hc']
    rintro rfl
    rw [hc'] at hold
    cases hold
  · rw [hentries]
    exact h.fresh b' (le_trans hnext hb')
  · rw [hentries]
    by_cases he : c' = c
    · subst he
      obtain ⟨hle, hlt⟩ := hpc m b' commitId (hself.symm.trans hc')
      refine ⟨hlt, h.fresh b' hle, fun c'' m' commitId' hc'' => ?_⟩
      by_contra hne'
      rw [hcall hne'] at hc''
      exact absurd (h.inserting c'' m' b' commitId' hc'').1 (not_lt.mpr hle)
    · rw [hcall he] at hc'
      obtain ⟨hlt, hnone, honly⟩ := h.inserting c' m b' commitId hc'
      refine ⟨lt_of_lt_of_le hlt hnext, hnone, fun c'' m' commitId' hc'' => ?_⟩
      by_cases he' : c'' = c
      · subst he'
        obtain ⟨hle, -⟩ := hpc m' b' commitId' (hself.symm.trans hc'')
        exact absurd hlt (not_lt.mpr hle)
      · rw [hcall he'] at hc''
        exact honly c'' m' commitId' hc''

/-- A step of one call on one entry. -/
lemma World.Wf.update (h : w.Wf) {pc : Pc σ} {slot : Slot} (hcalls : w'.calls = Function.update w.calls c pc)
    (hentries : w'.entries = Function.update w.entries b (some slot)) (hnext : w'.nextBranchId = w.nextBranchId)
    (hmade : w.entries b ≠ none ∨ ∃ m commitId, w.calls c = .inserting m b commitId)
    (hlive : ∀ c' ≠ c, (w.calls c').live ≠ some b) (hdead : ∀ c' ≠ c, (w.calls c').dead ≠ some b)
    (hold : ∀ b', (w.calls c).dead = some b' → b' = b)
    (hpcLive : ∀ b', pc.live = some b' → b' = b ∧ ∃ st, slot = ⟨some st, some c⟩)
    (hpcRemoving : ∀ m b' reply, pc = .removing m b' reply → b' = b ∧ slot = ⟨none, some c⟩)
    (hpcDropping : ∀ m b' reply, pc = .dropping m b' reply → b' = b ∧ slot = ⟨none, none⟩)
    (hempty : ∀ c', slot = ⟨none, some c'⟩ → c' = c ∧ ∃ m reply, pc = .removing m b reply)
    (hpcInserting : ∀ m b' commitId, pc ≠ .inserting m b' commitId) : w'.Wf := by
  have hself : w'.calls c = pc := by rw [hcalls, Function.update_self]
  have hcall : ∀ {c'}, c' ≠ c → w'.calls c' = w.calls c' := fun hne => by rw [hcalls, Function.update_of_ne hne]
  have hat : w'.entries b = some slot := by rw [hentries, Function.update_self]
  have hentry : ∀ {b'}, b' ≠ b → w'.entries b' = w.entries b' := fun hne => by
    rw [hentries, Function.update_of_ne hne]
  have hfresh : ∀ {c'} {m b' commitId}, c' ≠ c → w.calls c' = .inserting m b' commitId → b' ≠ b := by
    rintro c' m b' commitId hne hc' rfl
    obtain ⟨-, hnone, honly⟩ := h.inserting c' m b' commitId hc'
    rcases hmade with hm | ⟨m', commitId', hm⟩
    · exact hm hnone
    · exact hne (honly c m' commitId' hm).symm
  have hpcDead : ∀ {b'}, pc.dead = some b' → b' = b := by
    intro b' hb'
    rcases Pc.dead_cases hb' with ⟨m, reply, hp⟩ | ⟨m, reply, hp⟩
    · exact (hpcRemoving m b' reply hp).1
    · exact (hpcDropping m b' reply hp).1
  refine ⟨fun c' b' hc' => ?_, fun c' m b' reply hc' => ?_, fun c' m b' reply hc' => ?_, fun c₁ c₂ b' h₁ h₂ => ?_,
    fun c' b' he => ?_, fun b' hb' => ?_, fun c' m b' commitId hc' => ?_⟩
  · by_cases he : c' = c
    · subst he
      rw [hself] at hc'
      obtain ⟨rfl, st, hslot⟩ := hpcLive b' hc'
      exact ⟨st, by rw [hat, hslot]⟩
    · rw [hcall he] at hc'
      have hne : b' ≠ b := fun hb => hlive c' he (hb ▸ hc')
      rw [hentry hne]
      exact h.live c' b' hc'
  · by_cases he : c' = c
    · subst he
      rw [hself] at hc'
      obtain ⟨rfl, hslot⟩ := hpcRemoving m b' reply hc'
      rw [hat, hslot]
    · rw [hcall he] at hc'
      have hne : b' ≠ b := fun hb => hdead c' he (by rw [hc', hb]; rfl)
      rw [hentry hne]
      exact h.removing c' m b' reply hc'
  · by_cases he : c' = c
    · subst he
      rw [hself] at hc'
      obtain ⟨rfl, hslot⟩ := hpcDropping m b' reply hc'
      rw [hat, hslot]
    · rw [hcall he] at hc'
      have hne : b' ≠ b := fun hb => hdead c' he (by rw [hc', hb]; rfl)
      rw [hentry hne]
      exact h.dropping c' m b' reply hc'
  · -- the call that consumed a branch was alone at it
    by_cases he₁ : c₁ = c
    · subst he₁
      rw [hself] at h₁
      by_contra he₂
      rw [hcall he₂] at h₂
      exact hdead c₂ he₂ (hpcDead h₁ ▸ h₂)
    · rw [hcall he₁] at h₁
      by_cases he₂ : c₂ = c
      · subst he₂
        rw [hself] at h₂
        exact absurd (hpcDead h₂ ▸ h₁) (hdead c₁ he₁)
      · rw [hcall he₂] at h₂
        exact h.only c₁ c₂ b' h₁ h₂
  · by_cases hb : b' = b
    · subst hb
      obtain ⟨rfl, m, reply, hp⟩ := hempty c' (Option.some.inj (hat.symm.trans he))
      exact ⟨m, reply, by rw [hself, hp]⟩
    · rw [hentry hb] at he
      obtain ⟨m, reply, hc'⟩ := h.emptied c' b' he
      refine ⟨m, reply, ?_⟩
      rw [hcall, hc']
      rintro rfl
      exact hb (hold b' (by rw [hc']; rfl))
  · rw [hnext] at hb'
    have hnone := h.fresh b' hb'
    have hne : b' ≠ b := by
      rintro rfl
      rcases hmade with hm | ⟨m, commitId, hm⟩
      · exact hm hnone
      · exact absurd (h.inserting c m b' commitId hm).1 (not_lt.mpr hb')
    rw [hentry hne, hnone]
  · by_cases he : c' = c
    · subst he
      rw [hself] at hc'
      exact absurd hc' (hpcInserting m b' commitId)
    · rw [hcall he] at hc'
      obtain ⟨hlt, hnone, honly⟩ := h.inserting c' m b' commitId hc'
      refine ⟨by rw [hnext]; exact hlt, by rw [hentry (hfresh he hc'), hnone], fun c'' m' commitId' hc'' => ?_⟩
      by_cases he' : c'' = c
      · subst he'
        rw [hself] at hc''
        exact absurd hc'' (hpcInserting m' b' commitId')
      · rw [hcall he'] at hc''
        exact honly c'' m' commitId' hc''

lemma World.wf_start (store : σ) (next : BranchId) : (World.start store next).Wf :=
  ⟨nofun, nofun, nofun, nofun, nofun, fun _ _ => rfl, nofun⟩

lemma Pc.outside_dead {pc : Pc σ} (h : pc.outside = true) : pc.dead = none := by
  cases pc <;> first | rfl | cases h

lemma Pc.outside_live {pc : Pc σ} (h : pc.outside = true) : pc.live = none := by
  cases pc <;> first | rfl | cases h

lemma Pc.dead_eq_none {pc : Pc σ} (h : pc.live = some b) : pc.dead = none := by
  cases pc <;> first | rfl | cases h

lemma lt_of_checkedSucc {i next : BranchId} (h : checkedSucc i = some next) : i < next := by
  unfold checkedSucc at h
  split_ifs at h
  obtain rfl := Option.some.inj h
  exact Fin.lt_def.mpr (Nat.lt_succ_self _)

/-- **Every step keeps the invariant.** -/
theorem World.Wf.step (h : w.Wf) (hs : w.step H R l = some (w', es)) : w'.Wf := by
  cases h.stepped hs with
  | queue c pc es hold hpc hes =>
    exact h.aside rfl rfl (Pc.outside_dead hold) (Pc.outside_live hpc) (Pc.outside_dead hpc) le_rfl
      fun m b commitId he => by rw [he] at hpc; cases hpc
  | allocate c m commitId next hold hnext =>
    have hlt := lt_of_checkedSucc hnext
    refine h.aside rfl rfl (Pc.outside_dead hold) rfl rfl hlt.le fun m' b' commitId' he => ?_
    obtain ⟨-, rfl, -⟩ := Pc.inserting.inj he
    exact ⟨le_rfl, hlt⟩
  | insert w' c m b commitId hold hentries hcalls hnext =>
    have hnone := (h.inserting c m b commitId hold).2.1
    refine h.update hcalls hentries hnext (.inr ⟨m, commitId, hold⟩) (fun c' _ hc' => ?_) (fun c' _ hc' => ?_)
      (fun b' hb' => ?_) nofun nofun nofun nofun nofun
    · obtain ⟨st, he⟩ := h.live c' b hc'
      rw [hnone] at he
      cases he
    · obtain ⟨holder, he⟩ := h.dead hc'
      rw [hnone] at he
      cases he
    · rw [hold] at hb'
      cases hb'
  | lock c m b req st hold he =>
    obtain ⟨halone, hdead⟩ := h.alone he
    refine h.update (b := b) rfl rfl rfl (.inl (by rw [he]; nofun)) (fun c' _ hc' => by cases halone c' hc')
      (fun c' _ => hdead c') (fun b' hb' => ?_) (fun b' hb' => ?_) nofun nofun nofun nofun
    · rw [Pc.outside_dead hold] at hb'
      cases hb'
    · exact ⟨(Option.some.inj hb').symm, st, rfl⟩
  | work w' c b st es hold he hw =>
    obtain ⟨halone, hdead⟩ := h.alone he
    have hmade : w.entries b ≠ none ∨ ∃ m commitId, w.calls c = .inserting m b commitId := .inl (by rw [he]; nofun)
    have hlive : ∀ c' ≠ c, (w.calls c').live ≠ some b := fun c' hne hc' => hne (Option.some.inj (halone c' hc')).symm
    have hbefore : ∀ b', (w.calls c).dead = some b' → b' = b := fun b' hb' => by
      rw [Pc.dead_eq_none hold] at hb'
      cases hb'
    cases hw with
    | stays st' pc _ hentries hcalls hreg hnext hpc _ _ =>
      refine h.update hcalls hentries hnext hmade hlive (fun c' _ => hdead c') hbefore (fun b' hb' => ?_) ?_ ?_ nofun ?_
      · exact ⟨Option.some.inj (hb'.symm.trans hpc), st', rfl⟩
      all_goals
        rintro _ _ _ rfl
        cases hpc
    | releases st' es reply hentries hcalls hreg hnext _ _ =>
      exact h.update hcalls hentries hnext hmade hlive (fun c' _ => hdead c') hbefore nofun nofun nofun nofun nofun
    | consumes holder pc es hentries hcalls hreg hnext hpc _ =>
      rcases hpc with ⟨m, reply, rfl, rfl⟩ | ⟨m, reply, rfl, rfl⟩
      · refine h.update hcalls hentries hnext hmade hlive (fun c' _ => hdead c') hbefore nofun
          (fun m' b' reply' he' => ?_)
          nofun (fun c' he' => ?_) nofun
        · exact ⟨(Pc.removing.inj he').2.1.symm, rfl⟩
        · exact ⟨(Option.some.inj (Slot.mk.inj he').2).symm, m, reply, rfl⟩
      · refine h.update hcalls hentries hnext hmade hlive (fun c' _ => hdead c') hbefore nofun nofun
          (fun m' b' reply' he' => ?_) nofun nofun
        exact ⟨(Pc.dropping.inj he').2.1.symm, rfl⟩
  | remove w' c b reply hold hentries hcalls hnext =>
    obtain ⟨holder, he⟩ := h.dead hold
    refine h.update hcalls hentries hnext (.inl (by rw [he]; nofun)) (fun c' _ hc' => ?_)
      (fun c' hne hc' => hne (h.only c c' b hold hc')) (fun b' hb' => ?_) nofun nofun nofun nofun nofun
    · obtain ⟨st, he'⟩ := h.live c' b hc'
      rw [he] at he'
      cases (Slot.mk.inj (Option.some.inj he')).1
    · exact Option.some.inj (hb'.symm.trans hold)

end Wf

end GolemDb.Branch
