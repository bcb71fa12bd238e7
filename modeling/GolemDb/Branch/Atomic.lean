import GolemDb.Branch.Threads
import GolemDb.Branch.Admission
import GolemDb.Branch.Retry
import GolemDb.Lib.Simulation
import GolemDb.Storage.Faults

/-!
Managers whose calls are atomic. Several managers share a store, and every call on a branch is one
step of its own manager, as the manager's functions compute it. To begin a branch is two steps: the
head is read, and a branch over the head that was read gets a number; in between others may publish.
-/

namespace GolemDb.Branch

open GolemDb.Lib GolemDb.Storage GolemDb.Merkle GolemDb.Cells GolemDb.Index

/-! ### Atomic calls -/

section Calls

variable (H : HashProvider) (R : Roaring) {σ : Type} [Store σ]

/-- The reply of a call, from what the manager's function returns. -/
def Reply.of {α : Type} (f : α → Reply) : Except BranchError α → Reply
  | .ok a => f a
  | .error e => .error (.branch e)

/-- The reply of a group of operations. -/
def Reply.ofGroup : Except (OperationError Unit) Unit → Reply
  | .ok () => .done
  | .error e => .error e

/-- A call's result as a reply. -/
def answer {α : Type} (f : α → Reply) (p : α × Branches σ) : Reply × Branches σ := (f p.1, p.2)

/-- **A call as one step**: the reply, and the manager after it. -/
def Request.exec (b : BranchId) (db : Branches σ) : Request → Reply × Branches σ
  | .ordinary .branchInfo => answer (.of .info) ((Branches.branchInfo b).exec db)
  | .ordinary (.read operation) => answer .ofGroup ((Branches.read b operation).exec db)
  | .ordinary (.write operation) => answer .ofGroup ((Branches.write b operation).exec db)
  | .ordinary .checkpoint => answer (.of fun _ => .done) ((Branches.checkpoint b).exec db)
  | .ordinary .rollback => answer (.of fun _ => .done) ((Branches.rollback b).exec db)
  | .ordinary .sealBranch => answer (.of .sealed) ((Branches.sealBranch H R b).exec db)
  | .commit => answer (.of .committed) ((Branches.commit H R b).exec db)
  | .discard => answer (.of fun _ => .done) ((Branches.discard b).exec db)

/-- A call that was answered. -/
structure Answer where
  manager : ManagerId
  branch : BranchId
  request : Request
  reply : Reply

/-- Managers over one store: the branches of each, the numbers handed out, the heads that begin calls
have read, and what calls have been answered. -/
structure Managers (σ : Type) [Store σ] where
  store : σ
  branches : ManagerId → OrdMap BranchId BranchState
  used : Set BranchId
  heads : CallId → Option CommitId
  results : CallId → Option Answer

/-- A step of a call. -/
inductive Point where
  | headRead (c : CallId) (m : ManagerId) (commitId : CommitId)
  | began (c : CallId) (m : ManagerId) (b : BranchId) (commitId : CommitId)
  | called (c : CallId) (a : Answer)

def Point.call : Point → CallId
  | headRead c _ _ => c
  | began c _ _ _ => c
  | called c _ => c

namespace Managers

def start (store : σ) : Managers σ := ⟨store, fun _ => OrdMap.empty, ∅, fun _ => none, fun _ => none⟩

/-- One of the managers. -/
def manager (a : Managers σ) (m : ManagerId) : Branches σ := ⟨a.store, a.branches m, 0⟩

/-- One of the managers after a call. -/
def set (a : Managers σ) (m : ManagerId) (db : Branches σ) : Managers σ :=
  { a with store := db.store, branches := Function.update a.branches m db.branches }

/-- **A step of the managers.** A call is answered once. -/
inductive Step : Managers σ → Point → Managers σ → Prop
  | headRead (a : Managers σ) (c : CallId) (m : ManagerId) (n : CommitId) (hnew : a.heads c = none)
      (hhead : (a.manager m).head = .ok n) :
      Step a (.headRead c m n) { a with heads := Function.update a.heads c (some n) }
  | began (a : Managers σ) (c : CallId) (m : ManagerId) (b : BranchId) (n : CommitId) (hread : a.heads c = some n)
      (hfresh : b ∉ a.used) : Step a (.began c m b n)
        { a with
          branches := Function.update a.branches m ((a.branches m).insert b ⟨n, CellOverlay.new, none⟩)
          used := insert b a.used }
  | called (a : Managers σ) (c : CallId) (m : ManagerId) (b : BranchId) (req : Request) (hnew : a.results c = none) :
      Step a (.called c ⟨m, b, req, (req.exec H R b (a.manager m)).1⟩)
        { a.set m (req.exec H R b (a.manager m)).2 with
          results := Function.update a.results c (some ⟨m, b, req, (req.exec H R b (a.manager m)).1⟩) }

end Managers

end Calls

/-! ### What a call does -/

section Exec

variable {H : HashProvider} {R : Roaring} {σ : Type} [Store σ] {db : Branches σ} {b : BranchId} {st : BranchState}
  {origin : Store.Read σ} {α : Type}

lemma withSlot_missing (hb : db.branches.get? b = none) (stale : BranchError)
    (operation : BranchState → Store.Read σ → Prog BranchError (Branches σ) α) :
    (Branches.withSlot b stale operation).exec db = (.error .handleInvalid, db) := by
  rcases withSlot_outcomes db b stale operation with ⟨-, he⟩ | ⟨st, hst, -⟩
  · exact he
  · rw [hb] at hst
    cases hst

lemma withSlot_stale {n : CommitId} (hb : db.branches.get? b = some st) (hbegin : Store.beginRead db.store = .ok origin)
    (hread : readHead origin = .ok n) (hne : n ≠ st.commitId) (stale : BranchError)
    (operation : BranchState → Store.Read σ → Prog BranchError (Branches σ) α) :
    (Branches.withSlot b stale operation).exec db = (.error stale, db.without b) := by
  rcases withSlot_outcomes db b stale operation with
    ⟨hnone, -⟩ | ⟨st', hst',
      ⟨e, -, ⟨source, he, -⟩ | ⟨origin', ho, he⟩⟩ | ⟨origin', n', -, -, -, he⟩ | ⟨origin', hadm, -⟩⟩
  · rw [hb] at hnone
    cases hnone
  · rw [hbegin] at he
    cases he
  · obtain rfl := Except.ok.inj (hbegin.symm.trans ho)
    rw [hread] at he
    cases he
  · exact he
  · obtain rfl := Option.some.inj (hb.symm.trans hst')
    obtain rfl := Except.ok.inj (hbegin.symm.trans hadm.1)
    exact absurd (Except.ok.inj (hread.symm.trans hadm.2)) hne

lemma withSlot_admitted (hb : db.branches.get? b = some st) (hadm : Admits db st origin) (stale : BranchError)
    (operation : BranchState → Store.Read σ → Prog BranchError (Branches σ) α) :
    (Branches.withSlot b stale operation).exec db = (operation st origin).exec db := by
  rcases withSlot_outcomes db b stale operation with
    ⟨hnone, -⟩ | ⟨st', hst', ⟨e, -, ⟨source, he, -⟩ | ⟨origin', ho, he⟩⟩ | ⟨origin', n, ho, hread, hne, -⟩ |
      ⟨origin', hadm', he⟩⟩
  · rw [hb] at hnone
    cases hnone
  · rw [hadm.1] at he
    cases he
  · obtain rfl := Except.ok.inj (hadm.1.symm.trans ho)
    rw [hadm.2] at he
    cases he
  · obtain rfl := Option.some.inj (hb.symm.trans hst')
    obtain rfl := Except.ok.inj (hadm.1.symm.trans ho)
    exact absurd (Except.ok.inj (hadm.2.symm.trans hread)).symm hne
  · obtain rfl := Option.some.inj (hb.symm.trans hst')
    obtain rfl := Except.ok.inj (hadm.1.symm.trans hadm'.1)
    exact he

lemma withBranch_admits (hb : db.branches.get? b = some st) (hadm : Admits db st origin)
    (operation : BranchState → Store.Read σ → α × BranchState) :
    (Branches.withBranch b operation).exec db = (.ok (operation st origin).1, db.withState b (operation st origin).2) :=
  withSlot_admitted hb hadm _ _

/-- A call that is not admitted is answered with the error of its admission. -/
lemma Request.exec_refused {e : BranchError} {db' : Branches σ} (req : Request)
    (h : ∀ {α : Type} (operation : BranchState → Store.Read σ → Prog BranchError (Branches σ) α),
      (Branches.withSlot b req.stale operation).exec db = (.error e, db')) :
    req.exec H R b db = (.error (.branch e), db') := by
  have hbranch : req.stale = .handleInvalid → ∀ {α : Type} (operation : BranchState → Store.Read σ → α × BranchState),
      (Branches.withBranch b operation).exec db = (.error e, db') := fun hs _ operation => by
    unfold Branches.withBranch
    rw [← hs]
    exact h _
  cases req with
  | ordinary op =>
    cases op with
    | branchInfo =>
      show answer _ ((Branches.branchInfo b).exec db) = _
      rw [Branches.branchInfo, hbranch rfl]
      rfl
    | read operation =>
      show answer _ ((Branches.read b operation).exec db) = _
      rw [Branches.read, Prog.exec_bind, Prog.exec_mapError, hbranch rfl]
      rfl
    | write operation =>
      show answer _ ((Branches.write b operation).exec db) = _
      rw [Branches.write, Prog.exec_bind, Prog.exec_mapError, hbranch rfl]
      rfl
    | checkpoint =>
      show answer _ ((Branches.checkpoint b).exec db) = _
      rw [Branches.checkpoint, Prog.exec_bind, hbranch rfl]
      rfl
    | rollback =>
      show answer _ ((Branches.rollback b).exec db) = _
      rw [Branches.rollback, Prog.exec_bind, hbranch rfl]
      rfl
    | sealBranch =>
      show answer _ ((Branches.sealBranch H R b).exec db) = _
      rw [Branches.sealBranch, Prog.exec_bind, hbranch rfl]
      rfl
  | commit =>
    show answer _ ((Branches.commit H R b).exec db) = _
    rw [show Request.commit.stale = .conflict from rfl] at h
    rw [Branches.commit, h]
    rfl
  | discard =>
    show answer _ ((Branches.discard b).exec db) = _
    rw [show Request.discard.stale = .handleInvalid from rfl] at h
    rw [Branches.discard, h]
    rfl

lemma Request.exec_missing (hb : db.branches.get? b = none) (req : Request) :
    req.exec H R b db = (.handleInvalid, db) :=
  req.exec_refused fun operation => withSlot_missing hb _ operation

lemma Request.exec_stale {n : CommitId} (hb : db.branches.get? b = some st)
    (hbegin : Store.beginRead db.store = .ok origin)
    (hread : readHead origin = .ok n) (hne : n ≠ st.commitId) (req : Request) :
    req.exec H R b db = (.error (.branch req.stale), db.without b) :=
  req.exec_refused fun operation => withSlot_stale hb hbegin hread hne _ operation

/-- **An ordinary call that is admitted** does its work on the branch's state. -/
lemma Request.exec_ordinary (hb : db.branches.get? b = some st) (hadm : Admits db st origin) (op : Ordinary) :
    (Request.ordinary op).exec H R b db
      = ((op.perform H R b st origin).1, db.withState b (op.perform H R b st origin).2.1) := by
  cases op with
  | branchInfo =>
    show answer _ ((Branches.branchInfo b).exec db) = _
    rw [Branches.branchInfo, withBranch_admits hb hadm]
    rfl
  | read operation =>
    show answer _ ((Branches.read b operation).exec db) = _
    rw [Branches.read, Prog.exec_bind, Prog.exec_mapError, withBranch_admits hb hadm]
    simp only [Ordinary.perform]
    rcases (operation.run origin st.overlay).1 with (e | _) | _ <;> rfl
  | write operation =>
    show answer _ ((Branches.write b operation).exec db) = _
    rw [Branches.write, Prog.exec_bind, Prog.exec_mapError, withBranch_admits hb hadm]
    simp only [Ordinary.perform]
    cases st.requireOpen with
    | error e => rfl
    | ok u =>
      simp only
      rcases (st.overlay.write origin operation).1 with (e | _) | _ <;> rfl
  | checkpoint =>
    show answer _ ((Branches.checkpoint b).exec db) = _
    rw [Branches.checkpoint, Prog.exec_bind, withBranch_admits hb hadm]
    simp only [Ordinary.perform]
    cases st.requireOpen <;> rfl
  | rollback =>
    show answer _ ((Branches.rollback b).exec db) = _
    rw [Branches.rollback, Prog.exec_bind, withBranch_admits hb hadm]
    simp only [Ordinary.perform]
    cases st.requireOpen with
    | error e => rfl
    | ok u =>
      simp only
      cases st.overlay.rollback.1 <;> rfl
  | sealBranch =>
    show answer _ ((Branches.sealBranch H R b).exec db) = _
    rw [Branches.sealBranch, Prog.exec_bind, withBranch_admits hb hadm]
    simp only [Ordinary.perform]
    cases st.sealState H R origin <;> rfl

lemma Request.exec_discard (hb : db.branches.get? b = some st) (hadm : Admits db st origin) :
    Request.discard.exec H R b db = (.done, db.without b) := by
  show answer _ ((Branches.discard b).exec db) = _
  rw [Branches.discard, withSlot_admitted hb hadm]
  rfl

/-- A commit that cannot seal its branch keeps it. -/
lemma Request.exec_commit_error (hb : db.branches.get? b = some st) (hadm : Admits db st origin) {e : BranchError}
    (hseal : st.sealState H R origin = .error e) : Request.commit.exec H R b db = (.error (.branch e), db) := by
  show answer _ ((Branches.commit H R b).exec db) = _
  rw [Branches.commit, withSlot_admitted hb hadm, Branches.commitSlot, hseal]
  rfl

/-- **A commit that is admitted** publishes the seal of the branch in the store's writer. -/
lemma Request.exec_commit (hb : db.branches.get? b = some st) (hadm : Admits db st origin) {s : SealedCommit}
    {st' : BranchState} (hseal : st.sealState H R origin = .ok (s, st')) (hcommit : st'.commitId = st.commitId)
    {tx₀ tx₁ tx₂ : Store.Write σ} {store : σ}
    (hbegin : Store.beginWrite db.store = .ok tx₀) (hread : readHead tx₀ = .ok st.commitId)
    (hreplay : Prog.Runs (replay s.writes) tx₀ () tx₁)
    (hwrite : Prog.Runs (writeHead ⟨s.commitId, s.stateRoot, s.indexRoot⟩) tx₁ () tx₂)
    (hstore : Prog.Runs (Store.commit tx₂) db.store () store) :
    Request.commit.exec H R b db = (.committed s.commitId, { db.without b with store := store }) := by
  have hstage : Prog.Runs (stage st.commitId s) tx₀ () tx₂ := by
    unfold stage
    refine Prog.Runs.bind (Prog.Runs.read hread) ?_
    rw [if_neg (not_not.mpr rfl)]
    exact Prog.Runs.bind hreplay hwrite
  have hpersist : Prog.Runs (persist tx₀ st.commitId s) db.store s.commitId store := by
    unfold persist
    rw [show (stage st.commitId s).exec tx₀ = _ from hstage]
    exact Prog.Runs.bind (Prog.runs_mapError.mpr hstore) (Prog.Runs.pure _ _)
  have hpublish : (Branches.publish st'.commitId s).exec (db.withState b st')
      = (.ok s.commitId, { db.withState b st' with store := store }) := by
    show Branches.publish st'.commitId s (db.withState b st') = _
    unfold Branches.publish
    rw [show (db.withState b st').store = db.store from rfl, hbegin, hcommit]
    simp only [mapError_ok]
    rw [show (persist tx₀ st.commitId s).exec db.store = _ from hpersist]
  have hslot : Prog.Runs (Branches.commitSlot H R b st origin) db s.commitId { db.without b with store := store } := by
    unfold Branches.commitSlot
    refine Prog.Runs.bind (Prog.Runs.ofExcept hseal) ?_
    refine Prog.Runs.bind (show Prog.Runs (Branches.setBranch b (some st')) db () (db.withState b st') from rfl) ?_
    refine Prog.Runs.bind (Prog.Runs.outcome _ _) ?_
    rw [hpublish]
    have hremove : Prog.Runs (Branches.remove b) { db.withState b st' with store := store } ()
        { db.without b with store := store } := by
      refine Prod.ext rfl ?_
      show ({ db.withState b st' with store := store, branches :=
        (db.branches.set b (some st')).set b none } : Branches σ) = _
      rw [OrdMap.set_set]
      rfl
    exact Prog.Runs.bind hremove (Prog.Runs.pure _ _)
  show answer _ ((Branches.commit H R b).exec db) = _
  rw [Branches.commit, withSlot_admitted hb hadm, show (Branches.commitSlot H R b st origin).exec db = _ from hslot]
  rfl

end Exec

end GolemDb.Branch
