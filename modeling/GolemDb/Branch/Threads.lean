import GolemDb.Branch.Manager

/-!
Managers under concurrent calls. Any number of managers share one store; a call is a thread that
takes its steps one at a time, between the steps of the others. A branch is an entry with a lock of
its own: a call looks the entry up, waits for its lock, finds the branch's state or none, checks the
head in a fresh snapshot and does its work, and a commit seals, takes the store's writer, checks the
head again, replays the rows, writes the head and publishes. A consumed branch is an entry without
a state, which calls that already hold the entry still find.
-/

namespace GolemDb.Branch

open GolemDb.Lib GolemDb.Storage GolemDb.Merkle GolemDb.Cells GolemDb.Index

/-! ### Calls -/

abbrev CallId := ℕ
abbrev ManagerId := ℕ

/-- A call that works on the state of a branch and keeps it. -/
inductive Ordinary where
  | branchInfo
  | read (operation : CellOperation Unit Unit)
  | write (operation : CellOperation Unit Unit)
  | checkpoint
  | rollback
  | sealBranch

/-- A call on a branch. -/
inductive Request where
  | ordinary (op : Ordinary)
  | commit
  | discard

/-- What a call returns. -/
inductive Reply where
  | info (i : BranchInfo)
  | done
  | sealed (s : SealedCommit)
  | committed (commitId : CommitId)
  | error (e : OperationError Unit)
deriving DecidableEq

def Reply.handleInvalid : Reply := .error (.branch .handleInvalid)

/-- What was done to a branch's state. -/
inductive Act where
  | read
  | write
  | checkpoint
  | rollback
deriving DecidableEq

def Reply.ofResult : Except (Fault Unit) Unit → Reply
  | .ok () => .done
  | .error fault => .error fault.toOperationError

/-- The work of an ordinary call under the lock, as the manager's own calls do it. -/
def Ordinary.perform (H : HashProvider) (R : Roaring) {ρ : Type} [ReadTransaction ρ] (b : BranchId)
    (state : BranchState) (origin : ρ) : Ordinary → Reply × BranchState × List Act
  | branchInfo => (.info ⟨state.commitId, b, state.overlay.version, state.sealed.isSome⟩, state, [])
  | read operation => (.ofResult (operation.run origin state.overlay).1, state, [.read])
  | write operation =>
    match state.requireOpen with
    | .error e => (.error (.branch e), state, [])
    | .ok () =>
      let (result, overlay) := state.overlay.write origin operation
      (.ofResult result, { state with overlay := overlay }, [.write])
  | checkpoint =>
    match state.requireOpen with
    | .error e => (.error (.branch e), state, [])
    | .ok () => (.done, { state with overlay := state.overlay.checkpoint }, [.checkpoint])
  | rollback =>
    match state.requireOpen with
    | .error e => (.error (.branch e), state, [])
    | .ok () =>
      let reply := match state.overlay.rollback.1 with
        | .ok () => Reply.done
        | .error e => .error (.branch e)
      (reply, { state with overlay := state.overlay.rollback.2 }, [.rollback])
  | sealBranch =>
    match state.sealState H R origin with
    | .ok (sealed, state) => (.sealed sealed, state, [])
    | .error e => (.error (.branch e), state, [])

/-- The error of a call whose branch is behind the head. -/
def Request.stale : Request → BranchError
  | commit => .conflict
  | _ => .handleInvalid

/-! ### Threads -/

/-- Where a call stands. From `locked` to `removing` it holds the branch's lock, from `writing` to
`headed` the store's writer. -/
inductive Pc (σ : Type) [Store σ] where
  | idle
  | beginning (m : ManagerId)
  | allocating (m : ManagerId) (commitId : CommitId)
  | inserting (m : ManagerId) (b : BranchId) (commitId : CommitId)
  | looking (m : ManagerId) (b : BranchId) (req : Request)
  | waiting (m : ManagerId) (b : BranchId) (req : Request)
  | locked (m : ManagerId) (b : BranchId) (req : Request)
  | ready (m : ManagerId) (b : BranchId) (req : Request) (origin : Store.Read σ)
  | sealed (m : ManagerId) (b : BranchId) (origin : CommitId) (s : SealedCommit)
  | writing (m : ManagerId) (b : BranchId) (origin : CommitId) (s : SealedCommit) (tx : Store.Write σ)
  | checked (m : ManagerId) (b : BranchId) (origin : CommitId) (s : SealedCommit) (tx : Store.Write σ)
  | replayed (m : ManagerId) (b : BranchId) (origin : CommitId) (s : SealedCommit) (tx : Store.Write σ)
  | headed (m : ManagerId) (b : BranchId) (origin : CommitId) (s : SealedCommit) (tx : Store.Write σ)
  | removing (m : ManagerId) (b : BranchId) (reply : Reply)
  | dropping (m : ManagerId) (b : BranchId) (reply : Reply)
  | done

namespace Pc

variable {σ : Type} [Store σ]

/-- The branch whose lock the call holds while the branch is live. -/
def live : Pc σ → Option BranchId
  | locked _ b _ => some b
  | ready _ b _ _ => some b
  | sealed _ b _ _ => some b
  | writing _ b _ _ _ => some b
  | checked _ b _ _ _ => some b
  | replayed _ b _ _ _ => some b
  | headed _ b _ _ _ => some b
  | _ => none

/-- The branch the call has consumed and not yet removed. -/
def dead : Pc σ → Option BranchId
  | removing _ b _ => some b
  | dropping _ b _ => some b
  | _ => none

/-- The branch the call is looking for. -/
def queued : Pc σ → Option BranchId
  | looking _ b _ => some b
  | waiting _ b _ => some b
  | _ => none

end Pc

/-- An entry: the branch's state until it is consumed, and the call that holds its lock. -/
structure Slot where
  state : Option BranchState
  holder : Option CallId

/-- What a step shows. A call on a branch of `origin` observes a head. -/
inductive Emission where
  | began (c : CallId) (b : BranchId)
  | observed (c : CallId) (b : BranchId) (origin head : CommitId)
  | acted (c : CallId) (b : BranchId) (act : Act)
  | sealed (c : CallId) (b : BranchId)
  | published (c : CallId) (b : BranchId) (origin commitId : CommitId)
  | discarded (c : CallId) (b : BranchId)
  | refused (c : CallId) (e : BranchError)
  | returned (c : CallId) (b : BranchId) (reply : Reply)
deriving DecidableEq

/-- The store, its writer lock, the registries and entries, and the calls. An entry is named by the
number of the branch it was made for. -/
structure World (σ : Type) [Store σ] where
  store : σ
  writer : Option CallId
  registry : ManagerId → BranchId → Bool
  entries : BranchId → Option Slot
  nextBranchId : BranchId
  calls : CallId → Pc σ

/-- A call starts, or takes its next step. -/
inductive Label where
  | begin (c : CallId) (m : ManagerId)
  | call (c : CallId) (m : ManagerId) (b : BranchId) (req : Request)
  | advance (c : CallId)

namespace World

section Step

variable {σ : Type} [Store σ]

/-- Managers over a store that nobody is using. -/
def start (store : σ) (nextBranchId : BranchId) : World σ :=
  ⟨store, none, fun _ _ => false, fun _ => none, nextBranchId, fun _ => .idle⟩

def goto (w : World σ) (c : CallId) (pc : Pc σ) : World σ := { w with calls := Function.update w.calls c pc }

def setSlot (w : World σ) (b : BranchId) (slot : Slot) : World σ :=
  { w with entries := Function.update w.entries b (some slot) }

/-- The call returns. -/
def finish (w : World σ) (c : CallId) (b : BranchId) (reply : Reply) : World σ × List Emission :=
  (w.goto c .done, [.returned c b reply])

/-- The call releases the branch's lock and returns. -/
def release (w : World σ) (c : CallId) (b : BranchId) (state : BranchState) (reply : Reply) : World σ × List Emission :=
  (w.setSlot b ⟨some state, none⟩).finish c b reply

/-- The call empties the entry and goes on to remove it, the lock still held. -/
def consume (w : World σ) (c : CallId) (m : ManagerId) (b : BranchId) (reply : Reply) : World σ :=
  (w.setSlot b ⟨none, some c⟩).goto c (.removing m b reply)

/-- The writer is dropped with nothing published: a lost race consumes the branch, any other failure
keeps it. -/
def abandon (w : World σ) (c : CallId) (m : ManagerId) (b : BranchId) (state : BranchState) (e : BranchError) :
    World σ × List Emission :=
  let w := { w with writer := none }
  if e = .conflict then (w.consume c m b (.error (.branch .conflict)), [])
  else w.release c b state (.error (.branch e))

variable (H : HashProvider) (R : Roaring)

/-- The next step of a call that holds the lock of a live branch. -/
def work (w : World σ) (c : CallId) (b : BranchId) (state : BranchState) : Option (World σ × List Emission) :=
  match w.calls c with
  | .locked m _ req =>
    -- the head is read in a fresh snapshot
    match (Store.beginRead w.store).mapError BranchError.storage with
    | .error e => some (w.release c b state (.error (.branch e)))
    | .ok origin =>
      match readHead origin with
      | .error e => some (w.release c b state (.error (.branch e)))
      | .ok head =>
        if head ≠ state.commitId then
          some (w.consume c m b (.error (.branch req.stale)), [.observed c b state.commitId head])
        else some (w.goto c (.ready m b req origin), [.observed c b state.commitId head])
  | .ready _ _ (.ordinary op) origin =>
    let (reply, state, acts) := op.perform H R b state origin
    let (w, out) := w.release c b state reply
    some (w, acts.map (.acted c b) ++ (if state.sealed.isSome then [.sealed c b] else []) ++ out)
  | .ready m _ .discard _ =>
    -- the entry is removed after its lock is released
    some ((w.setSlot b ⟨none, none⟩).goto c (.dropping m b .done), [.discarded c b])
  | .ready m _ .commit origin =>
    match state.sealState H R origin with
    | .error e => some (w.release c b state (.error (.branch e)))
    | .ok (s, state) =>
      some ((w.setSlot b ⟨some state, some c⟩).goto c (.sealed m b state.commitId s), [.sealed c b])
  | .sealed m _ origin s =>
    -- the store's writers are serialized
    match w.writer with
    | some _ => none
    | none =>
      match (Store.beginWrite w.store).mapError BranchError.storage with
      | .error e => some (w.release c b state (.error (.branch e)))
      | .ok tx => some ({ w with writer := some c }.goto c (.writing m b origin s tx), [])
  | .writing m _ origin s tx =>
    match readHead tx with
    | .error e => some (w.abandon c m b state e)
    | .ok head =>
      if head ≠ origin then
        let (w, out) := w.abandon c m b state .conflict
        some (w, .observed c b origin head :: out)
      else some (w.goto c (.checked m b origin s tx), [.observed c b origin head])
  | .checked m _ origin s tx =>
    match (replay s.writes).exec tx with
    | (.error e, _) => some (w.abandon c m b state e)
    | (.ok (), tx) => some (w.goto c (.replayed m b origin s tx), [])
  | .replayed m _ origin s tx =>
    match (writeHead ⟨s.commitId, s.stateRoot, s.indexRoot⟩).exec tx with
    | (.error e, _) => some (w.abandon c m b state e)
    | (.ok (), tx) => some (w.goto c (.headed m b origin s tx), [])
  | .headed m _ origin s tx =>
    match (Store.commit tx).exec w.store with
    | (.error e, store) => some ({ w with store := store }.abandon c m b state (.storage e))
    | (.ok (), store) =>
      some ({ w with store := store, writer := none }.consume c m b (.committed s.commitId),
        [.published c b origin s.commitId])
  | _ => none

/-- The next step of a call; none where it waits or has returned. -/
def advance (w : World σ) (c : CallId) : Option (World σ × List Emission) :=
  match w.calls c with
  | .beginning m =>
    match (Store.beginRead w.store).mapError BranchError.storage with
    | .error e => some (w.goto c .done, [.refused c e])
    | .ok tx =>
      match readHead tx with
      | .error e => some (w.goto c .done, [.refused c e])
      | .ok head => some (w.goto c (.allocating m head), [])
  | .allocating m commitId =>
    match checkedSucc w.nextBranchId with
    | none => some (w.goto c .done, [.refused c .branchNumberExhausted])
    | some next => some ({ w with nextBranchId := next }.goto c (.inserting m w.nextBranchId commitId), [])
  | .inserting m b commitId =>
    let registry := Function.update w.registry m (Function.update (w.registry m) b true)
    let w := { w with registry := registry }.setSlot b ⟨some ⟨commitId, CellOverlay.new, none⟩, none⟩
    some (w.goto c .done, [.began c b])
  | .looking m b req =>
    if w.registry m b then some (w.goto c (.waiting m b req), []) else some (w.finish c b .handleInvalid)
  | .waiting m b req =>
    match w.entries b with
    | some ⟨none, none⟩ => some (w.finish c b .handleInvalid)
    | some ⟨some state, none⟩ => some ((w.setSlot b ⟨some state, some c⟩).goto c (.locked m b req), [])
    | _ => none
  | .removing m b reply =>
    let registry := Function.update w.registry m (Function.update (w.registry m) b false)
    some (({ w with registry := registry }.setSlot b ⟨none, none⟩).finish c b reply)
  | .dropping m b reply =>
    let registry := Function.update w.registry m (Function.update (w.registry m) b false)
    some ({ w with registry := registry }.finish c b reply)
  | pc =>
    match pc.live with
    | none => none
    | some b =>
      match w.entries b with
      | some ⟨some state, _⟩ => w.work H R c b state
      | _ => none

/-- One step of the managers. -/
def step (w : World σ) : Label → Option (World σ × List Emission)
  | .begin c m =>
    match w.calls c with
    | .idle => some (w.goto c (.beginning m), [])
    | _ => none
  | .call c m b req =>
    match w.calls c with
    | .idle => some (w.goto c (.looking m b req), [])
    | _ => none
  | .advance c => w.advance H R c

/-- Steps in order, with what they show. -/
def run : List Label → World σ → Option (World σ × List Emission)
  | [], w => some (w, [])
  | l :: labels, w =>
    match w.step H R l with
    | none => none
    | some (w, es) => (run labels w).map fun p => (p.1, es ++ p.2)

end Step

end World

end GolemDb.Branch
