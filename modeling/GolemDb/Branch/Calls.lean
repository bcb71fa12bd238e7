import GolemDb.Branch.Admission

/-!
Runs of the manager alone, with groups of any cell operations: what a branch has sealed was
computed over the committed tables as long as the branch is over the current head, and the Cell
table is a table of cells after every call.
-/

namespace GolemDb.Branch

open GolemDb.Lib GolemDb.Storage GolemDb.Merkle GolemDb.Cells GolemDb.Index

/-- A call of the manager that can change it. -/
inductive Call where
  | begin
  | write (branch : BranchId) (group : CellOperation Unit Unit)
  | checkpoint (branch : BranchId)
  | rollback (branch : BranchId)
  | sealBranch (branch : BranchId)
  | commit (branch : BranchId)
  | discard (branch : BranchId)

section Calls

variable (H : HashProvider) (R : Roaring) {σ : Type} [Store σ]

/-- The manager after a call, whatever its result. -/
def Call.exec (call : Call) (db : Branches σ) : Branches σ :=
  match call with
  | begin => (Branches.begin.exec db).2
  | write b group => ((Branches.write b group).exec db).2
  | checkpoint b => ((Branches.checkpoint b).exec db).2
  | rollback b => ((Branches.rollback b).exec db).2
  | sealBranch b => ((Branches.sealBranch H R b).exec db).2
  | commit b => ((Branches.commit H R b).exec db).2
  | discard b => ((Branches.discard b).exec db).2

/-- The manager after a sequence of calls. -/
def runCalls (calls : List Call) (db : Branches σ) : Branches σ := calls.foldl (fun db call => call.exec H R db) db

end Calls

section Managed

variable {H : HashProvider} {R : Roaring} {σ : Type} [Store σ] [LawfulStore σ] {head : Head} {cells : CellMap}
  {db : Branches σ}

/-- What is known of a branch of a manager. -/
structure SealOk (H : HashProvider) (R : Roaring) (store : σ) (head : Head) (st : BranchState) : Prop where
  le : st.commitId ≤ head.commitId
  sealed : ∀ s, st.sealed = some s → st.commitId = head.commitId →
    ∃ origin : Store.Read σ, rows origin = tables store ∧ compute H R origin st.overlay = .ok s

lemma SealOk.opened {store : σ} {st : BranchState} (h : SealOk H R store head st) (o : CellOverlay) :
    SealOk H R store head ⟨st.commitId, o, none⟩ := ⟨h.le, nofun⟩

lemma SealOk.cached {store : σ} {st : BranchState} (h : SealOk H R store head st) {origin : Store.Read σ}
    {s : SealedCommit} (hc : st.commitId = head.commitId) (hr : rows origin = tables store)
    (hwhere : st.sealed = some s ∨ st.sealed = none ∧ compute H R origin st.overlay = .ok s) :
    SealOk H R store head { st with sealed := some s } := by
  refine ⟨h.le, fun s' hs' _ => ?_⟩
  obtain rfl := Option.some.inj hs'
  rcases hwhere with hsome | ⟨-, hcomp⟩
  · exact h.sealed s hsome hc
  · exact ⟨origin, hr, hcomp⟩

/-- **The invariant of the manager.** -/
structure Managed (H : HashProvider) (R : Roaring) (head : Head) (cells : CellMap) (db : Branches σ) : Prop where
  head_is : HeadIs (tables db.store) head
  cells : tables db.store CELL = cellRows cells
  branches : db.Each (SealOk H R db.store head)

namespace Managed

/-- A call that keeps the store and its branches keeps the invariant. -/
lemma quiet (h : Managed H R head cells db) {db' : Branches σ}
    (hd : db'.Each (SealOk H R db.store head) ∧ db'.store = db.store) : Managed H R head cells db' :=
  ⟨by rw [hd.2]; exact h.head_is, by rw [hd.2]; exact h.cells, by rw [hd.2]; exact hd.1⟩

/-- The seal behind a publication was computed over the committed tables. -/
lemma computed (h : Managed H R head cells db) {b : BranchId} {st : BranchState} {origin : Store.Read σ}
    {s : SealedCommit} (hb : db.branches.get? b = some st) (hc : st.commitId = head.commitId)
    (hr : rows origin = tables db.store)
    (hwhere : st.sealed = some s ∨ st.sealed = none ∧ compute H R origin st.overlay = .ok s) :
    ∃ origin' : Store.Read σ, rows origin' = tables db.store ∧ compute H R origin' st.overlay = .ok s := by
  rcases hwhere with hsome | ⟨-, hcomp⟩
  · exact (h.branches b st hb).sealed s hsome hc
  · exact ⟨origin, hr, hcomp⟩

/-- The head a seal was computed over, and the Cell table it publishes. -/
lemma compute_head (h : Managed H R head cells db) {o : CellOverlay} {origin : Store.Read σ} {s : SealedCommit}
    (hr : rows origin = tables db.store) (hs : compute H R origin o = .ok s) :
    checkedSucc head.commitId = some s.commitId ∧ (tables db.store CELL).overlay (s.writes.rowsOf CELL)
      = cellRows ((cells.overlay o.entries).insert (rootsKey head.commitId) (rootsValue head)) := by
  obtain ⟨head₀, hhead₀, hsucc, hcells, -, -⟩ := compute_ok hs
  have hrow := row_of_readHeadState hhead₀
  rw [hr] at hrow hcells
  obtain rfl := HeadIs.unique hrow h.head_is
  refine ⟨hsucc, ?_⟩
  rw [hcells, h.cells, overlay_cellRows, sealedEntries, OrdMap.overlay_insert]
  rfl

/-- A seal over the head found no roots under the head's number. -/
lemma roots_free (h : Managed H R head cells db) {o : CellOverlay} {origin : Store.Read σ} {s : SealedCommit}
    (hr : rows origin = tables db.store) (hs : compute H R origin o = .ok s) {c : CommitId}
    (hc : c = head.commitId) : cells.get? (rootsKey c) = none := by
  obtain ⟨head₀, -, -, -, hhead₀, -, -, -, hfound, -⟩ := compute_runs hs
  have hrow := row_of_readHeadState hhead₀
  rw [hr] at hrow
  obtain rfl := HeadIs.unique hrow h.head_is
  rw [LawfulRead.get_eq CELL_valid, hr, h.cells, get?_cellRows] at hfound
  rw [hc]
  exact Option.map_eq_none_iff.mp (Except.ok.inj hfound)

/-- **The outcomes of a commit**: nothing happens, the branch is lost, or what it showed is
published with the roots of the head. -/
theorem commit (h : Managed H R head cells db) (b : BranchId) :
    (∃ e, (Branches.commit H R b).exec db = (.error e, db)) ∨
    (Branches.commit H R b).exec db = (.error .conflict, db.without b) ∨
    ∃ (st : BranchState) (origin : Store.Read σ) (s : SealedCommit) (store' : σ),
      db.branches.get? b = some st ∧ st.commitId = head.commitId ∧ rows origin = tables db.store ∧
      compute H R origin st.overlay = .ok s ∧ tables store' = publishedRows (tables db.store) s ∧
      (Branches.commit H R b).exec db = (.ok s.commitId, { db.without b with store := store' }) ∧
      Managed H R ⟨s.commitId, s.stateRoot, s.indexRoot⟩
        ((cells.overlay st.overlay.entries).insert (rootsKey head.commitId) (rootsValue head))
        { db.without b with store := store' } := by
  rcases commit_cases (H := H) (R := R) h.head_is b (fun st s hb hc hs => by
      obtain ⟨origin, -, hcomp⟩ := (h.branches b st hb).sealed s hs hc
      obtain ⟨-, -, -, -, -, hv⟩ := compute_ok hcomp
      exact hv) with he | he | ⟨st, origin, s, store', hb, hc, hr, hwhere, ht, he⟩
  · exact .inl he
  · exact .inr (.inl he)
  · obtain ⟨origin', hr', hcomp⟩ := h.computed hb hc hr hwhere
    obtain ⟨hsucc, hcells⟩ := h.compute_head hr' hcomp
    refine .inr (.inr ⟨st, origin', s, store', hb, hc, hr', hcomp, ht, he, ?_, ?_, ?_⟩)
    · show (tables store' SUPERBLOCK).get? HEAD_KEY = _
      rw [ht, publishedRows, if_pos rfl, OrdMap.get?_insert, if_pos rfl]
    · show tables store' CELL = _
      rw [ht, publishedRows, if_neg (by decide), hcells]
    · intro b' st' hb'
      have hlt : st'.commitId < s.commitId :=
        lt_of_le_of_lt (Branches.Each.without h.branches b b' st' hb').le (checkedSucc_lt hsucc).1
      exact ⟨hlt.le, fun s' _ heq => absurd heq hlt.ne⟩

/-- **Every call keeps the invariant**, over the next head if it publishes. -/
theorem step (h : Managed H R head cells db) (call : Call) :
    ∃ head' cells', Managed H R head' cells' (call.exec H R db) := by
  cases call with
  | begin => exact ⟨head, cells, h.quiet (begin_each h.head_is h.branches ⟨le_rfl, nofun⟩)⟩
  | write b group =>
    refine ⟨head, cells, h.quiet ?_⟩
    show ((Branches.write b group).exec db).2.Each _ ∧ ((Branches.write b group).exec db).2.store = _
    rw [Branches.write, exec_ofExcept_self, Prog.exec_mapError]
    refine overlay_each h.head_is h.branches fun st origin _ _ _ => ?_
    unfold BranchState.requireOpen
    cases hs : st.sealed with
    | some s => exact .inl rfl
    | none => exact .inr ⟨rfl, _, rfl, fun hok => hok.opened _⟩
  | checkpoint b =>
    refine ⟨head, cells, h.quiet ?_⟩
    show ((Branches.checkpoint b).exec db).2.Each _ ∧ ((Branches.checkpoint b).exec db).2.store = _
    rw [Branches.checkpoint, exec_ofExcept_self]
    refine overlay_each h.head_is h.branches fun st origin _ _ _ => ?_
    unfold BranchState.requireOpen
    cases hs : st.sealed with
    | some s => exact .inl rfl
    | none => exact .inr ⟨rfl, _, rfl, fun hok => hok.opened _⟩
  | rollback b =>
    refine ⟨head, cells, h.quiet ?_⟩
    show ((Branches.rollback b).exec db).2.Each _ ∧ ((Branches.rollback b).exec db).2.store = _
    rw [Branches.rollback, exec_ofExcept_self]
    refine overlay_each h.head_is h.branches fun st origin _ _ _ => ?_
    unfold BranchState.requireOpen
    cases hs : st.sealed with
    | some s => exact .inl rfl
    | none => exact .inr ⟨rfl, _, rfl, fun hok => hok.opened _⟩
  | sealBranch b =>
    exact ⟨head, cells, h.quiet (seal_each h.head_is h.branches b fun st origin s hc hr hwhere hok =>
      hok.cached hc hr hwhere)⟩
  | commit b =>
    show ∃ head' cells', Managed H R head' cells' ((Branches.commit H R b).exec db).2
    rcases h.commit b with ⟨e, he⟩ | he | ⟨st, origin, s, store', -, -, -, -, -, he, hm⟩
    · exact ⟨head, cells, by rw [he]; exact h⟩
    · exact ⟨head, cells, by rw [he]; exact h.quiet ⟨h.branches.without b, rfl⟩⟩
    · exact ⟨_, _, by rw [he]; exact hm⟩
  | discard b => exact ⟨head, cells, h.quiet (discard_each h.head_is h.branches b)⟩

/-- The invariant holds after every sequence of calls. -/
theorem runCalls (h : Managed H R head cells db) (calls : List Call) :
    ∃ head' cells', Managed H R head' cells' (runCalls H R calls db) := by
  induction calls generalizing head cells db with
  | nil => exact ⟨head, cells, h⟩
  | cons call calls ih =>
    obtain ⟨head₁, cells₁, h₁⟩ := h.step call
    exact ih h₁

end Managed

/-- A new manager over a table of cells. -/
lemma managed_new {store : σ} {next : BranchId} (hnew : Branches.new store next = .ok db)
    (hcells : tables store CELL = cellRows cells) : ∃ head, Managed H R head cells db ∧ db.store = store := by
  obtain ⟨tx, htx, hrest⟩ := bind_eq_ok.mp hnew
  obtain ⟨c, hhead, hrest⟩ := bind_eq_ok.mp hrest
  obtain rfl := pure_eq_ok.mp hrest
  obtain ⟨head, hstate, -⟩ := bind_eq_ok.mp hhead
  obtain ⟨tx', htx', hrows⟩ := LawfulStore.beginRead_eq store
  rw [htx', mapError_ok] at htx
  obtain rfl := Except.ok.inj htx
  refine ⟨head, ⟨?_, hcells, nofun⟩, rfl⟩
  have hrow := row_of_readHeadState hstate
  rwa [hrows] at hrow

end Managed

end GolemDb.Branch
