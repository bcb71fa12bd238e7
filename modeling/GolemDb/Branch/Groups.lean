import GolemDb.Branch.Snapshots

/-!
Groups of cell operations as programs over a map of cells, and the invariants they give a branch.
A group behaves on an overlay as it does on the visible map (`run_runOn`). A property of maps that
every successful group keeps holds in the visible map of a branch and in every state a rollback
can return to (`Working`).
-/

namespace GolemDb.Branch

open GolemDb.Lib GolemDb.Storage GolemDb.Cells

namespace CellOperation

variable {ε α β : Type}

/-- **A group as a program over the visible cells.** -/
def runOn : CellOperation ε α → Prog (Fault ε) CellMap α
  | done (.ok a), m => (.ok a, m)
  | done (.error e), m => (.error (.error e), m)
  | panic, m => (.error .panic, m)
  | get key next, m => runOn (next (.ok (m.get? key))) m
  | scan pfx next, m => runOn (next (.ok ((m.entries.filter fun e => pfx.isPrefixOf e.1.encode).map .ok))) m
  | set key value next, m => runOn next (m.set key value)

lemma runOn_bind (op : CellOperation ε α) (f : α → CellOperation ε β) :
    (op >>= f).runOn = op.runOn >>= fun a => (f a).runOn := by
  show (op.bind f).runOn = _
  funext m
  show _ = Prog.exec (op.runOn >>= fun a => (f a).runOn) m
  rw [Prog.exec_bind]
  induction op generalizing m with
  | done r => cases r <;> rfl
  | panic => rfl
  | get key next ih => exact ih _ m
  | scan pfx next ih => exact ih _ m
  | set key value next ih => exact ih (m.set key value)

/-- A snapshot runs a group as the map of its cells does. -/
lemma runRef_runOn (op : CellOperation ε α) : ∀ (s : Snapshot) (w : Bool),
    (op.runRef (s, w)).1 = (op.runOn s.cells).1 ∧ (op.runRef (s, w)).2.1.cells = (op.runOn s.cells).2 := by
  induction op with
  | done r => exact fun s w => by cases r <;> exact ⟨rfl, rfl⟩
  | panic => exact fun s w => ⟨rfl, rfl⟩
  | get key next ih => exact fun s w => ih _ s w
  | scan pfx next ih => exact fun s w => ih _ s w
  | set key value next ih => exact fun s w => ih (s.set key value) true

end CellOperation

section Working

variable {ρ : Type} [ReadTransaction ρ] [LawfulCursor ρ] {origin : ρ} {ε α : Type} {base : CellMap}

/-- **A group on an overlay is the group on the visible cells.** -/
theorem run_runOn (hbase : rows origin CELL = cellRows base) (op : CellOperation ε α) (o : CellOverlay) :
    (op.run origin o).1 = (op.runOn (base.overlay o.entries)).1 ∧
      base.overlay (op.run origin o).2.entries = (op.runOn (base.overlay o.entries)).2 := by
  obtain ⟨w, href, -⟩ := run_runRef hbase op o false
  have hon := op.runRef_runOn (snap base o.entries) false
  rw [href] at hon
  exact hon

lemma write_result (hbase : rows origin CELL = cellRows base) (op : CellOperation ε α) (o : CellOverlay) :
    (o.write origin op).1 = (op.runOn (base.overlay o.entries)).1 := by
  rw [← (run_runOn hbase op o).1]
  unfold CellOverlay.write
  rcases op.run origin o with ⟨r | a, o'⟩ <;> rfl

/-- The property holds in the visible map and in every state a rollback can return to. -/
def Working (I : CellMap → Prop) (base : CellMap) (o : CellOverlay) : Prop :=
  ∃ m : Machine, Refines base o m ∧ I m.current.cells ∧ ∀ s ∈ m.stack, I s.cells

namespace Working

variable {I : CellMap → Prop} {o : CellOverlay}

lemma visible (h : Working I base o) : I (base.overlay o.entries) := by
  obtain ⟨m, hr, hc, -⟩ := h
  rwa [hr.current] at hc

lemma new (h : I base) : Working I base CellOverlay.new :=
  ⟨Machine.new base, refines_new base, h, by simpa [Machine.new] using h⟩

lemma checkpoint (h : Working I base o) : Working I base o.checkpoint := by
  obtain ⟨m, hr, hc, hs⟩ := h
  refine ⟨m.checkpoint, hr.checkpoint, hc, fun s hm => ?_⟩
  rcases List.mem_cons.mp hm with rfl | hm
  · exact hc
  · exact hs s hm

lemma rollback (h : Working I base o) : Working I base o.rollback.2 := by
  obtain ⟨m, hr, hc, hs⟩ := h
  refine ⟨m.rollback.2, hr.rollback.2, ?_⟩
  unfold Machine.rollback
  cases hm : m.stack with
  | nil => exact ⟨hc, by simp [hm]⟩
  | cons s stack =>
    rw [hm] at hs
    exact ⟨hs s (List.mem_cons_self ..), fun x hx => hs x (List.mem_cons_of_mem _ hx)⟩

/-- **A group that keeps the property where it succeeds keeps it in the branch.** -/
lemma write (hbase : rows origin CELL = cellRows base) {op : CellOperation ε α}
    (hop : ∀ m a m', I m → Prog.Runs op.runOn m a m' → I m') (h : Working I base o) :
    Working I base (o.write origin op).2 := by
  obtain ⟨m, hr, hc, hs⟩ := h
  refine ⟨(m.write op).2, (hr.write hbase op).2, ?_⟩
  have hon := op.runRef_runOn m.current false
  unfold Machine.write
  rcases hx : op.runRef (m.current, false) with ⟨r, s, w⟩
  rw [hx] at hon
  obtain ⟨hres, hcells⟩ := hon
  match r, w with
  | .error fault, w => exact ⟨hc, hs⟩
  | .ok a, false => exact ⟨hc, hs⟩
  | .ok a, true =>
    refine ⟨hop m.current.cells a s.cells hc (Prod.ext hres.symm hcells.symm), fun x hm => ?_⟩
    simp only [Machine.reopened] at hm
    split_ifs at hm
    · exact hs x hm
    · rcases List.mem_cons.mp hm with rfl | hm
      · exact hc
      · exact hs x hm

end Working

end Working

end GolemDb.Branch
