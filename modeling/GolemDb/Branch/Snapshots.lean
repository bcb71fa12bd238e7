import GolemDb.Branch.Visible
import GolemDb.Storage.Memory

/-!
The undo journal against full snapshots. The reference machine keeps the complete current state,
a stack of complete snapshots and whether a frame is open: a rollback pops and restores, and a
write or a checkpoint after a rollback opens a frame at the restored state. The journal keeps
inverse entries and markers instead; `Refines` says which snapshots its markers stand for, each
operation keeps it, and so every run gives the same answers and the same states
(`runAll_refines`).
-/

namespace GolemDb.Branch

open GolemDb.Lib GolemDb.Storage GolemDb.Cells

/-! ### The reference machine -/

/-- A complete state: the staged entries and the cells that show. -/
structure Snapshot where
  entries : Entries
  cells : CellMap
deriving DecidableEq

def Snapshot.set (s : Snapshot) (key : CellKey) (value : Option CellValue) : Snapshot :=
  ⟨s.entries.insert key value, s.cells.set key value⟩

/-- Run a callback on a snapshot, and note whether it wrote. -/
def CellOperation.runRef {ε α : Type} : CellOperation ε α → Snapshot × Bool →
    Except (Fault ε) α × (Snapshot × Bool)
  | .done (.ok a), s => (.ok a, s)
  | .done (.error e), s => (.error (.error e), s)
  | .panic, s => (.error .panic, s)
  | .get key next, s => runRef (next (.ok (s.1.cells.get? key))) s
  | .scan pfx next, s =>
    runRef (next (.ok ((s.1.cells.entries.filter fun e => pfx.isPrefixOf e.1.encode).map .ok))) s
  | .set key value next, s => runRef next (s.1.set key value, true)

structure Machine where
  current : Snapshot
  stack : List Snapshot
  isOpen : Bool
deriving DecidableEq

namespace Machine

/-- One frame is open over the origin's cells. -/
def new (base : CellMap) : Machine := ⟨⟨OrdMap.empty, base⟩, [⟨OrdMap.empty, base⟩], true⟩

/-- A frame at the current state, unless one is open. -/
def reopened (m : Machine) : List Snapshot := if m.isOpen then m.stack else m.current :: m.stack

/-- A group that fails changes nothing; one that only reads leaves the frames alone. -/
def write {ε α : Type} (m : Machine) (operation : CellOperation ε α) :
    Except (Fault ε) α × Machine :=
  match operation.runRef (m.current, false) with
  | (.ok a, s, true) => (.ok a, ⟨s, m.reopened, true⟩)
  | (.ok a, _, false) => (.ok a, m)
  | (.error fault, _) => (.error fault, m)

def checkpoint (m : Machine) : Machine := ⟨m.current, m.current :: m.stack, true⟩

def rollback (m : Machine) : Except BranchError Unit × Machine :=
  match m.stack with
  | s :: stack => (.ok (), ⟨s, stack, false⟩)
  | [] => (.error .noFrameToRollback, m)

end Machine

/-! ### Operations and runs -/

inductive OverlayOp (ε α : Type) where
  | write (operation : CellOperation ε α)
  | checkpoint
  | rollback

inductive OpResult (ε α : Type) where
  | wrote (result : Except (Fault ε) α)
  | checkpointed
  | rolledBack (result : Except BranchError Unit)

section Runs

variable {ε α : Type}

def CellOverlay.step {ρ : Type} [ReadTransaction ρ] (origin : ρ) (o : CellOverlay) :
    OverlayOp ε α → OpResult ε α × CellOverlay
  | .write operation => ((.wrote (o.write origin operation).1), (o.write origin operation).2)
  | .checkpoint => (.checkpointed, o.checkpoint)
  | .rollback => (.rolledBack o.rollback.1, o.rollback.2)

def Machine.step (m : Machine) : OverlayOp ε α → OpResult ε α × Machine
  | .write operation => ((.wrote (m.write operation).1), (m.write operation).2)
  | .checkpoint => (.checkpointed, m.checkpoint)
  | .rollback => (.rolledBack m.rollback.1, m.rollback.2)

/-- The results of a sequence of operations, and the overlay after it. -/
def CellOverlay.runAll {ρ : Type} [ReadTransaction ρ] (origin : ρ) (o : CellOverlay) :
    List (OverlayOp ε α) → List (OpResult ε α) × CellOverlay
  | [] => ([], o)
  | op :: ops =>
    let (r, o') := o.step origin op
    let (rs, o'') := runAll origin o' ops
    (r :: rs, o'')

def Machine.runAll (m : Machine) : List (OverlayOp ε α) → List (OpResult ε α) × Machine
  | [] => ([], m)
  | op :: ops =>
    let (r, m') := m.step op
    let (rs, m'') := runAll m' ops
    (r :: rs, m'')

end Runs

/-! ### Undoing -/

lemma undoTo_of_le {mark : ℕ} {undo : List UndoEntry} {entries : Entries} (h : undo.length ≤ mark) :
    undoTo mark undo entries = (undo, entries) := by
  cases undo with
  | nil => rfl
  | cons u undo => rw [undoTo, if_neg (by simpa using h)]

/-- What is left of the journal is its oldest `mark` entries. -/
lemma undoTo_fst (mark : ℕ) (undo : List UndoEntry) (entries : Entries) :
    (undoTo mark undo entries).1 = undo.drop (undo.length - mark) := by
  induction undo generalizing entries with
  | nil => rw [undoTo, List.drop_nil]
  | cons u undo ih =>
    rw [undoTo]
    split_ifs with h
    · rw [ih, List.length_cons, Nat.succ_sub (by omega), List.drop_succ_cons]
    · rw [Nat.sub_eq_zero_of_le (by simpa using h), List.drop_zero]

/-- Undoing to a mark and then further is undoing further. -/
lemma undoTo_undoTo {mark mark' : ℕ} (h : mark ≤ mark') (undo : List UndoEntry) (entries : Entries) :
    undoTo mark (undoTo mark' undo entries).1 (undoTo mark' undo entries).2 = undoTo mark undo entries := by
  induction undo generalizing entries with
  | nil => rfl
  | cons u undo ih =>
    rw [undoTo.eq_def mark' (u :: undo)]
    simp only
    split_ifs with h'
    · rw [ih, undoTo.eq_def mark (u :: undo)]
      simp only
      rw [if_pos (by omega)]
    · rfl

/-- The journal's entries and the undo list that a write leaves undo to what they did before. -/
lemma record_undoTo (j : Journal) (entries : Entries) (key : CellKey) (value : Option CellValue)
    {mark : ℕ} (h : mark ≤ j.undo.length) :
    undoTo mark (j.record entries key value).1.undo (j.record entries key value).2
      = undoTo mark j.undo entries := by
  unfold Journal.record
  split_ifs with hk
  · rfl
  · rw [undoTo, if_pos (by omega), UndoEntry.restore]
    congr 1
    refine OrdMap.ext_get fun k => ?_
    by_cases hkk : k = key <;> simp [hkk]

lemma record_undo_length (j : Journal) (entries : Entries) (key : CellKey) (value : Option CellValue) :
    j.undo.length ≤ (j.record entries key value).1.undo.length := by
  unfold Journal.record
  split_ifs <;> simp

/-! ### Groups -/

section Groups

variable {ρ : Type} [ReadTransaction ρ] {origin : ρ} {ε α : Type}

/-- The overlay `o'` continues `o`: the same frames, at least as many inverse entries, and
undoing them gives back `o`'s. -/
structure Continues (o o' : CellOverlay) : Prop where
  frames : o'.journal.frames = o.journal.frames
  length : o.journal.undo.length ≤ o'.journal.undo.length
  undo : ∀ mark ≤ o.journal.undo.length,
    undoTo mark o'.journal.undo o'.entries = undoTo mark o.journal.undo o.entries

lemma Continues.refl (o : CellOverlay) : Continues o o := ⟨rfl, le_rfl, fun _ _ => rfl⟩

lemma Continues.trans {a b c : CellOverlay} (h : Continues a b) (h' : Continues b c) : Continues a c :=
  ⟨h'.frames.trans h.frames, le_trans h.length h'.length, fun mark hm =>
    (h'.undo mark (le_trans hm h.length)).trans (h.undo mark hm)⟩

lemma continues_set (o : CellOverlay) (key : CellKey) (value : Option CellValue) :
    Continues o (o.set key value) := by
  refine ⟨?_, record_undo_length _ _ _ _, fun mark hm => record_undoTo _ _ _ _ hm⟩
  show (o.journal.record o.entries key value).1.frames = _
  unfold Journal.record
  split_ifs <;> rfl

lemma continues_run (operation : CellOperation ε α) (o : CellOverlay) :
    Continues o (operation.run origin o).2 := by
  induction operation generalizing o with
  | done r => cases r <;> exact Continues.refl o
  | panic => exact Continues.refl o
  | get key next ih => exact ih _ o
  | scan pfx next ih => exact ih _ o
  | set key value next ih => exact (continues_set o key value).trans (ih _)

/-- Rewinding to the mark of an overlay gives the overlay back, whatever was written since. -/
lemma Continues.rewind {o o' : CellOverlay} (h : Continues o o') : o'.rewind o.journal.mark = o := by
  have hundo := h.undo o.journal.undo.length le_rfl
  rw [undoTo_of_le le_rfl] at hundo
  unfold CellOverlay.rewind Journal.rewind Journal.mark
  simp only [hundo]
  cases o
  rename_i entries j
  cases j
  simp only [CellOverlay.mk.injEq, Journal.mk.injEq, true_and, and_true]
  exact h.frames

/-- **A group that fails restores the overlay exactly**: entries, version, frames and status. -/
theorem write_error {o : CellOverlay} {operation : CellOperation ε α} {fault : Fault ε}
    (h : (o.write origin operation).1 = .error fault) : (o.write origin operation).2 = o := by
  have hc := (continues_run operation o : Continues o (operation.run origin o).2)
  unfold CellOverlay.write at h ⊢
  rcases hr : operation.run origin o with ⟨r, o'⟩
  rw [hr] at h hc
  cases r with
  | ok a => cases h
  | error f => exact hc.rewind

/-- A group that succeeds leaves what it ran to. -/
lemma write_ok {o : CellOverlay} {operation : CellOperation ε α} {a : α}
    (h : (o.write origin operation).1 = .ok a) :
    operation.run origin o = (.ok a, (o.write origin operation).2) := by
  unfold CellOverlay.write at h ⊢
  rcases hr : operation.run origin o with ⟨r, o'⟩
  rw [hr] at h
  cases r with
  | ok b => cases h; rfl
  | error f => cases h

end Groups

/-! ### The simulation -/

/-- The complete state of staged entries over the origin's cells. -/
def snap (base : CellMap) (entries : Entries) : Snapshot := ⟨entries, base.overlay entries⟩

lemma snap_set (base : CellMap) (entries : Entries) (key : CellKey) (value : Option CellValue) :
    (snap base entries).set key value = snap base (entries.insert key value) := by
  rw [snap, Snapshot.set, snap, OrdMap.overlay_insert]

/-- The markers a rollback can still return to. -/
def Journal.live (j : Journal) : List ℕ := if j.rolledBack then j.frames.tail else j.frames

/-- **The journal stands for the machine**: undoing to a live marker gives its snapshot. -/
structure Refines (base : CellMap) (o : CellOverlay) (m : Machine) : Prop where
  current : m.current = snap base o.entries
  stack : m.stack = o.journal.live.map fun f => snap base (undoTo f o.journal.undo o.entries).2
  isOpen : m.isOpen = !o.journal.rolledBack
  sorted : (o.journal.undo.length :: o.journal.frames).Pairwise (· ≥ ·)
  emptied : o.journal.rolledBack = true → o.journal.frames.headD 0 = o.journal.undo.length

lemma refines_new (base : CellMap) : Refines base CellOverlay.new (Machine.new base) :=
  ⟨rfl, rfl, rfl, by decide, fun h => by cases h⟩

section Simulation

variable {ρ : Type} [ReadTransaction ρ] {origin : ρ} {ε α : Type} {base : CellMap}
  {o : CellOverlay} {m : Machine}

/-- With the current state, a live stack is the stack of all markers. -/
lemma Refines.reopened (h : Refines base o m) :
    m.reopened = o.journal.frames.map fun f => snap base (undoTo f o.journal.undo o.entries).2 := by
  unfold Machine.reopened
  rw [h.isOpen, h.stack, h.current, Journal.live]
  cases hr : o.journal.rolledBack with
  | false => simp
  | true =>
    obtain ⟨f, rest, hf⟩ := List.exists_cons_of_ne_nil o.journal.retained
    have hlen := h.emptied hr
    rw [hf, List.headD_cons] at hlen
    simp [hf, hlen, undoTo_of_le]

lemma Refines.marker_le (h : Refines base o m) : ∀ f ∈ o.journal.frames, f ≤ o.journal.undo.length :=
  (List.pairwise_cons.mp h.sorted).1

/-- A write of the overlay is a write of the entries, and closes a rolled-back frame. -/
lemma set_entries (o : CellOverlay) (key : CellKey) (value : Option CellValue) :
    (o.set key value).entries = o.entries.insert key value ∧
      (o.set key value).journal.rolledBack = false := by
  show (o.journal.record o.entries key value).2 = _ ∧ (o.journal.record o.entries key value).1.rolledBack = _
  unfold Journal.record
  split_ifs with hk
  · refine ⟨OrdMap.ext_get fun k => ?_, rfl⟩
    by_cases hkk : k = key <;> simp [hkk, hk]
  · exact ⟨rfl, rfl⟩

/-- A callback reads the same and returns the same on the overlay and on its snapshot. -/
lemma run_runRef [LawfulCursor ρ] (hbase : rows origin CELL = cellRows base)
    (operation : CellOperation ε α) :
    ∀ (o : CellOverlay) (w : Bool), ∃ w',
      operation.runRef (snap base o.entries, w) =
        ((operation.run origin o).1, snap base (operation.run origin o).2.entries, w') ∧
      (w' = w ∧ (operation.run origin o).2 = o ∨
        w' = true ∧ (operation.run origin o).2.journal.rolledBack = false) := by
  induction operation with
  | done r =>
    intro o w
    cases r <;> exact ⟨w, rfl, .inl ⟨rfl, rfl⟩⟩
  | panic => exact fun o w => ⟨w, rfl, .inl ⟨rfl, rfl⟩⟩
  | get key next ih =>
    intro o w
    rw [CellOperation.run, o.get_eq hbase, CellOperation.runRef]
    exact ih _ o w
  | scan pfx next ih =>
    intro o w
    rw [CellOperation.run, o.scanPrefix_eq hbase, CellOperation.runRef]
    exact ih _ o w
  | set key value next ih =>
    intro o w
    obtain ⟨hentries, hrolled⟩ := set_entries o key value
    rw [CellOperation.run, CellOperation.runRef, snap_set, ← hentries]
    obtain ⟨w', hrun, hw⟩ := ih (o.set key value) true
    refine ⟨w', hrun, .inr ?_⟩
    rcases hw with ⟨hw, ho⟩ | hw
    · rw [ho]
      exact ⟨hw, hrolled⟩
    · exact hw

lemma Refines.write [LawfulCursor ρ] (hbase : rows origin CELL = cellRows base)
    (h : Refines base o m) (operation : CellOperation ε α) :
    (o.write origin operation).1 = (m.write operation).1 ∧
      Refines base (o.write origin operation).2 (m.write operation).2 := by
  obtain ⟨w, href, hw⟩ := run_runRef hbase operation o false
  have hcont := (continues_run operation o : Continues o (operation.run origin o).2)
  have hm : m.write operation = match operation.runRef (snap base o.entries, false) with
      | (.ok a, s, true) => (.ok a, ⟨s, m.reopened, true⟩)
      | (.ok a, _, false) => (.ok a, m)
      | (.error fault, _) => (.error fault, m) := by
    rw [Machine.write, h.current]
  rw [hm, href]
  cases hr : (o.write origin operation).1 with
  | error fault =>
    have ho := write_error hr
    have hrun : (operation.run origin o).1 = .error fault := by
      unfold CellOverlay.write at hr
      rcases hx : operation.run origin o with ⟨r, o'⟩
      rw [hx] at hr
      cases r with
      | ok a => cases hr
      | error f => exact hr
    rw [hrun, ho]
    exact ⟨rfl, h⟩
  | ok a =>
    have hrun := write_ok hr
    rw [hrun] at hw hcont ⊢
    generalize (o.write origin operation).2 = o' at hw hcont ⊢
    rcases hw with ⟨rfl, rfl⟩ | ⟨rfl, hrolled⟩
    · exact ⟨rfl, h⟩
    · refine ⟨rfl, rfl, ?_, by simp [hrolled], ?_, fun hr' => by rw [hrolled] at hr'; cases hr'⟩
      · show m.reopened = _
        rw [h.reopened, Journal.live, hrolled, hcont.frames]
        refine List.map_congr_left fun f hf => ?_
        rw [hcont.undo f (h.marker_le f hf)]
      · rw [hcont.frames, List.pairwise_cons]
        exact ⟨fun f hf => le_trans (h.marker_le f hf) hcont.length, (List.pairwise_cons.mp h.sorted).2⟩

lemma Refines.checkpoint (h : Refines base o m) : Refines base o.checkpoint m.checkpoint := by
  have hre := h.reopened
  unfold Machine.reopened at hre
  rw [h.isOpen] at hre
  unfold CellOverlay.checkpoint Journal.checkpoint Machine.checkpoint
  cases hr : o.journal.rolledBack with
  | true =>
    refine ⟨h.current, ?_, rfl, h.sorted, fun h => by cases h⟩
    simpa [hr, Journal.live] using hre
  | false =>
    refine ⟨h.current, ?_, rfl, ?_, fun h => by cases h⟩
    · simpa [hr, Journal.live, undoTo_of_le, h.current] using hre
    · exact List.pairwise_cons.mpr ⟨fun f hf => by
        rcases List.mem_cons.mp hf with rfl | hf
        · exact le_rfl
        · exact h.marker_le f hf, h.sorted⟩

/-- Undoing to the marker of the current frame. -/
lemma refines_undoFrame {j : Journal} {entries : Entries} {f : ℕ} {rest : List ℕ}
    (hj : j.frames = f :: rest) (hsorted : (j.undo.length :: j.frames).Pairwise (· ≥ ·)) :
    Refines base ⟨(j.undoFrame entries).2, (j.undoFrame entries).1⟩
      ⟨snap base (undoTo f j.undo entries).2,
        rest.map fun g => snap base (undoTo g j.undo entries).2, false⟩ := by
  rw [hj, List.pairwise_cons, List.pairwise_cons] at hsorted
  obtain ⟨hlen, hrest, hs⟩ := hsorted
  have hf : f ≤ j.undo.length := hlen f (List.mem_cons_self ..)
  have hundo : (undoTo f j.undo entries).1.length = f := by
    rw [undoTo_fst, List.length_drop]
    omega
  unfold Journal.undoFrame
  simp only [hj, List.headD_cons]
  refine ⟨rfl, ?_, rfl, ?_, fun _ => ?_⟩
  · simp only [Journal.live, if_true, List.tail_cons]
    exact List.map_congr_left fun g hg => by rw [undoTo_undoTo (hrest g hg)]
  · simp only [hundo]
    exact List.pairwise_cons.mpr ⟨fun g hg => by
      rcases List.mem_cons.mp hg with rfl | hg
      · exact le_rfl
      · exact hrest g hg, List.pairwise_cons.mpr ⟨hrest, hs⟩⟩
  · simp only [List.headD_cons, hundo]

lemma rollback_open {j : Journal} (hr : j.rolledBack = false) (entries : Entries) :
    j.rollback entries = .ok (j.undoFrame entries) := by
  rw [Journal.rollback, hr]
  rfl

lemma rollback_last {j : Journal} {f : ℕ} (hr : j.rolledBack = true) (hf : j.frames = [f])
    (entries : Entries) : j.rollback entries = .error .noFrameToRollback := by
  cases j
  subst hr hf
  rfl

lemma rollback_next {j : Journal} {f g : ℕ} {rest : List ℕ} (hr : j.rolledBack = true)
    (hf : j.frames = f :: g :: rest) (entries : Entries) :
    j.rollback entries = .ok (Journal.undoFrame ⟨j.undo, g :: rest, true, by simp⟩ entries) := by
  cases j
  subst hr hf
  rfl

lemma Refines.rollback (h : Refines base o m) :
    o.rollback.1 = m.rollback.1 ∧ Refines base o.rollback.2 m.rollback.2 := by
  obtain ⟨f, rest, hf⟩ := List.exists_cons_of_ne_nil o.journal.retained
  have hstack := h.stack
  have hsorted := h.sorted
  unfold CellOverlay.rollback Machine.rollback
  unfold Journal.live at hstack
  cases hr : o.journal.rolledBack with
  | false =>
    rw [hr, hf] at hstack
    rw [rollback_open hr, hstack]
    exact ⟨rfl, refines_undoFrame hf hsorted⟩
  | true =>
    rw [hr, hf] at hstack
    cases rest with
    | nil =>
      rw [rollback_last hr hf, hstack]
      exact ⟨rfl, h⟩
    | cons g rest =>
      rw [rollback_next hr hf, hstack]
      refine ⟨rfl, refines_undoFrame rfl ?_⟩
      rw [hf] at hsorted
      exact hsorted.sublist (List.cons_sublist_cons.mpr (List.sublist_cons_self ..))

lemma Refines.step [LawfulCursor ρ] (hbase : rows origin CELL = cellRows base) (h : Refines base o m)
    (op : OverlayOp ε α) :
    (o.step origin op).1 = (m.step op).1 ∧ Refines base (o.step origin op).2 (m.step op).2 := by
  cases op with
  | write operation =>
    obtain ⟨hr, hs⟩ := h.write hbase operation
    exact ⟨congrArg OpResult.wrote hr, hs⟩
  | checkpoint => exact ⟨rfl, h.checkpoint⟩
  | rollback =>
    obtain ⟨hr, hs⟩ := h.rollback
    exact ⟨congrArg OpResult.rolledBack hr, hs⟩

/-- A run keeps the simulation and gives the same results. -/
lemma Refines.runAll [LawfulCursor ρ] (hbase : rows origin CELL = cellRows base) :
    ∀ (ops : List (OverlayOp ε α)) (o : CellOverlay) (m : Machine), Refines base o m →
      (o.runAll origin ops).1 = (m.runAll ops).1 ∧
        Refines base (o.runAll origin ops).2 (m.runAll ops).2 := by
  intro ops
  induction ops with
  | nil => exact fun o m h => ⟨rfl, h⟩
  | cons op ops ih =>
    intro o m h
    obtain ⟨hr, hs⟩ := h.step hbase op
    obtain ⟨hrs, hs'⟩ := ih _ _ hs
    exact ⟨congrArg₂ List.cons hr hrs, hs'⟩

end Simulation

/-- **The undo journal refines a stack of full snapshots.** Over every origin map and every
sequence of groups, checkpoints and rollbacks, the overlay answers as the reference machine and
shows its state: the entries, every cell and every scan. A group that fails leaves the overlay
exactly as it was. -/
theorem runAll_refines {ρ ε α : Type} [ReadTransaction ρ] [LawfulCursor ρ] (origin : ρ)
    (base : CellMap) (hbase : rows origin CELL = cellRows base) (ops : List (OverlayOp ε α)) :
    (CellOverlay.new.runAll origin ops).1 = ((Machine.new base).runAll ops).1 ∧
    (CellOverlay.new.runAll origin ops).2.entries = ((Machine.new base).runAll ops).2.current.entries ∧
    (∀ key, (CellOverlay.new.runAll origin ops).2.get origin key
      = .ok (((Machine.new base).runAll ops).2.current.cells.get? key)) ∧
    (∀ pfx, (CellOverlay.new.runAll origin ops).2.scanPrefix origin pfx
      = .ok ((((Machine.new base).runAll ops).2.current.cells.entries.filter fun e =>
          pfx.isPrefixOf e.1.encode).map .ok)) ∧
    ∀ (operation : CellOperation ε α) (fault : Fault ε),
      ((CellOverlay.new.runAll origin ops).2.write origin operation).1 = .error fault →
      ((CellOverlay.new.runAll origin ops).2.write origin operation).2
        = (CellOverlay.new.runAll origin ops).2 := by
  obtain ⟨hr, hs⟩ := Refines.runAll hbase ops CellOverlay.new (Machine.new base) (refines_new base)
  refine ⟨hr, by rw [hs.current]; rfl, fun key => ?_, fun pfx => ?_, fun operation fault => write_error⟩
  · rw [CellOverlay.get_eq hbase, hs.current]
    rfl
  · rw [CellOverlay.scanPrefix_eq hbase, hs.current]
    rfl

def demoCell : CellKey := ⟨64, ascii "a"⟩

def demoCells : CellMap := OrdMap.empty.insert demoCell (.fromU64 1)

/-- A store with one cell. -/
def demoOrigin : MemoryReadTransaction := ⟨OrdMap.empty.insert CELL (cellRows demoCells)⟩

lemma rows_demoOrigin : rows demoOrigin CELL = cellRows demoCells := by
  show (State.rowsOf (OrdMap.empty.insert CELL (cellRows demoCells)) CELL) = _
  simp [State.rowsOf]

/-- A group, a frame with a group in it that panics, and three rollbacks over two frames. -/
def demoOps : List (OverlayOp Unit Unit) :=
  [.write (.set demoCell none (.done (.ok ()))), .checkpoint,
    .write (.set demoCell (some (.fromU64 2)) .panic), .rollback, .rollback, .rollback]

theorem runAll_refines_demo :
    rows demoOrigin CELL = cellRows demoCells ∧
      (CellOverlay.new.runAll demoOrigin demoOps).1 =
        [.wrote (.ok ()), .checkpointed, .wrote (.error .panic), .rolledBack (.ok ()), .rolledBack (.ok ()),
          .rolledBack (.error .noFrameToRollback)] :=
  ⟨rows_demoOrigin, (runAll_refines demoOrigin demoCells rows_demoOrigin demoOps).1.trans rfl⟩

end GolemDb.Branch
