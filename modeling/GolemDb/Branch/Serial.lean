import GolemDb.Branch.Handles
import GolemDb.Branch.Retry

/-!
Commits under concurrent calls are serializable. A seal of a branch that began at the head is
computed over the tables that are held, and a call that has checked the head inside the writer has
the writer to itself, so what it publishes is its own seal over the tables it was computed from
(`World.Fits`). Every other step keeps the tables, and the publications of a run are those of a serial
execution, each over the head that the one before it left (`run_serializable`).
-/

namespace GolemDb.Branch

open GolemDb.Lib GolemDb.Storage GolemDb.Merkle GolemDb.Cells GolemDb.Index

/-! ### Serial executions -/

/-- A publication: who published, over which head and which staged cells, and the head it left. -/
structure Publication where
  call : CallId
  branch : BranchId
  head : Head
  overlay : CellOverlay
  next : Head

/-- **What a publication does to the tables**: the number of the head is raised by one, the Cell table is
overlaid with the branch's cells and the roots of the head, and only the tables of a seal and the
head change. -/
structure Publication.Publishes (p : Publication) (r r' : Table → Rows) : Prop where
  head : HeadIs r p.head
  next : HeadIs r' p.next
  succ : checkedSucc p.head.commitId = some p.next.commitId
  cells : r' CELL = (r CELL).overlay (stagedCells (sealedEntries p.overlay p.head))
  frame : ∀ t ∉ sealTables, t ≠ SUPERBLOCK → r' t = r t
  head_only : ∀ k, k ≠ HEAD_KEY → (r' SUPERBLOCK).get? k = (r SUPERBLOCK).get? k

/-- Publications one after another. -/
inductive Serial : (Table → Rows) → List Publication → (Table → Rows) → Prop
  | nil (r : Table → Rows) : Serial r [] r
  | cons {r r₁ r' : Table → Rows} {p : Publication} {ps : List Publication} (hp : p.Publishes r r₁)
      (hps : Serial r₁ ps r') : Serial r (p :: ps) r'

lemma Serial.append {r r₁ r' : Table → Rows} {ps qs : List Publication} (h : Serial r ps r₁) (h' : Serial r₁ qs r') :
    Serial r (ps ++ qs) r' := by
  induction h with
  | nil => exact h'
  | cons hp _ ih => exact .cons hp (ih h')

/-- The heads of a serial execution go up. -/
lemma Serial.head_le {r r' : Table → Rows} {ps : List Publication} (h : Serial r ps r') {head : Head}
    (hh : HeadIs r head) : ∀ p ∈ ps, head.commitId ≤ p.head.commitId := by
  induction h generalizing head with
  | nil => exact nofun
  | cons hp _ ih =>
    obtain rfl := hh.unique hp.head
    intro q hq
    rcases List.mem_cons.mp hq with rfl | hq
    · exact le_rfl
    · exact (checkedSucc_lt hp.succ).1.le.trans (ih hp.next q hq)

/-- **No head is published over twice.** -/
lemma Serial.nodup {r r' : Table → Rows} {ps : List Publication} (h : Serial r ps r') :
    (ps.map fun p => p.head.commitId).Nodup := by
  induction h with
  | nil => exact List.nodup_nil
  | cons hp hps ih =>
    refine List.nodup_cons.mpr ⟨fun hin => ?_, ih⟩
    obtain ⟨q, hq, he⟩ := List.mem_map.mp hin
    exact absurd (hps.head_le hp.next q hq) (not_le.mpr (he ▸ (checkedSucc_lt hp.succ).1))

/-- What is shown of a publication. -/
def Publication.shown (p : Publication) : Emission := .published p.call p.branch p.head.commitId p.next.commitId

def Emission.isPublication : Emission → Bool
  | .published _ _ _ _ => true
  | _ => false

/-- The publications among what is shown. -/
def published (es : List Emission) : List Emission := es.filter Emission.isPublication

lemma published_append (es es' : List Emission) : published (es ++ es') = published es ++ published es' :=
  List.filter_append ..

/-! ### The invariant -/

namespace Pc

variable {σ : Type} [Store σ]

/-- The call has the store's writer. -/
def writes : Pc σ → Bool
  | .writing _ _ _ _ _ => true
  | .checked _ _ _ _ _ => true
  | .replayed _ _ _ _ _ => true
  | .headed _ _ _ _ _ => true
  | _ => false

/-- The head at which the call begins a branch. -/
def began : Pc σ → Option CommitId
  | .allocating _ n => some n
  | .inserting _ _ n => some n
  | _ => none

/-- The commit that the call is about to return. -/
def told : Pc σ → Option (BranchId × CommitId)
  | .removing _ b (.committed n) => some (b, n)
  | .dropping _ b (.committed n) => some (b, n)
  | _ => none

/-- **Where the call stands fits the tables and its branch**: its snapshot is that of the tables while
the head is the branch's, and its writer shows the tables and what it has written over them. -/
def Fits [FallibleStore σ] (r : Table → Rows) (head : Head) (st : BranchState) : Pc σ → Prop
  | .ready _ _ _ origin => st.commitId = head.commitId → shown origin = r
  | .sealed _ _ origin s => origin = st.commitId ∧ st.sealed = some s
  | .writing _ _ origin s tx => origin = st.commitId ∧ st.sealed = some s ∧ shown tx = r
  | .checked _ _ origin s tx => origin = st.commitId ∧ st.sealed = some s ∧ head.commitId = st.commitId ∧ shown tx = r
  | .replayed _ _ origin s tx => origin = st.commitId ∧ st.sealed = some s ∧ head.commitId = st.commitId ∧
      ∀ t, shown tx t = (r t).overlay (s.writes.rowsOf t)
  | .headed _ _ origin s tx => origin = st.commitId ∧ st.sealed = some s ∧ head.commitId = st.commitId ∧
      shown tx = publishedRows r s
  | _ => True

end Pc

section Fits

variable (H : HashProvider) (R : Roaring) (σ : Type) [Store σ] [FallibleStore σ]

/-- **A branch fits the tables**: it did not begin after the head, and while the head is its own it is
sealed over them. -/
structure BranchState.Fits (r : Table → Rows) (head : Head) (st : BranchState) : Prop where
  behind : st.commitId ≤ head.commitId
  sealed : ∀ s, st.sealed = some s → st.commitId = head.commitId →
    ∃ origin : Store.Read σ, shown origin = r ∧ compute H R origin st.overlay = .ok s

variable {σ}

/-- **The invariant of commits.** -/
structure World.Fits (w : World σ) (head : Head) : Prop where
  head_is : HeadIs (held w.store) head
  began : ∀ c n, (w.calls c).began = some n → n ≤ head.commitId
  branch : ∀ b st holder, w.entries b = some ⟨some st, holder⟩ → st.Fits H R σ (held w.store) head
  call : ∀ c b st, (w.calls c).live = some b → w.entries b = some ⟨some st, some c⟩ →
    (w.calls c).Fits (held w.store) head st
  writer : ∀ c, (w.calls c).writes = true → w.writer = some c

end Fits

/-! ### One step -/

section Step

variable {H : HashProvider} {R : Roaring} {σ : Type} [Store σ] {w w' : World σ} {c : CallId} {b : BranchId}
  {st : BranchState} {head : Head} {es : List Emission} {l : Label}

lemma Pc.began_of_live {pc : Pc σ} (h : pc.live = some b) : pc.began = none := by
  cases pc <;> first | rfl | cases h

lemma Pc.told_of_live {pc : Pc σ} (h : pc.live = some b) : pc.told = none := by
  cases pc <;> first | rfl | cases h

/-- A branch keeps its own number. -/
lemma same_commitId {holder : Option CallId} (he : w.entries b = some ⟨some st, holder⟩) {st' : BranchState}
    (hst' : st'.commitId = st.commitId) :
    ∀ st₀ holder₀, w.entries b = some ⟨some st₀, holder₀⟩ → st'.commitId = st₀.commitId := by
  intro st₀ holder₀ hst₀
  rw [he] at hst₀
  obtain ⟨hst₀, -⟩ := Slot.mk.inj (Option.some.inj hst₀)
  rw [hst', Option.some.inj hst₀]

variable [FallibleStore σ]

/-- **What a step does to the tables**: it keeps them and one call and one entry go on, or it publishes the
seal of a branch that began at the head. -/
inductive Moved (H : HashProvider) (R : Roaring) (w : World σ) (head : Head) : World σ → List Emission → Prop
  | keeps (w' : World σ) (c : CallId) (b : BranchId) (slot : Option Slot) (pc : Pc σ) (es : List Emission)
      (hstore : held w'.store = held w.store)
      (hentries : w'.entries = Function.update w.entries b slot) (hcalls : w'.calls = Function.update w.calls c pc)
      (hslot : ∀ st holder, slot = some ⟨some st, holder⟩ → st.Fits H R σ (held w.store) head ∧
        ∀ st₀ holder₀, w.entries b = some ⟨some st₀, holder₀⟩ → st.commitId = st₀.commitId)
      (hother : ∀ c' st, c' ≠ c → slot = some ⟨some st, some c'⟩ → w.entries b = slot)
      (hpc : ∀ b', pc.live = some b' → b' = b ∧ ∀ st, slot = some ⟨some st, some c⟩ → pc.Fits (held w.store) head st)
      (hbegan : ∀ n, pc.began = some n → n ≤ head.commitId)
      (hwriter : pc.writes = true → w'.writer = some c)
      (hwriters : ∀ c', c' ≠ c → (w.calls c').writes = true → w'.writer = some c')
      (htold : pc.told = none)
      (hreturns : ∀ c' b' n, .returned c' b' (.committed n) ∈ es → (w.calls c').told = some (b', n))
      (hes : published es = []) : Moved H R w head w' es
  | publishes (w' : World σ) (c : CallId) (m : ManagerId) (b : BranchId) (st : BranchState) (s : SealedCommit)
      (hwriter : w.writer = some c)
      (hentry : w.entries b = some ⟨some st, some c⟩) (hsealed : st.sealed = some s)
      (hhead : head.commitId = st.commitId) (hstore : held w'.store = publishedRows (held w.store) s)
      (hentries : w'.entries = Function.update w.entries b (some ⟨none, some c⟩))
      (hcalls : w'.calls = Function.update w.calls c (.removing m b (.committed s.commitId))) :
      Moved H R w head w' [.published c b st.commitId s.commitId]

/-- A call goes on with its branch, and takes the writer only when it is free. -/
lemma World.Fits.stays (h : w.Fits H R head) {holder₀ : Option CallId} (he : w.entries b = some ⟨some st, holder₀⟩)
    {st' : BranchState} {pc : Pc σ}
    (hstore : w'.store = w.store) (hentries : w'.entries = Function.update w.entries b (some ⟨some st', some c⟩))
    (hcalls : w'.calls = Function.update w.calls c pc) (hlive : pc.live = some b) (hcommit : st'.commitId = st.commitId)
    (hst' : st'.Fits H R σ (held w.store) head) (hpc : pc.Fits (held w.store) head st')
    (hwriter : w'.writer = w.writer ∧ pc.writes = (w.calls c).writes ∨ w.writer = none ∧ w'.writer = some c)
    (hes : published es = []) (hreturns : ∀ c' b' n, .returned c' b' (.committed n) ∉ es) : Moved H R w head w' es := by
  refine .keeps w' c b (some ⟨some st', some c⟩) pc es (by rw [hstore]) hentries hcalls (fun st₁ holder hst₁ => ?_)
    (fun c' st₁ hne hst₁ => ?_) (fun b' hb' => ?_) (fun n hn => ?_) (fun hw => ?_) (fun c' _ hw => ?_)
    (Pc.told_of_live hlive) (fun c' b' n hin => absurd hin (hreturns c' b' n)) hes
  · obtain ⟨hst₁, -⟩ := Slot.mk.inj (Option.some.inj hst₁)
    obtain rfl := Option.some.inj hst₁
    exact ⟨hst', same_commitId he hcommit⟩
  · obtain ⟨-, hc⟩ := Slot.mk.inj (Option.some.inj hst₁)
    exact absurd (Option.some.inj hc).symm hne
  · refine ⟨Option.some.inj (hb'.symm.trans hlive), fun st₁ hst₁ => ?_⟩
    obtain ⟨hst₁, -⟩ := Slot.mk.inj (Option.some.inj hst₁)
    rwa [← Option.some.inj hst₁]
  · rw [Pc.began_of_live hlive] at hn
    cases hn
  · rcases hwriter with ⟨hwriter, hsame⟩ | ⟨-, hwriter⟩
    · rw [hwriter, h.writer c (hsame ▸ hw)]
    · exact hwriter
  · rcases hwriter with ⟨hwriter, -⟩ | ⟨hfree, -⟩
    · rw [hwriter, h.writer c' hw]
    · rw [h.writer c' hw] at hfree
      cases hfree

/-- A call leaves its branch, and the writer if it has it. -/
lemma World.Fits.leaves (h : w.Fits H R head) (he : w.entries b = some ⟨some st, some c⟩) {slot : Slot} {pc : Pc σ}
    (hstore : held w'.store = held w.store) (hentries : w'.entries = Function.update w.entries b (some slot))
    (hcalls : w'.calls = Function.update w.calls c pc) (hlive : pc.live = none) (hbegan : pc.began = none)
    (htold : pc.told = none) (hholder : ∀ c', slot.holder = some c' → c' = c)
    (hslot : ∀ st', slot.state = some st' → st'.commitId = st.commitId ∧ st'.Fits H R σ (held w.store) head)
    (hwriter : w'.writer = w.writer ∨ w.writer = some c) (hes : published es = [])
    (hreturns : ∀ c' b' n, .returned c' b' (.committed n) ∉ es) : Moved H R w head w' es := by
  have hwrites : pc.writes = false := by
    cases pc <;> first | rfl | cases hlive
  refine .keeps w' c b (some slot) pc es hstore hentries hcalls (fun st' holder hst' => ?_) (fun c' st' hne hst' => ?_)
    (fun b' hb' => ?_) (fun n hn => ?_) (fun hw => ?_) (fun c' hne hw => ?_) htold
    (fun c' b' n hin => absurd hin (hreturns c' b' n)) hes
  · obtain rfl := Option.some.inj hst'
    obtain ⟨hcommit, hfits⟩ := hslot st' rfl
    exact ⟨hfits, same_commitId he hcommit⟩
  · obtain rfl := Option.some.inj hst'
    exact absurd (hholder c' rfl) hne
  · rw [hlive] at hb'
    cases hb'
  · rw [hbegan] at hn
    cases hn
  · rw [hwrites] at hw
    cases hw
  · have hc' := h.writer c' hw
    rcases hwriter with hwriter | hwriter
    · rw [hwriter, hc']
    · rw [hwriter] at hc'
      exact absurd (Option.some.inj hc').symm hne

lemma World.Fits.release (h : w.Fits H R head) (he : w.entries b = some ⟨some st, some c⟩) {st' : BranchState}
    {reply : Reply} (hcommit : st'.commitId = st.commitId) (hst' : st'.Fits H R σ (held w.store) head)
    (hreply : ¬ reply.Final) : Moved H R w head (w.release c b st' reply).1 (w.release c b st' reply).2 := by
  refine h.leaves he rfl rfl rfl rfl rfl rfl nofun (fun st₁ hst₁ => ?_) (.inl rfl) rfl fun c' b' n hin => ?_
  · obtain rfl := Option.some.inj hst₁
    exact ⟨hcommit, hst'⟩
  · obtain ⟨-, -, rfl⟩ := Emission.returned.inj (List.mem_singleton.mp hin)
    exact hreply (.inl ⟨n, rfl⟩)

lemma World.Fits.abandon (h : w.Fits H R head) (he : w.entries b = some ⟨some st, some c⟩) (hw : w.writer = some c)
    {store : σ} (hstore : held store = held w.store) (m : ManagerId) (e : BranchError) (seen : List Emission)
    (hseen : ∀ x ∈ seen, ∃ head, x = .observed c b st.commitId head) :
    Moved H R w head ({ w with store := store }.abandon c m b st e).1
      (seen ++ ({ w with store := store }.abandon c m b st e).2) := by
  have hst := h.branch b st (some c) he
  have hseen' : published seen = [] := List.filter_eq_nil_iff.mpr fun x hx => by
    obtain ⟨_, rfl⟩ := hseen x hx
    exact Bool.false_ne_true
  have hno : ∀ c' b' n, .returned c' b' (.committed n) ∉ seen := fun c' b' n hin => by
    obtain ⟨_, hx⟩ := hseen _ hin
    cases hx
  unfold World.abandon
  simp only
  split_ifs with hc
  · rw [List.append_nil]
    exact h.leaves he hstore rfl rfl rfl rfl rfl (fun c' hc' => (Option.some.inj hc').symm) nofun (.inr hw) hseen' hno
  · refine h.leaves he hstore rfl rfl rfl rfl rfl nofun (fun st₁ hst₁ => ?_) (.inr hw) ?_ fun c' b' n hin => ?_
    · obtain rfl := Option.some.inj hst₁
      exact ⟨rfl, hst⟩
    · rw [published_append, hseen']
      rfl
    · rcases List.mem_append.mp hin with hin | hin
      · exact hno c' b' n hin
      · cases List.mem_singleton.mp hin

/-- The seal of a branch that began at the head is computed over the tables. -/
lemma BranchState.Fits.seal (h : st.Fits H R σ (held w.store) head) {origin : Store.Read σ}
    (horigin : st.commitId = head.commitId → shown origin = held w.store) {s : SealedCommit} {st' : BranchState}
    (hs : st.sealState H R origin = .ok (s, st')) :
    st'.commitId = st.commitId ∧ st'.sealed = some s ∧ st'.Fits H R σ (held w.store) head := by
  obtain ⟨hwhere, rfl⟩ := sealState_ok hs
  refine ⟨rfl, rfl, h.behind, fun s' hs' hhead => ?_⟩
  obtain rfl := Option.some.inj hs'
  rcases hwhere with hsealed | ⟨-, hcompute⟩
  · exact h.sealed s hsealed hhead
  · exact ⟨origin, horigin hhead, hcompute⟩

/-- An ordinary call leaves a branch that fits. -/
lemma BranchState.Fits.perform (h : st.Fits H R σ (held w.store) head) {origin : Store.Read σ}
    (horigin : st.commitId = head.commitId → shown origin = held w.store) (op : Ordinary) :
    (op.perform H R b st origin).2.1.commitId = st.commitId ∧
      (op.perform H R b st origin).2.1.Fits H R σ (held w.store) head := by
  have hopen : ∀ {overlay : CellOverlay} {u}, st.requireOpen = .ok u →
      ({ st with overlay := overlay } : BranchState).Fits H R σ (held w.store) head := fun hu => by
    refine ⟨h.behind, fun s hs => ?_⟩
    have hs : st.sealed = some s := hs
    unfold BranchState.requireOpen at hu
    rw [hs] at hu
    cases hu
  cases op with
  | branchInfo => exact ⟨rfl, h⟩
  | read operation => exact ⟨rfl, h⟩
  | write operation =>
    unfold Ordinary.perform
    simp only
    split
    · exact ⟨rfl, h⟩
    · rename_i hu
      exact ⟨rfl, hopen hu⟩
  | checkpoint =>
    unfold Ordinary.perform
    simp only
    split
    · exact ⟨rfl, h⟩
    · rename_i hu
      exact ⟨rfl, hopen hu⟩
  | rollback =>
    unfold Ordinary.perform
    simp only
    split
    · exact ⟨rfl, h⟩
    · rename_i hu
      exact ⟨rfl, hopen hu⟩
  | sealBranch =>
    unfold Ordinary.perform
    simp only
    split
    · rename_i s st' hs
      obtain ⟨hcommit, -, hfits⟩ := h.seal horigin hs
      exact ⟨hcommit, hfits⟩
    · exact ⟨rfl, h⟩

lemma Moved.of_eq {p : World σ × List Emission} (hm : Moved H R w head p.1 p.2) (h : some p = some (w', es)) :
    Moved H R w head w' es := by
  obtain rfl := Option.some.inj h
  exact hm

/-- The head over the replayed rows gives the published tables. -/
lemma writeHead_shown {r : Table → Rows} {s : SealedCommit} {tx tx' : Store.Write σ}
    (h : ∀ t, shown tx t = (r t).overlay (s.writes.rowsOf t))
    (hrun : Prog.Runs (writeHead ⟨s.commitId, s.stateRoot, s.indexRoot⟩) tx () tx') :
    shown tx' = publishedRows r s := by
  funext t
  rw [HonestWrite.put_ok SUPERBLOCK_valid (Prog.runs_mapError.mp hrun), publishedRows]
  by_cases ht : t = SUPERBLOCK
  · subst ht
    rw [Function.update_self, if_pos rfl, h]
  · rw [Function.update_of_ne ht, if_neg ht, h]

/-- **One step under a branch's lock** keeps the tables, or publishes. -/
theorem World.Fits.work (h : w.Fits H R head) (hlive : (w.calls c).live = some b)
    (he : w.entries b = some ⟨some st, some c⟩) (hs : w.work H R c b st = some (w', es)) : Moved H R w head w' es := by
  have hst := h.branch b st (some c) he
  have hcall := h.call c b st hlive he
  have hwriter := h.writer c
  have hsame : w.entries = Function.update w.entries b (some ⟨some st, some c⟩) := by
    rw [← he, Function.update_eq_self]
  have hrelease : ∀ {e : BranchError}, e ≠ .conflict →
      Moved H R w head (w.release c b st (.error (.branch e))).1 (w.release c b st (.error (.branch e))).2 :=
    fun hne => h.release he rfl hst (not_final_error hne)
  unfold World.work at hs
  split at hs
  · -- locked: the head is checked
    rename_i m b' req hpc
    split at hs
    · rename_i hbegin
      exact (hrelease (mapError_ne hbegin)).of_eq hs
    · rename_i origin hbegin
      split at hs
      · rename_i hread
        exact (hrelease (readHead_ne hread)).of_eq hs
      · rename_i head' hread
        split_ifs at hs with hne
        · obtain ⟨rfl, rfl⟩ := Prod.mk.inj (Option.some.inj hs)
          refine h.leaves he rfl rfl rfl rfl rfl rfl (fun c' hc' => (Option.some.inj hc').symm) nofun (.inl rfl) rfl ?_
          rintro c' b'' n hin
          cases List.mem_singleton.mp hin
        · obtain ⟨rfl, rfl⟩ := Prod.mk.inj (Option.some.inj hs)
          refine h.stays he rfl hsame rfl rfl rfl hst
            (fun _ => FallibleStore.beginRead_ok (mapError_eq_ok.mp hbegin)) (.inl ⟨rfl, by rw [hpc]; rfl⟩) rfl ?_
          rintro c' b'' n hin
          cases List.mem_singleton.mp hin
  · -- an ordinary call does its work and releases the lock
    rename_i m b' op origin hpc
    rw [hpc] at hcall
    obtain ⟨hcommit, hfits⟩ := hst.perform hcall op (b := b)
    obtain ⟨-, -, hfinal⟩ := perform_kept H R b st origin op
    obtain ⟨rfl, rfl⟩ := Prod.mk.inj (Option.some.inj hs)
    refine h.leaves he rfl rfl rfl rfl rfl rfl nofun (fun st₁ hst₁ => ?_) (.inl rfl) ?_ fun c' b'' n hin => ?_
    · obtain rfl := Option.some.inj hst₁
      exact ⟨hcommit, hfits⟩
    · refine List.filter_eq_nil_iff.mpr fun x hx => ?_
      rcases List.mem_append.mp hx with hx | hx
      · rcases List.mem_append.mp hx with hx | hx
        · obtain ⟨act, -, rfl⟩ := List.mem_map.mp hx
          exact Bool.false_ne_true
        · split_ifs at hx
          · rw [List.mem_singleton.mp hx]
            exact Bool.false_ne_true
          · cases hx
      · rw [List.mem_singleton.mp hx]
        exact Bool.false_ne_true
    · rcases List.mem_append.mp hin with hin | hin
      · rcases List.mem_append.mp hin with hin | hin
        · obtain ⟨act, -, hact⟩ := List.mem_map.mp hin
          cases hact
        · split_ifs at hin
          · cases List.mem_singleton.mp hin
          · cases hin
      · obtain ⟨-, -, hreply⟩ := Emission.returned.inj (List.mem_singleton.mp hin)
        exact hfinal (.inl ⟨n, hreply.symm⟩)
  · obtain ⟨rfl, rfl⟩ := Prod.mk.inj (Option.some.inj hs)
    refine h.leaves he rfl rfl rfl rfl rfl rfl nofun nofun (.inl rfl) rfl ?_
    rintro c' b'' n hin
    cases List.mem_singleton.mp hin
  · rename_i m b' origin hpc
    rw [hpc] at hcall
    split at hs
    · rename_i e hseal
      exact (hrelease (sealState_ne hseal)).of_eq hs
    · rename_i s st' hseal
      obtain ⟨hcommit, hsealed, hfits⟩ := hst.seal hcall hseal
      obtain ⟨rfl, rfl⟩ := Prod.mk.inj (Option.some.inj hs)
      refine h.stays he rfl rfl rfl rfl hcommit hfits ⟨rfl, hsealed⟩ (.inl ⟨rfl, by rw [hpc]; rfl⟩) rfl ?_
      rintro c' b'' n hin
      cases List.mem_singleton.mp hin
  · -- the store's writer
    rename_i m b' origin s hpc
    rw [hpc] at hcall
    split at hs
    · cases hs
    · rename_i hfree
      split at hs
      · rename_i hbegin
        exact (hrelease (mapError_ne hbegin)).of_eq hs
      · rename_i tx hbegin
        obtain ⟨rfl, rfl⟩ := Prod.mk.inj (Option.some.inj hs)
        exact h.stays he rfl hsame rfl rfl rfl hst
          ⟨hcall.1, hcall.2, FallibleStore.beginWrite_ok (mapError_eq_ok.mp hbegin)⟩ (.inr ⟨hfree, rfl⟩) rfl
          (fun _ _ _ => List.not_mem_nil)
  · -- the head is checked again
    rename_i m b' origin s tx hpc
    rw [hpc] at hcall hwriter
    obtain ⟨rfl, hsealed, hshown⟩ := hcall
    split at hs
    · exact (h.abandon he (hwriter rfl) rfl m _ [] nofun).of_eq hs
    · rename_i head' hread
      have hmeets := readHead_meets (show HeadIs (shown tx) head by rw [hshown]; exact h.head_is)
      rw [hread] at hmeets
      obtain rfl : head' = head.commitId := hmeets
      split_ifs at hs with hne
      · refine (h.abandon he (hwriter rfl) rfl m .conflict [.observed c b st.commitId head.commitId] ?_).of_eq hs
        exact fun x hx => ⟨_, List.mem_singleton.mp hx⟩
      · obtain ⟨rfl, rfl⟩ := Prod.mk.inj (Option.some.inj hs)
        refine h.stays he rfl hsame rfl rfl rfl hst ⟨rfl, hsealed, not_ne_iff.mp hne, hshown⟩
          (.inl ⟨rfl, by rw [hpc]; rfl⟩) rfl ?_
        rintro c' b'' n hin
        cases List.mem_singleton.mp hin
  · rename_i m b' origin s tx hpc
    rw [hpc] at hcall hwriter
    obtain ⟨rfl, hsealed, hhead, hshown⟩ := hcall
    split at hs
    · exact (h.abandon he (hwriter rfl) rfl m _ [] nofun).of_eq hs
    · rename_i tx' hreplay
      obtain ⟨rfl, rfl⟩ := Prod.mk.inj (Option.some.inj hs)
      obtain ⟨_, -, hcompute⟩ := hst.sealed s hsealed hhead.symm
      refine h.stays he rfl hsame rfl rfl rfl hst ⟨rfl, hsealed, hhead, ?_⟩ (.inl ⟨rfl, by rw [hpc]; rfl⟩) rfl
        (fun _ _ _ => List.not_mem_nil)
      rw [← hshown]
      exact replay_shown (compute_valid hcompute) hreplay
  · rename_i m b' origin s tx hpc
    rw [hpc] at hcall hwriter
    obtain ⟨rfl, hsealed, hhead, hshown⟩ := hcall
    split at hs
    · exact (h.abandon he (hwriter rfl) rfl m _ [] nofun).of_eq hs
    · rename_i tx' hwrite
      obtain ⟨rfl, rfl⟩ := Prod.mk.inj (Option.some.inj hs)
      refine h.stays he rfl hsame rfl rfl rfl hst ⟨rfl, hsealed, hhead, ?_⟩ (.inl ⟨rfl, by rw [hpc]; rfl⟩) rfl
        (fun _ _ _ => List.not_mem_nil)
      exact writeHead_shown hshown hwrite
  · rename_i m b' origin s tx hpc
    rw [hpc] at hcall hwriter
    obtain ⟨rfl, hsealed, hhead, hshown⟩ := hcall
    split at hs
    · rename_i e store' hcommit
      exact (h.abandon he (hwriter rfl) (FallibleStore.commit_error hcommit) m _ [] nofun).of_eq hs
    · rename_i store' hcommit
      obtain ⟨rfl, rfl⟩ := Prod.mk.inj (Option.some.inj hs)
      refine .publishes _ c m b st s (hwriter rfl) he hsealed hhead ?_ rfl rfl
      exact (FallibleStore.commit_ok hcommit).trans hshown
  · cases hs

/-- A call that holds nothing goes on. -/
lemma World.Fits.aside (h : w.Fits H R head) {pc : Pc σ} (hstore : w'.store = w.store)
    (hentries : w'.entries = w.entries)
    (hcalls : w'.calls = Function.update w.calls c pc) (hlive : pc.live = none) (htold : pc.told = none)
    (hbegan : ∀ n, pc.began = some n → n ≤ head.commitId) (hwriter : w'.writer = w.writer)
    (hreturns : ∀ c' b' n, .returned c' b' (.committed n) ∈ es → (w.calls c').told = some (b', n))
    (hes : published es = []) : Moved H R w head w' es := by
  have hwrites : pc.writes = false := by
    cases pc <;> first | rfl | cases hlive
  refine .keeps w' c 0 (w.entries 0) pc es (by rw [hstore]) (by rw [hentries, Function.update_eq_self]) hcalls
    (fun st' holder hst' => ⟨h.branch 0 st' holder hst', fun st₀ holder₀ hst₀ => ?_⟩) (fun _ _ _ _ => rfl)
    (fun b' hb' => ?_) hbegan (fun hw => ?_) (fun c' _ hw => by rw [hwriter, h.writer c' hw]) htold hreturns hes
  · rw [hst'] at hst₀
    obtain ⟨hst₀, -⟩ := Slot.mk.inj (Option.some.inj hst₀)
    rw [Option.some.inj hst₀]
  · rw [hlive] at hb'
    cases hb'
  · rw [hwrites] at hw
    cases hw

/-- **One step** keeps the tables, or publishes. -/
theorem World.Fits.moved (h : w.Fits H R head) (hwf : w.Wf) (hs : w.step H R l = some (w', es)) :
    Moved H R w head w' es := by
  have hnew : ∀ n, none = some n → n ≤ head.commitId := by rintro _ ⟨⟩
  have hquiet : ∀ {c' b' n}, .returned c' b' (.committed n) ∈ ([] : List Emission) → (w.calls c').told = some (b', n) :=
    fun hin => absurd hin List.not_mem_nil
  have hinvalid : ∀ {c₁ b₁ c' b' n}, .returned c' b' (.committed n) ∈ [Emission.returned c₁ b₁ .handleInvalid] →
      (w.calls c').told = some (b', n) := fun hin => by
    obtain ⟨-, -, hr⟩ := Emission.returned.inj (List.mem_singleton.mp hin)
    cases hr
  have hrefused : ∀ {c₁ err c' b' n}, .returned c' b' (.committed n) ∈ [Emission.refused c₁ err] →
      (w.calls c').told = some (b', n) := fun hin => by cases List.mem_singleton.mp hin
  cases l with
  | begin c m =>
    simp only [World.step] at hs
    split at hs
    · obtain ⟨rfl, rfl⟩ := Prod.mk.inj (Option.some.inj hs)
      exact h.aside rfl rfl rfl rfl rfl hnew rfl (fun _ _ _ => hquiet) rfl
    · cases hs
  | call c m b req =>
    simp only [World.step] at hs
    split at hs
    · obtain ⟨rfl, rfl⟩ := Prod.mk.inj (Option.some.inj hs)
      exact h.aside rfl rfl rfl rfl rfl hnew rfl (fun _ _ _ => hquiet) rfl
    · cases hs
  | advance c =>
    simp only [World.step, World.advance] at hs
    split at hs
    · rename_i m hold
      split at hs
      · obtain ⟨rfl, rfl⟩ := Prod.mk.inj (Option.some.inj hs)
        exact h.aside rfl rfl rfl rfl rfl hnew rfl (fun _ _ _ => hrefused) rfl
      · rename_i tx hbegin
        split at hs
        · obtain ⟨rfl, rfl⟩ := Prod.mk.inj (Option.some.inj hs)
          exact h.aside rfl rfl rfl rfl rfl hnew rfl (fun _ _ _ => hrefused) rfl
        · -- the branch begins at the head
          rename_i n hread
          have hshown : shown tx = held w.store := FallibleStore.beginRead_ok (mapError_eq_ok.mp hbegin)
          have hmeets := readHead_meets (show HeadIs (shown tx) head by rw [hshown]; exact h.head_is)
          rw [hread] at hmeets
          obtain ⟨rfl, rfl⟩ := Prod.mk.inj (Option.some.inj hs)
          refine h.aside rfl rfl rfl rfl rfl (fun n' hn' => ?_) rfl (fun _ _ _ => hquiet) rfl
          obtain rfl := Option.some.inj hn'
          exact le_of_eq hmeets
    · rename_i m n hold
      split at hs
      · obtain ⟨rfl, rfl⟩ := Prod.mk.inj (Option.some.inj hs)
        exact h.aside rfl rfl rfl rfl rfl hnew rfl (fun _ _ _ => hrefused) rfl
      · obtain ⟨rfl, rfl⟩ := Prod.mk.inj (Option.some.inj hs)
        refine h.aside rfl rfl rfl rfl rfl (fun n' hn' => ?_) rfl (fun _ _ _ => hquiet) rfl
        obtain rfl := Option.some.inj hn'
        exact h.began c n (by rw [hold]; rfl)
    · rename_i m b n hold
      obtain ⟨-, hnone, -⟩ := hwf.inserting c m b n hold
      obtain ⟨rfl, rfl⟩ := Prod.mk.inj (Option.some.inj hs)
      refine .keeps _ c b _ _ _ rfl rfl rfl (fun st holder hst => ?_) (by rintro _ _ _ ⟨⟩)
        (by rintro _ ⟨⟩) hnew (by rintro ⟨⟩) (fun c' _ hw => h.writer c' hw) rfl (fun c' b' n' hin => ?_) rfl
      · obtain ⟨hst, -⟩ := Slot.mk.inj (Option.some.inj hst)
        obtain rfl := Option.some.inj hst
        refine ⟨⟨h.began c n (by rw [hold]; rfl), by rintro _ ⟨⟩⟩, fun st₀ holder₀ hst₀ => ?_⟩
        rw [hnone] at hst₀
        cases hst₀
      · cases List.mem_singleton.mp hin
    · split_ifs at hs
      · obtain ⟨rfl, rfl⟩ := Prod.mk.inj (Option.some.inj hs)
        exact h.aside rfl rfl rfl rfl rfl hnew rfl (fun _ _ _ => hquiet) rfl
      · obtain ⟨rfl, rfl⟩ := Prod.mk.inj (Option.some.inj hs)
        exact h.aside rfl rfl rfl rfl rfl hnew rfl (fun _ _ _ => hinvalid) rfl
    · rename_i m b req hold
      split at hs
      · obtain ⟨rfl, rfl⟩ := Prod.mk.inj (Option.some.inj hs)
        exact h.aside rfl rfl rfl rfl rfl hnew rfl (fun _ _ _ => hinvalid) rfl
      · rename_i st he
        obtain ⟨rfl, rfl⟩ := Prod.mk.inj (Option.some.inj hs)
        exact h.stays he rfl rfl rfl rfl rfl (h.branch b st none he) trivial (.inl ⟨rfl, by rw [hold]; rfl⟩) rfl
          (fun _ _ _ => List.not_mem_nil)
      · cases hs
    · -- the call that consumed the branch removes its entry
      rename_i m b reply hold
      obtain ⟨rfl, rfl⟩ := Prod.mk.inj (Option.some.inj hs)
      refine .keeps _ c b _ _ _ rfl rfl rfl (by rintro _ _ ⟨⟩) (by rintro _ _ _ ⟨⟩) (by rintro _ ⟨⟩) hnew (by rintro ⟨⟩)
        (fun c' _ hw => h.writer c' hw) rfl
        (fun c' b' n hin => ?_) rfl
      obtain ⟨rfl, rfl, rfl⟩ := Emission.returned.inj (List.mem_singleton.mp hin)
      rw [hold]
      rfl
    · rename_i m b reply hold
      obtain ⟨rfl, rfl⟩ := Prod.mk.inj (Option.some.inj hs)
      refine h.aside rfl rfl rfl rfl rfl hnew rfl (fun c' b' n hin => ?_) rfl
      obtain ⟨rfl, rfl, rfl⟩ := Emission.returned.inj (List.mem_singleton.mp hin)
      rw [hold]
      rfl
    · split at hs
      · cases hs
      · rename_i b hlive
        obtain ⟨st, he⟩ := hwf.live c b hlive
        rw [he] at hs
        exact h.work hlive he hs

/-- **A step that keeps the tables keeps the invariant.** -/
lemma World.Fits.keeps (h : w.Fits H R head) {slot : Option Slot} {pc : Pc σ} (hstore : held w'.store = held w.store)
    (hentries : w'.entries = Function.update w.entries b slot) (hcalls : w'.calls = Function.update w.calls c pc)
    (hslot : ∀ st holder, slot = some ⟨some st, holder⟩ → st.Fits H R σ (held w.store) head)
    (hother : ∀ c' st, c' ≠ c → slot = some ⟨some st, some c'⟩ → w.entries b = slot)
    (hpc : ∀ b', pc.live = some b' → b' = b ∧ ∀ st, slot = some ⟨some st, some c⟩ → pc.Fits (held w.store) head st)
    (hbegan : ∀ n, pc.began = some n → n ≤ head.commitId) (hwriter : pc.writes = true → w'.writer = some c)
    (hwriters : ∀ c', c' ≠ c → (w.calls c').writes = true → w'.writer = some c') : w'.Fits H R head := by
  have hself : w'.calls c = pc := by rw [hcalls, Function.update_self]
  have hcall : ∀ {c'}, c' ≠ c → w'.calls c' = w.calls c' := fun hne => by rw [hcalls, Function.update_of_ne hne]
  have hat : w'.entries b = slot := by rw [hentries, Function.update_self]
  have hentry : ∀ {b'}, b' ≠ b → w'.entries b' = w.entries b' := fun hne => by rw [hentries, Function.update_of_ne hne]
  refine ⟨by rw [hstore]; exact h.head_is, fun c' n hn => ?_, fun b' st holder he => ?_, fun c' b' st hlive he => ?_,
    fun c' hw => ?_⟩
  · by_cases hc : c' = c
    · subst hc
      exact hbegan n (hself ▸ hn)
    · exact h.began c' n (hcall hc ▸ hn)
  · rw [hstore]
    by_cases hb : b' = b
    · subst hb
      exact hslot st holder (hat.symm.trans he)
    · exact h.branch b' st holder (hentry hb ▸ he)
  · rw [hstore]
    by_cases hc : c' = c
    · subst hc
      rw [hself] at hlive ⊢
      obtain ⟨rfl, hfits⟩ := hpc b' hlive
      exact hfits st (hat.symm.trans he)
    · rw [hcall hc] at hlive ⊢
      by_cases hb : b' = b
      · subst hb
        rw [hat] at he
        exact h.call c' b' st hlive ((hother c' st hc he).trans he)
      · exact h.call c' b' st hlive (hentry hb ▸ he)
  · by_cases hc : c' = c
    · subst hc
      exact hwriter (hself ▸ hw)
    · exact hwriters c' hc (hcall hc ▸ hw)

variable [LawfulRead (Store.Read σ)]

/-- The two views of a snapshot agree on the tables that there can be. -/
lemma rows_eq_shown {t : Table} (ht : t.validate = .ok ()) (tx : Store.Read σ) : rows tx t = shown tx t :=
  OrdMap.ext_get fun k => HonestRead.get_ok ht (LawfulRead.get_eq ht tx k)

/-- **The publication of a seal** that was computed over the tables. -/
lemma publishes_of_compute {r : Table → Rows} {origin : Store.Read σ} {overlay : CellOverlay} {s : SealedCommit}
    (hh : HeadIs r head) (horigin : shown origin = r) (hs : compute H R origin overlay = .ok s) (c : CallId)
    (b : BranchId) :
    Publication.Publishes ⟨c, b, head, overlay, ⟨s.commitId, s.stateRoot, s.indexRoot⟩⟩ r (publishedRows r s) := by
  obtain ⟨head', hread, hsucc, hcells, hframe, hvalid⟩ := compute_ok hs
  have hrows : ∀ {t : Table}, t.validate = .ok () → rows origin t = r t := fun ht => by rw [rows_eq_shown ht, horigin]
  obtain rfl : head' = head := by
    have := row_of_readHeadState hread
    rw [hrows SUPERBLOCK_valid] at this
    exact HeadIs.unique this hh
  have hsuper : (r SUPERBLOCK).overlay (s.writes.rowsOf SUPERBLOCK) = r SUPERBLOCK := by
    rw [← hrows SUPERBLOCK_valid]
    exact hframe SUPERBLOCK (by simp only [sealTables, Set.mem_insert_iff, Set.mem_singleton_iff]; decide)
  refine ⟨hh, ?_, hsucc, ?_, fun t ht hne => ?_, fun k hk => ?_⟩
  · rw [HeadIs, publishedRows, if_pos rfl, OrdMap.get?_insert, if_pos rfl]
  · rw [publishedRows, if_neg (by decide), ← hrows CELL_valid]
    exact hcells
  · rw [publishedRows, if_neg hne]
    by_cases hv : t.validate = .ok ()
    · rw [← hrows hv]
      exact hframe t ht
    · have hnone : s.writes.get? t = none := by
        by_contra hsome
        exact hv (hvalid t hsome)
      rw [Writes.rowsOf, hnone]
      rfl
  · rw [publishedRows, if_pos rfl, OrdMap.get?_insert, if_neg hk, hsuper]

omit [LawfulRead (Store.Read σ)] in
/-- A call without the writer fits any tables under a later head. -/
lemma Pc.Fits.behind {pc : Pc σ} {r r' : Table → Rows} {head' : Head} (h : pc.Fits r head st) (hw : ¬ pc.writes = true)
    (hne : st.commitId ≠ head'.commitId) : pc.Fits r' head' st := by
  cases pc <;> first | exact trivial | exact absurd rfl hw | exact h | exact fun he => absurd he hne

/-- **A step that publishes** publishes the branch's cells over the head, and keeps the invariant under the new
head. -/
lemma World.Fits.publishes (h : w.Fits H R head) {m : ManagerId} {s : SealedCommit} (hwriter : w.writer = some c)
    (hentry : w.entries b = some ⟨some st, some c⟩) (hsealed : st.sealed = some s)
    (hhead : head.commitId = st.commitId) (hstore : held w'.store = publishedRows (held w.store) s)
    (hentries : w'.entries = Function.update w.entries b (some ⟨none, some c⟩))
    (hcalls : w'.calls = Function.update w.calls c (.removing m b (.committed s.commitId))) :
    ∃ next : Head, next.commitId = s.commitId ∧
      Publication.Publishes ⟨c, b, head, st.overlay, next⟩ (held w.store) (held w'.store) ∧ w'.Fits H R next := by
  obtain ⟨origin, horigin, hcompute⟩ := (h.branch b st (some c) hentry).sealed s hsealed hhead.symm
  have hpub := publishes_of_compute h.head_is horigin hcompute c b
  rw [← hstore] at hpub
  have hlt : head.commitId < s.commitId := (checkedSucc_lt hpub.succ).1
  have hold : ∀ {st' : BranchState}, st'.commitId ≤ head.commitId → st'.commitId ≠ s.commitId := fun hle =>
    ne_of_lt (lt_of_le_of_lt hle hlt)
  have hcall : ∀ {c'}, c' ≠ c → w'.calls c' = w.calls c' := fun hne => by rw [hcalls, Function.update_of_ne hne]
  have hself : w'.calls c = .removing m b (.committed s.commitId) := by rw [hcalls, Function.update_self]
  have hentry' : ∀ {b' st' holder}, w'.entries b' = some ⟨some st', holder⟩ →
      w.entries b' = some ⟨some st', holder⟩ := by
    intro b' st' holder he
    rw [hentries, Function.update_apply] at he
    split_ifs at he with hb
    · cases (Slot.mk.inj (Option.some.inj he)).1
    · exact he
  refine ⟨_, rfl, hpub, hpub.next, fun c' n hn => ?_, fun b' st' holder he => ?_, fun c' b' st' hlive' he => ?_,
    fun c' hw => ?_⟩
  · by_cases hc : c' = c
    · rw [hc, hself] at hn
      cases hn
    · exact (h.began c' n (hcall hc ▸ hn)).trans hlt.le
  · have hle := (h.branch b' st' holder (hentry' he)).behind
    exact ⟨hle.trans hlt.le, fun _ _ heq => absurd heq (hold hle)⟩
  · by_cases hc : c' = c
    · rw [hc, hself] at hlive'
      cases hlive'
    · -- no other call has the writer
      rw [hcall hc] at hlive' ⊢
      have hfits := h.call c' b' st' hlive' (hentry' he)
      refine hfits.behind (fun hw => hc ?_) (hold (h.branch b' st' _ (hentry' he)).behind)
      rw [h.writer c' hw] at hwriter
      exact Option.some.inj hwriter
  · by_cases hc : c' = c
    · rw [hc, hself] at hw
      cases hw
    · rw [hcall hc] at hw
      rw [h.writer c' hw] at hwriter
      exact absurd (Option.some.inj hwriter) hc

end Step

/-! ### Runs -/

section Runs

variable {H : HashProvider} {R : Roaring} {σ : Type} [Store σ] [FallibleStore σ] {w w' : World σ} {head : Head}
  {es : List Emission} {l : Label} {labels : List Label}

/-- **A serial step**: it publishes nothing and keeps the tables, or it is the publication of one branch, which
began at the head and is consumed. A branch stays at the head it began at. -/
structure World.StepsSerially (w w' : World σ) (es : List Emission) : Prop where
  outcome : published es = [] ∧ held w'.store = held w.store ∨
    ∃ (p : Publication) (st : BranchState), es = [p.shown] ∧ p.Publishes (held w.store) (held w'.store) ∧
      w.entries p.branch = some ⟨some st, some p.call⟩ ∧ st.commitId = p.head.commitId ∧ st.overlay = p.overlay ∧
      w'.entries p.branch = some ⟨none, some p.call⟩
  origin : ∀ b st holder st' holder', w.entries b = some ⟨some st, holder⟩ → w'.entries b = some ⟨some st', holder'⟩ →
    st'.commitId = st.commitId

/-- A commit that is about to return was published. -/
def World.Told (w : World σ) (es : List Emission) : Prop :=
  ∀ c b n, (w.calls c).told = some (b, n) → ∃ origin, .published c b origin n ∈ es

variable [LawfulRead (Store.Read σ)]

/-- **Every step keeps the invariant and is serial**, and what returns as committed was published. -/
theorem World.Fits.step (h : w.Fits H R head) (hwf : w.Wf) (hs : w.step H R l = some (w', es)) :
    (∃ head', w'.Fits H R head') ∧ w.StepsSerially w' es ∧
      ∀ seen, w.Told seen → w'.Told (seen ++ es) ∧
        ∀ c b n, .returned c b (.committed n) ∈ es → ∃ origin, .published c b origin n ∈ seen := by
  cases h.moved hwf hs with
  | keeps c b slot pc _ hstore hentries hcalls hslot hother hpc hbegan hwriter hwriters htold hreturns hes =>
    refine ⟨⟨head, h.keeps hstore hentries hcalls (fun st holder he => (hslot st holder he).1) hother hpc hbegan hwriter
      hwriters⟩, ⟨.inl ⟨hes, hstore⟩, fun b' st holder st' holder' he he' => ?_⟩, fun seen hseen =>
      ⟨fun c' b' n hn => ?_, fun c' b' n hin => hseen c' b' n (hreturns c' b' n hin)⟩⟩
    · rw [hentries, Function.update_apply] at he'
      split_ifs at he' with hb
      · subst hb
        exact (hslot st' holder' he').2 st holder he
      · rw [he] at he'
        obtain ⟨hst, -⟩ := Slot.mk.inj (Option.some.inj he')
        rw [Option.some.inj hst]
    · rw [hcalls, Function.update_apply] at hn
      split_ifs at hn with hc
      · rw [htold] at hn
        cases hn
      · obtain ⟨origin, hin⟩ := hseen c' b' n hn
        exact ⟨origin, List.mem_append_left _ hin⟩
  | publishes c m b st s hwriter hentry hsealed hhead hstore hentries hcalls =>
    obtain ⟨next, hnext, hpub, hfits⟩ := h.publishes hwriter hentry hsealed hhead hstore hentries hcalls
    have hshown : Emission.published c b st.commitId s.commitId
        = Publication.shown ⟨c, b, head, st.overlay, next⟩ := by rw [Publication.shown, hhead, hnext]
    refine ⟨⟨next, hfits⟩, ⟨.inr ⟨_, st, by rw [hshown], hpub, hentry, hhead.symm, rfl, ?_⟩,
      fun b' st₁ holder st' holder' he he' => ?_⟩, fun seen hseen => ⟨fun c' b' n hn => ?_, fun c' b' n hin => ?_⟩⟩
    · rw [hentries, Function.update_self]
    · rw [hentries, Function.update_apply] at he'
      split_ifs at he' with hb
      · cases (Slot.mk.inj (Option.some.inj he')).1
      · rw [he] at he'
        obtain ⟨hst, -⟩ := Slot.mk.inj (Option.some.inj he')
        rw [Option.some.inj hst]
    · rw [hcalls, Function.update_apply] at hn
      split_ifs at hn with hc
      · obtain ⟨rfl, rfl⟩ := Prod.mk.inj (Option.some.inj hn)
        exact ⟨st.commitId, List.mem_append_right _ (hc ▸ List.mem_singleton_self _)⟩
      · obtain ⟨origin, hin⟩ := hseen c' b' n hn
        exact ⟨origin, List.mem_append_left _ hin⟩
    · cases List.mem_singleton.mp hin

/-- The publications of a run, one after another. -/
theorem World.Fits.run : ∀ {labels : List Label} {w w' : World σ} {es seen : List Emission} {head : Head},
    w.Fits H R head → w.Wf → w.Told seen → w.run H R labels = some (w', es) →
    (∃ head', w'.Fits H R head') ∧ w'.Wf ∧
      (∃ ps : List Publication, published es = ps.map Publication.shown ∧ Serial (held w.store) ps (held w'.store)) ∧
      ∀ c b n, .returned c b (.committed n) ∈ es → ∃ origin, .published c b origin n ∈ seen ++ es := by
  intro labels
  induction labels with
  | nil =>
    intro w w' es seen head h hwf hseen hr
    obtain ⟨rfl, rfl⟩ := Prod.mk.inj (Option.some.inj hr)
    exact ⟨⟨head, h⟩, hwf, ⟨[], rfl, .nil _⟩, nofun⟩
  | cons l labels ih =>
    intro w w' es seen head h hwf hseen hr
    rw [World.run] at hr
    cases hs : w.step H R l with
    | none =>
      rw [hs] at hr
      cases hr
    | some p =>
      obtain ⟨w₁, es₁⟩ := p
      rw [hs] at hr
      obtain ⟨⟨w₂, es₂⟩, hrun, hp⟩ := Option.map_eq_some_iff.mp hr
      obtain ⟨rfl, rfl⟩ := Prod.mk.inj hp
      obtain ⟨⟨head₁, h₁⟩, hserial, htold⟩ := h.step hwf hs
      obtain ⟨htold₁, hreturned₁⟩ := htold seen hseen
      obtain ⟨h₂, hwf₂, ⟨ps, hps, hserial₂⟩, hreturned₂⟩ := ih h₁ (hwf.step hs) htold₁ hrun
      refine ⟨h₂, hwf₂, ?_, fun c b n hin => ?_⟩
      · rcases hserial.outcome with ⟨hes, hstore⟩ | ⟨p, st, rfl, hpub, -⟩
        · exact ⟨ps, by rw [published_append, hes, hps]; rfl, hstore ▸ hserial₂⟩
        · exact ⟨p :: ps, by rw [published_append, hps]; rfl, .cons hpub hserial₂⟩
      · rcases List.mem_append.mp hin with hin | hin
        · obtain ⟨origin, ho⟩ := hreturned₁ c b n hin
          exact ⟨origin, List.mem_append_left _ ho⟩
        · obtain ⟨origin, ho⟩ := hreturned₂ c b n hin
          exact ⟨origin, by rwa [← List.append_assoc]⟩

omit [LawfulRead (Store.Read σ)] in
lemma World.fits_start {store : σ} (hh : HeadIs (held store) head) (next : BranchId) :
    (World.start store next).Fits H R head := ⟨hh, nofun, nofun, nofun, nofun⟩

/-- **Commits are serializable.** In every interleaving of any calls on any branches of any managers over one
initialized store, whatever fails in it: the tables are those of the publications one after another, each of
which raises the head it is over by one and overlays the Cell table with its branch's cells and the roots; no
head is published over twice; what returns as committed was published; and a step that is not the publication
of a branch that began at the head changes no row. -/
theorem run_serializable (H : HashProvider) (R : Roaring) {store : σ} (hh : HeadIs (held store) head) (next : BranchId)
    (hrun : (World.start store next).run H R labels = some (w, es)) :
    (∃ ps : List Publication, published es = ps.map Publication.shown ∧ Serial (held store) ps (held w.store) ∧
      (ps.map fun p => p.head.commitId).Nodup) ∧
    (∀ c b n, .returned c b (.committed n) ∈ es → ∃ origin, .published c b origin n ∈ es) ∧
    ∀ l w' es', w.step H R l = some (w', es') → w.StepsSerially w' es' := by
  obtain ⟨⟨head', h'⟩, hwf, ⟨ps, hps, hserial⟩, hreturned⟩ :=
    (World.fits_start (H := H) (R := R) hh next).run (World.wf_start store next)
      (show (World.start store next).Told [] from nofun) hrun
  exact ⟨⟨ps, hps, hserial, hserial.nodup⟩, fun c b n hin => hreturned c b n hin,
    fun l w' es' hs => (h'.step hwf hs).2.1⟩

end Runs

instance : LawfulRead (Store.Read Controlled) := inferInstanceAs (LawfulRead MemoryReadTransaction)

/-- Two managers begin a branch each; both seal their branch before the first publishes. -/
def raceLabels : List Label :=
  [.begin 0 0, .advance 0, .advance 0, .advance 0, .begin 1 1, .advance 1, .advance 1, .advance 1, .call 2 0 0 .commit,
    .call 3 1 1 .commit, .advance 2, .advance 3, .advance 2, .advance 3, .advance 2, .advance 3, .advance 2, .advance 3,
    .advance 2, .advance 2, .advance 2, .advance 2, .advance 2, .advance 3, .advance 3, .advance 3, .advance 2]

theorem run_serializable_demo : ∃ w es,
    (World.start (demoStore .none) 0).run Trie.polyHash arrayRoaring raceLabels = some (w, es) ∧
    es = [.began 0 0, .began 1 1, .observed 2 0 0 0, .observed 3 1 0 0, .sealed 2 0, .sealed 3 1, .observed 2 0 0 0,
      .published 2 0 0 1, .observed 3 1 0 1, .returned 3 1 (.error (.branch .conflict)), .returned 2 0 (.committed 1)] ∧
    (∃ ps : List Publication, published es = ps.map Publication.shown ∧
      Serial (held (demoStore .none)) ps (held w.store) ∧ (ps.map fun p => p.head.commitId).Nodup) ∧
    (∀ c b n, .returned c b (.committed n) ∈ es → ∃ origin, .published c b origin n ∈ es) ∧
    ∀ l w' es', w.step Trie.polyHash arrayRoaring l = some (w', es') → w.StepsSerially w' es' := by
  have hes : ((World.start (demoStore .none) 0).run Trie.polyHash arrayRoaring raceLabels).map Prod.snd
      = some [.began 0 0, .began 1 1, .observed 2 0 0 0, .observed 3 1 0 0, .sealed 2 0, .sealed 3 1, .observed 2 0 0 0,
        .published 2 0 0 1, .observed 3 1 0 1, .returned 3 1 (.error (.branch .conflict)),
        .returned 2 0 (.committed 1)] := by decide +kernel
  obtain ⟨⟨w, es⟩, hrun, hshown⟩ := Option.map_eq_some_iff.mp hes
  exact ⟨w, es, hrun, hshown, run_serializable Trie.polyHash arrayRoaring
    (show HeadIs (held (demoStore .none)) ⟨0, Trie.polyHash.hash [], Trie.polyHash.hash []⟩ from rfl) 0 hrun⟩

end GolemDb.Branch
