import GolemDb.Api.Published
import GolemDb.Api.Roots
import GolemDb.Branch.Determined

/-!
What a seal depends on. Two branches over the same committed tables, of one database or of two, that
show the same cells seal to the same result, down to the rows they stage (`run_seal_determined`).
-/

namespace GolemDb.Api

open GolemDb.Lib GolemDb.Storage GolemDb.Merkle GolemDb.Cells GolemDb.Index GolemDb.Branch GolemDb.Records

section Seals

variable {H : HashProvider} {R : Roaring} {σ : Type} [Store σ] [LawfulStore σ] {head : Head} {cells : CellMap}
  {db : Branches σ} {b : BranchId} {st : BranchState}

/-- A seal that succeeds was computed over the committed tables, now or before. -/
lemma seal_computed (h : Managed H R head cells db) (hb : db.branches.get? b = some st)
    (hc : st.commitId = head.commitId)
    {s : SealedCommit} (hs : ((Branches.sealBranch H R b).exec db).1 = .ok s) :
    ∃ origin : Store.Read σ, rows origin = tables db.store ∧ compute H R origin st.overlay = .ok s := by
  obtain ⟨origin, hr, he⟩ := seal_live (H := H) (R := R) h.head_is hb hc
  rw [he] at hs
  unfold BranchState.sealState at hs
  cases hsealed : st.sealed with
  | some s' =>
    rw [hsealed] at hs
    obtain rfl : s' = s := Except.ok.inj hs
    exact (h.branches b st hb).sealed s' hsealed hc
  | none =>
    rw [hsealed] at hs
    cases hcomp : compute H R origin st.overlay with
    | error e =>
      rw [hcomp] at hs
      cases hs
    | ok s' =>
      rw [hcomp] at hs
      obtain rfl : s' = s := Except.ok.inj hs
      exact ⟨origin, hr, hcomp⟩

/-- After the last commit number no branch seals. -/
lemma seal_exhausted (h : Managed H R head cells db) (hb : db.branches.get? b = some st)
    (hc : st.commitId = head.commitId) (hmax : checkedSucc head.commitId = none) :
    ((Branches.sealBranch H R b).exec db).1 = .error .commitNumberExhausted := by
  cases hx : ((Branches.sealBranch H R b).exec db).1 with
  | ok s =>
    obtain ⟨origin, hr, hcomp⟩ := seal_computed h hb hc hx
    rw [(h.compute_head hr hcomp).1] at hmax
    cases hmax
  | error e =>
    obtain ⟨origin, hr, he⟩ := seal_live (H := H) (R := R) h.head_is hb hc
    have hread : readHeadState origin = .ok head := readHeadState_eq (by rw [hr]; exact h.head_is)
    have hcomp : compute H R origin st.overlay = .error .commitNumberExhausted := by
      unfold compute
      rw [hread, ok_bind, hmax]
    unfold BranchState.sealState at he
    cases hsealed : st.sealed with
    | some s =>
      rw [hsealed, hx] at he
      cases he
    | none =>
      rw [hsealed, hcomp, hx] at he
      rw [Except.error.inj he]

/-- **Two branches over the same head that show the same cells.** -/
structure SameView (db : Branches σ) (b : BranchId) (db' : Branches σ) (b' : BranchId) : Prop where
  tables : tables db.store = tables db'.store
  branches : ∃ head st st' m, HeadIs (Storage.tables db.store) head ∧ db.branches.get? b = some st ∧
    db'.branches.get? b' = some st' ∧ st.commitId = head.commitId ∧ st'.commitId = head.commitId ∧
    Storage.tables db.store CELL = cellRows m ∧ m.overlay st.overlay.entries = m.overlay st'.overlay.entries

/-- Seals that succeed over the same view are equal. -/
lemma seals_alike {head' : Head} {cells' : CellMap} {db' : Branches σ} {b' : BranchId}
    (h : Managed H R head cells db) (h' : Managed H R head' cells' db') (hview : SameView db b db' b')
    {s s' : SealedCommit}
    (hs : ((Branches.sealBranch H R b).exec db).1 = .ok s)
    (hs' : ((Branches.sealBranch H R b').exec db').1 = .ok s') : s = s' := by
  obtain ⟨hsame, head₀, st, st', m, hh, hb, hb', hc, hc', hm, hshown⟩ := hview
  obtain rfl := HeadIs.unique hh h.head_is
  obtain rfl := HeadIs.unique (hsame ▸ hh) h'.head_is
  obtain ⟨origin, hr, hcomp⟩ := seal_computed h hb hc hs
  obtain ⟨origin', hr', hcomp'⟩ := seal_computed h' hb' hc' hs'
  exact compute_determined (by rw [hr, hr', hsame]) (by rw [hr, hm]) hshown hcomp hcomp'

/-- **Seal results do not depend on how the overlay was reached.** Over any runs of the manager's calls, with groups of
any cell operations, two branches over the same head that show the same cells seal alike where both seal; over runs
of the API, where the hash separates what they hash, they also fail alike. -/
theorem run_seal_determined (H : HashProvider) (R : Roaring) (σ : Type) [Store σ] [LawfulStore σ] :
    (∀ {store store' : σ} {next next' : BranchId} {db₀ db₀' : Branches σ} {cells₀ cells₀' : CellMap},
      Branches.new store next = .ok db₀ → tables store CELL = cellRows cells₀ →
      Branches.new store' next' = .ok db₀' → tables store' CELL = cellRows cells₀' →
      ∀ (calls calls' : List Call) (b b' : BranchId),
        SameView (runCalls H R calls db₀) b (runCalls H R calls' db₀') b' →
        ∀ s s', ((Branches.sealBranch H R b).exec (runCalls H R calls db₀)).1 = .ok s →
          ((Branches.sealBranch H R b').exec (runCalls H R calls' db₀')).1 = .ok s' → s = s') ∧
    ∀ {config config' : OpenConfig} {db db' : Branches σ}, Created H config db → Created H config' db' →
      ∀ (ops ops' : List Op) (b b' : BranchId), SameView (run H R ops db) b (run H R ops' db') b' →
        (∀ s s', ((Branches.sealBranch H R b).exec (run H R ops db)).1 = .ok s →
          ((Branches.sealBranch H R b').exec (run H R ops' db')).1 = .ok s' → s = s') ∧
        (Set.InjOn H.hash {x | x ∈ runPreimages H R config.genesis (ops ++ [.sealBranch b]) db} →
          Set.InjOn H.hash {x | x ∈ runPreimages H R config'.genesis (ops' ++ [.sealBranch b']) db'} →
          ((Branches.sealBranch H R b).exec (run H R ops db)).1
            = ((Branches.sealBranch H R b').exec (run H R ops' db')).1) := by
  refine ⟨fun hnew hcells hnew' hcells' calls calls' b b' hview s s' hs hs' => ?_,
    fun {config config' db db'} h h' ops ops' b b' hview => ?_⟩
  · obtain ⟨head₀, h₀, -⟩ := managed_new (H := H) (R := R) hnew hcells
    obtain ⟨head₀', h₀', -⟩ := managed_new (H := H) (R := R) hnew' hcells'
    obtain ⟨head, cells, hm⟩ := h₀.runCalls calls
    obtain ⟨head', cells', hm'⟩ := h₀'.runCalls calls'
    exact seals_alike hm hm' hview hs hs'
  · obtain ⟨hist₁, head₁, hinv, -⟩ := h.run (R := R) ops
    obtain ⟨hist₁', head₁', hinv', -⟩ := h'.run (R := R) ops'
    have hok : ∀ s s', ((Branches.sealBranch H R b).exec (run H R ops db)).1 = .ok s →
        ((Branches.sealBranch H R b').exec (run H R ops' db')).1 = .ok s' → s = s' :=
      fun s s' hs hs' => seals_alike hinv.managed hinv'.managed hview hs hs'
    refine ⟨hok, fun hinj hinj' => ?_⟩
    obtain ⟨hsame, head, st, st', m, hh, hb, hb', hc, hc', -, -⟩ := hview
    have hh' : HeadIs (tables (run H R ops' db').store) head := hsame ▸ hh
    cases hsucc : checkedSucc head.commitId with
    | none =>
      obtain rfl := HeadIs.unique hh hinv.head_is
      obtain rfl := HeadIs.unique hh' hinv'.head_is
      rw [seal_exhausted hinv.managed hb hc hsucc, seal_exhausted hinv'.managed hb' hc' hsucc]
    | some c =>
      have hlast : head.commitId.val + 1 < 2 ^ 64 := by
        unfold checkedSucc at hsucc
        split_ifs at hsucc with hlt
        exact hlt
      obtain ⟨hist, head₂, hset, -⟩ := run_settled h ops hinj (runPreimages_mono (List.prefix_append _ _))
      obtain ⟨hist', head₂', hset', -⟩ := run_settled h' ops' hinj' (runPreimages_mono (List.prefix_append _ _))
      obtain rfl := HeadIs.unique hh hset.head_is
      obtain rfl := HeadIs.unique hh' hset'.head_is
      obtain ⟨s, hs⟩ := hset.sealBranch_ok hinj hb hc hlast
        (sealPreimages_subset hset.head_is hset.cells hb hc (.inl rfl) List.prefix_rfl)
      obtain ⟨s', hs'⟩ := hset'.sealBranch_ok hinj' hb' hc' hlast
        (sealPreimages_subset hset'.head_is hset'.cells hb' hc' (.inl rfl) List.prefix_rfl)
      rw [hs, hs', hok s s' hs hs']

end Seals

/-- Two branches that create a record of their own and delete it again. -/
def twinOps : List Op :=
  [.begin, .begin, .create 0 demoKey rootCells, .delete 0 demoKey, .create 1 (takeArr 32 (ascii "other")) rootCells,
    .delete 1 (takeArr 32 (ascii "other"))]

/-- Two branches that get the same cells, one of them with a tombstone of a cell that is not there. -/
def twinCalls : List Call := [.begin, .begin, .write 0 demoGroup, .write 1 (.set ⟨65, ascii "name"⟩ none demoGroup)]

/-- Both branches begin at genesis, differ in their entries, show the same cells and seal. -/
def TwinSeals (db : Branches MemoryStore) : Prop :=
  Branches.head db = .ok 0 ∧ tables db.store CELL = cellRows (initialCells demoConfig.genesis) ∧
    (db.branches.get? 0).bind (fun st => (db.branches.get? 1).map fun st' =>
      decide (st.commitId = 0 ∧ st'.commitId = 0 ∧ st.overlay.entries ≠ st'.overlay.entries ∧
        (initialCells demoConfig.genesis).overlay st.overlay.entries
          = (initialCells demoConfig.genesis).overlay st'.overlay.entries)) = some true ∧
    ((Branches.sealBranch Trie.polyHash arrayRoaring 0).exec db).1.toBool = true ∧
    ((Branches.sealBranch Trie.polyHash arrayRoaring 1).exec db).1.toBool = true

lemma TwinSeals.view {db : Branches MemoryStore} {head : Head} {cells : CellMap}
    (h : Managed Trie.polyHash arrayRoaring head cells db) (ht : TwinSeals db) : SameView db 0 db 1 := by
  obtain ⟨hzero, hm, hcheck, -⟩ := ht
  obtain ⟨st, hb, hrest⟩ := Option.bind_eq_some_iff.mp hcheck
  obtain ⟨st', hb', hdec⟩ := Option.map_eq_some_iff.mp hrest
  obtain ⟨hc, hc', -, hshown⟩ := of_decide_eq_true hdec
  have hhead : readHead db.store.beginRead = .ok head.commitId := HeadIs.readHead (rows_beginRead _ ▸ h.head_is)
  have hid : head.commitId = 0 := Except.ok.inj (hhead.symm.trans hzero)
  exact ⟨rfl, head, st, st', _, h.head_is, hb, hb', hc.trans hid.symm, hc'.trans hid.symm, hm, hshown⟩

theorem run_seal_determined_demo :
    (∃ s, ((Branches.sealBranch Trie.polyHash arrayRoaring 0).exec
          (runCalls Trie.polyHash arrayRoaring twinCalls demoDb)).1 = .ok s ∧
      ((Branches.sealBranch Trie.polyHash arrayRoaring 1).exec
          (runCalls Trie.polyHash arrayRoaring twinCalls demoDb)).1 = .ok s) ∧
    ∃ s, ((Branches.sealBranch Trie.polyHash arrayRoaring 0).exec
          (run Trie.polyHash arrayRoaring twinOps demoDb)).1 = .ok s ∧
      ((Branches.sealBranch Trie.polyHash arrayRoaring 1).exec
          (run Trie.polyHash arrayRoaring twinOps demoDb)).1 = .ok s := by
  have hcalls : TwinSeals (runCalls Trie.polyHash arrayRoaring twinCalls demoDb) := by
    unfold TwinSeals
    decide +kernel
  have hops : TwinSeals (run Trie.polyHash arrayRoaring twinOps demoDb) := by
    unfold TwinSeals
    decide +kernel
  have hok : ∀ {db : Branches MemoryStore} {b : BranchId},
      ((Branches.sealBranch Trie.polyHash arrayRoaring b).exec db).1.toBool = true →
      ∃ s, ((Branches.sealBranch Trie.polyHash arrayRoaring b).exec db).1 = .ok s := fun {db b} h => by
    cases hx : ((Branches.sealBranch Trie.polyHash arrayRoaring b).exec db).1 with
    | ok s => exact ⟨s, rfl⟩
    | error e =>
      rw [hx] at h
      cases h
  have hcells := demoDb_created.initialized.1.cells
  obtain ⟨hraw, hapi⟩ := run_seal_determined Trie.polyHash arrayRoaring MemoryStore
  refine ⟨?_, ?_⟩
  · obtain ⟨-, -, -, h0, h1⟩ := id hcalls
    obtain ⟨s, hs⟩ := hok h0
    obtain ⟨s', hs'⟩ := hok h1
    obtain ⟨head₀, h₀, -⟩ := managed_new (H := Trie.polyHash) (R := arrayRoaring) demoDb_created.new hcells
    obtain ⟨head, cells, hm⟩ := h₀.runCalls twinCalls
    obtain rfl := hraw demoDb_created.new hcells demoDb_created.new hcells twinCalls twinCalls 0 1 (hcalls.view hm)
      s s' hs hs'
    exact ⟨s, hs, hs'⟩
  · obtain ⟨-, -, -, h0, h1⟩ := id hops
    obtain ⟨s, hs⟩ := hok h0
    obtain ⟨s', hs'⟩ := hok h1
    obtain ⟨hist, head, hinv, -⟩ := demoDb_created.run (R := arrayRoaring) twinOps
    obtain rfl := (hapi demoDb_created demoDb_created twinOps twinOps 0 1 (hops.view hinv.managed)).1 s s' hs hs'
    exact ⟨s, hs, hs'⟩

end GolemDb.Api
