import GolemDb.Api.Opening
import GolemDb.Api.Roots

/-!
Opening the store of a run. A run keeps the metadata rows of its genesis and in every committed
state the cells that an opening asks for, so after any run the genesis is accepted and the head
reported, and any other genesis is refused. Over any store an opening that creates nothing leaves
the committed rows (`run_reopens`).
-/

namespace GolemDb.Api

open GolemDb.Lib GolemDb.Storage GolemDb.Merkle GolemDb.Cells GolemDb.Index GolemDb.Branch GolemDb.Records

/-! ### Writers that can be walked -/

/-- The writers of a store keep the whole contract: their cursors walk the rows they show. -/
class WriterCursor (σ : Type) [Store σ] [LawfulStore σ] : Prop where
  lawful : ∃ L : LawfulTransaction (Store.Write σ), L.toLawfulWrite = LawfulStore.lawfulWrite

instance : WriterCursor MemoryStore := ⟨inferInstanceAs (LawfulTransaction MemoryWriteTransaction), rfl⟩

section Runs

variable {H : HashProvider} {R : Roaring} {σ : Type} [Store σ] [LawfulStore σ] {config : OpenConfig} {db : Branches σ}
  {hist : History} {head : Head} {g : Genesis} {Good Good' : StateProp} {P : Set Bytes}

lemma Inv.mono (h : Inv H R g Good hist head db) (hgood : ∀ r v, Good r v → Good' r v) : Inv H R g Good' hist head db :=
  ⟨h.head_is, h.last, h.cells, h.chain, hgood _ _ h.good, h.branches⟩

/-- The committed cells of a run have what an opening asks for. -/
lemma Inv.checked (h : Inv H R g Good hist head db) : Checked g head (hist head.commitId).cells := by
  refine ⟨h.chain.consistent _ le_rfl, h.chain.engine_kept _ le_rfl, fun h0 => by rw [h0, h.chain.genesis],
    fun hne => ?_⟩
  have hprev : (head.commitId - 1 : CommitId) < head.commitId := Fin.sub_one_lt_iff.mpr (Fin.pos_iff_ne_zero.mpr hne)
  have hname : (head.commitId - 1 : CommitId).toBeBytes ≠ Reserved.KEY := by
    intro he
    have hlen : Reserved.KEY.length = 8 := by rw [← he, U64.toBeBytes_length]
    exact absurd hlen (by decide)
  exact ⟨_, (h.chain.roots _ le_rfl _ _ hname).mpr ⟨_, hprev, rfl, rfl⟩⟩

/-- The states of a run are settled and keep the metadata of their genesis. -/
lemma run_formatted (h : Created H config db) (ops : List Op) (hinj : Set.InjOn H.hash P)
    (hP : ∀ x ∈ runPreimages H R config.genesis ops db, x ∈ P) :
    ∃ hist head, Inv H R config.genesis (fun r v => Settled H R P r v ∧ Formatted H config.genesis r) hist head
      (run H R ops db) := by
  obtain ⟨store, info, hopen, hc⟩ := h.opened
  have hformat : Formatted H config.genesis (tables db.store) := (openStore_writes hopen hc).formatted
  obtain ⟨hist, head, hinv, hzero⟩ : ∃ hist head,
      Inv H R config.genesis (fun r v => Settled H R P r v ∧ Formatted H config.genesis r) hist head db ∧
        head.commitId = 0 :=
    h.inv fun head hhead =>
      ⟨h.initialized.1.settled hinj (fun x hx => hP x (List.mem_append_left _ hx)) hhead, hformat⟩
  obtain ⟨hist', head', hinv', -⟩ := hinv.run hzero ops fun part b hpart hist head hinv st origin s hb hc hr hs =>
    ⟨(hinv.mono fun _ _ hg => hg.1).publishes_settled hinj
      (fun x hx => hP x (List.mem_append_right _ (occurring_concat hpart _ x hx))) st origin s hb hc hr hs,
      hinv.good.2.published hr hs⟩
  exact ⟨hist', head', hinv'⟩

/-- What an opening reports as the identity. -/
lemma prepare_genesisId {τ : Type} [WriteTransaction τ] {tx tx' : τ} {info : OpenInfo}
    (hrun : Prog.Runs (prepare H config) tx info tx') :
    info.genesisId = identity H config.genesis (initialCells config.genesis) := by
  unfold prepare at hrun
  obtain ⟨found, tx₁, -, h⟩ := Prog.runs_bind_iff.mp hrun
  by_cases hnone : found.isNone = true
  · rw [if_pos hnone] at h
    obtain ⟨empty, tx₂, -, h⟩ := Prog.runs_bind_iff.mp h
    obtain ⟨-, h⟩ := Prog.runs_guard h
    obtain ⟨-, h⟩ := Prog.runs_guard h
    obtain ⟨head, tx₃, -, h⟩ := Prog.runs_bind_iff.mp h
    obtain ⟨rfl, -⟩ := Prog.runs_pure_iff.mp h
    rfl
  · rw [if_neg hnone] at h
    obtain ⟨format, tx₂, -, h⟩ := Prog.runs_bind_iff.mp h
    obtain ⟨-, h⟩ := Prog.runs_guard h
    obtain ⟨hash, tx₃, -, h⟩ := Prog.runs_bind_iff.mp h
    obtain ⟨-, h⟩ := Prog.runs_guard h
    obtain ⟨roaring, tx₄, -, h⟩ := Prog.runs_bind_iff.mp h
    obtain ⟨-, h⟩ := Prog.runs_guard h
    obtain ⟨storedId, tx₅, -, h⟩ := Prog.runs_bind_iff.mp h
    obtain ⟨-, h⟩ := Prog.runs_guard h
    obtain ⟨head, tx₆, -, h⟩ := Prog.runs_bind_iff.mp h
    obtain ⟨⟨⟩, tx₇, -, h⟩ := Prog.runs_bind_iff.mp h
    obtain ⟨-, h⟩ := Prog.runs_guard h
    obtain ⟨rfl, -⟩ := Prog.runs_pure_iff.mp h
    rfl

omit [LawfulStore σ] in
/-- An opening under the genesis of a store whose checks pass. -/
lemma openStore_of_prepare (config : OpenConfig) {store : σ} {tx : Store.Write σ}
    (htx : Store.beginWrite store = .ok tx)
    (hvalid : config.genesis.validate (Store.maxKeySize store) (Store.maxValueSize store) = .ok ())
    {r : Except OpenError OpenInfo}
    {tx' : Store.Write σ} (hp : (prepare H config).exec tx = (r, tx'))
    (hr : ∀ info, r = .ok info → info.created = false) :
    (openStore H config).exec store = (r, store) := by
  show openStore H config store = _
  unfold openStore
  rw [hvalid, htx]
  simp only [hp]
  cases r with
  | error e => rfl
  | ok info =>
    simp only [hr info rfl]
    rfl

/-- A created database reports the identity of its genesis. -/
lemma openStore_genesisId {store store' : σ} {info : OpenInfo}
    (hopen : Prog.Runs (openStore H config) store info store') :
    info.genesisId = identity H config.genesis (initialCells config.genesis) := by
  have hopen' : openStore H config store = (.ok info, store') := hopen
  unfold openStore at hopen'
  obtain ⟨tx, htx, -⟩ := LawfulStore.beginWrite_eq store
  rw [htx] at hopen'
  cases hv : config.genesis.validate (Store.maxKeySize store) (Store.maxValueSize store) with
  | error e =>
    rw [hv] at hopen'
    cases hopen'
  | ok u =>
    rcases hp : (prepare H config).exec tx with ⟨e | info', tx'⟩
    · simp only [hv, hp] at hopen'
      cases hopen'
    · simp only [hv, hp] at hopen'
      have hid := prepare_genesisId hp
      split_ifs at hopen' with hc
      · obtain ⟨store₁, hcommit, -⟩ := LawfulStore.commit_eq store tx'
        rw [show (Store.commit tx').exec store = _ from hcommit] at hopen'
        rw [← Except.ok.inj (Prod.mk.inj hopen').1, hid]
      · rw [← Except.ok.inj (Prod.mk.inj hopen').1, hid]

/-- **How a committed state opens again.** -/
structure Reopens (H : HashProvider) (g : Genesis) (genesisId : Hash) (head : Head) (store : σ) : Prop where
  /-- Under its genesis the head is reported. -/
  same : ∀ mode, mode ≠ .createNew →
    (openStore H ⟨g, mode⟩).exec store = (.ok (OpenInfo.new false head genesisId), store)
  createNew : (openStore H ⟨g, .createNew⟩).exec store = (.error .alreadyInitialized, store)
  /-- Under any other genesis it is refused. -/
  other : ∀ (H' : HashProvider) (config' : OpenConfig), config'.genesis ≠ g →
    config'.genesis.validate (Store.maxKeySize store) (Store.maxValueSize store) = .ok () →
    (config'.genesis.hashFunction = g.hashFunction → H' = H) →
    Set.InjOn H.hash {identityBytes g (initialCells g), identityBytes config'.genesis (initialCells config'.genesis)} →
    (openStore H' config').exec store = (.error .genesisMismatch, store)

/-- A settled state that is formatted and has what is asked for opens again. -/
lemma reopens_of_settled {τ : Type} [WriteTransaction τ] [LawfulTransaction τ] {tx : τ} {r : Table → Rows} {m : CellMap}
    (hinj : Set.InjOn H.hash P) (hr : rows tx = r) (hs : Settled H R P r ⟨head, m⟩) (hf : Formatted H g r)
    (hh : HeadIs r head) (hc : Checked g head m) :
    (∀ mode, ∃ tx', (prepare H ⟨g, mode⟩).exec tx = (if mode = .createNew then .error .alreadyInitialized
      else .ok (OpenInfo.new false head (identity H g (initialCells g))), tx')) ∧
    ∀ (H' : HashProvider) (config' : OpenConfig), config'.genesis ≠ g →
      (config'.genesis.hashFunction = g.hashFunction → H' = H) →
      Set.InjOn H.hash {identityBytes g (initialCells g),
        identityBytes config'.genesis (initialCells config'.genesis)} →
      (prepare H' config').exec tx = (.error .genesisMismatch, tx) := by
  subst hr
  refine ⟨fun mode => ?_, fun H' config' hne hH hid => ?_⟩
  · obtain ⟨tx', hv⟩ := runs_validateState hinj hs hc
    refine ⟨tx', ?_⟩
    have hp : (prepare H ⟨g, mode⟩).exec tx = _ := prepare_validated hf hh hv
    rw [hp]
    split_ifs <;> rfl
  · refine prepare_mismatch hf hh ?_
    by_cases hfun : config'.genesis.hashFunction = g.hashFunction
    · right
      rw [hH hfun]
      intro he
      exact hne (identityBytes_inj (hid (Set.mem_insert _ _) (Set.mem_insert_of_mem _ rfl) he)).symm
    · left
      intro he
      refine hfun ?_
      cases hg : g.hashFunction <;> cases hg' : config'.genesis.hashFunction <;> rw [hg, hg'] at he <;>
        first | rfl | cases he

/-- **Every state of a run opens again, and an opening that creates nothing writes nothing.** After any
run the genesis of the run is accepted and the head reported under the identity of the creation, a creation
is refused, and so is every other genesis; and over any store, whatever it holds and whichever operation
fails, an opening that creates nothing leaves the committed rows. -/
theorem run_reopens [WriterCursor σ] (h : Created H config db) (ops : List Op)
    (hinj : Set.InjOn H.hash {x | x ∈ runPreimages H R config.genesis ops db})
    (hvalid : config.genesis.validate (Store.maxKeySize (run H R ops db).store)
      (Store.maxValueSize (run H R ops db).store) = .ok ()) :
    (∃ (store : σ) (info : OpenInfo) (head : Head), Prog.Runs (openStore H config) store info db.store ∧
      info.created = true ∧
      HeadIs (tables (run H R ops db).store) head ∧ Reopens H config.genesis info.genesisId head
        (run H R ops db).store) ∧
    (∀ (σ' : Type) [Store σ'] [LawfulStore σ'] (H' : HashProvider) (config' : OpenConfig) (store : σ'),
      (∀ info, ((openStore H' config').exec store).1 = .ok info → info.created = false) →
        ((openStore H' config').exec store).2 = store) ∧
    ∀ (σ' : Type) [Store σ'] [FallibleStore σ'] (H' : HashProvider) (config' : OpenConfig) (store : σ'),
      (∀ info, ((openStore H' config').exec store).1 = .ok info → info.created = false) →
        held ((openStore H' config').exec store).2 = held store := by
  refine ⟨?_, fun σ' _ _ H' config' store => openStore_same store, fun σ' _ _ H' config' store => openStore_held store⟩
  obtain ⟨store, info, hopen, hc⟩ := h.opened
  obtain ⟨hist, head, hinv⟩ := run_formatted h ops hinj fun x hx => hx
  refine ⟨store, info, head, hopen, hc, hinv.head_is, ?_⟩
  obtain ⟨L, hL⟩ := WriterCursor.lawful (σ := σ)
  obtain ⟨tx, htx, hrows⟩ := LawfulStore.beginWrite_eq (run H R ops db).store
  rw [← hL] at hrows
  have hv : hist head.commitId = ⟨head, (hist head.commitId).cells⟩ := by
    show (⟨(hist head.commitId).head, (hist head.commitId).cells⟩ : Version) = _
    rw [hinv.last]
  have hsettled := hinv.good.1
  rw [hv] at hsettled
  obtain ⟨hsame, hother⟩ := reopens_of_settled hinj hrows hsettled hinv.good.2 hinv.head_is hinv.checked
  rw [openStore_genesisId hopen]
  refine ⟨fun mode hmode => ?_, ?_, fun H' config' hne hvalid' hH hid => ?_⟩
  · obtain ⟨tx', hp⟩ := hsame mode
    rw [if_neg hmode] at hp
    exact openStore_of_prepare ⟨config.genesis, mode⟩ htx hvalid hp fun info he => by rw [← Except.ok.inj he]; rfl
  · obtain ⟨tx', hp⟩ := hsame .createNew
    rw [if_pos rfl] at hp
    exact openStore_of_prepare ⟨config.genesis, .createNew⟩ htx hvalid hp (by rintro _ ⟨⟩)
  · exact openStore_of_prepare config' htx hvalid' (hother H' config' hne hH hid) (by rintro _ ⟨⟩)

/-- Another genesis, and an opening of a store that holds a row but no head. -/
def otherConfig : OpenConfig := ⟨⟨.keccak256, ⟨32, 64, 64⟩⟩, .createIfMissing⟩

theorem run_reopens_demo : ∃ head genesisId,
    (openStore Trie.polyHash ⟨demoConfig.genesis, .existingOnly⟩).exec
      (run Trie.polyHash arrayRoaring rootOps demoDb).store
      = (.ok (OpenInfo.new false head genesisId), (run Trie.polyHash arrayRoaring rootOps demoDb).store) ∧
    (openStore Trie.polyHash otherConfig).exec (run Trie.polyHash arrayRoaring rootOps demoDb).store
      = (.error .genesisMismatch, (run Trie.polyHash arrayRoaring rootOps demoDb).store) ∧
    ((openStore Trie.polyHash demoConfig).exec (⟨OrdMap.empty.insert CELL OrdMap.empty⟩ : MemoryStore)).2
      = ⟨OrdMap.empty.insert CELL OrdMap.empty⟩ := by
  obtain ⟨⟨store, info, head, -, -, -, hreopens⟩, hsame, -⟩ := run_reopens demoDb_created rootOps rootOps_injOn
    (show demoConfig.genesis.validate (2 ^ 64 - 1) (2 ^ 64 - 1) = .ok () by decide)
  have hids : ∀ a ∈ [identityBytes demoConfig.genesis (initialCells demoConfig.genesis),
      identityBytes otherConfig.genesis (initialCells otherConfig.genesis)],
      ∀ b ∈ [identityBytes demoConfig.genesis (initialCells demoConfig.genesis),
        identityBytes otherConfig.genesis (initialCells otherConfig.genesis)],
        Trie.polyHash.hash a = Trie.polyHash.hash b → a = b := by decide +kernel
  refine ⟨head, info.genesisId, hreopens.same .existingOnly (by decide),
    hreopens.other Trie.polyHash otherConfig (by decide)
    (show otherConfig.genesis.validate (2 ^ 64 - 1) (2 ^ 64 - 1) = .ok () by decide) (fun _ => rfl)
    (fun a ha b hb => hids a (by simpa using ha) b (by simpa using hb)),
      hsame MemoryStore Trie.polyHash demoConfig _ ?_⟩
  have hfail : ((openStore Trie.polyHash demoConfig).exec (⟨OrdMap.empty.insert CELL OrdMap.empty⟩ : MemoryStore)).1
      = .error (.corruptState "storage contains tables or rows but has no head") := by decide +kernel
  rw [hfail]
  rintro _ ⟨⟩

end Runs

end GolemDb.Api
