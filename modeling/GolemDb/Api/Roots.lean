import GolemDb.Api.Commitment
import GolemDb.Branch.Binding

/-!
What holds of the roots and the index in every state of a run. The roots of the head are those of
its tables and open again (`run_roots_match`), the index is the inverse of the attributes
(`run_index_inverse`), a branch over the head seals (`run_seals`), and equal roots of two runs
belong to equal tables (`runs_bind`).
-/

namespace GolemDb.Api

open GolemDb.Lib GolemDb.Storage GolemDb.Merkle GolemDb.Cells GolemDb.Index GolemDb.Branch GolemDb.Records

/-! ### Roots and tables -/

section Match

variable (H : HashProvider) (R : Roaring)

/-- The root of a Cell table, and that of an Index table. -/
def cellTableRoot (F : Rows) : RootRef 32 := flatRoot (cellTrie H) CELL_LEAF_DOMAIN F

def indexTableRoot (F : Rows) : RootRef 32 := flatRoot (indexTrie H) INDEX_LEAF_DOMAIN F

/-- **The roots of a head match the tables.** -/
structure RootsMatch (r : Table → Rows) (head : Head) : Prop where
  state : head.stateRoot = (cellTableRoot H (r CELL)).hash H
  index : head.indexRoot = (indexTableRoot H (r INDEX)).hash H
  /-- The rows of the Index table are the digests of the posting sets, which read back. -/
  postings : ∃ M : Postings, (∀ key value, (r INDEX).get? key = some value ↔
      ∃ t : IndexTerm, key = t.bytes ∧ M.ids t ≠ OrdMap.empty ∧ value = ((setRoot H R (M.ids t)).hash H).1) ∧
    ∀ (ρ : Type) [ReadTransaction ρ] [LawfulCursor ρ] (tx : ρ), rows tx = r → ∀ t,
      Index.bitmap H R tx t = .ok (if M.ids t = OrdMap.empty then none else some ⟨M.ids t⟩)
  /-- The digests open again. -/
  reopens : ∀ (ρ : Type) [ReadTransaction ρ] [LawfulCursor ρ] (tx : ρ), rows tx = r →
    Cells.reopen H tx head.stateRoot = .ok (cellTableRoot H (r CELL)) ∧
    Index.reopen H tx head.indexRoot = .ok (indexTableRoot H (r INDEX))

variable {H R} {P : Set Bytes} {r : Table → Rows} {v : Version}

/-- **A settled state has matching roots.** -/
theorem Settled.rootsMatch (hinj : Set.InjOn H.hash P) (h : Settled H R P r v) : RootsMatch H R r v.head := by
  have hcells := h.holds.cells
  have hindex := h.holds.index
  refine ⟨?_, ?_, ⟨cellPostings v.cells, fun key value => ?_, fun ρ _ _ tx htx t => ?_⟩, fun ρ _ _ tx htx => ⟨?_, ?_⟩⟩
  · rw [h.head, cellTableRoot, hcells.table]
    rfl
  · rw [h.head, indexTableRoot, hindex.table]
    rfl
  · rw [hindex.table, termRows, OrdMap.get?_relabel_eq_some]
    refine exists_congr fun t => ?_
    constructor
    · rintro ⟨digest, rfl, rfl, hd⟩
      rw [get?_digests, setDigest] at hd
      split_ifs at hd with hne
      exact ⟨rfl, hne, by rw [← Option.some.inj hd]⟩
    · rintro ⟨rfl, hne, rfl⟩
      exact ⟨_, rfl, rfl, by rw [get?_digests, setDigest, if_neg hne]⟩
  · exact bitmap_represents hinj (htx ▸ hindex) t
  · rw [h.head, cellTableRoot, hcells.table]
    exact Cells.reopen_eq hinj (htx ▸ hcells)
  · rw [h.head, indexTableRoot, hindex.table]
    exact reopen_represents hinj (htx ▸ hindex)

end Match

/-! ### A run in memory -/

/-- A record with an attribute. -/
def rootCells : RecordCells :=
  OrdMap.empty.insert (ascii "name") { CellValue.fromU64 7 with indexable := true, ordered := by decide }

def rootOps : List Op := [.begin, .create 0 demoKey rootCells, .commit 0]

/-- The polynomial hash separates what the run hashes. -/
lemma rootOps_injOn : Set.InjOn Trie.polyHash.hash
    {x | x ∈ runPreimages Trie.polyHash arrayRoaring demoConfig.genesis rootOps demoDb} :=
  polyHash_injOn (by decide +kernel)

/-! ### Roots along runs -/

section Runs

variable {H : HashProvider} {R : Roaring} {σ : Type} [Store σ] [LawfulStore σ] {config : OpenConfig} {db : Branches σ}

/-- **Roots match the tables along every run**, and the last batches of the run returned them. -/
theorem run_roots_match (h : Created H config db) (ops : List Op)
    (hinj : Set.InjOn H.hash {x | x ∈ runPreimages H R config.genesis ops db}) :
    (∃ head, HeadIs (tables (run H R ops db).store) head ∧ RootsMatch H R (tables (run H R ops db).store) head) ∧
    (∀ (tx tx' : Store.Write σ) (u : CellsUpdate), (∀ t, t ≠ SUPERBLOCK → rows tx t = OrdMap.empty) →
      Prog.Runs (Cells.apply H .empty (genesisChanges config.genesis)) tx u tx' →
      u.root = cellTableRoot H (tables db.store CELL) ∧ .empty = indexTableRoot H (tables db.store INDEX)) ∧
    ∀ part b c db', part ++ [.commit b] <+: ops → (Branches.commit H R b).exec (run H R part db) = (.ok c, db') →
      ∃ (st : BranchState) (origin : Store.Read σ) (s : SealedCommit),
        (run H R part db).branches.get? b = some st ∧ rows origin = tables (run H R part db).store ∧
        compute H R origin st.overlay = .ok s ∧ tables db'.store = publishedRows (tables (run H R part db).store) s ∧
        s.cells.root = cellTableRoot H (tables db'.store CELL) ∧
        s.index.root = indexTableRoot H (tables db'.store INDEX) := by
  refine ⟨?_, fun tx tx' u hempty hrun => ?_, fun part b c db' hpart hcommit => ?_⟩
  · obtain ⟨hist, head, hinv, -⟩ := run_settled h ops hinj fun x hx => hx
    refine ⟨head, hinv.head_is, ?_⟩
    have hmatch := hinv.good.rootsMatch hinj
    rwa [hinv.last] at hmatch
  · have hP : ∀ x ∈ statePreimages H R (initialCells config.genesis),
        x ∈ {x | x ∈ runPreimages H R config.genesis ops db} :=
      fun x hx => List.mem_append_left _ hx
    obtain ⟨_, _, _, _, _, hzero, _⟩ := id h.initialized.1
    have hsettled := h.initialized.1.settled hinj hP hzero
    refine ⟨?_, ?_⟩
    · rw [(apply_genesis hinj hP hempty hrun).1, cellTableRoot, hsettled.holds.cells.table]
      rfl
    · rw [indexTableRoot, hsettled.holds.index.table, cellPostings_initial]
      rfl
  · obtain ⟨hist, head, hinv, -⟩ := run_settled h part hinj
      (runPreimages_mono ((List.prefix_append _ _).trans hpart))
    rcases hinv.managed.commit b with ⟨e, he⟩ | he | ⟨st, origin, s, store', hb, hc, hr, hcomp, ht, he, -⟩
    · cases (Prod.mk.inj (hcommit.symm.trans he)).1
    · cases (Prod.mk.inj (hcommit.symm.trans he)).1
    · obtain ⟨-, rfl⟩ := Prod.mk.inj (hcommit.symm.trans he)
      have hP : ∀ x ∈ sealPreimages H R head.commitId (hist head.commitId).cells st.overlay,
          x ∈ {x | x ∈ runPreimages H R config.genesis ops db} :=
        sealPreimages_subset hinv.head_is hinv.cells hb hc (.inr rfl) hpart
      obtain ⟨s', hs', -, hsettled, hstaged⟩ := hinv.seals hinj hb hc (hinv.managed.compute_head hr hcomp).1 hP hr
      obtain rfl := Except.ok.inj (hs'.symm.trans hcomp)
      refine ⟨st, origin, s', hb, hr, hcomp, ht, ?_, ?_⟩
      · show s'.cells.root = cellTableRoot H (tables store' CELL)
        rw [ht, hsettled.holds.cells.table, hstaged.cellRoot]
        rfl
      · show s'.index.root = indexTableRoot H (tables store' INDEX)
        rw [ht, hsettled.holds.index.table, hstaged.indexRoot]
        rfl

theorem run_roots_match_demo : ∃ head, HeadIs (tables (run Trie.polyHash arrayRoaring rootOps demoDb).store) head ∧
    RootsMatch Trie.polyHash arrayRoaring (tables (run Trie.polyHash arrayRoaring rootOps demoDb).store) head :=
  (run_roots_match demoDb_created rootOps rootOps_injOn).1

/-! ### The index -/

/-- **The index is the inverse of the attributes along every run.** A term's bitmap holds the ids
of the records whose cell of the term's name is an attribute of its type and payload, and a term
has a row exactly if there is one. -/
theorem run_index_inverse (h : Created H config db) (ops : List Op)
    (hinj : Set.InjOn H.hash {x | x ∈ runPreimages H R config.genesis ops db}) (ρ : Type) [ReadTransaction ρ]
    [LawfulCursor ρ] (tx : ρ) (htx : rows tx = tables (run H R ops db).store) (t : IndexTerm) :
    ∃ found : Option Bitmap, Index.bitmap H R tx t = .ok found ∧
      (∀ name ty payload, TermParts name ty payload → t.bytes = termBytes name ty payload → ∀ r : U64,
        (∃ set, found = some set ∧ r ∈ set.values) ↔ ∃ v : CellValue,
          (rows tx CELL).get? (CellKey.encode ⟨r, name⟩) = some v.encode ∧ v.indexable = true ∧ v.ty = ty ∧
            v.value = payload) ∧
      ((rows tx INDEX).get? t.bytes ≠ none ↔ ∃ r set, found = some set ∧ r ∈ set.values) := by
  obtain ⟨hist, head, hinv, -⟩ := run_settled h ops hinj fun x hx => hx
  have hholds := hinv.good.holds
  have hcells := hholds.cells.table
  have hindex := hholds.index
  rw [← htx] at hcells hindex
  obtain ⟨m, hm⟩ : ∃ m, m = (hist head.commitId).cells := ⟨_, rfl⟩
  rw [← hm] at hcells hindex
  have hmem :
      ∀ r, (∃ set, (if (cellPostings m).ids t = OrdMap.empty then none else some (⟨(cellPostings m).ids t⟩ : Bitmap))
      = some set ∧ r ∈ set.values) ↔ r ∈ (cellPostings m).ids t := by
    intro r
    split_ifs with hempty
    · rw [hempty]
      simp
    · simp
  refine ⟨_, bitmap_represents hinj hindex t, fun name ty payload hparts hbytes r => ?_, ?_⟩
  · rw [hmem, mem_cellPostings, hcells]
    constructor
    · rintro ⟨k, v, hk, rfl, ht⟩
      obtain ⟨hi, hp, hb⟩ := term_eq_some.mp (attributeTerm_eq_some.mp ht)
      obtain ⟨hname, hty, hpayload⟩ := IndexTerm.termBytes_inj hp.1 hparts.1 (hb.symm.trans hbytes)
      refine ⟨v, ?_, hi, hty, hpayload⟩
      rw [get?_cellRows, show (⟨k.recordId, name⟩ : CellKey) = k by rw [← hname], hk]
      rfl
    · rintro ⟨v, hv, hi, rfl, rfl⟩
      rw [get?_cellRows] at hv
      obtain ⟨w, hw, he⟩ := Option.map_eq_some_iff.mp hv
      obtain rfl := CellValue.encode_inj he
      exact ⟨_, _, hw, rfl, attributeTerm_eq_some.mpr (term_eq_some.mpr ⟨hi, hparts, hbytes⟩)⟩
  · rw [hindex.table, get?_termRows, get?_digests, setDigest]
    constructor
    · intro hne
      have hids : (cellPostings m).ids t ≠ OrdMap.empty := fun he => hne (by rw [if_pos he]; rfl)
      obtain ⟨r, hr⟩ := not_forall_not.mp fun hall => hids (OrdSet.eq_empty_iff.mpr hall)
      obtain ⟨set, hset⟩ := (hmem r).mpr hr
      exact ⟨r, set, hset⟩
    · rintro ⟨r, set, hset⟩
      have hr := (hmem r).mp ⟨set, hset⟩
      have hids : (cellPostings m).ids t ≠ OrdMap.empty := fun he => OrdSet.not_mem_empty r (he ▸ hr)
      rw [if_neg hids]
      exact Option.some_ne_none _

/-- The term of the attribute. -/
def rootTerm : IndexTerm :=
  ⟨termBytes (ascii "name") (.uint .w8) (CellValue.fromU64 7).value, ascii "name", .uint .w8, _,
    ⟨validateName_ok.mp (by decide), by decide, (CellValue.fromU64 7).valid⟩, rfl⟩

theorem run_index_inverse_demo : ∃ found,
    Index.bitmap Trie.polyHash arrayRoaring (run Trie.polyHash arrayRoaring rootOps demoDb).store.beginRead rootTerm
      = .ok found ∧
    ((∃ set, found = some set ∧ 64 ∈ set.values) ↔ ∃ v : CellValue,
      (rows (run Trie.polyHash arrayRoaring rootOps demoDb).store.beginRead CELL).get?
        (CellKey.encode ⟨64, ascii "name"⟩)
        = some v.encode ∧ v.indexable = true ∧ v.ty = .uint .w8 ∧ v.value = (CellValue.fromU64 7).value) := by
  obtain ⟨found, hfound, hmem, -⟩ := run_index_inverse demoDb_created rootOps rootOps_injOn MemoryReadTransaction
    (run Trie.polyHash arrayRoaring rootOps demoDb).store.beginRead (rows_beginRead _) rootTerm
  exact ⟨found, hfound, hmem (ascii "name") (.uint .w8) (CellValue.fromU64 7).value
    ⟨validateName_ok.mp (by decide), by decide, (CellValue.fromU64 7).valid⟩ rfl 64⟩

/-! ### Seals -/

/-- A settled database seals a branch over the head, below the last commit number. -/
lemma Inv.sealBranch_ok {P : Set Bytes} {g : Genesis} {hist : History} {head : Head} {b : BranchId} {st : BranchState}
    (hinj : Set.InjOn H.hash P) (h : Inv H R g (Settled H R P) hist head db) (hb : db.branches.get? b = some st)
    (hc : st.commitId = head.commitId) (hlast : head.commitId.val + 1 < 2 ^ 64)
    (hP : ∀ x ∈ sealPreimages H R head.commitId (hist head.commitId).cells st.overlay, x ∈ P) :
    ∃ s, ((Branches.sealBranch H R b).exec db).1 = .ok s := by
  obtain ⟨origin, hr, he⟩ := seal_live h.head_is hb hc (H := H) (R := R)
  unfold BranchState.sealState at he
  cases hs : st.sealed with
  | some s => exact ⟨s, by rw [he, hs]; rfl⟩
  | none =>
    have hsucc : checkedSucc head.commitId = some ⟨head.commitId.val + 1, hlast⟩ := dif_pos hlast
    obtain ⟨s, hcomp, -⟩ := h.seals hinj hb hc hsucc hP hr
    rw [hs] at he
    simp only [hcomp, ok_bind] at he
    exact ⟨s, he⟩

/-- **A branch over the head seals in every state of a run**, below the last commit number. -/
theorem run_seals (h : Created H config db) (ops : List Op) {b : BranchId} {st : BranchState} {head : Head}
    (hb : (run H R ops db).branches.get? b = some st) (hh : HeadIs (tables (run H R ops db).store) head)
    (hc : st.commitId = head.commitId) (hlast : head.commitId.val + 1 < 2 ^ 64)
    (hinj : Set.InjOn H.hash {x | x ∈ runPreimages H R config.genesis (ops ++ [.sealBranch b]) db}) :
    ∃ s, ((Branches.sealBranch H R b).exec (run H R ops db)).1 = .ok s := by
  obtain ⟨hist, head', hinv, -⟩ := run_settled h ops hinj (runPreimages_mono (List.prefix_append _ _))
  obtain rfl := HeadIs.unique hh hinv.head_is
  exact hinv.sealBranch_ok hinj hb hc hlast
    (sealPreimages_subset hinv.head_is hinv.cells hb hc (.inl rfl) List.prefix_rfl)

theorem run_seals_demo : ∃ s, ((Branches.sealBranch Trie.polyHash arrayRoaring 0).exec
    (run Trie.polyHash arrayRoaring [.begin, .create 0 demoKey rootCells] demoDb)).1 = .ok s := by
  obtain ⟨hbranch, hzero⟩ :
      ((run Trie.polyHash arrayRoaring [.begin, .create 0 demoKey rootCells] demoDb).branches.get? 0).map
        BranchState.commitId = some 0 ∧
      Branches.head (run Trie.polyHash arrayRoaring [.begin, .create 0 demoKey rootCells] demoDb) = .ok 0 := by
    decide +kernel
  obtain ⟨st, hb, hc⟩ := Option.map_eq_some_iff.mp hbranch
  obtain ⟨hist, head, hinv, -⟩ := demoDb_created.run (R := arrayRoaring) [.begin, .create 0 demoKey rootCells]
  have hhead : readHead (run Trie.polyHash arrayRoaring [.begin, .create 0 demoKey rootCells] demoDb).store.beginRead
      = .ok head.commitId := HeadIs.readHead (rows_beginRead _ ▸ hinv.head_is)
  have hdef : ∀ db : Branches MemoryStore, Branches.head db = readHead db.store.beginRead := fun _ => rfl
  rw [hdef, hhead] at hzero
  have hid : head.commitId = 0 := Except.ok.inj hzero
  refine run_seals demoDb_created _ hb hinv.head_is (hc.trans hid.symm) (by rw [hid]; decide) ?_
  rw [runPreimages_seal]
  exact rootOps_injOn

end Runs

/-! ### Two runs -/

section Runs

variable {H : HashProvider} {R : Roaring} {σ σ' : Type} [Store σ] [LawfulStore σ] [Store σ'] [LawfulStore σ']
  {config config' : OpenConfig} {db : Branches σ} {db' : Branches σ'}

/-- **Roots bind the states of any two runs.** Equal state roots belong to equal Cell tables, equal
index roots to equal posting sets, and the nodes of the two states share a digest only if they have
the same bytes under the same domain. -/
theorem runs_bind (h : Created H config db) (h' : Created H config' db') (ops ops' : List Op)
    (hinj : Set.InjOn H.hash {x | x ∈ runPreimages H R config.genesis ops db ∨
      x ∈ runPreimages H R config'.genesis ops' db'}) :
    ∃ head head' m m', HeadIs (tables (run H R ops db).store) head ∧ HeadIs (tables (run H R ops' db').store) head' ∧
      tables (run H R ops db).store CELL = cellRows m ∧ tables (run H R ops' db').store CELL = cellRows m' ∧
      (head.stateRoot = head'.stateRoot → tables (run H R ops db).store CELL = tables (run H R ops' db').store CELL) ∧
      (head.indexRoot = head'.indexRoot → tables (run H R ops db).store INDEX = tables (run H R ops' db').store INDEX ∧
        ∀ (ρ ρ' : Type) [ReadTransaction ρ] [LawfulCursor ρ] [ReadTransaction ρ'] [LawfulCursor ρ'] (tx : ρ) (tx' : ρ'),
          rows tx = tables (run H R ops db).store → rows tx' = tables (run H R ops' db').store → ∀ t,
            ∃ found, Index.bitmap H R tx t = .ok found ∧ Index.bitmap H R tx' t = .ok found) ∧
      (∀ k k' x x', x ∈ nodes H R m k → x' ∈ nodes H R m' k' → H.hash x = H.hash x' → k = k' ∧ x = x') ∧
      (head.stateRoot = (cellRoot H m).hash H ∧ head.indexRoot = (indexRoot H R (cellPostings m)).hash H ∧
        RootNodes H R m) ∧
      head'.stateRoot = (cellRoot H m').hash H ∧ head'.indexRoot = (indexRoot H R (cellPostings m')).hash H ∧
        RootNodes H R m' := by
  obtain ⟨hist, head, hinv, -⟩ := run_settled h ops hinj fun x hx => .inl hx
  obtain ⟨hist', head', hinv', -⟩ := run_settled h' ops' hinj fun x hx => .inr hx
  have hholds := hinv.good.holds
  have hholds' := hinv'.good.holds
  have hroots : head = headOf H R head.commitId (hist head.commitId).cells := by
    have := hinv.good.head
    rwa [hinv.last] at this
  have hroots' : head' = headOf H R head'.commitId (hist' head'.commitId).cells := by
    have := hinv'.good.head
    rwa [hinv'.last] at this
  have hstate : head.stateRoot = (cellRoot H (hist head.commitId).cells).hash H := congrArg Head.stateRoot hroots
  have hstate' : head'.stateRoot = (cellRoot H (hist' head'.commitId).cells).hash H := congrArg Head.stateRoot hroots'
  have hindex : head.indexRoot = (indexRoot H R (cellPostings (hist head.commitId).cells)).hash H :=
    congrArg Head.indexRoot hroots
  have hindex' : head'.indexRoot = (indexRoot H R (cellPostings (hist' head'.commitId).cells)).hash H :=
    congrArg Head.indexRoot hroots'
  refine ⟨head, head', _, _, hinv.head_is, hinv'.head_is, hinv.cells, hinv'.cells, fun he => ?_, fun he => ⟨?_, ?_⟩,
    fun k k' x x' hx hx' he => nodes_separate hinj hholds.preimages hholds'.preimages hx hx' he,
    ⟨hstate, hindex, hholds.rootNodes hinj⟩, hstate', hindex', hholds'.rootNodes hinj⟩
  · rw [hinv.cells, hinv'.cells, hholds.cells_inj hinj hholds' (by rw [← hstate, ← hstate', he])]
  · rw [hholds.index.table, hholds'.index.table, hholds.index_inj hinj hholds' (by rw [← hindex, ← hindex', he])]
  · intro ρ ρ' _ _ _ _ tx tx' htx htx' t
    have hpostings := hholds.index_inj hinj hholds' (by rw [← hindex, ← hindex', he])
    refine ⟨_, bitmap_represents hinj (htx ▸ hholds.index) t, ?_⟩
    rw [hpostings]
    exact bitmap_represents hinj (htx' ▸ hholds'.index) t

theorem runs_bind_demo : ∃ head head', HeadIs (tables (run Trie.polyHash arrayRoaring rootOps demoDb).store) head ∧
    HeadIs (tables (run Trie.polyHash arrayRoaring [.begin] demoDb).store) head' ∧
    (head.stateRoot = head'.stateRoot → tables (run Trie.polyHash arrayRoaring rootOps demoDb).store CELL
      = tables (run Trie.polyHash arrayRoaring [.begin] demoDb).store CELL) := by
  have hinj := rootOps_injOn.mono fun x
    (hx : x ∈ {x | x ∈ runPreimages Trie.polyHash arrayRoaring demoConfig.genesis rootOps demoDb ∨
      x ∈ runPreimages Trie.polyHash arrayRoaring demoConfig.genesis [.begin] demoDb}) => by
    rcases hx with hx | hx
    · exact hx
    · exact runPreimages_mono (show [.begin] <+: rootOps from ⟨_, rfl⟩) x hx
  obtain ⟨head, head', m, m', hh, hh', -, -, hbind, -⟩ := runs_bind demoDb_created demoDb_created rootOps [.begin] hinj
  exact ⟨head, head', hh, hh', hbind⟩

end Runs

end GolemDb.Api
