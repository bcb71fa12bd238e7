import GolemDb.Branch.Capacity
import GolemDb.Api.Runs

/-!
Rows fit the backend. A genesis that the ceilings of a backend admit leaves room for every row: in
every state that a run reaches, and in every seal of one of its branches, no key and no value is
above the ceilings (`run_fits`).
-/

namespace GolemDb.Api

open GolemDb.Lib GolemDb.Storage GolemDb.Merkle GolemDb.Cells GolemDb.Index GolemDb.Branch GolemDb.Records

/-! ### Settings -/

/-- What `Genesis.validate` checks is what the rows need. -/
lemma validate_holds {g : Genesis} {maxKey maxValue : ℕ} (h : g.validate maxKey maxValue = .ok ()) :
    Capacity.Holds ⟨maxKey, maxValue⟩ g.cellLimits := by
  unfold Genesis.validate at h
  simp only at h
  split_ifs at h with hname hkey hvalue
  refine ⟨?_, ?_, ?_, ?_, ?_⟩
  all_goals
    show _ ≤ (_ : ℕ)
    simp only
    omega

lemma initialCells_limits (g : Genesis) : HasLimits (initialCells g) g.cellLimits := by
  refine ⟨?_, ?_, ?_⟩ <;>
    exact get?_initialCells.mpr (List.mem_append_right _ (by simp))

/-- The limits of the genesis stay. -/
lemma Chain.limits {g : Genesis} {hist : History} {c : CommitId} (h : Chain g hist c) :
    ∀ i ≤ c, HasLimits (hist i).cells g.cellLimits := by
  refine h.induct (P := fun _ v => HasLimits v.cells g.cellLimits) ?_ fun i j hij _ ih hnext => ?_
  · rw [h.genesis]
    exact initialCells_limits g
  · obtain ⟨shown, hvis, hcells⟩ := hnext.cells
    have hshown := hvis.frozen.limits ih
    have hsame : ∀ name, (hist j).cells.get? ⟨System.PARAMS.id, name⟩ = shown.get? ⟨System.PARAMS.id, name⟩ := by
      intro name
      rw [hcells, nextCells, OrdMap.get?_insert, if_neg (key_ne (by decide : System.PARAMS.id ≠ System.ROOTS.id))]
    exact ⟨by rw [hsame]; exact hshown.name, by rw [hsame]; exact hshown.str, by rw [hsame]; exact hshown.bytes⟩

/-! ### The genesis state -/

section Genesis

variable {C : Capacity} {g : Genesis} (hC : C.Holds g.cellLimits)

include hC

lemma initialCells_fit {k : CellKey} {v : CellValue} (h : (initialCells g).get? k = some v) : CellFits C k v := by
  have hmem := get?_initialCells.mp h
  rcases List.mem_append.mp hmem with hmem | hmem
  · obtain ⟨s, hs, hmem⟩ := List.mem_flatMap.mp hmem
    simp only [systemCells, List.mem_cons, Prod.mk.injEq, List.not_mem_nil, or_false] at hmem
    rcases hmem with ⟨rfl, rfl⟩ | ⟨rfl, rfl⟩
    · exact written_fits hC (.identity s.id s.key)
    · exact written_fits hC (.binding s.key s.id)
  · simp only [List.mem_cons, Prod.mk.injEq, List.not_mem_nil, or_false] at hmem
    rcases hmem with ⟨rfl, rfl⟩ | ⟨rfl, rfl⟩ | ⟨rfl, rfl⟩ | ⟨rfl, rfl⟩
    · exact field_fits hC (by decide) (by rw [fromU32_length]; omega) rfl
    · exact field_fits hC (by decide) (by rw [fromU32_length]; omega) rfl
    · exact field_fits hC (by decide) (by rw [fromU32_length]; omega) rfl
    · exact written_fits hC (.allocator _)

/-- A row of the engine's own table. -/
lemma superblock_fits {k v : Bytes} (hk : k.length ≤ 10) (hv : v.length ≤ 72) : C.Fits k v := by
  have h1 := hC.engine_key
  have h2 := hC.engine_value
  exact ⟨by omega, by omega⟩

variable {H : HashProvider} {τ : Type} [WriteTransaction τ] [LawfulWrite τ]

lemma putRow_keeps {k v : Bytes} (hk : k.length ≤ 10) (hv : v.length ≤ 72) :
    Prog.Keeps (Rowwise C.Fits) (putRow SUPERBLOCK k v : Prog OpenError τ Unit) :=
  Prog.Keeps.mapError ((rowwise_admits SUPERBLOCK_valid).put (superblock_fits hC hk hv))

/-- **The rows of a creation fit.** -/
lemma writeGenesis_fits {config : OpenConfig} (genesisId : Hash) :
    Prog.Keeps (Rowwise C.Fits) (writeGenesis H config (initialCells g) genesisId : Prog OpenError τ Head) := by
  have hput : ∀ k v, PutRow ((initialCells g).entries.map fun e => CellChange.put e.1 e.2) k v → C.Fits k v := by
    rintro k v ⟨key, value, hmem, rfl, rfl⟩
    obtain ⟨e, he, heq⟩ := List.mem_map.mp hmem
    obtain ⟨rfl, rfl⟩ := CellChange.put.inj heq
    exact (initialCells_fit hC (OrdMap.mem_entries.mp he)).row
  refine (putRow_keeps hC (by decide) (by rw [beBytes_length]; omega)).bind fun _ => ?_
  refine (putRow_keeps hC (by decide) (by rw [beBytes_length]; omega)).bind fun _ => ?_
  refine (putRow_keeps hC (by decide) (by rw [beBytes_length]; omega)).bind fun _ => ?_
  refine (putRow_keeps hC (by decide) (by rw [genesisId.2]; omega)).bind fun _ => ?_
  refine (Prog.Keeps.mapError (Cells.apply_keeps ((rowwise_admits CELL_valid).mono hput)
    ((rowwise_admits CELL_TRIE_valid).mono fun k v => branchRow_fits hC le_rfl) _)).bind fun u => ?_
  refine (Prog.Keeps.mapError (Prog.Keeps.mapError
    ((rowwise_admits SUPERBLOCK_valid).put (superblock_fits hC (by decide) ?_)))).bind fun _ => Prog.Keeps.pure _
  rw [Head.encode_length]
  decide

end Genesis

/-! ### Runs -/

/-- The rows of the tables and the cells of the version fit. -/
def Fitting (C : Capacity) : StateProp := fun tables version =>
  (∀ t k v, (tables t).get? k = some v → C.Fits k v) ∧ ∀ k v, version.cells.get? k = some v → CellFits C k v

section Runs

variable {H : HashProvider} {R : Roaring} {σ : Type} [Store σ] [LawfulStore σ] {g : Genesis} {C : Capacity}
  {hist : History} {head : Head} {db : Branches σ}

/-- The cells that a branch over the head shows fit. -/
lemma Inv.shown_fit (h : Inv H R g (Fitting C) hist head db) (hC : C.Holds g.cellLimits) {b : BranchId}
    {st : BranchState} (hb : db.branches.get? b = some st) (hc : st.commitId = head.commitId) :
    ∀ k v, ((hist head.commitId).cells.overlay st.overlay.entries).get? k = some v → CellFits C k v := by
  intro k v hv
  have hvis := (h.branches b st hb).working.visible
  rw [hc] at hvis
  rcases hvis.written _ (h.chain.limits _ le_rfl) k v hv with hv | hv
  · exact h.good.2 k v hv
  · exact written_fits hC hv

/-- The rows of the head's tables with those of a seal fit. -/
lemma Inv.seal_fits (h : Inv H R g (Fitting C) hist head db) (hC : C.Holds g.cellLimits) (hR : Roaring.Compact R)
    {b : BranchId} {st : BranchState} {origin : Store.Read σ} {s : SealedCommit} (hb : db.branches.get? b = some st)
    (hc : st.commitId = head.commitId) (hr : rows origin = tables db.store)
    (hs : compute H R origin st.overlay = .ok s) :
    ∀ t k v, ((tables db.store t).overlay (s.writes.rowsOf t)).get? k = some v → C.Fits k v := by
  rw [← hr]
  exact compute_fits hC hR (by rw [hr]; exact h.good.1) (by rw [hr]; exact h.cells) h.good.2 (h.shown_fit hC hb hc) hs

/-- **A publication keeps the rows within the ceilings.** -/
lemma Inv.publishes_fitting (h : Inv H R g (Fitting C) hist head db) (hC : C.Holds g.cellLimits)
    (hR : Roaring.Compact R) (b : BranchId) : Publishes H R (Fitting C) hist head db b := by
  intro st origin s hb hc hr hs
  have hrows := h.seal_fits hC hR hb hc hr hs
  refine ⟨fun t k v hv => ?_, fun k v hv => ?_⟩
  · unfold publishedRows at hv
    split_ifs at hv with ht
    · rw [OrdMap.get?_insert] at hv
      split_ifs at hv with hk
      · obtain rfl := Option.some.inj hv
        rw [hk]
        exact superblock_fits hC (by decide) (by rw [Head.encode_length]; decide)
      · exact hrows t k v hv
    · exact hrows t k v hv
  · change ((OrdMap.overlay _ _).insert _ _).get? k = some v at hv
    rw [OrdMap.get?_insert] at hv
    split_ifs at hv with hk
    · obtain rfl := Option.some.inj hv
      rw [hk]
      exact roots_fits hC _
    · exact h.shown_fit hC hb hc k v hv

/-- The rows of a created database fit. -/
lemma Created.fitting {config : OpenConfig} (h : Created H config db) (hC : C.Holds config.genesis.cellLimits)
    (head : Head) : Fitting C (tables db.store) ⟨head, initialCells config.genesis⟩ := by
  obtain ⟨store, info, hopen, hcreated⟩ := h.opened
  obtain ⟨tx, tx', head', hempty, hrun, hrows⟩ := openStore_writes hopen hcreated
  refine ⟨?_, fun k v hv => initialCells_fit hC hv⟩
  rw [hrows]
  refine (writeGenesis_fits hC _).runs hrun fun t k v hv => ?_
  rw [hempty] at hv
  cases hv

/-- **Every row fits the backend.** Under a genesis that the ceilings admit, the rows of every state
that calls reach are within them, and so are the rows that a seal of a branch over the head
stages. -/
theorem run_fits {config : OpenConfig} (h : Created H config db) {maxKey maxValue : ℕ}
    (hvalid : config.genesis.validate maxKey maxValue = .ok ()) (hR : Roaring.Compact R) (ops : List Op) :
    (∀ t k v, (tables (run H R ops db).store t).get? k = some v → k.length ≤ maxKey ∧ v.length ≤ maxValue) ∧
    ∀ (b : BranchId) (st : BranchState) (origin : Store.Read σ) (s : SealedCommit),
      (run H R ops db).branches.get? b = some st → rows origin = tables (run H R ops db).store →
      readHead origin = .ok st.commitId → compute H R origin st.overlay = .ok s →
      ∀ t k v, (s.writes.rowsOf t).get? k = some (some v) → k.length ≤ maxKey ∧ v.length ≤ maxValue := by
  have hC := validate_holds hvalid
  obtain ⟨hist₀, head₀, hinv₀, hzero⟩ : ∃ hist head, Inv H R config.genesis (Fitting ⟨maxKey, maxValue⟩) hist head db ∧
      head.commitId = 0 := h.inv fun head _ => h.fitting hC head
  obtain ⟨hist, head, hinv, -⟩ := hinv₀.run hzero ops fun part b _ hist head h' => h'.publishes_fitting hC hR b
  refine ⟨fun t k v hv => ?_, fun b st origin s hb hr hhead hs t k v hv => ?_⟩
  · have hfits := hinv.good.1 t k v hv
    exact ⟨hfits.key_le, hfits.value_le⟩
  · have hc : st.commitId = head.commitId := by
      rw [HeadIs.readHead (by rw [hr]; exact hinv.head_is)] at hhead
      exact (Except.ok.inj hhead).symm
    have hfits := hinv.seal_fits hC hR hb hc hr hs t k v (by rw [OrdMap.get?_overlay, hv]; rfl)
    exact ⟨hfits.key_le, hfits.value_le⟩

theorem run_fits_demo : demoConfig.genesis.validate 130 16384 = .ok () ∧
    ∀ t k v, (tables (run Trie.polyHash portableRoaring demoOps demoDb).store t).get? k = some v →
      k.length ≤ 130 ∧ v.length ≤ 16384 :=
  ⟨by decide, (run_fits (R := portableRoaring) demoDb_created (by decide) portableRoaring_compact demoOps).1⟩

end Runs

end GolemDb.Api
