import GolemDb.Branch.Publish
import GolemDb.Merkle.Codec
import GolemDb.Records.Mutations

/-!
The sizes of rows. A backend has a largest key and a largest value. Branches, containers and the
engine's own rows have fixed bounds, and a cell that the limits admit has a row and a term that the
limits bound; so over a state whose cells fit, every row that a seal stages fits (`compute_fits`).
-/

namespace GolemDb.Branch

open GolemDb.Lib GolemDb.Storage GolemDb.Merkle GolemDb.Cells GolemDb.Index GolemDb.Records

/-- The ceilings of a backend. -/
structure Capacity where
  key : ℕ
  value : ℕ

/-- A row within the ceilings. -/
structure Capacity.Fits (C : Capacity) (k v : Bytes) : Prop where
  key_le : k.length ≤ C.key
  value_le : v.length ≤ C.value

/-- The ceilings leave room for what the limits admit, and for the engine's own rows. -/
structure Capacity.Holds (C : Capacity) (l : CellLimits) : Prop where
  cell : l.maxCellNameLen.val + 8 ≤ C.key
  term : l.maxCellNameLen.val + 2 + max l.maxStrLen.val 32 ≤ C.key
  engine_key : 40 ≤ C.key
  value : 1 + max l.maxBytesLen.val l.maxStrLen.val ≤ C.value
  engine_value : 16 * 1024 ≤ C.value

/-! ### Branches and containers -/

lemma countOnes_le (m : BitVec 16) : countOnes m ≤ 16 := by
  have h := List.countP_le_length (p := hasSlot m) (l := List.finRange 16)
  rwa [List.length_finRange] at h

/-- A full branch over 32-byte paths takes 1061 bytes. -/
lemma encode_length_le {N : ℕ} (hN : N ≤ 32) (node : BranchNodeCompact N) : node.encode.length ≤ 1061 := by
  have hstate := countOnes_le node.stateMask
  have hleaf := countOnes_le (node.stateMask &&& ~~~node.treeMask)
  have hpaths : node.leafPaths.length * N ≤ 16 * 32 :=
    Nat.mul_le_mul (by rw [node.paths_length]; exact hleaf) hN
  have hpfx := node.pfx_length
  have hlen := node.pfxLen_lt
  have hhashes := node.hashes_length
  simp only [BranchNodeCompact.encode, BranchNodeCompact.hashPayload, List.length_append, List.length_cons,
    List.length_nil, beBytes_length, flatMap_val_length]
  omega

/-- A container of 16-bit offsets in the portable format has a header of 16 bytes, the cookie, the
number of containers, and the key, cardinality and place of the only one; and at most 8192 bytes of
payload, those of a bit set. -/
def Roaring.Compact (R : Roaring) : Prop := ∀ s, Index.Small s → (R.encode s).length ≤ 16 + 8192

/-- The bytes of a bit set. -/
def bitBytes (s : RoaringBitmap) : Bytes :=
  (List.range 8192).map fun i => UInt8.ofNat (Nat.ofBits fun j : Fin 8 => (s.get? (8 * i + j)).isSome)

/-- The numbers of a bit set. -/
def ofBitBytes (bytes : Bytes) : List ℕ :=
  (List.range 65536).filter fun v => (bytes.getD (v / 8) 0).toNat.testBit (v % 8)

lemma mem_ofBitBytes {s : RoaringBitmap} (hs : Index.Small s) (v : ℕ) : v ∈ ofBitBytes (bitBytes s) ↔ v ∈ s := by
  have hbit : v < 65536 → ((bitBytes s).getD (v / 8) 0).toNat.testBit (v % 8) = (s.get? v).isSome := by
    intro hv
    have hlt := Nat.ofBits_lt_two_pow fun j : Fin 8 => (s.get? (8 * (v / 8) + j)).isSome
    have hget : (bitBytes s).getD (v / 8) 0
        = UInt8.ofNat (Nat.ofBits fun j : Fin 8 => (s.get? (8 * (v / 8) + j)).isSome) := by
      rw [bitBytes, List.getD_eq_getElem?_getD, List.getElem?_map, List.getElem?_range (by omega)]
      rfl
    rw [hget, UInt8.toNat_ofNat', Nat.mod_eq_of_lt hlt, Nat.testBit_ofBits_lt _ _ (Nat.mod_lt _ (by omega))]
    show (s.get? (8 * (v / 8) + v % 8)).isSome = _
    rw [Nat.div_add_mod]
  have hmem : (s.get? v).isSome = true ↔ v ∈ s := by
    rw [Option.isSome_iff_exists, OrdSet.mem_def]
    exact ⟨fun ⟨⟨⟩, h⟩ => h, fun h => ⟨(), h⟩⟩
  rw [ofBitBytes, List.mem_filter, List.mem_range]
  constructor
  · rintro ⟨hv, h⟩
    rwa [hbit hv, hmem] at h
  · intro h
    have hv := hs v h
    exact ⟨hv, by rw [hbit hv, hmem]; exact h⟩

/-- A set of 16-bit offsets has at most 65536 of them. -/
lemma toList_length_le {s : RoaringBitmap} (hs : Index.Small s) : s.toList.length ≤ 65536 := by
  have hnodup : s.toList.Nodup := s.toList_sorted.imp fun h => ne_of_lt h
  have hsub : s.toList ⊆ List.range 65536 := fun v hv => List.mem_range.mpr (hs v (OrdSet.mem_toList.mp hv))
  have hle := (hnodup.subperm hsub).length_le
  rwa [List.length_range] at hle

/-- The format with both forms of its only container: up to 4096 offsets are listed, more are a bit
set. -/
def portableRoaring : Roaring where
  encode s := [0x3a, 0x30, 0, 0, 1, 0, 0, 0, 0, 0] ++ le16 (s.toList.length - 1) ++ [16, 0, 0, 0]
    ++ if s.toList.length ≤ 4096 then s.toList.flatMap le16 else bitBytes s
  decode bytes := .ok (OrdSet.ofList (if (ofLe16 ((bytes.drop 10).take 2)).headD 0 < 4096 then ofLe16 (bytes.drop 16)
    else ofBitBytes (bytes.drop 16)))
  decode_encode s hs := by
    have hlen := toList_length_le hs
    have hcard : ofLe16 (le16 (s.toList.length - 1)) = [s.toList.length - 1] := by
      have h := ofLe16_flatMap (l := [s.toList.length - 1]) (by simp; omega)
      simpa using h
    have hdrop : ∀ rest : Bytes, (([0x3a, 0x30, 0, 0, 1, 0, 0, 0, 0, 0] ++ le16 (s.toList.length - 1)
        ++ [16, 0, 0, 0] ++ rest).drop 10).take 2 = le16 (s.toList.length - 1) := fun rest => rfl
    have hrest : ∀ rest : Bytes, ([0x3a, 0x30, 0, 0, 1, 0, 0, 0, 0, 0] ++ le16 (s.toList.length - 1)
        ++ [16, 0, 0, 0] ++ rest).drop 16 = rest := fun rest => rfl
    rw [hdrop, hcard, hrest, List.headD_cons]
    refine congrArg _ (OrdSet.ext fun v => ?_)
    by_cases hsmall : s.toList.length ≤ 4096
    · rw [if_pos (by omega), if_pos hsmall, ofLe16_flatMap fun v hv => hs v (OrdSet.mem_toList.mp hv),
        OrdSet.mem_ofList, OrdSet.mem_toList]
    · rw [if_neg (by omega), if_neg hsmall, OrdSet.mem_ofList, mem_ofBitBytes hs]

lemma portableRoaring_compact : Roaring.Compact portableRoaring := by
  intro s _
  have hhead : ∀ rest : Bytes, ([0x3a, 0x30, 0, 0, 1, 0, 0, 0, 0, 0] ++ le16 (s.toList.length - 1)
      ++ [16, 0, 0, 0] ++ rest).length = 16 + rest.length := by
    intro rest
    rw [List.length_append]
    rfl
  show (_ ++ _ : Bytes).length ≤ _
  rw [hhead]
  split_ifs with hsmall
  · have hpairs : (s.toList.flatMap le16).length = 2 * s.toList.length := by
      have hpair : ∀ v, List.length (le16 v) = 2 := fun v => rfl
      simp [List.length_flatMap, hpair, Nat.mul_comm]
    omega
  · rw [bitBytes, List.length_map, List.length_range]

section Rows

variable {C : Capacity} {l : CellLimits} (hC : C.Holds l)

include hC

lemma branchRow_fits {N : ℕ} (hN : N ≤ 32) {k v : Bytes} (h : Trie.BranchRow N k v) : C.Fits k v := by
  obtain ⟨hash, node, rfl, rfl⟩ := h
  have hvalue := encode_length_le hN node
  have hkey := hC.engine_key
  have hengine := hC.engine_value
  exact ⟨by rw [hash.2]; omega, by omega⟩

lemma containerRow_fits {R : Roaring} (hR : Roaring.Compact R) {k v : Bytes} (h : ContainerRow R k v) :
    C.Fits k v := by
  obtain ⟨hash, c, rfl, hc⟩ := h
  unfold BitmapContainer.canonicalBytes at hc
  split_ifs at hc
  obtain ⟨path, -, hc⟩ := bind_eq_ok.mp hc
  obtain rfl := pure_eq_ok.mp hc
  have hvalue := hR c.values c.small
  have hkey := hC.engine_key
  have hengine := hC.engine_value
  refine ⟨by rw [hash.2]; omega, ?_⟩
  rw [List.length_append, path.2]
  omega

end Rows

/-! ### Cells and terms -/

/-- The row of the cell fits, and the row of its term if it has one. -/
structure CellFits (C : Capacity) (k : CellKey) (v : CellValue) : Prop where
  row : C.Fits k.encode v.encode
  term : v.indexable = true → k.name.length + 2 + v.value.length ≤ C.key

lemma encode_key_length (k : CellKey) : k.encode.length = 8 + k.name.length := by
  simp [CellKey.encode]

lemma encode_value_length (v : CellValue) : v.encode.length = 1 + v.value.length := by
  rw [CellValue.encode, List.length_cons, Nat.add_comm]

lemma width_le : ∀ {ty : CellType} {n : ℕ}, ty.width = some n → n ≤ 32
  | .bool, _, h => by cases h; decide
  | .bytes20, _, h => by cases h; decide
  | .fixedBytes w, _, h => by cases h; cases w <;> decide
  | .uint w, _, h => by cases h; cases w <;> decide
  | .int w, _, h => by cases h; cases w <;> decide
  | .decimal w, _, h => by cases h; cases w <;> decide
  | .float .f32, _, h => by cases h; decide
  | .float .f64, _, h => by cases h; decide
  | .date32, _, h => by cases h; decide
  | .timestamp64, _, h => by cases h; decide

/-- The payload of a value that the limits admit. -/
lemma validateValue_length {l : CellLimits} {v : CellValue} (h : l.validateValue v = .ok ()) :
    v.value.length ≤ max (max l.maxBytesLen.val l.maxStrLen.val) 32 ∧
      (v.indexable = true → v.value.length ≤ max l.maxStrLen.val 32) := by
  unfold CellLimits.validateValue at h
  cases hw : v.ty.width with
  | some n =>
    have hlen := CellType.length_of_validate hw v.valid
    have hle := width_le hw
    omega
  | none =>
    match hty : v.ty, hw with
    | .str, _ =>
      simp only [hty] at h
      split_ifs at h
      omega
    | .bytes, _ =>
      simp only [hty] at h
      split_ifs at h
      exact ⟨by omega, fun hi => absurd hty (v.ordered hi)⟩

/-- A cell that the limits admit fits. -/
lemma validate_fits {C : Capacity} {l : CellLimits} (hC : C.Holds l) (r : U64) {name : CellName} {v : CellValue}
    (h : validate l name (some v) = .ok ()) : CellFits C ⟨r, name⟩ v := by
  have hname := (validate_user h).2
  obtain ⟨-, -, hvalue⟩ := bind_eq_ok.mp h
  obtain ⟨hlen, hterm⟩ := validateValue_length (mapError_eq_ok.mp hvalue)
  have h1 := hC.cell
  have h2 := hC.term
  have h3 := hC.value
  have h4 := hC.engine_value
  refine ⟨⟨?_, ?_⟩, fun hi => ?_⟩
  · rw [encode_key_length]
    show 8 + name.length ≤ _
    omega
  · rw [encode_value_length]
    omega
  · have := hterm hi
    show name.length + 2 + v.value.length ≤ _
    omega

/-- A field with a short name and a short payload fits: the engine's own cells. -/
lemma field_fits {C : Capacity} {l : CellLimits} (hC : C.Holds l) {k : CellKey} {v : CellValue}
    (hk : k.name.length ≤ 32) (hv : v.value.length ≤ 64) (hf : v.indexable = false) : CellFits C k v := by
  have h1 := hC.engine_key
  have h2 := hC.engine_value
  refine ⟨⟨?_, ?_⟩, fun hi => ?_⟩
  · rw [encode_key_length]
    omega
  · rw [encode_value_length]
    omega
  · rw [hf] at hi
    cases hi

lemma fromU64_length (n : U64) : (CellValue.fromU64 n).value.length = 8 := U64.toBeBytes_length n

lemma fromU32_length (n : U32) : (CellValue.fromU32 n).value.length = 4 := beBytes_length 4 n.val

lemma fromBytes32_length (a : Arr 32) : (CellValue.fromBytes32 a).value.length = 32 := a.2

/-- **The cells that mutations write fit.** -/
theorem written_fits {C : Capacity} {l : CellLimits} (hC : C.Holds l) {k : CellKey} {v : CellValue}
    (h : Written l k v) : CellFits C k v := by
  cases h with
  | allocator n => exact field_fits hC (by decide) (by rw [fromU64_length]; omega) rfl
  | binding K r => exact field_fits hC K.2.le (by rw [fromU64_length]; omega) rfl
  | identity r K =>
    have hname : Reserved.KEY.length ≤ 32 := by decide
    exact field_fits hC hname (by rw [fromBytes32_length]; omega) rfl
  | cell r name v hv => exact validate_fits hC r hv

/-- The cell with a commit's roots fits. -/
lemma roots_fits {C : Capacity} {l : CellLimits} (hC : C.Holds l) (head : Head) :
    CellFits C (rootsKey head.commitId) (rootsValue head) := by
  refine field_fits hC ?_ ?_ rfl
  · rw [rootsKey, U64.toBeBytes_length]
    omega
  · show (head.stateRoot.1 ++ head.indexRoot.1).length ≤ 64
    rw [List.length_append, head.stateRoot.2, head.indexRoot.2]

/-! ### Seals -/

/-- The terms that fit. -/
def fittingTerms (C : Capacity) : Set IndexTerm := {t | t.bytes.length ≤ C.key}

lemma termRow_fits {C : Capacity} {l : CellLimits} (hC : C.Holds l) {k v : Bytes}
    (h : TermRow (fittingTerms C) k v) : C.Fits k v := by
  obtain ⟨t, ht, hash, rfl, rfl⟩ := h
  have hvalue := hC.engine_value
  exact ⟨ht, by rw [hash.2]; omega⟩

/-- The term of a cell that fits. -/
lemma term_fits {C : Capacity} {key : CellKey} {value : Option CellValue} {t : IndexTerm}
    (hfit : ∀ v, value = some v → CellFits C key v) (h : term key value = .ok (some t)) : t ∈ fittingTerms C := by
  cases value with
  | none => cases h
  | some v =>
    unfold term at h
    simp only at h
    split_ifs at h with hi
    · obtain ⟨t', ht', h⟩ := bind_eq_ok.mp h
      obtain rfl := Option.some.inj (pure_eq_ok.mp h)
      have hlen := (hfit v rfl).term hi
      show t'.bytes.length ≤ C.key
      rw [(IndexTerm.fromCellName_ok (mapError_eq_ok.mp ht')).2, termBytes]
      simp only [List.length_append, List.length_cons, List.length_nil]
      omega
    · cases h

/-- A changed cell that fits before and after. -/
def ChangeFits (C : Capacity) (c : CellValueChange) : Prop :=
  (∀ v, c.before = some v → CellFits C c.key v) ∧ ∀ v, c.after = some v → CellFits C c.key v

lemma postingsOfChange_fits {C : Capacity} {c : CellValueChange} (hc : ChangeFits C c) {ps : List PostingChange}
    (h : postingsOfChange c = .ok ps) : ∀ p ∈ ps, p.term ∈ fittingTerms C := by
  obtain ⟨before, hb, h⟩ := bind_eq_ok.mp h
  obtain ⟨after, ha, h⟩ := bind_eq_ok.mp h
  split_ifs at h
  · obtain rfl := pure_eq_ok.mp h
    simp
  · obtain rfl := pure_eq_ok.mp h
    intro p hp
    rcases List.mem_append.mp hp with hp | hp
    · obtain ⟨t, ht, rfl⟩ := Option.map_eq_some_iff.mp (Option.mem_toList.mp hp)
      exact term_fits hc.1 (ht ▸ hb)
    · obtain ⟨t, ht, rfl⟩ := Option.map_eq_some_iff.mp (Option.mem_toList.mp hp)
      exact term_fits hc.2 (ht ▸ ha)

lemma postingsOf_fits {C : Capacity} {changes : List CellValueChange} (hc : ∀ c ∈ changes, ChangeFits C c) :
    ∀ {acc ps : List PostingChange}, (∀ p ∈ acc, p.term ∈ fittingTerms C) →
      changes.foldlM (fun acc change => do
        let postings ← postingsOfChange change
        return acc ++ postings) acc = .ok ps → ∀ p ∈ ps, p.term ∈ fittingTerms C := by
  induction changes with
  | nil =>
    intro acc ps hacc h
    obtain rfl := pure_eq_ok.mp h
    exact hacc
  | cons c changes ih =>
    intro acc ps hacc h
    rw [List.foldlM_cons] at h
    obtain ⟨acc₁, h₁, h⟩ := bind_eq_ok.mp h
    obtain ⟨postings, hpost, h₁⟩ := bind_eq_ok.mp h₁
    obtain rfl := pure_eq_ok.mp h₁
    refine ih (fun x hx => hc x (List.mem_cons_of_mem _ hx)) (fun p hp => ?_) h
    rcases List.mem_append.mp hp with hp | hp
    · exact hacc p hp
    · exact postingsOfChange_fits (hc c (List.mem_cons_self ..)) hpost p hp

section Compute

variable {H : HashProvider} {R : Roaring} {ρ : Type} [ReadTransaction ρ] [LawfulRead ρ] {origin : ρ}
  {overlay : CellOverlay} {s : SealedCommit} {m : CellMap} {C : Capacity} {l : CellLimits}

/-- The cells that a seal sets fit. -/
lemma sealedEntries_fits (hC : C.Holds l)
    (hshown : ∀ k v, (m.overlay overlay.entries).get? k = some v → CellFits C k v) (head : Head) {k : CellKey}
    {v : CellValue} (h : (sealedEntries overlay head).get? k = some (some v)) : CellFits C k v := by
  rw [sealedEntries, OrdMap.get?_insert] at h
  split_ifs at h with hk
  · obtain rfl := Option.some.inj (Option.some.inj h)
    rw [hk]
    exact roots_fits hC head
  · refine hshown k v ?_
    rw [OrdMap.get?_overlay, h]
    rfl

/-- The rows that a seal puts fit. -/
lemma putRow_fits (hC : C.Holds l)
    (hshown : ∀ k v, (m.overlay overlay.entries).get? k = some v → CellFits C k v) {head : Head} {k v : Bytes}
    (h : PutRow (overlay.changes ++ [.put (rootsKey head.commitId) (rootsValue head)]) k v) : C.Fits k v := by
  obtain ⟨key, value, hmem, rfl, rfl⟩ := h
  rcases List.mem_append.mp hmem with hmem | hmem
  · have hpair := List.mem_map_of_mem (f := CellChange.toPair) hmem
    rw [changes_toPair] at hpair
    have hget : overlay.entries.get? key = some (some value) := OrdMap.mem_entries.mp hpair
    refine (hshown key value ?_).row
    rw [OrdMap.get?_overlay, hget]
    rfl
  · obtain ⟨rfl, rfl⟩ := CellChange.put.inj (List.mem_singleton.mp hmem)
    exact (roots_fits hC head).row

/-- The cells that a seal changes fit, before and after. -/
lemma changedCells_fit (hC : C.Holds l) (hcell : rows origin CELL = cellRows m)
    (hbase : ∀ k v, m.get? k = some v → CellFits C k v)
    (hshown : ∀ k v, (m.overlay overlay.entries).get? k = some v → CellFits C k v) {head : Head}
    {root : RootRef 32} {u : CellsUpdate} {tx : Buffered ρ}
    (h : Prog.Runs (Cells.apply H root (overlay.changes ++ [.put (rootsKey head.commitId) (rootsValue head)]))
      (Buffered.new origin) u tx) : ∀ c ∈ u.changedCells, ChangeFits C c := by
  intro c hc
  rw [(Cells.apply_rows h).2, netChanges_seal] at hc
  obtain ⟨⟨row, c'⟩, hmem, rfl⟩ := List.mem_map.mp hc
  obtain ⟨⟨key, after⟩, hentry, hat⟩ := List.mem_filterMap.mp hmem
  have hread : readValue (Buffered.new origin) key.encode = .ok (m.get? key) := readValue_cellRows hcell key
  unfold changeAt at hat
  rw [hread] at hat
  simp only at hat
  split_ifs at hat
  obtain ⟨-, rfl⟩ := Prod.mk.inj (Option.some.inj hat)
  refine ⟨fun v hv => hbase key v hv, fun v hv => sealedEntries_fits hC hshown head ?_⟩
  rw [← hv]
  exact OrdMap.mem_entries.mp hentry

/-- **Every row of a seal fits**, over a state whose rows and cells fit. -/
theorem compute_fits (hC : C.Holds l) (hR : Roaring.Compact R)
    (horigin : ∀ t k v, (rows origin t).get? k = some v → C.Fits k v) (hcell : rows origin CELL = cellRows m)
    (hbase : ∀ k v, m.get? k = some v → CellFits C k v)
    (hshown : ∀ k v, (m.overlay overlay.entries).get? k = some v → CellFits C k v)
    (h : compute H R origin overlay = .ok s) :
    ∀ t k v, ((rows origin t).overlay (s.writes.rowsOf t)).get? k = some v → C.Fits k v := by
  obtain ⟨head, cellRoot, indexRoot, tx, -, -, -, -, -, hrun, -, -, hw⟩ := compute_runs h
  have horig : tx.origin = origin :=
    (stageUpdates_keeps (F := originFrame ρ) (fun t _ => originFrame_allows t) _ _ _).runs hrun
  have hrows : ∀ t, rows tx t = (rows origin t).overlay (s.writes.rowsOf t) := by
    intro t
    show (rows tx.origin t).overlay (tx.writes.rowsOf t) = _
    rw [horig, hw]
  obtain ⟨u, tx₁, happly, hpost⟩ := Prog.runs_bind_iff.mp hrun
  obtain ⟨ps, tx₂, hof, hrest⟩ := Prog.runs_bind_iff.mp hpost
  obtain ⟨hps, rfl⟩ := Prog.runs_ofExcept.mp hof
  obtain ⟨iu, tx₃, hstage, hpure⟩ := Prog.runs_bind_iff.mp hrest
  obtain ⟨-, rfl⟩ := Prog.runs_pure_iff.mp hpure
  have hcells := Prog.runs_mapError.mp happly
  have hindex := Prog.runs_mapError.mp hstage
  have hchange : ∀ c ∈ u.changedCells, ChangeFits C c := changedCells_fit hC hcell hbase hshown hcells
  have hfits₁ : (Rowwise C.Fits).rel (Buffered.new origin) tx₂ :=
    (Cells.apply_keeps ((rowwise_admits CELL_valid).mono fun k v => putRow_fits hC hshown)
      ((rowwise_admits CELL_TRIE_valid).mono fun k v => branchRow_fits hC le_rfl) _).runs hcells
  have hadm : AdmitsIndex (Rowwise C.Fits : Prog.Frame (Buffered ρ)) R (fittingTerms C) :=
    ⟨(rowwise_admits INDEX_valid).mono fun k v => termRow_fits hC,
      (rowwise_admits INDEX_TRIE_valid).mono fun k v => branchRow_fits hC le_rfl,
      (rowwise_admits BITMAP_CONTAINER_valid).mono fun k v => containerRow_fits hC hR,
      (rowwise_admits BITMAP_TRIE_valid).mono fun k v => branchRow_fits hC (by omega)⟩
  have hfits₂ := (Index.apply_keeps hadm indexRoot (postingsOf_fits hchange (by simp) hps)).runs hindex
  intro t k v hv
  rw [← hrows] at hv
  exact hfits₂ (hfits₁ horigin) t k v hv

end Compute

end GolemDb.Branch
