import GolemDb.Branch.Overlay
import GolemDb.Lib.Overlay

/-!
The cells a branch shows: the origin's cells with the staged ones set over them. Over an origin
whose Cell table encodes a map, a read of the overlay is a lookup in the visible map (`get_eq`),
and the merged scan lists the visible cells under the prefix in key order (`scanPrefix_eq`).
-/

namespace GolemDb.Branch

open GolemDb.Lib GolemDb.Storage GolemDb.Cells

/-! ### Prefix ranges of cell keys -/

lemma CellKey.encode_length (k : CellKey) : 8 ≤ k.encode.length := by
  simp [CellKey.encode]

lemma encode_lowerKey (bytes : Bytes) : (lowerKey bytes).encode = padded bytes := by
  unfold lowerKey
  cases h : CellKey.decode (padded bytes) with
  | ok k => exact CellKey.encode_of_decode h
  | error e =>
    have hlen := padded_length bytes
    unfold CellKey.decode toArr? at h
    rw [dif_pos (by rw [List.length_take]; omega)] at h
    cases h

lemma lowerKey_le_iff {bytes : Bytes} {k : CellKey} : lowerKey bytes ≤ k ↔ bytes ≤ k.encode := by
  rw [← not_lt, ← CellKey.encode_lt_iff, not_lt, encode_lowerKey, padded_le_iff (CellKey.encode_length k)]

/-- The range of keys is the keys with the prefix. -/
lemma overlayRange_eq (entries : Entries) (pfx : Bytes) :
    overlayRange entries pfx = entries.entries.filter fun e => pfx.isPrefixOf e.1.encode := by
  refine List.filter_congr fun e _ => ?_
  rw [Bool.eq_iff_iff, List.isPrefixOf_iff_prefix, prefix_iff_range, Bool.and_eq_true,
    decide_eq_true_eq, lowerKey_le_iff]
  refine and_congr_right fun _ => ?_
  cases afterPrefix pfx with
  | none => simp
  | some s =>
    simp only [decide_eq_true_eq, Option.some.injEq, forall_eq']
    rw [← not_le, lowerKey_le_iff, not_le]

/-! ### The merge of decoded rows -/

/-- An encoded row as the origin's scan yields it. -/
def encodeRow (e : CellKey × CellValue) : Except StorageError Entry := .ok (e.1.encode, e.2.encode)

lemma originRow_encode (e : CellKey × CellValue) (tail : List ScanItem) :
    originRow e.1.encode e.2.encode tail = .ok e :: tail := by
  simp [originRow]

lemma overlayRow_eq (k : CellKey) (v : Option CellValue) (tail : List (CellKey × CellValue)) :
    overlayRow k v (tail.map .ok) = ((v.map (Prod.mk k)).toList ++ tail).map .ok := by
  cases v <;> rfl

lemma mergeScan_encode : ∀ (origin : List (CellKey × CellValue)) (overlay : List (CellKey × Option CellValue)),
    mergeScan (origin.map encodeRow) overlay = (mergeOver origin overlay).map .ok := by
  intro origin
  induction origin with
  | nil =>
    intro overlay
    induction overlay with
    | nil => rfl
    | cons e overlay ih =>
      simp only [List.map_nil, mergeScan, List.foldr_cons, mergeOver, List.flatMap_cons] at ih ⊢
      rw [ih, overlayRow_eq]
  | cons e origin ih =>
    intro overlay
    show mergeRow e.1.encode e.2.encode (mergeScan (origin.map encodeRow)) overlay
      = (mergeEntry e (mergeOver origin) overlay).map .ok
    induction overlay with
    | nil => rw [mergeRow, originRow_encode, ih, mergeEntry, List.map_cons]
    | cons s overlay ihs =>
      obtain ⟨k, v⟩ := s
      rw [mergeRow, mergeEntry]
      simp only [CellKey.encode_lt_iff]
      by_cases hlt : e.1 < k
      · rw [if_pos hlt, if_pos hlt, originRow_encode, ih, List.map_cons]
      · rw [if_neg hlt, if_neg hlt]
        by_cases heq : e.1 = k
        · rw [if_pos (by rw [heq]), if_pos heq, ih, overlayRow_eq]
        · rw [if_neg (fun h => heq (CellKey.encode_inj h)), if_neg heq, ihs, overlayRow_eq]

/-! ### Reads over an origin of cells -/

section Reads

variable {ρ : Type} [ReadTransaction ρ] {origin : ρ} {base : CellMap}

/-- **A read of the overlay is a lookup in the visible map.** -/
theorem CellOverlay.get_eq [LawfulRead ρ] (h : rows origin CELL = cellRows base) (o : CellOverlay)
    (k : CellKey) : o.get origin k = .ok ((base.overlay o.entries).get? k) := by
  unfold CellOverlay.get
  rw [OrdMap.get?_overlay]
  cases o.entries.get? k with
  | some v => rfl
  | none =>
    rw [LawfulRead.get_eq CELL_valid, h, get?_cellRows]
    cases base.get? k with
    | none => rfl
    | some v => simp [Pure.pure, Except.pure]

/-- **The merged scan lists the visible cells under the prefix.** -/
theorem CellOverlay.scanPrefix_eq [LawfulCursor ρ] (h : rows origin CELL = cellRows base)
    (o : CellOverlay) (pfx : Bytes) :
    o.scanPrefix origin pfx = .ok (((base.overlay o.entries).entries.filter fun e =>
      pfx.isPrefixOf e.1.encode).map .ok) := by
  obtain ⟨s, hs, hcollect⟩ := collect_scanPrefix CELL_valid origin pfx
  have hsize := LawfulCursor.size_le origin CELL
  unfold CellOverlay.scanPrefix
  rw [hs, mapError_ok, ok_bind, hcollect _ (by omega), overlayRange_eq, h]
  have hrows : (((cellRows base).entries.filter fun e => pfx.isPrefixOf e.1).map Except.ok
      : List (Except StorageError Entry))
      = (base.entries.filter fun e => pfx.isPrefixOf e.1.encode).map encodeRow := by
    rw [cellRows, OrdMap.relabel, List.filter_map, List.map_map]
    rfl
  rw [hrows]
  show Except.ok _ = _
  rw [mergeScan_encode, mergeOver_filter base o.entries fun k => pfx.isPrefixOf k.encode]

end Reads

end GolemDb.Branch
