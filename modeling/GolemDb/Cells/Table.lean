import GolemDb.Cells.Cells

/-!
The Cell table as a map of cells: a row is the encoding of a key and a value, so a point read of
the rows of a map is a lookup.
-/

namespace GolemDb.Cells

open GolemDb.Lib GolemDb.Storage GolemDb.Merkle

/-- The cells of a state, by their keys. -/
abbrev CellMap := OrdMap CellKey CellValue

lemma encode_strictMono : StrictMono CellKey.encode := fun _ _ h => CellKey.encode_lt_iff.mpr h

/-- The rows of a map of cells. -/
def cellRows (m : CellMap) : Rows := m.relabel CellKey.encode encode_strictMono CellValue.encode

lemma get?_cellRows (m : CellMap) (k : CellKey) :
    (cellRows m).get? k.encode = (m.get? k).map CellValue.encode :=
  OrdMap.get?_relabel k

lemma cellRows_set (m : CellMap) (k : CellKey) (v : Option CellValue) :
    cellRows (m.set k v) = (cellRows m).set k.encode (v.map CellValue.encode) :=
  OrdMap.relabel_set k v

lemma cellRows_inj {m m' : CellMap} (h : cellRows m = cellRows m') : m = m' := by
  refine OrdMap.ext_get fun k => ?_
  have hk : (m.get? k).map CellValue.encode = (m'.get? k).map CellValue.encode := by
    rw [← get?_cellRows, ← get?_cellRows, h]
  exact Option.map_injective (fun _ _ => CellValue.encode_inj) hk

lemma CELL_valid : CELL.validate = .ok () := by decide
lemma CELL_TRIE_valid : CELL_TRIE.validate = .ok () := by decide

/-- A point read of a table of cells. -/
lemma readValue_cellRows {τ : Type} [ReadTransaction τ] [LawfulRead τ] {tx : τ} {m : CellMap}
    (h : rows tx CELL = cellRows m) (k : CellKey) : readValue tx k.encode = .ok (m.get? k) := by
  unfold readValue
  rw [LawfulRead.get_eq CELL_valid, h, get?_cellRows]
  cases m.get? k with
  | none => rfl
  | some v => simp [Pure.pure, Except.pure]

lemma decodeRows_encode (l : List (CellKey × CellValue)) :
    decodeRows (l.map fun e => .ok (e.1.encode, e.2.encode)) = l.map .ok := by
  induction l with
  | nil => rfl
  | cons e l ih =>
    have he : decodeRow (.ok (e.1.encode, e.2.encode)) = .ok e := by
      simp [decodeRow, Pure.pure, Except.pure]
    rw [List.map_cons, decodeRows, he, ih, List.map_cons]

/-- A record's scan of a table of cells. -/
lemma scanRecord_cellRows {τ : Type} [ReadTransaction τ] [LawfulCursor τ] {tx : τ} {m : CellMap}
    (h : rows tx CELL = cellRows m) (id : U64) :
    scanRecord tx id = .ok ((m.entries.filter fun e => e.1.recordId = id).map .ok) := by
  obtain ⟨s, hs, hcollect⟩ := collect_scanPrefix CELL_valid tx id.toBeBytes
  have hsize := LawfulCursor.size_le tx CELL
  unfold scanRecord
  rw [hs, mapError_ok, ok_bind, hcollect _ (by omega), h]
  have hrows : (((cellRows m).entries.filter fun e => id.toBeBytes.isPrefixOf e.1).map Except.ok
      : List (Except StorageError Entry))
      = (m.entries.filter fun e => e.1.recordId = id).map fun e => .ok (e.1.encode, e.2.encode) := by
    rw [cellRows, OrdMap.relabel, List.filter_map, List.map_map]
    refine congrArg _ (List.filter_congr fun e _ => ?_)
    rw [Function.comp_apply, Bool.eq_iff_iff, List.isPrefixOf_iff_prefix, decide_eq_true_eq]
    exact CellKey.prefix_encode_iff
  rw [hrows, decodeRows_encode]
  rfl

end GolemDb.Cells
