import GolemDb.Index.TermRange
import GolemDb.Index.Frame

/-!
The Index table as a map of terms: a row is a term's bytes and the digest of its posting set, so a
point read of the rows of a map is a lookup, and a scan lists terms in their order.
-/

namespace GolemDb.Index

open GolemDb.Lib GolemDb.Storage GolemDb.Merkle GolemDb.Cells

/-- The digests of the posting sets, by term. -/
abbrev TermMap := OrdMap IndexTerm Hash

lemma bytes_strictMono : StrictMono IndexTerm.bytes := fun _ _ h => h

/-- The rows of a map of terms. -/
def termRows (m : TermMap) : Rows := m.relabel IndexTerm.bytes bytes_strictMono Subtype.val

lemma get?_termRows (m : TermMap) (t : IndexTerm) : (termRows m).get? t.bytes = (m.get? t).map Subtype.val :=
  OrdMap.get?_relabel t

lemma termRows_set (m : TermMap) (t : IndexTerm) (h : Option Hash) :
    termRows (m.set t h) = (termRows m).set t.bytes (h.map Subtype.val) :=
  OrdMap.relabel_set t h

/-- No digest is that of the empty set. -/
def Rooted (H : HashProvider) (m : TermMap) : Prop := ∀ t h, m.get? t = some h → h ≠ H.hash []

section Read

variable {H : HashProvider} {m : TermMap} (hm : Rooted H m)

lemma decodeRoot_eq {h : Hash} (hne : h ≠ H.hash []) : decodeRoot H h.1 = .ok h := by
  unfold decodeRoot
  rw [toArr?_val]
  exact if_neg hne

include hm

/-- A point read of a table of terms. -/
lemma bitmapRoot_termRows {τ : Type} [ReadTransaction τ] [LawfulRead τ] {tx : τ} (h : rows tx INDEX = termRows m)
    (t : IndexTerm) : bitmapRoot H tx t = .ok (m.get? t) := by
  unfold bitmapRoot
  rw [LawfulRead.get_eq INDEX_valid, h, get?_termRows]
  cases hv : m.get? t with
  | none => rfl
  | some hash =>
    simp only [mapError_ok, ok_bind, Option.map_some, decodeRoot_eq (hm t hash hv)]
    rfl

/-- The rows of a part of the map decode. -/
lemma decodeTermRows_rows : ∀ l : List (IndexTerm × Hash), (∀ e ∈ l, e ∈ m.entries) →
    decodeTermRows H (l.map fun e => .ok (e.1.bytes, e.2.1)) = l.map .ok := by
  intro l
  induction l with
  | nil => exact fun _ => rfl
  | cons e l ih =>
    intro hl
    have hroot := decodeRoot_eq (hm e.1 e.2 (OrdMap.mem_entries.mp (hl e (List.mem_cons_self ..))))
    have hrow : decodeTermRow H (.ok (e.1.bytes, e.2.1)) = .ok e := by
      unfold decodeTermRow
      rw [mapError_ok, ok_bind]
      simp only
      rw [IndexTerm.decode_bytes, mapError_ok, ok_bind, hroot, ok_bind]
      rfl
    rw [List.map_cons, decodeTermRows, hrow, ih fun x hx => hl x (List.mem_cons_of_mem _ hx), List.map_cons]

/-- **A scan of a table of terms** lists those with a key between the bounds. -/
lemma terms_termRows {τ : Type} [ReadTransaction τ] [LawfulCursor τ] {tx : τ} (h : rows tx INDEX = termRows m)
    {range : TermRange} (hrange : reversed range.lower range.upper = false) :
    terms H tx range = .ok ((m.entries.filter fun e =>
      range.lower.below e.1.bytes && range.upper.above e.1.bytes).map .ok) := by
  obtain ⟨s, hs, hcollect⟩ := collect_scan INDEX_valid tx hrange
  have hsize := LawfulCursor.size_le tx INDEX
  unfold terms
  rw [hs, mapError_ok, ok_bind, hcollect _ (by omega), h]
  have hrows : ((termRows m).entries.filter fun e => range.lower.below e.1 && range.upper.above e.1)
      = (m.entries.filter fun e => range.lower.below e.1.bytes && range.upper.above e.1.bytes).map
        fun e => (e.1.bytes, e.2.1) := by
    rw [termRows, OrdMap.relabel, List.filter_map]
    rfl
  rw [hrows, List.map_map]
  exact congrArg _ (decodeTermRows_rows hm _ fun e he => (List.mem_filter.mp he).1)

end Read

end GolemDb.Index
