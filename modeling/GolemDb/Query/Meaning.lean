import GolemDb.Query.Bounded
import GolemDb.Index.TermOrder
import GolemDb.Branch.Commitment
import GolemDb.Records.Lookup

/-!
What a filter means. A filter selects the records with an attribute of its field that it admits
(`Filter.Matches`). An admitted filter covers the terms of the admitted values
(`tryFrom_covers`), and over tables that hold the index of a map of cells the match set of its plan
is the set of the selected records (`matchSet_matches`). How long the keys of its plan are is read off
its field and values (`Filter.fits_iff`).
-/

namespace GolemDb.Query

open GolemDb.Lib GolemDb.Storage GolemDb.Merkle GolemDb.Cells GolemDb.Index GolemDb.Branch GolemDb.Records

/-! ### Filters as predicates -/

def Filter.field : Filter → CellName
  | .eq field _ => field
  | .isIn field _ => field
  | .range field _ _ => field

/-- The filter admits a value of the type with the payload. -/
def Filter.Admits : Filter → CellType → Bytes → Prop
  | .eq _ value, ty, bytes => ty = value.ty ∧ bytes = value.value
  | .isIn _ values, ty, bytes => ∃ value ∈ values, ty = value.ty ∧ bytes = value.value
  | .range _ lower upper, ty, bytes => CommonType lower upper ty ∧ FromLower ty lower bytes ∧ ToUpper ty upper bytes

/-- **A record that a filter selects**: its cell of the field is an attribute with an admitted value. -/
def Filter.Matches (filter : Filter) (m : CellMap) (r : U64) : Prop :=
  ∃ v : CellValue, m.get? ⟨r, filter.field⟩ = some v ∧ v.indexable = true ∧ filter.Admits v.ty v.value

/-! ### Plans -/

section Plans

variable {filter : Filter} {plan : Plan}

/-- The terms under one value. -/
lemma term_covers {field : CellName} {value : CellValue} {t t' : IndexTerm} (h : term field value = .ok t) :
    t'.bytes = t.bytes ↔ ∃ ty payload, TermParts field ty payload ∧ t'.bytes = termBytes field ty payload ∧
      ty = value.ty ∧ payload = value.value := by
  obtain ⟨hparts, hbytes⟩ := IndexTerm.fromCellName_ok (mapError_eq_ok.mp h)
  constructor
  · intro he
    exact ⟨_, _, hparts, he.trans hbytes, rfl, rfl⟩
  · rintro ⟨ty, payload, -, he, rfl, rfl⟩
    rw [he, hbytes]

/-- The terms of a list of values, if each value has one. -/
lemma mem_terms {field : CellName} {values : List CellValue} {l : List IndexTerm}
    (h : values.mapM (term field) = .ok l) (t : IndexTerm) : t ∈ l ↔ ∃ value ∈ values, term field value = .ok t := by
  refine ⟨mem_of_mapM h t, ?_⟩
  rintro ⟨value, hvalue, hterm⟩
  obtain ⟨t', ht', hterm'⟩ := result_of_mapM h value hvalue
  rwa [Except.ok.inj (hterm.symm.trans hterm')]

/-- An equality of a user name is admitted if its value has a term. -/
lemma tryFrom_eq {field : CellName} {value : CellValue} (hname : validateName field = .ok ())
    (hvalue : value.ty ≠ .bytes) : ∃ t, Plan.tryFrom (.eq field value) = .ok (.termRead t) := by
  obtain ⟨t, ht, -⟩ : ∃ t, IndexTerm.fromCellName field value = .ok t ∧ _ :=
    IndexTerm.fromCellName_userName (validateName_ok.mp hname) hvalue
  refine ⟨t, ?_⟩
  show (term field value).map Plan.termRead = _
  unfold term
  rw [ht]
  rfl

/-- **An admitted filter covers the terms of the values it admits.** -/
theorem tryFrom_covers (h : Plan.tryFrom filter = .ok plan) (t : IndexTerm) :
    plan.Covers t.bytes ↔ ∃ ty payload, TermParts filter.field ty payload ∧
      t.bytes = termBytes filter.field ty payload ∧ filter.Admits ty payload := by
  cases filter with
  | eq field value =>
    obtain ⟨t', ht', rfl⟩ := map_eq_ok.mp h
    exact term_covers ht'
  | isIn field values =>
    obtain ⟨found, hfound, rfl⟩ := map_eq_ok.mp h
    cases values with
    | nil =>
      obtain ⟨⟨⟩, -, hnone⟩ := bind_eq_ok.mp hfound
      obtain rfl := pure_eq_ok.mp hnone
      simp [Plan.Covers, Filter.Admits]
    | cons first rest =>
      obtain ⟨-, hfound⟩ := guard_eq_ok.mp hfound
      obtain ⟨l, hl, hsome⟩ := bind_eq_ok.mp hfound
      obtain rfl := pure_eq_ok.mp hsome
      show (∃ t' ∈ OrdSet.ofList l, t.bytes = t'.bytes) ↔ _
      constructor
      · rintro ⟨t', hmem, he⟩
        obtain ⟨value, hvalue, hterm⟩ := (mem_terms hl t').mp (OrdSet.mem_ofList.mp hmem)
        obtain ⟨ty, payload, hparts, hbytes, rfl, rfl⟩ := (term_covers hterm).mp he
        exact ⟨_, _, hparts, hbytes, value, hvalue, rfl, rfl⟩
      · rintro ⟨ty, payload, hparts, hbytes, value, hvalue, rfl, rfl⟩
        -- every value of an admitted list has a term
        obtain ⟨t', hmem, hterm⟩ := result_of_mapM hl value hvalue
        exact ⟨t', OrdSet.mem_ofList.mpr hmem, (term_covers hterm).mpr ⟨_, _, hparts, hbytes, rfl, rfl⟩⟩
  | range field lower upper =>
    obtain ⟨found, hfound, rfl⟩ := map_eq_ok.mp h
    have hselects : ∀ t, Selects field lower upper t ↔ ∃ ty payload, TermParts field ty payload ∧
        t.bytes = termBytes field ty payload ∧ (Filter.range field lower upper).Admits ty payload := by
      intro t
      constructor
      · rintro ⟨ty, payload, hcommon, hparts, hbytes, hl, hu⟩
        exact ⟨ty, payload, hparts, hbytes, hcommon, hl, hu⟩
      · rintro ⟨ty, payload, hparts, hbytes, hcommon, hl, hu⟩
        exact ⟨ty, payload, hcommon, hparts, hbytes, hl, hu⟩
    cases found with
    | none => exact iff_of_false id fun hex => between_none (mapError_eq_ok.mp hfound) t ((hselects t).mpr hex)
    | some range => exact ((between_some (mapError_eq_ok.mp hfound)).1 t).trans (hselects t)

end Plans

/-! ### The keys of a plan -/

section Keys

variable {filter : Filter} {plan : Plan} {limits : Limits}

/-- **A filter whose terms are short**: a field, two bytes and a value make a term, and of a range the lower end
alone is a key. -/
def Filter.Short (limits : Limits) : Filter → Prop
  | .eq field value => field.length + 2 + value.value.length ≤ limits.key
  | .isIn field values => ∀ value ∈ values, field.length + 2 + value.value.length ≤ limits.key
  | .range field lower _ => field.length + 2 + (lower.value?.elim 0 fun value => value.value.length) ≤ limits.key

instance (limits : Limits) : (filter : Filter) → Decidable (filter.Short limits)
  | .eq _ _ => Nat.decLe _ _
  | .isIn field values =>
    inferInstanceAs (Decidable (∀ value ∈ values, field.length + 2 + value.value.length ≤ limits.key))
  | .range _ _ _ => Nat.decLe _ _

lemma term_length {field : CellName} {value : CellValue} {t : IndexTerm} (h : term field value = .ok t) :
    t.bytes.length = field.length + 2 + value.value.length := by
  rw [(IndexTerm.fromCellName_ok (mapError_eq_ok.mp h)).2, termBytes]
  simp only [List.length_append, List.length_cons, List.length_nil]

lemma Filter.fits_plan (h : Plan.tryFrom filter = .ok plan) : filter.Fits limits ↔ plan.Fits limits := by
  refine ⟨fun hfits => hfits plan h, fun hfits plan' h' => ?_⟩
  rwa [← Except.ok.inj (h.symm.trans h')]

/-- **The keys of an admitted filter fit exactly if it is short**, or selects by no key. -/
theorem Filter.fits_iff (h : Plan.tryFrom filter = .ok plan) :
    filter.Fits limits ↔ plan = .empty ∨ filter.Short limits := by
  rw [Filter.fits_plan h]
  cases filter with
  | eq field value =>
    obtain ⟨t, ht, rfl⟩ := map_eq_ok.mp h
    show t.bytes.length ≤ limits.key ↔ _
    rw [term_length ht, or_iff_right (by rintro ⟨⟩)]
    rfl
  | isIn field values =>
    obtain ⟨found, hfound, rfl⟩ := map_eq_ok.mp h
    cases values with
    | nil =>
      obtain ⟨⟨⟩, -, hnone⟩ := bind_eq_ok.mp hfound
      obtain rfl := pure_eq_ok.mp hnone
      exact ⟨fun _ => .inl rfl, fun _ => trivial⟩
    | cons first rest =>
      obtain ⟨-, hfound⟩ := guard_eq_ok.mp hfound
      obtain ⟨l, hl, hsome⟩ := bind_eq_ok.mp hfound
      obtain rfl := pure_eq_ok.mp hsome
      rw [or_iff_right (by rintro ⟨⟩)]
      show (∀ t ∈ (OrdSet.ofList l).toList, t.bytes.length ≤ limits.key) ↔
        ∀ value ∈ first :: rest, field.length + 2 + value.value.length ≤ limits.key
      constructor
      · intro hall value hvalue
        obtain ⟨t, hmem, ht⟩ := result_of_mapM hl value hvalue
        rw [← term_length ht]
        exact hall t (OrdSet.mem_toList.mpr (OrdSet.mem_ofList.mpr hmem))
      · intro hall t ht
        obtain ⟨value, hvalue, hterm⟩ := (mem_terms hl t).mp (OrdSet.mem_ofList.mp (OrdSet.mem_toList.mp ht))
        rw [term_length hterm]
        exact hall value hvalue
  | range field lower upper =>
    obtain ⟨found, hfound, rfl⟩ := map_eq_ok.mp h
    cases found with
    | none => exact ⟨fun _ => .inl rfl, fun _ => trivial⟩
    | some r =>
      have hbetween := mapError_eq_ok.mp hfound
      obtain ⟨ty, hcommon, hn, hty⟩ := between_ok hbetween
      have heq := Except.ok.inj ((between_eq hcommon hn hty).symm.trans hbetween)
      split_ifs at heq
      rw [or_iff_right (by rintro ⟨⟩)]
      show (r.lower.value?.getD []).length ≤ limits.key ↔ _
      rw [← Option.some.inj heq]
      cases lower <;> simp [sideKey, runPrefix, Bound.value?, Filter.Short] <;> omega

end Keys

/-! ### Evaluation -/

section Evaluation

variable {H : HashProvider} {R : Roaring} {P : Set Bytes} {M : Postings} {m : CellMap} {ρ : Type} [ReadTransaction ρ]
  [LawfulCursor ρ] {tx : ρ}

/-- The union of sets that were all read. -/
lemma union_ok (l : List Bitmap) : ∃ found, union (l.map .ok) = .ok found ∧
    ∀ r, r ∈ found.values ↔ ∃ b ∈ l, r ∈ b.values := by
  suffices ∀ acc : Bitmap, ∃ found, (l.map Except.ok).foldlM (fun union (item : Except IndexError Bitmap) => do
        let postings ← item.mapError QueryError.ofIndex
        return (⟨union.values.union postings.values⟩ : Bitmap)) acc = Except.ok found ∧
      ∀ r, r ∈ found.values ↔ r ∈ acc.values ∨ ∃ b ∈ l, r ∈ b.values by
    obtain ⟨found, hfound, hmem⟩ := this ⟨OrdMap.empty⟩
    exact ⟨found, hfound, fun r => (hmem r).trans (or_iff_right (OrdSet.not_mem_empty r))⟩
  induction l with
  | nil => exact fun acc => ⟨acc, rfl, fun r => by simp⟩
  | cons b l ih =>
    intro acc
    obtain ⟨found, hfound, hmem⟩ := ih ⟨acc.values.union b.values⟩
    refine ⟨found, hfound, fun r => ?_⟩
    rw [hmem, OrdSet.mem_union, List.exists_mem_cons_iff, or_assoc]

/-- The posting set of a term, empty where it has none. -/
lemma postings_represents (hinj : Set.InjOn H.hash P) (hM : Represents H R M P (rows tx)) (t : IndexTerm) :
    postings H R tx t = .ok ⟨M.ids t⟩ := by
  unfold postings
  rw [bitmap_represents hinj hM, ok_bind]
  split_ifs with hempty
  · rw [hempty]
    rfl
  · rfl

/-- The posting sets of a range. -/
lemma scanPostings_represents (hinj : Set.InjOn H.hash P) (hM : Represents H R M P (rows tx)) {range : TermRange}
    (hrange : reversed range.lower range.upper = false) : ∃ terms : List IndexTerm,
      scanPostings H R tx range = .ok (terms.map fun t => .ok ⟨M.ids t⟩) ∧
        ∀ t, t ∈ terms ↔ M.ids t ≠ OrdMap.empty ∧ range.lower.below t.bytes = true ∧
          range.upper.above t.bytes = true := by
  have hitems := terms_termRows (hM.rooted hinj) hM.table hrange
  have hdigest : ∀ e ∈ (digests H R M).entries, M.ids e.1 ≠ OrdMap.empty ∧ e.2 = (setRoot H R (M.ids e.1)).hash H := by
    intro e he
    have hget := OrdMap.mem_entries.mp he
    rw [get?_digests, setDigest] at hget
    split_ifs at hget with hempty
    exact ⟨hempty, (Option.some.inj hget).symm⟩
  refine ⟨((digests H R M).entries.filter fun e => range.lower.below e.1.bytes
    && range.upper.above e.1.bytes).map Prod.fst, ?_, fun t => ?_⟩
  · unfold scanPostings
    rw [hitems, ok_bind, pure_eq_ok, List.map_map, List.map_map]
    refine List.map_congr_left fun e he => ?_
    obtain ⟨hne, hd⟩ := hdigest e (List.mem_filter.mp he).1
    show bitmapAt H R tx e.2 = _
    rw [hd]
    exact bitmap_held hinj hM.bitmaps (hM.held e.1) hne
  · rw [List.mem_map]
    constructor
    · rintro ⟨e, he, rfl⟩
      obtain ⟨hmem, hbetween⟩ := List.mem_filter.mp he
      rw [Bool.and_eq_true] at hbetween
      exact ⟨(hdigest e hmem).1, hbetween⟩
    · rintro ⟨hne, hl, hu⟩
      refine ⟨(t, (setRoot H R (M.ids t)).hash H), List.mem_filter.mpr ⟨OrdMap.mem_entries.mpr ?_, ?_⟩, rfl⟩
      · rw [get?_digests, setDigest, if_neg hne]
      · rw [hl, hu]
        rfl

/-- **The match set of a plan** holds the ids under the terms it covers. -/
theorem matchSet_covers (hinj : Set.InjOn H.hash P) (hM : Represents H R M P (rows tx)) {plan : Plan}
    (hrev : ∀ range, plan = .scan range → reversed range.lower range.upper = false) :
    ∃ found, matchSet H R tx plan = .ok found ∧ ∀ r, r ∈ found.values ↔ ∃ t : IndexTerm, plan.Covers t.bytes ∧
      r ∈ M.ids t := by
  cases plan with
  | termRead term =>
    refine ⟨⟨M.ids term⟩, by rw [matchSet, postings_represents hinj hM, mapError_ok], fun r => ?_⟩
    constructor
    · exact fun hr => ⟨term, rfl, hr⟩
    · rintro ⟨t, ht, hr⟩
      rwa [← IndexTerm.ext_bytes ht]
  | termReads terms =>
    obtain ⟨found, hfound, hmem⟩ := union_ok (terms.toList.map fun t => (⟨M.ids t⟩ : Bitmap))
    refine ⟨found, ?_, fun r => ?_⟩
    · rw [List.map_map] at hfound
      rw [matchSet, List.map_congr_left fun t _ => postings_represents hinj hM t]
      exact hfound
    · rw [hmem]
      constructor
      · rintro ⟨b, hb, hr⟩
        obtain ⟨t, ht, rfl⟩ := List.mem_map.mp hb
        exact ⟨t, ⟨t, OrdSet.mem_toList.mp ht, rfl⟩, hr⟩
      · rintro ⟨t, ⟨t', ht', he⟩, hr⟩
        obtain rfl := IndexTerm.ext_bytes he
        exact ⟨_, List.mem_map_of_mem (OrdSet.mem_toList.mpr ht'), hr⟩
  | scan range =>
    obtain ⟨terms, hscan, hterms⟩ := scanPostings_represents hinj hM (hrev range rfl)
    obtain ⟨found, hfound, hmem⟩ := union_ok (terms.map fun t => (⟨M.ids t⟩ : Bitmap))
    refine ⟨found, ?_, fun r => ?_⟩
    · rw [List.map_map] at hfound
      rw [matchSet, hscan, mapError_ok, ok_bind]
      exact hfound
    · rw [hmem]
      constructor
      · rintro ⟨b, hb, hr⟩
        obtain ⟨t, ht, rfl⟩ := List.mem_map.mp hb
        exact ⟨t, ((hterms t).mp ht).2, hr⟩
      · rintro ⟨t, hcov, hr⟩
        have hne : M.ids t ≠ OrdMap.empty := fun he => OrdSet.not_mem_empty r (he ▸ hr)
        exact ⟨_, List.mem_map_of_mem ((hterms t).mpr ⟨hne, hcov⟩), hr⟩
  | empty => exact ⟨⟨OrdMap.empty⟩, rfl, fun r => by simp [Plan.Covers]⟩

omit [ReadTransaction ρ] [LawfulCursor ρ] in
/-- **The terms that an admitted filter covers** are those of the attributes it selects. -/
lemma covers_matches (hnamed : Named m) {filter : Filter} {plan : Plan} (hplan : Plan.tryFrom filter = .ok plan)
    (r : U64) : (∃ t : IndexTerm, plan.Covers t.bytes ∧ r ∈ (cellPostings m).ids t) ↔ filter.Matches m r := by
  constructor
  · rintro ⟨t, hcov, hr⟩
    obtain ⟨ty, payload, hparts, hbytes, hadmits⟩ := (tryFrom_covers hplan t).mp hcov
    obtain ⟨k, v, hk, rfl, ht⟩ := mem_cellPostings.mp hr
    obtain ⟨hi, hp, hb⟩ := term_eq_some.mp (attributeTerm_eq_some.mp ht)
    obtain ⟨hname, rfl, rfl⟩ := IndexTerm.termBytes_inj hp.1 hparts.1 (hb.symm.trans hbytes)
    exact ⟨v, by rw [← hname]; exact hk, hi, hadmits⟩
  · rintro ⟨v, hv, hi, hadmits⟩
    have hparts : TermParts filter.field v.ty v.value := ⟨hnamed _ v hv hi, v.ordered hi, v.valid⟩
    obtain ⟨t, -, hbytes⟩ : ∃ t, IndexTerm.fromCellName filter.field v = .ok t ∧ _ :=
      IndexTerm.fromCellName_userName hparts.1 hparts.2.1
    refine ⟨t, (tryFrom_covers hplan t).mpr ⟨_, _, hparts, hbytes, hadmits⟩, ?_⟩
    exact mem_cellPostings.mpr ⟨_, v, hv, rfl, attributeTerm_eq_some.mpr (term_eq_some.mpr ⟨hi, hparts, hbytes⟩)⟩

/-- **The match set of an admitted filter is the set of the records it selects.** -/
theorem matchSet_matches (hinj : Set.InjOn H.hash P) (hm : Holds H R P (rows tx) m) (hnamed : Named m) {filter : Filter}
    {plan : Plan} (hplan : Plan.tryFrom filter = .ok plan) :
    ∃ found, matchSet H R tx plan = .ok found ∧ ∀ r, r ∈ found.values ↔ filter.Matches m r := by
  have hrev : ∀ range, plan = .scan range → reversed range.lower range.upper = false := by
    rintro range rfl
    exact tryFrom_scan hplan
  obtain ⟨found, hfound, hmem⟩ := matchSet_covers hinj hm.index hrev
  exact ⟨found, hfound, fun r => (hmem r).trans (covers_matches hnamed hplan r)⟩

omit [ReadTransaction ρ] [LawfulCursor ρ] in
/-- **No row of the Index table matches an admitted filter** exactly if it selects no record. -/
theorem unmatched_iff {r : Table → Rows} (hm : Holds H R P r m) (hnamed : Named m) {filter : Filter} {plan : Plan}
    (hplan : Plan.tryFrom filter = .ok plan) : filter.Unmatched (r INDEX) ↔ ∀ id, ¬ filter.Matches m id := by
  -- the rows are those of the terms with a posting
  have hrow : ∀ key, (∃ value, (r INDEX).get? key = some value) ↔
      ∃ t : IndexTerm, key = t.bytes ∧ (cellPostings m).ids t ≠ OrdMap.empty := by
    intro key
    simp only [hm.index.table, termRows, OrdMap.get?_relabel_eq_some]
    constructor
    · rintro ⟨value, t, digest, rfl, rfl, hd⟩
      rw [get?_digests, setDigest] at hd
      split_ifs at hd with hne
      exact ⟨t, rfl, hne⟩
    · rintro ⟨t, rfl, hne⟩
      exact ⟨_, t, _, rfl, rfl, by rw [get?_digests, setDigest, if_neg hne]⟩
  constructor
  · intro h id hid
    obtain ⟨t, hcov, hin⟩ := (covers_matches hnamed hplan id).mpr hid
    obtain ⟨value, hv⟩ := (hrow t.bytes).mpr ⟨t, rfl, fun he => OrdSet.not_mem_empty id (he ▸ hin)⟩
    exact h plan hplan _ value hv hcov
  · intro h plan' hplan' key value hv hcov
    obtain rfl := Except.ok.inj (hplan.symm.trans hplan')
    obtain ⟨t, rfl, hne⟩ := (hrow key).mp ⟨value, hv⟩
    obtain ⟨id, hid⟩ := not_forall_not.mp fun hall => hne (OrdSet.eq_empty_iff.mpr hall)
    exact h id ((covers_matches hnamed hplan id).mp ⟨t, hcov, hid⟩)

end Evaluation

/-! ### Records by their ids -/

section Records

variable {ρ : Type} [ReadTransaction ρ] [LawfulCursor ρ] {tx : ρ} {m : CellMap}

/-- A record with a key is read by its id. -/
lemma readCommittedById_eq (htx : rows tx CELL = cellRows m) {id : U64} {K : RecordKey}
    (hid : m.get? (State.identityCell id) = some (CellValue.fromBytes32 K)) (projection : Option (List CellName)) :
    readCommittedById tx id projection = .ok ⟨K, projected m id projection⟩ := by
  have hkey : State.identityKey (CellValue.fromBytes32 K) = some K := by simp [State.identityKey]
  unfold readCommittedById
  rw [Cells.get, readValue_cellRows htx, mapError_ok, ok_bind, hid]
  simp only [hkey, readCells_eq htx]
  rfl

/-- The records of a list of ids with keys. -/
lemma readAll_eq (htx : rows tx CELL = cellRows m) (key : U64 → RecordKey) (projection : Option (List CellName)) :
    ∀ ids : List U64, (∀ id ∈ ids, m.get? (State.identityCell id) = some (CellValue.fromBytes32 (key id))) →
      (ids.mapM fun id => readCommittedById tx id projection)
        = .ok (ids.map fun id => ⟨key id, projected m id projection⟩) := by
  intro ids
  induction ids with
  | nil => exact fun _ => rfl
  | cons id ids ih =>
    intro h
    rw [List.mapM_cons, readCommittedById_eq htx (h id (List.mem_cons_self ..)), ok_bind,
      ih fun x hx => h x (List.mem_cons_of_mem _ hx)]
    rfl

end Records

end GolemDb.Query
