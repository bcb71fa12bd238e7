import GolemDb.Cells.Table
import GolemDb.Lib.Overlay
import GolemDb.Merkle.Frame

/-!
What a batch of cells does to the tables, whatever the hash: a batch that succeeds sets the net
changes over the rows of the Cell table, reports the cells whose value differs, and writes no
table but `Cell` and `CellTrie`.
-/

namespace GolemDb.Cells

open GolemDb.Lib GolemDb.Storage GolemDb.Merkle

/-- The net changes of a batch, by key. -/
def netChanges (changes : List CellChange) : OrdMap CellKey (Option CellValue) :=
  ⟨normalizeChanges changes, normalize_sorted _⟩

/-- The rows of staged cells; `none` is a deletion. -/
def stagedCells (entries : OrdMap CellKey (Option CellValue)) : OrdMap Bytes (Option Bytes) :=
  entries.relabel CellKey.encode encode_strictMono (Option.map CellValue.encode)

lemma overlay_cellRows (m : CellMap) (entries : OrdMap CellKey (Option CellValue)) :
    (cellRows m).overlay (stagedCells entries) = cellRows (m.overlay entries) := by
  have h : ∀ (l : List (CellKey × Option CellValue)) (m : CellMap),
      (l.map fun e => (e.1.encode, e.2.map CellValue.encode)).foldl (fun r e => r.set e.1 e.2) (cellRows m)
        = cellRows (l.foldl (fun m e => m.set e.1 e.2) m) := by
    intro l
    induction l with
    | nil => exact fun _ => rfl
    | cons e l ih =>
      intro m
      rw [List.map_cons, List.foldl_cons, List.foldl_cons, ← cellRows_set, ih]
  exact h entries.entries m

section Batch

variable (H : HashProvider) {τ : Type} [WriteTransaction τ] [LawfulWrite τ]

/-- The change of a key against its row, if there is one. -/
def changeAt (tx : τ) (c : CellKey × Option CellValue) : Option (Bytes × CellValueChange) :=
  match readValue tx c.1.encode with
  | .ok before => if before ≠ c.2 then some (c.1.encode, ⟨c.1, before, c.2⟩) else none
  | .error _ => none

/-- The value read under a key encodes to its row. -/
lemma row_of_readValue {tx : τ} {key : Bytes} {v : Option CellValue} (h : readValue tx key = .ok v) :
    (rows tx CELL).get? key = v.map CellValue.encode := by
  unfold readValue at h
  rw [LawfulRead.get_eq CELL_valid, mapError_ok, ok_bind] at h
  cases hr : (rows tx CELL).get? key with
  | none =>
    rw [hr] at h
    rw [← pure_eq_ok.mp h]
    rfl
  | some bytes =>
    rw [hr] at h
    obtain ⟨value, hp, hv⟩ := bind_eq_ok.mp h
    rw [← pure_eq_ok.mp hv, Option.map_some, CellValue.encode_of_parse (mapError_eq_ok.mp hp)]

variable {H}

omit [LawfulWrite τ] in
/-- The loop of the checks reads alone, and lists the changes. -/
lemma runs_checks {root : RootRef 32} {tx tx' : τ} : ∀ (l : List (CellKey × Option CellValue))
    (acc out : List (Bytes × CellValueChange)), Prog.Runs (l.foldlM (checkNext H root) acc) tx out tx' →
    tx' = tx ∧ out = acc ++ l.filterMap (changeAt tx) ∧
      ∀ c ∈ l, ∃ before, readValue tx c.1.encode = .ok before := by
  intro l
  induction l with
  | nil =>
    intro acc out h
    obtain ⟨rfl, rfl⟩ := Prog.runs_pure_iff.mp h
    exact ⟨rfl, by simp, by simp⟩
  | cons c l ih =>
    intro acc out h
    rw [List.foldlM_cons] at h
    obtain ⟨acc₁, tx₁, h1, h2⟩ := Prog.runs_bind_iff.mp h
    obtain ⟨change, tx₂, hread, hpush⟩ := Prog.runs_bind_iff.mp h1
    obtain ⟨hread, rfl⟩ := Prog.runs_read.mp hread
    obtain ⟨before, hbefore, hrest⟩ := bind_eq_ok.mp hread
    obtain ⟨-, -, hchange⟩ := bind_eq_ok.mp hrest
    have hat : changeAt tx₂ c = change := by
      rw [changeAt, hbefore]
      exact pure_eq_ok.mp hchange
    have hstep : tx₁ = tx₂ ∧ acc₁ = acc ++ change.toList := by
      cases change with
      | none =>
        obtain ⟨rfl, rfl⟩ := Prog.runs_pure_iff.mp hpush
        exact ⟨rfl, by simp⟩
      | some x =>
        obtain ⟨rfl, rfl⟩ := Prog.runs_pure_iff.mp hpush
        exact ⟨rfl, by simp⟩
    obtain ⟨rfl, rfl⟩ := hstep
    obtain ⟨rfl, rfl, hall⟩ := ih _ _ h2
    refine ⟨rfl, ?_, ?_⟩
    · rw [List.filterMap_cons, hat, List.append_assoc]
      cases change <;> rfl
    · intro x hx
      rcases List.mem_cons.mp hx with rfl | hx
      · exact ⟨before, hbefore⟩
      · exact hall x hx

/-- The loop of the writes sets the rows in order. -/
lemma runs_writeValues : ∀ (l : List (Bytes × CellValueChange)) (tx : τ), ∃ tx',
    Prog.Runs (l.foldlM writeValue ()) tx () tx' ∧
      rows tx' = Function.update (rows tx) CELL ((l.map fun c => (c.1, c.2.after.map CellValue.encode)).foldl
        (fun r e => r.set e.1 e.2) (rows tx CELL)) := by
  intro l
  induction l with
  | nil => exact fun tx => ⟨tx, Prog.Runs.pure () tx, by simp⟩
  | cons c l ih =>
    intro tx
    obtain ⟨tx₁, h1, hrows₁⟩ : ∃ tx₁, Prog.Runs (writeValue () c) tx () tx₁ ∧
        rows tx₁ = Function.update (rows tx) CELL ((rows tx CELL).set c.1 (c.2.after.map CellValue.encode)) := by
      unfold writeValue
      cases c.2.after with
      | some value =>
        obtain ⟨tx₁, h1, h2⟩ := LawfulWrite.put_eq CELL_valid tx c.1 value.encode
        exact ⟨tx₁, h1.mapError, h2⟩
      | none =>
        obtain ⟨tx₁, h1, h2⟩ := LawfulWrite.delete_eq CELL_valid tx c.1
        exact ⟨tx₁, h1.mapError.bind (Prog.Runs.pure () tx₁), h2⟩
    obtain ⟨tx', h2, hrows⟩ := ih tx₁
    refine ⟨tx', ?_, ?_⟩
    · rw [List.foldlM_cons]
      exact h1.bind h2
    · rw [hrows, hrows₁, Function.update_self, Function.update_idem, List.map_cons, List.foldl_cons]

omit [LawfulWrite τ] in
lemma set_closed {C : Prog.Closed τ} (hT : Trie.Served C (cellTrie H)) (root : RootRef 32)
    (changes : List (Bytes × Option CellValue)) :
    C.Holds (CellTrie.set H root changes : Prog CellError τ (RootRef 32)) :=
  C.mapError (Trie.apply_closed hT _ _)

omit [LawfulWrite τ] in
lemma set_keeps {F : Prog.Frame τ} (hF : Admits F CELL_TRIE (Trie.BranchRow 32)) (root : RootRef 32)
    (changes : List (Bytes × Option CellValue)) :
    Prog.Keeps F (CellTrie.set H root changes : Prog CellError τ (RootRef 32)) :=
  set_closed (Trie.served_keeps (T := cellTrie H) hF) root changes

/-- The changed entries are those whose row differs. -/
lemma changes_eq {tx : τ} {l : List (CellKey × Option CellValue)}
    (h : ∀ c ∈ l, ∃ before, readValue tx c.1.encode = .ok before) :
    (l.filterMap (changeAt tx)).map (fun c => (c.1, c.2.after.map CellValue.encode))
      = (l.map fun e => (e.1.encode, e.2.map CellValue.encode)).filter
          fun e => decide ((rows tx CELL).get? e.1 ≠ e.2) := by
  induction l with
  | nil => rfl
  | cons c l ih =>
    obtain ⟨before, hb⟩ := h c (List.mem_cons_self ..)
    have hrow := row_of_readValue hb
    have hiff : (rows tx CELL).get? c.1.encode ≠ c.2.map CellValue.encode ↔ before ≠ c.2 := by
      rw [hrow, not_iff_not]
      exact ⟨fun h => Option.map_injective (fun _ _ => CellValue.encode_inj) h, fun h => by rw [h]⟩
    have hat : changeAt tx c = if before ≠ c.2 then some (c.1.encode, ⟨c.1, before, c.2⟩) else none := by
      rw [changeAt, hb]
    have htail := ih fun x hx => h x (List.mem_cons_of_mem _ hx)
    rw [List.filterMap_cons, hat, List.map_cons]
    by_cases hne : before ≠ c.2
    · rw [if_pos hne, List.filter_cons_of_pos (by simpa using hiff.mpr hne), List.map_cons, htail]
    · rw [if_neg hne, List.filter_cons_of_neg (by simpa using fun h => hne (hiff.mp h)), htail]

/-- **A batch that succeeds sets its net changes** over the Cell table and reports those that
changed a cell. -/
theorem apply_rows {root : RootRef 32} {changes : List CellChange} {tx tx' : τ} {u : CellsUpdate}
    (h : Prog.Runs (apply H root changes) tx u tx') :
    rows tx' CELL = (rows tx CELL).overlay (stagedCells (netChanges changes)) ∧
      u.changedCells = ((netChanges changes).entries.filterMap (changeAt tx)).map Prod.snd := by
  obtain ⟨checked, tx₁, hcheck, h⟩ := Prog.runs_bind_iff.mp h
  obtain ⟨rfl, rfl, hall⟩ := runs_checks _ _ _ hcheck
  obtain ⟨newRoot, tx₂, hset, h⟩ := Prog.runs_bind_iff.mp h
  obtain ⟨⟨⟩, tx₃, hwrite, h⟩ := Prog.runs_bind_iff.mp h
  obtain ⟨rfl, rfl⟩ := Prog.runs_pure_iff.mp h
  have hframe : rows tx₂ CELL = rows tx₁ CELL :=
    (set_keeps ((outside_allows CELL_TRIE_valid (Set.mem_singleton _)).admits _) root _).runs hset CELL (by decide)
  obtain ⟨tx₄, hw, hrows⟩ := runs_writeValues ([] ++ (normalizeChanges changes).filterMap (changeAt tx₁)) tx₂
  obtain ⟨-, rfl⟩ := hw.unique hwrite
  refine ⟨?_, by rw [List.nil_append]; rfl⟩
  rw [hrows, Function.update_self, hframe, List.nil_append, changes_eq hall]
  refine OrdMap.foldl_set_filter _ _ (stagedCells (netChanges changes)).sorted _ fun e _ hp => ?_
  simpa using hp

/-- The row of a cell that the batch puts. -/
def PutRow (changes : List CellChange) (k v : Bytes) : Prop :=
  ∃ key value, CellChange.put key value ∈ changes ∧ k = key.encode ∧ v = value.encode

omit [LawfulWrite τ] in
lemma checkChange_meets (tx : τ) (root : RootRef 32) (key : CellKey) (after : Option CellValue) :
    Prog.Meets (fun _ => True) (fun found => ∀ x, found = some x → x.1 = key.encode ∧ x.2.after = after)
      (checkChange H tx root key after) := by
  unfold checkChange
  refine Prog.Meets.bind (Prog.Meets.any _) fun before _ =>
    Prog.Meets.bind (Prog.Meets.any _) fun _ _ => ?_
  intro x hx
  split_ifs at hx
  obtain rfl := Option.some.inj hx
  exact ⟨rfl, rfl⟩

omit [LawfulWrite τ] in
/-- The changes found are changes of the batch. -/
lemma checks_post (root : RootRef 32) (changes : List CellChange) :
    Prog.Post (fun _ => True) (fun checked => ∀ c ∈ checked, ∃ key after,
        (key, after) ∈ changes.map CellChange.toPair ∧ c.1 = key.encode ∧ c.2.after = after)
      ((normalizeChanges changes).foldlM (checkNext H root) [] : Prog CellError τ _) := by
  refine Prog.Post.foldlM _ _ (fun c hc acc hacc => ?_) (by simp)
  have hmem := mem_of_lastOf (mem_normalize.mp hc)
  refine (Prog.Post.read fun tx => checkChange_meets tx root c.1 c.2).bind fun change hchange => ?_
  cases change with
  | none => exact Prog.Post.pure hacc
  | some x =>
    refine Prog.Post.pure fun y hy => ?_
    rcases List.mem_append.mp hy with hy | hy
    · exact hacc y hy
    · obtain rfl := List.mem_singleton.mp hy
      obtain ⟨hk, ha⟩ := hchange y rfl
      exact ⟨c.1, c.2, hmem, hk, ha⟩

omit [LawfulWrite τ] in
/-- **A batch writes its own cells and branches alone.** -/
theorem apply_keeps {F : Prog.Frame τ} {changes : List CellChange} (hF : Admits F CELL (PutRow changes))
    (hF' : Admits F CELL_TRIE (Trie.BranchRow 32)) (root : RootRef 32) :
    Prog.Keeps F (apply H root changes : Prog CellError τ CellsUpdate) := by
  refine Prog.Keeps.bind_post (Prog.Keeps.foldlM (fun acc c => ?_) _ _) (checks_post root changes)
    fun checked hchecked => ?_
  · refine (Prog.Keeps.read _).bind fun change => ?_
    cases change <;> exact Prog.Keeps.pure _
  · refine (set_keeps hF' root _).bind fun _ => (Prog.Keeps.foldlM_mem _ _ fun c hc _ => ?_).bind
      fun _ => Prog.Keeps.pure _
    obtain ⟨key, after, hmem, hk, ha⟩ := hchecked c hc
    unfold writeValue
    cases hafter : c.2.after with
    | some value =>
      refine Prog.Keeps.mapError (hF.put ⟨key, value, ?_, hk, rfl⟩)
      obtain ⟨change, hchange, hpair⟩ := List.mem_map.mp hmem
      rw [← ha, hafter] at hpair
      cases change with
      | put key' value' =>
        obtain ⟨rfl, h⟩ := Prod.mk.inj hpair
        obtain rfl := Option.some.inj h
        exact hchange
      | delete key' => cases (Prod.mk.inj hpair).2
    | none => exact (Prog.Keeps.mapError (hF.delete _)).bind fun _ => Prog.Keeps.pure _

end Batch

end GolemDb.Cells
