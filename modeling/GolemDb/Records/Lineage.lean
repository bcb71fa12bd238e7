import GolemDb.Records.Mutations
import Mathlib.Logic.Relation

/-!
What a mutation does to the records, one map after another. A mutation changes user cells in the
record of its key only, a record keeps its key until it is deleted, and what a creation allocates
is above every id that was in use. A lineage is a sequence of mutations and publications; along it
the allocator never goes back, and an id that was in use is never taken again (`Lineage.ids`).
-/

namespace GolemDb.Records

open GolemDb.Lib GolemDb.Storage GolemDb.Merkle GolemDb.Cells GolemDb.Index GolemDb.Branch

/-- The key a record holds. -/
def keyOf (m : CellMap) (r : U64) : Option CellValue := m.get? (State.identityCell r)

/-- A record without a key has no cells. -/
lemma Consistent.no_cells {c : CommitId} {m : CellMap} (h : Consistent c m) {k : CellKey}
    (hk : System.FIRST_USER_RECORD_ID ≤ k.recordId) (hnone : keyOf m k.recordId = none) : m.get? k = none := by
  by_contra hne
  obtain ⟨v, hv⟩ := Option.ne_none_iff_exists'.mp hne
  obtain ⟨K, hK, hb⟩ := h.owned k v hv hk
  obtain ⟨r, hr, -, hid⟩ := h.bound K _ hK hb
  rw [← CellValue.fromU64_inj hr] at hid
  rw [keyOf, hid] at hnone
  cases hnone

/-- **The records of a later state**: the allocator has not gone back, and every id below the old one has
kept its key or lost its record. -/
def Aged (m m' : CellMap) : Prop :=
  ∃ n n', m.get? State.allocatorKey = some (CellValue.fromU64 n) ∧
    m'.get? State.allocatorKey = some (CellValue.fromU64 n') ∧ n ≤ n' ∧
    ∀ r, System.FIRST_USER_RECORD_ID ≤ r → r < n → keyOf m' r = keyOf m r ∨ keyOf m' r = none

/-- **What a successful mutation of a key does**: the records age, only cells of the key's record change among
them, and the cells of reserved records stay but for the key's binding and the allocator. -/
structure Moved (K : RecordKey) (m m' : CellMap) : Prop where
  aged : Aged m m'
  keeps : KeepsSystem m m' K
  own : ∀ k, System.FIRST_USER_RECORD_ID ≤ k.recordId → m'.get? k ≠ m.get? k →
    m.get? (State.binding K) = some (CellValue.fromU64 k.recordId) ∨
      m'.get? (State.binding K) = some (CellValue.fromU64 k.recordId)

section Moved

variable {c : CommitId} {m : CellMap} {K : RecordKey} (h : Consistent c m)

include h

omit h in
lemma moved_created {n next : U64} {values : RecordCells}
    (hn : m.get? State.allocatorKey = some (CellValue.fromU64 n)) (h64 : System.FIRST_USER_RECORD_ID ≤ n)
    (hbelow : ∀ k v, m.get? k = some v → System.FIRST_USER_RECORD_ID ≤ k.recordId → k.recordId < n)
    (hnext : checkedSucc n = some next) : Moved K m (Records.created m n next K values) := by
  have hget := @get?_created m K n next values h64 hbelow
  refine ⟨⟨n, next, hn, by rw [hget, if_pos rfl], (checkedSucc_lt hnext).1.le, fun r hr hlt => .inl ?_⟩,
    keepsSystem_created h64 hbelow, fun k hk hne => .inr ?_⟩
  · have hrn : (State.identityCell r).recordId ≠ n := hlt.ne
    rw [keyOf, keyOf, hget, if_neg (identity_ne_allocator r), if_neg (identity_ne_binding r K), if_neg (key_ne hrn),
      if_neg hrn]
  · have hbind : (Records.created m n next K values).get? (State.binding K) = some (CellValue.fromU64 n) := by
      rw [hget, if_neg (key_ne (by decide : System.RECORD_KEYS.id ≠ System.ALLOC.id)), if_pos rfl]
    have hrec : k.recordId = n := by
      by_contra hrn
      refine hne ?_
      rw [hget, if_neg (key_ne (user_ne hk (by decide : System.ALLOC.id < _))),
        if_neg (key_ne (user_ne hk (by decide : System.RECORD_KEYS.id < _))), if_neg (key_ne hrn), if_neg hrn]
    rw [hbind, hrec]

variable (hK : System.byKey K = none)

include hK

lemma Consistent.moved_patched {id : U64} {changes : RecordPatch}
    (hb : m.get? (State.binding K) = some (CellValue.fromU64 id))
    (hnames : ∀ name p, changes.get? name = some p → UserName name) :
    Moved K m (editCells m id changes CellPatch.value?) := by
  obtain ⟨r, hr, h64, -⟩ := h.bound K _ hK hb
  obtain rfl := CellValue.fromU64_inj hr
  obtain ⟨n, hn, -, -⟩ := h.allocator
  have hkey : changes.get? Reserved.KEY = none := by
    by_contra hne
    obtain ⟨p, hp⟩ := Option.ne_none_iff_exists'.mp hne
    exact (hnames _ p hp).ne_key rfl
  refine ⟨⟨n, n, hn, ?_, le_rfl, fun r _ _ => .inl ?_⟩, keepsSystem_edited h64 changes _, fun k hk hne => .inl ?_⟩
  · have hne : State.allocatorKey.recordId ≠ id := (user_ne h64 (by decide : System.ALLOC.id < _)).symm
    rw [get?_editCells, if_neg hne, hn]
  · rw [keyOf, keyOf, get?_editCells, show (State.identityCell r).name = Reserved.KEY from rfl, hkey]
    split_ifs <;> rfl
  · rw [hb]
    by_contra hid
    rw [get?_editCells, if_neg fun he => hid (by rw [he])] at hne
    exact hne rfl

lemma Consistent.moved_deleted {id : U64} (hb : m.get? (State.binding K) = some (CellValue.fromU64 id)) :
    Moved K m (Records.deleted m id K) := by
  obtain ⟨r, hr, h64, -⟩ := h.bound K _ hK hb
  obtain rfl := CellValue.fromU64_inj hr
  obtain ⟨n, hn, -, -⟩ := h.allocator
  have halloc : ¬ (State.allocatorKey.recordId = id ∨ State.allocatorKey = State.binding K) := by
    rintro (he | he)
    · exact user_ne h64 (by decide : System.ALLOC.id < _) he.symm
    · exact key_ne (by decide : System.ALLOC.id ≠ System.RECORD_KEYS.id) he
  refine ⟨⟨n, n, hn, by rw [get?_deleted, if_neg halloc, hn], le_rfl, fun r _ _ => ?_⟩, keepsSystem_deleted h64,
    fun k hk hne => .inl ?_⟩
  · rw [keyOf, keyOf, get?_deleted]
    split_ifs
    · exact .inr rfl
    · exact .inl rfl
  · rw [hb]
    by_contra hid
    rw [get?_deleted, if_neg] at hne
    · exact hne rfl
    · rintro (he | he)
      · exact hid (by rw [he])
      · rw [he] at hk
        exact absurd hk (by decide : ¬ System.FIRST_USER_RECORD_ID ≤ System.RECORD_KEYS.id)

end Moved

namespace Mutation

/-- **A mutation moves the records** as its key allows. -/
theorem group_moved {c : CommitId} {m m' : CellMap} (h : Consistent c m) (u : Mutation)
    (hK : System.byKey u.key = none) (hr : Prog.Runs u.group.runOn m () m') : Moved u.key m m' := by
  obtain ⟨l, hl⟩ := h.limits
  cases u with
  | create K values =>
    rcases h.create_cases hl K values with ⟨e, he, -⟩ | ⟨n, next, he, hn, h64, hbelow, hs, -, -⟩
    · have hfail : (create K values).group.runOn m = (.error (.error e), m) := on_bind_error he
      cases congrArg Prod.fst (hfail.symm.trans hr)
    · have hok : (create K values).group.runOn m = (.ok (), created m n next K values) := on_bind he
      obtain rfl := congrArg Prod.snd (hok.symm.trans hr)
      exact moved_created hn h64 hbelow hs
  | patch K changes =>
    rcases h.patch_cases hl K changes with ⟨e, he, -⟩ | ⟨id, he, hb, hvalid⟩
    · cases congrArg Prod.fst (he.symm.trans hr)
    · obtain rfl := congrArg Prod.snd (he.symm.trans hr)
      exact h.moved_patched hK hb fun name p hp => (validate_user (hvalid name p hp)).1
  | delete K =>
    rcases h.delete_cases K with he | ⟨id, he, hb⟩
    · cases congrArg Prod.fst (he.symm.trans hr)
    · obtain rfl := congrArg Prod.snd (he.symm.trans hr)
      exact h.moved_deleted hK hb

end Mutation

/-- **The allocator does not wrap**: without a next id a creation that is valid otherwise fails with an error
of its own. -/
theorem Consistent.create_exhausted {c : CommitId} {m : CellMap} (h : Consistent c m) {l : CellLimits}
    (hl : HasLimits m l) {n : U64} (hn : m.get? State.allocatorKey = some (CellValue.fromU64 n))
    (hs : checkedSucc n = none) {K : RecordKey} (hfree : m.get? (State.binding K) = none) {values : RecordCells}
    (hvalid : ∀ name v, values.get? name = some v → validate l name (some v) = .ok ()) :
    (createGroup K values).runOn m = (.error (.error .recordIdExhausted), m) := by
  obtain ⟨n', hn', h64, -⟩ := h.allocator
  obtain rfl := CellValue.fromU64_inj (Option.some.inj (hn'.symm.trans hn))
  have hall : validateAll l (values.entries.map fun e => (e.1, some e.2)) = .ok () := by
    have hlist : ∀ e ∈ values.entries.map (fun e => (e.1, some e.2)), validate l e.1 e.2 = .ok () := by
      intro e he
      obtain ⟨⟨name, v⟩, hx, rfl⟩ := List.mem_map.mp he
      exact hvalid name v (OrdMap.mem_entries.mp hx)
    generalize values.entries.map (fun e => (e.1, some e.2)) = list at hlist
    induction list with
    | nil => rfl
    | cons e list ih =>
      rw [validateAll, hlist e (List.mem_cons_self ..), ok_bind]
      exact ih fun x hx => hlist x (List.mem_cons_of_mem _ hx)
  have hbound : boundId m K = none := by rw [boundId, hfree, Option.bind_none]
  have hfield : State.nextId.runOn m = (.error (.error .recordIdExhausted), m) := by
    unfold State.nextId
    rw [on_bind (on_get _ m), hn']
    simp only [fieldU64_fromU64]
    rw [if_neg (not_lt.mpr h64), hs]
    rfl
  unfold createGroup
  rw [on_bind (on_limits hl), on_bind (on_lift_ok hall), on_bind (h.resolve K), hbound]
  exact on_bind_error hfield

/-! ### Lineages -/

/-- **One surviving change** of the cells: a mutation of a key that is not reserved, or a publication. -/
inductive Surviving : CommitId × CellMap → CommitId × CellMap → Prop
  | mutate {c : CommitId} {m m' : CellMap} (u : Mutation) (hK : System.byKey u.key = none)
      (hr : Prog.Runs u.group.runOn m () m') : Surviving (c, m) (c, m')
  | publish {c c' : CommitId} {m : CellMap} (head : Head) (hs : checkedSucc c = some c') :
      Surviving (c, m) (c', m.insert (rootsKey c) (rootsValue head))

/-- The surviving changes between two states. -/
def Lineage : CommitId × CellMap → CommitId × CellMap → Prop := Relation.ReflTransGen Surviving

lemma Aged.trans {m₁ m₂ m₃ : CellMap} (h : Aged m₁ m₂) (h' : Aged m₂ m₃) : Aged m₁ m₃ := by
  obtain ⟨n₁, n₂, h1, h2, hle, hold⟩ := h
  obtain ⟨n₂', n₃, h2', h3, hle', hold'⟩ := h'
  obtain rfl := CellValue.fromU64_inj (Option.some.inj (h2.symm.trans h2'))
  refine ⟨n₁, n₃, h1, h3, hle.trans hle', fun r hr hlt => ?_⟩
  rcases hold' r hr (lt_of_lt_of_le hlt hle) with he | he
  · rw [he]
    exact hold r hr hlt
  · exact .inr he

/-- A change keeps the invariant and ages the records. -/
lemma Surviving.aged {s s' : CommitId × CellMap} (h : Surviving s s') (hc : Consistent s.1 s.2) :
    Consistent s'.1 s'.2 ∧ Aged s.2 s'.2 := by
  cases h with
  | @mutate c m m' u hK hr =>
    exact ⟨(hc.visible.mutate hK hr).consistent, (u.group_moved hc hK hr).aged⟩
  | @publish c c' m head hs =>
    refine ⟨hc.committed hs head, ?_⟩
    obtain ⟨n, hn, -, -⟩ := hc.allocator
    have hsame : ∀ k : CellKey, k.recordId ≠ System.ROOTS.id →
        (m.insert (rootsKey c) (rootsValue head)).get? k = m.get? k := fun k hk => by
      rw [OrdMap.get?_insert, if_neg (key_ne hk)]
    refine ⟨n, n, hn, by rw [hsame _ (by decide : System.ALLOC.id ≠ System.ROOTS.id), hn], le_rfl,
      fun r hr _ => .inl ?_⟩
    exact hsame _ (user_ne hr (by decide : System.ROOTS.id < _))

/-- **Along a lineage the invariant is kept and the records age.** -/
theorem Lineage.aged {s s' : CommitId × CellMap} (h : Lineage s s') (hc : Consistent s.1 s.2) :
    Consistent s'.1 s'.2 ∧ Aged s.2 s'.2 := by
  induction h with
  | refl =>
    obtain ⟨n, hn, -, -⟩ := hc.allocator
    exact ⟨hc, n, n, hn, hn, le_rfl, fun _ _ _ => .inl rfl⟩
  | tail _ hstep ih =>
    obtain ⟨hc', hage⟩ := hstep.aged ih.1
    exact ⟨hc', ih.2.trans hage⟩

/-- **A record that is in use at both ends of a lineage was never deleted between them.** -/
lemma Lineage.unbroken {s x s' : CommitId × CellMap} (h : Lineage s x) (h' : Lineage x s') (hc : Consistent s.1 s.2)
    {r : U64} (hr : System.FIRST_USER_RECORD_ID ≤ r) {K K' : CellValue} (hK : keyOf s.2 r = some K)
    (hK' : keyOf s'.2 r = some K') : keyOf x.2 r = some K ∧ K' = K := by
  obtain ⟨hcx, hage⟩ := h.aged hc
  obtain ⟨-, hage'⟩ := h'.aged hcx
  obtain ⟨n, hn, -, hbelow⟩ := hc.allocator
  obtain ⟨n₁, n₂, h1, h2, hle, hold⟩ := hage
  obtain ⟨n₂', n₃, h2', -, -, hold'⟩ := hage'
  obtain rfl := CellValue.fromU64_inj (Option.some.inj (hn.symm.trans h1))
  obtain rfl := CellValue.fromU64_inj (Option.some.inj (h2.symm.trans h2'))
  have hlt : r < n := hbelow _ _ hK hr
  have hx : keyOf x.2 r = some K' := by
    rcases hold' r hr (lt_of_lt_of_le hlt hle) with he | he
    · rw [← he, hK']
    · rw [he] at hK'
      cases hK'
  rcases hold r hr hlt with he | he
  · rw [he, hK] at hx
    rw [he, hK]
    exact ⟨rfl, (Option.some.inj hx).symm⟩
  · rw [he] at hx
    cases hx

end GolemDb.Records
