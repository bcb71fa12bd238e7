import GolemDb.Storage.Basic

/-!
Storage that fails. An operation may fail at any time; one that succeeds acts on ordered maps as an
unbounded backend does, and a commit that fails discards the writer's changes. `Serves` says that
from a state no operation of a publication fails.
-/

namespace GolemDb.Storage

open GolemDb.Lib

/-- A read that succeeds returns the row of an ordered map. -/
class HonestRead (τ : Type) [ReadTransaction τ] where
  shown : τ → Table → Rows
  get_ok : ∀ {t : Table}, t.validate = .ok () → ∀ {tx : τ} {k : Bytes} {v : Option Bytes},
    ReadTransaction.get tx t k = .ok v → v = (shown tx t).get? k

export HonestRead (shown)

/-- A write that succeeds changes one row. -/
class HonestWrite (τ : Type) [WriteTransaction τ] extends HonestRead τ where
  put_ok : ∀ {t : Table}, t.validate = .ok () → ∀ {tx tx' : τ} {k v : Bytes},
    Prog.Runs (WriteTransaction.put t k v) tx () tx' →
      shown tx' = Function.update (shown tx) t ((shown tx t).insert k v)
  delete_ok : ∀ {t : Table}, t.validate = .ok () → ∀ {tx tx' : τ} {k : Bytes} {existed : Bool},
    Prog.Runs (WriteTransaction.delete t k) tx existed tx' →
      shown tx' = Function.update (shown tx) t ((shown tx t).erase k)

/-- A store that may fail: what begins shows what is held, a commit that succeeds holds what the
writer shows, and one that fails holds what was held. -/
class FallibleStore (σ : Type) [Store σ] where
  [honestRead : HonestRead (Store.Read σ)]
  [honestWrite : HonestWrite (Store.Write σ)]
  held : σ → Table → Rows
  beginRead_ok : ∀ {s : σ} {tx : Store.Read σ}, Store.beginRead s = .ok tx → shown tx = held s
  beginWrite_ok : ∀ {s : σ} {tx : Store.Write σ}, Store.beginWrite s = .ok tx → shown tx = held s
  commit_ok : ∀ {s s' : σ} {tx : Store.Write σ}, Prog.Runs (Store.commit tx) s () s' → held s' = shown tx
  commit_error : ∀ {s s' : σ} {tx : Store.Write σ} {e : StorageError},
    (Store.commit tx).exec s = (.error e, s') → held s' = held s

export FallibleStore (held)

instance (σ : Type) [Store σ] [FallibleStore σ] : HonestRead (Store.Read σ) := FallibleStore.honestRead

instance (σ : Type) [Store σ] [FallibleStore σ] : HonestWrite (Store.Write σ) := FallibleStore.honestWrite

/-- A store that does not fail is one that may. -/
instance (priority := low) (σ : Type) [Store σ] [LawfulStore σ] : FallibleStore σ where
  honestRead := ⟨rows, fun ht _ _ _ h => Except.ok.inj (h.symm.trans (LawfulRead.get_eq ht _ _))⟩
  honestWrite :=
    { shown := rows
      get_ok := fun ht _ _ _ h => Except.ok.inj (h.symm.trans (LawfulRead.get_eq ht _ _))
      put_ok := fun ht tx tx' k v h => by
        obtain ⟨tx₁, hrun, hrows⟩ := LawfulWrite.put_eq ht tx k v
        obtain rfl := (Prod.mk.inj (h.symm.trans hrun)).2
        exact hrows
      delete_ok := fun ht tx tx' k existed h => by
        obtain ⟨tx₁, hrun, hrows⟩ := LawfulWrite.delete_eq ht tx k
        obtain rfl := (Prod.mk.inj (h.symm.trans hrun)).2
        exact hrows }
  held := tables
  beginRead_ok := fun {s tx} h => by
    obtain ⟨tx₁, hbegin, hrows⟩ := LawfulStore.beginRead_eq s
    obtain rfl := Except.ok.inj (h.symm.trans hbegin)
    exact hrows
  beginWrite_ok := fun {s tx} h => by
    obtain ⟨tx₁, hbegin, hrows⟩ := LawfulStore.beginWrite_eq s
    obtain rfl := Except.ok.inj (h.symm.trans hbegin)
    exact hrows
  commit_ok := fun {s s' tx} h => by
    obtain ⟨s₁, hrun, htables⟩ := LawfulStore.commit_eq s tx
    obtain rfl := (Prod.mk.inj (h.symm.trans hrun)).2
    exact htables
  commit_error := fun {s s' tx e} h => by
    obtain ⟨s₁, hrun, -⟩ := LawfulStore.commit_eq s tx
    cases (Prod.mk.inj (h.symm.trans hrun)).1

/-- The reads of a transaction succeed. -/
def ReadsServe {τ : Type} [ReadTransaction τ] (tx : τ) : Prop :=
  ∀ (t : Table) (k : Bytes), t.validate = .ok () → ∃ v, ReadTransaction.get tx t k = .ok v

/-- The accesses of the transactions in `W` succeed and stay in `W`. -/
structure WritesServe {τ : Type} [WriteTransaction τ] (W : τ → Prop) : Prop where
  reads : ∀ tx, W tx → ReadsServe tx
  put : ∀ tx, W tx → ∀ (t : Table) (k v : Bytes), t.validate = .ok () →
    ∃ tx', Prog.Runs (WriteTransaction.put t k v) tx () tx' ∧ W tx'
  delete : ∀ tx, W tx → ∀ (t : Table) (k : Bytes), t.validate = .ok () →
    ∃ existed tx', Prog.Runs (WriteTransaction.delete t k) tx existed tx' ∧ W tx'

/-- **No operation of a publication fails** from the state. -/
structure Serves {σ : Type} [Store σ] (s : σ) : Prop where
  reads : ∃ tx : Store.Read σ, Store.beginRead s = .ok tx ∧ ReadsServe tx
  writes : ∃ W : Store.Write σ → Prop, WritesServe W ∧ (∃ tx, Store.beginWrite s = .ok tx ∧ W tx) ∧
    ∀ tx, W tx → ∃ s', Prog.Runs (Store.commit tx) s () s'

end GolemDb.Storage
