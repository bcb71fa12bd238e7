import GolemDb.Branch.Lifecycle
import GolemDb.Lib.Simulation

/-!
The way of a call through its steps. A call that takes a step goes to one of a few places
(`Pc.Next`): it goes on, it returns, or it consumes its branch and goes on to remove it. What is
asked of a call, the branch it is about and the steps left to it are read off there.
-/

namespace GolemDb.Branch

open GolemDb.Lib GolemDb.Storage GolemDb.Merkle GolemDb.Cells GolemDb.Index

namespace Pc

variable {σ : Type} [Store σ]

/-- What the call was asked, while its branch is not consumed. -/
def asked : Pc σ → Option (ManagerId × BranchId × Request)
  | .looking m b req => some (m, b, req)
  | .waiting m b req => some (m, b, req)
  | .locked m b req => some (m, b, req)
  | .ready m b req _ => some (m, b, req)
  | .sealed m b _ _ => some (m, b, .commit)
  | .writing m b _ _ _ => some (m, b, .commit)
  | .checked m b _ _ _ => some (m, b, .commit)
  | .replayed m b _ _ _ => some (m, b, .commit)
  | .headed m b _ _ _ => some (m, b, .commit)
  | _ => none

/-- The branch of a call that has not returned. -/
def handle (pc : Pc σ) : Option BranchId := (pc.asked.map fun q => q.2.1) <|> pc.dead

/-- The call begins a branch. -/
def starting : Pc σ → Bool
  | .beginning _ => true
  | .allocating _ _ => true
  | .inserting _ _ _ => true
  | _ => false

/-- The steps left to a call, at most. -/
def rank : Pc σ → ℕ
  | .idle => 0
  | .beginning _ => 3
  | .allocating _ _ => 2
  | .inserting _ _ _ => 1
  | .looking _ _ _ => 10
  | .waiting _ _ _ => 9
  | .locked _ _ _ => 8
  | .ready _ _ _ _ => 7
  | .sealed _ _ _ _ => 6
  | .writing _ _ _ _ _ => 5
  | .checked _ _ _ _ _ => 4
  | .replayed _ _ _ _ _ => 3
  | .headed _ _ _ _ _ => 2
  | .removing _ _ _ => 1
  | .dropping _ _ _ => 1
  | .done => 0

/-- **The step of a call**: where it goes, and what it shows. -/
inductive Next (c : CallId) : Pc σ → List Emission → Pc σ → Prop
  | refused (m : ManagerId) (e : BranchError) : Next c (.beginning m) [.refused c e] .done
  | head (m : ManagerId) (n : CommitId) : Next c (.beginning m) [] (.allocating m n)
  | exhausted (m : ManagerId) (n : CommitId) (e : BranchError) : Next c (.allocating m n) [.refused c e] .done
  | number (m : ManagerId) (n : CommitId) (b : BranchId) : Next c (.allocating m n) [] (.inserting m b n)
  | inserted (m : ManagerId) (n : CommitId) (b : BranchId) : Next c (.inserting m b n) [.began c b] .done
  | unknown (m : ManagerId) (b : BranchId) (req : Request) :
      Next c (.looking m b req) [.returned c b .handleInvalid] .done
  | found (m : ManagerId) (b : BranchId) (req : Request) : Next c (.looking m b req) [] (.waiting m b req)
  | emptied (m : ManagerId) (b : BranchId) (req : Request) :
      Next c (.waiting m b req) [.returned c b .handleInvalid] .done
  | taken (m : ManagerId) (b : BranchId) (req : Request) : Next c (.waiting m b req) [] (.locked m b req)
  | released (pc : Pc σ) (b : BranchId) (es : List Emission) (reply : Reply) (hlive : pc.live = some b) :
      Next c pc (es ++ [.returned c b reply]) .done
  | consumed (pc : Pc σ) (m : ManagerId) (b : BranchId) (es : List Emission) (reply : Reply)
      (hlive : pc.live = some b) :
      Next c pc es (.removing m b reply)
  | discarded (m : ManagerId) (b : BranchId) (origin : Store.Read σ) (es : List Emission) (reply : Reply) :
      Next c (.ready m b .discard origin) es (.dropping m b reply)
  | admitted (m : ManagerId) (b : BranchId) (req : Request) (origin : Store.Read σ) (es : List Emission) :
      Next c (.locked m b req) es (.ready m b req origin)
  | sealed (m : ManagerId) (b : BranchId) (n : CommitId) (s : SealedCommit) (origin : Store.Read σ)
      (es : List Emission) :
      Next c (.ready m b .commit origin) es (.sealed m b n s)
  | writes (m : ManagerId) (b : BranchId) (n : CommitId) (s : SealedCommit) (tx : Store.Write σ) :
      Next c (.sealed m b n s) [] (.writing m b n s tx)
  | checked (m : ManagerId) (b : BranchId) (n : CommitId) (s : SealedCommit) (tx : Store.Write σ) (es : List Emission) :
      Next c (.writing m b n s tx) es (.checked m b n s tx)
  | replayed (m : ManagerId) (b : BranchId) (n : CommitId) (s : SealedCommit) (tx tx' : Store.Write σ) :
      Next c (.checked m b n s tx) [] (.replayed m b n s tx')
  | headed (m : ManagerId) (b : BranchId) (n : CommitId) (s : SealedCommit) (tx tx' : Store.Write σ) :
      Next c (.replayed m b n s tx) [] (.headed m b n s tx')
  | removed (m : ManagerId) (b : BranchId) (reply : Reply) : Next c (.removing m b reply) [.returned c b reply] .done
  | dropped (m : ManagerId) (b : BranchId) (reply : Reply) : Next c (.dropping m b reply) [.returned c b reply] .done

variable {c : CallId} {pc pc' : Pc σ} {es : List Emission} {b : BranchId}

lemma two_le_rank (h : pc.live = some b) : 2 ≤ pc.rank := by
  cases pc with
  | locked | ready | sealed | writing | checked | replayed | headed =>
    simp only [rank]
    omega
  | _ => cases h

/-- **Every step brings a call closer to its end.** -/
lemma Next.rank_lt (h : Next c pc es pc') : pc'.rank < pc.rank := by
  cases h with
  | released _ b es reply hlive => exact lt_of_lt_of_le (by decide : 0 < 2) (two_le_rank hlive)
  | consumed _ m b es reply hlive => exact lt_of_lt_of_le (by decide : 1 < 2) (two_le_rank hlive)
  | _ => simp only [rank]; omega

/-- A call goes on with what it was asked. -/
lemma Next.asked (h : Next c pc es pc') : pc'.asked = none ∨ pc'.asked = pc.asked := by
  cases h <;> first | exact .inl rfl | exact .inr rfl

lemma handle_of_live (h : pc.live = some b) : pc.handle = some b := by
  cases pc <;> first | exact h | cases h

/-- **A call on a branch goes on until it returns.** -/
lemma Next.handle (h : Next c pc es pc') (hb : pc.handle = some b) :
    pc'.handle = some b ∨ ∃ reply, .returned c b reply ∈ es := by
  cases h with
  | released _ b' es reply hlive =>
    obtain rfl := Option.some.inj ((handle_of_live hlive).symm.trans hb)
    exact .inr ⟨reply, List.mem_append_right _ (List.mem_singleton_self _)⟩
  | consumed _ m b' es reply hlive => exact .inl ((handle_of_live hlive).symm.trans hb)
  | unknown m b' req | emptied m b' req =>
    obtain rfl := Option.some.inj hb
    exact .inr ⟨_, List.mem_singleton_self _⟩
  | removed m b' reply | dropped m b' reply =>
    obtain rfl := Option.some.inj hb
    exact .inr ⟨_, List.mem_singleton_self _⟩
  | refused | head | exhausted | number | inserted => cases hb
  | _ => exact .inl hb

/-- **A call that begins a branch goes on until the branch begins or is refused.** -/
lemma Next.starting (h : Next c pc es pc') (hp : pc.starting = true) :
    pc'.starting = true ∨ (∃ b, .began c b ∈ es) ∨ ∃ e, .refused c e ∈ es := by
  cases h with
  | refused m e | exhausted m n e => exact .inr (.inr ⟨e, List.mem_singleton_self _⟩)
  | head | number => exact .inl rfl
  | inserted m n b => exact .inr (.inl ⟨b, List.mem_singleton_self _⟩)
  | released _ b es reply hlive | consumed _ m b es reply hlive =>
    cases pc with
    | beginning | allocating | inserting => cases hlive
    | _ => cases hp
  | _ => cases hp

end Pc

section Moves

variable {H : HashProvider} {R : Roaring} {σ : Type} [Store σ] {w w' : World σ} {c : CallId} {b : BranchId}
  {es : List Emission} {l : Label} {st : BranchState}

/-- The call takes the step, and no other call does. -/
def World.Moves (w : World σ) (c : CallId) (w' : World σ) (es : List Emission) : Prop :=
  ∃ pc, w'.calls = Function.update w.calls c pc ∧ (w.calls c).Next c es pc

lemma World.Moves.of_eq {p : World σ × List Emission} (h : w.Moves c p.1 p.2) (hs : some p = some (w', es)) :
    w.Moves c w' es := by
  obtain rfl := Option.some.inj hs
  exact h

lemma World.moves_release (hlive : (w.calls c).live = some b) (w₀ : World σ) (hcalls : w₀.calls = w.calls)
    (st : BranchState)
    (reply : Reply) (seen : List Emission) :
    w.Moves c (w₀.release c b st reply).1 (seen ++ (w₀.release c b st reply).2) :=
  ⟨.done, by rw [← hcalls]; rfl, .released _ b seen reply hlive⟩

lemma World.moves_abandon (hlive : (w.calls c).live = some b) (w₀ : World σ) (hcalls : w₀.calls = w.calls)
    (m : ManagerId) (st : BranchState) (e : BranchError) (seen : List Emission) :
    w.Moves c (w₀.abandon c m b st e).1 (seen ++ (w₀.abandon c m b st e).2) := by
  unfold World.abandon
  simp only
  split_ifs
  · exact ⟨_, by rw [← hcalls]; rfl, .consumed _ m b _ _ hlive⟩
  · exact moves_release hlive _ hcalls st _ seen

lemma World.moves_work (hlive : (w.calls c).live = some b) (hs : w.work H R c b st = some (w', es)) :
    w.Moves c w' es := by
  have hreply := fun reply => World.moves_release hlive w rfl st reply []
  have habandon := fun w₀ hcalls m e => World.moves_abandon hlive w₀ hcalls m st e []
  unfold World.work at hs
  split at hs
  · rename_i m b' req hpc
    split at hs
    · exact (hreply _).of_eq hs
    · split at hs
      · exact (hreply _).of_eq hs
      · split_ifs at hs
        · exact World.Moves.of_eq ⟨_, rfl, .consumed _ m b _ _ hlive⟩ hs
        · rw [hpc] at hlive
          obtain rfl := Option.some.inj hlive
          exact World.Moves.of_eq ⟨_, rfl, by rw [hpc]; exact .admitted ..⟩ hs
  · rename_i m b' op origin hpc
    exact (World.moves_release hlive w rfl _ _ _).of_eq hs
  · rename_i m b' origin hpc
    rw [hpc] at hlive
    obtain rfl := Option.some.inj hlive
    exact World.Moves.of_eq ⟨_, rfl, by rw [hpc]; exact .discarded ..⟩ hs
  · rename_i m b' origin hpc
    split at hs
    · exact (hreply _).of_eq hs
    · rw [hpc] at hlive
      obtain rfl := Option.some.inj hlive
      exact World.Moves.of_eq ⟨_, rfl, by rw [hpc]; exact .sealed ..⟩ hs
  · rename_i m b' origin s hpc
    split at hs
    · cases hs
    · split at hs
      · exact (hreply _).of_eq hs
      · rw [hpc] at hlive
        obtain rfl := Option.some.inj hlive
        exact World.Moves.of_eq ⟨_, rfl, by rw [hpc]; exact .writes ..⟩ hs
  · rename_i m b' origin s tx hpc
    split at hs
    · exact (habandon w rfl m _).of_eq hs
    · split_ifs at hs
      · exact World.Moves.of_eq ⟨_, rfl, .consumed _ m b _ _ hlive⟩ hs
      · rw [hpc] at hlive
        obtain rfl := Option.some.inj hlive
        exact World.Moves.of_eq ⟨_, rfl, by rw [hpc]; exact .checked ..⟩ hs
  · rename_i m b' origin s tx hpc
    split at hs
    · exact (habandon w rfl m _).of_eq hs
    · rw [hpc] at hlive
      obtain rfl := Option.some.inj hlive
      exact World.Moves.of_eq ⟨_, rfl, by rw [hpc]; exact .replayed ..⟩ hs
  · rename_i m b' origin s tx hpc
    split at hs
    · exact (habandon w rfl m _).of_eq hs
    · rw [hpc] at hlive
      obtain rfl := Option.some.inj hlive
      exact World.Moves.of_eq ⟨_, rfl, by rw [hpc]; exact .headed ..⟩ hs
  · rename_i m b' origin s tx hpc
    split at hs
    · exact (habandon _ (by exact rfl) m _).of_eq hs
    · exact World.Moves.of_eq ⟨_, rfl, .consumed _ m b _ _ hlive⟩ hs
  · cases hs

/-- **Every step is one call's**, and the call goes where its step takes it. -/
theorem World.moves_advance (hs : w.advance H R c = some (w', es)) : w.Moves c w' es := by
  unfold World.advance at hs
  split at hs
  · rename_i m hpc
    split at hs
    · exact World.Moves.of_eq ⟨_, rfl, by rw [hpc]; exact .refused ..⟩ hs
    · split at hs
      · exact World.Moves.of_eq ⟨_, rfl, by rw [hpc]; exact .refused ..⟩ hs
      · exact World.Moves.of_eq ⟨_, rfl, by rw [hpc]; exact .head ..⟩ hs
  · rename_i m n hpc
    split at hs
    · exact World.Moves.of_eq ⟨_, rfl, by rw [hpc]; exact .exhausted ..⟩ hs
    · exact World.Moves.of_eq ⟨_, rfl, by rw [hpc]; exact .number ..⟩ hs
  · rename_i m b n hpc
    exact World.Moves.of_eq ⟨_, rfl, by rw [hpc]; exact .inserted ..⟩ hs
  · rename_i m b req hpc
    split_ifs at hs
    · exact World.Moves.of_eq ⟨_, rfl, by rw [hpc]; exact .found ..⟩ hs
    · exact World.Moves.of_eq ⟨_, rfl, by rw [hpc]; exact .unknown ..⟩ hs
  · rename_i m b req hpc
    split at hs
    · exact World.Moves.of_eq ⟨_, rfl, by rw [hpc]; exact .emptied ..⟩ hs
    · exact World.Moves.of_eq ⟨_, rfl, by rw [hpc]; exact .taken ..⟩ hs
    · cases hs
  · rename_i m b reply hpc
    exact World.Moves.of_eq ⟨_, rfl, by rw [hpc]; exact .removed ..⟩ hs
  · rename_i m b reply hpc
    exact World.Moves.of_eq ⟨_, rfl, by rw [hpc]; exact .dropped ..⟩ hs
  · split at hs
    · cases hs
    · rename_i b hlive
      split at hs
      · exact World.moves_work hlive hs
      · cases hs

/-- A run of the managers is a run of the machine. -/
lemma World.run_eq {labels : List Label} (w : World σ) : w.run H R labels = runMachine (World.step H R) labels w := by
  induction labels generalizing w with
  | nil => rfl
  | cons l labels ih =>
    rw [World.run, runMachine]
    cases w.step H R l with
    | none => rfl
    | some p =>
      simp only
      rw [ih]

end Moves

end GolemDb.Branch
