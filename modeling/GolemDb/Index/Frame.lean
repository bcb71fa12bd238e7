import GolemDb.Index.Index
import GolemDb.Merkle.Frame

/-!
A batch of postings opens sets, loads containers, checks terms, and writes terms, branches and
containers of its own four tables; it does nothing else with its transaction, whatever the hash and
whatever the outcome. So a property of programs that these have holds of the batch (`apply_closed`),
and the batch keeps a frame that admits the rows of the index (`apply_keeps`).
-/

namespace GolemDb.Index

open GolemDb.Lib GolemDb.Storage GolemDb.Merkle

lemma INDEX_valid : INDEX.validate = .ok () := by decide
lemma INDEX_TRIE_valid : INDEX_TRIE.validate = .ok () := by decide
lemma BITMAP_CONTAINER_valid : BITMAP_CONTAINER.validate = .ok () := by decide
lemma BITMAP_TRIE_valid : BITMAP_TRIE.validate = .ok () := by decide

/-- The frame allows the tables of the index. -/
structure AllowsIndex {τ : Type} [WriteTransaction τ] (F : Prog.Frame τ) : Prop where
  index : Allows F INDEX
  indexTrie : Allows F INDEX_TRIE
  container : Allows F BITMAP_CONTAINER
  bitmapTrie : Allows F BITMAP_TRIE

/-- The row of a term of `S`. -/
def TermRow (S : Set IndexTerm) (k v : Bytes) : Prop := ∃ t ∈ S, ∃ hash : Hash, k = t.bytes ∧ v = hash.1

/-- A container under a hash. -/
def ContainerRow (R : Roaring) (k v : Bytes) : Prop :=
  ∃ (hash : Hash) (c : BitmapContainer), k = hash.1 ∧ c.canonicalBytes R = .ok v

/-- The frame admits the rows the index writes for the terms of `S`. -/
structure AdmitsIndex {τ : Type} [WriteTransaction τ] (F : Prog.Frame τ) (R : Roaring) (S : Set IndexTerm) :
    Prop where
  index : Admits F INDEX (TermRow S)
  indexTrie : Admits F INDEX_TRIE (Trie.BranchRow 32)
  container : Admits F BITMAP_CONTAINER (ContainerRow R)
  bitmapTrie : Admits F BITMAP_TRIE (Trie.BranchRow 6)

lemma AllowsIndex.admits {τ : Type} [WriteTransaction τ] {F : Prog.Frame τ} (h : AllowsIndex F) (R : Roaring)
    (S : Set IndexTerm) : AdmitsIndex F R S :=
  ⟨h.index.admits _, h.indexTrie.admits _, h.container.admits _, h.bitmapTrie.admits _⟩

/-- The term of a posting. -/
def PostingChange.term : PostingChange → IndexTerm
  | add t _ => t
  | remove t _ => t

section Frame

variable {H : HashProvider} {R : Roaring} {τ : Type} [WriteTransaction τ] {S : Set IndexTerm}

/-- **What a batch of postings is made of** has the property. -/
structure ServedIndex (C : Prog.Closed τ) (H : HashProvider) (R : Roaring) (S : Set IndexTerm) : Prop where
  put : ∀ {k v}, TermRow S k v → C.Holds (WriteTransaction.put INDEX k v)
  delete : ∀ k, C.Holds (WriteTransaction.delete INDEX k)
  insert : ∀ {k v}, ContainerRow R k v → C.Holds (WriteTransaction.insert BITMAP_CONTAINER k v)
  terms : Trie.Served C (indexTrie H)
  sets : Trie.Served C (bitmapTrie H)
  found : ∀ k, C.Holds (Prog.read fun tx : τ => (ReadTransaction.get tx BITMAP_CONTAINER k).mapError IndexError.storage)
  leaf : ∀ root path, C.Holds (Prog.read fun tx : τ => ((bitmapTrie H).get tx root path).mapError IndexError.merkle)
  load : ∀ leaf, C.Holds (Prog.read fun tx : τ => BitmapTrie.load H R tx leaf)
  reopen : ∀ hash, C.Holds (Prog.read fun tx : τ => BitmapTrie.reopen H R tx hash)
  root : ∀ term, C.Holds (Prog.read fun tx : τ => bitmapRoot H tx term)
  check : ∀ root term before, C.Holds (Prog.read fun tx : τ => IndexTrie.check H tx root term before)

section Closed

variable {C : Prog.Closed τ} (hC : ServedIndex C H R S)

include hC

lemma storeContainer_closed (hash : Hash) {c : BitmapContainer} {bytes : Bytes}
    (hc : c.canonicalBytes R = .ok bytes) :
    C.Holds (BitmapTrie.storeContainer hash bytes : Prog IndexError τ Unit) := by
  unfold BitmapTrie.storeContainer
  refine (C.outcome (hC.insert ⟨hash, c, rfl, hc⟩)).bind fun r => ?_
  match r with
  | .ok () => exact C.pure _
  | .error .alreadyExists =>
    refine (hC.found _).bind fun found => ?_
    split_ifs
    · exact C.throw _
    · exact C.pure _
  | .error .full => exact C.throw _
  | .error (.invalidTableName _) => exact C.throw _
  | .error .invalidRange => exact C.throw _
  | .error (.keyTooLarge _ _) => exact C.throw _
  | .error (.valueTooLarge _ _) => exact C.throw _
  | .error (.poisoned _) => exact C.throw _
  | .error (.backend _) => exact C.throw _

lemma takeContainer_closed (root : RootRef 6) (cached : Option BitmapContainer) (hi : ℕ) (path : Arr 6) :
    C.Holds (BitmapTrie.takeContainer H R root cached hi path : Prog IndexError τ _) := by
  unfold BitmapTrie.takeContainer
  refine (hC.leaf _ _).bind fun old => ?_
  cases old with
  | none => exact (Prog.Closed.ofExcept _).bind fun _ => C.pure _
  | some leaf =>
    cases cached with
    | some container => exact C.pure _
    | none => exact (hC.load _).bind fun _ => C.pure _

lemma applyChunk_closed (root : RootRef 6) (st : BitmapTrie.Progress) (chunk : List (ℕ × Offset × Bool)) :
    C.Holds (BitmapTrie.applyChunk H R root st chunk : Prog IndexError τ _) := by
  match chunk with
  | [] => exact C.pure _
  | (hi, lo, present) :: rest =>
    rw [BitmapTrie.applyChunk]
    split
    · exact C.throw _
    · refine (Prog.Closed.ofExcept _).bind fun path => (takeContainer_closed hC root _ hi path).bind fun c => ?_
      simp only
      split_ifs
      · exact C.pure _
      · exact C.pure _
      · refine Prog.Closed.ofExcept_bind fun bytes hbytes => ?_
        exact (storeContainer_closed hC _ (mapError_eq_ok.mp hbytes)).bind fun _ => C.pure _

lemma bitmapApply_closed (before : Option Hash) (changes : List (ℕ × Offset × Bool)) :
    C.Holds (BitmapTrie.apply H R before changes : Prog IndexError τ _) := by
  have hopen : C.Holds (BitmapTrie.openRoot H R before : Prog IndexError τ _) := by
    cases before with
    | none => exact C.pure _
    | some hash => exact hC.reopen hash
  exact hopen.bind fun opened => (Prog.Closed.foldlM (applyChunk_closed hC _) _ _).bind fun st =>
    (C.mapError (Trie.apply_closed hC.sets _ _)).bind fun _ => C.pure _

lemma applyTerm_closed (root : RootRef 32) (changed : List TermRootChange) (chunk : List (PostingKey × Bool)) :
    C.Holds (applyTerm H R root changed chunk : Prog IndexError τ _) := by
  match chunk with
  | [] => exact C.pure _
  | e :: rest =>
    exact (hC.root _).bind fun before => (hC.check _ _ _).bind fun _ =>
      (bitmapApply_closed hC _ _).bind fun after => C.pure _

omit hC in
/-- The terms reported are the terms of the chunks. -/
lemma applyTerms_post (root : RootRef 32) {chunks : List (List (PostingKey × Bool))}
    (hS : ∀ chunk ∈ chunks, ∀ e ∈ chunk, (ofLex e.1).1 ∈ S) :
    Prog.Post (fun _ => True) (fun changed => ∀ c ∈ changed, c.term ∈ S)
      (chunks.foldlM (applyTerm H R root) [] : Prog IndexError τ (List TermRootChange)) := by
  refine Prog.Post.foldlM _ _ (fun chunk hchunk changed hchanged => ?_) (by simp)
  match chunk, hchunk with
  | [], _ => exact Prog.Post.pure hchanged
  | e :: rest, hchunk =>
    refine (Prog.Post.any _).bind fun before _ => (Prog.Post.any _).bind fun _ _ =>
      (Prog.Post.any _).bind fun after _ => Prog.Post.pure ?_
    split_ifs
    · exact hchanged
    · intro c hc
      rcases List.mem_append.mp hc with hc | hc
      · exact hchanged c hc
      · obtain rfl := List.mem_singleton.mp hc
        exact hS _ hchunk e (List.mem_cons_self ..)

/-- **A batch of postings has every property of its reads and writes.** -/
theorem apply_closed (root : RootRef 32) {changes : List PostingChange} (hS : ∀ c ∈ changes, c.term ∈ S) :
    C.Holds (apply H R root changes : Prog IndexError τ IndexUpdate) := by
  have hchunks : ∀ chunk ∈ chunkBy (fun e : PostingKey × Bool => (ofLex e.1).1)
      (normalize (changes.map PostingChange.toPair)), ∀ e ∈ chunk, (ofLex e.1).1 ∈ S := by
    intro chunk hchunk e he
    have hmem := mem_of_lastOf (mem_normalize.mp (mem_of_chunkBy _ hchunk he))
    obtain ⟨c, hc, hpair⟩ := List.mem_map.mp hmem
    have hterm : (ofLex e.1).1 = c.term := by
      rw [← (Prod.ext_iff.mp hpair).1]
      cases c <;> rfl
    rw [hterm]
    exact hS c hc
  refine C.bind_post (Prog.Closed.foldlM (applyTerm_closed hC root) _ _) (applyTerms_post root hchunks)
    fun changed hchanged => (C.mapError (Trie.apply_closed hC.terms _ _)).bind
      fun _ => (Prog.Closed.foldlM_mem _ _ fun c hc _ => ?_).bind fun _ => C.pure _
  unfold writeTerm
  cases c.after with
  | some hash => exact C.mapError (hC.put ⟨c.term, hchanged c hc, hash, rfl, rfl⟩)
  | none => exact (C.mapError (hC.delete _)).bind fun _ => C.pure _

end Closed

variable {F : Prog.Frame τ} (hF : AdmitsIndex F R S)

include hF

lemma servedIndex_keeps : ServedIndex (.keeps F) H R S :=
  ⟨hF.index.put, hF.index.delete, hF.container.insert, Trie.served_keeps (T := indexTrie H) hF.indexTrie,
    Trie.served_keeps (T := bitmapTrie H) hF.bitmapTrie, fun _ => Prog.Keeps.read _, fun _ _ => Prog.Keeps.read _,
    fun _ => Prog.Keeps.read _, fun _ => Prog.Keeps.read _, fun _ => Prog.Keeps.read _, fun _ _ _ => Prog.Keeps.read _⟩

/-- **A batch of postings writes the rows of the index alone.** -/
theorem apply_keeps (root : RootRef 32) {changes : List PostingChange} (hS : ∀ c ∈ changes, c.term ∈ S) :
    Prog.Keeps F (apply H R root changes : Prog IndexError τ IndexUpdate) :=
  apply_closed (servedIndex_keeps (H := H) hF) root hS

end Frame

end GolemDb.Index
