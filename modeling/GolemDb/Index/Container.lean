import GolemDb.Lib.OrdSet
import GolemDb.Merkle.Trie
import GolemDb.Index.Term

/-!
Posting sets in chunks: the high 48 bits of a record id name a container and the low 16 bits are
its offset there. The codec of an offset set is the Roaring format, which is not part of this
repository: it is a parameter that decodes what it encodes. A container's bytes are its path and
the code of its offsets, and decoding accepts those bytes alone.
-/

namespace GolemDb.Index

open GolemDb.Lib GolemDb.Storage GolemDb.Merkle

/-! ### Errors -/

/-- The errors of containers and bitmaps. `panic` is no value of the source: it stands for a
failed `expect`. -/
inductive BitmapError where
  | pathOutOfRange (path : ℕ)
  | offsetOutOfRange (value : ℕ)
  | duplicatePath (path : ℕ)
  | unsortedPaths (previous path : ℕ)
  | emptyContainer
  | truncatedPath
  | nonCanonicalEncoding
  | decode (source : String)
  | panic
deriving DecidableEq

/-! ### Paths -/

def MAX_PATH : ℕ := 2 ^ 48 - 1

/-- A 16-bit offset, `u16`. -/
abbrev Offset := Fin (2 ^ 16)

def isValidPath (path : ℕ) : Bool := path ≤ MAX_PATH

/-- The container's path and the offset of a record id. -/
def split (value : U64) : ℕ × Offset :=
  (value.val / 2 ^ 16, ⟨value.val % 2 ^ 16, Nat.mod_lt _ (by norm_num)⟩)

lemma path6_length (path : ℕ) : (beBytes 6 path).length = 6 := beBytes_length 6 path

def pathBytes (path : ℕ) : Except BitmapError (Arr 6) :=
  if ¬ isValidPath path then .error (.pathOutOfRange path)
  else .ok ⟨beBytes 6 path, path6_length path⟩

/-! ### Roaring -/

/-- A set of 32-bit numbers. -/
abbrev RoaringBitmap := OrdSet ℕ

/-- The numbers are 16-bit offsets. -/
def Small (s : RoaringBitmap) : Prop := ∀ v ∈ s, v < 2 ^ 16

/-- **The offset-set codec.** `encode` stands for `remove_run_compression`, `optimize` and
`serialize_into`, whose output depends on the set alone; `decode` for `deserialize_from`. -/
structure Roaring where
  encode : RoaringBitmap → Bytes
  decode : Bytes → Except String RoaringBitmap
  decode_encode : ∀ s, Small s → decode (encode s) = .ok s

lemma Roaring.encode_inj (R : Roaring) {s s' : RoaringBitmap} (hs : Small s) (hs' : Small s')
    (h : R.encode s = R.encode s') : s = s' := by
  have hd := R.decode_encode s hs
  rw [h, R.decode_encode s' hs'] at hd
  exact (Except.ok.inj hd).symm

/-- The low and the high byte of a 16-bit number. -/
def le16 (n : ℕ) : Bytes := [UInt8.ofNat n, UInt8.ofNat (n / 256)]

/-- The numbers of a list of byte pairs. -/
def ofLe16 : Bytes → List ℕ
  | low :: high :: rest => (low.toNat + 256 * high.toNat) :: ofLe16 rest
  | _ => []

lemma ofLe16_flatMap {l : List ℕ} (h : ∀ v ∈ l, v < 2 ^ 16) : ofLe16 (l.flatMap le16) = l := by
  induction l with
  | nil => rfl
  | cons v l ih =>
    have hv := h v (List.mem_cons_self ..)
    rw [List.flatMap_cons, le16, List.cons_append, List.cons_append, List.nil_append, ofLe16,
      ih fun x hx => h x (List.mem_cons_of_mem _ hx)]
    congr 1
    simp only [UInt8.toNat_ofNat']
    omega

/-- The array form of the format, which sparse sets take: the cookie, one container with its
cardinality and its place, and the numbers. -/
def arrayRoaring : Roaring where
  encode s := [0x3a, 0x30, 0, 0, 1, 0, 0, 0, 0, 0] ++ le16 (s.toList.length - 1) ++ [16, 0, 0, 0]
    ++ s.toList.flatMap le16
  decode bytes := .ok (OrdSet.ofList (ofLe16 (bytes.drop 16)))
  decode_encode s hs := by
    rw [List.drop_append_of_le_length (by simp [le16]), List.drop_of_length_le (by simp [le16]), List.nil_append,
      ofLe16_flatMap fun v hv => hs v (OrdSet.mem_toList.mp hv)]
    exact congrArg _ (OrdSet.ext fun v => by rw [OrdSet.mem_ofList, OrdSet.mem_toList])

/-! ### Containers -/

/-- One chunk of a posting set. -/
structure BitmapContainer where
  path : ℕ
  values : RoaringBitmap
  path_le : path ≤ MAX_PATH
  small : Small values
deriving DecidableEq

namespace BitmapContainer

/-- A number above 16 bits is reported by the maximum. -/
def new (path : ℕ) (values : RoaringBitmap) : Except BitmapError BitmapContainer :=
  if h : path ≤ MAX_PATH then
    if hv : ∀ v ∈ values.toList, v < 2 ^ 16 then
      .ok ⟨path, values, h, fun v hm => hv v (OrdSet.mem_toList.mpr hm)⟩
    else .error (.offsetOutOfRange (values.toList.getLastD 0))
  else .error (.pathOutOfRange path)

def empty (path : ℕ) : Except BitmapError BitmapContainer := new path OrdMap.empty

def isEmpty (c : BitmapContainer) : Bool := OrdMap.isEmpty c.values

lemma small_assign {s : RoaringBitmap} (h : Small s) (offset : Offset) (present : Bool) :
    Small (s.assign offset.val present) := by
  intro v hv
  rw [OrdSet.mem_assign] at hv
  split_ifs at hv with he
  · exact he ▸ offset.isLt
  · exact h v hv

/-- Put the offset in or out, and say whether that changed the container: `insert` and
`remove`. -/
def assign (c : BitmapContainer) (offset : Offset) (present : Bool) : BitmapContainer × Bool :=
  (⟨c.path, c.values.assign offset.val present, c.path_le, small_assign c.small offset present⟩,
    decide (offset.val ∈ c.values) != present)

/-- The record id of an offset: `(path << 16) | offset`. -/
def id (path offset : ℕ) : U64 := Fin.ofNat _ (path * 2 ^ 16 + offset)

/-- The complete record ids, ascending. -/
def ids (c : BitmapContainer) : List U64 := c.values.toList.map (id c.path)

/-- `hi48_be ‖ roaring`; an empty container has no encoding. -/
def canonicalBytes (R : Roaring) (c : BitmapContainer) : Except BitmapError Bytes := do
  if c.isEmpty then .error .emptyContainer
  else
    let path ← pathBytes c.path
    return path.1 ++ R.encode c.values

/-- Decode canonical persisted bytes alone. -/
def decode (R : Roaring) (bytes : Bytes) : Except BitmapError BitmapContainer := do
  if bytes.length < 6 then .error .truncatedPath
  else
    let values ← (R.decode (bytes.drop 6)).mapError BitmapError.decode
    let container ← new (ofBe (bytes.take 6)) values
    if (← container.canonicalBytes R) ≠ bytes then .error .nonCanonicalEncoding
    else return container

end BitmapContainer

/-! ### Bitmaps -/

/-- A materialized set of record ids. -/
structure Bitmap where
  values : OrdSet U64
deriving DecidableEq

namespace Bitmap

/-- `RoaringTreemap::append` then `expect`: the new values must ascend above the old ones. -/
def append (values : OrdSet U64) (ids : List U64) : Except BitmapError (OrdSet U64) :=
  if (values.toList ++ ids).Pairwise (· < ·) then .ok (ids.foldl OrdSet.add values)
  else .error .panic

/-- One turn of the loop that assembles a bitmap. -/
def appendContainer (acc : Option ℕ × OrdSet U64) (c : BitmapContainer) :
    Except BitmapError (Option ℕ × OrdSet U64) := do
  match acc.1 with
  | some prev =>
    if c.path = prev then .error (.duplicatePath c.path)
    else if c.path < prev then .error (.unsortedPaths prev c.path)
    else return (some c.path, ← append acc.2 c.ids)
  | none => return (some c.path, ← append acc.2 c.ids)

/-- Assemble containers in strictly increasing path order. -/
def fromContainers (containers : List BitmapContainer) : Except BitmapError Bitmap := do
  let acc ← containers.foldlM appendContainer (none, OrdMap.empty)
  return ⟨acc.2⟩

end Bitmap

end GolemDb.Index
