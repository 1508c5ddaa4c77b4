import Mathlib.Data.Tree.Basic
import MiscCpp.Library.CInt

/-!
# Serialized trees

The two formats of a tree, in preorder. `ASCII` writes the values as decimal numbers and a null
pointer as `#`, each with a space behind it. `Binary` writes a status byte, which tells whether
there is a node and which children it has, and the four bytes of the value; null children are left
out.

Both decoders stop at the end of what the encoder has written, whatever is behind it, so by
induction on the tree they rebuild one subtree after the other (`deserialize_serialize`).
-/

open CInt

namespace Serialize

/-! ### Text -/

namespace ASCII

/-- `serializeHelper` -/
def serialize : BinaryTree CInt → List Char
  | .nil => ['#', ' ']
  | .node val left right => val.toChars ++ ' ' :: (serialize left ++ serialize right)

/-- `in >> str`: the next word, and what is left of `in`. -/
def readWord (data : List Char) : List Char × List Char :=
  let data := data.dropWhile isSpace
  (data.takeWhile (!isSpace ·), data.dropWhile (!isSpace ·))

/-- `deserializeHelper`, for trees of a height below `fuel`: the tree, and what is left of `in`. -/
def deserializeHelper : ℕ → List Char → Option (BinaryTree CInt × List Char)
  | 0, _ => none
  | fuel + 1, data => do
    let (str, data) := readWord data
    if str = ['#'] then some (.nil, data)
    else
      let val ← stoi str
      let (left, data) ← deserializeHelper fuel data
      let (right, data) ← deserializeHelper fuel data
      some (.node val left right, data)

/-- Each call takes a character at least. -/
def deserialize (data : List Char) : Option (BinaryTree CInt × List Char) :=
  deserializeHelper (data.length + 1) data

end ASCII

/-! ### Bytes -/

namespace Binary

def ROOT : UInt8 := 1

def LEFT : UInt8 := 2

def RIGHT : UInt8 := 4

/-- The pointer is not null. -/
def isNode : BinaryTree CInt → Bool
  | .nil => false
  | .node _ _ _ => true

/-- The status byte. -/
def status : BinaryTree CInt → UInt8
  | .nil => 0
  | .node _ left right =>
    let status := 0 ||| ROOT
    let status := if isNode left then status ||| LEFT else status
    if isNode right then status ||| RIGHT else status

/-- `serializeHelper` -/
def serialize : BinaryTree CInt → List UInt8
  | .nil => [status .nil]
  | .node val left right =>
    let status := status (.node val left right)
    status :: (val.toBytes ++
      ((if status &&& LEFT ≠ 0 then serialize left else []) ++
        if status &&& RIGHT ≠ 0 then serialize right else []))

/-- `in`: what is left of the data, and whether a read has failed. -/
structure IStream where
  data : List UInt8
  fail : Bool

/-- `in.read`: the bytes that are stored, fewer than `n` when there are no more or a read has
failed before. -/
def IStream.read (s : IStream) (n : ℕ) : List UInt8 × IStream :=
  if s.fail then ([], s)
  else if s.data.length < n then (s.data, ⟨[], true⟩)
  else (s.data.take n, ⟨s.data.drop n, false⟩)

/-- `bit ? deserializeHelper() : nullptr` -/
def readChild (helper : IStream → Option (BinaryTree CInt × IStream)) (bit : UInt8)
    (s : IStream) : Option (BinaryTree CInt × IStream) :=
  if bit ≠ 0 then helper s else some (.nil, s)

/-- `deserializeHelper`, for trees of a height below `fuel`. The status byte has no value when it
is not read; of the value, which is 0 at first, the bytes stay that are not read. -/
def deserializeHelper : ℕ → IStream → Option (BinaryTree CInt × IStream)
  | 0, _ => none
  | fuel + 1, s => do
    let (bytes, s) := s.read 1
    let status ← bytes.head?
    if status &&& ROOT = 0 then some (.nil, s)
    else
      let (bytes, s) := s.read 4
      let val := ofBytes (bytes ++ List.replicate (4 - bytes.length) 0)
      let (left, s) ← readChild (deserializeHelper fuel) (status &&& LEFT) s
      let (right, s) ← readChild (deserializeHelper fuel) (status &&& RIGHT) s
      some (.node val left right, s)

def deserialize (data : List UInt8) : Option (BinaryTree CInt × IStream) :=
  deserializeHelper (data.length + 1) ⟨data, false⟩

end Binary

/-! ### Reading text -/

namespace ASCII

variable {w data rest : List Char} {fuel : ℕ}

/-- A word is read up to the space behind it. -/
theorem readWord_append (hw : ∀ c ∈ w, isSpace c = false) (hne : w ≠ []) (rest : List Char) :
    readWord (w ++ ' ' :: rest) = (w, ' ' :: rest) := by
  have hdrop : (w ++ ' ' :: rest).dropWhile isSpace = w ++ ' ' :: rest := by
    cases w with
    | nil => exact absurd rfl hne
    | cons c w => rw [List.cons_append, List.dropWhile_cons_of_neg (by simp [hw c])]
  have hw' : ∀ c ∈ w, (!isSpace c) = true := fun c hc ↦ by rw [hw c hc]; rfl
  rw [readWord, hdrop, List.takeWhile_append_of_pos hw', List.dropWhile_append_of_pos hw',
    List.takeWhile_cons_of_neg (by decide), List.dropWhile_cons_of_neg (by decide),
    List.append_nil]

theorem deserializeHelper_space (fuel : ℕ) (data : List Char) :
    deserializeHelper fuel (' ' :: data) = deserializeHelper fuel data := by
  cases fuel with
  | zero => rfl
  | succ fuel =>
    have hword : readWord (' ' :: data) = readWord data := by
      rw [readWord, List.dropWhile_cons_of_pos (by decide), readWord]
    rw [deserializeHelper, hword, deserializeHelper]

/-- A decimal number is not taken for a null pointer. -/
theorem toChars_ne (x : CInt) : x.toChars ≠ ['#'] := by
  intro heq
  have hstoi := stoi_toChars x
  rw [heq] at hstoi
  cases hstoi

/-- What a tree is written as is read as the tree. -/
theorem deserializeHelper_serialize (t : BinaryTree CInt) (rest : List Char)
    (hfuel : t.numNodes < fuel) :
    deserializeHelper fuel (serialize t ++ rest) = some (t, ' ' :: rest) := by
  induction t generalizing fuel rest with
  | nil =>
    obtain ⟨fuel, rfl⟩ := Nat.exists_eq_succ_of_ne_zero (Nat.ne_of_gt hfuel)
    have hword : readWord (serialize .nil ++ rest) = (['#'], ' ' :: rest) := by
      have hspace : ∀ c ∈ ['#'], isSpace c = false := by
        intro c hc
        rw [List.mem_singleton.1 hc]
        rfl
      exact readWord_append hspace (List.cons_ne_nil _ _) rest
    rw [deserializeHelper, hword]
    rfl
  | node val left right ihl ihr =>
    obtain ⟨fuel, rfl⟩ := Nat.exists_eq_succ_of_ne_zero (Nat.ne_of_gt (Nat.zero_lt_of_lt hfuel))
    rw [BinaryTree.numNodes] at hfuel
    have hword : readWord (serialize (.node val left right) ++ rest) =
        (val.toChars, ' ' :: (serialize left ++ (serialize right ++ rest))) := by
      rw [serialize, List.append_assoc, List.cons_append, List.append_assoc]
      exact readWord_append (fun c ↦ isSpace_of_mem_toChars) (toChars_ne_nil val) _
    rw [deserializeHelper, hword]
    have hl : left.numNodes < fuel := by omega
    have hr : right.numNodes < fuel := by omega
    simp only [Option.bind_eq_bind, if_neg (toChars_ne val), stoi_toChars, Option.bind_some,
      deserializeHelper_space, ihl _ hl, ihr _ hr]

theorem numNodes_lt_length (t : BinaryTree CInt) : t.numNodes < (serialize t).length := by
  induction t with
  | nil => exact Nat.two_pos
  | node val left right ihl ihr =>
    rw [BinaryTree.numNodes, serialize, List.length_append, List.length_cons, List.length_append]
    omega

theorem deserialize_serialize_append (t : BinaryTree CInt) (rest : List Char) :
    deserialize (serialize t ++ rest) = some (t, ' ' :: rest) := by
  refine deserializeHelper_serialize t rest ?_
  have hlt := numNodes_lt_length t
  rw [List.length_append]
  omega

end ASCII

/-! ### Reading bytes -/

namespace Binary

variable {fuel : ℕ} {bytes rest : List UInt8}

/-- Bytes that are there are read. -/
theorem read_append (bytes rest : List UInt8) :
    IStream.read ⟨bytes ++ rest, false⟩ bytes.length = (bytes, ⟨rest, false⟩) := by
  have hlen : ¬ (bytes ++ rest).length < bytes.length := by
    rw [List.length_append]
    omega
  rw [IStream.read, if_neg Bool.false_ne_true, if_neg hlen, List.take_left, List.drop_left]

theorem status_root (val : CInt) (left right : BinaryTree CInt) :
    status (.node val left right) &&& ROOT ≠ 0 := by
  rw [status]
  cases isNode left <;> cases isNode right <;> decide

/-- The bit for a left child. -/
theorem status_left (val : CInt) (left right : BinaryTree CInt) :
    status (.node val left right) &&& LEFT ≠ 0 ↔ isNode left := by
  rw [status]
  cases isNode left <;> cases isNode right <;> decide

/-- The bit for a right child. -/
theorem status_right (val : CInt) (left right : BinaryTree CInt) :
    status (.node val left right) &&& RIGHT ≠ 0 ↔ isNode right := by
  rw [status]
  cases isNode left <;> cases isNode right <;> decide

/-- A child that the status byte announces is read, and the others are null. -/
theorem readChild_eq {t : BinaryTree CInt} {bit : UInt8} (hbit : bit ≠ 0 ↔ isNode t)
    (rest : List UInt8)
    (ht : deserializeHelper fuel ⟨serialize t ++ rest, false⟩ = some (t, ⟨rest, false⟩)) :
    readChild (deserializeHelper fuel) bit
      ⟨(if bit ≠ 0 then serialize t else []) ++ rest, false⟩ = some (t, ⟨rest, false⟩) := by
  rw [readChild]
  by_cases h : bit ≠ 0
  · rw [if_pos h, if_pos h, ht]
  · cases t with
    | nil => rw [if_neg h, if_neg h, List.nil_append]
    | node val left right => exact absurd (hbit.2 rfl) h

theorem deserializeHelper_serialize (t : BinaryTree CInt) (rest : List UInt8)
    (hfuel : t.numNodes < fuel) :
    deserializeHelper fuel ⟨serialize t ++ rest, false⟩ = some (t, ⟨rest, false⟩) := by
  induction t generalizing fuel rest with
  | nil =>
    obtain ⟨fuel, rfl⟩ := Nat.exists_eq_succ_of_ne_zero (Nat.ne_of_gt hfuel)
    have hread : IStream.read ⟨serialize .nil ++ rest, false⟩ 1 = ([0], ⟨rest, false⟩) :=
      read_append [0] rest
    rw [deserializeHelper, hread]
    rfl
  | node val left right ihl ihr =>
    obtain ⟨fuel, rfl⟩ := Nat.exists_eq_succ_of_ne_zero (Nat.ne_of_gt (Nat.zero_lt_of_lt hfuel))
    rw [BinaryTree.numNodes] at hfuel
    have hl : left.numNodes < fuel := by omega
    have hr : right.numNodes < fuel := by omega
    have hstatus := read_append [status (.node val left right)]
    have hval := fun rest ↦ length_toBytes val ▸ read_append val.toBytes rest
    rw [serialize, ← List.singleton_append, List.append_assoc, List.append_assoc,
      List.append_assoc, deserializeHelper]
    simp only [List.length_singleton] at hstatus
    simp only [hstatus, hval, List.head?_cons, Option.bind_eq_bind, Option.bind_some,
      if_neg (status_root val left right),
      readChild_eq (status_left val left right) _ (ihl _ hl),
      readChild_eq (status_right val left right) _ (ihr _ hr)]
    rw [length_toBytes, Nat.sub_self, List.replicate_zero, List.append_nil, ofBytes_toBytes]

theorem numNodes_le_child {t : BinaryTree CInt} {bit : UInt8} (hbit : bit ≠ 0 ↔ isNode t)
    (ht : t.numNodes < (serialize t).length) :
    t.numNodes ≤ (if bit ≠ 0 then serialize t else []).length := by
  by_cases h : bit ≠ 0
  · rw [if_pos h]
    exact ht.le
  · cases t with
    | nil => exact Nat.zero_le _
    | node val left right => exact absurd (hbit.2 rfl) h

theorem numNodes_lt_length (t : BinaryTree CInt) : t.numNodes < (serialize t).length := by
  induction t with
  | nil => exact Nat.one_pos
  | node val left right ihl ihr =>
    have hleft := numNodes_le_child (status_left val left right) ihl
    have hright := numNodes_le_child (status_right val left right) ihr
    simp only [BinaryTree.numNodes, serialize, List.length_cons, List.length_append,
      length_toBytes]
    omega

theorem deserialize_serialize_append (t : BinaryTree CInt) (rest : List UInt8) :
    deserialize (serialize t ++ rest) = some (t, ⟨rest, false⟩) := by
  refine deserializeHelper_serialize t rest ?_
  have hlt := numNodes_lt_length t
  rw [List.length_append]
  omega

end Binary

/-- **Both decoders** rebuild the tree, and stop at the end of the encoding. -/
theorem deserialize_serialize (t : BinaryTree CInt) (text : List Char) (bytes : List UInt8) :
    ASCII.deserialize (ASCII.serialize t ++ text) = some (t, ' ' :: text) ∧
      Binary.deserialize (Binary.serialize t ++ bytes) = some (t, ⟨bytes, false⟩) :=
  ⟨ASCII.deserialize_serialize_append t text, Binary.deserialize_serialize_append t bytes⟩

end Serialize
