import Mathlib

/-!
# Straight-line code of x86-64

The moves between the registers and a byte-addressed memory, `push` and `ret`. Addresses are 64 bits
and wrap around, and a word is in eight bytes, the least significant one first.

Two accesses do not meet if their **regions** are disjoint, and code that only moves words is read
through `load_store` and `load_store_of_disjoint`.
-/

open Function

namespace X86

/-- A word of the machine, of 64 bits. -/
abbrev Word := BitVec 64

/-- The bytes at all addresses. -/
abbrev Memory := Word → BitVec 8

/-! ### Memory -/

/-- The `n` addresses from `a` on. -/
def region (a : Word) (n : ℕ) : Set Word := {x | (x - a).toNat < n}

/-- The word at `a`. -/
def load (m : Memory) (a : Word) : Word :=
  BitVec.ofFnLE fun i : Fin 64 ↦ (m (a + BitVec.ofNat 64 (i / 8))).getLsbD (i % 8)

/-- The memory with the word `v` at `a`, lowest byte first. -/
def store (m : Memory) (a v : Word) : Memory := fun x ↦
  if (x - a).toNat < 8 then v.extractLsb' (8 * (x - a).toNat) 8 else m x

variable {m m' : Memory} {a b v x : Word} {n i j : ℕ}

/-- The offset of an address of a region. -/
theorem toNat_add_sub (a : Word) (hi : i < 2 ^ 64) : (a + BitVec.ofNat 64 i - a).toNat = i := by
  rw [BitVec.add_comm, BitVec.add_sub_cancel, BitVec.toNat_ofNat, Nat.mod_eq_of_lt hi]

theorem store_of_notMem (h : x ∉ region a 8) : store m a v x = m x := if_neg h

theorem load_congr (h : ∀ x ∈ region a 8, m x = m' x) : load m a = load m' a := by
  refine congrArg BitVec.ofFnLE (funext fun i ↦ ?_)
  rw [h]
  show (a + BitVec.ofNat 64 (i / 8) - a).toNat < 8
  rw [toNat_add_sub a (by omega)]
  omega

/-- What was stored is loaded. -/
@[simp] theorem load_store (m : Memory) (a v : Word) : load (store m a v) a = v := by
  refine BitVec.eq_of_getLsbD_eq fun i hi ↦ ?_
  have hbyte : (a + BitVec.ofNat 64 (i / 8) - a).toNat = i / 8 := toNat_add_sub a (by omega)
  have hsum : 8 * (i / 8) + i % 8 = i := Nat.div_add_mod i 8
  rw [load, BitVec.getLsbD_ofFnLE, dif_pos hi]
  dsimp only
  rw [store, if_pos (by omega), hbyte, BitVec.getLsbD_extractLsb', hsum,
    decide_eq_true (Nat.mod_lt i (by decide)), Bool.true_and]

/-- A store into other bytes does not change a word. -/
theorem load_store_of_disjoint (h : Disjoint (region a 8) (region b 8)) :
    load (store m b v) a = load m a :=
  load_congr fun _ hx ↦ store_of_notMem (Set.disjoint_left.1 h hx)

/-- A field of a structure is in it. -/
theorem region_add_subset (h : i + 8 ≤ n) (hn : n ≤ 2 ^ 64) :
    region (a + BitVec.ofNat 64 i) 8 ⊆ region a n := by
  intro x hx
  have hlt : (x - (a + BitVec.ofNat 64 i)).toNat < 8 := hx
  show (x - a).toNat < n
  have heq : x - a = x - (a + BitVec.ofNat 64 i) + BitVec.ofNat 64 i := by bv_omega
  rw [heq, BitVec.toNat_add, BitVec.toNat_ofNat]
  omega

/-- Two fields of a structure. -/
theorem disjoint_region_add (a : Word) (h : i + 8 ≤ j ∨ j + 8 ≤ i) (hi : i < 2 ^ 32)
    (hj : j < 2 ^ 32) :
    Disjoint (region (a + BitVec.ofNat 64 i) 8) (region (a + BitVec.ofNat 64 j) 8) := by
  rw [Set.disjoint_left]
  intro x hx hx'
  have hlt : (x - (a + BitVec.ofNat 64 i)).toNat < 8 := hx
  have hlt' : (x - (a + BitVec.ofNat 64 j)).toNat < 8 := hx'
  have heq : x - (a + BitVec.ofNat 64 i) + BitVec.ofNat 64 i =
    x - (a + BitVec.ofNat 64 j) + BitVec.ofNat 64 j := by bv_omega
  have hnat := congrArg BitVec.toNat heq
  rw [BitVec.toNat_add, BitVec.toNat_add, BitVec.toNat_ofNat, BitVec.toNat_ofNat] at hnat
  omega

/-- Store words of a structure with `n` fields, one after another. -/
def storeFields (a : Word) (words : Fin n → Word) : List (Fin n) → Memory → Memory
  | [], m => m
  | k :: ks, m => storeFields a words ks (store m (a + BitVec.ofNat 64 (8 * k.val)) (words k))

variable {words : Fin n → Word} {ks : List (Fin n)} {k : Fin n}

/-- After storing fields of a structure, a field is the last word stored there, if there is one. -/
theorem load_storeFields (hn : n ≤ 2 ^ 28) :
    load (storeFields a words ks m) (a + BitVec.ofNat 64 (8 * k.val)) =
      if k ∈ ks then words k else load m (a + BitVec.ofNat 64 (8 * k.val)) := by
  induction ks generalizing m with
  | nil => exact (if_neg List.not_mem_nil).symm
  | cons j ks ih =>
    rw [storeFields, ih]
    rcases eq_or_ne k j with rfl | hne
    · rw [load_store, if_pos List.mem_cons_self, ite_self]
    · have hne' : (k : ℕ) ≠ j := Fin.val_ne_of_ne hne
      rw [load_store_of_disjoint (disjoint_region_add a (by omega) (by omega) (by omega))]
      exact if_congr (by simp [hne]) rfl rfl

/-- Storing fields of a structure changes no byte outside it. -/
theorem storeFields_of_notMem (hn : 8 * n ≤ 2 ^ 64) (hx : x ∉ region a (8 * n)) :
    storeFields a words ks m x = m x := by
  induction ks generalizing m with
  | nil => rfl
  | cons j ks ih =>
    rw [storeFields, ih]
    exact store_of_notMem fun hmem ↦ hx (region_add_subset (by omega) hn hmem)

/-! ### Instructions -/

/-- The general registers. -/
inductive Reg where
  | rax | rbx | rcx | rdx | rsi | rdi | rbp | rsp
  | r8 | r9 | r10 | r11 | r12 | r13 | r14 | r15
deriving DecidableEq

/-- The registers, the instruction pointer and the memory. -/
structure State where
  regs : Reg → Word
  rip : Word
  mem : Memory

/-- The instructions on words, with `disp(base)` for an operand in memory. -/
inductive Instr where
  /-- `leaq disp(base), dst` -/
  | lea (disp : ℕ) (base dst : Reg)
  /-- `movq src, disp(base)` -/
  | store (src : Reg) (disp : ℕ) (base : Reg)
  /-- `movq disp(base), dst` -/
  | load (disp : ℕ) (base dst : Reg)
  /-- `xorq src, dst` -/
  | xor (src dst : Reg)
  /-- `pushq disp(base)` -/
  | push (disp : ℕ) (base : Reg)
  | ret

namespace State

variable (s : State)

/-- The state with another value in one register. -/
def setReg (r : Reg) (v : Word) : State := { s with regs := update s.regs r v }

/-- The address of an operand. -/
def addr (disp : ℕ) (base : Reg) : Word := s.regs base + BitVec.ofNat 64 disp

/-- The instruction pointer only matters where the code is left. -/
def execInstr : Instr → State
  | .lea disp base dst => s.setReg dst (s.addr disp base)
  | .store src disp base => { s with mem := X86.store s.mem (s.addr disp base) (s.regs src) }
  | .load disp base dst => s.setReg dst (X86.load s.mem (s.addr disp base))
  | .xor src dst => s.setReg dst (s.regs dst ^^^ s.regs src)
  | .push disp base =>
    { s.setReg .rsp (s.regs .rsp - 8) with
      mem := X86.store s.mem (s.regs .rsp - 8) (X86.load s.mem (s.addr disp base)) }
  | .ret => { s.setReg .rsp (s.regs .rsp + 8) with rip := X86.load s.mem (s.regs .rsp) }

/-- Execute a list of instructions. -/
def exec (code : List Instr) : State := code.foldl execInstr s

@[simp] theorem exec_nil : s.exec [] = s := rfl

@[simp] theorem exec_cons (i : Instr) (code : List Instr) :
    s.exec (i :: code) = (s.execInstr i).exec code := rfl

theorem exec_append (code code' : List Instr) :
    s.exec (code ++ code') = (s.exec code).exec code' := List.foldl_append

@[simp] theorem setReg_regs (r : Reg) (v : Word) : (s.setReg r v).regs = update s.regs r v := rfl

@[simp] theorem setReg_mem (r : Reg) (v : Word) : (s.setReg r v).mem = s.mem := rfl

@[simp] theorem setReg_rip (r : Reg) (v : Word) : (s.setReg r v).rip = s.rip := rfl

end State

end X86
