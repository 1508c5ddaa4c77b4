import MiscCpp.Library.Access
import MiscCpp.Library.BitMask
import MiscCpp.Library.CInt
import MiscCpp.Library.Machine

/-!
# The subsets of a vector

`subsets` and `subsetsBit` of `leetcode/other/subsets.cc`. Both list the sets of positions in the
order of their masks: `subsets` appends the next element to copies of what is listed already
(`powerset_succ`), and `subsetsBit` reads the bits of each mask (`exec_pushBit`).
-/

open Access BitMask CInt Machine

namespace Subsets

/-! ### The program -/

/-- The body of the inner loop of `subsets`. -/
def extend (num : CInt) (res : List (List CInt)) (i : ℕ) : Option (List (List CInt)) := do
  some (res ++ [(← get res i) ++ [num]])

/-- The body of the outer loop. -/
def double (res : List (List CInt)) (num : CInt) : Option (List (List CInt)) :=
  let n := (wrap res.length).1
  exec (extend num) res (List.range n.toNat)

def subsets (nums : List CInt) : Option (List (List CInt)) := exec double [[]] nums

/-- The body of the inner loop of `subsetsBit`. -/
def pushBit (nums : List CInt) (pos : ℕ) (res : List (List CInt)) (idx : ℕ) :
    Option (List (List CInt)) :=
  if pos >>> idx &&& 1 ≠ 0 then do put res pos ((← get res pos) ++ [← get nums idx])
  else some res

/-- The body of the outer loop. -/
def decode (nums : List CInt) (res : List (List CInt)) (pos : ℕ) : Option (List (List CInt)) :=
  exec (pushBit nums pos) res (List.range nums.length)

/-- Undefined if `1 << n` is none of an `int`. -/
def subsetsBit (nums : List CInt) : Option (List (List CInt)) :=
  if nums.length < 31 then
    let p := 1 <<< nums.length
    exec (decode nums) (List.replicate p []) (List.range p)
  else none

example : subsets ([1, 2].map wrap) = some ([[], [1], [2], [1, 2]].map (·.map wrap)) := by decide

example : subsetsBit ([1, 2].map wrap) = some ([[], [1], [2], [1, 2]].map (·.map wrap)) := by
  decide

/-! ### Elements at positions -/

/-- The elements at these positions. -/
def pick (nums : List CInt) (s : Finset ℕ) : List CInt :=
  (List.range nums.length).filterMap fun i ↦ if i ∈ s then nums[i]? else none

variable {nums : List CInt} {num : CInt} {res : List (List CInt)} {row : List CInt}
  {s : Finset ℕ} {k n p pos : ℕ}

theorem pick_nil (s : Finset ℕ) : pick [] s = [] := rfl

/-- One more element. -/
theorem pick_concat (nums : List CInt) (num : CInt) (s : Finset ℕ) :
    pick (nums ++ [num]) s = pick nums s ++ if nums.length ∈ s then [num] else [] := by
  have hfront : (List.range nums.length).filterMap (fun i ↦ if i ∈ s then (nums ++ [num])[i]?
      else none) = pick nums s := by
    refine List.filterMap_congr fun i hi ↦ ?_
    rw [List.getElem?_append_left (List.mem_range.1 hi)]
  rw [pick, List.length_append, List.length_singleton, List.range_succ, List.filterMap_append,
    hfront, List.filterMap_cons, List.filterMap_nil, List.getElem?_concat_length]
  split
  next h =>
    split at h
    next => cases h
    next hs => rw [if_neg hs]
  next h =>
    split at h
    next hs => rw [if_pos hs, Option.some.inj h]
    next => cases h

theorem pick_concat_insert (nums : List CInt) (num : CInt) (s : Finset ℕ) :
    pick (nums ++ [num]) (insert nums.length s) = pick nums s ++ [num] := by
  have hfront : pick nums (insert nums.length s) = pick nums s := by
    refine List.filterMap_congr fun i hi ↦ ?_
    have hne : i ≠ nums.length := (List.mem_range.1 hi).ne
    simp only [Finset.mem_insert, hne, false_or]
  rw [pick_concat, if_pos (Finset.mem_insert_self _ s), hfront]

theorem pick_concat_of_subset (hs : s ⊆ Finset.range nums.length) (num : CInt) :
    pick (nums ++ [num]) s = pick nums s := by
  have hlast : nums.length ∉ s := fun hmem ↦ Finset.notMem_range_self (hs hmem)
  rw [pick_concat, if_neg hlast, List.append_nil]

/-! ### Copies with one more element -/

theorem exec_extend (hk : k ≤ res.length) : exec (extend num) res (List.range k) =
    some (res ++ (res.take k).map fun v ↦ v ++ [num]) := by
  induction k with
  | zero => rw [List.range_zero, exec_nil, List.take_zero, List.map_nil, List.append_nil]
  | succ k ih =>
    have hlt : k < res.length := hk
    rw [List.range_succ, exec_concat, ih hlt.le, Option.bind_some, extend, get_natCast,
      List.getElem?_append_left hlt, List.getElem?_eq_getElem hlt, Option.bind_eq_bind,
      Option.bind_some, List.append_assoc, List.take_succ_eq_append_getElem hlt, List.map_append,
      List.map_singleton]

theorem double_eq (num : CInt) (hlt : res.length < 2 ^ 31) :
    double res num = some (res ++ res.map fun v ↦ v ++ [num]) := by
  have hn : (wrap res.length).1 = res.length := wrap_of_lt (Int.natCast_nonneg _) (by omega)
  rw [double, hn, Int.toNat_natCast, exec_extend le_rfl, List.take_length]

/-- **The first function** lists all sets of positions. -/
theorem subsets_eq (h : nums.length < 32) :
    subsets nums = some ((powerset nums.length).map (pick nums)) := by
  induction nums using List.reverseRecOn with
  | nil => rfl
  | append_singleton nums num ih =>
    rw [List.length_append, List.length_singleton] at h
    have hlt : ((powerset nums.length).map (pick nums)).length < 2 ^ 31 := by
      rw [List.length_map, powerset, List.length_map, List.length_range]
      exact Nat.pow_lt_pow_right Nat.one_lt_two (by omega)
    rw [subsets, exec_concat, ← subsets, ih (by omega), Option.bind_some, double_eq num hlt,
      List.length_append, List.length_singleton, powerset_succ, List.map_append, List.map_map,
      List.map_map]
    refine congrArg some (congrArg₂ _ (List.map_congr_left fun s hs ↦ ?_)
      (List.map_congr_left fun s _ ↦ ?_))
    · exact (pick_concat_of_subset (mem_powerset_iff.1 hs) num).symm
    · exact (pick_concat_insert nums num s).symm

/-! ### Masks -/

theorem pushBit_eq {x : CInt} (hx : get nums k = some x) (hrow : get res pos = some row) :
    pushBit nums pos res k =
      some (res.set pos (row ++ if k ∈ bits pos then [x] else [])) := by
  have hbit : pos >>> k &&& 1 ≠ 0 ↔ k ∈ bits pos := by
    rw [mem_bits, Nat.testBit, Nat.and_comm, bne_iff_ne]
  rw [get_natCast] at hrow
  rw [pushBit]
  by_cases hk : k ∈ bits pos
  · rw [if_pos (hbit.2 hk), if_pos hk, get_natCast, hrow, hx, Option.bind_eq_bind,
      Option.bind_some, Option.bind_eq_bind, Option.bind_some, put_eq (by rwa [get_natCast]),
      Int.toNat_natCast]
  · obtain ⟨hlt, rfl⟩ := List.getElem?_eq_some_iff.1 hrow
    rw [if_neg (mt hbit.1 hk), if_neg hk, List.append_nil, List.set_getElem_self]

/-- **The bits** of a mask pick the elements. -/
theorem exec_pushBit (hrow : get res pos = some []) (hk : k ≤ nums.length) :
    exec (pushBit nums pos) res (List.range k) =
      some (res.set pos (pick (nums.take k) (bits pos))) := by
  induction k with
  | zero =>
    rw [get_natCast] at hrow
    obtain ⟨hlt, hnil⟩ := List.getElem?_eq_some_iff.1 hrow
    rw [List.range_zero, exec_nil, List.take_zero, pick_nil, ← hnil, List.set_getElem_self]
  | succ k ih =>
    have hlt : k < nums.length := hk
    have hlen : (nums.take k).length = k := List.length_take_of_le hlt.le
    have hself := get_set_self hrow (pick (nums.take k) (bits pos))
    rw [Int.toNat_natCast] at hself
    rw [List.range_succ, exec_concat, ih hlt.le, Option.bind_some,
      pushBit_eq (x := nums[k]) (by rw [get_natCast, List.getElem?_eq_getElem hlt]) hself,
      List.set_set, List.take_succ_eq_append_getElem hlt, pick_concat, hlen]

/-- **The second function** lists them in the same order. -/
theorem subsetsBit_eq (h : nums.length < 31) :
    subsetsBit nums = some ((powerset nums.length).map (pick nums)) := by
  have hrows (k : ℕ) (hk : k ≤ 2 ^ nums.length) :
      exec (decode nums) (List.replicate (2 ^ nums.length) []) (List.range k) =
        some ((List.range k).map (fun pos ↦ pick nums (bits pos)) ++
          List.replicate (2 ^ nums.length - k) []) := by
    induction k with
    | zero => rfl
    | succ k ih =>
      obtain ⟨r, hr⟩ := Nat.exists_eq_add_of_lt hk
      have hrest : 2 ^ nums.length - k = r + 1 := by omega
      have hlen : ((List.range k).map fun pos ↦ pick nums (bits pos)).length = k := by
        rw [List.length_map, List.length_range]
      have hget : get ((List.range k).map (fun pos ↦ pick nums (bits pos)) ++
          List.replicate (r + 1) []) k = some [] := by
        rw [get_natCast, List.getElem?_append_right hlen.le, hlen, Nat.sub_self]
        rfl
      rw [List.range_succ, exec_concat, ih (Nat.le_of_succ_le hk), Option.bind_some, decode, hrest,
        exec_pushBit hget le_rfl, List.take_length, List.set_append_right _ _ hlen.le, hlen,
        Nat.sub_self, List.replicate_succ, List.set_cons_zero, List.map_append, List.map_singleton,
        List.append_assoc, List.singleton_append, show 2 ^ nums.length - (k + 1) = r by omega]
  have hall := hrows _ le_rfl
  rw [Nat.sub_self, List.replicate_zero, List.append_nil] at hall
  rw [subsetsBit, if_pos h, Nat.one_shiftLeft, powerset, List.map_map]
  exact hall

/-- **Both functions** return the same list, with each set of positions once. -/
theorem subsets_spec (nums : List CInt) (h : nums.length < 31) :
    ∃ sets : List (Finset ℕ), sets.Nodup ∧ (∀ s, s ∈ sets ↔ s ⊆ Finset.range nums.length) ∧
      subsets nums = some (sets.map (pick nums)) ∧
      subsetsBit nums = some (sets.map (pick nums)) :=
  ⟨powerset nums.length, nodup_powerset _, fun _ ↦ mem_powerset_iff,
    subsets_eq (h.trans (Nat.lt_succ_self 31)), subsetsBit_eq h⟩

/-- The vector of `main`. -/
theorem subsets_spec_main : ∃ sets : List (Finset ℕ), sets.Nodup ∧
    (∀ s, s ∈ sets ↔ s ⊆ Finset.range ([1, 2, 3].map wrap).length) ∧
    subsets ([1, 2, 3].map wrap) = some (sets.map (pick ([1, 2, 3].map wrap))) ∧
    subsetsBit ([1, 2, 3].map wrap) = some (sets.map (pick ([1, 2, 3].map wrap))) :=
  subsets_spec ([1, 2, 3].map wrap) (by decide)

end Subsets
