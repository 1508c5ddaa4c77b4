import MiscCpp.Library.Access
import MiscCpp.Library.Counters
import MiscCpp.Library.RotatedOrder

/-!
# The search in a rotated array

`search` of `leetcode/divideANDconquer/searchRotatedArray.cc`. What a turn leaves out does not hold
the target (`Searching.turn`), so the search is right as long as the sum of its bounds is an `int`.

The sum can only be too large while the search has gone behind the middle in all turns, and its
bounds are then known without the elements (`start`). Once it goes in front of the middle, all its
indices are small (`searchLoop_spec`).
-/

open Access CInt RotatedOrder

namespace SearchRotatedArray

/-! ### The program -/

/-- The loop. -/
def searchLoop (nums : List CInt) (target : CInt) : ℕ → ℤ → ℤ → Option ℤ
  | 0, _, _ => none
  | fuel + 1, left, right =>
    if left ≤ right then do
      let mid := (← fit (left + right)).tdiv 2
      if (← get nums mid) = target then some mid
      else if (← get nums mid) > (← get nums right) then
        if target ≥ (← get nums left) ∧ target < (← get nums mid) then
          searchLoop nums target fuel left (← fit (mid - 1))
        else searchLoop nums target fuel (← fit (mid + 1)) right
      else if (← get nums mid) < (← get nums left) then
        if target > (← get nums mid) ∧ target ≤ (← get nums right) then
          searchLoop nums target fuel (← fit (mid + 1)) right
        else searchLoop nums target fuel left (← fit (mid - 1))
      else if target < (← get nums mid) then searchLoop nums target fuel left (← fit (mid - 1))
      else searchLoop nums target fuel (← fit (mid + 1)) right
    else some (-1)

/-- `search(nums, target)` -/
def search (fuel : ℕ) (nums : List CInt) (target : CInt) : Option ℤ :=
  searchLoop nums target fuel 0 (wrap (nums.length - 1)).1

example : search 3 ([4, 5, 6, 7, 0, 1, 2].map wrap) (wrap 0) = some 4 := by decide

/-- An index of the target, or `-1` if there is none. -/
def IsAnswer (nums : List CInt) (target : CInt) (r : ℤ) : Prop :=
  target ∈ nums ∧ get nums r = some target ∨ target ∉ nums ∧ r = -1

/-- `search` ends and returns such an index. -/
def Finds (nums : List CInt) (target : CInt) : Prop :=
  ∃ n, ∀ fuel ≥ n, ∃ r, search fuel nums target = some r ∧ IsAnswer nums target r

/-- An ascending vector, and how far it is rotated. -/
structure Rotation where
  sorted : List CInt
  increasing : sorted.Pairwise (· < ·)
  amount : ℕ

/-- The vector of a rotation. -/
def Rotation.nums (v : Rotation) : List CInt := v.sorted.rotate v.amount

/-! ### Turns -/

variable {nums : List CInt} {target : CInt} {fuel i j l m e p : ℕ}

/-- The middle of the indices from `l` to `e - 1`. -/
def middle (l e : ℕ) : ℕ := (l + (e - 1)) / 2

/-- The elements that are compared with the target send the search in front of the middle. -/
def TurnsLeft (nums : List CInt) (target : CInt) (l e : ℕ) : Prop :=
  GoesLeft (element nums l) (element nums (middle l e)) (element nums (e - 1)) target

instance (nums : List CInt) (target : CInt) (l e : ℕ) : Decidable (TurnsLeft nums target l e) :=
  inferInstanceAs (Decidable (GoesLeft _ _ _ _))

/-- The loop ends without an answer. -/
theorem searchLoop_done (nums : List CInt) (target : CInt) (fuel : ℕ) {left right : ℤ}
    (h : right < left) : searchLoop nums target (fuel + 1) left right = some (-1) := by
  rw [searchLoop, if_neg (not_le.2 h)]

/-- The loop is undefined where the sum of its ends overflows. -/
theorem searchLoop_overflow (nums : List CInt) (target : CInt) (fuel : ℕ) (hle : l < e)
    (hsum : 2 ^ 31 < l + e) : searchLoop nums target fuel l (e - 1) = none := by
  cases fuel with
  | zero => rfl
  | succ fuel =>
    rw [searchLoop, if_pos (by omega), fit_eq_none (by omega)]
    rfl

/-- The middle is between the ends. -/
theorem middle_bounds (hle : l < e) :
    l ≤ middle l e ∧ middle l e < e ∧ 2 * middle l e < l + e := by
  rw [middle]
  omega

/-- **One turn.** -/
theorem searchLoop_succ (target : CInt) (fuel : ℕ) (hle : l < e) (he : e ≤ nums.length)
    (hsum : l + e ≤ 2 ^ 31) :
    searchLoop nums target (fuel + 1) l (e - 1) =
      if element nums (middle l e) = target then some (middle l e : ℤ)
      else if TurnsLeft nums target l e then searchLoop nums target fuel l (middle l e - 1)
      else searchLoop nums target fuel (middle l e + 1 : ℕ) (e - 1) := by
  obtain ⟨hl, hm, hhalf⟩ := middle_bounds hle
  have hright : (e : ℤ) - 1 = (e - 1 : ℕ) := by omega
  have hmid : ((l : ℤ) + (e - 1 : ℕ)).tdiv 2 = middle l e := by
    rw [Int.tdiv_eq_ediv_of_nonneg (by omega), middle]
    omega
  rw [hright, searchLoop, if_pos (by omega), fit_eq (by omega)]
  simp only [Option.bind_eq_bind, Option.bind_some, hmid]
  rw [get_element (by omega), get_element (by omega), get_element (by omega), fit_eq (by omega),
    fit_eq (by omega)]
  simp only [TurnsLeft, GoesLeft, Option.bind_some, Int.natCast_add, Int.natCast_one]
  split
  · rfl
  · split
    · rfl
    · split
      · rw [ite_not]
      · rfl

/-! ### The target stays in the range -/

/-- The target is not outside the range. -/
structure Searching (nums : List CInt) (target : CInt) (l e : ℕ) : Prop where
  le : e ≤ nums.length
  inside : ∀ j < nums.length, element nums j = target → l ≤ j ∧ j < e

theorem exists_element (h : target ∈ nums) : ∃ j < nums.length, element nums j = target := by
  obtain ⟨j, hj, rfl⟩ := List.getElem_of_mem h
  exact ⟨j, hj, List.getD_eq_getElem _ _ hj⟩

theorem isAnswer_of_eq (hj : j < nums.length) (h : element nums j = target) :
    IsAnswer nums target j := by
  have hget := get_element hj
  rw [h] at hget
  refine Or.inl ⟨?_, hget⟩
  rw [get_natCast] at hget
  exact List.mem_of_getElem? hget

/-- If nothing is left to search the value is not there. -/
theorem Searching.isAnswer (h : Searching nums target l e) (hle : e ≤ l) :
    IsAnswer nums target (-1) := by
  refine Or.inr ⟨fun hmem ↦ ?_, rfl⟩
  obtain ⟨j, hj, hval⟩ := exists_element hmem
  have hin := h.inside j hj hval
  omega

/-- **What a turn leaves out** does not hold the target. -/
theorem Searching.turn (hrot : Rotated (element nums) nums.length p)
    (h : Searching nums target l e) (hle : l < e)
    (hne : element nums (middle l e) ≠ target) :
    (TurnsLeft nums target l e → Searching nums target l (middle l e)) ∧
      (¬ TurnsLeft nums target l e → Searching nums target (middle l e + 1) e) := by
  have he := h.le
  obtain ⟨hl, hm, -⟩ := middle_bounds hle
  refine ⟨fun hleft ↦ ⟨hm.le.trans he, fun j hj hval ↦ ?_⟩,
    fun hleft ↦ ⟨he, fun j hj hval ↦ ?_⟩⟩
  · have hin := h.inside j hj hval
    refine ⟨hin.1, ?_⟩
    by_contra hge
    exact ne_of_goesLeft hrot hl (by omega) (by omega) hleft hne (not_lt.1 hge) (by omega) hval
  · have hin := h.inside j hj hval
    refine ⟨?_, hin.2⟩
    by_contra hge
    exact ne_of_not_goesLeft hrot hl (by omega) (by omega) hleft hne hin.1 (by omega) hval

/-- **A range of small indices** is searched. -/
theorem searchLoop_spec (hrot : Rotated (element nums) nums.length p)
    (h : Searching nums target l e) (he : e ≤ 2 ^ 30) (hfuel : e - l < fuel) :
    ∃ r, searchLoop nums target fuel l (e - 1) = some r ∧ IsAnswer nums target r := by
  induction fuel generalizing l e with
  | zero => exact absurd hfuel (Nat.not_lt_zero _)
  | succ fuel ih =>
    rcases lt_or_ge l e with hle | hge
    · obtain ⟨hl, hm, -⟩ := middle_bounds hle
      rw [searchLoop_succ target fuel hle h.le (by omega)]
      by_cases heq : element nums (middle l e) = target
      · rw [if_pos heq]
        exact ⟨_, rfl, isAnswer_of_eq (hm.trans_le h.le) heq⟩
      · obtain ⟨hleft, hright⟩ := h.turn hrot hle heq
        rw [if_neg heq]
        by_cases hturn : TurnsLeft nums target l e
        · rw [if_pos hturn]
          exact ih (hleft hturn) (by omega) (by omega)
        · rw [if_neg hturn]
          exact ih (hright hturn) he (by omega)
    · exact ⟨-1, searchLoop_done nums target fuel (by omega), h.isAnswer hge⟩

/-! ### Turns behind the middle -/

/-- The first index of the range after `j` turns that went behind the middle. -/
def start : ℕ → ℕ → ℕ
  | _, 0 => 0
  | n, j + 1 => middle (start n j) n + 1

/-- The next turn goes behind the middle as well. -/
def GoesOn (nums : List CInt) (target : CInt) (j : ℕ) : Prop :=
  let n := nums.length
  start n j < n ∧ element nums (middle (start n j) n) ≠ target ∧
    ¬ TurnsLeft nums target (start n j) n

/-- While the search goes on behind the middle, the sum of its bounds is an `int`. -/
def SumsFit (nums : List CInt) (target : CInt) : Prop :=
  ∀ j, (∀ i < j, GoesOn nums target i) → start nums.length j + nums.length ≤ 2 ^ 31

theorem searchLoop_of_sumsFit (hrot : Rotated (element nums) nums.length p)
    (hfit : SumsFit nums target) (hj : ∀ i < j, GoesOn nums target i)
    (h : Searching nums target (start nums.length j) nums.length)
    (hfuel : nums.length - start nums.length j < fuel) :
    ∃ r, searchLoop nums target fuel (start nums.length j) (nums.length - 1) = some r ∧
      IsAnswer nums target r := by
  induction fuel generalizing j with
  | zero => exact absurd hfuel (Nat.not_lt_zero _)
  | succ fuel ih =>
    rcases lt_or_ge (start nums.length j) nums.length with hle | hge
    · have hsum := hfit j hj
      obtain ⟨hl, hm, hhalf⟩ := middle_bounds hle
      rw [searchLoop_succ target fuel hle le_rfl hsum]
      by_cases heq : element nums (middle (start nums.length j) nums.length) = target
      · rw [if_pos heq]
        exact ⟨_, rfl, isAnswer_of_eq hm heq⟩
      · obtain ⟨hleft, hright⟩ := h.turn hrot hle heq
        rw [if_neg heq]
        by_cases hturn : TurnsLeft nums target (start nums.length j) nums.length
        · rw [if_pos hturn]
          exact searchLoop_spec hrot (hleft hturn) (by omega) (by omega)
        · rw [if_neg hturn]
          refine ih (j := j + 1) (fun i hi ↦ ?_) (hright hturn) ?_
          · rcases (Nat.lt_succ_iff.1 hi).lt_or_eq with hlt | rfl
            · exact hj i hlt
            · exact ⟨hle, heq, hturn⟩
          · rw [start]
            omega
    · exact ⟨-1, searchLoop_done nums target fuel (by omega), h.isAnswer hge⟩

/-- The turns behind the middle have been taken. -/
theorem searchLoop_start (fuel : ℕ) (hj : ∀ i < j, GoesOn nums target i)
    (hsum : ∀ i < j, start nums.length i + nums.length ≤ 2 ^ 31) :
    searchLoop nums target (fuel + j) 0 (nums.length - 1) =
      searchLoop nums target fuel (start nums.length j) (nums.length - 1) := by
  induction j generalizing fuel with
  | zero => rfl
  | succ j ih =>
    obtain ⟨hlt, hne, hturn⟩ := hj j (Nat.lt_succ_self j)
    have hrest := ih (fuel + 1) (fun i hi ↦ hj i (by omega)) fun i hi ↦ hsum i (by omega)
    rw [Nat.add_right_comm] at hrest
    rw [← Nat.add_assoc, hrest,
      searchLoop_succ target fuel hlt le_rfl (hsum j (Nat.lt_succ_self j)), if_neg hne,
      if_neg hturn, start]

theorem start_le (hj : ∀ i < j, GoesOn nums target i) : start nums.length j ≤ nums.length := by
  cases j with
  | zero => exact Nat.zero_le _
  | succ j => exact (middle_bounds (hj j (Nat.lt_succ_self j)).1).2.1

theorem sumsFit_of_le (h : nums.length ≤ 2 ^ 30) : SumsFit nums target := by
  intro j hj
  have hle := start_le hj
  omega

/-! ### The search -/

theorem exists_rotated_nums (v : Rotation) :
    ∃ p, Rotated (element v.nums) v.nums.length p := by
  obtain ⟨p, hp⟩ := exists_rotated v.increasing v.amount (wrap 0)
  refine ⟨p, ?_⟩
  rw [Rotation.nums, List.length_rotate]
  exact hp

theorem search_eq (target : CInt) (fuel : ℕ) (h : nums.length ≤ 2 ^ 31) :
    search fuel nums target = searchLoop nums target fuel 0 (nums.length - 1) := by
  have hright : (wrap (nums.length - 1)).1 = nums.length - 1 :=
    congrArg Subtype.val (wrap_coe ⟨nums.length - 1, by omega⟩)
  rw [search, hright]

/-- **If the search is right**, its sums are values of an `int`. -/
theorem sumsFit_of_finds (h : nums.length ≤ 2 ^ 31) (hfinds : Finds nums target) :
    SumsFit nums target := by
  obtain ⟨n, hn⟩ := hfinds
  intro j
  induction j using Nat.strong_induction_on with
  | _ j ih =>
    intro hj
    by_contra hsum
    have hlt : start nums.length j < nums.length := by
      refine (start_le hj).lt_of_ne fun heq ↦ ?_
      cases j with
      | zero =>
        rw [start] at heq hsum
        omega
      | succ j =>
        have hsum' := ih j (Nat.lt_succ_self j) fun i hi ↦ hj i (by omega)
        have hhalf := (middle_bounds (hj j (Nat.lt_succ_self j)).1).2.2
        rw [start] at heq hsum
        omega
    obtain ⟨r, hr, -⟩ := hn (n + j) (Nat.le_add_right n j)
    rw [search_eq target _ h, searchLoop_start n hj fun i hi ↦ ih i hi fun k hk ↦ hj k (by omega),
      searchLoop_overflow nums target n hlt (by omega)] at hr
    cases hr

/-- The values of an ascending vector are apart. -/
theorem value_add_length_le {x : CInt} {xs : List CInt} (h : (x :: xs).Pairwise (· < ·)) :
    x.1 + xs.length < 2 ^ 31 := by
  induction xs generalizing x with
  | nil => exact (add_zero x.1).trans_lt x.2.2
  | cons y xs ih =>
    obtain ⟨hx, hxs⟩ := List.pairwise_cons.1 h
    have hxy : x.1 < y.1 := hx y List.mem_cons_self
    have hy := ih hxs
    rw [List.length_cons]
    omega

theorem length_le (v : Rotation) : v.nums.length ≤ 2 ^ 32 := by
  rw [Rotation.nums, List.length_rotate]
  cases h : v.sorted with
  | nil => exact Nat.zero_le _
  | cons x xs =>
    have hlt := value_add_length_le (h ▸ v.increasing)
    have hx := x.2.1
    rw [List.length_cons]
    omega

/-- Of a vector that is too large nothing is searched. -/
theorem search_of_lt (target : CInt) (fuel : ℕ) (h : 2 ^ 31 < nums.length)
    (hle : nums.length ≤ 2 ^ 32) : search (fuel + 1) nums target = some (-1) := by
  have hmod := wrap_mod (nums.length - 1)
  have hlt := (wrap (nums.length - 1)).2.2
  exact searchLoop_done nums target fuel (by omega)

theorem finds_iff_of_lt (h : 2 ^ 31 < nums.length) (hle : nums.length ≤ 2 ^ 32) :
    Finds nums target ↔ target ∉ nums := by
  constructor
  · rintro ⟨n, hn⟩
    obtain ⟨r, hr, hans⟩ := hn (n + 1) (Nat.le_succ n)
    rw [search_of_lt target n h hle] at hr
    obtain rfl := Option.some.inj hr
    rcases hans with ⟨-, hget⟩ | ⟨hmem, -⟩
    · exact absurd (get_bounds hget).1 (by decide)
    · exact hmem
  · intro hmem
    refine ⟨1, fun fuel hfuel ↦ ⟨-1, ?_, Or.inr ⟨hmem, rfl⟩⟩⟩
    obtain ⟨m, rfl⟩ := Nat.exists_eq_add_of_le' hfuel
    exact search_of_lt target m h hle

theorem finds_iff_sumsFit (v : Rotation) (h : v.nums.length ≤ 2 ^ 31) :
    Finds v.nums target ↔ SumsFit v.nums target := by
  refine ⟨sumsFit_of_finds h, fun hfit ↦ ⟨v.nums.length + 1, fun fuel hfuel ↦ ?_⟩⟩
  obtain ⟨p, hrot⟩ := exists_rotated_nums v
  have hall : Searching v.nums target (start v.nums.length 0) v.nums.length :=
    ⟨le_rfl, fun j hj _ ↦ ⟨Nat.zero_le j, hj⟩⟩
  rw [search_eq target fuel h]
  exact searchLoop_of_sumsFit hrot hfit (fun i hi ↦ absurd hi (Nat.not_lt_zero i)) hall
    ((Nat.lt_succ_of_le (Nat.sub_le _ _)).trans_le hfuel)

/-- **The search is right** exactly if its sums are values of an `int`, and in a vector that is too
large if there is nothing to find. -/
theorem search_iff (v : Rotation) (target : CInt) :
    Finds v.nums target ↔
      if v.nums.length ≤ 2 ^ 31 then SumsFit v.nums target else target ∉ v.nums := by
  split
  next hle => exact finds_iff_sumsFit v hle
  next hlt => exact finds_iff_of_lt (not_le.1 hlt) (length_le v)

/-- So it is right in every vector of at most `2 ^ 30` elements. -/
theorem finds_of_le (v : Rotation) (target : CInt) (h : v.nums.length ≤ 2 ^ 30) :
    Finds v.nums target :=
  (finds_iff_sumsFit v (h.trans (by decide))).2 (sumsFit_of_le h)

/-- The first `2 ^ 31 + 1` values, not rotated, and the first one of them. -/
theorem not_forall_finds : ¬ ∀ (v : Rotation) (target : CInt), Finds v.nums target := by
  intro h
  have hcoe (i : ℕ) (hi : i ∈ List.range (2 ^ 31 + 1)) :
      (wrap ((i : ℤ) - 2 ^ 31)).1 = i - 2 ^ 31 := by
    rw [List.mem_range] at hi
    exact congrArg Subtype.val (wrap_coe ⟨(i : ℤ) - 2 ^ 31, by omega⟩)
  have hinc : ((List.range (2 ^ 31 + 1)).map fun i : ℕ ↦ wrap ((i : ℤ) - 2 ^ 31)).Pairwise
      (· < ·) := by
    refine List.pairwise_map.2 (List.pairwise_lt_range.imp_of_mem fun {i j} hi hj hij ↦ ?_)
    show (wrap ((i : ℤ) - 2 ^ 31)).1 < (wrap ((j : ℤ) - 2 ^ 31)).1
    rw [hcoe i hi, hcoe j hj]
    omega
  have hmem : wrap (0 - 2 ^ 31) ∈
      (List.range (2 ^ 31 + 1)).map fun i : ℕ ↦ wrap ((i : ℤ) - 2 ^ 31) :=
    List.mem_map.2 ⟨0, List.mem_range.2 (Nat.succ_pos _), rfl⟩
  have hlen : ((List.range (2 ^ 31 + 1)).map fun i : ℕ ↦ wrap ((i : ℤ) - 2 ^ 31)).length =
      2 ^ 31 + 1 := by rw [List.length_map, List.length_range]
  generalize ((List.range (2 ^ 31 + 1)).map fun i : ℕ ↦ wrap ((i : ℤ) - 2 ^ 31)) = nums at *
  have hfinds : Finds (nums.rotate 0) (wrap (0 - 2 ^ 31)) := h ⟨nums, hinc, 0⟩ _
  rw [List.rotate_zero] at hfinds
  exact (finds_iff_of_lt (by omega) (by omega)).1 hfinds hmem

end SearchRotatedArray
