import MiscCpp.Library.Access
import MiscCpp.Library.CInt
import MiscCpp.Library.Machine
import MiscCpp.Library.Majority

/-!
# The majority of a vector

`majorityElement4`, `majorityElement5` and `majorityElement8` of
`leetcode/divideANDconquer/majorityElement.cc`. The first one counts the elements with each bit, the
second one is the vote of `Majority.lastBlock`, and the third one the tournament of `Majority.Wins`.

Each of them returns the majority unless one of its counters overflows, or the last index of the
vector is none of an `int` (`returnsMajority_iff`).
-/

open Access CInt Machine Majority

namespace MajorityElement

/-- Occurrences are counted with the equality of the numbers. -/
local instance : BEq CInt := instBEqOfDecidableEq

/-! ### The program -/

/-- The inner loop of `majorityElement4`: whether the bits of `mask` are added to `majority`. -/
def countBits (mask : BitVec 32) (half : ℕ) : List CInt → ℤ → Option Bool
  | [], _ => some false
  | num :: nums, count =>
    if BitVec.ofInt 32 num.1 &&& mask ≠ 0 then do
      let count ← fit (count + 1)
      if count > half then some true else countBits mask half nums count
    else countBits mask half nums count

/-- The body of the outer loop. -/
def addBit (nums : List CInt) (majority : BitVec 32) (i : ℕ) : Option (BitVec 32) := do
  let mask := (1 : BitVec 32) <<< i
  if ← countBits mask (nums.length / 2) nums 0 then some (majority ||| mask) else some majority

/-- Bit by bit. -/
def majorityElement4 (nums : List CInt) : Option CInt := do
  let majority ← exec (addBit nums) 0 (List.range 32)
  some (wrap majority.toInt)

/-- The body of the loop of `majorityElement5`, with `majority` and `count`. -/
def vote (s : CInt × ℤ) (num : CInt) : Option (CInt × ℤ) := do
  if num = s.1 then some (s.1, ← fit (s.2 + 1))
  else
    let count ← fit (s.2 - 1)
    if count = 0 then some (num, 1) else some (s.1, count)

/-- The vote. -/
def majorityElement5 (nums : List CInt) : Option CInt := do
  let (majority, _) ← exec vote (← nums.head?, 0) nums
  some majority

/-- In the last two cases the second component is a sum of 64 bits, converted to `int`. -/
def majorityHelper (nums : List CInt) : ℕ → ℤ → ℤ → Option (CInt × ℤ)
  | 0, _, _ => none
  | fuel + 1, l, r => do
    if l = r then some (← get nums l, 1)
    else
      let mid ← fit (l + (← fit (r - l)).tdiv 2)
      let ml ← majorityHelper nums fuel l mid
      let mr ← majorityHelper nums fuel (← fit (mid + 1)) r
      if ml.1 = mr.1 then some (ml.1, ← fit (ml.2 + mr.2))
      else if ml.2 > mr.2 then
        some (ml.1, (wrap (ml.2 + (← range nums (mid + 1) (r + 1)).count ml.1)).1)
      else some (mr.1, (wrap (mr.2 + (← range nums l (mid + 1)).count mr.1)).1)

/-- Divide and conquer. -/
def majorityElement8 (fuel : ℕ) (nums : List CInt) : Option CInt := do
  let (majority, _) ← majorityHelper nums fuel 0 (wrap (nums.length - 1)).1
  some majority

example : majorityElement4 ([7, -2, 7, -2, -2].map wrap) = some (wrap (-2)) := by decide

example : majorityElement5 ([7, -2, 7, -2, -2].map wrap) = some (wrap (-2)) := by decide

example : majorityElement8 4 ([7, -2, 7, -2, -2].map wrap) = some (wrap (-2)) := by decide

/-- All three functions return `m`. -/
def ReturnsMajority (nums : List CInt) (m : CInt) : Prop :=
  majorityElement4 nums = some m ∧ majorityElement5 nums = some m ∧
    ∃ n, ∀ fuel ≥ n, majorityElement8 fuel nums = some m

/-! ### Bits -/

variable {nums : List CInt} {m v : CInt} {mask : BitVec 32} {half i k l r fuel : ℕ} {c : ℤ}

/-- The count of a bit stops when it is a majority. -/
theorem countBits_eq (hc : 0 ≤ c) (hhalf : c ≤ half) (hint : c < 2 ^ 31) :
    countBits mask half nums c =
      let k := nums.countP fun num ↦ BitVec.ofInt 32 num.1 &&& mask ≠ 0
      if min (c + k) (half + 1) < 2 ^ 31 then some (decide (half < c + k)) else none := by
  induction nums generalizing c with
  | nil =>
    rw [countBits, List.countP_nil, if_pos (by omega), decide_eq_false (by omega)]
  | cons num nums ih =>
    rw [countBits]
    by_cases hbit : BitVec.ofInt 32 num.1 &&& mask ≠ 0
    · simp only [if_pos hbit, List.countP_cons_of_pos, decide_eq_true_iff.2 hbit]
      by_cases hfit : c + 1 < 2 ^ 31
      · rw [fit_eq (by omega), Option.bind_eq_bind, Option.bind_some]
        by_cases hlt : c + 1 > half
        · rw [if_pos hlt, if_pos (by omega), decide_eq_true (by omega)]
        · simp only [if_neg hlt, ih (by omega) (by omega) hfit, Int.natCast_succ, add_assoc,
            add_comm (1 : ℤ)]
      · rw [fit_eq_none (by omega), if_neg (by omega)]
        rfl
    · rw [if_neg hbit, List.countP_cons_of_neg (by rwa [decide_eq_true_iff]), ih hc hhalf hint]

/-- Whether the number has the bit `i`. -/
def hasBit (i : ℕ) (num : CInt) : Bool := (BitVec.ofInt 32 num.1).getLsbD i

theorem and_shiftLeft_ne_zero_iff (hi : i < 32) (num : CInt) :
    BitVec.ofInt 32 num.1 &&& (1 : BitVec 32) <<< i ≠ 0 ↔ hasBit i num := by
  have hpow : (1 : BitVec 32) <<< i = BitVec.twoPow 32 i := rfl
  have hne : BitVec.twoPow 32 i ≠ 0 := by
    intro heq
    have hbit := congrArg (BitVec.getLsbD · i) heq
    simp [hi] at hbit
  rw [hpow, BitVec.and_twoPow, hasBit]
  split
  next hbit => exact iff_of_true hne hbit
  next hbit => exact iff_of_false (fun h ↦ h rfl) hbit

/-- No counter of `majorityElement4` overflows. -/
def BitsFit (nums : List CInt) : Prop :=
  ∀ i < 32, min (nums.countP (hasBit i)) (nums.length / 2 + 1) < 2 ^ 31

/-- A bit of the majority, as long as the count is an `int`. -/
theorem addBit_eq (hi : i < 32) (majority : BitVec 32) : addBit nums majority i =
    if min (nums.countP (hasBit i)) (nums.length / 2 + 1) < 2 ^ 31 then
      some (if nums.length / 2 < nums.countP (hasBit i) then majority ||| (1 : BitVec 32) <<< i
        else majority)
    else none := by
  have hcount : (nums.countP fun num ↦ BitVec.ofInt 32 num.1 &&& (1 : BitVec 32) <<< i ≠ 0) =
      nums.countP (hasBit i) :=
    List.countP_congr fun num _ ↦ by
      rw [decide_eq_true_iff, and_shiftLeft_ne_zero_iff hi]
  rw [addBit, countBits_eq le_rfl (Int.natCast_nonneg _) (by decide)]
  simp only [hcount]
  by_cases hfit : min (nums.countP (hasBit i)) (nums.length / 2 + 1) < 2 ^ 31
  · rw [if_pos hfit, if_pos (by omega)]
    by_cases hlt : nums.length / 2 < nums.countP (hasBit i)
    · rw [if_pos hlt, decide_eq_true (by omega)]
      rfl
    · rw [if_neg hlt, decide_eq_false (by omega)]
      rfl
  · rw [if_neg hfit, if_neg (by omega)]
    rfl

/-- More than half of the numbers have a bit if the majority has it. -/
theorem half_lt_countP_iff (hm : IsMajority nums m) :
    nums.length / 2 < nums.countP (hasBit i) ↔ hasBit i m := by
  rw [IsMajority] at hm
  constructor
  · intro hlt
    by_contra hbit
    have hle : nums.count m ≤ nums.countP fun num ↦ ¬ hasBit i num :=
      List.countP_mono_left fun num _ heq ↦ by
        rw [eq_of_beq heq]
        exact decide_eq_true hbit
    have hlen := List.length_eq_countP_add_countP (hasBit i) (l := nums)
    omega
  · intro hbit
    have hle : nums.count m ≤ nums.countP (hasBit i) :=
      List.countP_mono_left fun num _ heq ↦ by
        rw [eq_of_beq heq]
        exact hbit
    omega

/-- The bits below `k` are found. -/
theorem getLsbD_addBit {majority : BitVec 32} (hk : k < 32)
    (hbits : ∀ i < 32, majority.getLsbD i = (decide (i < k) && hasBit i m)) :
    ∀ i < 32, (if hasBit k m then majority ||| (1 : BitVec 32) <<< k else majority).getLsbD i =
      (decide (i < k + 1) && hasBit i m) := by
  intro i hi
  have hpow : (1 : BitVec 32) <<< k = BitVec.twoPow 32 k := rfl
  rcases eq_or_ne i k with rfl | hne
  · rw [decide_eq_true (Nat.lt_succ_self i), Bool.true_and]
    split
    next hbit =>
      rw [BitVec.getLsbD_or, hpow, BitVec.getLsbD_twoPow, decide_eq_true hi, decide_eq_true rfl,
        hbit, Bool.and_self, Bool.or_true]
    next hbit => rw [hbits i hi, decide_eq_false (Nat.lt_irrefl i), Bool.false_and,
        Bool.eq_false_iff.2 hbit]
  · have hlt : (i < k + 1) = (i < k) := by
      rw [eq_iff_iff]
      omega
    rw [decide_eq_decide.2 (Iff.of_eq hlt), ← hbits i hi]
    split
    · rw [BitVec.getLsbD_or, hpow, BitVec.getLsbD_twoPow, decide_eq_false hne.symm, Bool.and_false,
        Bool.or_false]
    · rfl

/-- Bit by bit, the majority is returned exactly if the counts fit. -/
theorem majorityElement4_eq_some_iff (hm : IsMajority nums m) :
    majorityElement4 nums = some m ↔ BitsFit nums := by
  constructor
  · intro h i hi
    obtain ⟨majority, hexec, -⟩ := Option.bind_eq_some_iff.1 h
    refine forall_of_exec (P := fun i ↦ i < 32 →
      min (nums.countP (hasBit i)) (nums.length / 2 + 1) < 2 ^ 31) (fun s i t hstep hi ↦ ?_) hexec
      i (List.mem_range.2 hi) hi
    rw [addBit_eq hi] at hstep
    by_contra hfit
    rw [if_neg hfit] at hstep
    cases hstep
  · intro hfit
    obtain ⟨majority, hexec, hbits⟩ : ∃ majority,
        exec (addBit nums) 0 (List.range 32) = some majority ∧
          ∀ i < 32, majority.getLsbD i = (decide (i < 32) && hasBit i m) := by
      refine exists_exec_range (I := fun k (majority : BitVec 32) ↦
          ∀ i < 32, majority.getLsbD i = (decide (i < k) && hasBit i m))
        (fun k majority hk hbits ↦ ?_)
        fun i _ ↦ by rw [decide_eq_false (Nat.not_lt_zero i)]; exact BitVec.getLsbD_zero
      refine ⟨_, by rw [addBit_eq hk, if_pos (hfit k hk)], ?_⟩
      rw [if_congr (half_lt_countP_iff hm) rfl rfl]
      exact getLsbD_addBit hk hbits
    have heq : majority = BitVec.ofInt 32 m.1 := BitVec.eq_of_getLsbD_eq fun i hi ↦ by
      rw [hbits i hi, decide_eq_true hi, Bool.true_and, hasBit]
    have hval : wrap (BitVec.ofInt 32 m.1).toInt = m := by
      rw [BitVec.toInt_ofInt]
      exact (congrArg wrap (congrArg Subtype.val (wrap_coe m))).trans (wrap_coe m)
    rw [majorityElement4, hexec, heq]
    exact congrArg some hval

/-! ### Vote -/

/-- `count` does not overflow in `majorityElement5`. -/
def LeadsFit (nums : List CInt) : Prop := ∀ seen, seen <+: nums → lead (lastBlock seen) < 2 ^ 31

/-- `majority` and `count` are the first value of the block and its lead. -/
structure Voted (b : List CInt) (s : CInt × ℤ) : Prop where
  head : b.head? = some s.1
  lead : s.2 = lead b

theorem leadsFit_concat_iff (num : CInt) :
    LeadsFit (nums ++ [num]) ↔ LeadsFit nums ∧ lead (lastBlock (nums ++ [num])) < 2 ^ 31 := by
  constructor
  · intro h
    exact ⟨fun seen hseen ↦ h seen (hseen.trans (List.prefix_append nums [num])),
      h _ List.prefix_rfl⟩
  · rintro ⟨h, hlt⟩ seen hseen
    rcases List.prefix_concat_iff.1 hseen with rfl | hseen
    · exact hlt
    · exact h seen hseen

theorem voted_cons_iff {x : CInt} {xs : List CInt} {s : CInt × ℤ} :
    Voted (x :: xs) s ↔ s = (x, lead (x :: xs)) :=
  ⟨fun h ↦ Prod.ext (Option.some.inj h.head).symm h.lead, fun h ↦ h ▸ ⟨rfl, rfl⟩⟩

/-- The next element goes to the block, or begins the next one. -/
theorem vote_eq_some_iff {b : List CInt} {s s' : CInt × ℤ} (hs : Voted b s) (hpos : 0 < lead b)
    (hlt : lead b < 2 ^ 31) (num : CInt) :
    vote s num = some s' ↔ lead (nextBlock b num) < 2 ^ 31 ∧ Voted (nextBlock b num) s' := by
  cases b with
  | nil => exact absurd hpos (by decide)
  | cons x xs =>
    obtain rfl := voted_cons_iff.1 hs
    have hlead := lead_concat x xs num
    rw [vote, nextBlock]
    by_cases hx : num = x
    · rw [if_pos hx] at hlead
      rw [if_pos hx, if_pos (by omega), hlead, List.cons_append, voted_cons_iff,
        ← List.cons_append, hlead]
      by_cases hfit : lead (x :: xs) + 1 < 2 ^ 31
      · rw [fit_eq (by omega), and_iff_right hfit, Option.bind_eq_bind, Option.bind_some,
          Option.some_inj, eq_comm]
      · rw [fit_eq_none (by omega), iff_false_right fun h ↦ hfit h.1]
        intro h
        cases h
    · rw [if_neg hx] at hlead
      rw [if_neg hx, fit_eq (by omega), Option.bind_eq_bind, Option.bind_some]
      by_cases hzero : lead (x :: xs) - 1 = 0
      · rw [if_pos hzero, if_neg (by omega), voted_cons_iff, lead_singleton,
          and_iff_right (by decide), Option.some_inj, eq_comm]
      · rw [if_neg hzero, if_pos (by omega), List.cons_append, voted_cons_iff, ← List.cons_append,
          hlead, and_iff_right (by omega), Option.some_inj, eq_comm]
        rfl

/-- **The loop of the vote** ends with the last block, exactly if its leads fit. -/
theorem exec_vote_eq_some_iff {front : CInt} {s : CInt × ℤ} (hfront : nums.head? = some front) :
    exec vote (front, 0) nums = some s ↔ LeadsFit nums ∧ Voted (lastBlock nums) s := by
  induction nums using List.reverseRecOn generalizing s with
  | nil => cases hfront
  | append_singleton nums num ih =>
    rw [exec_concat, leadsFit_concat_iff, lastBlock_concat, Option.bind_eq_some_iff]
    rcases eq_or_ne nums [] with rfl | hne
    · obtain rfl := Option.some.inj hfront
      have hnil : LeadsFit [] := fun seen hseen ↦ by
        rw [List.prefix_nil.1 hseen]
        decide
      have hvote : vote (num, 0) num = some (num, 1) := if_pos rfl
      rw [exec_nil, lastBlock, List.foldl_nil, nextBlock_nil, voted_cons_iff, lead_singleton,
        and_iff_right ⟨hnil, by decide⟩]
      constructor
      · rintro ⟨t, ht, hs⟩
        obtain rfl := Option.some.inj ht
        exact Option.some.inj (hs.symm.trans hvote)
      · rintro rfl
        exact ⟨_, rfl, hvote⟩
    · rw [List.head?_append_of_ne_nil _ hne] at hfront
      obtain ⟨x, xs, hb, hpos⟩ := exists_lastBlock hne
      rw [← hb] at hpos
      constructor
      · rintro ⟨t, ht, hs⟩
        obtain ⟨hfit, ht⟩ := (ih hfront).1 ht
        have hstep := (vote_eq_some_iff ht hpos (hfit nums List.prefix_rfl) num).1 hs
        exact ⟨⟨hfit, hstep.1⟩, hstep.2⟩
      · rintro ⟨⟨hfit, hlt⟩, hs⟩
        have ht : Voted (lastBlock nums) (x, lead (lastBlock nums)) := ⟨by rw [hb]; rfl, rfl⟩
        exact ⟨_, (ih hfront).2 ⟨hfit, ht⟩,
          (vote_eq_some_iff ht hpos (hfit nums List.prefix_rfl) num).2 ⟨hlt, hs⟩⟩

/-- The vote returns the majority exactly if the leads fit. -/
theorem majorityElement5_eq_some_iff (hm : IsMajority nums m) :
    majorityElement5 nums = some m ↔ LeadsFit nums := by
  have hhead := hm.head?_lastBlock
  cases hfront : nums.head? with
  | none =>
    obtain rfl := List.head?_eq_none_iff.1 hfront
    cases hhead
  | some front =>
    have heq : majorityElement5 nums = (exec vote (front, 0) nums).bind fun s ↦ some s.1 := by
      rw [majorityElement5, hfront]
      rfl
    rw [heq]
    constructor
    · intro h
      obtain ⟨s, hs, -⟩ := Option.bind_eq_some_iff.1 h
      exact ((exec_vote_eq_some_iff hfront).1 hs).1
    · intro hfit
      have hs : exec vote (front, 0) nums = some (m, lead (lastBlock nums)) :=
        (exec_vote_eq_some_iff hfront).2 ⟨hfit, hhead, rfl⟩
      exact Option.bind_eq_some_iff.2 ⟨_, hs, rfl⟩

/-! ### Tournament -/

/-- The elements from `l` to `r`. -/
def segment (nums : List CInt) (l r : ℕ) : List CInt := (nums.take (r + 1)).drop l

theorem length_segment (hr : r < nums.length) : (segment nums l r).length = r + 1 - l := by
  rw [segment, List.length_drop, List.length_take, min_eq_left hr]

theorem segment_append (hlk : l ≤ k + 1) (hkr : k ≤ r) :
    segment nums l k ++ segment nums (k + 1) r = segment nums l r := by
  have hlen : r + 1 - l = (k + 1 - l) + (r + 1 - (k + 1)) := by omega
  rw [segment, segment, segment, List.drop_take, List.drop_take, List.drop_take, hlen,
    List.take_add, List.drop_drop, Nat.add_sub_cancel' hlk]

theorem segment_self (hv : get nums l = some v) : segment nums l l = [v] := by
  rw [get_natCast] at hv
  obtain ⟨hlt, rfl⟩ := List.getElem?_eq_some_iff.1 hv
  rw [segment, List.drop_take, Nat.add_sub_cancel_left, List.drop_eq_getElem_cons hlt,
    List.take_succ_cons, List.take_zero]

theorem range_eq_segment (hlr : l ≤ r + 1) (hr : r < nums.length) :
    range nums l (r + 1) = some (segment nums l r) := range_eq hlr hr

/-- Without elements the helper does not return. -/
theorem majorityHelper_of_lt {l r : ℤ} (hlr : r < l) : majorityHelper nums fuel l r = none := by
  induction fuel generalizing l r with
  | zero => rfl
  | succ fuel ih =>
    by_contra hne
    obtain ⟨s, hs⟩ := Option.ne_none_iff_exists'.1 hne
    rw [majorityHelper, if_neg (by omega)] at hs
    obtain ⟨d, hd, hs⟩ := Option.bind_eq_some_iff.1 hs
    obtain ⟨mid, hmid, hs⟩ := Option.bind_eq_some_iff.1 hs
    obtain ⟨ml, -, hs⟩ := Option.bind_eq_some_iff.1 hs
    obtain ⟨next, hnext, hs⟩ := Option.bind_eq_some_iff.1 hs
    obtain ⟨mr, hmr, -⟩ := Option.bind_eq_some_iff.1 hs
    obtain ⟨rfl, -⟩ := fit_eq_some hd
    obtain ⟨rfl, -⟩ := fit_eq_some hmid
    obtain ⟨rfl, -⟩ := fit_eq_some hnext
    have hdiv : (r - l).tdiv 2 = -((l - r) / 2) := by
      rw [← Int.neg_sub, Int.neg_tdiv, Int.tdiv_eq_ediv_of_nonneg (by omega)]
    rw [ih (by omega)] at hmr
    cases hmr

/-- What the helper returns: the winner, and how often it occurs. -/
structure Won (nums : List CInt) (s : CInt × ℤ) : Prop where
  wins : Wins nums s.1
  count : s.2 = nums.count s.1
  lt : s.2 < 2 ^ 31

theorem won_iff {s : CInt × ℤ} (hw : Wins nums v) :
    Won nums s ↔ s = (v, (nums.count v : ℤ)) ∧ nums.count v < 2 ^ 31 := by
  constructor
  · intro h
    obtain rfl := hw.unique h.wins rfl
    have hlt := h.lt
    rw [h.count] at hlt
    exact ⟨Prod.ext rfl h.count, by omega⟩
  · rintro ⟨rfl, hlt⟩
    exact ⟨hw, rfl, by dsimp only; omega⟩

/-- The winner of one part occurs less often than there are elements. -/
theorem Won.add_count_lt {xs ys : List CInt} {s : CInt × ℤ} {w : CInt}
    (hs : Won xs s) (hw : Wins ys w) (hne : s.1 ≠ w) (hlen : xs.length + ys.length ≤ 2 ^ 31) :
    s.2 + ys.count s.1 < 2 ^ 31 ∧ 0 ≤ s.2 := by
  have hpos := List.count_pos_iff.2 hw.mem
  have hle := count_add_count_le ys hne
  have hle' : xs.count s.1 ≤ xs.length := List.count_le_length
  rw [hs.count]
  omega

/-- The winner of two halves, as long as the counts fit. -/
theorem won_append_iff {xs ys : List CInt} {ml mr s : CInt × ℤ} (h : Halves xs ys)
    (hlen : xs.length + ys.length ≤ 2 ^ 31) (hml : Won xs ml) (hmr : Won ys mr) :
    (if ml.1 = mr.1 then do some (ml.1, ← fit (ml.2 + mr.2))
      else if ml.2 > mr.2 then some (ml.1, (wrap (ml.2 + ys.count ml.1)).1)
      else some (mr.1, (wrap (mr.2 + xs.count mr.1)).1)) = some s ↔ Won (xs ++ ys) s := by
  have hcl := hml.count
  have hcr := hmr.count
  by_cases heq : ml.1 = mr.1
  · have hw := hmr.wins
    rw [← heq] at hw hcr
    rw [if_pos heq, won_iff (.both h hml.wins hw), List.count_append, hcl, hcr]
    by_cases hfit : xs.count ml.1 + ys.count ml.1 < 2 ^ 31
    · rw [fit_eq (by omega), and_iff_left hfit, Option.bind_eq_bind, Option.bind_some,
        Option.some_inj, eq_comm, Int.natCast_add]
    · rw [fit_eq_none (by omega), iff_false_right fun h ↦ hfit h.2]
      intro h
      cases h
  · rw [if_neg heq]
    by_cases hgt : ml.2 > mr.2
    · have hlt := hml.add_count_lt hmr.wins heq hlen
      rw [if_pos hgt, won_iff (.left h hml.wins hmr.wins heq (by omega)), List.count_append,
        wrap_of_lt (by omega) hlt.1, and_iff_left (by omega), Option.some_inj, eq_comm, hcl,
        Int.natCast_add]
    · have hlt := hmr.add_count_lt hml.wins (Ne.symm heq) (by omega)
      rw [if_neg hgt, won_iff (.right h hml.wins hmr.wins heq (by omega)), List.count_append,
        wrap_of_lt (by omega) hlt.1, and_iff_left (by omega), Option.some_inj, eq_comm, hcr,
        Int.natCast_add, add_comm]

theorem exists_won (hne : nums ≠ []) (hlen : nums.length < 2 ^ 31) : ∃ s, Won nums s := by
  obtain ⟨v, hv⟩ := exists_wins hne
  exact ⟨_, (won_iff hv).2 ⟨rfl, List.count_le_length.trans_lt hlen⟩⟩

/-- **The recursion** returns the winner of the tournament and its count. -/
theorem majorityHelper_eq_some_iff {s : CInt × ℤ} (hlr : l ≤ r) (hr : r < nums.length)
    (hint : r < 2 ^ 31) (hfuel : r - l < fuel) :
    majorityHelper nums fuel l r = some s ↔ Won (segment nums l r) s := by
  induction fuel generalizing l r s with
  | zero => exact absurd hfuel (Nat.not_lt_zero _)
  | succ fuel ih =>
    rw [majorityHelper]
    rcases eq_or_ne l r with rfl | hne
    · obtain ⟨v, hv⟩ := exists_get (m := nums) (Int.natCast_nonneg l) (by omega)
      rw [if_pos rfl, hv, segment_self hv, won_iff (.single v), List.count_singleton_self,
        and_iff_left (by decide), Option.bind_eq_bind, Option.bind_some, Option.some_inj, eq_comm]
      rfl
    · obtain ⟨k, hk⟩ : ∃ k, k = l + (r - l) / 2 := ⟨_, rfl⟩
      have hmid : (l : ℤ) + ((r : ℤ) - l).tdiv 2 = k := by
        rw [Int.tdiv_eq_ediv_of_nonneg (by omega)]
        omega
      have hlenl : (segment nums l k).length = k + 1 - l := length_segment (by omega)
      have hlenr := length_segment (l := k + 1) hr
      obtain ⟨ml, hml⟩ : ∃ ml, Won (segment nums l k) ml :=
        exists_won (List.ne_nil_of_length_pos (by omega)) (by omega)
      obtain ⟨mr, hmr⟩ : ∃ mr, Won (segment nums (k + 1) r) mr :=
        exists_won (List.ne_nil_of_length_pos (by omega)) (by omega)
      have hcalll := (ih (by omega) (by omega) (by omega) (by omega)).2 hml
      have hcallr := (ih (by omega) hr hint (by omega)).2 hmr
      have hrangel : range nums l (k + 1) = some (segment nums l k) :=
        range_eq_segment (by omega) (by omega)
      have hranger := range_eq_segment (l := k + 1) (by omega) hr
      have hjoin := won_append_iff (s := s) ⟨by omega, by omega, by omega⟩ (by omega) hml hmr
      rw [segment_append (by omega) (by omega)] at hjoin
      rw [Int.natCast_succ] at hcallr hranger
      rw [if_neg (by omega), fit_eq (by omega), ← hjoin]
      simp only [Option.bind_eq_bind, Option.bind_some, hmid]
      rw [fit_eq (by omega), Option.bind_some, hcalll, Option.bind_some, fit_eq (by omega),
        Option.bind_some, hcallr, Option.bind_some, hrangel, hranger, Option.bind_some,
        Option.bind_some]

/-- The last index is converted to one that is not negative. Among the elements up to it, `m` wins
the tournament, and occurs less than 2^31 times. -/
def TournamentFits (nums : List CInt) (m : CInt) : Prop :=
  ∃ r : ℕ, (wrap (nums.length - 1)).1 = r ∧ Wins (segment nums 0 r) m ∧
    (segment nums 0 r).count m < 2 ^ 31

/-- Divide and conquer returns the majority exactly if it wins. -/
theorem majorityElement8_eq_some_iff (hm : IsMajority nums m) (hr : (wrap (nums.length - 1)).1 = r)
    (hfuel : r < fuel) : majorityElement8 fuel nums = some m ↔
      Wins (segment nums 0 r) m ∧ (segment nums 0 r).count m < 2 ^ 31 := by
  have hpos := hm.length_pos
  have hle := wrap_le (n := (nums.length : ℤ) - 1) (by omega)
  have hint := (wrap ((nums.length : ℤ) - 1)).2.2
  have hspec : ∀ s, majorityHelper nums fuel 0 r = some s ↔ Won (segment nums 0 r) s := fun s ↦
    majorityHelper_eq_some_iff (Nat.zero_le r) (by omega) (by omega) hfuel
  rw [majorityElement8, hr]
  constructor
  · intro h
    obtain ⟨s, hs, heq⟩ := Option.bind_eq_some_iff.1 h
    obtain rfl := Option.some.inj heq
    have hwon := (hspec s).1 hs
    exact ⟨hwon.wins, ((won_iff hwon.wins).1 hwon).2⟩
  · rintro ⟨hw, hlt⟩
    exact Option.bind_eq_some_iff.2 ⟨_, (hspec _).2 ((won_iff hw).2 ⟨rfl, hlt⟩), rfl⟩

/-- The same for enough fuel. -/
theorem exists_majorityElement8_iff (hm : IsMajority nums m) :
    (∃ n, ∀ fuel ≥ n, majorityElement8 fuel nums = some m) ↔ TournamentFits nums m := by
  constructor
  · rintro ⟨n, hn⟩
    rcases lt_or_ge (wrap (nums.length - 1)).1 0 with hneg | hpos
    · have hrun := hn n le_rfl
      rw [majorityElement8, majorityHelper_of_lt hneg] at hrun
      cases hrun
    · have hr := (Int.toNat_of_nonneg hpos).symm
      exact ⟨_, hr, (majorityElement8_eq_some_iff hm hr (Nat.lt_succ_of_le (Nat.le_add_left _ n))).1
        (hn _ (by omega))⟩
  · rintro ⟨r, hr, hwins⟩
    exact ⟨r + 1, fun fuel hfuel ↦ (majorityElement8_eq_some_iff hm hr hfuel).2 hwins⟩

/-! ### Main theorem -/

/-- **When the majority is returned**: nothing overflows, and up to the last index `m` wins. -/
theorem returnsMajority_iff (hm : IsMajority nums m) :
    ReturnsMajority nums m ↔ BitsFit nums ∧ LeadsFit nums ∧ TournamentFits nums m :=
  and_congr (majorityElement4_eq_some_iff hm)
    (and_congr (majorityElement5_eq_some_iff hm) (exists_majorityElement8_iff hm))

/-- Less than 2^31 elements are counted without overflow. -/
theorem fits_of_length_lt (hm : IsMajority nums m) (hlen : nums.length < 2 ^ 31) :
    BitsFit nums ∧ LeadsFit nums ∧ TournamentFits nums m := by
  refine ⟨fun i _ ↦ ?_, fun seen hseen ↦ ?_, nums.length - 1, ?_, ?_⟩
  · exact (min_le_left _ _).trans_lt (List.countP_le_length.trans_lt hlen)
  · have hle := lead_le_length (lastBlock seen)
    have hle' := length_lastBlock_le seen
    have hle'' := hseen.length_le
    omega
  · have hpos := hm.length_pos
    rw [wrap_of_lt (by omega) (by omega)]
    omega
  · have hpos := hm.length_pos
    have hall : segment nums 0 (nums.length - 1) = nums := by
      rw [segment, List.drop_zero, Nat.sub_add_cancel hpos, List.take_length]
    obtain ⟨v, hv⟩ := exists_wins (List.ne_nil_of_length_pos hpos)
    rw [hall]
    rw [hm.eq_of_wins hv] at hv
    exact ⟨hv, List.count_le_length.trans_lt hlen⟩

theorem returnsMajority_example : ReturnsMajority ([51, 7, 51].map wrap) (wrap 51) :=
  (returnsMajority_iff (by decide)).2 (fits_of_length_lt (by decide) (by decide))

/-- With one number 2^31 times, `count` overflows. -/
theorem not_forall_returnsMajority :
    ¬ ∀ nums m, IsMajority nums m → ReturnsMajority nums m := by
  intro h
  obtain ⟨n, hn⟩ : ∃ n : ℕ, n = 2 ^ 31 := ⟨_, rfl⟩
  have hcount : (List.replicate n (wrap 51)).count (wrap 51) = n := List.count_replicate_self
  have hm : IsMajority (List.replicate n (wrap 51)) (wrap 51) := by
    rw [IsMajority, hcount, List.length_replicate]
    omega
  have hlt := (majorityElement5_eq_some_iff hm).1 (h _ _ hm).2.1 _ List.prefix_rfl
  have hle := hm.le_lead
  rw [hcount, List.length_replicate] at hle
  omega

end MajorityElement
