import MiscCpp.Library.Counters
import MiscCpp.Library.Machine
import MiscCpp.Library.MonotonicStack

/-!
# The largest rectangle in a histogram

`largestRectangleArea` of `leetcode/other/largestRectangleArea.cc`, with the sentinel that it
appends and its index of type `int`. The areas are exact.

A bar is taken from the stack when a lower one comes, and then its limits are the top of the stack
and the new bar (`popLoop_spec`). The sentinel takes all bars that have a height. The index
overflows if there are too many bars (`largestRectangleArea_iff`).
-/

open Access CInt Machine MonotonicStack

namespace LargestRectangleArea

/-! ### The program -/

/-- The inner loop: the stack from its top on, and `res`. -/
def popLoop (h : List CInt) (i : ℤ) : List ℤ → ℤ → Option (List ℤ × ℤ)
  | [], res => some ([], res)
  | t :: idx, res => do
    if (← get h i) < (← get h t) then
      let height ← get h t
      let prev := idx.head?.getD (-1)
      let width ← fit ((← fit (i - prev)) - 1)
      popLoop h i idx (max res (height.1 * width))
    else some (t :: idx, res)

/-- The body of the outer loop. -/
def turn (h : List CInt) (s : List ℤ × ℤ) (i : ℕ) : Option (List ℤ × ℤ) := do
  let (idx, res) ← popLoop h i s.1 s.2
  some (↑i :: idx, res)

/-- What is returned, and the vector afterwards. -/
def largestRectangleArea (h : List CInt) : Option (ℤ × List CInt) := do
  let h := h ++ [wrap 0]
  let is ← counter h.length
  let (_, res) ← exec (turn h) ([], 0) is
  some (res, h)

example : largestRectangleArea ([2, 1, 5, 6, 2, 3].map wrap) =
    some (10, [2, 1, 5, 6, 2, 3, 0].map wrap) := by decide +kernel

/-! ### One bar -/

variable {h : List CInt} {idx : List ℤ} {i n res : ℤ}

/-- The bar `j` has been taken from the stack, with the area between its limits. -/
def Recorded (f : ℤ → ℤ) (res j : ℤ) : Prop :=
  ∃ p i, Limits f p j i ∧ f j * (i - p - 1) ≤ res

theorem Recorded.mono {f : ℤ → ℤ} {res' j : ℤ} (h : Recorded f res j) (hle : res ≤ res') :
    Recorded f res' j := by
  obtain ⟨p, i, hlimits, hres⟩ := h
  exact ⟨p, i, hlimits, hres.trans hle⟩

/-- The stack and the result while the bars before `i` are on the stack or recorded. -/
structure Holds (f : ℤ → ℤ) (n i : ℤ) (idx : List ℤ) (res : ℤ) : Prop where
  rises : Rises f idx
  top_lt : top idx < i
  behind : ∀ t ∈ idx.head?, ∀ q, t < q → q < i → f t ≤ f q
  done : ∀ j, 0 ≤ j → j < i → j ∈ idx ∨ Recorded f res j
  nonneg : 0 ≤ res
  attained : res = 0 ∨ res ∈ areas f n

/-- **The inner loop** takes the higher bars from the stack. -/
theorem popLoop_spec (hi : 0 ≤ i) (hin : i < h.length) (hn : n + 1 = h.length)
    (hint : (h.length : ℤ) < 2 ^ 31) (hold : Holds (valueAt h) n i idx res)
    (hnext : ∀ q, top idx < q → q < i → valueAt h i ≤ valueAt h q) :
    ∃ idx' res', popLoop h i idx res = some (idx', res') ∧ Holds (valueAt h) n i idx' res' ∧
      (∀ q, top idx' < q → q < i → valueAt h i ≤ valueAt h q) ∧
      ∀ t ∈ idx'.head?, valueAt h t ≤ valueAt h i := by
  induction idx generalizing res with
  | nil => exact ⟨[], res, rfl, hold, hnext, fun t ht ↦ by cases ht⟩
  | cons t idx ih =>
    have htop := hold.rises.2.2.2.le_top
    have htop' := hold.rises.1
    have hti : t < i := hold.top_lt
    obtain ⟨x, hx, hxval⟩ := exists_valueAt (s := h) hi hin
    obtain ⟨y, hy, hyval⟩ := exists_valueAt (s := h) (i := t) (by omega) (by omega)
    simp only [popLoop, hx, hy, Option.bind_eq_bind, Option.bind_some]
    by_cases hlt : x < y
    · have hlt' : valueAt h i < valueAt h t := by rwa [hxval, hyval]
      have hlimits := hold.rises.limits hti (hold.behind t rfl) hlt'
      have hwidth : fit (i - top idx) = some (i - top idx) := fit_eq (by omega)
      have hwidth' : fit (i - top idx - 1) = some (i - top idx - 1) := fit_eq (by omega)
      rw [top] at hwidth hwidth'
      simp only [if_pos hlt, hwidth, hwidth', Option.bind_some]
      rw [← hyval]
      refine ih ⟨hold.rises.2.2.2, htop'.trans hti, hold.rises.behind hlimits, fun j hj hji ↦ ?_,
        hold.nonneg.trans (le_max_left _ _), ?_⟩ fun q hq hqi ↦ ?_
      · rcases hold.done j hj hji with hmem | hrec
        · rcases List.mem_cons.1 hmem with rfl | hmem
          · exact Or.inr ⟨_, _, hlimits, le_max_right _ _⟩
          · exact Or.inl hmem
        · exact Or.inr (hrec.mono (le_max_left _ _))
      · rcases le_total res (valueAt h t * (i - top idx - 1)) with hle | hle
        · rw [top] at hle
          rw [max_eq_right hle]
          exact Or.inr (hlimits.mem_areas htop (by omega))
        · rw [top] at hle
          rw [max_eq_left hle]
          exact hold.attained
      · exact hlt'.le.trans (hlimits.le q hq hqi)
    · rw [if_neg hlt]
      refine ⟨t :: idx, res, rfl, hold, hnext, fun u hu ↦ ?_⟩
      obtain rfl := Option.some.inj hu
      rw [hxval, hyval]
      exact not_lt.1 hlt

/-- One turn of the outer loop. -/
theorem Holds.push {f : ℤ → ℤ} (hold : Holds f n i idx res)
    (hnext : ∀ q, top idx < q → q < i → f i ≤ f q) (hle : ∀ t ∈ idx.head?, f t ≤ f i) :
    Holds f n (i + 1) (i :: idx) res where
  rises := ⟨hold.top_lt, hle, hnext, hold.rises⟩
  top_lt := Int.lt_succ i
  behind t ht q hq hqi := by
    obtain rfl := Option.some.inj ht
    omega
  done j hj hji := by
    rcases (Int.lt_add_one_iff.1 hji).lt_or_eq with hlt | rfl
    · exact (hold.done j hj hlt).imp_left (List.mem_cons_of_mem i)
    · exact Or.inl List.mem_cons_self
  nonneg := hold.nonneg
  attained := hold.attained

/-! ### The function -/

/-- **The outer loop** up to the sentinel. -/
theorem loop_spec (hn : n + 1 = h.length) (hint : (h.length : ℤ) < 2 ^ 31) :
    ∃ s, exec (turn h) ([], 0) (List.range h.length) = some s ∧
      Holds (valueAt h) n h.length s.1 s.2 := by
  have hstart : Holds (valueAt h) n (0 : ℕ) [] 0 :=
    ⟨trivial, by decide, fun t ht ↦ (by cases ht), fun j hj hji ↦ by omega, le_rfl, Or.inl rfl⟩
  have hturn (i : ℕ) (s : List ℤ × ℤ) (hi : i < h.length)
      (hs : Holds (valueAt h) n i s.1 s.2 ∧ (i : ℤ) - 1 ≤ top s.1) :
      ∃ s', turn h s i = some s' ∧ Holds (valueAt h) n (i + 1 : ℕ) s'.1 s'.2 ∧
        ((i + 1 : ℕ) : ℤ) - 1 ≤ top s'.1 := by
    obtain ⟨idx, res, hrun, hold, hnext, hle⟩ := popLoop_spec (Int.natCast_nonneg i) (by omega) hn
      hint hs.1 fun q hq hqi ↦ by omega
    refine ⟨(i :: idx, res), ?_, hold.push hnext hle, ?_⟩
    · rw [turn, hrun]
      rfl
    · show ((i + 1 : ℕ) : ℤ) - 1 ≤ i
      omega
  obtain ⟨s, hrun, hold, -⟩ := exists_exec_range hturn (s := ([], 0)) ⟨hstart, by decide⟩
  exact ⟨s, hrun, hold⟩

theorem valueAt_nonneg (hnonneg : ∀ x ∈ h, 0 ≤ x.1) (q : ℤ) : 0 ≤ valueAt h q := by
  rw [valueAt]
  cases hget : Access.get h q with
  | none => exact le_rfl
  | some x =>
    rw [Access.get] at hget
    split at hget
    · exact hnonneg x (List.mem_of_getElem? hget)
    · cases hget

theorem valueAt_append_of_lt {q : ℤ} (hq : 0 ≤ q) (hlt : q < h.length) :
    valueAt (h ++ [wrap 0]) q = valueAt h q := by
  rw [valueAt, valueAt, Access.get, Access.get, if_pos hq, if_pos hq,
    List.getElem?_append_left (by omega)]

theorem valueAt_append_length : valueAt (h ++ [wrap 0]) h.length = 0 := by
  refine valueAt_of_get (x := wrap 0) ?_
  rw [get_natCast, List.getElem?_append_right (Nat.le_refl _), Nat.sub_self]
  rfl

/-- The first bar alone. -/
theorem mem_areas_one (hpos : 0 < h.length) : valueAt h 0 ∈ areas (valueAt h) h.length := by
  refine ⟨0, 1, valueAt h 0, le_rfl, Int.one_pos, by omega, ⟨⟨0, ⟨le_rfl, Int.one_pos⟩, rfl⟩, ?_⟩,
    by rw [Int.sub_zero, Int.one_mul]⟩
  rintro _ ⟨q, ⟨hq, hlt⟩, rfl⟩
  obtain rfl : q = 0 := by omega
  exact le_rfl

/-- **Behind the sentinel** all bars that have a height are recorded. -/
theorem Holds.recorded {f : ℤ → ℤ} {j : ℤ} (hold : Holds f n (n + 1) idx res)
    (hnonneg : ∀ q, 0 ≤ f q) (hsentinel : f n = 0) (hj : 0 ≤ j) (hjn : j < n) (hpos : 0 < f j) :
    Recorded f res j := by
  have hmem : n ∈ idx := by
    refine (hold.done n (by omega) (by omega)).resolve_right fun ⟨p, i, hlimits, _⟩ ↦ ?_
    have hlt := hlimits.behind
    have hi := hnonneg i
    omega
  refine (hold.done j hj (by omega)).resolve_left fun hmem' ↦ ?_
  have hle := hold.rises.le_of_lt hmem' hmem hjn
  omega

/-- The largest area of a rectangle is returned, `0` if there are no bars, and the sentinel has been
appended. -/
def FindsArea (h : List CInt) : Prop :=
  ∃ res, largestRectangleArea h = some (res, h ++ [wrap 0]) ∧
    if h = [] then res = 0 else IsGreatest (areas (valueAt h) h.length) res

theorem lt_of_largestRectangleArea {r : ℤ × List CInt} (hrun : largestRectangleArea h = some r) :
    h.length + 1 < 2 ^ 31 := by
  obtain ⟨is, his, -⟩ := Option.bind_eq_some_iff.1 hrun
  have hlt := lt_of_counter his
  rwa [List.length_append, List.length_singleton] at hlt

theorem largestRectangleArea_spec (hnonneg : ∀ x ∈ h, 0 ≤ x.1) (hlen : h.length + 1 < 2 ^ 31) :
    FindsArea h := by
  have hlen' : (h ++ [wrap 0]).length = h.length + 1 := by
    rw [List.length_append, List.length_singleton]
  obtain ⟨⟨idx, res⟩, hrun, hold⟩ :=
    loop_spec (h := h ++ [wrap 0]) (n := h.length) (by omega) (by omega)
  have hnonneg' := valueAt_nonneg (h := h ++ [wrap 0]) fun x hx ↦ by
    rcases List.mem_append.1 hx with hx | hx
    · exact hnonneg x hx
    · rw [List.mem_singleton.1 hx]
      decide
  rw [hlen'] at hold
  have hrecorded (j : ℤ) := hold.recorded (j := j) hnonneg' valueAt_append_length
  have hle := le_of_limits hold.nonneg hrecorded
  have hareas := areas_congr (f := valueAt (h ++ [wrap 0])) (g := valueAt h) (n := h.length)
    fun q hq hlt ↦ valueAt_append_of_lt hq hlt
  refine ⟨res, ?_, ?_⟩
  · rw [largestRectangleArea, counter, if_pos (hlen'.symm ▸ hlen)]
    simp only [Option.bind_eq_bind, Option.bind_some, hrun]
  · rw [hareas] at hle
    split
    next hempty =>
      refine hold.attained.resolve_right fun hmem ↦ ?_
      obtain ⟨l, r, m, hl, hlr, hr, -⟩ := hmem
      rw [hempty, List.length_nil] at hr
      omega
    next hne =>
      have hmem : res ∈ areas (valueAt h) h.length := by
        rcases hold.attained with rfl | hmem
        · have hone := mem_areas_one (h := h) (List.length_pos_of_ne_nil hne)
          have hge := valueAt_nonneg hnonneg 0
          rwa [le_antisymm (hle _ hone) hge] at hone
        · exact hareas ▸ hmem
      exact ⟨hmem, hle⟩

/-- **`largestRectangleArea`** finds the largest area exactly if its index does not overflow at the
sentinel. -/
theorem largestRectangleArea_iff (h : List CInt) (hnonneg : ∀ x ∈ h, 0 ≤ x.1) :
    FindsArea h ↔ h.length + 1 < 2 ^ 31 :=
  ⟨fun ⟨_, hrun, _⟩ ↦ lt_of_largestRectangleArea hrun, largestRectangleArea_spec hnonneg⟩

theorem largestRectangleArea_iff_two : FindsArea [wrap 2, wrap 4] ↔ 2 + 1 < 2 ^ 31 :=
  largestRectangleArea_iff [wrap 2, wrap 4] (by decide)

/-- A histogram of `2 ^ 31 - 1` bars. -/
theorem not_forall_findsArea : ¬ ∀ h : List CInt, (∀ x ∈ h, 0 ≤ x.1) → FindsArea h := by
  intro hall
  obtain ⟨res, hrun, -⟩ := hall (List.replicate (2 ^ 31 - 1) (wrap 0)) fun x hx ↦ by
    rw [List.eq_of_mem_replicate hx]
    decide
  have hlt := lt_of_largestRectangleArea hrun
  rw [List.length_replicate] at hlt
  omega

end LargestRectangleArea
