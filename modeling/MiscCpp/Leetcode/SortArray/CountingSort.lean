import MiscCpp.Library.Counters
import MiscCpp.Library.Machine
import MiscCpp.Library.Search

/-!
# Counting sort

`countingSort` of `leetcode/divideANDconquer/sortArray.cc`, with all its numbers an `int`.

The first loop counts how often each value occurs (`countValues_spec`), the second one writes each
value as often (`writeValues_spec`), which gives a sorted permutation (`expansion_perm`,
`expansion_pairwise`). The number of counters overflows if the values are too far apart, and the
index behind the last element if there are too many. Everything else that could overflow does so
only then (`countingSort_iff`).
-/

open CInt Machine Search

namespace CountingSort

/-! ### The program -/

/-- `++count[n - l]` -/
def countValue (l : CInt) (count : List CInt) (n : CInt) : Option (List CInt) := do
  let i ← checked (n.1 - l.1)
  let c ← if 0 ≤ i.1 then count[i.1.toNat]? else none
  let c ← c.incr
  some (count.set i.1.toNat c)

structure State where
  count : List CInt
  nums : List CInt
  index : CInt

/-- `while (count[i]--)` -/
def writeLoop (l : CInt) (i : ℕ) : ℕ → State → Option State
  | 0, _ => none
  | fuel + 1, s => do
    let c ← s.count[i]?
    let c' ← c.decr
    let s := { s with count := s.count.set i c' }
    if c.1 ≠ 0 then
      let index ← s.index.incr
      let n ← checked (l.1 + i)
      if 0 ≤ s.index.1 ∧ s.index.1.toNat < s.nums.length then
        writeLoop l i fuel { s with nums := s.nums.set s.index.1.toNat n, index := index }
      else none
    else some s

def countingSort (fuel : ℕ) (nums : List CInt) : Option (List CInt) := do
  let l ← nums.min?
  let r ← nums.max?
  let d ← checked (r.1 - l.1)
  let size ← d.incr
  let count ← exec (countValue l) (List.replicate size.1.toNat (wrap 0)) nums
  let is ← counter count.length
  let s ← exec (fun s i ↦ writeLoop l i fuel s) ⟨count, nums, wrap 0⟩ is
  some s.nums

/-! ### A list from the number of its elements -/

/-- Each of the first `k` values of `x` as often as `f` says. -/
def expansion (x : ℕ → CInt) (f : ℕ → ℕ) (k : ℕ) : List CInt :=
  (List.range k).flatMap fun i ↦ List.replicate (f i) (x i)

variable {x : ℕ → CInt} {f : ℕ → ℕ} {k m i : ℕ} {nums : List CInt}

theorem expansion_succ (x : ℕ → CInt) (f : ℕ → ℕ) (k : ℕ) :
    expansion x f (k + 1) = expansion x f k ++ List.replicate (f k) (x k) := by
  rw [expansion, List.range_succ, List.flatMap_append, List.flatMap_singleton, expansion]

theorem length_expansion_le (x : ℕ → CInt) (f : ℕ → ℕ) (h : m ≤ k) :
    (expansion x f m).length ≤ (expansion x f k).length := by
  induction h with
  | refl => exact Nat.le_refl _
  | step _ ih =>
    rw [expansion_succ, List.length_append]
    exact Nat.le_add_right_of_le ih

theorem mem_expansion {a : CInt} (h : a ∈ expansion x f k) : ∃ i < k, a = x i := by
  obtain ⟨i, hi, ha⟩ := List.mem_flatMap.1 h
  exact ⟨i, List.mem_range.1 hi, List.eq_of_mem_replicate ha⟩

theorem expansion_pairwise (hx : ∀ i j, i < j → j < k → x i ≤ x j) :
    (expansion x f k).Pairwise (· ≤ ·) := by
  induction k with
  | zero => exact .nil
  | succ k ih =>
    rw [expansion_succ]
    refine List.pairwise_append.2 ⟨ih fun i j hij hj ↦ hx i j hij (Nat.lt_succ_of_lt hj),
      List.pairwise_replicate.2 (Or.inr le_rfl), fun a ha b hb ↦ ?_⟩
    obtain ⟨i, hi, rfl⟩ := mem_expansion ha
    obtain rfl := List.eq_of_mem_replicate hb
    exact hx i k hi (Nat.lt_succ_self k)

theorem count_expansion (hx : ∀ i j, i < m → j < m → x i = x j → i = j) (hk : k ≤ m) (hi : i < m) :
    (expansion x f k).count (x i) = if i < k then f i else 0 := by
  induction k with
  | zero => rfl
  | succ k ih =>
    rw [expansion_succ, List.count_append, ih (Nat.le_of_succ_le hk), List.count_replicate]
    rcases Nat.lt_trichotomy i k with hlt | rfl | hgt
    · have hne : (x k == x i) = false := beq_false_of_ne fun heq ↦
        Nat.ne_of_gt hlt (hx k i (Nat.lt_of_succ_le hk) hi heq)
      rw [hne, if_pos hlt, if_pos (Nat.lt_succ_of_lt hlt), if_neg Bool.false_ne_true, Nat.add_zero]
    · rw [if_neg (Nat.lt_irrefl i), if_pos (Nat.lt_succ_self i), if_pos (beq_self_eq_true _),
        Nat.zero_add]
    · have hne : (x k == x i) = false := beq_false_of_ne fun heq ↦
        Nat.ne_of_lt hgt (hx k i (Nat.lt_of_succ_le hk) hi heq)
      rw [hne, if_neg (Nat.lt_asymm hgt), if_neg (Nat.not_lt.2 hgt), if_neg Bool.false_ne_true]

/-- Each value as often as it occurs in a list. -/
theorem expansion_perm (hx : ∀ i j, i < k → j < k → x i = x j → i = j)
    (hnums : ∀ a ∈ nums, ∃ i < k, a = x i) :
    (expansion x (fun i ↦ nums.count (x i)) k).Perm nums := by
  refine List.perm_iff_count.2 fun a ↦ ?_
  by_cases ha : ∃ i < k, a = x i
  · obtain ⟨i, hi, rfl⟩ := ha
    rw [count_expansion hx (Nat.le_refl k) hi, if_pos hi]
  · rw [List.count_eq_zero_of_not_mem fun h ↦ ha (mem_expansion h),
      List.count_eq_zero_of_not_mem fun h ↦ ha (hnums a h)]

/-! ### Counting -/

variable {l : CInt} {count : List CInt} {fuel : ℕ} {out rest : List CInt} {s : State}

/-- The values that are counted, from the least one `l` on. -/
structure Values (l : CInt) (x : ℕ → CInt) (k : ℕ) : Prop where
  lt : k < 2 ^ 31
  value : ∀ i < k, (x i).1 = l.1 + i

theorem Values.injective (hx : Values l x k) (hi : i < k) (hm : m < k) (heq : x i = x m) :
    i = m := by
  have hi' := hx.value i hi
  have hm' := hx.value m hm
  rw [heq] at hi'
  omega

theorem countValue_spec (hx : Values l x k) (h : Counts k count f) (hi : i < k) :
    if f i + 1 < 2 ^ 31 then
      ∃ count', countValue l count (x i) = some count' ∧
        Counts k count' (Function.update f i (f i + 1))
    else countValue l count (x i) = none := by
  obtain ⟨c, hget, hincr⟩ := h.incr hi
  have hk := hx.lt
  have hval := hx.value i hi
  have hindex : checked ((x i).1 - l.1) = some ⟨i, by omega⟩ :=
    (congrArg checked (by omega)).trans (dif_pos _)
  rw [countValue, hindex]
  simp only [Option.bind_eq_bind, Option.bind_some, if_pos (Int.natCast_nonneg i),
    Int.toNat_natCast, hget]
  split at hincr
  next hfi =>
    obtain ⟨c', hc', hcounts⟩ := hincr
    rw [if_pos hfi, hc']
    exact ⟨_, rfl, hcounts⟩
  next hfi =>
    rw [if_neg hfi, hincr]
    rfl

/-- **The first loop** adds how often each value occurs, if that is not too often. -/
theorem countValues_spec (hx : Values l x k) (hnums : ∀ a ∈ nums, ∃ i < k, a = x i)
    (h : Counts k count f) :
    if ∀ i < k, f i + nums.count (x i) < 2 ^ 31 then
      ∃ count', exec (countValue l) count nums = some count' ∧
        Counts k count' fun i ↦ f i + nums.count (x i)
    else exec (countValue l) count nums = none := by
  induction nums generalizing count f with
  | nil =>
    rw [if_pos]
    · exact ⟨count, rfl, h⟩
    · intro i hi
      obtain ⟨c, -, hc⟩ := h.value i hi
      have hlt := c.2.2
      rw [List.count_nil]
      omega
  | cons a nums ih =>
    obtain ⟨⟨i, hi, rfl⟩, htail⟩ := List.forall_mem_cons.1 hnums
    have hstep := countValue_spec hx h hi
    have hcount : ∀ j < k, f j + (x i :: nums).count (x j) =
        Function.update f i (f i + 1) j + nums.count (x j) := by
      intro j hj
      rcases eq_or_ne j i with rfl | hne
      · rw [List.count_cons_self, Function.update_self]
        omega
      · rw [List.count_cons_of_ne fun heq ↦ hne (hx.injective hj hi heq.symm),
          Function.update_of_ne hne]
    rw [exec_cons]
    split at hstep
    next hfi =>
      obtain ⟨count', heq, h'⟩ := hstep
      rw [heq, Option.bind_some]
      have hrest := ih htail h'
      have hiff : (∀ j < k, f j + (x i :: nums).count (x j) < 2 ^ 31) ↔
          ∀ j < k, Function.update f i (f i + 1) j + nums.count (x j) < 2 ^ 31 :=
        forall₂_congr fun j hj ↦ by rw [hcount j hj]
      split at hrest
      next hall =>
        obtain ⟨count'', hexec, h''⟩ := hrest
        rw [if_pos (hiff.2 hall)]
        exact ⟨count'', hexec, h''.congr fun j hj ↦ (hcount j hj).symm⟩
      next hall => rwa [if_neg (hall ∘ hiff.1)]
    next hfi =>
      rw [hstep, Option.bind_none, if_neg]
      intro hall
      have hlt := hall i hi
      rw [List.count_cons_self] at hlt
      omega

/-! ### Writing -/

/-- **A turn** of the inner loop whose counter is not 0. -/
theorem writeLoop_succ (hx : Values l x k) (hi : i < k) {c : CInt} (hget : s.count[i]? = some c)
    (hc : c.1 = (m + 1 : ℕ)) {b : CInt} (hnums : s.nums = out ++ b :: rest)
    (hindex : s.index.1 = out.length) :
    if out.length + 1 < 2 ^ 31 then
      ∃ c' index : CInt, c'.1 = m ∧ index.1 = (out ++ [x i]).length ∧
        ∀ fuel, writeLoop l i (fuel + 1) s =
          writeLoop l i fuel ⟨s.count.set i c', (out ++ [x i]) ++ rest, index⟩
    else ∀ fuel, writeLoop l i (fuel + 1) s = none := by
  let c' : CInt := ⟨c.1 - 1, by have := c.2; omega⟩
  have hc' : c'.1 = m := by
    show c.1 - 1 = m
    omega
  have hdecr : c.decr = some c' := dif_pos (by have := c.2; omega)
  have hvalue : checked (l.1 + i) = some (x i) := by
    rw [← hx.value i hi]
    exact checked_coe _
  have hle : 0 ≤ s.index.1 ∧ s.index.1.toNat < s.nums.length := by
    rw [hindex, hnums, List.length_append, List.length_cons]
    omega
  have hne : c.1 ≠ 0 := by omega
  have hturn : ∀ fuel, writeLoop l i (fuel + 1) s = s.index.incr.bind fun index ↦
      writeLoop l i fuel ⟨s.count.set i c', s.nums.set s.index.1.toNat (x i), index⟩ := by
    intro fuel
    rw [writeLoop, hget]
    simp only [Option.bind_eq_bind, Option.bind_some, hdecr, if_pos hne, if_pos hle, hvalue]
  split
  next hmax =>
    let index : CInt := ⟨s.index.1 + 1, by omega⟩
    have hincr : s.index.incr = some index := dif_pos (by omega)
    have hset : s.nums.set s.index.1.toNat (x i) = (out ++ [x i]) ++ rest := by
      rw [hindex, Int.toNat_natCast, hnums, List.set_append_right _ _ (Nat.le_refl _),
        Nat.sub_self, List.set_cons_zero, List.append_assoc, List.singleton_append]
    refine ⟨c', index, hc', ?_, fun fuel ↦ ?_⟩
    · show s.index.1 + 1 = _
      rw [List.length_append, List.length_singleton]
      omega
    · rw [hturn, hincr, Option.bind_some, hset]
  next hmax =>
    have hincr : s.index.incr = none := dif_neg (by omega)
    exact fun fuel ↦ by rw [hturn, hincr, Option.bind_none]

/-- **The inner loop** writes the value as often as its counter says. -/
theorem writeLoop_spec (hx : Values l x k) (hi : i < k) {c : CInt} (hget : s.count[i]? = some c)
    (hc : c.1 = m) (hnums : s.nums = out ++ rest) (hm : m ≤ rest.length)
    (hindex : s.index.1 = out.length) (hfuel : m < fuel) :
    if out.length + m < 2 ^ 31 then
      ∃ t, writeLoop l i fuel s = some t ∧
        t.nums = out ++ List.replicate m (x i) ++ rest.drop m ∧
        t.index.1 = (out.length + m : ℕ) ∧ ∀ j ≠ i, t.count[j]? = s.count[j]?
    else writeLoop l i fuel s = none := by
  have hlt := (List.getElem?_eq_some_iff.1 hget).1
  induction m generalizing fuel s out rest c with
  | zero =>
    obtain ⟨fuel, rfl⟩ := Nat.exists_eq_succ_of_ne_zero (Nat.ne_of_gt hfuel)
    have hdecr : c.decr = some ⟨c.1 - 1, by have := c.2; omega⟩ := dif_pos (by omega)
    rw [if_pos (by have := s.index.2.2; omega), writeLoop, hget]
    simp only [Option.bind_eq_bind, Option.bind_some, hdecr]
    rw [if_neg fun hne ↦ hne hc]
    refine ⟨_, rfl, ?_, hindex, fun j hj ↦ List.getElem?_set_ne hj.symm⟩
    rw [List.replicate_zero, List.append_nil, List.drop_zero]
    exact hnums
  | succ m ih =>
    obtain ⟨fuel, rfl⟩ := Nat.exists_eq_succ_of_ne_zero (Nat.ne_of_gt (Nat.zero_lt_of_lt hfuel))
    obtain ⟨b, rest, rfl⟩ : ∃ b bs, rest = b :: bs := by
      cases rest with
      | nil => exact absurd hm (Nat.not_succ_le_zero m)
      | cons b bs => exact ⟨b, bs, rfl⟩
    have hturn := writeLoop_succ hx hi hget hc hnums hindex
    split at hturn
    next hmax =>
      obtain ⟨c', index, hc', hindex', hturn⟩ := hturn
      have hrest := ih (s := ⟨s.count.set i c', (out ++ [x i]) ++ rest, index⟩)
        (List.getElem?_set_self hlt) hc' rfl (Nat.le_of_succ_le_succ hm) hindex'
        (Nat.lt_of_succ_lt_succ hfuel) (by rwa [List.length_set])
      have hlen : (out ++ [x i]).length + m = out.length + (m + 1) := by
        rw [List.length_append, List.length_singleton]
        omega
      rw [hlen] at hrest
      rw [hturn]
      split at hrest
      next hmax' =>
        obtain ⟨t, heq, htnums, htindex, htcount⟩ := hrest
        rw [if_pos hmax']
        refine ⟨t, heq, ?_, htindex, fun j hj ↦ (htcount j hj).trans
          (List.getElem?_set_ne hj.symm)⟩
        rw [htnums, List.replicate_succ, List.drop_succ_cons, List.append_assoc out,
          List.singleton_append]
      next hmax' => rwa [if_neg hmax']
    next hmax => rw [if_neg (by omega), hturn]

/-- Behind the values that are written the vector is as it was, as are their counters. -/
structure Written (x : ℕ → CInt) (f : ℕ → ℕ) (count nums : List CInt) (m : ℕ) (s : State) :
    Prop where
  nums : s.nums = expansion x f m ++ nums.drop (expansion x f m).length
  index : s.index.1 = (expansion x f m).length
  rest : ∀ i ≥ m, s.count[i]? = count[i]?

/-- **The second loop** writes each value as often as its counter says, up to the greatest index
that an `int` can have. -/
theorem writeValues_spec (hx : Values l x k) (h : Counts k count f)
    (hlen : (expansion x f k).length ≤ nums.length) (hfuel : nums.length < fuel) (hm : m ≤ k) :
    if (expansion x f m).length < 2 ^ 31 then
      ∃ s, exec (fun s i ↦ writeLoop l i fuel s) ⟨count, nums, wrap 0⟩ (List.range m) = some s ∧
        Written x f count nums m s
    else exec (fun s i ↦ writeLoop l i fuel s) ⟨count, nums, wrap 0⟩ (List.range m) = none := by
  induction m with
  | zero => exact ⟨_, rfl, rfl, rfl, fun _ _ ↦ rfl⟩
  | succ m ih =>
    have hprefix := ih (Nat.le_of_succ_le hm)
    have hm' := length_expansion_le x f hm
    rw [expansion_succ, List.length_append, List.length_replicate] at hm' ⊢
    rw [List.range_succ, exec_concat]
    split at hprefix
    next hlt =>
      obtain ⟨s, hexec, hs⟩ := hprefix
      obtain ⟨c, hget, hc⟩ := h.value m hm
      rw [hexec, Option.bind_some]
      have hloop := writeLoop_spec hx hm ((hs.rest m (Nat.le_refl m)).trans hget) hc hs.nums
        (by rw [List.length_drop]; omega) hs.index (show f m < fuel by omega)
      split at hloop
      next hmax =>
        obtain ⟨t, heq, htnums, htindex, htcount⟩ := hloop
        rw [if_pos hmax]
        refine ⟨t, heq, ?_, ?_, fun i hi ↦ ?_⟩
        · rw [htnums, List.drop_drop, expansion_succ, List.length_append, List.length_replicate]
        · rw [htindex, expansion_succ, List.length_append, List.length_replicate]
        · rw [htcount i (Nat.ne_of_gt hi)]
          exact hs.rest i (Nat.le_of_succ_le hi)
      next hmax => rwa [if_neg hmax]
    next hge =>
      rw [if_neg (by omega), hprefix]
      rfl

/-! ### The sort -/

/-- The numbers from `l` on. -/
def valueAt (l : CInt) (i : ℕ) : CInt := wrap (l.1 + i)

theorem values_valueAt {r : CInt} (h : r.1 - l.1 + 1 < 2 ^ 31) :
    Values l (valueAt l) (r.1 - l.1 + 1).toNat where
  lt := by omega
  value i hi := by
    have hl := l.2
    have hr := r.2
    exact congrArg Subtype.val (wrap_coe ⟨l.1 + i, by omega⟩)

theorem eq_valueAt {a r : CInt} (hl : l ≤ a) (hr : a ≤ r) :
    ∃ i < (r.1 - l.1 + 1).toNat, a = valueAt l i := by
  have hl' : l.1 ≤ a.1 := hl
  have hr' : a.1 ≤ r.1 := hr
  refine ⟨(a.1 - l.1).toNat, by omega, ?_⟩
  rw [valueAt, show l.1 + ((a.1 - l.1).toNat : ℤ) = a.1 by omega, wrap_coe]

/-- What the two loops give, and where something overflows. -/
theorem countingSort_eq {r : CInt} (hl : nums.min? = some l) (hr : nums.max? = some r)
    (hfuel : nums.length < fuel) :
    countingSort fuel nums = if nums.length < 2 ^ 31 ∧ r.1 - l.1 + 1 < 2 ^ 31 then
      some (expansion (valueAt l) (fun i ↦ nums.count (valueAt l i)) (r.1 - l.1 + 1).toNat)
    else none := by
  have hmin := List.min?_eq_some_iff.1 hl
  have hmax := List.max?_eq_some_iff.1 hr
  have hle : l.1 ≤ r.1 := hmin.2 r hmax.1
  rw [countingSort, hl, hr]
  simp only [Option.bind_eq_bind, Option.bind_some]
  by_cases hd : r.1 - l.1 + 1 < 2 ^ 31
  · have hx := values_valueAt hd
    have hmem : ∀ a ∈ nums, ∃ i < (r.1 - l.1 + 1).toNat, a = valueAt l i := fun a ha ↦
      eq_valueAt (hmin.2 a ha) (hmax.2 a ha)
    have hperm := expansion_perm (fun i j hi hj ↦ hx.injective hi hj) hmem
    have hsub : checked (r.1 - l.1) = some ⟨r.1 - l.1, by omega⟩ := dif_pos _
    have hincr : incr ⟨r.1 - l.1, by omega⟩ = some ⟨r.1 - l.1 + 1, by omega⟩ := dif_pos hd
    have hcount := countValues_spec hx hmem (counts_replicate _)
    simp only [hsub, hincr, Option.bind_some, Nat.zero_add] at hcount ⊢
    split at hcount
    next hall =>
      obtain ⟨count, hexec, h⟩ := hcount
      have hcounter : counter count.length = some (List.range (r.1 - l.1 + 1).toNat) := by
        rw [h.length]
        exact if_pos hx.lt
      have hwrite := writeValues_spec hx h (Nat.le_of_eq hperm.length_eq) hfuel (Nat.le_refl _)
      rw [hperm.length_eq] at hwrite
      simp only [hexec, hcounter, Option.bind_some]
      split at hwrite
      next hlen =>
        obtain ⟨s, heq, hs⟩ := hwrite
        have hnums := hs.nums
        rw [hperm.length_eq, List.drop_length, List.append_nil] at hnums
        rw [heq, Option.bind_some, if_pos ⟨hlen, hd⟩, hnums]
      next hlen =>
        rw [hwrite, if_neg fun h ↦ hlen h.1]
        rfl
    next hall =>
      rw [hcount, if_neg]
      · rfl
      · exact fun h ↦ hall fun i _ ↦ Nat.lt_of_le_of_lt List.count_le_length h.1
  · rw [if_neg fun h ↦ hd h.2]
    by_cases hsub : r.1 - l.1 < 2 ^ 31
    · have hsub' : checked (r.1 - l.1) = some ⟨r.1 - l.1, by omega⟩ := dif_pos _
      have hincr : incr ⟨r.1 - l.1, by omega⟩ = none := dif_neg hd
      simp only [hsub', Option.bind_some, hincr, Option.bind_none]
    · have hsub' : checked (r.1 - l.1) = none := dif_neg fun h ↦ hsub h.2
      rw [hsub', Option.bind_none]

/-- **`countingSort` sorts** a vector exactly if there are at most `INT_MAX` values from the least
of its elements to the greatest, and at most `INT_MAX` elements. -/
theorem countingSort_iff (hnums : nums ≠ []) :
    SortsInPlace countingSort nums ↔
      nums.length < 2 ^ 31 ∧ ∀ a ∈ nums, ∀ b ∈ nums, b.1 - a.1 + 1 < 2 ^ 31 := by
  obtain ⟨l, hl⟩ := Option.isSome_iff_exists.1 (List.isSome_min?_of_ne_nil hnums)
  obtain ⟨r, hr⟩ := Option.isSome_iff_exists.1 (List.isSome_max?_of_ne_nil hnums)
  have hmin := List.min?_eq_some_iff.1 hl
  have hmax := List.max?_eq_some_iff.1 hr
  have hrange : (∀ a ∈ nums, ∀ b ∈ nums, b.1 - a.1 + 1 < 2 ^ 31) ↔ r.1 - l.1 + 1 < 2 ^ 31 := by
    refine ⟨fun h ↦ h l hmin.1 r hmax.1, fun h a ha b hb ↦ ?_⟩
    have hla : l.1 ≤ a.1 := hmin.2 a ha
    have hbr : b.1 ≤ r.1 := hmax.2 b hb
    omega
  rw [hrange]
  constructor
  · rintro ⟨n, h⟩
    obtain ⟨l', heq, -⟩ := h (n + nums.length + 1) (by omega)
    rw [countingSort_eq hl hr (by omega)] at heq
    by_contra hnot
    rw [if_neg hnot] at heq
    cases heq
  · intro h
    have hx := values_valueAt h.2
    refine ⟨nums.length + 1, fun fuel hfuel ↦ ⟨_, (countingSort_eq hl hr hfuel).trans (if_pos h),
      expansion_perm (fun i j hi hj ↦ hx.injective hi hj) fun a ha ↦
        eq_valueAt (hmin.2 a ha) (hmax.2 a ha), expansion_pairwise fun i j hij hj ↦ ?_⟩⟩
    have hi' := hx.value i (Nat.lt_trans hij hj)
    have hj' := hx.value j hj
    show (valueAt l i).1 ≤ (valueAt l j).1
    omega

theorem countingSort_iff_three : ([wrap 3, wrap (-2), wrap 3] : List CInt) ≠ [] ∧
    (SortsInPlace countingSort [wrap 3, wrap (-2), wrap 3] ↔
      [wrap 3, wrap (-2), wrap 3].length < 2 ^ 31 ∧
        ∀ a ∈ [wrap 3, wrap (-2), wrap 3], ∀ b ∈ [wrap 3, wrap (-2), wrap 3],
          b.1 - a.1 + 1 < 2 ^ 31) :=
  ⟨List.cons_ne_nil _ _, countingSort_iff (List.cons_ne_nil _ _)⟩

/-- From `0` to `INT_MAX` there is one value more. -/
theorem not_forall_countingSort : ¬ ∀ nums ≠ [], SortsInPlace countingSort nums := by
  intro h
  obtain ⟨n, hn⟩ := h [wrap 0, INT_MAX] (List.cons_ne_nil _ _)
  obtain ⟨nums, heq, -⟩ := hn (n + 3) (Nat.le_add_right n 3)
  have hmin : [wrap 0, INT_MAX].min? = some (wrap 0) := by decide
  have hmax : [wrap 0, INT_MAX].max? = some INT_MAX := by decide
  have hover : ¬ ([wrap 0, INT_MAX].length < 2 ^ 31 ∧ INT_MAX.1 - (wrap 0).1 + 1 < 2 ^ 31) := by
    decide
  rw [countingSort_eq hmin hmax (show 2 < n + 3 by omega), if_neg hover] at heq
  cases heq

example : countingSort 4 [wrap 3, wrap (-2), wrap 3] = some [wrap (-2), wrap 3, wrap 3] := by
  decide

end CountingSort
