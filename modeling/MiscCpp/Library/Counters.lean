import Mathlib.Data.List.GetD
import MiscCpp.Library.Access
import MiscCpp.Library.CInt

/-!
# Counters in a vector

Loops that count with an `int`, and vectors of `int`, with their values as a function of the index
(`valueAt`, `element`). If the elements are counters, `Counts n cs f` says that the vector `cs` of
`n` elements has the values of `f`.
-/

namespace CInt

/-- The values of `i` in `for (int i = 0; i < n; ++i)`, which overflows from `2 ^ 31` on. -/
def counter (n : ℕ) : Option (List ℕ) := if n < 2 ^ 31 then some (List.range n) else none

/-- An `int` counts through the indices only if the length is one of an `int`. -/
theorem lt_of_counter {n : ℕ} {is : List ℕ} (h : counter n = some is) : n < 2 ^ 31 := by
  by_contra hn
  rw [counter, if_neg hn] at h
  cases h

/-- The value of `nums[i]`. -/
def valueAt (nums : List CInt) (i : ℤ) : ℤ := ((Access.get nums i).map Subtype.val).getD 0

theorem valueAt_of_get {s : List CInt} {i : ℤ} {x : CInt} (h : Access.get s i = some x) :
    valueAt s i = x.1 := by
  rw [valueAt, h, Option.map_some, Option.getD_some]

theorem exists_valueAt {s : List CInt} {i : ℤ} (h : 0 ≤ i) (hlt : i < s.length) :
    ∃ x, Access.get s i = some x ∧ valueAt s i = x.1 := by
  obtain ⟨x, hx⟩ := Access.exists_get h hlt
  exact ⟨x, hx, valueAt_of_get hx⟩

theorem valueAt_getElem {s : List CInt} {i : ℕ} (hi : i < s.length) : valueAt s i = s[i].1 :=
  valueAt_of_get (by rw [Access.get_natCast, List.getElem?_eq_getElem hi])

theorem valueAt_take {s : List CInt} {i : ℤ} {k : ℕ} (hi : 0 ≤ i) (hik : i < k) :
    valueAt (s.take k) i = valueAt s i := by
  rw [valueAt, valueAt, Access.get, Access.get, if_pos hi, if_pos hi,
    List.getElem?_take_of_lt (by omega)]

/-- The values of a sorted list ascend. -/
theorem valueAt_le_valueAt {s : List CInt} {i j : ℤ} (hs : s.Pairwise (· ≤ ·)) (hi : 0 ≤ i)
    (hij : i ≤ j) (hj : j < s.length) : valueAt s i ≤ valueAt s j := by
  obtain ⟨x, hx, hxval⟩ := exists_valueAt (s := s) hi (by omega)
  obtain ⟨y, hy, hyval⟩ := exists_valueAt (s := s) (by omega) hj
  rcases hij.lt_or_eq with hlt | rfl
  · rw [hxval, hyval]
    exact Access.sortedOn_of_pairwise hs 0 j i j hi hlt le_rfl x y hx hy
  · exact le_rfl

/-- The elements as a sequence. -/
def element (nums : List CInt) (j : ℕ) : CInt := nums.getD j (wrap 0)

theorem get_element {nums : List CInt} {j : ℕ} (hj : j < nums.length) :
    Access.get nums j = some (element nums j) := by
  rw [Access.get_natCast, List.getElem?_eq_getElem hj, element, List.getD_eq_getElem _ _ hj]

/-- The counters are the values of `f`. -/
structure Counts (n : ℕ) (counters : List CInt) (f : ℕ → ℕ) : Prop where
  length : counters.length = n
  value : ∀ v < n, ∃ c, counters[v]? = some c ∧ c.1 = f v

variable {n v x : ℕ} {counters : List CInt} {f g : ℕ → ℕ}

theorem counts_replicate (n : ℕ) : Counts n (List.replicate n (wrap 0)) fun _ ↦ 0 where
  length := List.length_replicate
  value v hv := ⟨wrap 0, by rw [List.getElem?_replicate, if_pos hv], rfl⟩

theorem Counts.congr (h : Counts n counters f) (hfg : ∀ v < n, f v = g v) :
    Counts n counters g :=
  ⟨h.length, fun v hv ↦ hfg v hv ▸ h.value v hv⟩

/-- Setting a counter sets its value alone. -/
theorem Counts.set (h : Counts n counters f) {c : CInt} (hc : c.1 = x) (v : ℕ) :
    Counts n (counters.set v c) (Function.update f v x) where
  length := by rw [List.length_set, h.length]
  value w hw := by
    rcases eq_or_ne w v with rfl | hne
    · rw [List.getElem?_set_self (by rw [h.length]; exact hw), Function.update_self]
      exact ⟨c, rfl, hc⟩
    · rw [List.getElem?_set_ne hne.symm, Function.update_of_ne hne]
      exact h.value w hw

/-- `++cs[v]`, which overflows where the counter is the greatest `int`. -/
theorem Counts.incr (h : Counts n counters f) (hv : v < n) :
    ∃ c, counters[v]? = some c ∧
      if f v + 1 < 2 ^ 31 then
        ∃ c', c.incr = some c' ∧ Counts n (counters.set v c') (Function.update f v (f v + 1))
      else c.incr = none := by
  obtain ⟨c, hget, hval⟩ := h.value v hv
  refine ⟨c, hget, ?_⟩
  split
  next hlt =>
    have hincr : c.incr = some ⟨c.1 + 1, by have := c.2; omega⟩ := dif_pos (by omega)
    refine ⟨_, hincr, h.set ?_ v⟩
    show c.1 + 1 = _
    omega
  next hge => exact dif_neg (by omega)

end CInt
