import Mathlib.Algebra.BigOperators.Ring.Finset
import Mathlib.Algebra.Order.BigOperators.Group.Finset
import Mathlib.Algebra.Order.Group.Int
import Mathlib.Data.Fintype.Basic
import Mathlib.Order.Bounds.Basic
import Mathlib.Tactic.Common

/-!
# Windows that cover a list

A window `[b, e)` of a list covers another list if it has each of its elements at least as often.
`missing` is the number of elements that a window lacks; it falls with the end of the window and
grows with its beginning, in steps of at most 1.

A scan that moves the end while something is missing, and the beginning otherwise, meets for each
beginning the first window that lacks nothing (`Scanned`), so that the shortest one is among those
that it compares (`Scanned.done_of_eq_zero`). For the scan alone it does not matter what the windows
lack, and the number may also be negative.
-/

namespace SlidingWindow

/-! ### The scan -/

section Scan

variable {lack : ℕ → ℕ → ℤ}

variable (lack) in
/-- A wider window never lacks more. -/
structure Lawful : Prop where
  antitone : ∀ b {e e'}, e ≤ e' → lack b e' ≤ lack b e
  monotone : ∀ e {b b'}, b ≤ b' → lack b e ≤ lack b' e

variable (lack) in
/-- Of the windows that begin with `b`, the first one that lacks nothing ends with `e`. -/
def IsFirst (b e : ℕ) : Prop := IsLeast {e | lack b e = 0} e

/-- The window is remembered, as its beginning and its length, if it is shorter. -/
def better (b e : ℤ) (best : ℤ × ℤ) : ℤ × ℤ := if e - b < best.2 then (b, e - b) else best

variable (lack) in
/-- What has been found in front of the window `[b, e)`, in a list of `n` elements; the length `N`
stands for there being nothing. -/
structure Scanned (n : ℕ) (N : ℤ) (b e : ℕ) (best : ℤ × ℤ) : Prop where
  pending : ∀ e' < e, lack b e' ≠ 0
  done : ∀ b' < b, ∃ e', e' ≤ e ∧ e' ≤ n ∧ IsFirst lack b' e' ∧ best.2 ≤ e' - b'
  best : best = (0, N) ∨ ∃ b' < b, ∃ e' ≤ n, IsFirst lack b' e' ∧ best = ((b' : ℤ), (e' : ℤ) - b')

variable {n b e b' e' : ℕ} {N : ℤ} {best : ℤ × ℤ}

theorem scanned_zero (n : ℕ) (N : ℤ) : Scanned lack n N 0 0 (0, N) where
  pending e' he' := absurd he' (Nat.not_lt_zero e')
  done b' hb' := absurd hb' (Nat.not_lt_zero b')
  best := .inl rfl

/-- A window that lacks something grows at its end. -/
theorem Scanned.grow (h : Scanned lack n N b e best) (hne : lack b e ≠ 0) :
    Scanned lack n N b (e + 1) best where
  pending e' he' := by
    rcases Nat.lt_succ_iff_lt_or_eq.1 he' with hlt | rfl
    · exact h.pending e' hlt
    · exact hne
  done b' hb' := by
    obtain ⟨e', he', hrest⟩ := h.done b' hb'
    exact ⟨e', he'.trans e.le_succ, hrest⟩
  best := h.best

/-- When nothing is lacking any more, the end is the first one for this beginning. -/
theorem Scanned.isFirst (h : Scanned lack n N b e best) (hzero : lack b e = 0) :
    IsFirst lack b e :=
  ⟨hzero, fun e' he' ↦ not_lt.1 fun hlt ↦ h.pending e' hlt he'⟩

/-- A window that lacks nothing is remembered if it is shorter, and shrinks at its beginning. -/
theorem Scanned.shrink (hlack : Lawful lack) (h : Scanned lack n N b e best)
    (hzero : lack b e = 0) (he : e ≤ n) : Scanned lack n N (b + 1) e (better b e best) := by
  have hfirst := h.isFirst hzero
  have hle : (better b e best).2 ≤ best.2 ∧ (better b e best).2 ≤ e - b := by
    rw [better]
    split
    next hlt => exact ⟨hlt.le, le_rfl⟩
    next hge => exact ⟨le_rfl, not_lt.1 hge⟩
  refine ⟨fun e' he' ↦ ?_, fun b' hb' ↦ ?_, ?_⟩
  · have hne := h.pending e' he'
    have hanti : lack b e ≤ lack b e' := hlack.antitone b he'.le
    have hmono : lack b e' ≤ lack (b + 1) e' := hlack.monotone e' b.le_succ
    omega
  · rcases Nat.lt_succ_iff_lt_or_eq.1 hb' with hlt | rfl
    · obtain ⟨e', he', hen, hfirst', hlen⟩ := h.done b' hlt
      exact ⟨e', he', hen, hfirst', hle.1.trans hlen⟩
    · exact ⟨e, le_rfl, he, hfirst, hle.2⟩
  · rw [better]
    split
    · exact .inr ⟨b, b.lt_succ_self, e, he, hfirst, rfl⟩
    · rcases h.best with hbest | ⟨b', hb', hrest⟩
      · exact .inl hbest
      · exact .inr ⟨b', hb'.trans b.lt_succ_self, hrest⟩

/-- **At the end** of the scan, each window that lacks nothing has been compared, or a shorter
one. -/
theorem Scanned.done_of_eq_zero (hlack : Lawful lack) (hnonneg : ∀ b e, 0 ≤ lack b e)
    (h : Scanned lack n N b e best) (hend : n ≤ b ∨ n < e) (hb' : b' < n) (he' : e' ≤ n)
    (hzero : lack b' e' = 0) :
    b' < b ∧ ∃ e₁ ≤ e', e₁ ≤ e ∧ best.2 ≤ e₁ - b' := by
  have hlt : b' < b := by
    by_contra hge
    have hne := h.pending e' (by omega)
    have hmono : lack b e' ≤ lack b' e' := hlack.monotone e' (not_lt.1 hge)
    have hpos := hnonneg b e'
    omega
  obtain ⟨e₁, he₁, -, hfirst, hlen⟩ := h.done b' hlt
  exact ⟨hlt, e₁, hfirst.2 hzero, he₁, hlen⟩

end Scan

/-! ### What is missing -/

section Demand

variable {α : Type*} [Fintype α]

/-- The sum of the positive values. -/
def demand (f : α → ℤ) : ℤ := ∑ a, max 0 (f a)

variable {f g : α → ℤ}

theorem demand_nonneg (f : α → ℤ) : 0 ≤ demand f :=
  Finset.sum_nonneg fun _ _ ↦ le_max_left _ _

theorem demand_mono (h : ∀ a, f a ≤ g a) : demand f ≤ demand g :=
  Finset.sum_le_sum fun a _ ↦ max_le_max le_rfl (h a)

/-- Nothing is demanded exactly if no value is positive. -/
theorem demand_eq_zero_iff : demand f = 0 ↔ ∀ a, f a ≤ 0 := by
  rw [demand, Finset.sum_eq_zero_iff_of_nonneg fun _ _ ↦ le_max_left _ _]
  exact ⟨fun h a ↦ max_eq_left_iff.1 (h a (Finset.mem_univ a)), fun h a _ ↦ max_eq_left (h a)⟩

variable [DecidableEq α]

/-- Changing one value changes its own share of the demand. -/
theorem demand_update (f : α → ℤ) (a : α) (x : ℤ) :
    demand (Function.update f a x) = demand f - max 0 (f a) + max 0 x := by
  have hrest : ∑ c ∈ Finset.univ.erase a, max 0 (Function.update f a x c) =
      ∑ c ∈ Finset.univ.erase a, max 0 (f c) :=
    Finset.sum_congr rfl fun c hc ↦ by rw [Function.update_of_ne (Finset.ne_of_mem_erase hc)]
  rw [demand, demand, ← Finset.add_sum_erase _ _ (Finset.mem_univ a),
    ← Finset.add_sum_erase _ (fun c ↦ max 0 (f c)) (Finset.mem_univ a), hrest,
    Function.update_self]
  omega

/-- One less of a value that is positive demands one less. -/
theorem demand_pred (f : α → ℤ) (a : α) :
    demand (Function.update f a (f a - 1)) = demand f - if 0 < f a then 1 else 0 := by
  rw [demand_update]
  split <;> omega

/-- One more of a value that becomes positive demands one more. -/
theorem demand_succ (f : α → ℤ) (a : α) :
    demand (Function.update f a (f a + 1)) = demand f + if 0 < f a + 1 then 1 else 0 := by
  rw [demand_update]
  split <;> omega

/-- A list demands each of its elements. -/
theorem demand_count (t : List α) : demand (fun a ↦ (t.count a : ℤ)) = t.length := by
  have hsum := Multiset.sum_count_eq_card (s := Finset.univ) (m := (t : Multiset α))
    fun a _ ↦ Finset.mem_univ a
  rw [Multiset.coe_card] at hsum
  rw [demand, ← hsum, Nat.cast_sum]
  refine Finset.sum_congr rfl fun a _ ↦ ?_
  rw [Multiset.coe_count, max_eq_right (Int.natCast_nonneg _)]

end Demand

/-! ### Windows of a list -/

section Window

variable {α : Type*} [DecidableEq α] (t u : List α)

/-- How many elements `a` the window `[b, e)` of `u` lacks, to cover `t`. -/
def need (b e : ℕ) (a : α) : ℤ := t.count a + (u.take b).count a - (u.take e).count a

variable {t u} {b e : ℕ} {a : α}

/-- The counts of a beginning, one element further. -/
theorem count_take_succ (h : u[e]? = some a) (c : α) :
    (u.take (e + 1)).count c = (u.take e).count c + if c = a then 1 else 0 := by
  obtain ⟨he, rfl⟩ := List.getElem?_eq_some_iff.1 h
  rw [List.take_succ_eq_append_getElem he, List.count_append, List.count_singleton]
  simp only [beq_iff_eq, @eq_comm _ c]

/-- An element that enters the window is needed one time less. -/
theorem need_grow (h : u[e]? = some a) :
    need t u b (e + 1) = Function.update (need t u b e) a (need t u b e a - 1) := by
  funext c
  rw [need, count_take_succ h, Function.update_apply]
  split
  next hc => rw [hc, need]; omega
  next => rw [need]; omega

/-- An element that leaves the window is needed one time more. -/
theorem need_shrink (h : u[b]? = some a) :
    need t u (b + 1) e = Function.update (need t u b e) a (need t u b e a + 1) := by
  funext c
  rw [need, count_take_succ h, Function.update_apply]
  split
  next hc => rw [hc, need]; omega
  next => rw [need]; omega

theorem need_self (b : ℕ) (a : α) : need t u b b a = t.count a := by
  rw [need]
  omega

/-- A longer beginning has each element at least as often. -/
theorem count_take_le {b e : ℕ} (hbe : b ≤ e) (a : α) :
    (u.take b).count a ≤ (u.take e).count a :=
  (List.take_prefix_take_left hbe).sublist.count_le a

/-- An element is never in the window more often than the window is long. -/
theorem neg_le_need (b e : ℕ) (a : α) : -(e : ℤ) ≤ need t u b e a := by
  have hle := (List.count_le_length (a := a) (l := u.take e)).trans (List.length_take_le e u)
  rw [need]
  omega

/-- A character of the window itself is not needed more often than it is in `t`. -/
theorem need_lt (h : u[b]? = some a) (hbe : b < e) : need t u b e a < t.count a := by
  have hle := count_take_le (u := u) (Nat.succ_le_of_lt hbe) a
  rw [Nat.succ_eq_add_one, count_take_succ h, if_pos rfl] at hle
  rw [need]
  omega

variable [Fintype α]

variable (t u) in
/-- How many elements the window `[b, e)` of `u` lacks, to cover `t`. -/
def missing (b e : ℕ) : ℤ := demand (need t u b e)

/-- An element that enters is no longer missing, if it was needed. -/
theorem missing_grow (h : u[e]? = some a) :
    missing t u b (e + 1) = missing t u b e - if 0 < need t u b e a then 1 else 0 := by
  rw [missing, need_grow h, demand_pred, missing]

/-- An element that leaves is missing, if it is needed now. -/
theorem missing_shrink (h : u[b]? = some a) :
    missing t u (b + 1) e = missing t u b e + if 0 < need t u b e a + 1 then 1 else 0 := by
  rw [missing, need_shrink h, demand_succ, missing]

theorem missing_self (b : ℕ) : missing t u b b = t.length := by
  rw [missing, ← demand_count]
  exact congrArg demand (funext (need_self b))

/-- With the beginning one past the end, one element more than the whole list is missing. -/
theorem missing_succ_self (hb : b < u.length) : missing t u (b + 1) b = t.length + 1 := by
  rw [missing_shrink (List.getElem?_eq_getElem hb), missing_self, need_self, if_pos (by omega)]

/-- The number `d` may be taken off what is missing. -/
theorem lawful_missing (d : ℤ) : Lawful fun b e ↦ missing t u b e - d where
  antitone b e e' he := by
    have hle : missing t u b e' ≤ missing t u b e := demand_mono fun a ↦ by
      have hcount := count_take_le (u := u) he a
      rw [need, need]
      omega
    exact sub_le_sub_right hle d
  monotone e b b' hb := by
    have hle : missing t u b e ≤ missing t u b' e := demand_mono fun a ↦ by
      have hcount := count_take_le (u := u) hb a
      rw [need, need]
      omega
    exact sub_le_sub_right hle d

/-- The window lacks nothing exactly if it covers the list. -/
theorem missing_eq_zero_iff (hbe : b ≤ e) :
    missing t u b e = 0 ↔ ∀ a, t.count a ≤ ((u.take e).drop b).count a := by
  have hsplit (a : α) :
      (u.take e).count a = (u.take b).count a + ((u.take e).drop b).count a := by
    conv_lhs => rw [← List.take_append_drop b (u.take e), List.count_append, List.take_take,
      Nat.min_eq_left hbe]
  rw [missing, demand_eq_zero_iff]
  refine forall_congr' fun a ↦ ?_
  rw [need, hsplit]
  omega

variable (t u) in
/-- How many elements the lists have in common. -/
def common : ℕ := ∑ a, min (t.count a) (u.count a)

/-- From the beginning on, what is in common is not missing. -/
theorem missing_zero (e : ℕ) : missing t u 0 e = t.length - common t (u.take e) := by
  rw [eq_sub_iff_add_eq, ← demand_count, missing, demand, demand, common, Nat.cast_sum,
    ← Finset.sum_add_distrib]
  refine Finset.sum_congr rfl fun a _ ↦ ?_
  rw [need, List.take_zero, List.count_nil]
  omega

end Window

end SlidingWindow
