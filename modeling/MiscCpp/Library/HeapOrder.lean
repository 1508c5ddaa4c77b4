import Mathlib.Logic.Equiv.Basic
import Mathlib.Order.Lattice
import Mathlib.Order.Nat
import Mathlib.Tactic.Common

/-!
# The order of a binary heap

An array of `n` elements, as a function on its indices, read as a binary tree: the parent of the
index `i` is `(i - 1) / 2`. In a heap every element is at least its parent (`Ordered`).

A heap is repaired by exchanging elements along a path. What is left to repair on the way is said by
`SiftUp` and `SiftDown`: everything is in order but the pairs at one index, and what is below this
index is in order with what is above. On the way down each exchange keeps this in both directions
(`siftDown_exchange_iff`), so the path ends in order exactly if it has started right.
-/

namespace HeapOrder

variable {α : Type*}

/-- The index of the parent. -/
def parent (i : ℕ) : ℕ := (i - 1) / 2

theorem parent_lt {i : ℕ} (hi : 0 < i) : parent i < i := by
  rw [parent]
  omega

theorem parent_eq_iff {c i : ℕ} (hc : 0 < c) :
    parent c = i ↔ c = 2 * i + 1 ∨ c = 2 * i + 2 := by
  rw [parent]
  omega

/-- The array with the elements at `i` and `j` exchanged. -/
def exchange (a : ℕ → α) (i j : ℕ) : ℕ → α := a ∘ Equiv.swap i j

variable {a : ℕ → α} {n lo i j k m : ℕ}

@[simp] theorem exchange_left : exchange a i j i = a j := congrArg a (Equiv.swap_apply_left i j)

@[simp] theorem exchange_right : exchange a i j j = a i := congrArg a (Equiv.swap_apply_right i j)

theorem exchange_of_ne (hi : k ≠ i) (hj : k ≠ j) : exchange a i j k = a k :=
  congrArg a (Equiv.swap_apply_of_ne_of_ne hi hj)

variable [LinearOrder α]

/-- The children of the indices from `lo` on are in order with their parents. -/
def OrderedFrom (n lo : ℕ) (a : ℕ → α) : Prop :=
  ∀ c, 0 < c → c < n → lo ≤ parent c → a (parent c) ≤ a c

/-- Every element is at least its parent. -/
def Ordered (n : ℕ) (a : ℕ → α) : Prop := ∀ c, 0 < c → c < n → a (parent c) ≤ a c

theorem orderedFrom_zero : OrderedFrom n 0 a ↔ Ordered n a :=
  forall₃_congr fun _ _ _ ↦ ⟨fun h ↦ h (Nat.zero_le _), fun h _ ↦ h⟩

/-- The order is that of the elements from `lo` on. -/
theorem OrderedFrom.congr {b : ℕ → α} (h : OrderedFrom n lo a)
    (hab : ∀ c, lo ≤ c → c < n → b c = a c) : OrderedFrom n lo b := by
  intro c hpos hc hle
  have hlt := parent_lt hpos
  rw [hab c (Nat.le_trans hle hlt.le) hc, hab _ hle (Nat.lt_trans hlt hc)]
  exact h c hpos hc hle

/-- The first element is the smallest. -/
theorem Ordered.le (h : Ordered n a) (hi : i < n) : a 0 ≤ a i := by
  induction i using Nat.strongRecOn with
  | ind i ih =>
    rcases Nat.eq_zero_or_pos i with rfl | hpos
    · exact le_refl _
    · exact (ih (parent i) (parent_lt hpos) (Nat.lt_trans (parent_lt hpos) hi)).trans (h i hpos hi)

/-! ### On the way up -/

/-- In order, except `i` with its parent. -/
structure SiftUp (n : ℕ) (a : ℕ → α) (i : ℕ) : Prop where
  rest : ∀ c, 0 < c → c < n → c ≠ i → a (parent c) ≤ a c
  grand : ∀ c, 0 < c → c < n → parent c = i → 0 < i → a (parent i) ≤ a c

/-- An element added at the end. -/
theorem SiftUp.of_ordered (h : Ordered n a) : SiftUp (n + 1) a n where
  rest c hpos hc hne := h c hpos (Nat.lt_of_le_of_ne (Nat.le_of_lt_succ hc) hne)
  grand c hpos hc hpar _ := by
    have hlt := parent_lt hpos
    omega

/-- An element that fits with its parent is in order. -/
theorem SiftUp.ordered (h : SiftUp n a i) (hi : 0 < i → a (parent i) ≤ a i) : Ordered n a := by
  intro c hpos hc
  rcases eq_or_ne c i with rfl | hne
  · exact hi hpos
  · exact h.rest c hpos hc hne

/-- An element below its parent moves up, and is the only one in question there. -/
theorem SiftUp.exchange (h : SiftUp n a i) (hpos : 0 < i) (hi : i < n)
    (hlt : a i < a (parent i)) :
    SiftUp n (exchange a (parent i) i) (parent i) := by
  have hne : parent i ≠ i := (parent_lt hpos).ne
  refine ⟨fun c hc hcn hcp ↦ ?_, fun c hc hcn hcp hq ↦ ?_⟩
  · rcases eq_or_ne c i with rfl | hci
    · rw [exchange_left, exchange_right]
      exact hlt.le
    · rw [exchange_of_ne hcp hci]
      rcases eq_or_ne (parent c) i with hpi | hpi
      · rw [hpi, exchange_right]
        exact h.grand c hc hcn hpi hpos
      · have hle := h.rest c hc hcn hci
        rcases eq_or_ne (parent c) (parent i) with hpp | hpp
        · rw [hpp, exchange_left]
          exact hlt.le.trans (hpp ▸ hle)
        · rwa [exchange_of_ne hpp hpi]
  · have hlt' := parent_lt hq
    have hup : a (parent (parent i)) ≤ a (parent i) :=
      h.rest _ hq (Nat.lt_trans (parent_lt hpos) hi) hne
    rw [exchange_of_ne hlt'.ne (Nat.lt_trans hlt' (parent_lt hpos)).ne]
    rcases eq_or_ne c i with rfl | hci
    · rwa [exchange_right]
    · have hcp' : c ≠ parent i := hcp ▸ (parent_lt hc).ne'
      rw [exchange_of_ne hcp' hci]
      exact hup.trans (hcp ▸ h.rest c hc hcn hci)

/-! ### On the way down -/

/-- In order from `lo` on, except `i` with its children. -/
structure SiftDown (n lo : ℕ) (a : ℕ → α) (i : ℕ) : Prop where
  rest : ∀ c, 0 < c → c < n → lo ≤ parent c → parent c ≠ i → a (parent c) ≤ a c
  grand : ∀ c, 0 < c → c < n → parent c = i → 0 < i → lo ≤ parent i → a (parent i) ≤ a c

/-- At the first index in question nothing is above. -/
theorem siftDown_self : SiftDown n lo a lo ↔ OrderedFrom n (lo + 1) a := by
  constructor
  · exact fun h c hpos hc hle ↦ h.rest c hpos hc (Nat.le_of_succ_le hle) (Nat.ne_of_gt hle)
  · refine fun h ↦ ⟨fun c hpos hc hle hne ↦ h c hpos hc (Nat.lt_of_le_of_ne hle hne.symm), ?_⟩
    exact fun c _ _ _ hpos hle ↦ absurd (parent_lt hpos) (Nat.not_lt_of_le hle)

/-- An element that fits with its children is in order. -/
theorem siftDown_iff_of_le (hi : ∀ c, 0 < c → c < n → parent c = i → a i ≤ a c) :
    SiftDown n lo a i ↔ OrderedFrom n lo a := by
  constructor
  · intro h c hpos hc hle
    rcases eq_or_ne (parent c) i with hpar | hpar
    · rw [hpar]
      exact hi c hpos hc hpar
    · exact h.rest c hpos hc hle hpar
  · refine fun h ↦ ⟨fun c hpos hc hle _ ↦ h c hpos hc hle, fun c hpos hc hpar hi' hle ↦ ?_⟩
    have hin : i < n := Nat.lt_trans (hpar ▸ parent_lt hpos) hc
    exact (h i hi' hin hle).trans (hi c hpos hc hpar)

/-- The exchange with the smallest child leaves exactly what is in order there. -/
theorem siftDown_exchange_iff (hlo : lo ≤ i) (hm : 0 < m) (hmn : m < n) (hpar : parent m = i)
    (hmin : ∀ c, 0 < c → c < n → parent c = i → a m ≤ a c) (hlt : a m < a i) :
    SiftDown n lo (exchange a i m) m ↔ SiftDown n lo a i := by
  have him : i < m := hpar ▸ parent_lt hm
  have hup : 0 < i → exchange a i m (parent i) = a (parent i) := fun hpos ↦
    exchange_of_ne (parent_lt hpos).ne (Nat.lt_trans (parent_lt hpos) him).ne
  constructor
  · intro h
    refine ⟨fun c hc hcn hle hne ↦ ?_, fun c hc hcn hci hpos hle ↦ ?_⟩
    · rcases eq_or_ne (parent c) m with hcm | hcm
      · have hle' := h.grand c hc hcn hcm hm (hpar.symm ▸ hlo)
        have hcm' : m < c := hcm ▸ parent_lt hc
        rwa [hpar, exchange_left, exchange_of_ne (Nat.lt_trans him hcm').ne' hcm'.ne',
          ← hcm] at hle'
      · have hle' := h.rest c hc hcn hle hcm
        rw [exchange_of_ne hne hcm] at hle'
        rcases eq_or_ne c i with rfl | hci
        · rw [exchange_left] at hle'
          exact hle'.trans hlt.le
        · have hcm' : c ≠ m := fun heq ↦ hne (heq ▸ hpar)
          rwa [exchange_of_ne hci hcm'] at hle'
    · have hle' := h.rest i hpos (Nat.lt_trans him hmn) hle
        (Nat.lt_trans (parent_lt hpos) him).ne
      rw [hup hpos, exchange_left] at hle'
      exact hle'.trans (hmin c hc hcn hci)
  · intro h
    refine ⟨fun c hc hcn hle hne ↦ ?_, fun c hc hcn hcm _ hle ↦ ?_⟩
    · rcases eq_or_ne c m with rfl | hcm
      · rw [hpar, exchange_left, exchange_right]
        exact hlt.le
      · rcases eq_or_ne c i with rfl | hci
        · rw [hup hc, exchange_left]
          exact h.grand m hm hmn hpar hc hle
        · rw [exchange_of_ne hci hcm]
          rcases eq_or_ne (parent c) i with hpi | hpi
          · rw [hpi, exchange_left]
            exact hmin c hc hcn hpi
          · rw [exchange_of_ne hpi hne]
            exact h.rest c hc hcn hle hpi
    · have hcm' : m < c := hcm ▸ parent_lt hc
      rw [hpar, exchange_left, exchange_of_ne (Nat.lt_trans him hcm').ne' hcm'.ne', ← hcm]
      exact h.rest c hc hcn (hcm.symm ▸ Nat.le_trans hlo him.le) (hcm.symm ▸ him.ne')

/-! ### The whole way down -/

/-- The element at `i` is exchanged with its smallest child, the first one if they are equal, as
long as this is smaller. It comes to rest at `j`, and leaves the array `b`. -/
inductive Sift (n : ℕ) : (ℕ → α) → ℕ → (ℕ → α) → ℕ → Prop
  | rest {a : ℕ → α} {i : ℕ} (h : ∀ c, 0 < c → c < n → parent c = i → a i ≤ a c) : Sift n a i a i
  | down {a b : ℕ → α} {i m j : ℕ} (hm : 0 < m) (hmn : m < n) (hpar : parent m = i)
    (hmin : ∀ c, 0 < c → c < n → parent c = i → a m ≤ a c)
    (hfirst : ∀ c, 0 < c → c < m → parent c = i → a m < a c) (hlt : a m < a i)
    (h : Sift n (exchange a i m) m b j) : Sift n a i b j

/-- An element moves to larger indices only. -/
theorem Sift.le {b : ℕ → α} (h : Sift n a i b j) : i ≤ j := by
  induction h with
  | rest h => exact Nat.le_refl _
  | down hm hmn hpar hmin hfirst hlt h ih => exact (hpar ▸ parent_lt hm).le.trans ih

/-- An element that moves stays within the array. -/
theorem Sift.eq_or_lt {b : ℕ → α} (h : Sift n a i b j) : j = i ∨ j < n := by
  induction h with
  | rest h => exact .inl rfl
  | down hm hmn hpar hmin hfirst hlt h ih =>
    rcases ih with rfl | hj
    · exact .inr hmn
    · exact .inr hj

/-- The way down is determined, since the first smallest child is taken. -/
theorem Sift.unique {b b' : ℕ → α} {j' : ℕ} (h : Sift n a i b j) (h' : Sift n a i b' j') :
    b = b' ∧ j = j' := by
  induction h with
  | rest h =>
    cases h' with
    | rest h' => exact ⟨rfl, rfl⟩
    | down hm hmn hpar hmin hfirst hlt h' => exact absurd (h _ hm hmn hpar) (not_le.2 hlt)
  | @down a b i m j hm hmn hpar hmin hfirst hlt h ih =>
    cases h' with
    | rest h' => exact absurd (h' _ hm hmn hpar) (not_le.2 hlt)
    | @down _ _ _ m' _ hm' hmn' hpar' hmin' hfirst' hlt' h' =>
      rcases Nat.lt_trichotomy m m' with hmm | rfl | hmm
      · exact absurd (hmin m' hm' hmn' hpar') (not_le.2 (hfirst' m hm hmm hpar))
      · exact ih h'
      · exact absurd (hmin' m hm hmn hpar) (not_le.2 (hfirst m' hm' hmm hpar'))

/-- Every element comes to rest, since each move leads to a larger index. -/
theorem exists_sift (n : ℕ) (a : ℕ → α) (i : ℕ) : ∃ b j, Sift n a i b j := by
  induction hd : n - i using Nat.strongRecOn generalizing a i with
  | ind d ih =>
    by_cases hrest : ∀ c, 0 < c → c < n → parent c = i → a i ≤ a c
    · exact ⟨a, i, .rest hrest⟩
    · -- the smallest child, the first one if both are equal
      obtain ⟨m, hm, hmn, hpar, hmin, hfirst, hlt⟩ : ∃ m, 0 < m ∧ m < n ∧ parent m = i ∧
          (∀ c, 0 < c → c < n → parent c = i → a m ≤ a c) ∧
          (∀ c, 0 < c → c < m → parent c = i → a m < a c) ∧ a m < a i := by
        push Not at hrest
        obtain ⟨c, hc, hcn, hpar, hlt⟩ := hrest
        have hcases := (parent_eq_iff hc).1 hpar
        by_cases hright : 2 * i + 2 < n ∧ a (2 * i + 2) < a (2 * i + 1)
        · refine ⟨2 * i + 2, by omega, hright.1, (parent_eq_iff (by omega)).2 (.inr rfl),
            fun c hc hcn hpar ↦ ?_, fun c hc hcm hpar ↦ ?_, ?_⟩
          · obtain rfl | rfl := (parent_eq_iff hc).1 hpar
            · exact hright.2.le
            · exact le_refl _
          · obtain rfl | rfl := (parent_eq_iff hc).1 hpar
            · exact hright.2
            · omega
          · obtain rfl | rfl := hcases
            · exact hright.2.trans hlt
            · exact hlt
        · have hle : 2 * i + 2 < n → a (2 * i + 1) ≤ a (2 * i + 2) := fun h ↦
            not_lt.1 fun h' ↦ hright ⟨h, h'⟩
          refine ⟨2 * i + 1, by omega, by omega, (parent_eq_iff (by omega)).2 (.inl rfl),
            fun c hc hcn hpar ↦ ?_, fun c hc hcm hpar ↦ ?_, ?_⟩
          · obtain rfl | rfl := (parent_eq_iff hc).1 hpar
            · exact le_refl _
            · exact hle hcn
          · have := (parent_eq_iff hc).1 hpar
            omega
          · obtain rfl | rfl := hcases
            · exact hlt
            · exact (hle hcn).trans_lt hlt
      have hlt' : i < m := hpar ▸ parent_lt hm
      obtain ⟨b, j, h⟩ := ih (n - m) (by omega) (exchange a i m) m rfl
      exact ⟨b, j, .down hm hmn hpar hmin hfirst hlt h⟩

/-- It leaves everything in order exactly if only its start was not. -/
theorem Sift.orderedFrom_iff {b : ℕ → α} (h : Sift n a i b j) (hlo : lo ≤ i) :
    OrderedFrom n lo b ↔ SiftDown n lo a i := by
  induction h with
  | rest h => exact (siftDown_iff_of_le h).symm
  | down hm hmn hpar hmin hfirst hlt h ih =>
    rw [ih (hlo.trans (hpar ▸ parent_lt hm).le), siftDown_exchange_iff hlo hm hmn hpar hmin hlt]

end HeapOrder
