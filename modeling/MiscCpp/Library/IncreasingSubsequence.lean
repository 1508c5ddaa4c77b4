import Mathlib.Data.List.Basic
import Mathlib.Order.Bounds.Basic
import Mathlib.Order.Lattice
import Mathlib.Tactic.Common

/-!
# Longest increasing subsequences

`Increasing l xs` says that `l` is a strictly increasing subsequence of `xs`. There are two ways to
their largest length: by the last element of `l` (`isGreatest_endings_succ`), and by the smallest
last element for each length (`IsTails.place`).
-/

namespace IncreasingSubsequence

variable {α : Type*} {l xs tails : List α} {s t x y : α} {k m p : ℕ}

/-- A sublist of a longer list, without its last element or with it. -/
theorem sublist_concat_iff :
    l.Sublist (xs ++ [x]) ↔ l.Sublist xs ∨ ∃ l', l = l' ++ [x] ∧ l'.Sublist xs := by
  rw [List.sublist_append_iff]
  constructor
  · rintro ⟨l₁, l₂, rfl, h₁, h₂⟩
    rcases List.sublist_singleton.1 h₂ with rfl | rfl
    · exact Or.inl (by rwa [List.append_nil])
    · exact Or.inr ⟨l₁, rfl, h₁⟩
  · rintro (h | ⟨l', rfl, h⟩)
    · exact ⟨l, [], (List.append_nil l).symm, h, List.nil_sublist _⟩
    · exact ⟨l', [x], rfl, h, List.Sublist.refl _⟩

/-- A sublist with its last element ends somewhere in the list. -/
theorem exists_take_of_concat_sublist (h : (l ++ [x]).Sublist xs) :
    ∃ i, xs[i]? = some x ∧ l.Sublist (xs.take i) := by
  obtain ⟨r₁, r₂, rfl, hl, hx⟩ := List.append_sublist_iff.1 h
  obtain ⟨r, r', rfl⟩ := List.append_of_mem (List.singleton_sublist.1 hx)
  refine ⟨(r₁ ++ r).length, ?_, ?_⟩
  · rw [← List.append_assoc, List.getElem?_append_right (Nat.le_refl _), Nat.sub_self]
    rfl
  · rw [← List.append_assoc, List.take_left]
    exact hl.trans (List.sublist_append_left r₁ r)

/-- The element `x` at the index `p`, at which there may be none yet. -/
def place (tails : List α) (p : ℕ) (x : α) : List α :=
  if p < tails.length then tails.set p x else tails ++ [x]

/-- Placing an element changes that position alone, or is the next one. -/
theorem getElem?_place (hp : p ≤ tails.length) (x : α) (k : ℕ) :
    (place tails p x)[k]? = if k = p then some x else tails[k]? := by
  rw [place]
  split
  next hlt =>
    split
    next heq => rw [heq, List.getElem?_set_self hlt]
    next hne => rw [List.getElem?_set_ne (Ne.symm hne)]
  next hge =>
    obtain rfl : p = tails.length := by omega
    split
    next heq => rw [heq, List.getElem?_append_right (Nat.le_refl _), Nat.sub_self]; rfl
    next hne =>
      rcases Nat.lt_or_ge k tails.length with hlt | hle
      · rw [List.getElem?_append_left hlt]
      · rw [List.getElem?_eq_none hle, List.getElem?_eq_none]
        rw [List.length_append, List.length_singleton]
        omega

variable [LinearOrder α]

/-- An increasing subsequence. -/
structure Increasing (l xs : List α) : Prop where
  sublist : l.Sublist xs
  pairwise : l.Pairwise (· < ·)

/-- The lengths of increasing subsequences. -/
def lengths (xs : List α) : Set ℕ := {k | ∃ l, Increasing l xs ∧ l.length = k}

theorem pairwise_concat :
    (l ++ [x]).Pairwise (· < ·) ↔ l.Pairwise (· < ·) ∧ ∀ y ∈ l, y < x := by
  simp [List.pairwise_append]

theorem Increasing.init (h : Increasing (l ++ [x]) xs) : Increasing l xs :=
  ⟨(List.sublist_append_left l [x]).trans h.sublist, (pairwise_concat.1 h.pairwise).1⟩

theorem Increasing.append (h : Increasing l xs) (ys : List α) : Increasing l (xs ++ ys) :=
  ⟨h.sublist.trans (List.sublist_append_left xs ys), h.pairwise⟩

/-! ### By the last element -/

/-- The lengths of increasing subsequences of `xs` with `x` behind. -/
def endings (xs : List α) (x : α) : Set ℕ :=
  {k | ∃ l, l.Sublist xs ∧ (l ++ [x]).Pairwise (· < ·) ∧ l.length + 1 = k}

/-- In front of everything, an element is a subsequence by itself. -/
theorem isGreatest_endings_nil (x : α) : IsGreatest (endings [] x) 1 := by
  refine ⟨⟨[], List.Sublist.refl _, List.pairwise_singleton _ _, rfl⟩, ?_⟩
  rintro k ⟨l, hsub, -, rfl⟩
  rw [List.sublist_nil.1 hsub]
  exact Nat.le_refl 1

/-- The element `y` may come before `x`, behind a longest subsequence that ends with it. -/
theorem isGreatest_endings_concat {a b : ℕ} (hx : IsGreatest (endings xs x) a)
    (hy : IsGreatest (endings xs y) b) :
    IsGreatest (endings (xs ++ [y]) x) (if y < x then max a (b + 1) else a) := by
  have hold : a ∈ endings (xs ++ [y]) x := by
    obtain ⟨l, hsub, hl⟩ := hx.1
    exact ⟨l, hsub.trans (List.sublist_append_left xs [y]), hl⟩
  have hnew (h : y < x) : b + 1 ∈ endings (xs ++ [y]) x := by
    obtain ⟨l, hsub, hl, hlen⟩ := hy.1
    refine ⟨l ++ [y], hsub.append_right [y], pairwise_concat.2 ⟨hl, fun z hz ↦ ?_⟩, ?_⟩
    · rcases List.mem_append.1 hz with hz | hz
      · exact ((pairwise_concat.1 hl).2 z hz).trans h
      · rwa [List.mem_singleton.1 hz]
    · rw [List.length_append, List.length_singleton, hlen]
  constructor
  · split
    next h =>
      rcases Nat.le_total a (b + 1) with hle | hle
      · exact (Nat.max_eq_right hle).symm ▸ hnew h
      · exact (Nat.max_eq_left hle).symm ▸ hold
    next => exact hold
  · rintro k ⟨l, hsub, hl, rfl⟩
    rcases sublist_concat_iff.1 hsub with hsub | ⟨l', rfl, hinit⟩
    · have hle : l.length + 1 ≤ a := hx.2 ⟨l, hsub, hl, rfl⟩
      split <;> omega
    · have hyx : y < x := (pairwise_concat.1 hl).2 y (by simp)
      have hle : l'.length + 1 ≤ b := hy.2 ⟨l', hinit, (pairwise_concat.1 hl).1, rfl⟩
      rw [if_pos hyx, List.length_append, List.length_singleton]
      omega

/-- A longest increasing subsequence is a longest one for its last element. -/
theorem isGreatest_lengths {f : ℕ → ℕ}
    (hf : ∀ i x, xs[i]? = some x → IsGreatest (endings (xs.take i) x) (f i))
    (hk : IsGreatest {k | ∃ i < xs.length, f i = k} k) : IsGreatest (lengths xs) k := by
  constructor
  · obtain ⟨i, hi, rfl⟩ := hk.1
    obtain ⟨l, hsub, hl, hlen⟩ := (hf i xs[i] (List.getElem?_eq_getElem hi)).1
    refine ⟨l ++ [xs[i]], ⟨?_, hl⟩, by rw [List.length_append, List.length_singleton, hlen]⟩
    have htake := hsub.append_right [xs[i]]
    rw [← List.take_succ_eq_append_getElem hi] at htake
    exact htake.trans (List.take_sublist _ _)
  · rintro m ⟨l, hl, rfl⟩
    rcases List.eq_nil_or_concat' l with rfl | ⟨l', x, rfl⟩
    · exact Nat.zero_le k
    · obtain ⟨i, hi, hsub⟩ := exists_take_of_concat_sublist hl.sublist
      have hle : l'.length + 1 ≤ f i := (hf i x hi).2 ⟨l', hsub, hl.pairwise, rfl⟩
      rw [List.length_append, List.length_singleton]
      exact hle.trans (hk.2 ⟨i, (List.getElem?_eq_some_iff.1 hi).1, rfl⟩)

/-! ### By the smallest last elements -/

/-- The `k`-th element of `tails` is the smallest last element of an increasing subsequence of
length `k + 1`. -/
structure IsTails (xs tails : List α) : Prop where
  attained : ∀ k t, tails[k]? = some t → ∃ l, Increasing (l ++ [t]) xs ∧ l.length = k
  least : ∀ l t, Increasing (l ++ [t]) xs → ∃ s, tails[l.length]? = some s ∧ s ≤ t

theorem isTails_nil : IsTails ([] : List α) [] where
  attained k t h := by cases h
  least l t h := by
    have hnil := List.sublist_nil.1 h.sublist
    exact absurd hnil (List.append_ne_nil_of_right_ne_nil l (List.cons_ne_nil t []))

theorem IsTails.lt_succ (h : IsTails xs tails) (hs : tails[k]? = some s)
    (ht : tails[k + 1]? = some t) : s < t := by
  obtain ⟨l, hl, hlen⟩ := h.attained (k + 1) t ht
  rcases List.eq_nil_or_concat' l with rfl | ⟨l', y, rfl⟩
  · cases hlen
  · rw [List.length_append, List.length_singleton, Nat.add_right_cancel_iff] at hlen
    obtain ⟨s', hs', hle⟩ := h.least l' y hl.init
    rw [hlen, hs] at hs'
    rw [Option.some.inj hs']
    exact hle.trans_lt ((pairwise_concat.1 hl.pairwise).2 y (by simp))

theorem IsTails.strictAsc (h : IsTails xs tails) : tails.Pairwise (· < ·) := by
  refine List.isChain_iff_pairwise.1 (List.isChain_iff_getElem.2 fun i hi ↦ ?_)
  exact h.lt_succ (List.getElem?_eq_getElem _) (List.getElem?_eq_getElem _)

/-- **The number of smallest last elements** is the largest length. -/
theorem IsTails.isGreatest (h : IsTails xs tails) : IsGreatest (lengths xs) tails.length := by
  constructor
  · rcases List.eq_nil_or_concat' tails with rfl | ⟨tails', t, rfl⟩
    · exact ⟨[], ⟨List.nil_sublist _, .nil⟩, rfl⟩
    · obtain ⟨l, hl, hlen⟩ := h.attained tails'.length t (by simp)
      exact ⟨l ++ [t], hl, by rw [List.length_append, List.length_append, hlen]⟩
  · rintro k ⟨l, hl, rfl⟩
    rcases List.eq_nil_or_concat' l with rfl | ⟨l', t, rfl⟩
    · exact Nat.zero_le _
    · obtain ⟨s, hs, -⟩ := h.least l' t hl
      have hlt := (List.getElem?_eq_some_iff.1 hs).1
      rw [List.length_append, List.length_singleton]
      exact hlt

/-- **One element more** takes the place of the first tail that is not less, or is one more tail
itself. -/
theorem IsTails.place (h : IsTails xs tails) (hp : p ≤ tails.length)
    (hlt : ∀ k < p, ∀ s, tails[k]? = some s → s < x)
    (hge : ∀ k ≥ p, ∀ s, tails[k]? = some s → x ≤ s) :
    IsTails (xs ++ [x]) (place tails p x) where
  attained k t ht := by
    rw [getElem?_place hp] at ht
    split at ht
    next heq =>
      obtain rfl := Option.some.inj ht
      obtain rfl := heq
      cases k with
      | zero => exact ⟨[], ⟨List.sublist_append_right xs [x], List.pairwise_singleton _ _⟩, rfl⟩
      | succ k =>
        obtain ⟨s, hs⟩ : ∃ s, tails[k]? = some s := ⟨_, List.getElem?_eq_getElem (by omega)⟩
        have hsx := hlt k (Nat.lt_succ_self k) s hs
        obtain ⟨l, hl, hlen⟩ := h.attained k s hs
        refine ⟨l ++ [s], ⟨hl.sublist.append_right [x], pairwise_concat.2 ⟨hl.pairwise, ?_⟩⟩, ?_⟩
        · intro z hz
          rcases List.mem_append.1 hz with hz | hz
          · exact ((pairwise_concat.1 hl.pairwise).2 z hz).trans hsx
          · rwa [List.mem_singleton.1 hz]
        · rw [List.length_append, List.length_singleton, hlen]
    next hne =>
      obtain ⟨l, hl, hlen⟩ := h.attained k t ht
      exact ⟨l, hl.append [x], hlen⟩
  least l t hl := by
    rw [getElem?_place hp]
    rcases sublist_concat_iff.1 hl.sublist with hsub | ⟨l', heq, hsub⟩
    · obtain ⟨s, hs, hle⟩ := h.least l t ⟨hsub, hl.pairwise⟩
      split
      next hlen => exact ⟨x, rfl, (hge l.length hlen.ge s hs).trans hle⟩
      next => exact ⟨s, hs, hle⟩
    · obtain ⟨rfl, hxt⟩ := List.append_inj' heq rfl
      obtain rfl := (List.cons.inj hxt).1
      split
      next => exact ⟨t, rfl, le_refl t⟩
      next hne =>
        -- The tail for the length before is less than `t`, so this one is in front of `p`.
        have hbefore : l.length < p := by
          rcases List.eq_nil_or_concat' l with rfl | ⟨l₁, y, rfl⟩
          · exact Nat.pos_of_ne_zero (Ne.symm hne)
          · obtain ⟨s, hs, hle⟩ := h.least l₁ y ⟨hsub, hl.init.pairwise⟩
            have hyt : y < t := (pairwise_concat.1 hl.pairwise).2 y (by simp)
            rw [List.length_append, List.length_singleton] at hne ⊢
            by_contra hlen
            exact absurd (hge l₁.length (by omega) s hs) (not_le.2 (hle.trans_lt hyt))
        obtain ⟨s, hs⟩ : ∃ s, tails[l.length]? = some s :=
          ⟨_, List.getElem?_eq_getElem (by omega)⟩
        exact ⟨s, hs, (hlt l.length hbefore s hs).le⟩

end IncreasingSubsequence
