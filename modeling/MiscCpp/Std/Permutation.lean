import MiscCpp.Library.Arrangement

/-!
# The next and the previous permutation

`my_next_permutation` and `my_prev_permutation` of `src/std`. They are one loop under the two
comparisons of `*i` with an element behind it, here `before`.

What the loop does to a range is `Rearranged`: it splits the range at the last position that is
`before` the one behind it, or finds that there is none. Undoing rests on `Rearranged.undone`, by
which the loop with the mirrored comparison splits the result at the same position and finds the
element that was there before.
-/

namespace Permutation

variable {α : Type*} (before : α → α → Bool)

/-! ### The loop -/

/-- `while (!(*i < *--i2));`, undefined where it leaves the range. -/
def swapPartner (l : List α) (i : ℕ) : ℕ → Option ℕ
  | 0 => none
  | i2 + 1 =>
    match l[i]?, l[i2]? with
    | some x, some y => if before x y then some i2 else swapPartner l i i2
    | _, _ => none

/-- `std::iter_swap(i, j)` -/
def iterSwap (l : List α) (i j : ℕ) : Option (List α) :=
  match l[i]?, l[j]? with
  | some x, some y => some ((l.set i y).set j x)
  | _, _ => none

/-- `std::reverse(i, last)` -/
def reverseFrom (l : List α) (i : ℕ) : List α := l.take i ++ (l.drop i).reverse

/-- The turns of `while (true)`, with `i` before `*--i`. -/
def scan (l : List α) : ℕ → Option (Bool × List α)
  | 0 => none
  | i + 1 =>
    match l[i]?, l[i + 1]? with
    | some x, some y =>
      if before x y then
        (swapPartner before l i l.length).bind fun i2 ↦
          (iterSwap l i i2).map fun swapped ↦ (true, reverseFrom swapped (i + 1))
      else if i = 0 then some (false, l.reverse)
      else scan l i
    | _, _ => none

/-- The next arrangement in the order that `before` gives, or the first one after the last. -/
def rearrange (l : List α) : Option (Bool × List α) :=
  if l.length = 0 then some (false, l)
  else if l.length - 1 = 0 then some (false, l)
  else scan before l (l.length - 1)

variable {before}

/-- What the loop makes of a range, with the value it returns. -/
inductive Rearranged (before : α → α → Bool) : List α → Bool × List α → Prop
  | split (pre : List α) {a b : α} {xs ys : List α} (hab : before a b)
      (hys : ∀ y ∈ ys, before a y = false) (hhead : ∀ x ∈ (xs ++ [b]).head?, before a x)
      (hchain : (xs ++ b :: ys).IsChain fun x y ↦ before x y = false) :
      Rearranged before (pre ++ a :: (xs ++ b :: ys)) (true, pre ++ b :: (xs ++ a :: ys).reverse)
  | wrap {l : List α} (hchain : l.IsChain fun x y ↦ before x y = false) :
      Rearranged before l (false, l.reverse)

/-- The search from the end finds the last element that the pivot comes before. -/
theorem swapPartner_eq {l : List α} {i i2 : ℕ} {a b : α} (ha : l[i]? = some a)
    (hb : l[i2]? = some b) (hab : before a b)
    (hafter : ∀ j, i2 < j → ∀ y, l[j]? = some y → before a y = false) {k : ℕ} (hk : i2 < k)
    (hlen : k ≤ l.length) : swapPartner before l i k = some i2 := by
  induction k with
  | zero => omega
  | succ k ih =>
    obtain rfl | hlt := Nat.eq_or_lt_of_le (Nat.le_of_lt_succ hk)
    · simp [swapPartner, ha, hb, hab]
    · have hget : l[k]? = some l[k] := List.getElem?_eq_getElem hlen
      simp [swapPartner, ha, hget, hafter k hlt _ hget, ih hlt (by omega)]

/-- An element behind the position `pre.length`. -/
theorem getElem?_behind (pre l : List α) (a : α) (n : ℕ) :
    (pre ++ a :: l)[pre.length + 1 + n]? = l[n]? := by
  rw [List.getElem?_append_right (by omega),
    show pre.length + 1 + n - pre.length = n + 1 by omega, List.getElem?_cons_succ]

theorem getElem?_at (pre l : List α) (a : α) : (pre ++ a :: l)[pre.length]? = some a := by
  simp

/-- The pivot and its partner are exchanged. -/
theorem iterSwap_eq (pre xs ys : List α) (a b : α) :
    iterSwap (pre ++ a :: (xs ++ b :: ys)) pre.length (pre.length + 1 + xs.length) =
      some (pre ++ b :: (xs ++ a :: ys)) := by
  simp only [iterSwap, getElem?_at, getElem?_behind]
  rw [List.set_append_right _ _ le_rfl, Nat.sub_self, List.set_cons_zero,
    List.set_append_right _ _ (by omega), show pre.length + 1 + xs.length - pre.length =
      xs.length + 1 by omega, List.set_cons_succ, List.set_append_right _ _ le_rfl,
    Nat.sub_self, List.set_cons_zero]

/-- What stands behind the pivot is reversed. -/
theorem reverseFrom_append (pre l : List α) (a : α) :
    reverseFrom (pre ++ a :: l) (pre.length + 1) = pre ++ a :: l.reverse := by
  rw [reverseFrom, List.take_append, List.drop_append, List.take_of_length_le (by omega),
    List.drop_eq_nil_of_le (by omega), Nat.add_sub_cancel_left]
  simp

/-- The turn at an ascent. -/
theorem scan_split (pre : List α) {a b : α} {xs ys : List α} (hab : before a b)
    (hys : ∀ y ∈ ys, before a y = false) (hhead : ∀ x ∈ (xs ++ [b]).head?, before a x) :
    scan before (pre ++ a :: (xs ++ b :: ys)) (pre.length + 1) =
      some (true, pre ++ b :: (xs ++ a :: ys).reverse) := by
  have hpartner : swapPartner before (pre ++ a :: (xs ++ b :: ys)) pre.length
      (pre ++ a :: (xs ++ b :: ys)).length = some (pre.length + 1 + xs.length) := by
    refine swapPartner_eq (getElem?_at _ _ _) ?_ hab (fun j hj y hy ↦ ?_) ?_ le_rfl
    · rw [getElem?_behind, getElem?_at]
    · obtain ⟨n, rfl⟩ := Nat.exists_eq_add_of_lt hj
      rw [show pre.length + 1 + xs.length + n + 1 = pre.length + 1 + (xs.length + 1 + n) by omega,
        getElem?_behind, getElem?_behind] at hy
      exact hys y (List.mem_of_getElem? hy)
    · simp only [List.length_append, List.length_cons]
      omega
  obtain ⟨x, l, hx⟩ : ∃ x l, xs ++ b :: ys = x :: l := by cases xs <;> simp
  have hax : before a x := hhead x (by cases xs <;> simp_all)
  have hnext : (pre ++ a :: (xs ++ b :: ys))[pre.length + 1]? = some x := by
    rw [← Nat.add_zero (pre.length + 1), getElem?_behind, hx, List.getElem?_cons_zero]
  simp only [scan, getElem?_at, hnext, hax, if_true, hpartner, Option.bind_some, iterSwap_eq,
    Option.map_some, reverseFrom_append]

/-- A turn without an ascent. -/
theorem scan_of_not_before {l : List α} {i : ℕ} {x y : α} (hx : l[i]? = some x)
    (hy : l[i + 1]? = some y) (h : before x y = false) :
    scan before l (i + 1) = if i = 0 then some (false, l.reverse) else scan before l i := by
  simp only [scan, hx, hy, h, Bool.false_eq_true, if_false]

/-- The scan passes the end that is in reversed order. -/
theorem scan_chain {suf : List α} {a : α} (pre : List α) (hpre : pre ≠ [])
    (hchain : (a :: suf).IsChain fun x y ↦ before x y = false) :
    scan before (pre ++ a :: suf) (pre.length + suf.length) =
      scan before (pre ++ a :: suf) pre.length := by
  induction suf generalizing pre a with
  | nil => rfl
  | cons x suf ih =>
    obtain ⟨hax, hchain⟩ := List.isChain_cons_cons.1 hchain
    have hturn := ih (pre ++ [a]) (by simp) hchain
    rw [List.length_append, List.length_singleton, List.append_assoc,
      List.singleton_append] at hturn
    rw [List.length_cons, Nat.add_comm suf.length, ← Nat.add_assoc, hturn,
      scan_of_not_before (getElem?_at _ _ _) (getElem?_behind _ _ _ 0) hax,
      if_neg (mt List.length_eq_zero_iff.1 hpre)]

/-- The function does what the relation says. -/
theorem rearrange_of_rearranged {l : List α} {r : Bool × List α} (h : Rearranged before l r) :
    rearrange before l = some r := by
  cases h with
  | @split pre a b xs ys hab hys hhead hchain =>
    have hscan := scan_split pre hab hys hhead
    obtain ⟨x, suf, hx⟩ : ∃ x suf, xs ++ b :: ys = x :: suf := by cases xs <;> simp
    rw [hx] at hchain hscan ⊢
    have hturns := scan_chain (pre ++ [a]) (by simp) hchain
    rw [List.append_assoc, List.singleton_append, List.length_append, List.length_singleton]
      at hturns
    have hlen : (pre ++ a :: x :: suf).length - 1 = pre.length + 1 + suf.length := by
      simp only [List.length_append, List.length_cons]
      omega
    rw [rearrange, if_neg (by simp), if_neg (by omega), hlen, hturns, hscan]
  | wrap hchain =>
    match l with
    | [] => rfl
    | [a] => rfl
    | a :: x :: suf =>
      obtain ⟨hax, htail⟩ := List.isChain_cons_cons.1 hchain
      have hturns := scan_chain [a] (by simp) htail
      have hlast := scan_of_not_before (l := a :: x :: suf) (i := 0) rfl rfl hax
      rw [rearrange, if_neg (by simp), if_neg (by simp)]
      show scan before (a :: x :: suf) (suf.length + 1) = _
      rw [Nat.add_comm]
      exact hturns.trans hlast

/-- The last element that comes after `a`. -/
theorem exists_partner {a : α} {l : List α} (h : ∃ x ∈ l, before a x) :
    ∃ xs b ys, l = xs ++ b :: ys ∧ before a b ∧ ∀ y ∈ ys, before a y = false := by
  induction l with
  | nil => simp at h
  | cons c l ih =>
    by_cases hl : ∃ x ∈ l, before a x
    · obtain ⟨xs, b, ys, rfl, hab, hys⟩ := ih hl
      exact ⟨c :: xs, b, ys, rfl, hab, hys⟩
    · have hl' : ∀ y ∈ l, before a y = false := fun y hy ↦
        Bool.eq_false_iff.2 fun hay ↦ hl ⟨y, hy, hay⟩
      obtain ⟨x, hx, hax⟩ := h
      obtain rfl | hx := List.mem_cons.1 hx
      · exact ⟨[], x, l, rfl, hax, hl'⟩
      · exact absurd ⟨x, hx, hax⟩ hl

/-- Every list can be rearranged. -/
theorem Rearranged.exists (before : α → α → Bool) (l : List α) : ∃ r, Rearranged before l r := by
  induction l with
  | nil => exact ⟨_, .wrap .nil⟩
  | cons a l ih =>
    obtain ⟨r, hr⟩ := ih
    cases hr with
    | split pre hab hys hhead hchain => exact ⟨_, .split (a :: pre) hab hys hhead hchain⟩
    | wrap hchain =>
      match l with
      | [] => exact ⟨_, .wrap (.singleton a)⟩
      | x :: l =>
        obtain hax | hax := Bool.eq_false_or_eq_true (before a x)
        · obtain ⟨xs, b, ys, hl, hab, hys⟩ := exists_partner ⟨x, List.mem_cons_self, hax⟩
          have hhead : ∀ y ∈ (xs ++ [b]).head?, before a y := by
            cases xs <;> simp_all
          rw [hl] at hchain ⊢
          exact ⟨_, .split [] hab hys hhead hchain⟩
        · exact ⟨_, .wrap (.cons_cons hax hchain)⟩

/-- **The function** is the relation. -/
theorem rearrange_eq_some {l : List α} {r : Bool × List α} :
    rearrange before l = some r ↔ Rearranged before l r := by
  refine ⟨fun h ↦ ?_, rearrange_of_rearranged⟩
  obtain ⟨r', hr'⟩ := Rearranged.exists before l
  rw [rearrange_of_rearranged hr', Option.some.injEq] at h
  exact h ▸ hr'

/-! ### The mirrored comparison -/

/-- What a comparison function has to satisfy: a strict weak order. -/
structure Compares (before : α → α → Bool) : Prop where
  trans {a b c : α} (hab : before a b) (hbc : before b c) : before a c
  cotrans {a c : α} (hac : before a c) (b : α) : before a b ∨ before b c

theorem Compares.not_trans (h : Compares before) {a b c : α} (hab : before a b = false)
    (hbc : before b c = false) : before a c = false := by
  refine Bool.eq_false_iff.2 fun hac ↦ ?_
  obtain hab' | hbc' := h.cotrans hac b
  · rw [hab] at hab'
    cases hab'
  · rw [hbc] at hbc'
    cases hbc'

theorem Compares.pairwise (h : Compares before) {l : List α}
    (hchain : l.IsChain fun x y ↦ before x y = false) :
    l.Pairwise fun x y ↦ before x y = false := by
  have : Trans (fun x y ↦ before x y = false) (fun x y ↦ before x y = false)
    (fun x y ↦ before x y = false) := ⟨h.not_trans⟩
  exact hchain.pairwise

/-- **Undoing.** The partner that went forward is the one that the mirrored comparison finds. -/
theorem Rearranged.undone (h : Compares before) {l l' : List α} {c : Bool}
    (hr : Rearranged before l (c, l')) : Rearranged (fun x y ↦ before y x) l' (c, l) := by
  cases hr with
  | @split pre a b xs ys hab hys hhead hchain =>
    obtain ⟨hxs, htail, hcross⟩ := List.pairwise_append.1 (h.pairwise hchain)
    have hxb : ∀ x ∈ xs, before x b = false := fun x hx ↦ hcross x hx b List.mem_cons_self
    have hyb : ∀ y ∈ ys, before y b := by
      intro y hy
      have hay := h.cotrans hab y
      rw [hys y hy] at hay
      exact hay.resolve_left Bool.false_ne_true
    have hxa : ∀ x ∈ xs, before x a = false := by
      intro x hx
      refine Bool.eq_false_iff.2 fun hxa ↦ ?_
      have hxb' := h.trans hxa hab
      rw [hxb x hx] at hxb'
      cases hxb'
    have hback : (xs ++ a :: ys).Pairwise fun x y ↦ before x y = false := by
      refine List.pairwise_append.2 ⟨hxs, List.pairwise_cons.2 ⟨hys, htail.of_cons⟩, ?_⟩
      intro x hx y hy
      obtain rfl | hy := List.mem_cons.1 hy
      · exact hxa x hx
      · exact hcross x hx y (List.mem_cons_of_mem b hy)
    have hl : pre ++ a :: (xs ++ b :: ys) =
        pre ++ a :: (ys.reverse ++ b :: xs.reverse).reverse := by
      simp
    have hl' : (xs ++ a :: ys).reverse = ys.reverse ++ a :: xs.reverse := by simp
    rw [hl, hl']
    -- of the elements behind `b` now, `a` is the last one that comes before it
    refine .split pre hab (fun x hx ↦ hxb x (List.mem_reverse.1 hx)) (fun x hx ↦ ?_) ?_
    · obtain hx | hx := List.mem_append.1 (List.mem_of_head? hx)
      · exact hyb x (List.mem_reverse.1 hx)
      · exact List.mem_singleton.1 hx ▸ hab
    · rw [← hl']
      exact (List.pairwise_reverse.2 hback).isChain
  | wrap hchain =>
    nth_rewrite 2 [← l.reverse_reverse]
    exact .wrap (List.pairwise_reverse.2 (h.pairwise hchain)).isChain

/-- The result is `false` exactly from the last arrangement. -/
theorem Rearranged.eq_false_iff (h : Compares before) {l l' : List α} {c : Bool}
    (hr : Rearranged before l (c, l')) :
    c = false ↔ l.Pairwise fun x y ↦ before x y = false := by
  cases hr with
  | @split pre a b xs ys hab =>
    refine iff_of_false Bool.noConfusion fun hl ↦ ?_
    have htail := List.pairwise_cons.1 (List.pairwise_append.1 hl).2.1
    rw [htail.1 b (by simp)] at hab
    cases hab
  | wrap hchain => exact iff_of_true rfl (h.pairwise hchain)

theorem exists_undone (h : Compares before) (l : List α) :
    ∃ c l', rearrange before l = some (c, l') ∧
      rearrange (fun x y ↦ before y x) l' = some (c, l) ∧
      (c = false ↔ l.Pairwise fun x y ↦ before x y = false) := by
  obtain ⟨⟨c, l'⟩, hr⟩ := Rearranged.exists before l
  exact ⟨c, l', rearrange_eq_some.2 hr, rearrange_eq_some.2 (hr.undone h), hr.eq_false_iff h⟩

/-! ### The two functions -/

variable [LinearOrder α]

/-- `my_next_permutation` -/
def myNextPermutation (l : List α) : Option (Bool × List α) := rearrange (fun x y ↦ x < y) l

/-- `my_prev_permutation` -/
def myPrevPermutation (l : List α) : Option (Bool × List α) := rearrange (fun x y ↦ y < x) l

/-- The order compares. -/
theorem compares_lt : Compares fun x y : α ↦ x < y where
  trans hab hbc := decide_eq_true ((of_decide_eq_true hab).trans (of_decide_eq_true hbc))
  cotrans {a c} hac b := by
    simp only [decide_eq_true_eq] at hac ⊢
    exact hac.gt_or_lt b

/-- The reversed order compares. -/
theorem compares_gt : Compares fun x y : α ↦ y < x where
  trans hab hbc := decide_eq_true ((of_decide_eq_true hbc).trans (of_decide_eq_true hab))
  cotrans {a c} hac b := by
    simp only [decide_eq_true_eq] at hac ⊢
    exact (hac.gt_or_lt b).symm

/-- **Previous undoes next, and next previous.** Each returns what the other one does: false exactly
where the range wraps around, `true` everywhere else. -/
theorem next_and_previous (l : List α) :
    (∃ c l', myNextPermutation l = some (c, l') ∧ myPrevPermutation l' = some (c, l) ∧
      (c = false ↔ l.Pairwise (· ≥ ·))) ∧
    (∃ c l', myPrevPermutation l = some (c, l') ∧ myNextPermutation l' = some (c, l) ∧
      (c = false ↔ l.Pairwise (· ≤ ·))) := by
  have hnext := exists_undone compares_lt l
  have hprev := exists_undone compares_gt l
  simp only [decide_eq_false_iff_not, not_lt] at hnext hprev
  exact ⟨hnext, hprev⟩

end Permutation
