import Mathlib.Data.Finset.Card
import Mathlib.Data.Finset.Filter
import Mathlib.Data.List.Lex
import Mathlib.Data.List.Permutation
import Mathlib.Order.Lattice
import Mathlib.Tactic.Common

/-!
# The arrangements of a list in lexicographic order

The arrangements of a list are its permutations as lists, equal elements not told apart. A list that
descends is the last of its arrangements (`isLast_of_pairwise_ge`), one that ascends the first
(`le_of_pairwise_le`). Any other splits at its last ascent, where the next arrangement is got
(`isNext_of_split`); by `IsNext.append` what stands before it does not matter.
-/

namespace Arrangement

variable {α : Type*} [LinearOrder α] {l l' m : List α}

/-- `l'` is the arrangement of `l` that follows it immediately. -/
structure IsNext (l l' : List α) : Prop where
  perm : l'.Perm l
  lt : l < l'
  le {m : List α} (hm : m.Perm l) (h : l < m) : l' ≤ m

/-- No arrangement of the elements is greater. -/
def IsLast (l : List α) : Prop := ∀ m : List α, m.Perm l → m ≤ l

theorem cons_lt_cons_iff {a b : α} : a :: l < b :: m ↔ a < b ∨ a = b ∧ l < m :=
  List.cons_lt_cons_iff

/-! ### First and last -/

/-- In ascending order, the elements are the first arrangement. -/
theorem le_of_pairwise_le (hl : l.Pairwise (· ≤ ·)) (hm : m.Perm l) : l ≤ m := by
  induction l generalizing m with
  | nil => rw [hm.eq_nil]
  | cons a l ih =>
    obtain ⟨ha, htail⟩ := List.pairwise_cons.1 hl
    cases m with
    | nil => exact absurd hm.symm.eq_nil (List.cons_ne_nil a l)
    | cons b m =>
      have hb : b = a ∨ b ∈ l := List.mem_cons.1 (hm.subset List.mem_cons_self)
      have hab : a ≤ b := hb.elim (fun h ↦ h.ge) (ha b)
      obtain hab | rfl := hab.lt_or_eq
      · exact (cons_lt_cons_iff.2 (.inl hab)).le
      · exact List.cons_le_cons a (ih htail (List.perm_cons a |>.1 hm))

/-- In descending order, the elements are the last arrangement. -/
theorem isLast_of_pairwise_ge (hl : l.Pairwise (· ≥ ·)) : IsLast l := by
  intro m hm
  induction l generalizing m with
  | nil => rw [hm.eq_nil]
  | cons a l ih =>
    obtain ⟨ha, htail⟩ := List.pairwise_cons.1 hl
    cases m with
    | nil => exact absurd hm.symm.eq_nil (List.cons_ne_nil a l)
    | cons b m =>
      have hb : b = a ∨ b ∈ l := List.mem_cons.1 (hm.subset List.mem_cons_self)
      have hba : b ≤ a := hb.elim (fun h ↦ h.le) (ha b)
      obtain hba | rfl := hba.lt_or_eq
      · exact (cons_lt_cons_iff.2 (.inl hba)).le
      · exact List.cons_le_cons b (ih htail m (List.perm_cons b |>.1 hm))

/-! ### The next one -/

/-- A common first element does not change what comes next. -/
theorem IsNext.cons (h : IsNext l l') (a : α) : IsNext (a :: l) (a :: l') where
  perm := h.perm.cons a
  lt := cons_lt_cons_iff.2 (.inr ⟨rfl, h.lt⟩)
  le {m} hm hlt := by
    cases m with
    | nil => exact absurd hlt (List.not_lt_nil _)
    | cons b m =>
      obtain hab | ⟨hab, htail⟩ := cons_lt_cons_iff.1 hlt
      · exact (cons_lt_cons_iff.2 (.inl hab)).le
      · rw [← hab] at hm ⊢
        exact List.cons_le_cons a (h.le (List.perm_cons a |>.1 hm) htail)

/-- A common beginning does not change what comes next. -/
theorem IsNext.append (h : IsNext l l') : (pre : List α) → IsNext (pre ++ l) (pre ++ l')
  | [] => h
  | a :: pre => (h.append pre).cons a

omit [LinearOrder α] in
theorem swap_perm (a b : α) (xs ys : List α) :
    (b :: (xs ++ a :: ys).reverse).Perm (a :: (xs ++ b :: ys)) := by
  refine ((List.reverse_perm _).cons b).trans ((List.perm_middle.cons b).trans ?_)
  exact (List.Perm.swap a b _).trans (List.perm_middle.symm.cons a)

/-- The least element greater than `a` of a descending list can be replaced by `a`. -/
theorem pairwise_ge_swap {a b : α} {xs ys : List α} (hab : a < b) (hys : ∀ y ∈ ys, y ≤ a)
    (hdesc : (xs ++ b :: ys).Pairwise (· ≥ ·)) : (xs ++ a :: ys).Pairwise (· ≥ ·) := by
  obtain ⟨hxs, htail, hcross⟩ := List.pairwise_append.1 hdesc
  refine List.pairwise_append.2 ⟨hxs, List.pairwise_cons.2 ⟨hys, htail.of_cons⟩, ?_⟩
  intro x hx y hy
  obtain rfl | hy := List.mem_cons.1 hy
  · exact hab.le.trans (hcross x hx b List.mem_cons_self)
  · exact hcross x hx y (List.mem_cons_of_mem b hy)

/-- **The next arrangement.** Behind an ascent from `a` the list descends: the least element there
that is greater than `a` changes places with it, and what follows is reversed. -/
theorem isNext_of_split {a b : α} {xs ys : List α} (hab : a < b) (hys : ∀ y ∈ ys, y ≤ a)
    (hdesc : (xs ++ b :: ys).Pairwise (· ≥ ·)) :
    IsNext (a :: (xs ++ b :: ys)) (b :: (xs ++ a :: ys).reverse) where
  perm := swap_perm a b xs ys
  lt := cons_lt_cons_iff.2 (.inl hab)
  le {m} hm hlt := by
    cases m with
    | nil => exact absurd hlt (List.not_lt_nil _)
    | cons c m =>
      obtain hac | ⟨hac, htail⟩ := cons_lt_cons_iff.1 hlt
      · -- the head is one of the elements greater than `a`, of which `b` is the least
        have hc : c ∈ xs ++ b :: ys :=
          (List.mem_cons.1 (hm.subset List.mem_cons_self)).resolve_left hac.ne'
        have hbc : b ≤ c := by
          obtain hc | hc := List.mem_append.1 hc
          · exact (List.pairwise_append.1 hdesc).2.2 c hc b List.mem_cons_self
          · obtain rfl | hc := List.mem_cons.1 hc
            · exact le_rfl
            · exact absurd (hys c hc) (not_le_of_gt hac)
        obtain hbc | rfl := hbc.lt_or_eq
        · exact (cons_lt_cons_iff.2 (.inl hbc)).le
        · have hsorted := List.pairwise_reverse.2 (pairwise_ge_swap hab hys hdesc)
          have hperm := hm.trans (swap_perm a b xs ys).symm
          exact List.cons_le_cons b (le_of_pairwise_le hsorted (List.perm_cons b |>.1 hperm))
      · rw [← hac] at hm
        have hle := isLast_of_pairwise_ge hdesc m (List.perm_cons a |>.1 hm)
        exact absurd htail (not_lt_of_ge hle)

/-! ### Enumeration -/

/-- From the last arrangement on there is only itself. -/
theorem IsLast.perm_and_le_iff (h : IsLast l) : m.Perm l ∧ l ≤ m ↔ m = l :=
  ⟨fun ⟨hm, hle⟩ ↦ le_antisymm (h m hm) hle, by rintro rfl; exact ⟨.refl _, le_rfl⟩⟩

/-- From an arrangement on there is itself, and then what there is from the next one on. -/
theorem IsNext.perm_and_le_iff (h : IsNext l l') :
    m.Perm l ∧ l ≤ m ↔ m = l ∨ m.Perm l' ∧ l' ≤ m := by
  constructor
  · rintro ⟨hm, hle⟩
    obtain hlt | rfl := hle.lt_or_eq
    · exact .inr ⟨hm.trans h.perm.symm, h.le hm hlt⟩
    · exact .inl rfl
  · rintro (rfl | ⟨hm, hle⟩)
    · exact ⟨.refl _, le_rfl⟩
    · exact ⟨hm.trans h.perm, h.lt.le.trans hle⟩

/-- How many arrangements follow `l`. -/
def following (l : List α) : ℕ := (l.permutations.toFinset.filter (l < ·)).card

/-- The number of arrangements still to come gets smaller. -/
theorem IsNext.following_lt (h : IsNext l l') : following l' < following l := by
  refine Finset.card_lt_card (Finset.ssubset_iff_of_subset ?_ |>.2 ⟨l', ?_, ?_⟩)
  · intro m hm
    simp only [Finset.mem_filter, List.mem_toFinset, List.mem_permutations] at hm ⊢
    exact ⟨hm.1.trans h.perm, h.lt.trans hm.2⟩
  · simp only [Finset.mem_filter, List.mem_toFinset, List.mem_permutations]
    exact ⟨h.perm, h.lt⟩
  · simp only [Finset.mem_filter, lt_irrefl, and_false, not_false_eq_true]

end Arrangement
