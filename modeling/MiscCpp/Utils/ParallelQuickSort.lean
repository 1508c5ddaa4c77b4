import MiscCpp.Library.StdAlgorithm

/-!
# Quick sort with a comparison

`quicksort` of `utils/parallelQuickSort.cc`, for every implementation of `std::sort` and
`std::partition` with the documented behaviour; each call may have another one. The two tasks have
disjoint parts of the range, so what they leave does not depend on their order.

Two things are not as the comparison wants it. A small range is sorted with `<`. And the second
partition is over the whole range, so that it may mix what the first one has separated: the elements
that belong in front of the pivot with those that are equivalent to it. So the comparison is
honoured exactly if there is nothing in front of the pivot, and the parts that are sorted with `<`
are in order then (`quicksort_iff`).
-/

open StdAlgorithm

namespace GenericQuickSort

variable {α : Type*} (lt comp : α → α → Bool)

/-- `quicksort`, where `lt` is the `<` of the elements. The implementation that the call uses is
`std []`. -/
def quicksort : ℕ → (List Bool → Implementation α) → List α → Option (List α)
  | 0, _, _ => none
  | fuel + 1, std, range =>
    let dist := range.length
    if dist < 2 then some range
    else if dist < 1000000 then some ((std []).sort lt range)
    else do
      let pivot ← range[dist / 2]?
      let (range, middle1) := (std []).partition (fun em ↦ comp em pivot) range
      let (range, middle2) := (std []).partition (fun em ↦ !comp pivot em) range
      let first ← quicksort fuel (fun call ↦ std (false :: call)) (range.take middle1)
      let last ← quicksort fuel (fun call ↦ std (true :: call)) (range.drop middle2)
      some (first ++ (range.take middle2).drop middle1 ++ last)

/-- `quicksort` ends with the sorted permutation, whatever implementations its calls use. -/
def Honours (range : List α) : Prop :=
  ∀ std : List Bool → Implementation α, (∀ call, Lawful (std call)) →
    ∃ n, ∀ fuel ≥ n, ∃ range', quicksort lt comp fuel std range = some range' ∧
      range'.Perm range ∧ SortedBy comp range'

/-- The elements that the comparison puts in order are in that order for `<`. -/
def Agrees (range : List α) : Prop :=
  ∀ a ∈ range, ∀ b ∈ range, comp a b = true → lt a b = true

/-- No element is before another one. -/
def Unrelated (range : List α) : Prop := ∀ a ∈ range, ∀ b ∈ range, comp a b = false

/-- A small range is in order for `<`. In another one nothing is before the pivot, and what is
behind it is small and in order for `<`, or needs no order. -/
def OrderKept (range : List α) : Prop :=
  if range.length < 1000000 then Agrees lt comp range
  else ∀ pivot, range[range.length / 2]? = some pivot → (∀ a ∈ range, comp a pivot = false) ∧
    ((range.filter (comp pivot)).length < 1000000 ∧ Agrees lt comp (range.filter (comp pivot)) ∨
      Unrelated comp (range.filter (comp pivot)))

variable {lt comp} {range range' : List α} {pivot : α} {fuel : ℕ}
  {std : List Bool → Implementation α}

/-- The turn of a long range: two partitions and two calls. -/
theorem quicksort_partition (hlen : 1000000 ≤ range.length)
    (hpivot : range[range.length / 2]? = some pivot) {r₁ r₂ : List α × ℕ}
    (h₁ : (std []).partition (fun em ↦ comp em pivot) range = r₁)
    (h₂ : (std []).partition (fun em ↦ !comp pivot em) r₁.1 = r₂) :
    quicksort lt comp (fuel + 1) std range =
      (quicksort lt comp fuel (fun call ↦ std (false :: call)) (r₂.1.take r₁.2)).bind fun first ↦
        (quicksort lt comp fuel (fun call ↦ std (true :: call)) (r₂.1.drop r₂.2)).bind fun last ↦
          some (first ++ (r₂.1.take r₂.2).drop r₁.2 ++ last) := by
  obtain ⟨range₁, middle1⟩ := r₁
  obtain ⟨range₂, middle2⟩ := r₂
  rw [quicksort, if_neg (by omega), if_neg (by omega), hpivot]
  simp only [Option.bind_eq_bind, Option.bind_some, h₁, h₂]

theorem exists_pivot (hlen : 1000000 ≤ range.length) :
    ∃ pivot, range[range.length / 2]? = some pivot :=
  ⟨_, List.getElem?_eq_getElem (by omega)⟩

/-! ### The elements -/

section Perm

variable [StrictWeakOrder comp] {r₁ r₂ : List α × ℕ}

/-- What is in front of the pivot is not more than what is not behind it. -/
theorem middle_le (h₁ : Partitions (fun em ↦ comp em pivot) range r₁)
    (h₂ : Partitions (fun em ↦ !comp pivot em) r₁.1 r₂) : r₁.2 ≤ r₂.2 := by
  rw [h₁.eq_length, h₂.eq_length, (h₁.perm.filter _).length_eq]
  refine (List.monotone_filter_right range fun em hem ↦ ?_).length_le
  rw [asymm_eq_false hem]
  rfl

/-- The parts that are sorted, and the one between them. -/
theorem parts_perm (h₁ : Partitions (fun em ↦ comp em pivot) range r₁)
    (h₂ : Partitions (fun em ↦ !comp pivot em) r₁.1 r₂) {first last : List α}
    (hfirst : first.Perm (r₂.1.take r₁.2)) (hlast : last.Perm (r₂.1.drop r₂.2)) :
    (first ++ (r₂.1.take r₂.2).drop r₁.2 ++ last).Perm range := by
  have htake : (r₂.1.take r₂.2).take r₁.2 = r₂.1.take r₁.2 := by
    rw [List.take_take, Nat.min_eq_left (middle_le h₁ h₂)]
  have hsame : (r₂.1.take r₁.2 ++ (r₂.1.take r₂.2).drop r₁.2 ++ r₂.1.drop r₂.2) = r₂.1 := by
    rw [← htake, List.take_append_drop, List.take_append_drop]
  refine ((hfirst.append_right _).append hlast).trans ?_
  rw [hsame]
  exact h₂.perm.trans h₁.perm

omit [StrictWeakOrder comp] in
/-- What is behind the pivot. -/
theorem behind_perm (h₁ : Partitions (fun em ↦ comp em pivot) range r₁)
    (h₂ : Partitions (fun em ↦ !comp pivot em) r₁.1 r₂) :
    (r₂.1.drop r₂.2).Perm (range.filter (comp pivot)) := by
  have hdrop := h₂.drop_perm.trans (h₁.perm.filter _)
  simp only [Bool.not_not] at hdrop
  exact hdrop

/-- The part behind the pivot is shorter. -/
theorem length_filter_lt (hmem : pivot ∈ range) :
    (range.filter (comp pivot)).length < range.length :=
  List.length_filter_lt_length_iff_exists.2
    ⟨pivot, hmem, by rw [irrefl_eq_false comp]; exact Bool.false_ne_true⟩

/-- If nothing is in front of the pivot, then what is not behind it needs no order. -/
theorem sortedBy_parts (hfront : ∀ a ∈ range, comp a pivot = false)
    (h₁ : Partitions (fun em ↦ comp em pivot) range r₁)
    (h₂ : Partitions (fun em ↦ !comp pivot em) r₁.1 r₂) {last : List α}
    (hlast : last.Perm (r₂.1.drop r₂.2)) (hsorted : SortedBy comp last) :
    SortedBy comp ((r₂.1.take r₂.2).drop r₁.2 ++ last) := by
  have hmid : ∀ a ∈ (r₂.1.take r₂.2).drop r₁.2, comp pivot a = false := fun a ha ↦ by
    simpa using h₂.take a (List.mem_of_mem_drop ha)
  refine List.pairwise_append.2 ⟨?_, hsorted, fun a ha b hb ↦ ?_⟩
  · refine List.pairwise_of_forall_mem_list fun a ha b hb ↦ trans_eq_false ?_ (hmid a ha)
    exact hfront b (h₁.perm.mem_iff.1 (h₂.perm.mem_iff.1
      (List.mem_of_mem_take (List.mem_of_mem_drop hb))))
  · refine trans_eq_false (asymm_eq_false ?_) (hmid a ha)
    exact (List.mem_filter.1 ((hlast.trans (behind_perm h₁ h₂)).mem_iff.1 hb)).2

/-- Sorting keeps the elements. -/
theorem quicksort_perm (hlt : StrictWeakOrder lt) (hstd : ∀ call, Lawful (std call))
    (h : quicksort lt comp fuel std range = some range') : range'.Perm range := by
  induction fuel generalizing std range range' with
  | zero => cases h
  | succ fuel ih =>
    rcases Nat.lt_or_ge range.length 1000000 with hsmall | hlen
    · rw [quicksort] at h
      split at h
      · exact Option.some.inj h ▸ .refl _
      · exact Option.some.inj h ▸ (hstd []).perm lt hlt range
    · obtain ⟨pivot, hpivot⟩ := exists_pivot hlen
      rw [quicksort_partition hlen hpivot rfl rfl] at h
      obtain ⟨first, hfirst, h⟩ := Option.bind_eq_some_iff.1 h
      obtain ⟨last, hlast, h⟩ := Option.bind_eq_some_iff.1 h
      rw [← Option.some.inj h]
      exact parts_perm ((hstd []).partitions _ _) ((hstd []).partitions _ _)
        (ih (fun call ↦ hstd _) hfirst) (ih (fun call ↦ hstd _) hlast)

end Perm

/-! ### What is enough -/

theorem sortedBy_of_length (hlen : range.length < 2) : SortedBy comp range := by
  match range, hlen with
  | [], _ => exact .nil
  | [a], _ => exact List.pairwise_singleton _ a

/-- Where the two comparisons agree, sorted by one is sorted by the other. -/
theorem SortedBy.of_agrees (hagrees : Agrees lt comp range) (hsorted : SortedBy lt range')
    (hperm : range'.Perm range) : SortedBy comp range' := by
  refine List.Pairwise.imp_of_mem (fun {a b} ha hb hab ↦ Bool.eq_false_iff.2 fun hba ↦ ?_) hsorted
  rw [hagrees b (hperm.mem_iff.1 hb) a (hperm.mem_iff.1 ha) hba] at hab
  cases hab

/-- Elements of which none is less keep any order. -/
theorem Unrelated.orderKept (h : Unrelated comp range) : OrderKept lt comp range := by
  have hfilter : ∀ pivot ∈ range, range.filter (comp pivot) = [] := fun pivot hpivot ↦
    List.filter_eq_nil_iff.2 fun a ha ↦ by
      rw [h pivot hpivot a ha]
      exact Bool.false_ne_true
  rw [OrderKept]
  split
  · intro a ha b hb hab
    rw [h a ha b hb] at hab
    cases hab
  · intro pivot hpivot
    have hmem := List.mem_of_getElem? hpivot
    rw [hfilter pivot hmem]
    exact ⟨fun a ha ↦ h a ha pivot hmem, .inr fun a ha ↦ absurd ha List.not_mem_nil⟩

theorem Agrees.of_perm (h : Agrees lt comp range) (hperm : range'.Perm range) :
    Agrees lt comp range' := fun a ha b hb ↦
  h a (hperm.mem_iff.1 ha) b (hperm.mem_iff.1 hb)

theorem Unrelated.of_perm (h : Unrelated comp range) (hperm : range'.Perm range) :
    Unrelated comp range' := fun a ha b hb ↦
  h a (hperm.mem_iff.1 ha) b (hperm.mem_iff.1 hb)

/-- **The condition is enough**, by induction on the length. -/
theorem quicksort_of_kept (hlt : StrictWeakOrder lt) [StrictWeakOrder comp]
    (hkept : OrderKept lt comp range) (hstd : ∀ call, Lawful (std call))
    (hfuel : range.length < fuel) :
    ∃ range', quicksort lt comp fuel std range = some range' ∧ range'.Perm range ∧
      SortedBy comp range' := by
  induction fuel generalizing std range with
  | zero => exact absurd hfuel (Nat.not_lt_zero _)
  | succ fuel ih =>
    rw [OrderKept] at hkept
    split at hkept
    · next hsmall =>
      rw [quicksort]
      split
      · next hshort => exact ⟨range, rfl, .refl _, sortedBy_of_length hshort⟩
      · have hperm := (hstd []).perm lt hlt range
        exact ⟨_, rfl, hperm, SortedBy.of_agrees hkept ((hstd []).sorted lt hlt range) hperm⟩
    · next hlarge =>
      have hlen := Nat.le_of_not_lt hlarge
      obtain ⟨pivot, hpivot⟩ := exists_pivot hlen
      obtain ⟨hfront, hbehind⟩ := hkept pivot hpivot
      have h₁ := (hstd []).partitions (fun em ↦ comp em pivot) range
      have h₂ := (hstd []).partitions (fun em ↦ !comp pivot em)
        ((std []).partition (fun em ↦ comp em pivot) range).1
      rw [quicksort_partition hlen hpivot rfl rfl]
      generalize (std []).partition (fun em ↦ comp em pivot) range = r₁ at h₁ h₂
      generalize (std []).partition (fun em ↦ !comp pivot em) r₁.1 = r₂ at h₂
      have hmiddle1 : r₁.2 = 0 := by
        rw [h₁.eq_length, List.filter_eq_nil_iff.2 fun em hem ↦ by
          rw [hfront em hem]
          exact Bool.false_ne_true]
        rfl
      have hlast := behind_perm h₁ h₂
      have hshorter : (r₂.1.drop r₂.2).length < range.length := by
        rw [hlast.length_eq]
        exact length_filter_lt (List.mem_of_getElem? hpivot)
      have hkept' : OrderKept lt comp (r₂.1.drop r₂.2) := by
        rcases hbehind with ⟨hsmall, hagrees⟩ | hunrelated
        · rw [OrderKept, if_pos (hlast.length_eq ▸ hsmall)]
          exact hagrees.of_perm hlast
        · exact (hunrelated.of_perm hlast).orderKept
      obtain ⟨last, heq, hperm, hsorted⟩ := ih hkept' (fun call ↦ hstd (true :: call)) (by omega)
      have hfirst : ∀ left : List Bool → Implementation α,
          quicksort lt comp fuel left (r₂.1.take r₁.2) = some [] := by
        intro left
        obtain ⟨k, rfl⟩ : ∃ k, fuel = k + 1 := ⟨fuel - 1, by omega⟩
        rw [hmiddle1, List.take_zero, quicksort, if_pos (by exact Nat.zero_lt_two)]
      rw [hfirst, heq]
      refine ⟨_, rfl, parts_perm h₁ h₂ (by rw [hmiddle1]; rfl) hperm, ?_⟩
      rw [List.nil_append]
      exact sortedBy_parts hfront h₁ h₂ hperm hsorted

theorem honours_of_kept (hlt : StrictWeakOrder lt) (hcomp : StrictWeakOrder comp)
    (hkept : OrderKept lt comp range) : Honours lt comp range := fun _ hstd ↦
  ⟨range.length + 1, fun _ hfuel ↦ quicksort_of_kept hlt hkept hstd hfuel⟩

/-! ### What is needed -/

/-- Sorting with `<` may leave two elements the wrong way round. -/
theorem agrees_of_honours (hlt : StrictWeakOrder lt) (hcomp : StrictWeakOrder comp)
    (hsmall : range.length < 1000000) (h : Honours lt comp range) : Agrees lt comp range := by
  classical
  intro a ha b hb hab
  by_contra hnot
  have hne : a ≠ b := by
    rintro rfl
    rw [irrefl_eq_false comp a] at hab
    cases hab
  have ha' : a ∈ range.erase b := (List.mem_erase_of_ne hne).2 ha
  have hperm : (b :: a :: (range.erase b).erase a).Perm range :=
    ((List.perm_cons_erase ha').symm.cons b).trans (List.perm_cons_erase hb).symm
  have hsub := pair_sublist_mergeSort (l := b :: a :: (range.erase b).erase a)
    (Bool.eq_false_iff.2 hnot) (((List.nil_sublist _).cons_cons a).cons_cons b)
  have hwrong : SortedBy lt ((b :: a :: (range.erase b).erase a).mergeSort fun a b ↦ !lt b a) :=
    sortedBy_mergeSort _
  obtain ⟨std, hstd, hsort⟩ := exists_sort ((List.mergeSort_perm _ _).trans hperm) hwrong
  obtain ⟨n, hn⟩ := h (fun _ ↦ std) fun _ ↦ hstd
  obtain ⟨range', heq, hperm', hsorted⟩ := hn (n + 1) (Nat.le_succ n)
  rw [quicksort, if_neg (by rw [← hperm.length_eq]; exact Nat.not_lt.2 (Nat.le_add_left 2 _)),
    if_pos hsmall, hsort] at heq
  rw [← Option.some.inj heq] at hsorted
  rw [List.pairwise_iff_forall_sublist.1 hsorted hsub] at hab
  cases hab

/-- The first group of the second partition, with the pivot at its start and an element that is in
front of the pivot at its end. -/
theorem exists_group [StrictWeakOrder comp] {a : α} (hmem : pivot ∈ range) (ha : a ∈ range)
    (hless : comp a pivot = true) :
    ∃ between, (pivot :: (between ++ [a])).Perm (range.filter fun em ↦ !comp pivot em) ∧
      (range.filter (comp · pivot)).length ≤ between.length + 1 := by
  classical
  let group := range.filter fun em ↦ !comp pivot em
  have hpivot : pivot ∈ group := List.mem_filter.2 ⟨hmem, by simp [irrefl_eq_false comp]⟩
  have ha' : a ∈ group.erase pivot := by
    refine (List.mem_erase_of_ne ?_).2 (List.mem_filter.2 ⟨ha, by simp [asymm_eq_false hless]⟩)
    rintro rfl
    rw [irrefl_eq_false comp] at hless
    cases hless
  have hgroup : (pivot :: ((group.erase pivot).erase a ++ [a])).Perm group :=
    (((List.perm_append_singleton a _).trans (List.perm_cons_erase ha').symm).cons pivot).trans
      (List.perm_cons_erase hpivot).symm
  have hsub : (range.filter (comp · pivot)).Sublist group :=
    List.monotone_filter_right range fun em hem ↦ by
      rw [asymm_eq_false hem]
      rfl
  have hlt : (range.filter (comp · pivot)).length < group.length := by
    refine Nat.lt_of_le_of_ne hsub.length_le fun heq ↦ ?_
    rw [← hsub.eq_of_length heq] at hpivot
    have hself := (List.mem_filter.1 hpivot).2
    rw [irrefl_eq_false comp] at hself
    cases hself
  refine ⟨_, hgroup, ?_⟩
  rw [← hgroup.length_eq, List.length_cons, List.length_append] at hlt
  exact Nat.le_of_lt_succ hlt

section Large

variable (hlen : 1000000 ≤ range.length) (hpivot : range[range.length / 2]? = some pivot)
  (h : Honours lt comp range) {r : List α × ℕ} {left right : List Bool → Implementation α}

include hlen hpivot h

/-- The second partition may leave any two groups, and the calls may use any implementations. -/
theorem exists_of_honours (hcomp : StrictWeakOrder comp)
    (hr : Partitions (fun em ↦ !comp pivot em) range r) (hleft : ∀ call, Lawful (left call))
    (hright : ∀ call, Lawful (right call)) :
    ∃ n, ∀ fuel ≥ n, ∃ first last,
      quicksort lt comp fuel left (r.1.take (range.filter (comp · pivot)).length) = some first ∧
      quicksort lt comp fuel right (r.1.drop r.2) = some last ∧
      SortedBy comp
        (first ++ (r.1.take r.2).drop (range.filter (comp · pivot)).length ++ last) := by
  have h₁ := (lawful_documented α).partitions (fun em ↦ comp em pivot) range
  have hr' : Partitions (fun em ↦ !comp pivot em)
      ((documented α).partition (fun em ↦ comp em pivot) range).1 r :=
    ⟨hr.perm.trans h₁.perm.symm, h₁.length ▸ hr.le, hr.take, hr.drop⟩
  obtain ⟨std, hstd, heq, hother⟩ := exists_partition hr'
  -- the two predicates are different for the pivot
  have hne : (fun em ↦ comp em pivot) ≠ fun em ↦ !comp pivot em := fun heq ↦ by
    have hself := congrFun heq pivot
    simp only [irrefl_eq_false comp pivot] at hself
    cases hself
  obtain ⟨n, hn⟩ := h
    (fun | [] => std | false :: call => left call | true :: call => right call) fun
    | [] => hstd
    | false :: call => hleft call
    | true :: call => hright call
  refine ⟨n, fun fuel hfuel ↦ ?_⟩
  obtain ⟨range', hrun, -, hsorted⟩ := hn (fuel + 1) (Nat.le_succ_of_le hfuel)
  rw [quicksort_partition hlen hpivot (hother _ hne range) heq] at hrun
  obtain ⟨first, hfirst, hrun⟩ := Option.bind_eq_some_iff.1 hrun
  obtain ⟨last, hlast, hrun⟩ := Option.bind_eq_some_iff.1 hrun
  rw [← Option.some.inj hrun, h₁.eq_length] at hsorted
  rw [h₁.eq_length] at hfirst
  exact ⟨first, last, hfirst, hlast, hsorted⟩

/-- An element in front of the pivot may be behind it after the second partition. -/
theorem not_front_of_honours (hlt : StrictWeakOrder lt) (hcomp : StrictWeakOrder comp) :
    ∀ a ∈ range, comp a pivot = false := by
  intro a ha
  refine Bool.eq_false_iff.2 fun hless ↦ ?_
  obtain ⟨between, hgroup, hmiddle1⟩ := exists_group (List.mem_of_getElem? hpivot) ha hless
  have hr : Partitions (fun em ↦ !comp pivot em) range
      ((pivot :: (between ++ [a])) ++ range.filter (fun em ↦ !!comp pivot em),
        (pivot :: (between ++ [a])).length) :=
    partitions_append ((hgroup.append_right _).trans (List.filter_append_perm _ range))
      (fun x hx ↦ (List.mem_filter.1 (hgroup.mem_iff.1 hx)).2)
      (fun x hx ↦ by simpa using (List.mem_filter.1 hx).2)
  obtain ⟨n, hn⟩ := exists_of_honours hlen hpivot h hcomp hr
    (fun _ ↦ lawful_documented α) (fun _ ↦ lawful_documented α)
  obtain ⟨first, last, hfirst, -, hsorted⟩ := hn n (Nat.le_refl n)
  have haFront : a ∈ range.filter (comp · pivot) := List.mem_filter.2 ⟨ha, hless⟩
  have hpos := List.length_pos_of_mem haFront
  simp only [List.take_left] at hsorted
  generalize (range.filter (comp · pivot)).length = middle1 at *
  have hpivotFirst : pivot ∈ first := by
    rw [(quicksort_perm hlt (fun _ ↦ lawful_documented α) hfirst).mem_iff]
    obtain ⟨k, rfl⟩ : ∃ k, middle1 = k + 1 := ⟨middle1 - 1, by omega⟩
    exact List.mem_cons_self
  have haMiddle : a ∈ (pivot :: (between ++ [a])).drop middle1 := by
    rw [← List.cons_append, List.drop_append_of_le_length hmiddle1]
    exact List.mem_append_right _ (List.mem_singleton_self a)
  have hnot := (List.pairwise_append.1 (List.pairwise_append.1 hsorted).1).2.2
    pivot hpivotFirst a haMiddle
  rw [hless] at hnot
  cases hnot

/-- What is behind the pivot has to be sorted, in whatever order it is. -/
theorem honours_behind (hlt : StrictWeakOrder lt) (hcomp : StrictWeakOrder comp) {behind : List α}
    (hperm : behind.Perm (range.filter (comp pivot))) : Honours lt comp behind := by
  intro right hright
  have hr : Partitions (fun em ↦ !comp pivot em) range
      (range.filter (fun em ↦ !comp pivot em) ++ behind,
        (range.filter fun em ↦ !comp pivot em).length) := by
    refine partitions_append ?_ (fun x hx ↦ (List.mem_filter.1 hx).2)
      (fun x hx ↦ by simpa using (List.mem_filter.1 (hperm.mem_iff.1 hx)).2)
    have hgroups := List.filter_append_perm (fun em ↦ !comp pivot em) range
    simp only [Bool.not_not] at hgroups
    exact (hperm.append_left _).trans hgroups
  obtain ⟨n, hn⟩ := exists_of_honours hlen hpivot h hcomp hr
    (fun _ ↦ lawful_documented α) hright
  refine ⟨n, fun fuel hfuel ↦ ?_⟩
  obtain ⟨first, last, -, hlast, hsorted⟩ := hn fuel hfuel
  rw [List.drop_left] at hlast
  exact ⟨last, hlast, quicksort_perm hlt hright hlast, (List.pairwise_append.1 hsorted).2.1⟩

end Large

/-- The condition is necessary. -/
theorem kept_of_honours (hlt : StrictWeakOrder lt) (hcomp : StrictWeakOrder comp)
    (h : Honours lt comp range) : OrderKept lt comp range := by
  classical
  rw [OrderKept]
  split
  · next hsmall => exact agrees_of_honours hlt hcomp hsmall h
  · next hlarge =>
    have hlen := Nat.le_of_not_lt hlarge
    intro pivot hpivot
    refine ⟨not_front_of_honours hlen hpivot h hlt hcomp, ?_⟩
    have hbehind : ∀ {behind : List α}, behind.Perm (range.filter (comp pivot)) →
        Honours lt comp behind := honours_behind hlen hpivot h hlt hcomp
    generalize range.filter (comp pivot) = behind at hbehind
    rcases Nat.lt_or_ge behind.length 1000000 with hshort | hlong
    · exact .inl ⟨hshort, agrees_of_honours hlt hcomp hshort (hbehind (.refl _))⟩
    · refine .inr fun a ha b hb ↦ ?_
      -- any of them may be the pivot of the next call
      let rest := behind.erase b
      have hrest : behind.Perm (b :: rest) := List.perm_cons_erase hb
      have harranged : (rest.take (behind.length / 2) ++ b :: rest.drop (behind.length / 2)).Perm
          behind := by
        refine List.perm_middle.trans (.trans (.cons b ?_) hrest.symm)
        rw [List.take_append_drop]
      have hmiddle : (rest.take (behind.length / 2)).length = behind.length / 2 := by
        have hlength := hrest.length_eq
        rw [List.length_cons] at hlength
        rw [List.length_take_of_le (by omega)]
      refine not_front_of_honours (by rwa [harranged.length_eq]) ?_ (hbehind harranged) hlt hcomp a
        (harranged.mem_iff.2 ha)
      rw [harranged.length_eq, List.getElem?_append_right (Nat.le_of_eq hmiddle), hmiddle,
        Nat.sub_self]
      rfl

/-- `quicksort` honours the comparison exactly for the ranges whose order it keeps. -/
theorem quicksort_iff (hlt : StrictWeakOrder lt) (hcomp : StrictWeakOrder comp) (range : List α) :
    Honours lt comp range ↔ OrderKept lt comp range :=
  ⟨kept_of_honours hlt hcomp, honours_of_kept hlt hcomp⟩

/-! ### Natural numbers -/

/-- The order of the numbers is a strict weak order. -/
theorem strictWeakOrder_less : StrictWeakOrder fun a b : ℕ ↦ decide (a < b) where
  irrefl a := by simp
  trans a b c hab hbc := by
    rw [decide_eq_true_iff] at hab hbc ⊢
    exact Nat.lt_trans hab hbc
  incomp_trans a b c hab hbc := by
    simp only [decide_eq_true_iff] at hab hbc ⊢
    omega

/-- The reversed order is one as well. -/
theorem strictWeakOrder_greater : StrictWeakOrder fun a b : ℕ ↦ decide (b < a) where
  irrefl a := by simp
  trans a b c hab hbc := by
    rw [decide_eq_true_iff] at hab hbc ⊢
    exact Nat.lt_trans hbc hab
  incomp_trans a b c hab hbc := by
    simp only [decide_eq_true_iff] at hab hbc ⊢
    omega

theorem quicksort_iff_greater :
    Honours (fun a b : ℕ ↦ decide (a < b)) (fun a b ↦ decide (b < a)) [2, 2] ↔
      OrderKept (fun a b : ℕ ↦ decide (a < b)) (fun a b ↦ decide (b < a)) [2, 2] :=
  quicksort_iff strictWeakOrder_less strictWeakOrder_greater [2, 2]

/-- Sorted with `<`, two numbers are not in descending order. -/
theorem not_forall_quicksort :
    ¬ ∀ (α : Type) (lt comp : α → α → Bool), StrictWeakOrder lt → StrictWeakOrder comp →
      ∀ range, Honours lt comp range := by
  intro h
  have hagrees := agrees_of_honours strictWeakOrder_less strictWeakOrder_greater
    (by decide) (h ℕ _ _ strictWeakOrder_less strictWeakOrder_greater [1, 2])
  exact absurd (hagrees 2 (by decide) 1 (by decide) (by decide)) (by decide)

end GenericQuickSort
