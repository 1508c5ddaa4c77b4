import Mathlib.Data.Set.Lattice
import Mathlib.Order.CompletePartialOrder
import Mathlib.Order.Interval.Set.Basic
import Mathlib.Order.Interval.Set.LinearOrder
import Mathlib.Tactic.Common

/-!
# Merging intervals

Closed intervals in the order of their starts. An interval is joined with the next one if this one
starts before the end and does not end before it.

The intervals that come out cover what the given ones cover (`iUnion_coalesce`). They are disjoint
exactly if the ends are in order as well (`isMerged_iff`): an interval within the one before it is
left as it is.
-/

namespace IntervalMerge

section Cons

variable {α γ : Type*} {a b : γ} {l : List γ}

theorem iUnion_mem_cons (s : γ → Set α) (a : γ) (l : List γ) :
    ⋃ b ∈ a :: l, s b = s a ∪ ⋃ b ∈ l, s b := by
  simp only [List.mem_cons, Set.iUnion_iUnion_eq_or_left]

variable [Preorder α] {f : γ → α}

theorem pairwise_congr_head (h : (a :: l).Pairwise fun a b ↦ f a ≤ f b) (hab : f a = f b) :
    (b :: l).Pairwise fun a b ↦ f a ≤ f b := by
  rw [List.pairwise_cons] at h ⊢
  exact ⟨hab ▸ h.1, h.2⟩

theorem pairwise_cons_of_le (hab : f a ≤ f b) (h : (b :: l).Pairwise fun a b ↦ f a ≤ f b) :
    (a :: b :: l).Pairwise fun a b ↦ f a ≤ f b := by
  refine List.pairwise_cons.2 ⟨fun c hc ↦ ?_, h⟩
  rcases List.mem_cons.1 hc with rfl | hc
  · exact hab
  · exact hab.trans ((List.pairwise_cons.1 h).1 c hc)

end Cons

variable {α β : Type*} [LinearOrder α] [LinearOrder β] {p q : α × α} {l res : List (α × α)}

/-- Join `p` with the intervals that follow it, as far as they can be joined, and go on. -/
def coalesce : α × α → List (α × α) → List (α × α)
  | p, [] => [p]
  | p, q :: l => if q.1 ≤ p.2 ∧ p.2 ≤ q.2 then coalesce (p.1, q.2) l else p :: coalesce q l

/-- All intervals of a sorted list, merged where they touch or overlap. -/
def coalesceAll (l : List (α × α)) : List (α × α) :=
  l.head?.elim [] fun p ↦ coalesce p l.tail

/-- The intervals of `res` are in order and disjoint, and their union is that of `l`. -/
structure IsMerged (l res : List (α × α)) : Prop where
  valid : ∀ p ∈ res, p.1 ≤ p.2
  increasing : res.Pairwise fun p q ↦ p.1 < q.1
  disjoint : res.Pairwise fun p q ↦ Disjoint (Set.Icc p.1 p.2) (Set.Icc q.1 q.2)
  union : ⋃ p ∈ res, Set.Icc p.1 p.2 = ⋃ p ∈ l, Set.Icc p.1 p.2

/-- An embedding of the order keeps what is joined. -/
theorem coalesce_map {f : α → β} (hf : StrictMono f) (p : α × α) (l : List (α × α)) :
    coalesce (Prod.map f f p) (l.map (Prod.map f f)) = (coalesce p l).map (Prod.map f f) := by
  induction l generalizing p with
  | nil => rfl
  | cons q l ih =>
    have hiff : ((Prod.map f f q).1 ≤ (Prod.map f f p).2 ∧
        (Prod.map f f p).2 ≤ (Prod.map f f q).2) ↔ q.1 ≤ p.2 ∧ p.2 ≤ q.2 :=
      and_congr hf.le_iff_le hf.le_iff_le
    rw [List.map_cons, coalesce, coalesce]
    by_cases h : q.1 ≤ p.2 ∧ p.2 ≤ q.2
    · rw [if_pos h, if_pos (hiff.2 h), ← ih]
      rfl
    · rw [if_neg h, if_neg (mt hiff.1 h), List.map_cons, ih]

/-- Merging commutes with maps that keep the order strictly. -/
theorem coalesceAll_map {f : α → β} (hf : StrictMono f) (l : List (α × α)) :
    coalesceAll (l.map (Prod.map f f)) = (coalesceAll l).map (Prod.map f f) := by
  cases l with
  | nil => rfl
  | cons p l => exact coalesce_map hf p l

/-- The first interval has the start of `p`, and an end that is not smaller. -/
theorem exists_coalesce_eq_cons (p : α × α) (l : List (α × α)) :
    ∃ e r, coalesce p l = (p.1, e) :: r ∧ p.2 ≤ e := by
  induction l generalizing p with
  | nil => exact ⟨p.2, [], rfl, le_rfl⟩
  | cons q l ih =>
    rw [coalesce]
    by_cases h : q.1 ≤ p.2 ∧ p.2 ≤ q.2
    · obtain ⟨e, r, heq, hle⟩ := ih (p.1, q.2)
      rw [if_pos h]
      exact ⟨e, r, heq, h.2.trans hle⟩
    · rw [if_neg h]
      exact ⟨p.2, coalesce q l, rfl, le_rfl⟩

/-- The end of the last interval stays. -/
theorem getLast?_coalesce (p : α × α) (l : List (α × α)) :
    (coalesce p l).getLast?.map Prod.snd = (p :: l).getLast?.map Prod.snd := by
  induction l generalizing p with
  | nil => rfl
  | cons q l ih =>
    have htail : ∀ a, (a :: q :: l).getLast? = (q :: l).getLast? := fun a ↦
      List.getLast?_cons_cons
    rw [coalesce]
    by_cases h : q.1 ≤ p.2 ∧ p.2 ≤ q.2
    · rw [if_pos h, ih, htail]
      cases l with
      | nil => rfl
      | cons b l => rw [List.getLast?_cons_cons, List.getLast?_cons_cons]
    · obtain ⟨e, r, heq, -⟩ := exists_coalesce_eq_cons q l
      rw [if_neg h, htail, ← ih, heq, List.getLast?_cons_cons]

/-- Merging keeps the last end. -/
theorem getLast?_coalesceAll (l : List (α × α)) :
    (coalesceAll l).getLast?.map Prod.snd = l.getLast?.map Prod.snd := by
  cases l with
  | nil => rfl
  | cons p l => exact getLast?_coalesce p l

/-- The intervals that come out start where some that go in do. -/
theorem exists_start_of_mem (hq : q ∈ coalesce p l) : ∃ r ∈ p :: l, q.1 = r.1 := by
  induction l generalizing p with
  | nil => exact ⟨p, List.mem_cons_self, congrArg Prod.fst (List.mem_singleton.1 hq)⟩
  | cons a l ih =>
    rw [coalesce] at hq
    split at hq
    · obtain ⟨r, hr, heq⟩ := ih hq
      rcases List.mem_cons.1 hr with rfl | hr
      · exact ⟨p, List.mem_cons_self, heq⟩
      · exact ⟨r, List.mem_cons_of_mem p (List.mem_cons_of_mem a hr), heq⟩
    · rcases List.mem_cons.1 hq with rfl | hq
      · exact ⟨q, List.mem_cons_self, rfl⟩
      · obtain ⟨r, hr, heq⟩ := ih hq
        exact ⟨r, List.mem_cons_of_mem p hr, heq⟩

/-- Merged intervals begin before they end. -/
theorem valid_coalesce (hvalid : ∀ q ∈ p :: l, q.1 ≤ q.2) (hq : q ∈ coalesce p l) :
    q.1 ≤ q.2 := by
  induction l generalizing p with
  | nil => exact List.mem_singleton.1 hq ▸ hvalid p List.mem_cons_self
  | cons a l ih =>
    obtain ⟨hp, hvalid⟩ := List.forall_mem_cons.1 hvalid
    rw [coalesce] at hq
    split at hq
    next h =>
      have hle : p.1 ≤ a.2 := hp.trans h.2
      exact ih (List.forall_mem_cons.2 ⟨hle, fun q hq ↦ hvalid q (List.mem_cons_of_mem a hq)⟩) hq
    next =>
      rcases List.mem_cons.1 hq with rfl | hq
      · exact hp
      · exact ih hvalid hq

theorem sorted_join (hsorted : (p :: q :: l).Pairwise fun p q ↦ p.1 ≤ q.1) (x : α) :
    ((p.1, x) :: l).Pairwise fun p q ↦ p.1 ≤ q.1 :=
  pairwise_congr_head (f := Prod.fst) (a := p)
    (hsorted.sublist ((List.sublist_cons_self q l).cons_cons p)) rfl

theorem valid_join (h : p.2 ≤ q.2) (hvalid : ∀ a ∈ p :: q :: l, a.1 ≤ a.2) :
    ∀ a ∈ (p.1, q.2) :: l, a.1 ≤ a.2 := by
  obtain ⟨hp, -, hl⟩ := List.forall_mem_cons.1 hvalid |>.imp_right List.forall_mem_cons.1
  exact List.forall_mem_cons.2 ⟨hp.trans h, hl⟩

/-- **The union** stays the same. -/
theorem iUnion_coalesce (hvalid : ∀ q ∈ p :: l, q.1 ≤ q.2)
    (hsorted : (p :: l).Pairwise fun p q ↦ p.1 ≤ q.1) :
    ⋃ q ∈ coalesce p l, Set.Icc q.1 q.2 = ⋃ q ∈ p :: l, Set.Icc q.1 q.2 := by
  induction l generalizing p with
  | nil => rfl
  | cons q l ih =>
    obtain ⟨hp, hl⟩ := List.pairwise_cons.1 hsorted
    by_cases h : q.1 ≤ p.2 ∧ p.2 ≤ q.2
    · have hjoin : Set.Icc p.1 p.2 ∪ Set.Icc q.1 q.2 = Set.Icc p.1 q.2 := by
        have hpq := hp q List.mem_cons_self
        have hvalid_p := hvalid p List.mem_cons_self
        rw [Set.Icc_union_Icc' h.1 (hvalid_p.trans h.2), min_eq_left hpq, max_eq_right h.2]
      rw [coalesce, if_pos h, ih (valid_join h.2 hvalid) (sorted_join hsorted q.2),
        iUnion_mem_cons, iUnion_mem_cons, iUnion_mem_cons, ← hjoin, Set.union_assoc]
    · rw [coalesce, if_neg h, iUnion_mem_cons, ih (List.forall_mem_cons.1 hvalid).2 hl,
        iUnion_mem_cons _ p]

/-- No merged interval begins before the first one. -/
theorem start_le_of_mem (hsorted : (p :: l).Pairwise fun p q ↦ p.1 ≤ q.1)
    (hq : q ∈ coalesce p l) : p.1 ≤ q.1 := by
  obtain ⟨a, ha, heq⟩ := exists_start_of_mem hq
  rw [heq]
  rcases List.mem_cons.1 ha with rfl | ha
  · exact le_rfl
  · exact (List.pairwise_cons.1 hsorted).1 a ha

/-- Intervals with ends in order are joined where they meet. -/
theorem pairwise_coalesce (hsorted : (p :: l).Pairwise fun p q ↦ p.1 ≤ q.1)
    (hends : (p :: l).Pairwise fun p q ↦ p.2 ≤ q.2) :
    (coalesce p l).Pairwise fun p q ↦ p.2 < q.1 := by
  induction l generalizing p with
  | nil => exact List.pairwise_singleton _ p
  | cons q l ih =>
    obtain ⟨hp, hends⟩ := List.pairwise_cons.1 hends
    have hl := (List.pairwise_cons.1 hsorted).2
    rw [coalesce]
    split
    next => exact ih (sorted_join hsorted q.2) (pairwise_congr_head (f := Prod.snd) hends rfl)
    next h =>
      have hlt : p.2 < q.1 := not_le.1 fun hle ↦ h ⟨hle, hp q List.mem_cons_self⟩
      refine List.pairwise_cons.2 ⟨fun a ha ↦ ?_, ih hl hends⟩
      exact hlt.trans_le (start_le_of_mem hl ha)

/-- The start of an interval that is not joined is in the one before it if that one ends later. -/
theorem pairwise_end_le (hsorted : (p :: l).Pairwise fun p q ↦ p.1 ≤ q.1)
    (hvalid : ∀ q ∈ p :: l, q.1 ≤ q.2)
    (hdisj : (coalesce p l).Pairwise fun p q ↦ Disjoint (Set.Icc p.1 p.2) (Set.Icc q.1 q.2)) :
    (p :: l).Pairwise fun p q ↦ p.2 ≤ q.2 := by
  induction l generalizing p with
  | nil => exact List.pairwise_singleton _ p
  | cons q l ih =>
    obtain ⟨hp, hl⟩ := List.pairwise_cons.1 hsorted
    obtain ⟨hvalid_p, hvalid_l⟩ := List.forall_mem_cons.1 hvalid
    rw [coalesce] at hdisj
    split at hdisj
    next h =>
      have hends := ih (sorted_join hsorted q.2) (valid_join h.2 hvalid) hdisj
      exact pairwise_cons_of_le h.2 (pairwise_congr_head (f := Prod.snd) hends rfl)
    next h =>
      obtain ⟨hdisj_p, hdisj⟩ := List.pairwise_cons.1 hdisj
      refine pairwise_cons_of_le ?_ (ih hl hvalid_l hdisj)
      obtain ⟨e, r, heq, hle⟩ := exists_coalesce_eq_cons q l
      have hq : q.1 ≤ q.2 := hvalid_l q List.mem_cons_self
      by_contra hlt
      have hmem : q.1 ∈ Set.Icc p.1 p.2 := ⟨hp q List.mem_cons_self, hq.trans (not_le.1 hlt).le⟩
      refine Set.disjoint_left.1 (hdisj_p (q.1, e) (heq ▸ List.mem_cons_self)) hmem ?_
      exact ⟨le_rfl, hq.trans hle⟩

/-- **Merging** works exactly if the ends are in order. -/
theorem isMerged_iff (hvalid : ∀ p ∈ l, p.1 ≤ p.2) (hsorted : l.Pairwise fun p q ↦ p.1 ≤ q.1) :
    IsMerged l (coalesceAll l) ↔ l.Pairwise fun p q ↦ p.2 ≤ q.2 := by
  cases l with
  | nil =>
    exact iff_of_true ⟨fun p hp ↦ (by cases hp), List.Pairwise.nil, List.Pairwise.nil, rfl⟩
      List.Pairwise.nil
  | cons p l =>
    have hall : coalesceAll (p :: l) = coalesce p l := rfl
    rw [hall]
    constructor
    · intro h
      exact pairwise_end_le hsorted hvalid h.disjoint
    · intro hends
      have hlt := pairwise_coalesce hsorted hends
      have hvalid' : ∀ q ∈ coalesce p l, q.1 ≤ q.2 := fun q hq ↦ valid_coalesce hvalid hq
      refine ⟨hvalid', ?_, ?_, iUnion_coalesce hvalid hsorted⟩
      · exact hlt.imp_of_mem fun hp hq h ↦ (hvalid' _ hp).trans_lt h
      · exact hlt.imp fun h ↦ Set.disjoint_left.2 fun x hx hx' ↦
          absurd (hx'.1.trans hx.2) (not_le.2 h)

end IntervalMerge
