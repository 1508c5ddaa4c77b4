import Mathlib.Data.List.Basic
import Mathlib.Data.List.Flatten
import Mathlib.Data.List.TakeWhile
import Mathlib.Order.Lattice
import Mathlib.Tactic.Common

/-!
# Merging several lists

How far sorted lists are merged, as a cut: of each list the elements that are taken, and those that
are left. A cut is balanced if no element that is taken is greater than one that is left. A merge
takes a least head (`Balanced.take`), and every balanced cut comes about in this way
(`Balanced.exists_take`).
-/

namespace KWayMerge

variable {α β : Type*}

/-- What is taken and what is left of each list. -/
abbrev Cut (α : Type*) := List (List α × List α)

/-- The lists the cut is of. -/
def lists (cut : Cut α) : List (List α) := cut.map fun p ↦ p.1 ++ p.2

/-- What stands before the cut, list by list. -/
def taken (cut : Cut α) : List α := (cut.map Prod.fst).flatten

/-- What stands after the cut, list by list. -/
def left (cut : Cut α) : List α := (cut.map Prod.snd).flatten

/-- The first elements after the cut, one for each list that has one. -/
def heads (cut : Cut α) : List α := cut.filterMap fun p ↦ p.2.head?

variable {cut before after : Cut α} {done rest : List α} {a b : α} {nodes : List (List α)}

@[simp] theorem lists_append : lists (before ++ after) = lists before ++ lists after :=
  List.map_append

@[simp] theorem lists_cons {p : List α × List α} :
    lists (p :: cut) = (p.1 ++ p.2) :: lists cut := rfl

@[simp] theorem taken_append : taken (before ++ after) = taken before ++ taken after := by
  rw [taken, List.map_append, List.flatten_append]
  rfl

@[simp] theorem taken_cons {p : List α × List α} : taken (p :: cut) = p.1 ++ taken cut := rfl

@[simp] theorem left_append : left (before ++ after) = left before ++ left after := by
  rw [left, List.map_append, List.flatten_append]
  rfl

@[simp] theorem left_cons {p : List α × List α} : left (p :: cut) = p.2 ++ left cut := rfl

@[simp] theorem heads_append : heads (before ++ after) = heads before ++ heads after :=
  List.filterMap_append

@[simp] theorem heads_cons {p : List α × List α} :
    heads (p :: cut) = p.2.head?.toList ++ heads cut := by
  rw [heads, List.filterMap_cons]
  cases p.2.head? <;> rfl

/-- What is taken and what is left are together all the elements. -/
theorem perm_flatten_lists (cut : Cut α) : (taken cut ++ left cut).Perm (lists cut).flatten := by
  induction cut with
  | nil => exact .refl _
  | cons p cut ih =>
    simp only [taken_cons, left_cons, lists_cons, List.flatten_cons, List.append_assoc]
    refine .append_left _ ?_
    exact List.perm_append_comm_assoc .. |>.trans (.append_left _ ih)

theorem mem_left {p : List α × List α} (hp : p ∈ cut) (ha : a ∈ p.2) : a ∈ left cut :=
  List.mem_flatten.2 ⟨p.2, List.mem_map_of_mem hp, ha⟩

theorem mem_taken {p : List α × List α} (hp : p ∈ cut) (ha : a ∈ p.1) : a ∈ taken cut :=
  List.mem_flatten.2 ⟨p.1, List.mem_map_of_mem hp, ha⟩

theorem heads_sublist_left : (heads cut).Sublist (left cut) := by
  induction cut with
  | nil => exact .refl _
  | cons p cut ih =>
    rw [heads_cons, left_cons]
    refine .append ?_ ih
    cases p.2 with
    | nil => exact .refl _
    | cons a rest => exact (List.nil_sublist rest).cons_cons a

theorem heads_eq_nil : heads cut = [] ↔ left cut = [] := by
  rw [heads, List.filterMap_eq_nil_iff, left, List.flatten_eq_nil_iff, List.forall_mem_map]
  exact forall₂_congr fun p _ ↦ List.head?_eq_none_iff

/-! ### Taking a head -/

/-- Taking a head moves the cut and keeps the lists. -/
theorem lists_take : lists (before ++ (done ++ [a], rest) :: after) =
    lists (before ++ (done, a :: rest) :: after) := by
  simp

theorem taken_take_perm : (taken (before ++ (done ++ [a], rest) :: after)).Perm
    (taken (before ++ (done, a :: rest) :: after) ++ [a]) := by
  simp only [taken_append, taken_cons, List.append_assoc]
  exact .append_left _ (.append_left _ List.perm_append_comm)

theorem left_take_perm : (left (before ++ (done, a :: rest) :: after)).Perm
    (a :: left (before ++ (done ++ [a], rest) :: after)) := by
  simp only [left_append, left_cons, List.cons_append]
  exact List.perm_middle

/-- The heads, with the one of a given list in front. -/
theorem heads_perm : (heads (before ++ (done, a :: rest) :: after)).Perm
    (a :: heads (before ++ after)) := by
  simp only [heads_append, heads_cons]
  exact List.perm_middle

/-- Taking a head replaces it among the heads by the one behind it, if there is one. -/
theorem heads_take_perm : (heads (before ++ (done ++ [a], rest) :: after)).Perm
    (rest.head?.toList ++ heads (before ++ after)) := by
  simp only [heads_append, heads_cons]
  exact List.perm_append_comm_assoc ..

/-- Every head is the first element after the cut in one of the lists. -/
theorem exists_of_mem_heads (h : a ∈ heads cut) :
    ∃ before done rest after, cut = before ++ (done, a :: rest) :: after := by
  obtain ⟨⟨done, left⟩, hp, hhead⟩ := List.mem_filterMap.1 h
  obtain ⟨before, after, rfl⟩ := List.append_of_mem hp
  obtain ⟨rest, rfl⟩ := List.head?_eq_some_iff.1 hhead
  exact ⟨before, done, rest, after, rfl⟩

/-! ### Balanced cuts -/

variable [LinearOrder β] (val : α → β)

/-- Nothing taken exceeds anything that is left. -/
def Balanced (cut : Cut α) : Prop := ∀ a ∈ taken cut, ∀ b ∈ left cut, val a ≤ val b

/-- Nothing that is left is less. -/
def Least (a : α) (cut : Cut α) : Prop := ∀ b ∈ left cut, val a ≤ val b

/-- Each list is sorted. -/
def AllSorted (nodes : List (List α)) : Prop := ∀ xs ∈ nodes, xs.Pairwise (val · ≤ val ·)

variable {val}

/-- Each list of a cut of sorted lists is sorted across its cut. -/
theorem AllSorted.pairwise (h : AllSorted val (lists cut)) {p : List α × List α} (hp : p ∈ cut) :
    (p.1 ++ p.2).Pairwise (val · ≤ val ·) :=
  h _ (List.mem_map_of_mem hp)

/-- A least head is least. -/
theorem AllSorted.least (h : AllSorted val (lists cut)) (ha : ∀ b ∈ heads cut, val a ≤ val b) :
    Least val a cut := by
  intro b hb
  obtain ⟨xs, hxs, hb⟩ := List.mem_flatten.1 hb
  obtain ⟨⟨done, left⟩, hp, rfl⟩ := List.mem_map.1 hxs
  have hsorted := (List.pairwise_append.1 (h.pairwise hp)).2.1
  cases left with
  | nil => cases hb
  | cons c rest =>
    have hc : val a ≤ val c := ha c (List.mem_filterMap.2 ⟨_, hp, rfl⟩)
    rcases List.mem_cons.1 hb with rfl | hb
    · exact hc
    · exact hc.trans ((List.pairwise_cons.1 hsorted).1 b hb)

/-- Taking a least head keeps the balance. -/
theorem Balanced.take (h : Balanced val (before ++ (done, a :: rest) :: after))
    (ha : Least val a (before ++ (done, a :: rest) :: after)) :
    Balanced val (before ++ (done ++ [a], rest) :: after) := by
  intro x hx b hb
  have hb' := left_take_perm.mem_iff.2 (List.mem_cons_of_mem a hb)
  rcases List.mem_append.1 (taken_take_perm.mem_iff.1 hx) with hx | hx
  · exact h x hx b hb'
  · rw [List.mem_singleton.1 hx]
    exact ha b hb'

/-- A nonempty list has a greatest element. -/
theorem exists_greatest (val : α → β) {l : List α} (hne : l ≠ []) :
    ∃ a ∈ l, ∀ b ∈ l, val b ≤ val a := by
  induction l with
  | nil => exact absurd rfl hne
  | cons c l ih =>
    rcases eq_or_ne l [] with rfl | hl
    · exact ⟨c, List.mem_cons_self, fun b hb ↦ by rw [List.mem_singleton.1 hb]⟩
    · obtain ⟨a, ha, hmax⟩ := ih hl
      rcases le_total (val c) (val a) with hca | hac
      · exact ⟨a, List.mem_cons_of_mem c ha, List.forall_mem_cons.2 ⟨hca, hmax⟩⟩
      · exact ⟨c, List.mem_cons_self,
          List.forall_mem_cons.2 ⟨le_refl _, fun b hb ↦ (hmax b hb).trans hac⟩⟩

/-- One of the elements that are taken may have been the last one. -/
theorem Balanced.exists_take (h : Balanced val cut) (hsorted : AllSorted val (lists cut))
    (hne : taken cut ≠ []) :
    ∃ before done a rest after, cut = before ++ (done ++ [a], rest) :: after ∧
      Balanced val (before ++ (done, a :: rest) :: after) ∧
      Least val a (before ++ (done, a :: rest) :: after) := by
  obtain ⟨c, hc, hmax⟩ := exists_greatest val hne
  obtain ⟨xs, hxs, hcxs⟩ := List.mem_flatten.1 hc
  obtain ⟨⟨took, rest⟩, hp, rfl⟩ := List.mem_map.1 hxs
  have htook := (List.pairwise_append.1 (hsorted.pairwise hp)).1
  obtain ⟨before, after, rfl⟩ := List.append_of_mem hp
  obtain ⟨done, a, rfl⟩ : ∃ done a, took = done ++ [a] :=
    ⟨_, _, (List.dropLast_concat_getLast (List.ne_nil_of_mem hcxs)).symm⟩
  -- the last one of this list is as great
  have hca : val c ≤ val a := by
    rcases List.mem_append.1 hcxs with hcd | hca
    · exact (List.pairwise_append.1 htook).2.2 c hcd a List.mem_cons_self
    · rw [List.mem_singleton.1 hca]
  have ha : a ∈ taken (before ++ (done ++ [a], rest) :: after) :=
    mem_taken hp (List.mem_append_right done List.mem_cons_self)
  refine ⟨before, done, a, rest, after, rfl, fun x hx b hb ↦ ?_, fun b hb ↦ ?_⟩
  · have hx' := taken_take_perm.mem_iff.2 (List.mem_append_left [a] hx)
    rcases List.mem_cons.1 (left_take_perm.mem_iff.1 hb) with rfl | hb
    · exact (hmax x hx').trans hca
    · exact h x hx' b hb
  · rcases List.mem_cons.1 (left_take_perm.mem_iff.1 hb) with rfl | hb
    · exact le_refl _
    · exact h a ha b hb

/-! ### The first cut -/

/-- Nothing is taken. -/
def start (nodes : List (List α)) : Cut α := nodes.map fun xs ↦ ([], xs)

omit [LinearOrder β] in
theorem lists_start (nodes : List (List α)) : lists (start nodes) = nodes := by
  rw [lists, start, List.map_map]
  exact List.map_id nodes

omit [LinearOrder β] in
theorem taken_start : taken (start nodes) = [] := by
  rw [taken, start, List.map_map, List.flatten_eq_nil_iff, List.forall_mem_map]
  exact fun _ _ ↦ rfl

omit [LinearOrder β] in
theorem left_start : left (start nodes) = nodes.flatten := by
  rw [left, start, List.map_map]
  exact congrArg List.flatten (List.map_id nodes)

omit [LinearOrder β] in
theorem heads_start : heads (start nodes) = nodes.filterMap List.head? := by
  rw [heads, start, List.filterMap_map]
  rfl

omit [LinearOrder β] in
/-- A cut that took nothing is the start. -/
theorem eq_start (h : taken cut = []) : cut = start (lists cut) := by
  rw [taken, List.flatten_eq_nil_iff, List.forall_mem_map] at h
  rw [start, lists, List.map_map]
  refine (List.map_id cut).symm.trans (List.map_congr_left fun p hp ↦ ?_)
  have hp := h p hp
  obtain ⟨done, rest⟩ := p
  obtain rfl : done = [] := hp
  rfl

theorem balanced_start : Balanced val (start nodes) := fun a ha ↦ by
  rw [taken_start] at ha
  cases ha

/-! ### The cut at an element -/

/-- The first element of each list that is not less than `a`. -/
def headsAt (val : α → β) (a : α) (nodes : List (List α)) : List α :=
  nodes.filterMap fun xs ↦ xs.find? fun b ↦ decide (val a ≤ val b)

/-- Between the elements below a value and those not below it, the heads depend on the value only.
-/
theorem heads_eq_headsAt (htaken : ∀ b ∈ taken cut, ¬ val a ≤ val b)
    (hleft : ∀ b ∈ left cut, val a ≤ val b) : heads cut = headsAt val a (lists cut) := by
  rw [heads, headsAt, lists, List.filterMap_map]
  refine List.filterMap_congr fun p hp ↦ ?_
  rw [Function.comp_apply, List.find?_append, List.find?_eq_none.2 fun b hb ↦ by
    simpa using htaken b (mem_taken hp hb), Option.none_or]
  cases heq : p.2 with
  | nil => rfl
  | cons c rest =>
    have hc := hleft c (mem_left hp (heq ▸ List.mem_cons_self))
    rw [List.find?_cons_of_pos (by simpa using hc), List.head?_cons]

/-- If no other list has an element of the value, then the heads are those at the element. -/
theorem Balanced.heads_eq (h : Balanced val (before ++ (done, a :: rest) :: after))
    (ha : Least val a (before ++ (done, a :: rest) :: after))
    (hother : ∀ b ∈ headsAt val a (lists (before ++ after)), val a < val b) :
    heads (before ++ after) = headsAt val a (lists (before ++ after)) := by
  have hall : ∀ p ∈ before ++ after, p ∈ before ++ (done, a :: rest) :: after := fun p hp ↦ by
    rw [List.mem_append] at hp ⊢
    exact hp.imp_right (List.mem_cons_of_mem _)
  refine heads_eq_headsAt (fun b hb hab ↦ ?_) fun b hb ↦ ?_
  · obtain ⟨xs, hxs, hb⟩ := List.mem_flatten.1 hb
    obtain ⟨p, hp, rfl⟩ := List.mem_map.1 hxs
    -- the first such element has been taken, so it has the value
    have hsome : (p.1.find? fun b ↦ decide (val a ≤ val b)).isSome :=
      List.find?_isSome.2 ⟨b, hb, decide_eq_true hab⟩
    obtain ⟨c, hc⟩ := Option.isSome_iff_exists.1 hsome
    have hle := h c (mem_taken (hall p hp) (List.mem_of_find?_eq_some hc)) a
      (List.mem_flatten.2 ⟨a :: rest, List.mem_map.2
        ⟨_, List.mem_append_right _ List.mem_cons_self, rfl⟩, List.mem_cons_self⟩)
    refine absurd (hother c (List.mem_filterMap.2 ⟨_, List.mem_map_of_mem hp, ?_⟩)) hle.not_gt
    rw [List.find?_append, hc, Option.some_or]
  · obtain ⟨xs, hxs, hb⟩ := List.mem_flatten.1 hb
    obtain ⟨p, hp, rfl⟩ := List.mem_map.1 hxs
    exact ha b (mem_left (hall p hp) hb)

/-- What is less than `a` is taken. -/
def cutAt (val : α → β) (a : α) (nodes : List (List α)) : Cut α :=
  nodes.map fun xs ↦
    (xs.takeWhile fun b ↦ decide (val b < val a), xs.dropWhile fun b ↦ decide (val b < val a))

theorem lists_cutAt : lists (cutAt val a nodes) = nodes := by
  rw [lists, cutAt, List.map_map]
  refine (List.map_congr_left fun xs _ ↦ ?_).trans (List.map_id nodes)
  exact List.takeWhile_append_dropWhile

/-- Before the cut at a value stands what is below it. -/
theorem lt_of_mem_taken_cutAt (hb : b ∈ taken (cutAt val a nodes)) : val b < val a := by
  obtain ⟨xs, hxs, hb⟩ := List.mem_flatten.1 hb
  obtain ⟨p, hp, rfl⟩ := List.mem_map.1 hxs
  obtain ⟨ys, -, rfl⟩ := List.mem_map.1 hp
  have hlt : decide (val b < val a) = true :=
    List.mem_takeWhile_imp (p := fun b ↦ decide (val b < val a)) hb
  exact of_decide_eq_true hlt

/-- After the cut at a value stands what is not below it, when the lists are sorted. -/
theorem le_of_mem_left_cutAt (h : AllSorted val nodes) (hb : b ∈ left (cutAt val a nodes)) :
    val a ≤ val b := by
  obtain ⟨xs, hxs, hb⟩ := List.mem_flatten.1 hb
  obtain ⟨p, hp, rfl⟩ := List.mem_map.1 hxs
  obtain ⟨ys, hys, rfl⟩ := List.mem_map.1 hp
  have hsorted := (h ys hys).sublist (List.dropWhile_sublist fun b ↦ decide (val b < val a))
  have hhead := List.head?_dropWhile_not (fun b ↦ decide (val b < val a)) ys
  generalize ys.dropWhile (fun b ↦ decide (val b < val a)) = zs at hb hsorted hhead
  cases zs with
  | nil => cases hb
  | cons z zs =>
    have hz : val a ≤ val z := by simpa using hhead
    rcases List.mem_cons.1 hb with rfl | hb
    · exact hz
    · exact hz.trans ((List.pairwise_cons.1 hsorted).1 b hb)

/-- The turn of an element comes: before it in its list, and less in the others, all is taken. -/
theorem exists_cut {nodes' : List (List α)}
    (h : AllSorted val (nodes ++ (done ++ a :: rest) :: nodes')) :
    ∃ before after,
      lists (before ++ (done, a :: rest) :: after) = nodes ++ (done ++ a :: rest) :: nodes' ∧
      Balanced val (before ++ (done, a :: rest) :: after) ∧
      Least val a (before ++ (done, a :: rest) :: after) ∧
      heads (before ++ after) = headsAt val a (nodes ++ nodes') := by
  obtain ⟨hnodes, hthis, hnodes'⟩ : AllSorted val nodes ∧
      (done ++ a :: rest).Pairwise (val · ≤ val ·) ∧ AllSorted val nodes' := by
    rw [AllSorted, List.forall_mem_append, List.forall_mem_cons] at h
    exact h
  obtain ⟨-, hrest, hdone⟩ := List.pairwise_append.1 hthis
  have hleast : Least val a (cutAt val a nodes ++ (done, a :: rest) :: cutAt val a nodes') := by
    intro b hb
    rw [left_append, left_cons, List.mem_append, List.mem_append, List.mem_cons] at hb
    rcases hb with hb | (rfl | hb) | hb
    · exact le_of_mem_left_cutAt hnodes hb
    · exact le_refl _
    · exact (List.pairwise_cons.1 hrest).1 b hb
    · exact le_of_mem_left_cutAt hnodes' hb
  refine ⟨cutAt val a nodes, cutAt val a nodes', ?_, fun x hx b hb ↦ ?_, hleast, ?_⟩
  · rw [lists_append, lists_cons, lists_cutAt, lists_cutAt]
  · refine le_trans ?_ (hleast b hb)
    rw [taken_append, taken_cons, List.mem_append, List.mem_append] at hx
    rcases hx with hx | hx | hx
    · exact (lt_of_mem_taken_cutAt hx).le
    · exact hdone x hx a List.mem_cons_self
    · exact (lt_of_mem_taken_cutAt hx).le
  · have hlists : lists (cutAt val a nodes ++ cutAt val a nodes') = nodes ++ nodes' := by
      rw [lists_append, lists_cutAt, lists_cutAt]
    rw [← hlists]
    refine heads_eq_headsAt (fun b hb ↦ ?_) fun b hb ↦ ?_
    · rw [taken_append, List.mem_append] at hb
      rcases hb with hb | hb
      · exact (lt_of_mem_taken_cutAt hb).not_ge
      · exact (lt_of_mem_taken_cutAt hb).not_ge
    · rw [left_append, List.mem_append] at hb
      rcases hb with hb | hb
      · exact le_of_mem_left_cutAt hnodes hb
      · exact le_of_mem_left_cutAt hnodes' hb

end KWayMerge
