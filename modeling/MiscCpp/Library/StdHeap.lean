import MiscCpp.Library.HeapOrder
import MiscCpp.Library.StdAlgorithm

/-!
# Heaps, as documented

`std::is_heap`, and what is documented of `std::make_heap`, `std::push_heap` and `std::pop_heap`:
which elements a range has afterwards, that it is a heap, and for `pop_heap` which one is last.
Otherwise any order may result.

A range stays a heap with one more element at its end if its parent is not behind it. As only half
of the elements are in a place without children, any heap of given elements does so exactly if at
most one of them, or none if their number is even, is behind the new one
(`forall_isHeap_concat_iff`).
-/

namespace StdAlgorithm

open HeapOrder (parent parent_lt parent_eq_iff)

variable {α : Type*} {comp : α → α → Bool} {l l' as bs H : List α} {x y w : α}

/-- `std::is_heap`: no element is above its parent. -/
def IsHeap (comp : α → α → Bool) (l : List α) : Prop :=
  ∀ c < l.length, 0 < c → ∀ x, x ∈ l[parent c]? → ∀ y, y ∈ l[c]? → comp x y = false

instance : Decidable (IsHeap comp l) := inferInstanceAs (Decidable (∀ c < l.length, _))

theorem isHeap_nil : IsHeap comp ([] : List α) := fun c hc ↦ absurd hc (Nat.not_lt_zero c)

/-- No element of a heap is above its parent. -/
theorem IsHeap.parent_eq_false (h : IsHeap comp l) {c : ℕ} (hpos : 0 < c)
    (hx : l[parent c]? = some x) (hy : l[c]? = some y) : comp x y = false :=
  h c (List.getElem?_eq_some_iff.1 hy).1 hpos x hx y hy

/-- Elements in order are a heap. -/
theorem isHeap_of_pairwise (h : l.Pairwise (comp · · = false)) : IsHeap comp l := by
  intro c hc hpos x hx y hy
  have hlt := parent_lt hpos
  obtain ⟨hxl, rfl⟩ := List.getElem?_eq_some_iff.1 hx
  obtain ⟨hyl, rfl⟩ := List.getElem?_eq_some_iff.1 hy
  exact List.pairwise_iff_getElem.1 h _ _ hxl hyl hlt

/-- The first element is on top. -/
theorem IsHeap.top [StrictWeakOrder comp] (h : IsHeap comp (x :: l)) :
    ∀ y ∈ x :: l, comp x y = false := by
  have hindex : ∀ (c : ℕ) (y : α), (x :: l)[c]? = some y → comp x y = false := by
    intro c
    induction c using Nat.strongRecOn with
    | ind c ih =>
      intro y hy
      rcases Nat.eq_zero_or_pos c with rfl | hpos
      · obtain rfl := Option.some.inj hy
        exact irrefl_eq_false comp x
      · have hlt := parent_lt hpos
        obtain ⟨hyl, -⟩ := List.getElem?_eq_some_iff.1 hy
        have hz := List.getElem?_eq_getElem (Nat.lt_trans hlt hyl)
        exact trans_eq_false (ih _ hlt _ hz) (h.parent_eq_false hpos hz hy)
  intro y hy
  obtain ⟨c, hc⟩ := List.mem_iff_getElem?.1 hy
  exact hindex c y hc

/-! ### One more element -/

/-- An element that is not above its parent may be added at the end. -/
theorem isHeap_concat (h : IsHeap comp l)
    (hw : ∀ y, l[parent l.length]? = some y → comp y w = false) : IsHeap comp (l ++ [w]) := by
  intro c hc hpos x hx y hy
  have hlt := parent_lt hpos
  rw [List.length_append, List.length_singleton] at hc
  rcases Nat.lt_or_ge c l.length with hc' | hge
  · rw [List.getElem?_append_left (Nat.lt_trans hlt hc')] at hx
    rw [List.getElem?_append_left hc'] at hy
    exact h.parent_eq_false hpos hx hy
  · obtain rfl : c = l.length := by omega
    rw [List.getElem?_append_left hlt] at hx
    rw [List.getElem?_concat_length] at hy
    obtain rfl := Option.some.inj hy
    exact hw x hx

section Concat

variable [StrictWeakOrder comp]

/-- Two elements that the new one would be above are enough. -/
theorem isHeap_concat_of_countP (h : IsHeap comp (x :: l)) (hw : comp x w = false)
    (hcount : l.countP (comp · w) ≤ l.length % 2) : IsHeap comp (x :: l ++ [w]) := by
  refine isHeap_concat h fun y hy ↦ Bool.eq_false_iff.2 fun hyw ↦ ?_
  obtain ⟨p, hp⟩ : ∃ p, parent (x :: l).length = p + 1 := by
    refine Nat.exists_eq_succ_of_ne_zero fun hzero ↦ ?_
    rw [hzero] at hy
    obtain rfl := Option.some.inj hy
    rw [hw] at hyw
    cases hyw
  rw [hp, List.getElem?_cons_succ] at hy
  rw [List.length_cons, parent] at hp
  have hpos : 0 < l.countP (comp · w) :=
    List.countP_pos_iff.2 ⟨y, List.mem_of_getElem? hy, hyw⟩
  -- the number of elements is odd, and the last one is below this one
  have hlast : l[2 * p + 2]? = some (l[2 * p + 2]) := List.getElem?_eq_getElem (by omega)
  generalize l[2 * p + 2] = z at hlast
  have hyz : comp y z = false := by
    refine h.parent_eq_false (c := 2 * p + 3) (Nat.succ_pos _) ?_ hlast
    rw [(parent_eq_iff (Nat.succ_pos _)).2 (.inl (by omega : 2 * p + 3 = 2 * (p + 1) + 1))]
    exact hy
  have hzw : comp z w = true := by
    refine Bool.eq_true_of_not_eq_false fun hzw ↦ ?_
    rw [trans_eq_false hyz hzw] at hyw
    cases hyw
  have hfront : 0 < (l.take (p + 1)).countP (comp · w) := by
    refine List.countP_pos_iff.2 ⟨y, List.mem_of_getElem? (i := p) ?_, hyw⟩
    rwa [List.getElem?_take_of_lt (Nat.lt_succ_self p)]
  have hback : 0 < (l.drop (p + 1)).countP (comp · w) := by
    refine List.countP_pos_iff.2 ⟨z, List.mem_of_getElem? (i := p + 1) ?_, hzw⟩
    rwa [List.getElem?_drop, (by omega : p + 1 + (p + 1) = 2 * p + 2)]
  have hsum : (l.take (p + 1)).countP (comp · w) + (l.drop (p + 1)).countP (comp · w) =
      l.countP (comp · w) := by
    rw [← List.countP_append, List.take_append_drop]
  omega

/-- First the elements that are above. -/
def descending (comp : α → α → Bool) (l : List α) : List α := l.mergeSort fun a b ↦ !comp a b

omit [StrictWeakOrder comp] in
theorem descending_perm : (descending comp l).Perm l := List.mergeSort_perm l _

omit [StrictWeakOrder comp] in
/-- An element among others that are in order, behind those that are not below it. -/
theorem isHeap_insert (h : (as ++ bs).Pairwise (comp · · = false))
    (has : ∀ a ∈ as, comp a y = false)
    (hbs : ∀ c, parent c = as.length → ∀ b, (as ++ y :: bs)[c]? = some b → comp y b = false) :
    IsHeap comp (as ++ y :: bs) := by
  intro c hc hpos a ha b hb
  have hlt := parent_lt hpos
  have hself : (as ++ y :: bs)[as.length]? = some y := by
    rw [List.getElem?_append_right (Nat.le_refl _), Nat.sub_self]
    rfl
  -- the others, by their indices without the new element
  have hother : ∀ i, i ≠ as.length →
      (as ++ y :: bs)[i]? = (as ++ bs)[if i < as.length then i else i - 1]? := by
    intro i hne
    split
    · next hi => rw [List.getElem?_append_left hi, List.getElem?_append_left hi]
    · next hi =>
      obtain ⟨k, rfl⟩ : ∃ k, i = as.length + (k + 1) := ⟨i - as.length - 1, by omega⟩
      rw [List.getElem?_append_right (Nat.le_add_right _ _), Nat.add_sub_cancel_left,
        List.getElem?_cons_succ, ← Nat.add_assoc, Nat.add_sub_cancel,
        List.getElem?_append_right (Nat.le_add_right _ _), Nat.add_sub_cancel_left]
  by_cases hpar : parent c = as.length
  · rw [hpar, hself] at ha
    obtain rfl := Option.some.inj ha
    exact hbs c hpar b hb
  rcases eq_or_ne c as.length with rfl | hne
  · rw [hself] at hb
    obtain rfl := Option.some.inj hb
    rw [List.getElem?_append_left hlt] at ha
    exact has a (List.mem_of_getElem? ha)
  · rw [hother _ hpar] at ha
    rw [hother c hne] at hb
    obtain ⟨hal, rfl⟩ := List.getElem?_eq_some_iff.1 ha
    obtain ⟨hbl, rfl⟩ := List.getElem?_eq_some_iff.1 hb
    refine List.pairwise_iff_getElem.1 h _ _ hal hbl ?_
    split <;> split <;> omega

theorem pairwise_descending : (descending comp l).Pairwise (comp · · = false) := by
  have htrans : ∀ a b c, (!comp a b) = true → (!comp b c) = true → (!comp a c) = true :=
    fun a b c hab hbc ↦ not_lt_trans c b a hbc hab
  have htotal : ∀ a b, (!comp a b || !comp b a) = true := fun a b ↦ not_lt_total b a
  exact (List.pairwise_mergeSort htrans htotal l).imp fun h ↦ by rwa [Bool.not_eq_true'] at h

/-- A top element in front of the others in order is a heap. -/
theorem isHeap_cons_descending (htop : ∀ y ∈ H, comp x y = false) :
    IsHeap comp (x :: descending comp H) :=
  isHeap_of_pairwise (List.pairwise_cons.2
    ⟨fun y hy ↦ htop y (descending_perm.mem_iff.1 hy), pairwise_descending⟩)

/-- The elements in order, with one apart that may only have the last one below it. -/
theorem exists_apart {p : ℕ} (hp : H.length / 2 = p + 1)
    (hcount : H.length % 2 < H.countP (comp · w)) :
    ∃ as y bs, (as ++ y :: bs).Perm H ∧ (as ++ y :: bs).Pairwise (comp · · = false) ∧
      as.length = 2 * p + 1 ∧ comp y w = true := by
  have hordered : (descending comp H).Pairwise (comp · · = false) := pairwise_descending
  have hperm : (descending comp H).Perm H := descending_perm
  generalize descending comp H = s at hordered hperm
  have hlength := hperm.length_eq
  obtain ⟨as, y, bs, rfl, has, hbs⟩ : ∃ as y bs, s = as ++ y :: bs ∧ as.length = 2 * p + 1 ∧
      bs.length = H.length % 2 := by
    refine ⟨s.take (2 * p + 1), s[2 * p + 1], s.drop (2 * p + 2), ?_, ?_, ?_⟩
    · rw [← List.drop_eq_getElem_cons, List.take_append_drop]
    · rw [List.length_take_of_le (by omega)]
    · rw [List.length_drop]
      omega
  refine ⟨as, y, bs, hperm, hordered, has, Bool.eq_true_of_not_eq_false fun hyw ↦ ?_⟩
  -- otherwise only those behind it are counted
  have hzero : as.countP (comp · w) = 0 := List.countP_eq_zero.2 fun a ha haw ↦ by
    have hay := (List.pairwise_append.1 hordered).2.2 a ha y List.mem_cons_self
    rw [trans_eq_false hay hyw] at haw
    cases haw
  have hmost : bs.countP (comp · w) ≤ bs.length := List.countP_le_length
  rw [← hperm.countP_eq, List.countP_append, hzero,
    List.countP_cons_of_neg (by rw [hyw]; exact Bool.false_ne_true)] at hcount
  omega

/-- This one in the place of the parent. -/
theorem exists_not_isHeap_concat (htop : ∀ y ∈ H, comp x y = false)
    (hcount : H.length % 2 < H.countP (comp · w)) :
    ∃ l, l.Perm H ∧ IsHeap comp (x :: l) ∧ ¬ IsHeap comp (x :: l ++ [w]) := by
  have hle : H.countP (comp · w) ≤ H.length := List.countP_le_length
  obtain ⟨p, hp⟩ : ∃ p, H.length / 2 = p + 1 := ⟨H.length / 2 - 1, by omega⟩
  obtain ⟨as, y, bs, hperm, hordered, has, hyw⟩ := exists_apart hp hcount
  obtain ⟨-, hordered_bs, hcross⟩ := List.pairwise_append.1 hordered
  have hy : y ∈ H := hperm.mem_iff.1 (List.mem_append_right as List.mem_cons_self)
  have hsplit : as.take p ++ as.drop p = as := List.take_append_drop p as
  have htake : (as.take p).length = p := List.length_take_of_le (by omega)
  have harranged : (as.take p ++ y :: (as.drop p ++ bs)).Perm H := by
    refine .trans ?_ hperm
    refine List.perm_middle.trans (.trans (.cons y ?_) List.perm_middle.symm)
    rw [← List.append_assoc, hsplit]
  refine ⟨as.take p ++ y :: (as.drop p ++ bs), harranged, ?_, fun hheap ↦ ?_⟩
  · rw [← List.cons_append]
    refine isHeap_insert ?_ ?_ fun c hc b hb ↦ ?_
    · rw [List.cons_append, ← List.append_assoc, hsplit]
      refine List.pairwise_cons.2 ⟨fun b hb ↦ htop b ?_, ?_⟩
      · refine hperm.mem_iff.1 ?_
        exact List.mem_append.2 ((List.mem_append.1 hb).imp_right (List.mem_cons_of_mem y))
      · exact hordered.sublist ((List.sublist_cons_self y bs).append_left as)
    · refine List.forall_mem_cons.2 ⟨htop y hy, fun a ha ↦ ?_⟩
      exact hcross a (List.mem_of_mem_take ha) y List.mem_cons_self
    · -- there is nothing below it but the last element
      rw [List.length_cons, htake] at hc
      have hpos : 0 < c := Nat.pos_of_ne_zero fun hzero ↦ by
        rw [hzero] at hc
        cases hc
      have hchild := (parent_eq_iff hpos).1 hc
      have hfront : (x :: as.take p ++ y :: as.drop p).length = 2 * p + 3 := by
        rw [List.length_append, List.length_cons, htake, List.length_cons, List.length_drop]
        omega
      rw [← List.cons_append, ← List.append_assoc,
        List.getElem?_append_right (by omega)] at hb
      exact (List.pairwise_cons.1 hordered_bs).1 b (List.mem_of_getElem? hb)
  · have hparent : (x :: (as.take p ++ y :: (as.drop p ++ bs)) ++ [w])[parent (H.length + 1)]? =
        some y := by
      rw [parent, Nat.add_sub_cancel, hp, List.cons_append, List.getElem?_cons_succ,
        List.append_assoc, List.getElem?_append_right (Nat.le_of_eq htake), htake, Nat.sub_self]
      rfl
    have hnew : (x :: (as.take p ++ y :: (as.drop p ++ bs)) ++ [w])[H.length + 1]? = some w := by
      rw [← harranged.length_eq, ← List.length_cons, List.getElem?_concat_length]
    rw [hheap.parent_eq_false (Nat.succ_pos _) hparent hnew] at hyw
    cases hyw

/-- **One more element**, whatever the order of the others. -/
theorem forall_isHeap_concat_iff (htop : ∀ y ∈ H, comp x y = false) (hw : comp x w = false) :
    (∀ l, l.Perm H → IsHeap comp (x :: l) → IsHeap comp (x :: l ++ [w])) ↔
      H.countP (comp · w) ≤ H.length % 2 := by
  refine ⟨fun h ↦ Nat.le_of_not_lt fun hcount ↦ ?_, fun hcount l hperm h ↦ ?_⟩
  · obtain ⟨l, hperm, hl, hnot⟩ := exists_not_isHeap_concat htop hcount
    exact hnot (h l hperm hl)
  · exact isHeap_concat_of_countP h hw (by rwa [hperm.countP_eq, hperm.length_eq])

end Concat

/-! ### Implementations -/

/-- The heap functions of a standard library. -/
structure HeapImplementation (α : Type*) where
  makeHeap : (α → α → Bool) → List α → List α
  pushHeap : (α → α → Bool) → List α → List α
  popHeap : (α → α → Bool) → List α → List α

/-- The documented behaviour. -/
structure LawfulHeap (std : HeapImplementation α) : Prop where
  make : ∀ comp, StrictWeakOrder comp → ∀ l,
    (std.makeHeap comp l).Perm l ∧ IsHeap comp (std.makeHeap comp l)
  push : ∀ comp, StrictWeakOrder comp → ∀ l x, IsHeap comp l →
    (std.pushHeap comp (l ++ [x])).Perm (l ++ [x]) ∧ IsHeap comp (std.pushHeap comp (l ++ [x]))
  pop : ∀ comp, StrictWeakOrder comp → ∀ x l, IsHeap comp (x :: l) →
    ∃ l', std.popHeap comp (x :: l) = l' ++ [x] ∧ l'.Perm l ∧ IsHeap comp l'

/-- `std::push_heap`, which is defined if the range is a heap without its last element. -/
def pushHeap (std : HeapImplementation α) (comp : α → α → Bool) (l : List α) : Option (List α) :=
  if l ≠ [] ∧ IsHeap comp l.dropLast then some (std.pushHeap comp l) else none

/-- `std::pop_heap`, which is defined for a heap that is not empty. -/
def popHeap (std : HeapImplementation α) (comp : α → α → Bool) (l : List α) : Option (List α) :=
  if l ≠ [] ∧ IsHeap comp l then some (std.popHeap comp l) else none

section Choice

variable [DecidableEq α] {choose choosePop : List α → List α}

/-- The chosen order, if it is that of a heap. -/
def arrange (choose : List α → List α) (comp : α → α → Bool) (l : List α) : List α :=
  if (choose l).Perm l ∧ IsHeap comp (choose l) then choose l else descending comp l

/-- Heaps in the chosen orders. -/
def choosing (choose choosePop : List α → List α) : HeapImplementation α where
  makeHeap := arrange choose
  pushHeap := arrange choose
  popHeap comp l := arrange choosePop comp l.tail ++ l.head?.toList

/-- A chosen order that is a heap is taken. -/
theorem arrange_of_isHeap (hperm : (choose l).Perm l) (h : IsHeap comp (choose l)) :
    arrange choose comp l = choose l := if_pos ⟨hperm, h⟩

theorem arrange_perm : (arrange choose comp l).Perm l := by
  rw [arrange]
  split
  · next h => exact h.1
  · exact descending_perm

/-- Arranging makes a heap, whatever was chosen. -/
theorem isHeap_arrange [StrictWeakOrder comp] : IsHeap comp (arrange choose comp l) := by
  rw [arrange]
  split
  · next h => exact h.2
  · exact isHeap_of_pairwise pairwise_descending

/-- **Any choice of orders** behaves as documented. -/
theorem lawful_choosing : LawfulHeap (choosing choose choosePop) where
  make _ _ _ := ⟨arrange_perm, isHeap_arrange⟩
  push _ _ _ _ _ := ⟨arrange_perm, isHeap_arrange⟩
  pop _ _ _ _ _ := ⟨_, rfl, arrange_perm, isHeap_arrange⟩

/-- A given element in front. -/
def favour (comp : α → α → Bool) (x : α) (l : List α) : List α :=
  x :: descending comp (l.erase x)

theorem favour_perm (hx : x ∈ l) : (favour comp x l).Perm l :=
  (descending_perm.cons x).trans (List.perm_cons_erase hx).symm

theorem isHeap_favour [StrictWeakOrder comp] (htop : ∀ y ∈ l, comp x y = false) :
    IsHeap comp (favour comp x l) :=
  isHeap_cons_descending fun y hy ↦ htop y (List.mem_of_mem_erase hy)

/-- A top element can be chosen to be the first one. -/
theorem arrange_favour [StrictWeakOrder comp] (hx : x ∈ l) (htop : ∀ y ∈ l, comp x y = false) :
    arrange (favour comp x) comp l = favour comp x l :=
  arrange_of_isHeap (favour_perm hx) (isHeap_favour htop)

end Choice

end StdAlgorithm
