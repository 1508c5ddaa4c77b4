import Mathlib.Data.List.Nodup
import Mathlib.Logic.Function.Basic
import Mathlib.Tactic.Common

/-!
# Singly linked segments

A heap of nodes with `next` pointers, as a function `ι → Option ι`, and the predicate
`Seg next p xs q`: from the pointer `p` on, the pointers lead through the nodes `xs` to `q`.

A segment splits anywhere (`seg_append`) and depends on the pointers of its own nodes only
(`Seg.congr`). The writes are those at its last node (`Seg.set_last`) and the insertion of a node
behind another one (`Seg.insert`).
-/

namespace SinglyLinked

open Function

variable {ι : Type*}

/-- From `p` on through `xs` to `q`. -/
def Seg (next : ι → Option ι) : Option ι → List ι → Option ι → Prop
  | p, [], q => p = q
  | p, x :: xs, q => p = some x ∧ Seg next (next x) xs q

variable {next next' : ι → Option ι} {p q r : Option ι} {x y : ι} {xs ys : List ι}

@[simp] theorem seg_nil : Seg next p [] q ↔ p = q := Iff.rfl

@[simp] theorem seg_cons :
    Seg next p (x :: xs) q ↔ p = some x ∧ Seg next (next x) xs q := Iff.rfl

theorem seg_append :
    Seg next p (xs ++ ys) q ↔ ∃ r, Seg next p xs r ∧ Seg next r ys q := by
  induction xs generalizing p with
  | nil => simp
  | cons x xs ih =>
    rw [List.cons_append, seg_cons, ih]
    exact ⟨fun ⟨hp, r, h⟩ ↦ ⟨r, ⟨hp, h.1⟩, h.2⟩, fun ⟨r, h, h'⟩ ↦ ⟨h.1, r, h.2, h'⟩⟩

/-- The frame rule: a segment depends on the pointers of its own nodes only. -/
theorem Seg.congr (h : Seg next p xs q) (hn : ∀ x ∈ xs, next' x = next x) :
    Seg next' p xs q := by
  induction xs generalizing p with
  | nil => exact h
  | cons x xs ih =>
    refine ⟨h.1, ?_⟩
    rw [hn x List.mem_cons_self]
    exact ih h.2 fun y hy ↦ hn y (List.mem_cons_of_mem x hy)

/-- The pointer behind the last node. -/
theorem seg_concat : Seg next p (xs ++ [x]) q ↔ Seg next p xs (some x) ∧ next x = q := by
  rw [seg_append]
  constructor
  · rintro ⟨r, h, rfl, hq⟩
    exact ⟨h, hq⟩
  · exact fun ⟨h, hq⟩ ↦ ⟨_, h, rfl, hq⟩

/-- The last node of a segment points to its end. -/
theorem Seg.next_last (h : Seg next p xs q) (hx : xs.getLast? = some x) : next x = q := by
  obtain ⟨ys, rfl⟩ := List.getLast?_eq_some_iff.1 hx
  exact (seg_concat.1 h).2

/-- A node within a segment points to the next one. -/
theorem Seg.next_middle (h : Seg next p (xs ++ x :: y :: ys) q) : next x = some y := by
  obtain ⟨r, -, -, hy, -⟩ := seg_append.1 h
  exact hy

/-- A list that ends is entered at its first node. -/
theorem Seg.eq_head? (h : Seg next p xs none) : p = xs.head? := by
  cases xs with
  | nil => exact h
  | cons x xs => exact h.1

/-- A segment to the null pointer is determined by where it starts. -/
theorem Seg.unique (h : Seg next p xs none) (h' : Seg next p ys none) : xs = ys := by
  induction xs generalizing p ys with
  | nil =>
    cases ys with
    | nil => rfl
    | cons y ys =>
      rw [seg_nil] at h
      rw [h] at h'
      cases h'.1
  | cons x xs ih =>
    cases ys with
    | nil =>
      rw [seg_nil] at h'
      rw [h'] at h
      cases h.1
    | cons y ys =>
      obtain rfl := Option.some.inj (h.1.symm.trans h'.1)
      rw [ih h.2 h'.2]

/-- A segment to the null pointer does not come back to a node. -/
theorem Seg.nodup (h : Seg next p xs none) : xs.Nodup := by
  induction xs generalizing p with
  | nil => exact List.nodup_nil
  | cons x xs ih =>
    refine List.nodup_cons.2 ⟨fun hx ↦ ?_, ih h.2⟩
    -- from the second visit on the segment would be the same as from the first
    obtain ⟨ys, zs, rfl⟩ := List.append_of_mem hx
    obtain ⟨r, -, hr, hz⟩ := seg_append.1 h.2
    have heq := h.2.unique hz
    have hlen := congrArg List.length heq
    rw [List.length_append, List.length_cons] at hlen
    omega

/-- A list, and another one that the pointer of its last node leads to. -/
theorem Seg.append_last (h : Seg next p xs none) (hx : xs.getLast? = some x)
    (hn : ∀ y ∈ xs, y ≠ x → next' y = next y) (hys : Seg next' (next' x) ys q) :
    Seg next' p (xs ++ ys) q := by
  have hnodup := h.nodup
  obtain ⟨zs, rfl⟩ := List.getLast?_eq_some_iff.1 hx
  have hdisjoint := (List.nodup_append.1 hnodup).2.2
  have hzs : Seg next' p zs (some x) := (seg_concat.1 h).1.congr fun y hy ↦
    hn y (List.mem_append_left _ hy) (hdisjoint y hy x List.mem_cons_self)
  exact seg_append.2 ⟨next' x, seg_concat.2 ⟨hzs, rfl⟩, hys⟩

variable [DecidableEq ι]

/-- Redirecting the last node moves the far end. -/
theorem Seg.set_last (h : Seg next p (xs ++ [x]) q) (hx : x ∉ xs) (q' : Option ι) :
    Seg (update next x q') p (xs ++ [x]) q' := by
  rw [seg_concat] at h ⊢
  exact ⟨h.1.congr fun y hy ↦ update_of_ne (ne_of_mem_of_not_mem hy hx) .., update_self ..⟩

/-- A list, cut behind the node `x`. -/
theorem Seg.cut (h : Seg next p (xs ++ x :: ys) none) (hnodup : (xs ++ x :: ys).Nodup) :
    Seg (update next x none) p (xs ++ [x]) none ∧ Seg (update next x none) (next x) ys none := by
  obtain ⟨q, hxs, rfl, hys⟩ := seg_append.1 h
  obtain ⟨-, hxys, hdisjoint⟩ := List.nodup_append.1 hnodup
  have hx : x ∉ xs := fun hmem ↦ hdisjoint x hmem x List.mem_cons_self rfl
  exact ⟨(seg_concat.2 ⟨hxs, rfl⟩).set_last hx none, hys.congr fun y hy ↦
    update_of_ne (ne_of_mem_of_not_mem hy (List.nodup_cons.1 hxys).1) ..⟩

/-- A new node `y` behind `x`. -/
theorem Seg.insert (h : Seg next p (xs ++ x :: ys) q) (hnodup : (xs ++ x :: ys).Nodup)
    (hy : y ∉ xs ++ x :: ys) :
    Seg (update (update next y (next x)) x (some y)) p (xs ++ x :: y :: ys) q := by
  obtain ⟨r, hxs, hr, hys⟩ := seg_append.1 h
  obtain ⟨-, hxys, hdisjoint⟩ := List.nodup_append.1 hnodup
  have hframe : ∀ z ∈ xs ++ ys, update (update next y (next x)) x (some y) z = next z := by
    intro z hz
    have hzx : z ≠ x := by
      rcases List.mem_append.1 hz with hz | hz
      · exact hdisjoint z hz x List.mem_cons_self
      · exact ne_of_mem_of_not_mem hz (List.nodup_cons.1 hxys).1
    have hzy : z ≠ y := by
      refine ne_of_mem_of_not_mem (?_ : z ∈ xs ++ x :: ys) hy
      rw [List.mem_append, List.mem_cons]
      exact (List.mem_append.1 hz).imp_right .inr
    rw [update_of_ne hzx, update_of_ne hzy]
  have hyx : y ≠ x := fun heq ↦ hy (heq ▸ List.mem_append_right xs List.mem_cons_self)
  refine seg_append.2 ⟨r, hxs.congr fun z hz ↦ hframe z (List.mem_append_left ys hz), hr, ?_⟩
  rw [update_self, seg_cons, update_of_ne hyx, update_self]
  exact ⟨rfl, hys.congr fun z hz ↦ hframe z (List.mem_append_right xs hz)⟩

/-- The node `y` behind `x` taken out. -/
theorem Seg.unlink (h : Seg next p (xs ++ x :: y :: ys) q) (hnodup : (xs ++ x :: y :: ys).Nodup) :
    Seg (update next x (next y)) p (xs ++ x :: ys) q := by
  obtain ⟨r, hxs, hr, hy, hys⟩ := seg_append.1 h
  obtain ⟨-, hxys, hdisjoint⟩ := List.nodup_append.1 hnodup
  have hx := (List.nodup_cons.1 hxys).1
  refine seg_append.2 ⟨r, hxs.congr fun z hz ↦ update_of_ne ?_ .., hr, ?_⟩
  · exact hdisjoint z hz x List.mem_cons_self
  · rw [update_self]
    exact hys.congr fun z hz ↦
      update_of_ne (ne_of_mem_of_not_mem (List.mem_cons_of_mem y hz) hx) ..

/-- The node `y` taken from its place behind `x` and put behind `z`, further to the front. -/
theorem Seg.move {z : ι} {zs : List ι} (h : Seg next p (xs ++ z :: (zs ++ x :: y :: ys)) q)
    (hnodup : (xs ++ z :: (zs ++ x :: y :: ys)).Nodup) :
    Seg (update (update (update next z (some y)) x (next y)) y (next z)) p
      (xs ++ z :: y :: (zs ++ x :: ys)) q := by
  have hperm : (xs ++ z :: (zs ++ x :: y :: ys)).Perm (y :: (xs ++ z :: (zs ++ x :: ys))) := by
    have hmiddle : (xs ++ z :: (zs ++ [x]) ++ y :: ys).Perm (y :: (xs ++ z :: (zs ++ [x]) ++ ys)) :=
      List.perm_middle
    simpa only [List.append_assoc, List.cons_append, List.nil_append] using hmiddle
  obtain ⟨hy, hnodup'⟩ := List.nodup_cons.1 (hperm.nodup_iff.1 hnodup)
  obtain ⟨-, hzs, -⟩ := List.nodup_append.1 hnodup'
  have hmem : x ∈ zs ++ x :: ys := List.mem_append_right _ List.mem_cons_self
  have hxz : x ≠ z := ne_of_mem_of_not_mem hmem (List.nodup_cons.1 hzs).1
  have hyz : y ≠ z := fun heq ↦ hy (heq ▸ List.mem_append_right _ List.mem_cons_self)
  have hunlink : Seg (update next x (next y)) p (xs ++ z :: (zs ++ x :: ys)) q := by
    have happend : ∀ ws, xs ++ z :: (zs ++ ws) = xs ++ z :: zs ++ ws := fun ws ↦ by
      rw [List.append_assoc, List.cons_append]
    rw [happend] at h hnodup ⊢
    exact h.unlink hnodup
  have hinsert := hunlink.insert hnodup' hy
  rwa [update_of_ne hxz.symm, update_comm hyz, update_comm hxz] at hinsert

end SinglyLinked
