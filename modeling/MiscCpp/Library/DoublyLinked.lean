import Mathlib.Data.List.Nodup
import Mathlib.Logic.Function.Basic
import Mathlib.Tactic.Common

/-!
# Doubly linked segments

A heap of nodes with `prev` and `next` pointers, as two functions `ι → Option ι`, and the predicate
`Linked prev next p xs n`: the nodes `xs`, in this order, are chained in both directions, the first
one pointing back to `p` and the last one forward to `n`.

The lemmas are those an operation on linked lists is verified with: splitting a segment
(`linked_append`), the frame rule (`Linked.congr`: writes to nodes outside a segment do not change
it), and the two writes at a segment's ends (`Linked.set_next_last`, `Linked.set_prev_head`).
-/

namespace DoublyLinked

variable {ι : Type*}

/-- `xs` is chained through `prev` and `next`, between `p` before and `n` behind. -/
def Linked (prev next : ι → Option ι) : Option ι → List ι → Option ι → Prop
  | _, [], _ => True
  | p, x :: xs, n => prev x = p ∧ next x = xs.head?.or n ∧ Linked prev next (some x) xs n

variable {prev next prev' next' : ι → Option ι} {p n : Option ι} {x : ι} {xs ys zs : List ι}

@[simp] theorem linked_nil : Linked prev next p [] n := trivial

@[simp] theorem linked_cons :
    Linked prev next p (x :: xs) n ↔
      prev x = p ∧ next x = xs.head?.or n ∧ Linked prev next (some x) xs n :=
  Iff.rfl

/-- A segment splits anywhere: each half is closed by the other's nearest node. -/
theorem linked_append :
    Linked prev next p (xs ++ ys) n ↔
      Linked prev next p xs (ys.head?.or n) ∧ Linked prev next (xs.getLast?.or p) ys n := by
  induction xs generalizing p with
  | nil => simp
  | cons x xs ih =>
    simp only [List.cons_append, linked_cons, ih, List.head?_append, List.getLast?_cons,
      Option.or_assoc]
    cases hxs : xs.getLast? with
    | none => simp [and_assoc]
    | some y => simp [and_assoc]

/-- The frame rule: a segment depends on the pointers of its own nodes only. -/
theorem Linked.congr (h : Linked prev next p xs n) (hp : ∀ x ∈ xs, prev' x = prev x)
    (hn : ∀ x ∈ xs, next' x = next x) : Linked prev' next' p xs n := by
  induction xs generalizing p with
  | nil => trivial
  | cons x xs ih =>
    obtain ⟨h₁, h₂, h₃⟩ := h
    refine ⟨(hp x (by simp)).trans h₁, (hn x (by simp)).trans h₂, ih h₃ ?_ ?_⟩
    · exact fun y hy ↦ hp y (List.mem_cons_of_mem x hy)
    · exact fun y hy ↦ hn y (List.mem_cons_of_mem x hy)

/-- The node in the middle of a segment points at its neighbours. -/
theorem Linked.middle (h : Linked prev next p (xs ++ x :: ys) n) :
    prev x = xs.getLast?.or p ∧ next x = ys.head?.or n :=
  let ⟨h₁, h₂, _⟩ := (linked_append.1 h).2
  ⟨h₁, h₂⟩

section Writes

variable [DecidableEq ι]

/-- Writing a pointer of an optional node: nothing happens at a null. -/
def setAt (f : ι → Option ι) (k v : Option ι) : ι → Option ι :=
  match k with
  | some y => Function.update f y v
  | none => f

@[simp] theorem setAt_none (f : ι → Option ι) (v : Option ι) : setAt f none v = f := rfl

@[simp] theorem setAt_some (f : ι → Option ι) (y : ι) (v : Option ι) :
    setAt f (some y) v = Function.update f y v := rfl

theorem setAt_of_ne (f : ι → Option ι) {k v : Option ι} (hk : k ≠ some x) :
    setAt f k v x = f x := by
  cases k with
  | none => rfl
  | some y => exact Function.update_of_ne (fun e : x = y ↦ hk (congrArg some e.symm)) _ _

/-- Redirecting the last node's `next` moves the segment's far end. -/
theorem Linked.set_next_last (h : Linked prev next p xs n) (hxs : xs.Nodup) (n' : Option ι) :
    Linked prev (setAt next xs.getLast? n') p xs n' := by
  rcases List.eq_nil_or_concat xs with rfl | ⟨xs, x, rfl⟩
  · trivial
  · rw [List.concat_eq_append] at h hxs ⊢
    rw [List.getLast?_concat, setAt_some]
    rw [linked_append] at h ⊢
    have hx : x ∉ xs := fun hx ↦ (List.nodup_append.1 hxs).2.2 x hx x (by simp) rfl
    refine ⟨h.1.congr (fun _ _ ↦ rfl) fun y hy ↦ ?_, h.2.1, by simp, trivial⟩
    exact Function.update_of_ne (ne_of_mem_of_not_mem hy hx) _ _

/-- Redirecting the first node's `prev` moves the segment's near end. -/
theorem Linked.set_prev_head (h : Linked prev next p xs n) (hxs : xs.Nodup) (p' : Option ι) :
    Linked (setAt prev xs.head? p') next p' xs n := by
  cases xs with
  | nil => trivial
  | cons x xs =>
    have hx : x ∉ xs := (List.nodup_cons.1 hxs).1
    refine ⟨by simp, h.2.1, h.2.2.congr (fun y hy ↦ ?_) fun _ _ ↦ rfl⟩
    exact Function.update_of_ne (ne_of_mem_of_not_mem hy hx) _ _

end Writes

end DoublyLinked
