import Mathlib.Data.List.Infix
import Mathlib.Tactic.Common

/-!
# Splitting at a separator

`Splits sep xs ps`: the pieces of a list between the occurrences of a separator, where the
occurrences are taken from left to right and do not overlap.

With a separator that is not empty these are the pieces one expects: joined they give the list back
(`Splits.intercalate`), none contains the separator (`Splits.not_contains`) and there is one more of
them than there are occurrences (`Splits.length`).
-/

namespace Splitting

variable {α : Type*} {sep xs p rest : List α} {ps : List (List α)}

/-- The separator begins nowhere in `p` if `rest` follows. -/
def FirstAt (sep p rest : List α) : Prop := ∀ k < p.length, ¬ sep <+: (p ++ rest).drop k

/-- The pieces between the occurrences of the separator. -/
inductive Splits (sep : List α) : List α → List (List α) → Prop
  | last {xs : List α} (h : ¬ sep <:+: xs) : Splits sep xs [xs]
  | next {p rest : List α} {ps : List (List α)} (hfirst : FirstAt sep p (sep ++ rest))
    (h : Splits sep rest ps) : Splits sep (p ++ (sep ++ rest)) (p :: ps)

theorem Splits.ne_nil (h : Splits sep xs ps) : ps ≠ [] := by
  cases h <;> exact List.cons_ne_nil _ _

/-- Joining the pieces gives the list back. -/
theorem Splits.intercalate (h : Splits sep xs ps) : sep.intercalate ps = xs := by
  induction h with
  | last => exact List.intercalate_singleton
  | next _ h ih => rw [List.intercalate_cons_of_ne_nil h.ne_nil, ih, List.append_assoc]

/-- No separator is in a piece before the first one. -/
theorem FirstAt.not_contains (hsep : sep ≠ []) (h : FirstAt sep p rest) : ¬ sep <:+: p := by
  rintro ⟨s, t, rfl⟩
  have hpos : 0 < sep.length := List.length_pos_iff.2 hsep
  refine h s.length ?_ ⟨t ++ rest, ?_⟩
  · rw [List.length_append, List.length_append]
    omega
  · rw [List.append_assoc s, List.append_assoc s, List.drop_left, List.append_assoc]

/-- No piece contains the separator. -/
theorem Splits.not_contains (hsep : sep ≠ []) (h : Splits sep xs ps) : ∀ p ∈ ps, ¬ sep <:+: p := by
  induction h with
  | last h => exact List.forall_mem_singleton.2 h
  | next hfirst _ ih => exact List.forall_mem_cons.2 ⟨hfirst.not_contains hsep, ih⟩

/-! ### The number of occurrences -/

section Count

variable [DecidableEq α]

/-- The occurrences from left to right, behind `k` elements that belong to the one before. -/
def countFrom (sep : List α) : ℕ → List α → ℕ
  | _, [] => 0
  | 0, x :: xs =>
    if sep <+: x :: xs then countFrom sep (sep.length - 1) xs + 1 else countFrom sep 0 xs
  | k + 1, _ :: xs => countFrom sep k xs

/-- The occurrences that are found from left to right, without overlap. -/
def occurrences (sep xs : List α) : ℕ := countFrom sep 0 xs

theorem countFrom_eq (sep : List α) (k : ℕ) (xs : List α) :
    countFrom sep k xs = occurrences sep (xs.drop k) := by
  induction xs generalizing k with
  | nil => rw [List.drop_nil, occurrences, countFrom, countFrom]
  | cons x xs ih =>
    cases k with
    | zero => rfl
    | succ k => exact ih k

theorem occurrences_eq_zero (h : ¬ sep <:+: xs) : occurrences sep xs = 0 := by
  induction xs with
  | nil => rfl
  | cons x xs ih =>
    obtain ⟨hx, hxs⟩ := not_or.1 (mt List.infix_cons_iff.2 h)
    rw [occurrences, countFrom, if_neg hx]
    exact ih hxs

/-- The occurrences behind the first one are counted on. -/
theorem occurrences_append (hsep : sep ≠ []) (h : FirstAt sep p (sep ++ rest)) :
    occurrences sep (p ++ (sep ++ rest)) = occurrences sep rest + 1 := by
  induction p with
  | nil =>
    cases sep with
    | nil => cases hsep rfl
    | cons a sep =>
      have hsep : a :: sep <+: a :: (sep ++ rest) := List.prefix_append (a :: sep) rest
      rw [List.nil_append, List.cons_append, occurrences, countFrom, if_pos hsep, countFrom_eq,
        List.length_cons, Nat.add_sub_cancel, List.drop_left]
  | cons x p ih =>
    have hx : ¬ sep <+: x :: (p ++ (sep ++ rest)) := h 0 (Nat.succ_pos _)
    rw [List.cons_append, occurrences, countFrom, if_neg hx]
    exact ih fun k hk ↦ h (k + 1) (Nat.succ_lt_succ hk)

/-- There is one piece more than there are occurrences. -/
theorem Splits.length (hsep : sep ≠ []) (h : Splits sep xs ps) :
    ps.length = occurrences sep xs + 1 := by
  induction h with
  | last h => rw [occurrences_eq_zero h, List.length_singleton]
  | next hfirst _ ih => rw [occurrences_append hsep hfirst, List.length_cons, ih]

end Count

/-! ### A separator of one element -/

section Single

variable {a : α}

/-- A separator of one character is in no piece. -/
theorem Splits.notMem (h : Splits [a] xs ps) : ∀ p ∈ ps, a ∉ p := fun p hp ↦
  mt (List.singleton_infix_iff a p).2 (h.not_contains (List.cons_ne_nil a []) p hp)

/-- The occurrences of one character are counted one by one. -/
theorem occurrences_singleton [DecidableEq α] (a : α) (xs : List α) :
    occurrences [a] xs = xs.count a := by
  induction xs with
  | nil => rfl
  | cons x xs ih =>
    have hx : [a] <+: x :: xs ↔ x = a := by
      rw [List.cons_prefix_cons, and_iff_left (List.nil_prefix), eq_comm]
    rw [occurrences, countFrom, List.count_cons]
    split
    next h => rw [if_pos (beq_iff_eq.2 (hx.1 h)), ← ih]; rfl
    next h => rw [if_neg (mt (fun heq ↦ hx.2 (beq_iff_eq.1 heq)) h), ← ih]; rfl

end Single

end Splitting
