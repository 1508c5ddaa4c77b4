import Mathlib.Algebra.Group.Int.Defs
import Mathlib.Algebra.Group.Nat.Defs
import Mathlib.Data.Int.Order.Basic
import Mathlib.Data.List.Basic
import Mathlib.Data.List.Induction
import Mathlib.Order.Nat
import Mathlib.Tactic.Common

/-!
# Majorities

A value has the majority in a list if more than half of the elements are this value.

Two ways to find it. A vote cuts the list into blocks: a block ends when the lead of its first value
is used up, and the element that uses it up is the first one of the next block. The first value of
the last block is then the majority (`IsMajority.head?_lastBlock`). And in a tournament between the
halves of the list, where the winner of a half with more occurrences there wins, the majority wins
(`IsMajority.eq_of_wins`).
-/

namespace Majority

variable {α : Type*} {l xs ys xs' ys' b : List α} {m x y v w : α}

/-- The first half may have one element more. -/
structure Halves (xs ys : List α) : Prop where
  le : ys.length ≤ xs.length
  le_succ : xs.length ≤ ys.length + 1
  pos : 0 < ys.length

/-- A list has one pair of halves. -/
theorem Halves.inj (h : Halves xs ys) (h' : Halves xs' ys') (heq : xs ++ ys = xs' ++ ys') :
    xs = xs' ∧ ys = ys' := by
  have hlen := congrArg List.length heq
  have hle := h.le
  have hsucc := h.le_succ
  have hle' := h'.le
  have hsucc' := h'.le_succ
  rw [List.length_append, List.length_append] at hlen
  exact List.append_inj heq (by omega)

theorem Halves.ne_singleton (h : Halves xs ys) (x : α) : xs ++ ys ≠ [x] := by
  intro heq
  have hlen := congrArg List.length heq
  have hle := h.le
  have hpos := h.pos
  rw [List.length_append, List.length_singleton] at hlen
  omega

/-- A list of two elements or more has halves. -/
theorem exists_halves (hl : 1 < l.length) : ∃ xs ys, Halves xs ys ∧ xs ++ ys = l := by
  have htake : (l.take ((l.length + 1) / 2)).length = (l.length + 1) / 2 :=
    List.length_take_of_le (by omega)
  have hdrop := List.length_drop (i := (l.length + 1) / 2) (l := l)
  exact ⟨_, _, ⟨by omega, by omega, by omega⟩, List.take_append_drop ((l.length + 1) / 2) l⟩

variable [DecidableEq α]

/-- The value is more than half of the list. -/
def IsMajority (l : List α) (m : α) : Prop := l.length < 2 * l.count m

instance (l : List α) (m : α) : Decidable (IsMajority l m) := Nat.decLt _ _

theorem IsMajority.length_pos (hm : IsMajority l m) : 0 < l.length := by
  have hle : l.count m ≤ l.length := List.count_le_length
  rw [IsMajority] at hm
  omega

/-! ### Blocks -/

/-- The lead of the first value over the others. -/
def lead : List α → ℤ
  | [] => 0
  | x :: xs => 2 * ((x :: xs).count x : ℤ) - (x :: xs).length

/-- The last block, where the last element begins a new one if no lead is left. -/
def nextBlock (b : List α) (y : α) : List α := if 0 < lead (b ++ [y]) then b ++ [y] else [y]

/-- The block that the vote ends with. -/
def lastBlock (l : List α) : List α := l.foldl nextBlock []

theorem lead_singleton (x : α) : lead [x] = 1 := by
  rw [lead, List.count_singleton_self]
  rfl

theorem count_concat (l : List α) (y m : α) :
    (l ++ [y]).count m = l.count m + if y = m then 1 else 0 := by
  rw [List.count_append, List.count_singleton]
  exact congrArg _ (if_congr beq_iff_eq rfl rfl)

/-- A further element adds to the lead or takes from it. -/
theorem lead_concat (x : α) (xs : List α) (y : α) :
    lead (x :: xs ++ [y]) = lead (x :: xs) + if y = x then 1 else -1 := by
  rw [List.cons_append, lead, lead, ← List.cons_append, count_concat, List.length_append,
    List.length_singleton]
  by_cases hyx : y = x
  · rw [if_pos hyx, if_pos hyx]
    omega
  · rw [if_neg hyx, if_neg hyx]
    omega

theorem lead_le_length (b : List α) : lead b ≤ b.length := by
  cases b with
  | nil => exact le_rfl
  | cons x xs =>
    have hle : (x :: xs).count x ≤ (x :: xs).length := List.count_le_length
    rw [lead]
    omega

/-- The last block, one element further. -/
theorem lastBlock_concat (l : List α) (y : α) :
    lastBlock (l ++ [y]) = nextBlock (lastBlock l) y := by
  rw [lastBlock, List.foldl_append, List.foldl_cons, List.foldl_nil, ← lastBlock]

theorem nextBlock_nil (y : α) : nextBlock [] y = [y] := by
  rw [nextBlock, List.nil_append, ite_self]

/-- The first value has a lead. -/
theorem exists_lastBlock (hl : l ≠ []) : ∃ x xs, lastBlock l = x :: xs ∧ 0 < lead (x :: xs) := by
  obtain ⟨l, y, rfl⟩ := (List.eq_nil_or_concat' l).resolve_left hl
  rw [lastBlock_concat, nextBlock]
  split
  next hpos =>
    cases hb : lastBlock l with
    | nil => exact ⟨y, [], rfl, by rw [lead_singleton]; decide⟩
    | cons x xs =>
      rw [hb] at hpos
      exact ⟨x, xs ++ [y], rfl, hpos⟩
  next => exact ⟨y, [], rfl, by rw [lead_singleton]; decide⟩

theorem length_lastBlock_le (l : List α) : (lastBlock l).length ≤ l.length := by
  induction l using List.reverseRecOn with
  | nil => exact le_rfl
  | append_singleton l y ih =>
    rw [lastBlock_concat, nextBlock, List.length_append]
    split
    next =>
      rw [List.length_append]
      omega
    next => exact Nat.le_add_left 1 _

/-- How far `m` is in front, or behind, where a new block with another value goes on from 0. -/
def potential (m : α) (b : List α) : ℤ := if b.head? = some m then lead b else 1 - lead b

/-- The potential of a block that is not empty, by its first value. -/
theorem potential_cons (m x : α) (xs : List α) : potential m (x :: xs) =
    if x = m then lead (x :: xs) else 1 - lead (x :: xs) :=
  if_congr Option.some_inj rfl rfl

/-- Each occurrence of `m` adds 1, and each other element takes at most 1 away. -/
theorem le_potential (l : List α) (m : α) :
    2 * (l.count m : ℤ) - l.length ≤ potential m (lastBlock l) := by
  induction l using List.reverseRecOn with
  | nil =>
    rw [lastBlock, List.foldl_nil, potential, if_neg (by rw [List.head?_nil]; exact nofun),
      List.count_nil, List.length_nil, lead]
    decide
  | append_singleton l y ih =>
    rw [lastBlock_concat, count_concat, List.length_append, List.length_singleton]
    rcases eq_or_ne l [] with rfl | hl
    · rw [lastBlock, List.foldl_nil, nextBlock_nil, potential_cons, lead_singleton,
        List.count_nil, List.length_nil]
      split <;> decide
    · obtain ⟨x, xs, hb, hpos⟩ := exists_lastBlock hl
      rw [hb] at ih ⊢
      have hlead := lead_concat x xs y
      rw [potential_cons] at ih
      rw [nextBlock]
      by_cases hend : 0 < lead (x :: xs ++ [y])
      · rw [if_pos hend, List.cons_append, potential_cons, ← List.cons_append, hlead]
        by_cases hyx : y = x
        · rw [if_pos hyx, hyx]
          split at ih <;> split <;> omega
        · rw [if_neg hyx]
          by_cases hxm : x = m
          · rw [if_pos hxm] at ih
            rw [if_pos hxm, if_neg fun hym ↦ hyx (hym.trans hxm.symm)]
            omega
          · rw [if_neg hxm] at ih
            rw [if_neg hxm]
            split <;> omega
      · have hyx : y ≠ x := by
          intro hyx
          rw [if_pos hyx] at hlead
          omega
        rw [if_neg hend, potential_cons, lead_singleton]
        by_cases hxm : x = m
        · rw [if_pos hxm] at ih
          rw [if_neg fun hym ↦ hyx (hym.trans hxm.symm),
            if_neg fun hym ↦ hyx (hym.trans hxm.symm)]
          omega
        · rw [if_neg hxm] at ih
          split <;> omega

/-- **The vote**: the majority begins the last block. -/
theorem IsMajority.head?_lastBlock (hm : IsMajority l m) : (lastBlock l).head? = some m := by
  have hle := le_potential l m
  have hlt : 0 < potential m (lastBlock l) := by
    rw [IsMajority] at hm
    omega
  rw [potential] at hlt
  split at hlt
  next hhead => exact hhead
  next =>
    have hne : l ≠ [] := by
      rintro rfl
      exact absurd hm (Nat.lt_irrefl 0)
    obtain ⟨x, xs, hb, hpos⟩ := exists_lastBlock hne
    rw [hb] at hlt
    omega

/-- The majority leads the last block by at least what it has over the others. -/
theorem IsMajority.le_lead (hm : IsMajority l m) :
    2 * (l.count m : ℤ) - l.length ≤ lead (lastBlock l) := by
  have hle := le_potential l m
  rwa [potential, if_pos hm.head?_lastBlock] at hle

/-! ### Tournaments -/

/-- The value wins the tournament of the halves. -/
inductive Wins : List α → α → Prop
  | single (x : α) : Wins [x] x
  | both {xs ys : List α} {v : α} (h : Halves xs ys) (hxs : Wins xs v) (hys : Wins ys v) :
    Wins (xs ++ ys) v
  | left {xs ys : List α} {v w : α} (h : Halves xs ys) (hxs : Wins xs v) (hys : Wins ys w)
    (hne : v ≠ w) (hlt : ys.count w < xs.count v) : Wins (xs ++ ys) v
  | right {xs ys : List α} {v w : α} (h : Halves xs ys) (hxs : Wins xs v) (hys : Wins ys w)
    (hne : v ≠ w) (hle : xs.count v ≤ ys.count w) : Wins (xs ++ ys) w

/-- The winner is in the list. -/
theorem Wins.mem (hw : Wins l v) : v ∈ l := by
  induction hw with
  | single x => exact List.mem_singleton_self x
  | both _ _ _ ih => exact List.mem_append_left _ ih
  | left _ _ _ _ _ ih => exact List.mem_append_left _ ih
  | right _ _ _ _ _ _ ih => exact List.mem_append_right _ ih

/-- A list that is not empty has a winner. -/
theorem exists_wins (hl : l ≠ []) : ∃ v, Wins l v := by
  induction hn : l.length using Nat.strong_induction_on generalizing l with
  | _ n ih =>
    subst hn
    rcases Nat.lt_or_ge 1 l.length with hlt | hle
    · obtain ⟨xs, ys, h, rfl⟩ := exists_halves hlt
      have hle := h.le
      have hpos := h.pos
      rw [List.length_append] at ih
      obtain ⟨v, hv⟩ := ih xs.length (by omega) (List.ne_nil_of_length_pos (by omega)) rfl
      obtain ⟨w, hw⟩ := ih ys.length (by omega) (List.ne_nil_of_length_pos hpos) rfl
      rcases eq_or_ne v w with rfl | hne
      · exact ⟨v, .both h hv hw⟩
      · rcases lt_or_ge (ys.count w) (xs.count v) with hlt | hge
        · exact ⟨v, .left h hv hw hne hlt⟩
        · exact ⟨w, .right h hv hw hne hge⟩
    · obtain ⟨x, rfl⟩ := List.length_eq_one_iff.1 (le_antisymm hle (List.length_pos_iff.2 hl))
      exact ⟨x, .single x⟩

/-- There is one winner. -/
theorem Wins.unique {l' : List α} (hw : Wins l v) (hw' : Wins l' w) (heq : l = l') : v = w := by
  induction hw generalizing l' w with
  | single x =>
    cases hw' with
    | single y => exact List.singleton_inj.1 heq
    | both h => exact absurd heq.symm (h.ne_singleton x)
    | left h => exact absurd heq.symm (h.ne_singleton x)
    | right h => exact absurd heq.symm (h.ne_singleton x)
  | both h _ _ ihx ihy =>
    cases hw' with
    | single => exact absurd heq (h.ne_singleton _)
    | both h' hxs' => exact ihx hxs' (h.inj h' heq).1
    | left h' hxs' => exact ihx hxs' (h.inj h' heq).1
    | right h' _ hys' => exact ihy hys' (h.inj h' heq).2
  | left h _ _ hne hlt ihx ihy =>
    cases hw' with
    | single => exact absurd heq (h.ne_singleton _)
    | both h' hxs' => exact ihx hxs' (h.inj h' heq).1
    | left h' hxs' => exact ihx hxs' (h.inj h' heq).1
    | right h' hxs' hys' _ hle =>
      obtain ⟨rfl, rfl⟩ := h.inj h' heq
      obtain rfl := ihx hxs' rfl
      obtain rfl := ihy hys' rfl
      exact absurd hlt (not_lt.2 hle)
  | right h _ _ hne hle ihx ihy =>
    cases hw' with
    | single => exact absurd heq (h.ne_singleton _)
    | both h' _ hys' => exact ihy hys' (h.inj h' heq).2
    | left h' hxs' hys' _ hlt =>
      obtain ⟨rfl, rfl⟩ := h.inj h' heq
      obtain rfl := ihx hxs' rfl
      obtain rfl := ihy hys' rfl
      exact absurd hlt (not_lt.2 hle)
    | right h' _ hys' => exact ihy hys' (h.inj h' heq).2

/-- Two values together are counted at most as often as there are elements. -/
theorem count_add_count_le (l : List α) (hne : v ≠ m) : l.count v + l.count m ≤ l.length := by
  induction l with
  | nil => exact le_rfl
  | cons x l ih =>
    rw [List.length_cons]
    by_cases hxv : x = v
    · rw [hxv, List.count_cons_self, List.count_cons_of_ne hne]
      omega
    · rw [List.count_cons_of_ne hxv, List.count_cons]
      split <;> omega

/-- A majority is one in one of the parts. -/
theorem IsMajority.or (hm : IsMajority (xs ++ ys) m) : IsMajority xs m ∨ IsMajority ys m := by
  rw [IsMajority, List.length_append, List.count_append] at hm
  rw [IsMajority, IsMajority]
  omega

/-- **The tournament**: the majority wins. -/
theorem IsMajority.eq_of_wins (hm : IsMajority l m) (hw : Wins l v) : v = m := by
  induction hw with
  | single x =>
    by_contra hne
    rw [IsMajority, List.count_singleton, if_neg (by rwa [beq_iff_eq])] at hm
    exact absurd hm (Nat.not_lt_zero _)
  | both h _ _ ihx ihy => exact hm.or.elim ihx ihy
  | @left xs ys v w h _ _ hne hlt ihx ihy =>
    by_contra hvm
    obtain rfl := ihy (hm.or.resolve_left (mt ihx hvm))
    have hle := count_add_count_le xs hne
    have hsucc := h.le_succ
    rw [IsMajority, List.length_append, List.count_append] at hm
    omega
  | @right xs ys v w h _ _ hne hlt ihx ihy =>
    by_contra hwm
    obtain rfl := ihx (hm.or.resolve_right (mt ihy hwm))
    have hle := count_add_count_le ys hne
    have hle' := h.le
    rw [IsMajority, List.length_append, List.count_append] at hm
    omega

end Majority
