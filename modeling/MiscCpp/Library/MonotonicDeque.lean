import Mathlib.Data.List.Basic
import Mathlib.Order.Bounds.Basic
import Mathlib.Tactic.Common

/-!
# The deque of a sliding window

For a window of a sequence `f` the deque has the indices, the greatest one first, which no later
index of the window drives out: a value `x` drives out an earlier value `y` unless `R x y`, and `R`
is `<` or `≤` here, so that of equal values either the last one stays or all of them.

When the window moves, an index is pushed (`Candidates.push`) and the first one of the window leaves
(`Candidates.leave`). The value of the last one in the deque is the greatest of the window
(`Candidates.isGreatest`).
-/

namespace MonotonicDeque

variable {α : Type*} {R : α → α → Prop} {f : ℕ → α} {idx : List ℕ}
  {lo hi i j : ℕ}

/-- The indices of the window from `lo` to `hi` that have not been driven out. -/
structure Candidates (R : α → α → Prop) (f : ℕ → α) (lo hi : ℕ) (idx : List ℕ) : Prop where
  sorted : idx.Pairwise (· > ·)
  mem_iff : ∀ j, j ∈ idx ↔ lo ≤ j ∧ j < hi ∧ ∀ k, j < k → k < hi → R (f k) (f j)

/-- The values in the window. -/
def window (f : ℕ → α) (lo hi : ℕ) : Set α := {x | ∃ j, lo ≤ j ∧ j < hi ∧ f j = x}

theorem candidates_nil (R : α → α → Prop) (f : ℕ → α) (lo : ℕ) : Candidates R f lo lo [] where
  sorted := .nil
  mem_iff _ := ⟨fun h ↦ absurd h List.not_mem_nil, fun h ↦ absurd h.2.1 (not_lt.2 h.1)⟩

/-- The first index in the deque is the last one of the list. -/
theorem Candidates.exists_front (h : Candidates R f lo hi idx) (hlt : lo < hi) :
    ∃ j, idx.getLast? = some j ∧ lo ≤ j ∧ j < hi ∧ ∀ i ∈ idx, i ≠ j → j < i := by
  have hmem : hi - 1 ∈ idx := (h.mem_iff _).2 ⟨by omega, by omega, fun k hk hk' ↦ by omega⟩
  obtain ⟨rest, j, rfl⟩ := (List.eq_nil_or_concat' idx).resolve_left (List.ne_nil_of_mem hmem)
  have hj := (h.mem_iff j).1 (List.mem_append_right rest (List.mem_singleton_self j))
  refine ⟨j, List.getLast?_concat, hj.1, hj.2.1, fun i hi hne ↦ ?_⟩
  have hrest := (List.mem_append.1 hi).resolve_right (by rwa [List.mem_singleton])
  exact (List.pairwise_append.1 h.sorted).2.2 i hrest j (List.mem_singleton_self j)

/-- **The first index of the window** leaves, and so it does in the deque if it is there. -/
theorem Candidates.leave (h : Candidates R f lo hi idx) (hj : idx.getLast? = some j) :
    Candidates R f (lo + 1) hi (if j = lo then idx.dropLast else idx) := by
  have hbounds := (h.mem_iff j).1 (List.mem_of_getLast? hj)
  obtain ⟨j', hj', -, -, hfirst⟩ := h.exists_front (hbounds.1.trans_lt hbounds.2.1)
  obtain rfl := Option.some.inj (hj.symm.trans hj')
  split
  next heq =>
    obtain ⟨rest, rfl⟩ := List.getLast?_eq_some_iff.1 hj
    obtain ⟨hsorted, -, hlast⟩ := List.pairwise_append.1 h.sorted
    rw [List.dropLast_concat]
    refine ⟨hsorted, fun i ↦ ⟨fun hi ↦ ?_, fun hi ↦ ?_⟩⟩
    · have hi' := (h.mem_iff i).1 (List.mem_append_left _ hi)
      have hlt := hlast i hi j (List.mem_singleton_self j)
      exact ⟨heq ▸ hlt, hi'.2⟩
    · have hmem := (h.mem_iff i).2 ⟨Nat.le_of_succ_le hi.1, hi.2⟩
      refine (List.mem_append.1 hmem).resolve_right fun hij ↦ ?_
      rw [List.mem_singleton] at hij
      omega
  next hne =>
    refine ⟨h.sorted, fun i ↦ ⟨fun hi ↦ ?_, fun hi ↦ ?_⟩⟩
    · have hi' := (h.mem_iff i).1 hi
      refine ⟨?_, hi'.2⟩
      rcases eq_or_ne i j with rfl | hij
      · omega
      · have hlt := hfirst i hi hij
        omega
    · exact (h.mem_iff i).2 ⟨Nat.le_of_succ_le hi.1, hi.2⟩

/-- Where all that stays is behind all that does not, it can be found from the front. -/
theorem dropWhile_eq_filter {β : Type*} {p : β → Bool} {l : List β}
    (h : l.Pairwise fun a b ↦ p a = true → p b = true) :
    l.dropWhile (fun a ↦ !p a) = l.filter p := by
  induction l with
  | nil => rfl
  | cons a l ih =>
    obtain ⟨ha, hl⟩ := List.pairwise_cons.1 h
    cases hp : p a with
    | false => rw [List.dropWhile_cons_of_pos (by rw [hp]; rfl), List.filter_cons_of_neg
        (by rw [hp]; exact Bool.false_ne_true), ih hl]
    | true =>
      rw [List.dropWhile_cons_of_neg (by rw [hp]; exact Bool.false_ne_true),
        List.filter_cons_of_pos hp, List.filter_eq_self.2 fun b hb ↦ ha b hb hp]

variable [LinearOrder α]

/-- What is asked of `R`. -/
structure Lawful (R : α → α → Prop) : Prop where
  trans {x y z : α} : R x y → R y z → R x z
  le {x y : α} : R x y → x ≤ y
  le_of_not {x y : α} : ¬ R x y → y ≤ x

/-- With the strict order, an equal value drives the earlier one out. -/
theorem lawful_lt : Lawful (· < · : α → α → Prop) := ⟨lt_trans, le_of_lt, not_lt.1⟩

/-- With the order itself, equal values stay. -/
theorem lawful_le : Lawful (· ≤ · : α → α → Prop) :=
  ⟨le_trans, id, fun h ↦ (not_le.1 h).le⟩

/-- **The next index** is pushed, and drives out others. -/
theorem Candidates.push [∀ x y, Decidable (R x y)] (hR : Lawful R)
    (h : Candidates R f lo hi idx) (hle : lo ≤ hi) :
    Candidates R f lo (hi + 1) (hi :: idx.dropWhile fun j ↦ !decide (R (f hi) (f j))) := by
  have hstays : idx.Pairwise fun i j ↦
      decide (R (f hi) (f i)) = true → decide (R (f hi) (f j)) = true := by
    refine h.sorted.imp_of_mem fun {i j} hi hj hij hR' ↦ decide_eq_true ?_
    exact hR.trans (of_decide_eq_true hR') (((h.mem_iff j).1 hj).2.2 i hij ((h.mem_iff i).1 hi).2.1)
  rw [dropWhile_eq_filter hstays]
  refine ⟨List.pairwise_cons.2 ⟨fun j hj ↦ ?_, h.sorted.filter _⟩, fun j ↦ ?_⟩
  · exact ((h.mem_iff j).1 (List.mem_of_mem_filter hj)).2.1
  · rw [List.mem_cons, List.mem_filter, decide_eq_true_iff, h.mem_iff]
    constructor
    · rintro (rfl | ⟨⟨hlo, hhi, hlater⟩, hlast⟩)
      · exact ⟨hle, Nat.lt_succ_self j, fun k hk hk' ↦ by omega⟩
      · refine ⟨hlo, hhi.trans (Nat.lt_succ_self hi), fun k hk hk' ↦ ?_⟩
        rcases (Nat.lt_succ_iff.1 hk').lt_or_eq with hlt | rfl
        · exact hlater k hk hlt
        · exact hlast
    · rintro ⟨hlo, hhi, hlater⟩
      rcases (Nat.lt_succ_iff.1 hhi).lt_or_eq with hlt | rfl
      · exact Or.inr ⟨⟨hlo, hlt, fun k hk hk' ↦ hlater k hk (hk'.trans (Nat.lt_succ_self hi))⟩,
          hlater hi hlt (Nat.lt_succ_self hi)⟩
      · exact Or.inl rfl

/-- **The greatest value** is that of the first index. -/
theorem Candidates.isGreatest (hR : Lawful R) (h : Candidates R f lo hi idx)
    (hj : idx.getLast? = some j) : IsGreatest (window f lo hi) (f j) := by
  have hmem := List.mem_of_getLast? hj
  have hbounds := (h.mem_iff j).1 hmem
  obtain ⟨j', hj', -, -, hfirst⟩ := h.exists_front (hbounds.1.trans_lt hbounds.2.1)
  obtain rfl := Option.some.inj (hj.symm.trans hj')
  refine ⟨⟨j, hbounds.1, hbounds.2.1, rfl⟩, ?_⟩
  rintro _ ⟨k, hlo, hhi, rfl⟩
  -- From the end of the window on: what is not in the deque has a later value that is not less.
  induction hd : hi - k using Nat.strong_induction_on generalizing k with
  | _ d ih =>
    by_cases hk : k ∈ idx
    · rcases eq_or_ne k j with rfl | hne
      · exact le_rfl
      · exact hR.le (hbounds.2.2 k (hfirst k hk hne) hhi)
    · have hout : ∃ k', k < k' ∧ k' < hi ∧ ¬ R (f k') (f k) := by
        by_contra hall
        refine hk ((h.mem_iff k).2 ⟨hlo, hhi, fun k' hkk' hk' ↦ ?_⟩)
        by_contra hnot
        exact hall ⟨k', hkk', hk', hnot⟩
      obtain ⟨k', hkk', hk', hnot⟩ := hout
      exact (hR.le_of_not hnot).trans (ih (hi - k') (by omega) k' (by omega) hk' rfl)

/-- If equal values stay, the first index of the window is in the deque as soon as its value is the
greatest one. -/
theorem Candidates.front_eq_iff (h : Candidates (· ≤ ·) f lo hi idx)
    (hj : idx.getLast? = some j) : f lo = f j ↔ j = lo := by
  have hbounds := (h.mem_iff j).1 (List.mem_of_getLast? hj)
  have hlt := hbounds.1.trans_lt hbounds.2.1
  refine ⟨fun heq ↦ ?_, fun heq ↦ by rw [heq]⟩
  have hgreatest := (h.isGreatest lawful_le hj).2
  have hmem : lo ∈ idx := (h.mem_iff lo).2
    ⟨le_rfl, hlt, fun k hk hk' ↦ heq ▸ hgreatest ⟨k, hk.le, hk', rfl⟩⟩
  obtain ⟨j', hj', -, -, hfirst⟩ := h.exists_front hlt
  obtain rfl := Option.some.inj (hj.symm.trans hj')
  by_contra hne
  exact absurd (hfirst lo hmem (Ne.symm hne)) (not_lt.2 hbounds.1)

end MonotonicDeque
