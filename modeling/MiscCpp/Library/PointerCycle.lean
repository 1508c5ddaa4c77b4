import Mathlib.Data.Fintype.Pigeonhole
import MiscCpp.Library.SinglyLinked

/-!
# Cycles of pointers

The pointers `next : ι → Option ι` followed from one of them on. `walk next p n` is where `n` of
them lead, and `Cyclic next p` says that there is a node on the way that leads back to itself.

Among finitely many nodes there is either such a node or an end (`cyclic_or_seg`), and never both
(`Seg.not_cyclic`). A walk into a cycle has no end (`Cyclic.exists_walk`) and comes to the same node
twice at any distance that is a multiple of the cycle. So a walk of two pointers at a time meets one
of one pointer at a time (`Cyclic.exists_meeting`).
-/

namespace SinglyLinked

variable {ι : Type*}

/-- Where `n` pointers lead. -/
def walk (next : ι → Option ι) : Option ι → ℕ → Option ι
  | p, 0 => p
  | p, n + 1 => walk next (p.bind next) n

/-- A node on the way leads back to itself. -/
def Cyclic (next : ι → Option ι) (p : Option ι) : Prop :=
  ∃ a i n, walk next p i = some a ∧ 0 < n ∧ walk next (some a) n = some a

variable {next : ι → Option ι} {p q : Option ι} {a b : ι} {xs : List ι} {i j m n : ℕ}

@[simp] theorem walk_zero : walk next p 0 = p := rfl

theorem walk_add : walk next p (m + n) = walk next (walk next p m) n := by
  induction m generalizing p with
  | zero => rw [Nat.zero_add, walk_zero]
  | succ m ih => rw [Nat.succ_add, walk, ih, walk]

theorem walk_succ : walk next p (n + 1) = (walk next p n).bind next := walk_add

theorem walk_of_some (h : walk next p n = some a) : walk next p (n + 1) = next a := by
  rw [walk_succ, h, Option.bind_some]

theorem walk_none : walk next none n = none := by
  induction n with
  | zero => rfl
  | succ n ih => exact ih

/-- Before a node there are nodes. -/
theorem exists_walk_of_le (h : walk next p n = some a) (hle : m ≤ n) :
    ∃ b, walk next p m = some b := by
  obtain ⟨k, rfl⟩ := Nat.exists_eq_add_of_le hle
  cases hb : walk next p m with
  | none =>
    rw [walk_add, hb, walk_none] at h
    cases h
  | some b => exact ⟨b, rfl⟩

/-! ### Ends -/

/-- Within a segment a walk is at its nodes. -/
theorem Seg.walk (h : Seg next p xs q) (hn : n < xs.length) : walk next p n = xs[n]? := by
  induction n generalizing p xs with
  | zero =>
    cases xs with
    | nil => exact absurd hn (Nat.not_lt_zero 0)
    | cons x xs => exact h.1
  | succ n ih =>
    cases xs with
    | nil => exact absurd hn (Nat.not_lt_zero _)
    | cons x xs =>
      rw [SinglyLinked.walk, h.1, Option.bind_some, List.getElem?_cons_succ]
      exact ih h.2 (Nat.lt_of_succ_lt_succ hn)

/-- Behind a segment a walk is at its end. -/
theorem Seg.walk_length (h : Seg next p xs q) : SinglyLinked.walk next p xs.length = q := by
  induction xs generalizing p with
  | nil => exact h
  | cons x xs ih =>
    rw [List.length_cons, SinglyLinked.walk, h.1, Option.bind_some]
    exact ih h.2

/-- A segment to the null pointer, as a walk. -/
theorem Seg.walk_none (h : Seg next p xs none) (n : ℕ) : SinglyLinked.walk next p n = xs[n]? := by
  rcases Nat.lt_or_ge n xs.length with hlt | hle
  · exact h.walk hlt
  · obtain ⟨k, rfl⟩ := Nat.exists_eq_add_of_le hle
    rw [walk_add, h.walk_length, SinglyLinked.walk_none, List.getElem?_eq_none hle]

/-- Two nodes of a segment to the null pointer are different. -/
theorem Seg.eq_of_walk_eq (h : Seg next p xs none) (hm : SinglyLinked.walk next p m = some a)
    (hn : SinglyLinked.walk next p n = some a) : m = n := by
  rw [h.walk_none] at hm hn
  obtain ⟨hlen, -⟩ := List.getElem?_eq_some_iff.1 hm
  exact (List.getElem?_inj hlen h.nodup).1 (hm.trans hn.symm)

/-- A list that ends has no cycle. -/
theorem Seg.not_cyclic (h : Seg next p xs none) : ¬ Cyclic next p := by
  rintro ⟨a, i, n, hi, hpos, hn⟩
  rw [← hi, ← walk_add] at hn
  have heq := h.eq_of_walk_eq (hn.trans hi) hi
  omega

/-- A walk to the null pointer. -/
theorem exists_seg (h : walk next p n = none) : ∃ xs, Seg next p xs none := by
  induction n generalizing p with
  | zero => exact ⟨[], h⟩
  | succ n ih =>
    cases p with
    | none => exact ⟨[], rfl⟩
    | some a =>
      obtain ⟨xs, hxs⟩ := ih (p := next a) h
      exact ⟨a :: xs, rfl, hxs⟩

/-! ### Cycles -/

/-- A walk that comes to a node again. -/
theorem cyclic_of_walk_eq (hm : walk next p m = some a) (hn : walk next p n = some a)
    (hlt : m < n) : Cyclic next p := by
  obtain ⟨k, rfl⟩ := Nat.exists_eq_add_of_lt hlt
  rw [Nat.add_assoc, walk_add, hm] at hn
  exact ⟨a, m, k + 1, hm, Nat.succ_pos k, hn⟩

/-- **Finitely many nodes:** the pointers lead into a cycle or to the null pointer. -/
theorem cyclic_or_seg [Finite ι] (next : ι → Option ι) (p : Option ι) :
    Cyclic next p ∨ ∃ xs, Seg next p xs none := by
  by_cases hend : ∃ n, walk next p n = none
  · obtain ⟨n, hn⟩ := hend
    exact .inr (exists_seg hn)
  · have hsome : ∀ n, ∃ a, walk next p n = some a := fun n ↦
      Option.ne_none_iff_exists'.1 fun hnone ↦ hend ⟨n, hnone⟩
    choose f hf using hsome
    obtain ⟨m, n, hne, heq⟩ := Finite.exists_ne_map_eq_of_infinite f
    rcases Nat.lt_or_gt_of_ne hne with hlt | hlt
    · exact .inl (cyclic_of_walk_eq (heq ▸ hf m) (hf n) hlt)
    · exact .inl (cyclic_of_walk_eq (heq ▸ hf n) (hf m) hlt)

/-- Around a cycle any number of times. -/
theorem walk_mul (h : walk next (some a) n = some a) (k : ℕ) :
    walk next (some a) (n * k) = some a := by
  induction k with
  | zero => rfl
  | succ k ih => rw [Nat.mul_succ, walk_add, ih, h]

/-- A walk into a cycle has no end. -/
theorem Cyclic.exists_walk (h : Cyclic next p) (m : ℕ) : ∃ b, walk next p m = some b := by
  obtain ⟨a, i, n, hi, hpos, hn⟩ := h
  have hround : walk next p (i + n * m) = some a := by
    rw [walk_add, hi, walk_mul hn]
  exact exists_walk_of_le hround (Nat.le_add_left_of_le (Nat.le_mul_of_pos_left m hpos))

/-- **The meeting:** a walk of two pointers at a time that is one ahead comes to the node of a walk
of one pointer at a time. -/
theorem Cyclic.exists_meeting (h : Cyclic next p) :
    ∃ m, walk next p m = walk next p (2 * m + 1) := by
  obtain ⟨a, i, n, hi, hpos, hn⟩ := h
  -- from a place in the cycle, the distance is a multiple of its length
  obtain ⟨k, hk⟩ := Nat.exists_eq_add_of_le (Nat.le_mul_of_pos_left (i + 1) hpos)
  refine ⟨i + k, ?_⟩
  have hdist : 2 * (i + k) + 1 = i + (n * (i + 1) + k) := by omega
  rw [hdist, walk_add, walk_add, hi, walk_add, walk_mul hn]

end SinglyLinked
