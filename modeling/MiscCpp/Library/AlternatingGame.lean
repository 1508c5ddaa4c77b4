import Mathlib.Algebra.Order.Group.Defs
import Mathlib.Algebra.Order.Group.Unbundled.Basic
import Mathlib.Data.Finset.Lattice.Fold
import Mathlib.Data.Fintype.Basic

/-!
# Games of two players who take turns

In each position the player to move has the same moves to choose from, and each move scores. A
strategy may look at the position and at the number of moves that are left.

The value of a game is a difference of the scores that each player can make sure of (`IsValue`).
There is at most one (`IsValue.unique`), and it is found from the end of the game backwards
(`isValue_value`).
-/

namespace AlternatingGame

/-- What a move scores, and the position after it. -/
structure Game (P M α : Type*) where
  next : P → M → P
  score : P → M → α

/-- A move for each number of moves that are left and each position. -/
abbrev Strategy (P M : Type*) := ℕ → P → M

variable {P M α : Type*} [AddCommGroup α] {G : Game P M α} {n : ℕ} {p : P} {v w : α}

/-- The scores of the player to move and of the other one, after `n` moves. -/
def scores (G : Game P M α) : ℕ → Strategy P M → Strategy P M → P → α × α
  | 0, _, _, _ => (0, 0)
  | n + 1, σ, τ, p =>
    let rest := scores G n τ σ (G.next p (σ (n + 1) p))
    (G.score p (σ (n + 1) p) + rest.2, rest.1)

/-- The difference of the two scores. -/
def difference (G : Game P M α) (n : ℕ) (σ τ : Strategy P M) (p : P) : α :=
  (scores G n σ τ p).1 - (scores G n σ τ p).2

/-- The difference of the scores, by the first move. -/
theorem difference_succ (n : ℕ) (σ τ : Strategy P M) (p : P) :
    difference G (n + 1) σ τ p =
      G.score p (σ (n + 1) p) - difference G n τ σ (G.next p (σ (n + 1) p)) := by
  rw [difference, scores, difference, sub_sub_eq_add_sub]

variable [LinearOrder α]

/-- Each player can make sure of the difference `v`. -/
structure IsValue (G : Game P M α) (n : ℕ) (p : P) (v : α) : Prop where
  first : ∃ σ, ∀ τ, v ≤ difference G n σ τ p
  second : ∃ τ, ∀ σ, difference G n σ τ p ≤ v

/-- A game has one value. -/
theorem IsValue.unique (hv : IsValue G n p v) (hw : IsValue G n p w) : v = w := by
  obtain ⟨σ, hσ⟩ := hv.first
  obtain ⟨τ, hτ⟩ := hv.second
  obtain ⟨σ', hσ'⟩ := hw.first
  obtain ⟨τ', hτ'⟩ := hw.second
  exact le_antisymm ((hσ τ').trans (hτ' σ)) ((hσ' τ).trans (hτ σ'))

variable [Fintype M] [Nonempty M]

/-- The value, from the end of the game on. -/
def value (G : Game P M α) : ℕ → P → α
  | 0, _ => 0
  | n + 1, p =>
    Finset.univ.sup' Finset.univ_nonempty fun m ↦ G.score p m - value G n (G.next p m)

/-- No move is better than the value. -/
theorem le_value (G : Game P M α) (n : ℕ) (p : P) (m : M) :
    G.score p m - value G n (G.next p m) ≤ value G (n + 1) p :=
  Finset.le_sup' (fun m ↦ G.score p m - value G n (G.next p m)) (Finset.mem_univ m)

/-- Some move is as good as the value. -/
theorem exists_value_eq (G : Game P M α) (n : ℕ) (p : P) :
    ∃ m, value G (n + 1) p = G.score p m - value G n (G.next p m) := by
  obtain ⟨m, -, hm⟩ := Finset.exists_mem_eq_sup' Finset.univ_nonempty
    fun m ↦ G.score p m - value G n (G.next p m)
  exact ⟨m, hm⟩

/-- If there are two moves, the value is the better one of two. -/
theorem value_bool (G : Game P Bool α) (n : ℕ) (p : P) :
    value G (n + 1) p = max (G.score p true - value G n (G.next p true))
      (G.score p false - value G n (G.next p false)) := by
  refine le_antisymm ?_ (max_le (le_value G n p true) (le_value G n p false))
  obtain ⟨m, hm⟩ := exists_value_eq G n p
  cases m with
  | true => exact hm.le.trans (le_max_left _ _)
  | false => exact hm.le.trans (le_max_right _ _)

/-- A best move in each position. -/
noncomputable def best (G : Game P M α) : Strategy P M
  | 0, _ => Classical.arbitrary M
  | n + 1, p => (exists_value_eq G n p).choose

variable [IsOrderedAddMonoid α]

/-- With the best moves, a player gets at least the value against any strategy. -/
theorem value_le_difference (G : Game P M α) (n : ℕ) (τ : Strategy P M) (p : P) :
    value G n p ≤ difference G n (best G) τ p ∧ difference G n τ (best G) p ≤ value G n p := by
  induction n generalizing p with
  | zero => exact ⟨(sub_self (0 : α)).ge, (sub_self (0 : α)).le⟩
  | succ n ih =>
    rw [difference_succ, difference_succ]
    constructor
    · rw [(exists_value_eq G n p).choose_spec]
      exact sub_le_sub_left (ih _).2 _
    · exact (sub_le_sub_left (ih _).1 _).trans (le_value G n p (τ (n + 1) p))

/-- **The value** is one both players can make sure of. -/
theorem isValue_value (G : Game P M α) (n : ℕ) (p : P) : IsValue G n p (value G n p) :=
  ⟨⟨best G, fun τ ↦ (value_le_difference G n τ p).1⟩,
    ⟨best G, fun τ ↦ (value_le_difference G n τ p).2⟩⟩

end AlternatingGame
