import Mathlib.Data.Finset.Card
import Mathlib.Data.Finset.SDiff
import Mathlib.Logic.Relation
import Mathlib.Tactic.Common
import MiscCpp.Library.Machine

/-!
# Flood fill

The recursion that marks a place and goes on to its neighbours, for the places of a finite set.

What a call adds to the marked places can be reached, and is closed under going on from it
(`Fills`); both pass from the calls for the neighbours to the call for the place. So from nothing
marked the fill marks exactly what can be reached (`Fills.mem_iff`). Each call that goes on marks a
place, which bounds the depth.
-/

open Machine

namespace FloodFill

variable {α : Type*} (neighbours : α → List α) (S : Finset α)

/-- `b` can be reached from `a` by going on to neighbours in `S`. -/
def Reaches (a b : α) : Prop := Relation.ReflTransGen (fun u v ↦ v ∈ neighbours u ∧ v ∈ S) a b

/-- Mark what can be reached from `a`, besides what is marked, by calls that nest less deeply than
`fuel`. -/
def fill [DecidableEq α] : ℕ → Finset α → α → Option (Finset α)
  | 0, _, _ => none
  | fuel + 1, seen, a =>
    if a ∉ S then some seen
    else if a ∈ seen then some seen
    else exec (fill fuel) (insert a seen) (neighbours a)

variable {neighbours S} {seen seen' seen'' : Finset α} {a b : α}

/-- What a call for the places `as` does to the marked places. -/
structure Fills (neighbours : α → List α) (S : Finset α) (as : List α) (seen seen' : Finset α) :
    Prop where
  subset : seen ⊆ seen'
  mem : ∀ a ∈ as, a ∈ S → a ∈ seen'
  reaches : ∀ b ∈ seen', b ∈ seen ∨ ∃ a ∈ as, a ∈ S ∧ Reaches neighbours S a b
  closed : ∀ b ∈ seen', b ∉ seen → ∀ c ∈ neighbours b, c ∈ S → c ∈ seen'

theorem fills_nil (seen : Finset α) : Fills neighbours S [] seen seen where
  subset := subset_rfl
  mem _ ha := absurd ha List.not_mem_nil
  reaches _ hb := .inl hb
  closed _ hb hnew := absurd hb hnew

/-- Filling from one cell and then from the others. -/
theorem Fills.cons {as : List α} (h : Fills neighbours S [a] seen seen')
    (h' : Fills neighbours S as seen' seen'') : Fills neighbours S (a :: as) seen seen'' where
  subset := h.subset.trans h'.subset
  mem b hb hS := by
    obtain rfl | hb := List.mem_cons.1 hb
    · exact h'.subset (h.mem b (List.mem_singleton_self b) hS)
    · exact h'.mem b hb hS
  reaches b hb := by
    obtain hb | ⟨c, hc, hS, hreach⟩ := h'.reaches b hb
    · obtain hb | ⟨c, hc, hS, hreach⟩ := h.reaches b hb
      · exact .inl hb
      · obtain rfl := List.mem_singleton.1 hc
        exact .inr ⟨c, List.mem_cons_self, hS, hreach⟩
    · exact .inr ⟨c, List.mem_cons_of_mem a hc, hS, hreach⟩
  closed b hb hnew c hc hS := by
    by_cases hb' : b ∈ seen'
    · exact h'.subset (h.closed b hb' hnew c hc hS)
    · exact h'.closed b hb hb' c hc hS

/-- A place that is not in `S`, or is marked, changes nothing. -/
theorem fills_same (h : a ∉ S ∨ a ∈ seen) : Fills neighbours S [a] seen seen where
  subset := subset_rfl
  mem b hb hS := by
    obtain rfl := List.mem_singleton.1 hb
    exact h.resolve_left (not_not_intro hS)
  reaches _ hb := .inl hb
  closed _ hb hnew := absurd hb hnew

/-- A new place is marked, and then its neighbours are filled. -/
theorem Fills.place [DecidableEq α] (ha : a ∈ S)
    (h : Fills neighbours S (neighbours a) (insert a seen) seen') :
    Fills neighbours S [a] seen seen' where
  subset := (Finset.subset_insert a seen).trans h.subset
  mem b hb _ := by
    obtain rfl := List.mem_singleton.1 hb
    exact h.subset (Finset.mem_insert_self b seen)
  reaches b hb := by
    obtain hb | ⟨c, hc, hS, hreach⟩ := h.reaches b hb
    · obtain rfl | hb := Finset.mem_insert.1 hb
      · exact .inr ⟨b, List.mem_singleton_self b, ha, .refl⟩
      · exact .inl hb
    · exact .inr ⟨a, List.mem_singleton_self a, ha, .head ⟨hc, hS⟩ hreach⟩
  closed b hb hnew c hc hS := by
    by_cases hba : b = a
    · subst hba
      exact h.mem c hc hS
    · exact h.closed b hb (by simp [hba, hnew]) c hc hS

/-- Calls one after another: what each of them needs stays true, since marks are kept. -/
theorem exec_spec [DecidableEq α] {step : Finset α → α → Option (Finset α)} {fuel : ℕ}
    (hstep : ∀ (seen : Finset α) a, (S \ seen).card < fuel →
      ∃ seen', step seen a = some seen' ∧ Fills neighbours S [a] seen seen')
    (hfuel : (S \ seen).card < fuel) (as : List α) :
    ∃ seen', exec step seen as = some seen' ∧ Fills neighbours S as seen seen' := by
  induction as generalizing seen with
  | nil => exact ⟨seen, rfl, fills_nil seen⟩
  | cons a as ih =>
    obtain ⟨seen₁, h₁, F₁⟩ := hstep seen a hfuel
    have hle : (S \ seen₁).card ≤ (S \ seen).card :=
      Finset.card_le_card (Finset.sdiff_subset_sdiff subset_rfl F₁.subset)
    obtain ⟨seen₂, h₂, F₂⟩ := ih (hle.trans_lt hfuel)
    refine ⟨seen₂, ?_, F₁.cons F₂⟩
    rw [exec_cons, h₁, Option.bind_some, h₂]

/-- **The fill** is defined with a level for each place of `S` that is not marked. -/
theorem fill_spec [DecidableEq α] {fuel : ℕ} (hfuel : (S \ seen).card < fuel) (a : α) :
    ∃ seen', fill neighbours S fuel seen a = some seen' ∧ Fills neighbours S [a] seen seen' := by
  induction fuel generalizing seen a with
  | zero => exact absurd hfuel (Nat.not_lt_zero _)
  | succ fuel ih =>
    by_cases ha : a ∈ S
    · by_cases hseen : a ∈ seen
      · exact ⟨seen, by rw [fill, if_neg (not_not_intro ha), if_pos hseen], fills_same (.inr hseen)⟩
      · have hlt : (S \ insert a seen).card < (S \ seen).card := by
          refine Finset.card_lt_card ⟨Finset.sdiff_subset_sdiff subset_rfl
            (Finset.subset_insert a seen), fun hsub ↦ ?_⟩
          have hmem := hsub (Finset.mem_sdiff.2 ⟨ha, hseen⟩)
          exact (Finset.mem_sdiff.1 hmem).2 (Finset.mem_insert_self a seen)
        obtain ⟨seen', h, F⟩ := exec_spec (fun _ b hcard ↦ ih hcard b)
          (by omega : (S \ insert a seen).card < fuel) (neighbours a)
        refine ⟨seen', ?_, F.place ha⟩
        rw [fill, if_neg (not_not_intro ha), if_neg hseen, h]
    · exact ⟨seen, by rw [fill, if_pos ha], fills_same (.inl ha)⟩

/-! ### From nothing marked -/

/-- What is closed under going on contains what can be reached. -/
theorem Reaches.mem_of_closed (h : Reaches neighbours S a b) {T : Finset α} (ha : a ∈ T)
    (hclosed : ∀ u ∈ T, ∀ v ∈ neighbours u, v ∈ S → v ∈ T) : b ∈ T := by
  induction h with
  | refl => exact ha
  | tail _ hstep ih => exact hclosed _ ih _ hstep.1 hstep.2

/-- What can be reached from a place of `S` is in `S`. -/
theorem Reaches.mem (h : Reaches neighbours S a b) (ha : a ∈ S) : b ∈ S := by
  cases h with
  | refl => exact ha
  | tail _ hstep => exact hstep.2

/-- If going on can be undone, a place can be reached from where it leads to. -/
theorem Reaches.symm (hsymm : ∀ u v, v ∈ neighbours u → u ∈ neighbours v) (ha : a ∈ S)
    (h : Reaches neighbours S a b) : Reaches neighbours S b a := by
  induction h with
  | refl => exact .refl
  | @tail u v h hstep ih => exact .head ⟨hsymm u v hstep.1, Reaches.mem h ha⟩ ih

/-- **From nothing marked** the fill marks what can be reached, and nothing else. -/
theorem Fills.mem_iff (F : Fills neighbours S [a] ∅ seen') (ha : a ∈ S) :
    b ∈ seen' ↔ Reaches neighbours S a b := by
  constructor
  · intro hb
    obtain hb | ⟨c, hc, -, hreach⟩ := F.reaches b hb
    · exact absurd hb (Finset.notMem_empty b)
    · rwa [List.mem_singleton.1 hc] at hreach
  · intro h
    exact h.mem_of_closed (F.mem a (List.mem_singleton_self a) ha) fun u hu ↦
      F.closed u hu (Finset.notMem_empty u)

end FloodFill
