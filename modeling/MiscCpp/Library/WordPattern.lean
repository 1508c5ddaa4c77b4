import Mathlib.Data.Set.Function
import Mathlib.Logic.Function.Basic
import Mathlib.Tactic.Common

/-!
# Words that follow a pattern

A word follows a pattern if the letters of the pattern stand for non-empty words, different letters
for different ones, that make up the word (`Matches`).

A search from the left knows the words of some letters (`Completable`). The next letter has its word
already (`completable_cons_iff_of_mem`), or gets one that no other letter has
(`completable_cons_iff`).
-/

namespace WordPattern

variable {α β : Type*} {m : List (α × List β)} {p : List α} {s t : List β} {c : α}
  {σ : α → List β}

/-- The word `s` follows the pattern `p`. -/
def Matches (p : List α) (s : List β) : Prop :=
  ∃ σ : α → List β, (∀ c ∈ p, σ c ≠ []) ∧ Set.InjOn σ {c | c ∈ p} ∧ p.flatMap σ = s

/-- The letters of the pattern and those that have a word. -/
def letters (m : List (α × List β)) (p : List α) : Set α := {c | c ∈ p ∨ ∃ e ∈ m, e.1 = c}

/-- The words in `m` are kept, and the rest of the pattern makes up the rest of the word. -/
structure Completes (m : List (α × List β)) (p : List α) (s : List β) (σ : α → List β) : Prop where
  agrees : ∀ e ∈ m, σ e.1 = e.2
  nonempty : ∀ c ∈ p, σ c ≠ []
  injOn : Set.InjOn σ (letters m p)
  flatMap_eq : p.flatMap σ = s

/-- The pairs of a map can be completed so that the pattern gives the text. -/
def Completable (m : List (α × List β)) (p : List α) (s : List β) : Prop :=
  ∃ σ, Completes m p s σ

/-- A pattern matches if the empty map can be completed. -/
theorem matches_iff : Matches p s ↔ Completable [] p s := by
  have hletters : letters ([] : List (α × List β)) p = {c | c ∈ p} :=
    Set.ext fun c ↦ or_iff_left fun ⟨e, he, _⟩ ↦ List.not_mem_nil he
  refine exists_congr fun σ ↦ ⟨fun h ↦ ?_, fun h ↦ ⟨h.nonempty, ?_, h.flatMap_eq⟩⟩
  · exact ⟨fun e he ↦ absurd he List.not_mem_nil, h.1, hletters ▸ h.2.1, h.2.2⟩
  · exact hletters ▸ h.injOn

theorem completable_nil_iff (hm : Completable m [] []) : Completable m [] s ↔ s = [] := by
  constructor
  · rintro ⟨σ, h⟩
    exact h.flatMap_eq.symm
  · rintro rfl
    exact hm

theorem not_completable_cons_nil : ¬ Completable m (c :: p) [] := by
  rintro ⟨σ, h⟩
  exact h.nonempty c List.mem_cons_self (List.append_eq_nil_iff.1 h.flatMap_eq).1

/-- A letter that is in the map adds nothing to the map. -/
theorem letters_of_mem (hc : (c, t) ∈ m) : letters m (c :: p) = letters m p := by
  ext d
  refine ⟨?_, Or.imp_left (List.mem_cons_of_mem c)⟩
  rintro (hd | hd)
  · rcases List.mem_cons.1 hd with rfl | hd
    · exact Or.inr ⟨_, hc, rfl⟩
    · exact Or.inl hd
  · exact Or.inr hd

/-- A letter counts the same in the map and in the pattern. -/
theorem letters_cons : letters ((c, t) :: m) p = letters m (c :: p) := by
  ext d
  constructor
  · rintro (hd | ⟨e, he, rfl⟩)
    · exact Or.inl (List.mem_cons_of_mem c hd)
    · rcases List.mem_cons.1 he with rfl | he
      · exact Or.inl List.mem_cons_self
      · exact Or.inr ⟨e, he, rfl⟩
  · rintro (hd | ⟨e, he, rfl⟩)
    · rcases List.mem_cons.1 hd with rfl | hd
      · exact Or.inr ⟨_, List.mem_cons_self, rfl⟩
      · exact Or.inl hd
    · exact Or.inr ⟨e, List.mem_cons_of_mem _ he, rfl⟩

/-- A letter with its word, in front. -/
theorem Completes.cons (h : Completes ((c, t) :: m) p s σ) (ht : t ≠ []) :
    Completes m (c :: p) (t ++ s) σ := by
  have hval : σ c = t := h.agrees _ List.mem_cons_self
  refine ⟨fun e he ↦ h.agrees e (List.mem_cons_of_mem _ he), fun d hd ↦ ?_,
    letters_cons ▸ h.injOn, ?_⟩
  · rcases List.mem_cons.1 hd with rfl | hd
    · rwa [hval]
    · exact h.nonempty d hd
  · rw [List.flatMap_cons, hval, h.flatMap_eq]

/-- **The next letter** has a word. -/
theorem completable_cons_iff_of_mem (hc : (c, t) ∈ m) : Completable m (c :: p) s ↔
    t ≠ [] ∧ ∃ rest, s = t ++ rest ∧ Completable m p rest := by
  constructor
  · rintro ⟨σ, h⟩
    have hval : σ c = t := h.agrees _ hc
    refine ⟨hval ▸ h.nonempty c List.mem_cons_self, p.flatMap σ, ?_, σ, h.agrees,
      fun d hd ↦ h.nonempty d (List.mem_cons_of_mem c hd), letters_of_mem hc ▸ h.injOn, rfl⟩
    rw [← h.flatMap_eq, List.flatMap_cons, hval]
  · rintro ⟨ht, rest, rfl, σ, h⟩
    have hinj : Set.InjOn σ (letters ((c, t) :: m) p) := by
      rw [letters_cons, letters_of_mem hc]
      exact h.injOn
    have hagrees : ∀ e ∈ (c, t) :: m, σ e.1 = e.2 :=
      List.forall_mem_cons.2 ⟨h.agrees _ hc, h.agrees⟩
    have hcons : Completes ((c, t) :: m) p rest σ := ⟨hagrees, h.nonempty, hinj, h.flatMap_eq⟩
    exact ⟨σ, hcons.cons ht⟩

/-- **The next letter** gets a word. -/
theorem completable_cons_iff (hc : ∀ e ∈ m, e.1 ≠ c) : Completable m (c :: p) s ↔
    ∃ t rest, t ≠ [] ∧ s = t ++ rest ∧ (∀ e ∈ m, e.2 ≠ t) ∧ Completable ((c, t) :: m) p rest := by
  constructor
  · rintro ⟨σ, h⟩
    refine ⟨σ c, p.flatMap σ, h.nonempty c List.mem_cons_self, ?_, fun e he heq ↦ ?_, σ,
      fun e he ↦ ?_, fun d hd ↦ h.nonempty d (List.mem_cons_of_mem c hd),
      letters_cons.symm ▸ h.injOn, rfl⟩
    · rw [← h.flatMap_eq, List.flatMap_cons]
    · have hsame : σ e.1 = σ c := (h.agrees e he).trans heq
      exact hc e he (h.injOn (Or.inr ⟨e, he, rfl⟩) (Or.inl List.mem_cons_self) hsame)
    · rcases List.mem_cons.1 he with rfl | he
      · rfl
      · exact h.agrees e he
  · rintro ⟨t, rest, ht, rfl, -, σ, h⟩
    exact ⟨σ, h.cons ht⟩

/-- Another letter with another word. -/
theorem Completable.insert (hm : Completable m [] []) (hc : ∀ e ∈ m, e.1 ≠ c)
    (ht : ∀ e ∈ m, e.2 ≠ t) : Completable ((c, t) :: m) [] [] := by
  classical
  obtain ⟨σ, h⟩ := hm
  have hother (e : α × List β) (he : e ∈ m) : Function.update σ c t e.1 = e.2 := by
    rw [Function.update_of_ne (hc e he), h.agrees e he]
  have hself : Function.update σ c t c = t := Function.update_self c t σ
  refine ⟨Function.update σ c t, fun e he ↦ ?_, fun d hd ↦ absurd hd List.not_mem_nil, ?_, rfl⟩
  · rcases List.mem_cons.1 he with rfl | he
    · exact hself
    · exact hother e he
  · rintro _ (hd | ⟨e, he, rfl⟩) _ (hd' | ⟨e', he', rfl⟩) heq
    · cases hd
    · cases hd
    · cases hd'
    · rcases List.mem_cons.1 he with rfl | hmem <;> rcases List.mem_cons.1 he' with rfl | hmem'
      · rfl
      · rw [hself, hother e' hmem'] at heq
        exact absurd heq.symm (ht e' hmem')
      · rw [hself, hother e hmem] at heq
        exact absurd heq (ht e hmem)
      · rw [hother e hmem, hother e' hmem'] at heq
        refine h.injOn (Or.inr ⟨e, hmem, rfl⟩) (Or.inr ⟨e', hmem', rfl⟩) ?_
        rw [h.agrees e hmem, h.agrees e' hmem', heq]

end WordPattern
