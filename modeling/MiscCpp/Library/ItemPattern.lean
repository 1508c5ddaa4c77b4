import Mathlib.Computability.Language

/-!
# Patterns that are sequences of items

An item asks for one symbol that passes a test, or for any number of them. The language of a pattern
is the product of those of its items.

A matcher that goes through the word and the pattern from the left decides by the first symbol and
the first item (`cons_mem_one`, `mem_many_iff`), one that goes through the prefixes decides by the
last ones (`concat_mem_one`, `mem_concat_many_iff`).
-/

open Computability

namespace ItemPattern

/-- A test, and whether the symbols that pass it may be any number instead of one. -/
inductive Item (α : Type*)
  | one (test : α → Prop)
  | many (test : α → Prop)

variable {α : Type*} {test : α → Prop} {items : List (Item α)} {w : List α} {c : α}

/-- The words of one symbol that passes. -/
def single (test : α → Prop) : Language α := {w | ∃ c, test c ∧ w = [c]}

/-- The words one item allows: one character that passes the test, or any number of them. -/
def Item.language : Item α → Language α
  | .one test => single test
  | .many test => (single test)∗

/-- The words a pattern allows: a word of each item, one after the other. -/
def language (items : List (Item α)) : Language α := (items.map Item.language).prod

/-- The repeated item allows exactly the words all of whose characters pass. -/
theorem mem_star_single : w ∈ (single test)∗ ↔ ∀ c ∈ w, test c := by
  constructor
  · rintro ⟨L, rfl, hL⟩ c hc
    obtain ⟨x, hx, hcx⟩ := List.mem_flatten.1 hc
    obtain ⟨d, hd, rfl⟩ := hL x hx
    exact List.mem_singleton.1 hcx ▸ hd
  · intro h
    refine ⟨w.map fun c ↦ [c], ?_, fun x hx ↦ ?_⟩
    · rw [← List.flatMap_def, List.flatMap_singleton']
    · obtain ⟨c, hc, rfl⟩ := List.mem_map.1 hx
      exact ⟨c, h c hc, rfl⟩

theorem mem_language_nil : w ∈ language ([] : List (Item α)) ↔ w = [] := Iff.rfl

/-- A word of a pattern splits after the part that the first item allows. -/
theorem mem_language_cons {item : Item α} :
    w ∈ language (item :: items) ↔ ∃ u ∈ item.language, ∃ v ∈ language items, u ++ v = w := by
  rw [language, List.map_cons, List.prod_cons, Language.mem_mul]
  rfl

/-- A word of a pattern splits before the part that the last item allows. -/
theorem mem_language_concat {item : Item α} :
    w ∈ language (items ++ [item]) ↔ ∃ u ∈ language items, ∃ v ∈ item.language, u ++ v = w := by
  rw [language, List.map_append, List.prod_append, List.map_singleton, List.prod_singleton,
    Language.mem_mul]
  rfl

/-! ### From the left -/

/-- A pattern that starts with a single character does not allow the empty word. -/
theorem nil_not_mem_one : [] ∉ language (.one test :: items) := by
  rw [mem_language_cons]
  rintro ⟨_, ⟨c, hc, rfl⟩, v, hv, h⟩
  cases h

/-- A single character at the front is read off the front of the word. -/
theorem cons_mem_one : c :: w ∈ language (.one test :: items) ↔ test c ∧ w ∈ language items := by
  rw [mem_language_cons]
  constructor
  · rintro ⟨_, ⟨d, hd, rfl⟩, v, hv, h⟩
    obtain ⟨rfl, rfl⟩ := List.cons.inj h
    exact ⟨hd, hv⟩
  · rintro ⟨hc, hw⟩
    exact ⟨[c], ⟨c, hc, rfl⟩, w, hw, rfl⟩

/-- A repetition at the front stands for nothing, or it takes one character and stays. -/
theorem mem_many_iff : w ∈ language (.many test :: items) ↔
    w ∈ language items ∨ ∃ c v, w = c :: v ∧ test c ∧ v ∈ language (.many test :: items) := by
  simp only [mem_language_cons, Item.language, mem_star_single]
  constructor
  · rintro ⟨u, hu, v, hv, rfl⟩
    cases u with
    | nil => exact .inl hv
    | cons c u =>
      obtain ⟨hc, hu⟩ := List.forall_mem_cons.1 hu
      exact .inr ⟨c, u ++ v, rfl, hc, u, hu, v, hv, rfl⟩
  · rintro (hw | ⟨c, _, rfl, hc, u, hu, v, hv, rfl⟩)
    · exact ⟨[], by simp, w, hw, rfl⟩
    · exact ⟨c :: u, List.forall_mem_cons.2 ⟨hc, hu⟩, v, hv, rfl⟩

/-! ### From the right -/

/-- A pattern that ends with a single character does not allow the empty word. -/
theorem nil_not_mem_concat_one : [] ∉ language (items ++ [.one test]) := by
  rw [mem_language_concat]
  rintro ⟨u, hu, _, ⟨c, hc, rfl⟩, h⟩
  exact List.append_ne_nil_of_right_ne_nil u (List.cons_ne_nil c []) h

/-- A single character at the back is read off the back of the word. -/
theorem concat_mem_one :
    w ++ [c] ∈ language (items ++ [.one test]) ↔ test c ∧ w ∈ language items := by
  rw [mem_language_concat]
  constructor
  · rintro ⟨u, hu, _, ⟨d, hd, rfl⟩, h⟩
    obtain ⟨rfl, hcd⟩ := List.append_inj' h rfl
    exact ⟨List.singleton_inj.1 hcd ▸ hd, hu⟩
  · rintro ⟨hc, hw⟩
    exact ⟨w, hw, [c], ⟨c, hc, rfl⟩, rfl⟩

/-- A repetition at the back stands for nothing, or it takes the last character and stays. -/
theorem mem_concat_many_iff : w ∈ language (items ++ [.many test]) ↔
    w ∈ language items ∨ ∃ v c, w = v ++ [c] ∧ test c ∧ v ∈ language (items ++ [.many test]) := by
  simp only [mem_language_concat, Item.language, mem_star_single]
  constructor
  · rintro ⟨u, hu, v, hv, rfl⟩
    obtain rfl | ⟨v, c, rfl⟩ := v.eq_nil_or_concat'
    · exact .inl (by rwa [List.append_nil])
    · obtain ⟨hv, hc⟩ := List.forall_mem_append.1 hv
      exact .inr ⟨u ++ v, c, (List.append_assoc u v [c]).symm, List.forall_mem_singleton.1 hc,
        u, hu, v, hv, rfl⟩
  · rintro (hw | ⟨_, c, rfl, hc, u, hu, v, hv, rfl⟩)
    · exact ⟨w, hw, [], by simp, by simp⟩
    · refine ⟨u, hu, v ++ [c], ?_, (List.append_assoc u v [c]).symm⟩
      exact List.forall_mem_append.2 ⟨hv, List.forall_mem_singleton.2 hc⟩

end ItemPattern
