import Mathlib.Data.List.Perm.Subperm
import Mathlib.Logic.Function.Iterate
import MiscCpp.Coroutine.IntrusiveList
import MiscCpp.Library.Machine

/-!
# Histories of the intrusive lists

Any sequence of `TailAdd`, `RemoveFromLink`, `HeadPop` and `LinkAppend`, on any lists and items.
What it is for is said without pointers: `contents` is the lists that result if each operation does
to them what its name says. `keepsLists` is the refinement: the pointers that the operations write
lay out these lists, at the end of every history and so at each point of it.

The loop of `LinkAppend` has no bound, and a step of `LinkAppend` is defined here only if the loop
has come to a null pointer within the given number of turns. A history never needs more turns than
it has steps, because each item in a list was added by a step (`contents_subset`).
-/

open DoublyLinked Function

namespace Links

/-- An operation on the lists. `LinkAppend` takes two different ones. -/
inductive LinkAction (L I : Type*) where
  | tailAdd (l : L) (x : I)
  | removeFromLink (x : I)
  | headPop (l : L)
  | linkAppend (lhs rhs : L) (hne : lhs ≠ rhs)

variable {L I : Type*} [DecidableEq L] [DecidableEq I]

/-! ### The pointers -/

/-- One operation. The loop of `LinkAppend` is to come to its end within `fuel` turns. -/
def linkStep (fuel : ℕ) (h : Links L I) : LinkAction L I → Option (Links L I)
  | .tailAdd l x => some (h.tailAdd l x)
  | .removeFromLink x => h.removeFromLink x
  | .headPop l => some (h.headPop l)
  | .linkAppend lhs rhs _ =>
    if ((fun x ↦ Option.bind x h.next)^[fuel] (h.head rhs)).isNone then
      some (h.linkAppend fuel lhs rhs)
    else none

/-- Empty lists and items that are in no list, whose other pointers are not set. -/
def unlinked (prev next : I → Option I) : Links L I := { empty with prev := prev, next := next }

omit [DecidableEq L] [DecidableEq I] in
theorem represents_unlinked (prev next : I → Option I) :
    (unlinked prev next : Links L I).Represents fun _ ↦ [] where
  head_eq _ := rfl
  tail_eq _ := rfl
  linked _ := trivial
  nodup _ := List.nodup_nil
  link_iff x l := by simp [unlinked, empty]

/-! ### The lists -/

open scoped Classical in
/-- What an operation is for. An item that is in a list is not added again. -/
noncomputable def listStep (A : L → List I) : LinkAction L I → L → List I
  | .tailAdd l x => if ∃ l', x ∈ A l' then A else update A l (A l ++ [x])
  | .removeFromLink x => fun l ↦ (A l).erase x
  | .headPop l => update A l (A l).tail
  | .linkAppend lhs rhs _ => update (update A lhs (A lhs ++ A rhs)) rhs []

/-- The lists after a history. -/
noncomputable def contents (acts : List (LinkAction L I)) : L → List I :=
  acts.foldl listStep fun _ ↦ []

theorem contents_concat (acts : List (LinkAction L I)) (act : LinkAction L I) :
    contents (acts ++ [act]) = listStep (contents acts) act :=
  List.foldl_concat ..

/-- The items that a history has added. -/
def added (acts : List (LinkAction L I)) : List I :=
  acts.filterMap fun
    | .tailAdd _ x => some x
    | _ => none

omit [DecidableEq L] [DecidableEq I] in
theorem added_concat (acts : List (LinkAction L I)) (act : LinkAction L I) :
    added (acts ++ [act]) = added acts ++ added [act] :=
  List.filterMap_append

omit [DecidableEq L] [DecidableEq I] in
theorem length_added_le (acts : List (LinkAction L I)) : (added acts).length ≤ acts.length :=
  List.length_filterMap_le ..

omit [DecidableEq I] in
theorem mem_or_mem_of_mem_update {A : L → List I} {l l' : L} {xs : List I} {x : I}
    (hx : x ∈ update A l' xs l) : x ∈ xs ∨ x ∈ A l := by
  rcases eq_or_ne l l' with rfl | hne
  · rw [update_self] at hx
    exact .inl hx
  · rw [update_of_ne hne] at hx
    exact .inr hx

/-- A step brings no item into a list but the one it adds. -/
theorem mem_of_mem_listStep {A : L → List I} {act : LinkAction L I} {l : L} {x : I}
    (hx : x ∈ listStep A act l) : (∃ l', x ∈ A l') ∨ x ∈ added [act] := by
  cases act with
  | tailAdd l' y =>
    rw [listStep] at hx
    split at hx
    · exact .inl ⟨l, hx⟩
    · rcases mem_or_mem_of_mem_update hx with hx | hx
      · rw [List.mem_append] at hx
        exact hx.imp (fun h ↦ ⟨l', h⟩) id
      · exact .inl ⟨l, hx⟩
  | removeFromLink y => exact .inl ⟨l, List.mem_of_mem_erase hx⟩
  | headPop l' =>
    rcases mem_or_mem_of_mem_update hx with hx | hx
    · exact .inl ⟨l', List.mem_of_mem_tail hx⟩
    · exact .inl ⟨l, hx⟩
  | linkAppend lhs rhs _ =>
    rcases mem_or_mem_of_mem_update hx with hx | hx
    · cases hx
    · rcases mem_or_mem_of_mem_update hx with hx | hx
      · rw [List.mem_append] at hx
        exact .inl (hx.elim (fun h ↦ ⟨lhs, h⟩) fun h ↦ ⟨rhs, h⟩)
      · exact .inl ⟨l, hx⟩

/-- Each item in a list was added. -/
theorem contents_subset (acts : List (LinkAction L I)) (l : L) : contents acts l ⊆ added acts := by
  induction acts using List.reverseRecOn generalizing l with
  | nil => exact List.nil_subset _
  | append_singleton acts act ih =>
    intro x hx
    rw [contents_concat] at hx
    rw [added_concat, List.mem_append]
    exact (mem_of_mem_listStep hx).imp (fun ⟨l', h⟩ ↦ ih l' h) id

/-! ### The pointers lay out the lists -/

omit [DecidableEq L] [DecidableEq I] in
/-- The loop of `LinkAppend` ends, given a turn for each item. -/
theorem iterate_next_eq_none {prev next : I → Option I} {p : Option I} {xs : List I}
    (hxs : Linked prev next p xs none) {fuel : ℕ} (hfuel : xs.length ≤ fuel) :
    (fun x ↦ Option.bind x next)^[fuel] xs.head? = none := by
  induction xs generalizing p fuel with
  | nil => exact iterate_fixed rfl fuel
  | cons x xs ih =>
    obtain ⟨fuel, rfl⟩ : ∃ k, fuel = k + 1 := ⟨fuel - 1, by simp at hfuel; omega⟩
    obtain ⟨-, hnext, hxs⟩ := hxs
    rw [Option.or_none] at hnext
    rw [iterate_succ_apply, List.head?_cons, Option.bind_some, hnext]
    exact ih hxs (Nat.le_of_succ_le_succ hfuel)

variable {h : Links L I} {A : L → List I} {fuel : ℕ}

/-- **One step** does to the pointers what it is to do to the lists. -/
theorem Represents.linkStep (R : h.Represents A) (hfuel : ∀ l, (A l).length ≤ fuel)
    (act : LinkAction L I) :
    ∃ h', Links.linkStep fuel h act = some h' ∧ h'.Represents (listStep A act) := by
  cases act with
  | tailAdd l x =>
    refine ⟨h.tailAdd l x, rfl, ?_⟩
    rw [listStep]
    split
    next hmem =>
      obtain ⟨l', hx⟩ := hmem
      rw [tailAdd_of_linked (by rw [(R.link_iff x l').2 hx]; rfl)]
      exact R
    next hmem => exact R.tailAdd (R.link_eq_none.2 fun l' hx ↦ hmem ⟨l', hx⟩) l
  | removeFromLink x => exact R.removeFromLink x
  | headPop l => exact ⟨h.headPop l, rfl, R.headPop l⟩
  | linkAppend lhs rhs hne =>
    refine ⟨h.linkAppend fuel lhs rhs, if_pos ?_, R.linkAppend hne (hfuel rhs)⟩
    rw [R.head_eq, iterate_next_eq_none (R.linked rhs) (hfuel rhs), Option.isNone_none]

/-- A history with as many turns for each loop as it has steps. -/
theorem exists_exec_linkStep (prev next : I → Option I) (acts : List (LinkAction L I))
    (hfuel : acts.length ≤ fuel) :
    ∃ h, Machine.exec (Links.linkStep fuel) (unlinked prev next) acts = some h ∧
      h.Represents (contents acts) := by
  induction acts using List.reverseRecOn with
  | nil => exact ⟨_, rfl, represents_unlinked prev next⟩
  | append_singleton acts act ih =>
    rw [List.length_append] at hfuel
    obtain ⟨h, hexec, R⟩ := ih (Nat.le_of_add_right_le hfuel)
    have hlength : ∀ l, (contents acts l).length ≤ fuel := fun l ↦
      calc (contents acts l).length ≤ (added acts).length :=
            ((R.nodup l).subperm (contents_subset acts l)).length_le
        _ ≤ acts.length := length_added_le acts
        _ ≤ fuel := Nat.le_of_add_right_le hfuel
    obtain ⟨h', hstep, R'⟩ := R.linkStep hlength act
    refine ⟨h', ?_, by rwa [contents_concat]⟩
    rw [Machine.exec_concat, hexec, Option.bind_some, hstep]

/-- From empty lists and unlinked items, the history `acts` comes to its end, with no null pointer
followed and each loop left, in pointers that lay out the lists as the operations are to make them;
no item is in two of these. -/
def KeepsLists (prev next : I → Option I) (acts : List (LinkAction L I)) : Prop :=
  ∃ turns, ∀ fuel, turns ≤ fuel →
    ∃ h, Machine.exec (linkStep fuel) (unlinked prev next) acts = some h ∧
      h.Represents (contents acts) ∧
      ∀ x l l', x ∈ contents acts l → x ∈ contents acts l' → l = l'

/-- **The invariant of the intrusive lists**, after any history. -/
theorem keepsLists (prev next : I → Option I) (acts : List (LinkAction L I)) :
    KeepsLists prev next acts := by
  refine ⟨acts.length, fun fuel hfuel ↦ ?_⟩
  obtain ⟨h, hexec, R⟩ := exists_exec_linkStep prev next acts hfuel
  exact ⟨h, hexec, R, fun x l l' ↦ R.eq_of_mem⟩

end Links
