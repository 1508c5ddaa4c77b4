import MiscCpp.Library.DoublyLinked

/-!
# The intrusive lists of the coroutine library

`RemoveFromLink`, `TailAdd`, `HeadPop` and `LinkAppend` of `co_routine.h`: templates over a list
type `Link` with `head` and `tail` pointers and an item type `Item` with `prev`, `next` and `link`
pointers. The library instantiates them twice, for timeout items (wheel slots, `timeout_list`,
`active_list`) and for condition-variable items.

`Links L I` holds the pointer fields of all lists `L` and all items `I`. The operations are the
source's, pointer write by pointer write. What they are for is said by `Represents h A`: the
pointers `h` lay out the lists `A : L → List I`, and an item's `link` names the list it is in.
Each operation then has one specification lemma, which says what it does to the lists.
-/

open DoublyLinked Function

/-- The pointer fields of the lists `L` and of the items `I`. A null pointer is `none`. -/
structure Links (L I : Type*) where
  head : L → Option I
  tail : L → Option I
  prev : I → Option I
  next : I → Option I
  link : I → Option L

namespace Links

variable {L I : Type*}

/-- All lists empty, all items unlinked: zeroed memory. -/
def empty : Links L I where
  head _ := none
  tail _ := none
  prev _ := none
  next _ := none
  link _ := none

variable [DecidableEq L] [DecidableEq I] (h : Links L I)

/-! ### The operations -/

/-- The first half of `RemoveFromLink`: the head pointer, or the predecessor's `next`. -/
def unlinkHead (l : L) (x : I) : Links L I :=
  if h.head l = some x then
    match h.next x with
    | some y => { h with head := update h.head l (some y), prev := update h.prev y none }
    | none => { h with head := update h.head l none }
  else
    match h.prev x with
    | some p => { h with next := update h.next p (h.next x) }
    | none => h

/-- The second half of `RemoveFromLink`: the tail pointer, or the successor's `prev`. An item that
is not the tail is dereferenced at `next` unchecked: a null there is undefined. -/
def unlinkTail (l : L) (x : I) : Option (Links L I) :=
  if h.tail l = some x then
    match h.prev x with
    | some y => some { h with tail := update h.tail l (some y), next := update h.next y none }
    | none => some { h with tail := update h.tail l none }
  else
    match h.next x with
    | some y => some { h with prev := update h.prev y (h.prev x) }
    | none => none

/-- Unlink an item from the list that it is in. -/
def removeFromLink (x : I) : Option (Links L I) :=
  match h.link x with
  | none => some h
  | some l =>
    ((h.unlinkHead l x).unlinkTail l x).map fun h ↦
      { h with
        prev := update h.prev x none
        next := update h.next x none
        link := update h.link x none }

/-- Add an item at the end, if it is in no list. -/
def tailAdd (l : L) (x : I) : Links L I :=
  if (h.link x).isSome then h
  else
    let h := { h with link := update h.link x (some l) }
    match h.tail l with
    | some t =>
      { h with
        next := update (update h.next t (some x)) x none
        prev := update h.prev x (some t)
        tail := update h.tail l (some x) }
    | none =>
      { h with
        head := update h.head l (some x)
        tail := update h.tail l (some x)
        next := update h.next x none
        prev := update h.prev x none }

/-- Unlink the first item. -/
def headPop (l : L) : Links L I :=
  match h.head l with
  | none => h
  | some x =>
    let h :=
      if h.head l = h.tail l then
        { h with head := update h.head l none, tail := update h.tail l none }
      else { h with head := update h.head l (h.next x) }
    let h :=
      { h with
        prev := update h.prev x none
        next := update h.next x none
        link := update h.link x none }
    match h.head l with
    | some y => { h with prev := update h.prev y none }
    | none => h

/-- The loop `while (rhs_head)` of `LinkAppend`: it renames the `link` of each item from `x` on.
The loop has no bound of its own; `fuel` bounds the number of turns. -/
def relink (next : I → Option I) (l : L) : ℕ → Option I → (I → Option L) → I → Option L
  | 0, _, link => link
  | _ + 1, none, link => link
  | fuel + 1, some x, link => relink next l fuel (next x) (update link x (some l))

/-- Move all items of the second list to the end of the first one. -/
def linkAppend (fuel : ℕ) (lhs rhs : L) : Links L I :=
  match h.head rhs with
  | none => h
  | some x =>
    let h := { h with link := relink h.next lhs fuel (some x) h.link }
    let h :=
      match h.tail lhs with
      | some t =>
        { h with
          next := update h.next t (some x)
          prev := update h.prev x (some t)
          tail := update h.tail lhs (h.tail rhs) }
      | none =>
        { h with
          head := update h.head lhs (h.head rhs)
          tail := update h.tail lhs (h.tail rhs) }
    { h with head := update h.head rhs none, tail := update h.tail rhs none }

/-! ### What the operations do to `link` -/

variable {h h' : Links L I} {l : L} {x : I}

theorem removeFromLink_link (e : h.removeFromLink x = some h') :
    h'.link = update h.link x none := by
  rw [removeFromLink] at e
  split at e
  next hx => rw [← Option.some.inj e, ← hx, update_eq_self]
  next l _ =>
    obtain ⟨h₁, h₁eq, rfl⟩ := Option.map_eq_some_iff.1 e
    have hhead : (h.unlinkHead l x).link = h.link := by
      rw [unlinkHead]
      split
      · split <;> rfl
      · split <;> rfl
    have htail : h₁.link = (h.unlinkHead l x).link := by
      rw [unlinkTail] at h₁eq
      split at h₁eq
      · split at h₁eq <;> exact Option.some.inj h₁eq ▸ rfl
      · split at h₁eq
        · exact Option.some.inj h₁eq ▸ rfl
        · cases h₁eq
    simp only [htail, hhead]

theorem tailAdd_link (hx : h.link x = none) :
    (h.tailAdd l x).link = update h.link x (some l) := by
  rw [tailAdd, if_neg (by simp [hx])]
  dsimp only
  split <;> rfl

theorem headPop_link (hl : h.head l = some x) :
    (h.headPop l).link = update h.link x none := by
  rw [headPop, hl]
  dsimp only
  split <;> split <;> rfl

/-! ### What the pointers mean -/

/-- The pointers lay out the lists `A`: each list is chained from its head to its tail, and the
`link` field of an item names the one list it is in. -/
structure Represents (h : Links L I) (A : L → List I) : Prop where
  head_eq : ∀ l, h.head l = (A l).head?
  tail_eq : ∀ l, h.tail l = (A l).getLast?
  linked : ∀ l, Linked h.prev h.next none (A l) none
  nodup : ∀ l, (A l).Nodup
  link_iff : ∀ x l, h.link x = some l ↔ x ∈ A l

omit [DecidableEq L] [DecidableEq I] in
theorem represents_empty : (empty : Links L I).Represents fun _ ↦ [] where
  head_eq _ := rfl
  tail_eq _ := rfl
  linked _ := trivial
  nodup _ := List.nodup_nil
  link_iff x l := by simp [empty]

variable {A : L → List I} {l' : L} {y : I} {xs ys zs : List I}

namespace Represents

variable (R : h.Represents A)
include R

omit [DecidableEq L] [DecidableEq I] in
/-- No item is in two lists. -/
theorem eq_of_mem (hl : x ∈ A l) (hl' : x ∈ A l') : l = l' :=
  Option.some.inj (((R.link_iff x l).2 hl).symm.trans ((R.link_iff x l').2 hl'))

omit [DecidableEq L] [DecidableEq I] in
theorem link_eq_none : h.link x = none ↔ ∀ l, x ∉ A l := by
  constructor
  · intro hx l hl
    rw [(R.link_iff x l).2 hl] at hx
    cases hx
  · intro hx
    cases hl : h.link x with
    | none => rfl
    | some l => exact absurd ((R.link_iff x l).1 hl) (hx l)

omit [DecidableEq L] [DecidableEq I] in
/-- An item that stays in its list keeps its `link`. -/
theorem link_congr {A' : L → List I} (R' : h'.Represents A') (hx : ∀ l, x ∈ A' l ↔ x ∈ A l) :
    h'.link x = h.link x :=
  Option.ext fun l ↦ by rw [R'.link_iff, R.link_iff, hx]

omit [DecidableEq L] [DecidableEq I] in
theorem head_eq_none : h.head l = none ↔ A l = [] := by
  rw [R.head_eq, List.head?_eq_none_iff]

omit [DecidableEq L] [DecidableEq I] in
/-- An item's place in its list. -/
theorem eq_append_of_mem (hx : x ∈ A l) :
    ∃ ys zs, A l = ys ++ x :: zs ∧ x ∉ ys ∧ x ∉ zs ∧ ∀ y ∈ ys, y ∉ zs := by
  obtain ⟨ys, zs, hA⟩ := List.append_of_mem hx
  have hn : (ys ++ x :: zs).Nodup := hA ▸ R.nodup l
  rw [List.nodup_append, List.nodup_cons] at hn
  obtain ⟨-, ⟨hxz, -⟩, hd⟩ := hn
  exact ⟨ys, zs, hA, fun hy ↦ hd x hy x (by simp) rfl, hxz,
    fun y hy hz ↦ hd y hy y (List.mem_cons_of_mem x hz) rfl⟩

end Represents

/-! ### `RemoveFromLink` -/

section RemoveFromLink

variable (R : h.Represents A) (hA : A l = ys ++ x :: zs) (hxy : x ∉ ys) (hxz : x ∉ zs)
include R hA

include hxy in
omit [DecidableEq L] [DecidableEq I] in
theorem head_eq_self_iff : h.head l = some x ↔ ys = [] := by
  rw [R.head_eq, hA]
  cases ys with
  | nil => simp
  | cons y ys =>
    have hyx : y ≠ x := fun e ↦ hxy (by simp [e])
    simp [hyx]

include hxz in
omit [DecidableEq L] [DecidableEq I] in
theorem tail_eq_self_iff : h.tail l = some x ↔ zs = [] := by
  rw [R.tail_eq, hA]
  rcases List.eq_nil_or_concat zs with rfl | ⟨zs, z, rfl⟩
  · simp
  · have hzx : z ≠ x := fun e ↦ hxz (by simp [e])
    rw [List.concat_eq_append, ← List.cons_append, ← List.append_assoc,
      List.getLast?_append_of_ne_nil _ (by simp)]
    simp [hzx]

include hxy in
/-- The first half repairs the list in front of the item. Where the item is the head, the new head
loses its `prev` at once; the second half writes the same again. -/
theorem unlinkHead_eq : h.unlinkHead l x =
    { h with
      head := update h.head l (ys ++ zs).head?
      next := setAt h.next ys.getLast? zs.head?
      prev := if ys = [] then setAt h.prev zs.head? none else h.prev } := by
  obtain ⟨hprev, hnext⟩ := (hA ▸ R.linked l : Linked h.prev h.next none _ none).middle
  rw [Option.or_none] at hprev hnext
  have hself := head_eq_self_iff R hA hxy
  rcases List.eq_nil_or_concat ys with rfl | ⟨ys, y, rfl⟩
  · rw [unlinkHead, if_pos (hself.2 rfl), hnext]
    cases zs <;> simp [setAt]
  · have hne : ys.concat y ≠ [] := by simp
    have hsame : update h.head l (ys.concat y ++ zs).head? = h.head := by
      rw [update_eq_self_iff, R.head_eq, hA, List.head?_append_of_ne_nil _ hne,
        List.head?_append_of_ne_nil _ hne]
    rw [unlinkHead, if_neg (fun e ↦ hne (hself.1 e)), hprev, hsame, if_neg hne]
    simp [setAt, hnext]

include hxy hxz in
/-- What `RemoveFromLink` writes, for an item between `ys` and `zs`. -/
theorem removeFromLink_eq : h.removeFromLink x = some
    { head := update h.head l (ys ++ zs).head?
      tail := update h.tail l (ys ++ zs).getLast?
      prev := update (setAt h.prev zs.head? ys.getLast?) x none
      next := update (setAt h.next ys.getLast? zs.head?) x none
      link := update h.link x none } := by
  have hlink : h.link x = some l := (R.link_iff x l).2 (by simp [hA])
  obtain ⟨hprev, hnext⟩ := (hA ▸ R.linked l : Linked h.prev h.next none _ none).middle
  rw [Option.or_none] at hprev hnext
  have hself := tail_eq_self_iff R hA hxz
  have hnext' : setAt h.next ys.getLast? zs.head? x = zs.head? := by
    rw [setAt_of_ne _ (fun e ↦ hxy (List.mem_of_getLast? e)), hnext]
  have hprev' : (if ys = [] then setAt h.prev zs.head? none else h.prev) x = ys.getLast? := by
    split
    · rw [setAt_of_ne _ (fun e ↦ hxz (List.mem_of_head? e)), hprev]
    · exact hprev
  rw [removeFromLink, hlink]
  simp only [unlinkHead_eq R hA hxy, unlinkTail, hprev', hnext']
  cases zs with
  | nil =>
    rw [if_pos (hself.2 rfl)]
    cases hy : ys.getLast? with
    | none => simp [setAt, hy]
    | some y => simp [setAt, hy]
  | cons z zs =>
    have hsame : update h.tail l (ys ++ z :: zs).getLast? = h.tail := by
      rw [update_eq_self_iff, R.tail_eq, hA, List.getLast?_append_of_ne_nil _ (by simp),
        List.getLast?_append_of_ne_nil _ (by simp), List.getLast?_cons_cons]
    rw [if_neg (fun e ↦ by simpa using hself.1 e), hsame]
    by_cases hys : ys = []
    · simp [setAt, hys]
    · simp [setAt, hys]

end RemoveFromLink

/-- **`RemoveFromLink` takes the item out of its list**, and leaves an unlinked item alone. -/
theorem Represents.removeFromLink (R : h.Represents A) (x : I) :
    ∃ h', h.removeFromLink x = some h' ∧ h'.Represents fun l ↦ (A l).erase x := by
  cases hx : h.link x with
  | none =>
    have hmem := R.link_eq_none.1 hx
    refine ⟨h, by rw [Links.removeFromLink, hx], ?_⟩
    simpa only [fun l ↦ List.erase_of_not_mem (hmem l)] using R
  | some l =>
    obtain ⟨ys, zs, hA, hxy, hxz, hd⟩ := R.eq_append_of_mem ((R.link_iff x l).1 hx)
    have hn : (ys ++ x :: zs).Nodup := hA ▸ R.nodup l
    have herase : (A l).erase x = ys ++ zs := by
      rw [hA, List.erase_append_right _ hxy, List.erase_cons_head]
    have hother : ∀ l', l' ≠ l → (A l').erase x = A l' := fun l' hl' ↦
      List.erase_of_not_mem fun hm ↦ hl' (R.eq_of_mem hm ((R.link_iff x l).1 hx))
    refine ⟨_, removeFromLink_eq R hA hxy hxz, ?_⟩
    constructor
    · intro l'
      rcases eq_or_ne l' l with rfl | hl'
      · simp [herase]
      · simp [hl', hother, R.head_eq]
    · intro l'
      rcases eq_or_ne l' l with rfl | hl'
      · simp [herase]
      · simp [hl', hother, R.tail_eq]
    · intro l'
      rcases eq_or_ne l' l with rfl | hl'
      · simp only [herase]
        have hlinked := linked_append.1 (hA ▸ R.linked l')
        rw [List.nodup_append, List.nodup_cons] at hn
        refine linked_append.2 ⟨?_, ?_⟩
        -- In front of the item only the last `next` moves, behind it only the first `prev`.
        · have h₁ := hlinked.1.set_next_last hn.1 (zs.head?.or none)
          refine h₁.congr (fun y hy ↦ ?_) fun y hy ↦ ?_
          · rw [update_of_ne (ne_of_mem_of_not_mem hy hxy),
              setAt_of_ne _ fun e ↦ hd y hy (List.mem_of_head? e)]
          · rw [update_of_ne (ne_of_mem_of_not_mem hy hxy), Option.or_none]
        · have h₂ := hlinked.2.2.2.set_prev_head hn.2.1.2 (ys.getLast?.or none)
          refine h₂.congr (fun y hy ↦ ?_) fun y hy ↦ ?_
          · rw [update_of_ne (ne_of_mem_of_not_mem hy hxz), Option.or_none]
          · rw [update_of_ne (ne_of_mem_of_not_mem hy hxz),
              setAt_of_ne _ fun e ↦ hd y (List.mem_of_getLast? e) hy]
      · rw [hother l' hl']
        have hmem : ∀ y ∈ A l', y ≠ x ∧ y ∉ ys ∧ y ∉ zs := by
          intro y hy
          have hyl : y ∉ A l := fun hm ↦ hl' (R.eq_of_mem hy hm)
          simp only [hA, List.mem_append, List.mem_cons, not_or] at hyl
          exact ⟨hyl.2.1, hyl.1, hyl.2.2⟩
        refine (R.linked l').congr (fun y hy ↦ ?_) fun y hy ↦ ?_
        · exact (update_of_ne (hmem y hy).1 _ _).trans
            (setAt_of_ne _ fun e ↦ (hmem y hy).2.2 (List.mem_of_head? e))
        · exact (update_of_ne (hmem y hy).1 _ _).trans
            (setAt_of_ne _ fun e ↦ (hmem y hy).2.1 (List.mem_of_getLast? e))
    · exact fun l' ↦ (R.nodup l').erase x
    · intro y l'
      rcases eq_or_ne y x with rfl | hy
      · simp [(R.nodup l').mem_erase_iff]
      · simp [hy, R.link_iff, (R.nodup l').mem_erase_iff]

/-! ### `TailAdd` -/

theorem tailAdd_of_linked (hx : (h.link x).isSome) : h.tailAdd l x = h :=
  if_pos hx

/-- What `TailAdd` writes, for an item that is in no list. -/
theorem tailAdd_eq (R : h.Represents A) (hx : h.link x = none) : h.tailAdd l x =
    { head := update h.head l (A l ++ [x]).head?
      tail := update h.tail l (some x)
      prev := update h.prev x (A l).getLast?
      next := update (setAt h.next (A l).getLast? (some x)) x none
      link := update h.link x (some l) } := by
  have htail := R.tail_eq l
  rcases List.eq_nil_or_concat (A l) with hA | ⟨ys, y, hA⟩
  · simp [tailAdd, hx, htail, hA]
  · have hsame : update h.head l (A l ++ [x]).head? = h.head := by
      rw [update_eq_self_iff, R.head_eq, List.head?_append_of_ne_nil _ (by simp [hA])]
    rw [hsame]
    simp [tailAdd, hx, htail, hA]

/-- **`TailAdd` appends** an item that is in no list. -/
theorem Represents.tailAdd (R : h.Represents A) (hx : h.link x = none) (l : L) :
    (h.tailAdd l x).Represents (update A l (A l ++ [x])) := by
  have hmem := R.link_eq_none.1 hx
  rw [tailAdd_eq R hx]
  constructor
  · intro l'
    rcases eq_or_ne l' l with rfl | hl'
    · simp
    · simp [hl', R.head_eq]
  · intro l'
    rcases eq_or_ne l' l with rfl | hl'
    · simp
    · simp [hl', R.tail_eq]
  · intro l'
    rcases eq_or_ne l' l with rfl | hl'
    · rw [update_self, linked_append]
      refine ⟨?_, by simp⟩
      have h₁ := (R.linked l').set_next_last (R.nodup l') (some x)
      refine h₁.congr (fun y hy ↦ ?_) fun y hy ↦ ?_
      · exact update_of_ne (ne_of_mem_of_not_mem hy (hmem l')) _ _
      · exact update_of_ne (ne_of_mem_of_not_mem hy (hmem l')) _ _
    · rw [update_of_ne hl']
      refine (R.linked l').congr (fun y hy ↦ ?_) fun y hy ↦ ?_
      · exact update_of_ne (ne_of_mem_of_not_mem hy (hmem l')) _ _
      · exact (update_of_ne (ne_of_mem_of_not_mem hy (hmem l')) _ _).trans
          (setAt_of_ne _ fun e ↦ hl' (R.eq_of_mem hy (List.mem_of_getLast? e)))
  · intro l'
    rcases eq_or_ne l' l with rfl | hl'
    · rw [update_self]
      refine List.nodup_append.2 ⟨R.nodup l', List.nodup_singleton x, fun y hy z hz ↦ ?_⟩
      exact List.mem_singleton.1 hz ▸ ne_of_mem_of_not_mem hy (hmem l')
    · rw [update_of_ne hl']
      exact R.nodup l'
  · intro y l'
    by_cases hy : y = x <;> by_cases hl' : l' = l
    · subst hy hl'; simp
    · subst hy; simp [hl', hmem, Ne.symm hl']
    · subst hl'; simp [hy, R.link_iff]
    · simp [hy, hl', R.link_iff]

/-! ### `HeadPop` -/

theorem headPop_of_empty (hl : h.head l = none) : h.headPop l = h := by
  rw [headPop, hl]

/-- What `HeadPop` writes, on a list that starts with `x`. -/
theorem headPop_eq (R : h.Represents A) (hA : A l = x :: xs) : h.headPop l =
    { head := update h.head l xs.head?
      tail := update h.tail l xs.getLast?
      prev := setAt (update h.prev x none) xs.head? none
      next := update h.next x none
      link := update h.link x none } := by
  have hhead : h.head l = some x := by rw [R.head_eq, hA, List.head?_cons]
  have htail : h.tail l = (x :: xs).getLast? := hA ▸ R.tail_eq l
  have hnext : h.next x = xs.head? := by
    have := (hA ▸ R.linked l : Linked h.prev h.next none (x :: xs) none).2.1
    rwa [Option.or_none] at this
  have hx : x ∉ xs := (List.nodup_cons.1 (hA ▸ R.nodup l)).1
  rw [headPop, hhead, htail]
  cases xs with
  | nil => simp
  | cons y ys =>
    -- The list has a second item, so its tail is not its head.
    have hne : some x ≠ (y :: ys).getLast? := fun e ↦ hx (List.mem_of_getLast? e.symm)
    rw [List.getLast?_cons_cons] at htail ⊢
    rw [← htail, update_eq_self, htail]
    simp only [if_neg hne]
    simp [hnext]

/-- **`HeadPop` drops the first item** of a list. -/
theorem Represents.headPop (R : h.Represents A) (l : L) :
    (h.headPop l).Represents (update A l (A l).tail) := by
  cases hA : A l with
  | nil =>
    rw [headPop_of_empty (R.head_eq_none.2 hA), List.tail_nil, ← hA, update_eq_self]
    exact R
  | cons x xs =>
    have hn := List.nodup_cons.1 (hA ▸ R.nodup l)
    have hmem : ∀ l' ≠ l, ∀ y ∈ A l', y ≠ x ∧ y ∉ xs := by
      intro l' hl' y hy
      have hyl : y ∉ A l := fun hm ↦ hl' (R.eq_of_mem hy hm)
      simpa only [hA, List.mem_cons, not_or] using hyl
    rw [headPop_eq R hA, List.tail_cons]
    constructor
    · intro l'
      rcases eq_or_ne l' l with rfl | hl'
      · simp
      · simp [hl', R.head_eq]
    · intro l'
      rcases eq_or_ne l' l with rfl | hl'
      · simp
      · simp [hl', R.tail_eq]
    · intro l'
      rcases eq_or_ne l' l with rfl | hl'
      · rw [update_self]
        have hlinked := hA ▸ R.linked l'
        have h₁ : Linked (update h.prev x none) (update h.next x none) (some x) xs none :=
          hlinked.2.2.congr (fun y hy ↦ update_of_ne (ne_of_mem_of_not_mem hy hn.1) _ _)
            fun y hy ↦ update_of_ne (ne_of_mem_of_not_mem hy hn.1) _ _
        exact h₁.set_prev_head hn.2 none
      · rw [update_of_ne hl']
        refine (R.linked l').congr (fun y hy ↦ ?_) fun y hy ↦ ?_
        · exact (setAt_of_ne _ fun e ↦ (hmem l' hl' y hy).2 (List.mem_of_head? e)).trans
            (update_of_ne (hmem l' hl' y hy).1 _ _)
        · exact update_of_ne (hmem l' hl' y hy).1 _ _
    · intro l'
      rcases eq_or_ne l' l with rfl | hl'
      · rw [update_self]
        exact hn.2
      · rw [update_of_ne hl']
        exact R.nodup l'
    · intro y l'
      have hlink := R.link_iff y l'
      rcases eq_or_ne l' l with rfl | hl'
      · by_cases hy : y = x
        · subst hy; simp [hn.1]
        · simpa [hy, hA] using hlink
      · rcases eq_or_ne y x with rfl | hy
        · have : y ∉ A l' := fun hm ↦ (hmem l' hl' y hm).1 rfl
          simp [hl', this]
        · simpa [hy, hl'] using hlink

/-! ### `LinkAppend` -/

omit [DecidableEq L] in
/-- Given a turn for each item, the loop of `LinkAppend` renames the whole list. -/
theorem relink_eq {prev next : I → Option I} {p : Option I} (hxs : Linked prev next p xs none)
    {fuel : ℕ} (hfuel : xs.length ≤ fuel) (link : I → Option L) :
    relink next l fuel xs.head? link = fun y ↦ if y ∈ xs then some l else link y := by
  induction xs generalizing p fuel link with
  | nil => cases fuel <;> simp [relink]
  | cons x xs ih =>
    obtain ⟨fuel, rfl⟩ : ∃ k, fuel = k + 1 := ⟨fuel - 1, by simp at hfuel; omega⟩
    obtain ⟨-, hnext, hxs⟩ := hxs
    rw [Option.or_none] at hnext
    rw [List.head?_cons, relink, hnext, ih hxs (by simpa using hfuel)]
    funext y
    by_cases hy : y = x <;> by_cases hm : y ∈ xs <;> simp [hy, hm]

theorem linkAppend_of_empty {lhs rhs : L} (hr : h.head rhs = none) (fuel : ℕ) :
    h.linkAppend fuel lhs rhs = h := by
  rw [linkAppend, hr]

/-- What `LinkAppend` writes, given a turn of its loop for each item of the right-hand list. -/
theorem linkAppend_eq (R : h.Represents A) {lhs rhs : L} {fuel : ℕ}
    (hfuel : (A rhs).length ≤ fuel) (hrhs : A rhs ≠ []) : h.linkAppend fuel lhs rhs =
    { head := update (update h.head lhs (A lhs ++ A rhs).head?) rhs none
      tail := update (update h.tail lhs (A lhs ++ A rhs).getLast?) rhs none
      prev := if A lhs = [] then h.prev else setAt h.prev (A rhs).head? (A lhs).getLast?
      next := setAt h.next (A lhs).getLast? (A rhs).head?
      link := fun y ↦ if y ∈ A rhs then some lhs else h.link y } := by
  have hrelink := relink_eq (l := lhs) (R.linked rhs) hfuel h.link
  have htail := R.tail_eq lhs
  have hgetLast : (A lhs ++ A rhs).getLast? = h.tail rhs := by
    rw [List.getLast?_append_of_ne_nil _ hrhs, R.tail_eq]
  cases hA : A rhs with
  | nil => exact absurd hA hrhs
  | cons x xs =>
    have hhead : h.head rhs = some x := by rw [R.head_eq, hA, List.head?_cons]
    rw [hA] at hrelink hgetLast
    rw [List.head?_cons] at hrelink
    rw [linkAppend, hhead]
    simp only [hrelink]
    rcases List.eq_nil_or_concat (A lhs) with hl | ⟨ys, y, hl⟩
    · simp only [hl, List.getLast?_nil, List.nil_append] at htail hgetLast ⊢
      simp [htail, hgetLast, hhead]
    · have hsame : (A lhs ++ x :: xs).head? = h.head lhs := by
        rw [List.head?_append_of_ne_nil _ (by simp [hl]), R.head_eq]
      have hgl : (A lhs).getLast? = some y := by simp [hl]
      rw [hsame, hgetLast, htail, hgl, if_neg (by simp [hl])]
      simp

/-- **`LinkAppend` puts the items of one list behind those of another** and empties it. -/
theorem Represents.linkAppend (R : h.Represents A) {lhs rhs : L} (hne : lhs ≠ rhs) {fuel : ℕ}
    (hfuel : (A rhs).length ≤ fuel) :
    (h.linkAppend fuel lhs rhs).Represents
      (update (update A lhs (A lhs ++ A rhs)) rhs []) := by
  by_cases hrhs : A rhs = []
  · have hsame : update (update A lhs (A lhs ++ A rhs)) rhs [] = A := by
      rw [hrhs, List.append_nil, update_eq_self, ← hrhs, update_eq_self]
    rw [linkAppend_of_empty (R.head_eq_none.2 hrhs), hsame]
    exact R
  have hdisj : ∀ l l', l ≠ l' → ∀ y ∈ A l, y ∉ A l' := fun l l' hl y hy hy' ↦
    hl (R.eq_of_mem hy hy')
  rw [linkAppend_eq R hfuel hrhs]
  constructor
  · intro l
    by_cases hr : l = rhs <;> by_cases hl : l = lhs <;> simp_all [R.head_eq]
  · intro l
    by_cases hr : l = rhs <;> by_cases hl : l = lhs <;> simp_all [R.tail_eq]
  · intro l
    rcases eq_or_ne l rhs with rfl | hr
    · simp
    rw [update_of_ne hr]
    rcases eq_or_ne l lhs with rfl | hl
    · rw [update_self, linked_append]
      have h₁ := (R.linked l).set_next_last (R.nodup l) ((A rhs).head?.or none)
      have h₂ := (R.linked rhs).set_prev_head (R.nodup rhs) ((A l).getLast?.or none)
      rw [Option.or_none] at h₁ h₂
      constructor
      · rw [Option.or_none]
        refine h₁.congr (fun y hy ↦ ?_) fun y _ ↦ rfl
        simp only
        split
        · rfl
        · exact setAt_of_ne _ fun e ↦ hdisj l rhs hne y hy (List.mem_of_head? e)
      · rw [Option.or_none]
        refine h₂.congr (fun y hy ↦ ?_) fun y hy ↦ ?_
        · simp only
          split
          next hnil =>
            -- The left-hand list is empty, and the head of the right-hand one already has a null
            -- `prev`.
            rw [hnil, List.getLast?_nil]
            cases hA : A rhs with
            | nil => exact absurd hA hrhs
            | cons x xs =>
              have hx : h.prev x = none := (hA ▸ R.linked rhs).1
              rw [List.head?_cons, setAt_some, ← hx, update_eq_self]
          next => rfl
        · exact setAt_of_ne _ fun e ↦ hdisj rhs l (Ne.symm hne) y hy (List.mem_of_getLast? e)
    · rw [update_of_ne hl]
      refine (R.linked l).congr (fun y hy ↦ ?_) fun y hy ↦ ?_
      · simp only
        split
        · rfl
        · exact setAt_of_ne _ fun e ↦ hdisj l rhs hr y hy (List.mem_of_head? e)
      · exact setAt_of_ne _ fun e ↦ hdisj l lhs hl y hy (List.mem_of_getLast? e)
  · intro l
    rcases eq_or_ne l rhs with rfl | hr
    · simp
    rw [update_of_ne hr]
    rcases eq_or_ne l lhs with rfl | hl
    · rw [update_self]
      refine List.nodup_append.2 ⟨R.nodup l, R.nodup rhs, fun y hy z hz ↦ ?_⟩
      exact fun e ↦ hdisj l rhs hne y hy (e ▸ hz)
    · rw [update_of_ne hl]
      exact R.nodup l
  · intro y l
    have hlink := R.link_iff y l
    by_cases hy : y ∈ A rhs
    · have hyl : ∀ l', l' ≠ rhs → y ∉ A l' := fun l' hl' ↦ hdisj rhs l' (Ne.symm hl') y hy
      by_cases hr : l = rhs <;> by_cases hl : l = lhs
      · exact absurd (hl.symm.trans hr) hne
      · simp [hy, hr, hne]
      · subst hl; simp [hy, hne]
      · simp [hy, hr, hl, hyl l hr, Ne.symm hl]
    · by_cases hr : l = rhs <;> by_cases hl : l = lhs
      · exact absurd (hl.symm.trans hr) hne
      · subst hr; simp [hy, hlink]
      · subst hl; simp [hy, hne, hlink]
      · simp [hy, hr, hl, hlink]

end Links
