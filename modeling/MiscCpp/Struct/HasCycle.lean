import MiscCpp.Library.PointerCycle

/-!
# Cycle detection

`List::HasCycle`, `ListNode::__hasCycle` and the function `hasCycle`, which follow the pointers of a
list one at a time and two at a time.

In the turn `m` of each loop, `slow` is `m` pointers and `fast` is `2 * m + 1` pointers behind the
head (`hasCycleLoop_succ`, `pointerLoop_succ`). In a cycle they meet, and on the way to the null
pointer they are different nodes. The first two test all the pointers they follow (`hasCycle_spec`).
The function does not, and from the last node on it follows the null pointer: it is right exactly
for the lists with a cycle and for those with an odd number of nodes (`detectsCycle_iff`).
-/

open SinglyLinked

namespace CycleDetection

variable {ι : Type} [DecidableEq ι] (next : ι → Option ι)

/-! ### The operations -/

/-- `fast->next->next`, as far as there are nodes. -/
def nextNext (fast : Option ι) : Option ι := (fast.bind next).bind next

/-- `while (fast && fast->next && fast->next->next)` -/
def hasCycleLoop : ℕ → Option ι → Option ι → Option Bool
  | 0, _, _ => none
  | fuel + 1, slow, fast =>
    match nextNext next fast with
    | none => some false
    | some f =>
      if slow = fast then some true
      else do
        let s ← slow
        hasCycleLoop fuel (next s) (some f)

/-- `List::HasCycle` -/
def List.hasCycle (fuel : ℕ) (head : Option ι) : Option Bool :=
  match head with
  | none => some false
  | some slow => hasCycleLoop next fuel (some slow) (next slow)

/-- `ListNode::__hasCycle` -/
def ListNode.hasCycle (fuel : ℕ) (this : ι) : Option Bool :=
  hasCycleLoop next fuel (some this) (next this)

/-- `while (p2)`, which follows `p2->next` untested. -/
def pointerLoop : ℕ → Option ι → Option ι → Option Bool
  | 0, _, _ => none
  | fuel + 1, p1, p2 =>
    match p2 with
    | none => some false
    | some b =>
      if p1 = p2 then some true
      else do
        let a ← p1
        let c ← next b
        pointerLoop fuel (next a) (next c)

/-- The function `hasCycle`. -/
def hasCycle (fuel : ℕ) (head : ι) : Option Bool :=
  pointerLoop next fuel (some head) (next head)

/-- Enough turns tell whether there is a cycle. -/
def DetectsCycle (f : ℕ → Option Bool) (p : Option ι) : Prop :=
  ∃ n, ∀ fuel ≥ n, ∃ b, f fuel = some b ∧ (b = true ↔ Cyclic next p)

/-! ### The turns -/

variable {next} {p : Option ι} {xs : List ι} {fuel m : ℕ}

theorem hasCycleLoop_succ (p : Option ι) (fuel m : ℕ) :
    hasCycleLoop next (fuel + 1) (walk next p m) (walk next p (2 * m + 1)) =
      if walk next p (2 * (m + 1) + 1) = none then some false
      else if walk next p m = walk next p (2 * m + 1) then some true
      else hasCycleLoop next fuel (walk next p (m + 1)) (walk next p (2 * (m + 1) + 1)) := by
  have hnext : nextNext next (walk next p (2 * m + 1)) = walk next p (2 * (m + 1) + 1) := by
    rw [nextNext, ← walk_succ, ← walk_succ]
    rfl
  rw [hasCycleLoop, hnext]
  cases hf : walk next p (2 * (m + 1) + 1) with
  | none => rfl
  | some f =>
    obtain ⟨s, hs⟩ := exists_walk_of_le hf (show m ≤ 2 * (m + 1) + 1 by omega)
    rw [if_neg (Option.some_ne_none f), walk_of_some hs, hs]
    rfl

theorem pointerLoop_succ (p : Option ι) (fuel m : ℕ) :
    pointerLoop next (fuel + 1) (walk next p m) (walk next p (2 * m + 1)) =
      if walk next p (2 * m + 1) = none then some false
      else if walk next p m = walk next p (2 * m + 1) then some true
      else if walk next p (2 * (m + 1)) = none then none
      else pointerLoop next fuel (walk next p (m + 1)) (walk next p (2 * (m + 1) + 1)) := by
  cases hf : walk next p (2 * m + 1) with
  | none => rfl
  | some f =>
    obtain ⟨s, hs⟩ := exists_walk_of_le hf (show m ≤ 2 * m + 1 by omega)
    have hstep : walk next p (2 * (m + 1)) = next f := walk_of_some hf
    rw [if_neg (Option.some_ne_none f), walk_of_some hs, hs, walk_succ, hstep, pointerLoop]
    cases next f with
    | none => rfl
    | some g => rfl

omit [DecidableEq ι] in
/-- A loop that goes on until the pointers meet. -/
theorem eq_true_of_meeting {f : ℕ → ℕ → Option Bool} [DecidableEq (Option ι)]
    (hf : ∀ fuel m, f (fuel + 1) m =
      if walk next p m = walk next p (2 * m + 1) then some true else f fuel (m + 1))
    (hm : walk next p m = walk next p (2 * m + 1)) {k : ℕ} (hk : k ≤ m) (hfuel : m < fuel + k) :
    f fuel k = some true := by
  induction fuel generalizing k with
  | zero => omega
  | succ fuel ih =>
    rw [hf]
    split
    next => rfl
    next hne =>
      have hkm : k ≠ m := by
        rintro rfl
        exact hne hm
      exact ih (by omega) (by omega)

/-! ### The loop that tests all pointers -/

theorem hasCycleLoop_of_cyclic (h : Cyclic next p) :
    ∃ n, ∀ fuel ≥ n, hasCycleLoop next fuel p (walk next p 1) = some true := by
  obtain ⟨m, hm⟩ := h.exists_meeting
  refine ⟨m + 1, fun fuel hfuel ↦ ?_⟩
  refine eq_true_of_meeting (f := fun fuel m ↦
    hasCycleLoop next fuel (walk next p m) (walk next p (2 * m + 1))) (fun fuel m ↦ ?_) hm
    (Nat.zero_le m) hfuel
  obtain ⟨b, hb⟩ := h.exists_walk (2 * (m + 1) + 1)
  simp only [hasCycleLoop_succ]
  exact if_neg fun hnone ↦ Option.some_ne_none b (hb.symm.trans hnone)

omit [DecidableEq ι] in
/-- On the way to the null pointer they do not meet. -/
theorem ne_of_seg (h : Seg next p xs none) (hb : walk next p (2 * m + 1) ≠ none) :
    walk next p m ≠ walk next p (2 * m + 1) := by
  obtain ⟨b, hb⟩ := Option.ne_none_iff_exists'.1 hb
  intro heq
  have hm := h.eq_of_walk_eq (heq.trans hb) hb
  omega

theorem hasCycleLoop_of_seg (h : Seg next p xs none) (hfuel : xs.length < fuel + m) :
    hasCycleLoop next (fuel + 1) (walk next p m) (walk next p (2 * m + 1)) = some false := by
  induction fuel generalizing m with
  | zero =>
    have hlen : xs.length ≤ 2 * (m + 1) + 1 := by omega
    rw [hasCycleLoop_succ, h.walk_none, List.getElem?_eq_none hlen, if_pos rfl]
  | succ fuel ih =>
    rw [hasCycleLoop_succ]
    split
    next => rfl
    next hsome =>
      have hb : walk next p (2 * m + 1) ≠ none := fun hnone ↦ hsome (by
        rw [Nat.mul_succ, walk_succ, walk_succ, hnone]
        rfl)
      rw [if_neg (ne_of_seg h hb)]
      exact ih (by omega)

theorem detectsCycle_loop [Finite ι] (next : ι → Option ι) (p : Option ι) :
    DetectsCycle next (fun fuel ↦ hasCycleLoop next fuel p (walk next p 1)) p := by
  rcases cyclic_or_seg next p with h | ⟨xs, h⟩
  · obtain ⟨n, hn⟩ := hasCycleLoop_of_cyclic h
    exact ⟨n, fun fuel hfuel ↦ ⟨true, hn fuel hfuel, iff_of_true rfl h⟩⟩
  · refine ⟨xs.length + 2, fun fuel hfuel ↦ ⟨false, ?_, iff_of_false nofun h.not_cyclic⟩⟩
    obtain ⟨fuel, rfl⟩ : ∃ k, fuel = k + 1 := ⟨fuel - 1, by omega⟩
    exact hasCycleLoop_of_seg (m := 0) h (by omega)

/-- **`HasCycle`** of a list and of a node ends and tells whether the pointers lead into a
cycle. -/
theorem hasCycle_spec [Finite ι] (next : ι → Option ι) :
    (∀ head, DetectsCycle next (fun fuel ↦ List.hasCycle next fuel head) head) ∧
      ∀ this, DetectsCycle next (fun fuel ↦ ListNode.hasCycle next fuel this) (some this) := by
  refine ⟨fun head ↦ ?_, fun this ↦ detectsCycle_loop next (some this)⟩
  cases head with
  | none =>
    have hseg : Seg next none [] none := rfl
    exact ⟨0, fun _ _ ↦ ⟨false, rfl, iff_of_false nofun hseg.not_cyclic⟩⟩
  | some slow => exact detectsCycle_loop next (some slow)

/-- The pointers of a ring of five nodes. -/
theorem hasCycle_spec_ring :
    (∀ head, DetectsCycle (fun a : Fin 5 ↦ some (a + 1))
        (fun fuel ↦ List.hasCycle (fun a ↦ some (a + 1)) fuel head) head) ∧
      ∀ this, DetectsCycle (fun a : Fin 5 ↦ some (a + 1))
        (fun fuel ↦ ListNode.hasCycle (fun a ↦ some (a + 1)) fuel this) (some this) :=
  hasCycle_spec fun a ↦ some (a + 1)

/-! ### The loop that does not -/

theorem pointerLoop_of_cyclic (h : Cyclic next p) :
    ∃ n, ∀ fuel ≥ n, pointerLoop next fuel p (walk next p 1) = some true := by
  obtain ⟨m, hm⟩ := h.exists_meeting
  refine ⟨m + 1, fun fuel hfuel ↦ ?_⟩
  refine eq_true_of_meeting (f := fun fuel m ↦
    pointerLoop next fuel (walk next p m) (walk next p (2 * m + 1))) (fun fuel m ↦ ?_) hm
    (Nat.zero_le m) hfuel
  obtain ⟨b, hb⟩ := h.exists_walk (2 * m + 1)
  obtain ⟨c, hc⟩ := h.exists_walk (2 * (m + 1))
  simp only [pointerLoop_succ]
  rw [if_neg fun hnone ↦ Option.some_ne_none b (hb.symm.trans hnone),
    if_neg fun hnone ↦ Option.some_ne_none c (hc.symm.trans hnone)]

/-- To the null pointer it comes with the last of an odd number of nodes, or not at all. -/
theorem pointerLoop_of_seg (h : Seg next p xs none) (hm : 2 * m < xs.length)
    (hfuel : xs.length ≤ fuel + m) :
    pointerLoop next fuel (walk next p m) (walk next p (2 * m + 1)) =
      if xs.length % 2 = 1 then some false else none := by
  induction fuel generalizing m with
  | zero => omega
  | succ fuel ih =>
    rw [pointerLoop_succ]
    split
    next hnone =>
      have hle : xs.length ≤ 2 * m + 1 := by rwa [h.walk_none, List.getElem?_eq_none_iff] at hnone
      rw [if_pos (by omega)]
    next hsome =>
      rw [if_neg (ne_of_seg h hsome)]
      rw [h.walk_none, List.getElem?_eq_none_iff, Nat.not_le] at hsome
      split
      next hnone =>
        have hle : xs.length ≤ 2 * (m + 1) := by
          rwa [h.walk_none, List.getElem?_eq_none_iff] at hnone
        rw [if_neg (by omega)]
      next hsome' =>
        rw [h.walk_none, List.getElem?_eq_none_iff, Nat.not_le] at hsome'
        exact ih hsome' (by omega)

/-- A result is that of a meeting, or there is an end. -/
theorem pointerLoop_eq_some {b : Bool}
    (h : pointerLoop next fuel (walk next p m) (walk next p (2 * m + 1)) = some b) :
    b = true ∨ ∃ n, walk next p n = none := by
  induction fuel generalizing m with
  | zero => cases h
  | succ fuel ih =>
    rw [pointerLoop_succ] at h
    split at h
    next hnone => exact .inr ⟨_, hnone⟩
    next =>
      split at h
      next => exact .inl (Option.some.inj h).symm
      next =>
        split at h
        next => cases h
        next => exact ih h

/-- **The function `hasCycle`** is right exactly for the lists that have a cycle or an odd number of
nodes. -/
theorem detectsCycle_iff (next : ι → Option ι) (head : ι) :
    DetectsCycle next (fun fuel ↦ hasCycle next fuel head) (some head) ↔
      Cyclic next (some head) ∨ ∃ xs, Seg next (some head) xs none ∧ xs.length % 2 = 1 := by
  have hpos : ∀ {xs}, Seg next (some head) xs none → 2 * 0 < xs.length := fun {xs} hseg ↦ by
    cases xs with
    | nil => cases hseg
    | cons x xs => exact Nat.succ_pos _
  constructor
  · rintro ⟨n, hn⟩
    obtain ⟨b, hb, hiff⟩ := hn n (Nat.le_refl n)
    rcases pointerLoop_eq_some (m := 0) hb with rfl | ⟨k, hk⟩
    · exact .inl (hiff.1 rfl)
    · obtain ⟨xs, hxs⟩ := exists_seg hk
      refine .inr ⟨xs, hxs, ?_⟩
      obtain ⟨b, hb, -⟩ := hn (n + xs.length) (Nat.le_add_right ..)
      by_contra heven
      have hloop := pointerLoop_of_seg hxs (hpos hxs) (Nat.le_add_left xs.length n)
      rw [if_neg heven] at hloop
      cases hloop.symm.trans hb
  · rintro (h | ⟨xs, h, hodd⟩)
    · obtain ⟨n, hn⟩ := pointerLoop_of_cyclic h
      exact ⟨n, fun fuel hfuel ↦ ⟨true, hn fuel hfuel, iff_of_true rfl h⟩⟩
    · refine ⟨xs.length, fun fuel hfuel ↦ ⟨false, ?_, iff_of_false nofun h.not_cyclic⟩⟩
      have hloop := pointerLoop_of_seg h (hpos h) (show xs.length ≤ fuel + 0 by omega)
      rw [if_pos hodd] at hloop
      exact hloop

/-- Two nodes: `p2->next->next` follows the null pointer. -/
theorem not_forall_detectsCycle : ¬ ∀ (n : ℕ) (next : Fin n → Option (Fin n)) (head : Fin n),
    DetectsCycle next (fun fuel ↦ hasCycle next fuel head) (some head) := by
  intro h
  obtain ⟨n, hn⟩ := h 2 (fun a ↦ if a = 0 then some 1 else none) 0
  obtain ⟨b, hb, -⟩ := hn (n + 1) (Nat.le_succ n)
  cases hb

end CycleDetection
