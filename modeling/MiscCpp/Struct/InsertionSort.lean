import MiscCpp.Struct.LinkedList

/-!
# Insertion sort of a linked list

`List::InsertionSort`: the nodes up to `cur` are in order. As long as the next one is not, it is
taken out and put behind the last of the first nodes with lesser values, and `cur` stays; it is
before `cur`, which has a greater value. So each turn leaves one node less behind the sorted part
(`insertionLoop_spec`), and the three writes of a turn are one `Seg.move`.
-/

open Function SinglyLinked

namespace LinkedList

variable {ι β : Type} [LinearOrder β] (value : NodeRef ι → β)

/-- `while (prev->next && prev->next->value < cur->next->value)`, where `c` is `cur->next`. -/
def prevLoop (next : Next ι) (c : NodeRef ι) : ℕ → NodeRef ι → Option (NodeRef ι)
  | 0, _ => none
  | fuel + 1, prev =>
    match next prev with
    | none => some prev
    | some a => if value a < value c then prevLoop next c fuel a else some prev

variable [DecidableEq ι]

/-- `while (cur)`, with `steps` turns for the inner loop. -/
def insertionLoop (steps : ℕ) : ℕ → Next ι → NodeRef ι → Option (NodeRef ι) → Option (Next ι)
  | 0, _, _, _ => none
  | _ + 1, next, _, none => some next
  | fuel + 1, next, prev, some cur =>
    match next cur with
    | none => insertionLoop steps fuel next prev none
    | some c =>
      if value c < value cur then do
        let prev ← prevLoop value next c steps prev
        let tmp := next prev
        let next := update next prev (next cur)
        let c ← next cur
        let next := update next cur (next c)
        let c ← next prev
        let next := update next c tmp
        insertionLoop steps fuel next .dummy (some cur)
      else insertionLoop steps fuel next prev (some c)

def insertionSort (fuel : ℕ) (next : Next ι) (head : Option (NodeRef ι)) :
    Option (Next ι × Option (NodeRef ι)) := do
  let next := update next .dummy head
  let next ← insertionLoop value fuel fuel next .dummy head
  some (next, next .dummy)

/-! ### A turn -/

variable {next next' : Next ι} {p q : Option (NodeRef ι)} {a b c cur : NodeRef ι}
  {xs ys zs rest : List (NodeRef ι)} {fuel steps : ℕ}

omit [DecidableEq ι] in
/-- **The inner loop** stops behind the nodes with lesser values. -/
theorem prevLoop_spec (h : Seg next (next a) (xs ++ b :: ys) q)
    (hlt : ∀ x ∈ xs, value x < value c) (hb : ¬ value b < value c) (hfuel : xs.length < fuel) :
    ∃ zs prev, a :: xs = zs ++ [prev] ∧ prevLoop value next c fuel a = some prev := by
  induction xs generalizing a fuel with
  | nil =>
    obtain ⟨fuel, rfl⟩ := Nat.exists_eq_succ_of_ne_zero (Nat.ne_of_gt hfuel)
    refine ⟨[], a, rfl, ?_⟩
    rw [prevLoop, h.1]
    exact if_neg hb
  | cons x xs ih =>
    obtain ⟨fuel, rfl⟩ := Nat.exists_eq_succ_of_ne_zero (Nat.ne_of_gt (Nat.zero_lt_of_lt hfuel))
    obtain ⟨ha, hrest⟩ := h
    obtain ⟨zs, prev, heq, hloop⟩ := ih hrest (fun y hy ↦ hlt y (List.mem_cons_of_mem x hy))
      (Nat.lt_of_succ_lt_succ hfuel)
    refine ⟨a :: zs, prev, by rw [heq, List.cons_append], ?_⟩
    rw [prevLoop, ha]
    exact (if_pos (hlt x List.mem_cons_self)).trans hloop

/-- Where a value belongs in a sorted list whose last one is greater. -/
theorem exists_place {α : Type*} {value : α → β} {xs : List α} {cur c : α}
    (hsorted : (xs ++ [cur]).Pairwise (value · ≤ value ·)) (hlt : value c < value cur) :
    ∃ ys zs, xs = ys ++ zs ∧ (∀ y ∈ ys, value y < value c) ∧
      ∀ z ∈ zs ++ [cur], value c ≤ value z := by
  induction xs with
  | nil => exact ⟨[], [], rfl, by simp, fun z hz ↦ by rw [List.mem_singleton.1 hz]; exact hlt.le⟩
  | cons x xs ih =>
    obtain ⟨hx, htail⟩ := List.pairwise_cons.1 hsorted
    rcases lt_or_ge (value x) (value c) with hxc | hcx
    · obtain ⟨ys, zs, rfl, hys, hzs⟩ := ih htail
      exact ⟨x :: ys, zs, rfl, List.forall_mem_cons.2 ⟨hxc, hys⟩, hzs⟩
    · refine ⟨[], x :: xs, rfl, by simp, fun z hz ↦ ?_⟩
      rcases List.mem_cons.1 hz with rfl | hz
      · exact hcx
      · exact hcx.trans (hx z hz)

/-- There it stays sorted. -/
theorem pairwise_place {α : Type*} {value : α → β} {ys zs : List α} {c : α}
    (hsorted : (ys ++ zs).Pairwise (value · ≤ value ·)) (hys : ∀ y ∈ ys, value y < value c)
    (hzs : ∀ z ∈ zs, value c ≤ value z) :
    (ys ++ c :: zs).Pairwise (value · ≤ value ·) := by
  obtain ⟨hy, hz, hcross⟩ := List.pairwise_append.1 hsorted
  refine List.pairwise_append.2 ⟨hy, List.pairwise_cons.2 ⟨hzs, hz⟩, fun y hmem z hmem' ↦ ?_⟩
  rcases List.mem_cons.1 hmem' with rfl | hmem'
  · exact (hys y hmem).le
  · exact hcross y hmem z hmem'

/-- A list stays sorted behind its last value. -/
theorem pairwise_concat_le {α : Type*} {value : α → β} {xs : List α} {cur c : α}
    (hsorted : (xs ++ [cur]).Pairwise (value · ≤ value ·)) (hle : value cur ≤ value c) :
    (xs ++ [cur] ++ [c]).Pairwise (value · ≤ value ·) := by
  obtain ⟨-, -, hcross⟩ := List.pairwise_append.1 hsorted
  refine List.pairwise_append.2 ⟨hsorted, List.pairwise_singleton _ _, fun x hx y hy ↦ ?_⟩
  rw [List.mem_singleton.1 hy]
  rcases List.mem_append.1 hx with hx | hx
  · exact (hcross x hx cur List.mem_cons_self).trans hle
  · exact List.mem_singleton.1 hx ▸ hle

/-- **A turn** that takes out the node `c` behind `cur`. -/
theorem insertionLoop_move (h : Seg next (next .dummy) (ys ++ (zs ++ cur :: c :: rest)) none)
    (hnodup : (NodeRef.dummy :: (ys ++ (zs ++ cur :: c :: rest))).Nodup)
    (hlt : value c < value cur) (hys : ∀ y ∈ ys, value y < value c)
    (hzs : ∀ z ∈ zs ++ [cur], value c ≤ value z) (hsteps : ys.length < steps) :
    ∃ next', Seg next' (next' .dummy) (ys ++ c :: (zs ++ cur :: rest)) none ∧
      ∀ fuel, insertionLoop value steps (fuel + 1) next .dummy (some cur) =
        insertionLoop value steps fuel next' .dummy (some cur) := by
  obtain ⟨b, bs, hb⟩ : ∃ b bs, zs ++ [cur] = b :: bs := by
    cases zs with
    | nil => exact ⟨cur, [], rfl⟩
    | cons z zs => exact ⟨z, zs ++ [cur], rfl⟩
  have hplace : ¬ value b < value c := not_lt.2 (hzs b (hb ▸ List.mem_cons_self))
  have hseg : Seg next (next .dummy) (ys ++ b :: (bs ++ c :: rest)) none := by
    rwa [← List.cons_append, ← hb, List.append_assoc, List.singleton_append]
  obtain ⟨as, prev, hprev, hloop⟩ := prevLoop_spec value hseg hys hplace hsteps
  -- the list from the dummy on, which may be the node written to
  have hall : Seg next (some .dummy) (as ++ prev :: (zs ++ cur :: c :: rest)) none := by
    rw [List.append_cons, ← hprev]
    exact ⟨rfl, h⟩
  have hnodup' : (as ++ prev :: (zs ++ cur :: c :: rest)).Nodup := by
    rwa [List.append_cons, ← hprev]
  have hmove := hall.move hnodup'
  have hcur : next cur = some c := by
    rw [← List.append_assoc] at h
    exact h.next_middle
  obtain ⟨-, hprev_nodup, -⟩ := List.nodup_append.1 hnodup'
  obtain ⟨hprev_mem, hzs_nodup⟩ := List.nodup_cons.1 hprev_nodup
  have hne : cur ≠ prev :=
    ne_of_mem_of_not_mem (List.mem_append_right _ List.mem_cons_self) hprev_mem
  have hcne : c ≠ prev := ne_of_mem_of_not_mem
    (List.mem_append_right _ (List.mem_cons_of_mem _ List.mem_cons_self)) hprev_mem
  rw [List.append_cons, ← hprev] at hmove
  refine ⟨_, hmove.2, fun fuel ↦ ?_⟩
  rw [insertionLoop, hcur]
  simp only [if_pos hlt, hloop, Option.bind_eq_bind, Option.bind_some, update_of_ne hne, hcur,
    update_of_ne hcne, update_of_ne hne.symm, update_self]

/-! ### The loop -/

/-- **The loop** sorts the nodes behind `cur` into those up to it. -/
theorem insertionLoop_spec (h : Seg next (next .dummy) (xs ++ cur :: rest) none)
    (hnodup : (NodeRef.dummy :: (xs ++ cur :: rest)).Nodup)
    (hsorted : (xs ++ [cur]).Pairwise (value · ≤ value ·))
    (hsteps : xs.length + rest.length < steps) (hfuel : rest.length + 1 < fuel) :
    ∃ next' ys, insertionLoop value steps fuel next .dummy (some cur) = some next' ∧
      Seg next' (next' .dummy) ys none ∧ ys.Perm (xs ++ cur :: rest) ∧
      ys.Pairwise (value · ≤ value ·) := by
  induction rest generalizing next xs cur fuel with
  | nil =>
    obtain ⟨fuel, rfl⟩ : ∃ k, fuel = k + 2 := ⟨fuel - 2, by omega⟩
    obtain ⟨-, hcur⟩ := seg_concat.1 h
    refine ⟨next, xs ++ [cur], ?_, h, .refl _, hsorted⟩
    rw [insertionLoop, hcur, insertionLoop]
  | cons c rest ih =>
    obtain ⟨fuel, rfl⟩ : ∃ k, fuel = k + 1 := ⟨fuel - 1, by omega⟩
    rw [List.length_cons] at hsteps hfuel
    by_cases hlt : value c < value cur
    · obtain ⟨ys, zs, rfl, hys, hzs⟩ := exists_place hsorted hlt
      rw [List.append_assoc] at h hnodup hsorted
      rw [List.length_append] at hsteps
      obtain ⟨next', hseg, hturn⟩ :=
        insertionLoop_move value h hnodup hlt hys hzs (show ys.length < steps by omega)
      have hperm : (ys ++ c :: (zs ++ cur :: rest)).Perm (ys ++ (zs ++ cur :: c :: rest)) := by
        refine List.Perm.append_left ys (List.perm_middle.symm.trans ?_)
        exact List.Perm.append_left zs (.swap cur c rest)
      have hsorted' := pairwise_place hsorted hys hzs
      rw [← List.cons_append, ← List.append_assoc] at hseg hperm hsorted'
      have hnodup' := (hperm.cons NodeRef.dummy).nodup_iff.2 hnodup
      obtain ⟨next'', ws, hloop, hws, hwperm, hwsorted⟩ := ih hseg hnodup' hsorted'
        (by simp only [List.length_append, List.length_cons]; omega)
        (show rest.length + 1 < fuel by omega)
      refine ⟨next'', ws, (hturn fuel).trans hloop, hws, hwperm.trans ?_, hwsorted⟩
      rwa [List.append_assoc ys zs]
    · have hcur : next cur = some c := h.next_middle
      rw [List.append_cons] at h hnodup ⊢
      have hsorted' := pairwise_concat_le hsorted (not_lt.1 hlt)
      obtain ⟨next', ys, hloop, hspec⟩ := ih h hnodup hsorted'
        (by simp only [List.length_append, List.length_singleton]; omega)
        (show rest.length + 1 < fuel by omega)
      refine ⟨next', ys, ?_, hspec⟩
      rw [insertionLoop, hcur]
      exact (if_neg hlt).trans hloop

/-- **`InsertionSort`** ends, with the nodes of the list in order. -/
theorem insertionSort_sorts {as : List ι} {head : Option (NodeRef ι)}
    (h : Seg next head (as.map .node) none) :
    ∃ n, ∀ fuel ≥ n, ∃ next' head' ys, insertionSort value fuel next head = some (next', head') ∧
      Seg next' head' ys none ∧ ys.Perm (as.map .node) ∧ ys.Pairwise (value · ≤ value ·) := by
  have hdummy : NodeRef.dummy ∉ as.map NodeRef.node := by simp
  have hseg : Seg (update next .dummy head) head (as.map .node) none :=
    h.congr fun a ha ↦ update_of_ne (ne_of_mem_of_not_mem ha hdummy) ..
  have hnodup := List.nodup_cons.2 ⟨hdummy, h.nodup⟩
  refine ⟨as.length + 2, fun fuel hfuel ↦ ?_⟩
  cases as with
  | nil =>
    obtain ⟨fuel, rfl⟩ : ∃ k, fuel = k + 1 := ⟨fuel - 1, by omega⟩
    obtain rfl := h
    refine ⟨update next .dummy none, none, [], ?_, rfl, .refl _, .nil⟩
    rw [insertionSort, insertionLoop]
    simp only [Option.bind_eq_bind, Option.bind_some, update_self]
  | cons a as =>
    have hlen : (as.map NodeRef.node).length + 1 < fuel := by
      rw [List.length_map]
      rw [List.length_cons] at hfuel
      omega
    have hsteps : ([] : List (NodeRef ι)).length + (as.map NodeRef.node).length < fuel := by
      rw [List.length_nil]
      omega
    rw [List.map_cons] at hseg hnodup h
    obtain rfl := h.1
    have hstart : Seg (update next .dummy (some (.node a)))
        (update next .dummy (some (.node a)) .dummy) ([] ++ .node a :: as.map .node) none := by
      rwa [update_self]
    obtain ⟨next', ys, hloop, hspec⟩ := insertionLoop_spec value hstart hnodup
      (List.pairwise_singleton _ _) hsteps hlen
    refine ⟨next', next' .dummy, ys, ?_, hspec⟩
    rw [insertionSort]
    simp only [Option.bind_eq_bind, hloop, Option.bind_some]

theorem insertionSort_sorts_test : ∃ n, ∀ fuel ≥ n, ∃ next' head' ys,
    insertionSort testValue fuel (chain 7) (some (.node 0)) = some (next', head') ∧
      Seg next' head' ys none ∧ ys.Perm ((List.range 7).map .node) ∧
      ys.Pairwise (testValue · ≤ testValue ·) :=
  insertionSort_sorts testValue (seg_chain (by decide))

end LinkedList
