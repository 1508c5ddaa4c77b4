import Mathlib.Algebra.Group.Int.Defs
import Mathlib.Algebra.Group.Nat.Defs
import Mathlib.Data.Int.Order.Basic
import Mathlib.Data.List.Basic
import Mathlib.Order.Basic
import Mathlib.Tactic.Common

/-!
# Programs that access a vector

A program is a tree of its accesses to the elements of one vector: what it does after a read depends
on the element. An access with an index outside the vector is undefined; `within lo hi` makes it
undefined outside `lo, …, hi` as well, so what a program does within a range is what it does, with
all its accesses in that range (`exec_of_exec_within`).

`Rearranges lo hi m m'` says that `m'` is a permutation of `m` with the elements outside
`lo, …, hi` where they were. Bounds of the elements of the range are then kept.
-/

namespace Access

universe u v

variable {β : Type u} {m m' m'' : List β} {i j lo hi : ℤ} {b b' x y : β}

/-! ### Elements -/

/-- `m[i]`, undefined outside the vector. -/
def get (m : List β) (i : ℤ) : Option β := if 0 ≤ i then m[i.toNat]? else none

/-- `m[i] = b` -/
def put (m : List β) (i : ℤ) (b : β) : Option (List β) :=
  if 0 ≤ i ∧ i.toNat < m.length then some (m.set i.toNat b) else none

/-- At a natural index the checked read is the list's own. -/
theorem get_natCast (m : List β) (k : ℕ) : get m k = m[k]? := if_pos (Int.natCast_nonneg k)

theorem exists_get (hi : 0 ≤ i) (hlt : i < m.length) : ∃ b, get m i = some b := by
  refine ⟨m[i.toNat], ?_⟩
  rw [get, if_pos hi, List.getElem?_eq_getElem]

theorem get_bounds (h : get m i = some b) : 0 ≤ i ∧ i < m.length := by
  rw [get] at h
  split at h
  next hi =>
    have hlt := (List.getElem?_eq_some_iff.1 h).1
    omega
  next => cases h

/-- A write where a read succeeds replaces that one element. -/
theorem put_eq (h : get m i = some b) (x : β) : put m i x = some (m.set i.toNat x) := by
  obtain ⟨hi, hlt⟩ := get_bounds h
  exact if_pos ⟨hi, by omega⟩

/-- A write that succeeds was at an index that reads, and it replaces that element. -/
theorem put_eq_some (h : put m i x = some m') :
    (∃ b, get m i = some b) ∧ m' = m.set i.toNat x := by
  rw [put] at h
  split at h
  next hi => exact ⟨exists_get hi.1 (by omega), (Option.some.inj h).symm⟩
  next => cases h

theorem get_set_self (h : get m i = some b) (x : β) : get (m.set i.toNat x) i = some x := by
  obtain ⟨hi, hlt⟩ := get_bounds h
  rw [get, if_pos hi, List.getElem?_set_self (by omega)]

theorem set_get_self (h : get m i = some b) : m.set i.toNat b = m := by
  rw [get, if_pos (get_bounds h).1] at h
  obtain ⟨hlt, rfl⟩ := List.getElem?_eq_some_iff.1 h
  exact List.set_getElem_self hlt

/-- A replaced element is read at its own index only. -/
theorem get_set_ne (hi : 0 ≤ i) (hne : j ≠ i) (x : β) : get (m.set i.toNat x) j = get m j := by
  rw [get, get]
  split
  next hj => exact List.getElem?_set_ne (by omega)
  next => rfl

/-- A write leaves every other index as it was. -/
theorem get_put_ne (h : put m i x = some m') (hne : j ≠ i) : get m' j = get m j := by
  obtain ⟨⟨b, hb⟩, rfl⟩ := put_eq_some h
  exact get_set_ne (get_bounds hb).1 hne x

/-- Writes to different elements commute. -/
theorem put_comm (hm : put m i x = some m') (hm' : put m' j y = some m'') (hne : i ≠ j) :
    ∃ m₁, put m j y = some m₁ ∧ put m₁ i x = some m'' := by
  obtain ⟨⟨b, hb⟩, rfl⟩ := put_eq_some hm
  obtain ⟨⟨c, hc⟩, rfl⟩ := put_eq_some hm'
  have hi := (get_bounds hb).1
  have hj := (get_bounds hc).1
  rw [get_set_ne hi hne.symm] at hc
  refine ⟨_, put_eq hc y, ?_⟩
  rw [put_eq ((get_set_ne hj hne y).trans hb), List.set_comm _ _ (by omega)]

/-! ### Parts -/

/-- `s.substr(pos, count)`, both converted to `size_t`: none for the exception `out_of_range`. -/
def substr (m : List β) (pos count : ℤ) : Option (List β) :=
  if (pos % 2 ^ 64).toNat ≤ m.length then
    some ((m.drop (pos % 2 ^ 64).toNat).take (count % 2 ^ 64).toNat)
  else none

/-- With the positions in order and inside, the substring is the stretch between them. -/
theorem substr_eq {l r : ℕ} (hlr : l ≤ r) (hr : r ≤ m.length) (hlt : r < 2 ^ 64) :
    substr m l (r - l) = some ((m.take r).drop l) := by
  have hpos : ((l : ℤ) % 2 ^ 64).toNat = l := by omega
  have hcount : (((r : ℤ) - l) % 2 ^ 64).toNat = r - l := by omega
  rw [substr, hpos, hcount, if_pos (by omega), List.drop_take]

/-- The elements from one iterator to another one, given by their positions. -/
def range (m : List β) (first last : ℤ) : Option (List β) :=
  if 0 ≤ first ∧ first ≤ last ∧ last ≤ m.length then
    some ((m.take last.toNat).drop first.toNat)
  else none

/-- A pair of iterators in order and inside denotes the stretch between them. -/
theorem range_eq {l r : ℕ} (hlr : l ≤ r) (hr : r ≤ m.length) :
    range m l r = some ((m.take r).drop l) := by
  rw [range, if_pos (by omega), Int.toNat_natCast, Int.toNat_natCast]

/-- A stretch between two positions is an infix. -/
theorem isInfix_drop_take (m : List β) (l r : ℕ) : (m.take r).drop l <:+: m :=
  (List.drop_suffix _ _).isInfix.trans (List.take_prefix _ _).isInfix

/-- Every infix is the stretch between two positions. -/
theorem exists_drop_take {w : List β} (h : w <:+: m) :
    ∃ l r, l ≤ r ∧ r ≤ m.length ∧ (m.take r).drop l = w := by
  obtain ⟨front, back, rfl⟩ := h
  refine ⟨front.length, (front ++ w).length, ?_, ?_, by rw [List.take_left, List.drop_left]⟩
  · rw [List.length_append]
    exact Nat.le_add_right _ _
  · rw [List.append_assoc, List.length_append, List.length_append, List.length_append]
    omega

/-! ### Vectors whose elements have a property -/

/-- A vector of `n` elements that have `P`, which may depend on the index. -/
structure Entries (n : ℕ) (P : ℤ → β → Prop) (m : List β) : Prop where
  length : m.length = n
  prop : ∀ i x, get m i = some x → P i x

/-- The property `P` in front of `k`, and `Q` from there on. -/
def Split (k : ℤ) (P Q : ℤ → β → Prop) (i : ℤ) (x : β) : Prop :=
  (i < k → P i x) ∧ (k ≤ i → Q i x)

variable {n : ℕ} {k : ℤ} {P Q : ℤ → β → Prop}

theorem Entries.exists_get (h : Entries n P m) (hi : 0 ≤ i) (hlt : i < n) :
    ∃ x, get m i = some x ∧ P i x := by
  obtain ⟨x, hx⟩ := Access.exists_get (m := m) hi (by rw [h.length]; exact hlt)
  exact ⟨x, hx, h.prop i x hx⟩

theorem Entries.congr (h : Entries n P m) (hPQ : ∀ (i : ℤ) x, 0 ≤ i → i < n → P i x → Q i x) :
    Entries n Q m :=
  ⟨h.length, fun i x hx ↦ hPQ i x (get_bounds hx).1 (h.length ▸ (get_bounds hx).2)
    (h.prop i x hx)⟩

theorem entries_replicate (h : ∀ i : ℤ, 0 ≤ i → i < n → P i b) :
    Entries n P (List.replicate n b) where
  length := List.length_replicate
  prop i x hx := by
    have hbounds := get_bounds hx
    rw [List.length_replicate] at hbounds
    rw [get, if_pos hbounds.1] at hx
    rw [List.eq_of_mem_replicate (List.mem_of_getElem? hx)]
    exact h i hbounds.1 hbounds.2

theorem entries_split_zero_iff : Entries n (Split 0 P Q) m ↔ Entries n Q m :=
  ⟨fun h ↦ h.congr fun _ _ hi _ hx ↦ hx.2 hi,
    fun h ↦ h.congr fun _ _ hi _ hx ↦ ⟨fun hlt ↦ by omega, fun _ ↦ hx⟩⟩

/-- A property that holds up to `l` holds up to `k`. -/
theorem entries_split_split_iff {l : ℤ} (hkl : k ≤ l) :
    Entries n (Split k P (Split l P Q)) m ↔ Entries n (Split l P Q) m :=
  ⟨fun h ↦ h.congr fun i _ _ _ hx ↦
      ⟨fun hlt ↦ (lt_or_ge i k).elim hx.1 fun hle ↦ (hx.2 hle).1 hlt,
        fun hle ↦ (hx.2 (hkl.trans hle)).2 hle⟩,
    fun h ↦ h.congr fun _ _ _ _ hx ↦ ⟨fun hlt ↦ hx.1 (hlt.trans_le hkl), fun _ ↦ hx⟩⟩

theorem entries_split_self_iff : Entries n (Split n P Q) m ↔ Entries n P m :=
  ⟨fun h ↦ h.congr fun _ _ _ hlt hx ↦ hx.1 hlt,
    fun h ↦ h.congr fun _ _ _ hlt hx ↦ ⟨fun _ ↦ hx, fun hle ↦ by omega⟩⟩

/-- A write of the right value moves the table on, when the other entries keep theirs. -/
theorem Entries.put (h : Entries n P m) (hi : 0 ≤ i) (hlt : i < n) (hb : Q i b)
    (hPQ : ∀ j x, j ≠ i → P j x → Q j x) : ∃ m', put m i b = some m' ∧ Entries n Q m' := by
  obtain ⟨x, hx, -⟩ := h.exists_get hi hlt
  refine ⟨_, put_eq hx b, by rw [List.length_set, h.length], fun j y hy ↦ ?_⟩
  by_cases hji : j = i
  · rw [hji, get_set_self hx] at hy
    rw [hji, ← Option.some.inj hy]
    exact hb
  · rw [get_set_ne hi hji] at hy
    exact hPQ j y hji (h.prop j y hy)

/-- The next element, in a loop that counts up. -/
theorem Entries.put_up (h : Entries n (Split k P Q) m) (hk : 0 ≤ k) (hlt : k < n) (hb : P k b) :
    ∃ m', Access.put m k b = some m' ∧ Entries n (Split (k + 1) P Q) m' :=
  h.put hk hlt ⟨fun _ ↦ hb, fun hle ↦ by omega⟩
    fun j x hne hx ↦ ⟨fun hj ↦ hx.1 (by omega), fun hj ↦ hx.2 (by omega)⟩

/-- The next element, left as it is. -/
theorem Entries.keep (h : Entries n (Split k P Q) m) (hx : Access.get m k = some x) (hP : P k x) :
    Entries n (Split (k + 1) P Q) m := by
  refine ⟨h.length, fun j y hy ↦ ⟨fun hj ↦ ?_, fun hj ↦ (h.prop j y hy).2 (by omega)⟩⟩
  rcases (Int.lt_add_one_iff.1 hj).lt_or_eq with hlt | rfl
  · exact (h.prop j y hy).1 hlt
  · rwa [← Option.some.inj (hx.symm.trans hy)]

/-- The next element, in a loop that counts down. -/
theorem Entries.put_down (h : Entries n (Split (k + 1) P Q) m) (hk : 0 ≤ k) (hlt : k < n)
    (hb : Q k b) : ∃ m', Access.put m k b = some m' ∧ Entries n (Split k P Q) m' :=
  h.put hk hlt ⟨fun hlt ↦ by omega, fun _ ↦ hb⟩
    fun j x hne hx ↦ ⟨fun hj ↦ hx.1 (by omega), fun hj ↦ hx.2 (by omega)⟩

/-! ### Exchanges -/

/-- `std::swap(m[i], m[j])` -/
def swap (m : List β) (i j : ℤ) : Option (List β) := do
  let x ← get m i
  let y ← get m j
  let m ← put m i y
  put m j x

theorem swap_eq (hx : get m i = some x) (hy : get m j = some y) :
    swap m i j = some ((m.set i.toNat y).set j.toNat x) := by
  obtain ⟨hj, hj'⟩ := get_bounds hy
  obtain ⟨z, hz⟩ := exists_get (m := m.set i.toNat y) hj (by rwa [List.length_set])
  rw [swap, hx, hy]
  simp only [Option.bind_eq_bind, Option.bind_some, put_eq hx, put_eq hz]

/-! ### Rearrangements -/

/-- The second list is the first one rearranged between two places, and the same outside them. -/
structure Rearranges (lo hi : ℤ) (m m' : List β) : Prop where
  perm : m'.Perm m
  outside : ∀ i, ¬ (lo ≤ i ∧ i ≤ hi) → get m' i = get m i
  inside : ∀ i, lo ≤ i → i ≤ hi → ∃ j, lo ≤ j ∧ j ≤ hi ∧ get m' i = get m j

theorem Rearranges.refl (lo hi : ℤ) (m : List β) : Rearranges lo hi m m :=
  ⟨.refl m, fun _ _ ↦ rfl, fun i hlo hhi ↦ ⟨i, hlo, hhi, rfl⟩⟩

theorem Rearranges.trans (h : Rearranges lo hi m m') (h' : Rearranges lo hi m' m'') :
    Rearranges lo hi m m'' where
  perm := h'.perm.trans h.perm
  outside i hi := (h'.outside i hi).trans (h.outside i hi)
  inside i hlo hhi := by
    obtain ⟨j, hjlo, hjhi, hj⟩ := h'.inside i hlo hhi
    obtain ⟨k, hklo, hkhi, hk⟩ := h.inside j hjlo hjhi
    exact ⟨k, hklo, hkhi, hj.trans hk⟩

theorem Rearranges.mono {lo' hi' : ℤ} (h : Rearranges lo hi m m') (hlo : lo' ≤ lo)
    (hhi : hi ≤ hi') : Rearranges lo' hi' m m' where
  perm := h.perm
  outside i hi := h.outside i fun hi' ↦ hi ⟨hlo.trans hi'.1, hi'.2.trans hhi⟩
  inside i hlo' hhi' := by
    by_cases hi : lo ≤ i ∧ i ≤ hi
    · obtain ⟨j, hjlo, hjhi, hj⟩ := h.inside i hi.1 hi.2
      exact ⟨j, hlo.trans hjlo, hjhi.trans hhi, hj⟩
    · exact ⟨i, hlo', hhi', h.outside i hi⟩

theorem Rearranges.length (h : Rearranges lo hi m m') : m'.length = m.length := h.perm.length_eq

/-- What the elements of the range have, they have wherever they are. -/
theorem Rearranges.forall (h : Rearranges lo hi m m') {P : β → Prop}
    (hP : ∀ i, lo ≤ i → i ≤ hi → ∀ x, get m i = some x → P x) :
    ∀ i, lo ≤ i → i ≤ hi → ∀ x, get m' i = some x → P x := by
  intro i hlo hhi x hx
  obtain ⟨j, hjlo, hjhi, hj⟩ := h.inside i hlo hhi
  exact hP j hjlo hjhi x (hj.symm.trans hx)

/-- The elements after the exchange of two. -/
theorem get_swap (hx : get m i = some x) (hy : get m j = some y) (k : ℤ) :
    get ((m.set i.toNat y).set j.toNat x) k =
      if k = j then some x else if k = i then some y else get m k := by
  obtain ⟨hi, hi'⟩ := get_bounds hx
  obtain ⟨hj, hj'⟩ := get_bounds hy
  split
  next heq =>
    obtain ⟨z, hz⟩ := exists_get (m := m.set i.toNat y) hj (by rwa [List.length_set])
    rw [heq, get_set_self hz]
  next hkj =>
    rw [get_set_ne hj hkj]
    split
    next heq => rw [heq, get_set_self hx]
    next hki => rw [get_set_ne hi hki]

/-- Two writes that exchange two elements permute the list. -/
theorem perm_swap (hx : get m i = some x) (hy : get m j = some y) :
    ((m.set i.toNat y).set j.toNat x).Perm m := by
  have hx' : m[i.toNat]? = some x := by rwa [get, if_pos (get_bounds hx).1] at hx
  have hy' : m[j.toNat]? = some y := by rwa [get, if_pos (get_bounds hy).1] at hy
  obtain ⟨hilt, rfl⟩ := List.getElem?_eq_some_iff.1 hx'
  obtain ⟨hjlt, rfl⟩ := List.getElem?_eq_some_iff.1 hy'
  exact List.set_set_perm hilt hjlt

/-- A swap inside the places is a rearrangement between them. -/
theorem rearranges_swap (hx : get m i = some x) (hy : get m j = some y) (hilo : lo ≤ i)
    (hihi : i ≤ hi) (hjlo : lo ≤ j) (hjhi : j ≤ hi) :
    Rearranges lo hi m ((m.set i.toNat y).set j.toNat x) := by
  refine ⟨perm_swap hx hy, fun k hk ↦ ?_, fun k hlo hhi ↦ ?_⟩
  · have hkj : k ≠ j := fun heq ↦ hk (heq ▸ ⟨hjlo, hjhi⟩)
    have hki : k ≠ i := fun heq ↦ hk (heq ▸ ⟨hilo, hihi⟩)
    rw [get_swap hx hy, if_neg hkj, if_neg hki]
  · rw [get_swap hx hy]
    split
    next => exact ⟨i, hilo, hihi, hx.symm⟩
    next =>
      split
      next => exact ⟨j, hjlo, hjhi, hy.symm⟩
      next => exact ⟨k, hlo, hhi, rfl⟩

/-- The elements of the range ascend. -/
def SortedOn [LE β] (lo hi : ℤ) (m : List β) : Prop :=
  ∀ i j, lo ≤ i → i < j → j ≤ hi → ∀ x y, get m i = some x → get m j = some y → x ≤ y

/-- What stands after the places is kept. -/
theorem Rearranges.drop (h : Rearranges 0 hi m m') :
    m'.drop (hi + 1).toNat = m.drop (hi + 1).toNat := by
  refine List.ext_getElem? fun k ↦ ?_
  rw [List.getElem?_drop, List.getElem?_drop, ← get_natCast, ← get_natCast]
  exact h.outside _ (by omega)

/-- Up to the last place the list is permuted. -/
theorem Rearranges.take_perm (h : Rearranges 0 hi m m') :
    (m'.take (hi + 1).toNat).Perm (m.take (hi + 1).toNat) := by
  refine (List.perm_append_right_iff (m'.drop (hi + 1).toNat)).1 ?_
  rw [List.take_append_drop, h.drop, List.take_append_drop]
  exact h.perm

/-- Rearranged back. -/
theorem Rearranges.symm (h : Rearranges 0 hi m m') : Rearranges 0 hi m' m where
  perm := h.perm.symm
  outside i hi := (h.outside i hi).symm
  inside i hlo hhi := by
    cases hget : get m i with
    | none =>
      refine ⟨i, hlo, hhi, ?_⟩
      cases hget' : get m' i with
      | none => rfl
      | some x =>
        have hlt := (get_bounds hget').2
        rw [h.length] at hlt
        obtain ⟨y, hy⟩ := exists_get hlo hlt
        rw [hget] at hy
        cases hy
    | some x =>
      rw [get, if_pos hlo] at hget
      have hmem : x ∈ m.take (hi + 1).toNat :=
        List.mem_iff_getElem?.2 ⟨i.toNat, by rw [List.getElem?_take_of_lt (by omega), hget]⟩
      obtain ⟨j, hj⟩ := List.mem_iff_getElem?.1 (h.take_perm.mem_iff.2 hmem)
      have hjlt := (List.getElem?_eq_some_iff.1 hj).1
      rw [List.length_take] at hjlt
      rw [List.getElem?_take_of_lt (by omega)] at hj
      exact ⟨j, Int.natCast_nonneg j, by omega, by rw [get_natCast, hj]⟩

/-- A sorted list is in order between any two places. -/
theorem sortedOn_of_pairwise [LE β] (h : m.Pairwise (· ≤ ·)) (lo hi : ℤ) : SortedOn lo hi m := by
  intro i j _ hij _ x y hx hy
  have hi := (get_bounds hx).1
  have hj := (get_bounds hy).1
  rw [get, if_pos hi] at hx
  rw [get, if_pos hj] at hy
  obtain ⟨hilt, rfl⟩ := List.getElem?_eq_some_iff.1 hx
  obtain ⟨hjlt, rfl⟩ := List.getElem?_eq_some_iff.1 hy
  exact List.pairwise_iff_getElem.1 h _ _ hilt hjlt (by omega)

/-- In order up to the next place: in order so far, and nothing before exceeds the new one. -/
theorem sortedOn_succ_iff [Preorder β] :
    SortedOn lo (hi + 1) m ↔ SortedOn lo hi m ∧
      ∀ y, get m (hi + 1) = some y → ∀ i, lo ≤ i → i ≤ hi + 1 → ∀ x, get m i = some x → x ≤ y := by
  constructor
  · refine fun h ↦ ⟨fun i j hi hij hj ↦ h i j hi hij (by omega), fun y hy i hi hi' x hx ↦ ?_⟩
    rcases hi'.lt_or_eq with hlt | rfl
    · exact h i _ hi hlt (le_refl _) x y hx hy
    · exact (Option.some.inj (hx.symm.trans hy)).le
  · rintro ⟨h, hlast⟩ i j hi hij hj x y hx hy
    rcases hj.lt_or_eq with hlt | rfl
    · exact h i j hi hij (by omega) x y hx hy
    · exact hlast y hy i hi hij.le x hx

/-- Being in order from the start on is being sorted up to the place. -/
theorem SortedOn.take [LE β] (h : SortedOn 0 hi m) :
    (m.take (hi + 1).toNat).Pairwise (· ≤ ·) := by
  refine List.pairwise_iff_getElem.2 fun i j hi' hj hij ↦ ?_
  have hlen := List.length_take (i := (hi + 1).toNat) (l := m)
  rw [List.getElem_take, List.getElem_take]
  refine h i j (Int.natCast_nonneg i) (by omega) (by omega) _ _ ?_ ?_
  · rw [get_natCast, List.getElem?_eq_getElem]
  · rw [get_natCast, List.getElem?_eq_getElem]

/-- With its first elements sorted, the vector is in order if the others are, and behind them. -/
theorem Rearranges.pairwise_iff [LE β] (h : Rearranges 0 hi m m') (hsorted : SortedOn 0 hi m') :
    m'.Pairwise (· ≤ ·) ↔ (m.drop (hi + 1).toNat).Pairwise (· ≤ ·) ∧
      ∀ x ∈ m.take (hi + 1).toNat, ∀ y ∈ m.drop (hi + 1).toNat, x ≤ y := by
  conv_lhs => rw [← List.take_append_drop (hi + 1).toNat m', List.pairwise_append, h.drop]
  rw [and_iff_right hsorted.take]
  exact and_congr_right fun _ ↦ forall_congr' fun x ↦ by rw [h.take_perm.mem_iff]

/-! ### Programs -/

/-- A program that returns an `α`. -/
inductive Prog (β : Type u) (α : Type v) : Type (max u v)
  | ret (a : α)
  | undefined
  | read (i : ℤ) (next : β → Prog β α)
  | write (i : ℤ) (b : β) (next : Prog β α)

namespace Prog

variable {α α' : Type v} {a : α} {a' : α'} {p : Prog β α} {f : α → Prog β α'}

/-- Run a program and continue with its value; the accesses of the two follow one another. -/
def bind : Prog β α → (α → Prog β α') → Prog β α'
  | .ret a, f => f a
  | .undefined, _ => .undefined
  | .read i next, f => .read i fun b ↦ (next b).bind f
  | .write i b next, f => .write i b (next.bind f)

instance : Monad (Prog β) where
  pure := .ret
  bind := .bind

/-- A value that is there or not, as a program that touches nothing. -/
def ofOption : Option α → Prog β α
  | some a => .ret a
  | none => .undefined

/-- `m[i]` -/
def get (i : ℤ) : Prog β β := .read i .ret

/-- `std::swap(m[i], m[j])` -/
def swap (i j : ℤ) : Prog β PUnit :=
  .read i fun x ↦ .read j fun y ↦ .write i y <| .write j x <| .ret ⟨⟩

/-- Run a program on a memory; an access outside the memory is the failure. -/
def exec : Prog β α → List β → Option (α × List β)
  | .ret a, m => some (a, m)
  | .undefined, _ => none
  | .read i next, m => (Access.get m i).bind fun b ↦ (next b).exec m
  | .write i b next, m => (put m i b).bind next.exec

/-- The program with its accesses outside `lo, …, hi` undefined. -/
def within (lo hi : ℤ) : Prog β α → Prog β α
  | .ret a => .ret a
  | .undefined => .undefined
  | .read i next =>
    if lo ≤ i ∧ i ≤ hi then .read i fun b ↦ (next b).within lo hi else .undefined
  | .write i b next => if lo ≤ i ∧ i ≤ hi then .write i b (next.within lo hi) else .undefined

/-- Running a sequence is running the first program and then the second on what it left. -/
theorem exec_bind (p : Prog β α) (f : α → Prog β α') (m : List β) :
    (p >>= f).exec m = (p.exec m).bind fun (a, m') ↦ (f a).exec m' := by
  show (p.bind f).exec m = _
  induction p generalizing m with
  | ret a => rfl
  | undefined => rfl
  | read i next ih =>
    rw [bind, exec, exec, Option.bind_assoc]
    exact congrArg _ (funext fun b ↦ ih b m)
  | write i b next ih =>
    rw [bind, exec, exec, Option.bind_assoc]
    exact congrArg _ (funext fun m' ↦ ih m')

/-- Running a sequence, from what the first program does. -/
theorem exec_bind_of_exec {r : Option (α' × List β)} (h : p.exec m = some (a, m'))
    (hf : (f a).exec m' = r) : (p >>= f).exec m = r := by
  rw [exec_bind, h]
  exact hf

/-- Confining a sequence confines both programs. -/
theorem within_bind (lo hi : ℤ) (p : Prog β α) (f : α → Prog β α') :
    (p >>= f).within lo hi = p.within lo hi >>= fun a ↦ (f a).within lo hi := by
  show (p.bind f).within lo hi = (p.within lo hi).bind _
  induction p with
  | ret a => rfl
  | undefined => rfl
  | read i next ih =>
    rw [bind, within, within]
    split
    · exact congrArg _ (funext ih)
    · rfl
  | write i b next ih =>
    rw [bind, within, within]
    split
    · exact congrArg _ ih
    · rfl

/-- Confining twice to the same places is confining once. -/
theorem within_within (lo hi : ℤ) (p : Prog β α) :
    (p.within lo hi).within lo hi = p.within lo hi := by
  induction p with
  | ret a => rfl
  | undefined => rfl
  | read i next ih =>
    rw [within]
    split
    next hi =>
      rw [within, if_pos hi]
      exact congrArg _ (funext ih)
    next => rfl
  | write i b next ih =>
    rw [within]
    split
    next hi =>
      rw [within, if_pos hi]
      exact congrArg _ ih
    next => rfl

/-- What is done within a range is done. -/
theorem exec_of_exec_within (h : (p.within lo hi).exec m = some (a, m')) :
    p.exec m = some (a, m') := by
  induction p generalizing m with
  | ret a => exact h
  | undefined => cases h
  | read i next ih =>
    rw [within] at h
    split at h
    · obtain ⟨b, hb, h⟩ := Option.bind_eq_some_iff.1 h
      rw [exec, hb]
      exact ih b h
    · cases h
  | write i b next ih =>
    rw [within] at h
    split at h
    · obtain ⟨m₁, hm₁, h⟩ := Option.bind_eq_some_iff.1 h
      rw [exec, hm₁]
      exact ih h
    · cases h

/-- A program that succeeds in narrow places succeeds in wider ones, with the same result. -/
theorem exec_within_mono {lo' hi' : ℤ} (hlo : lo' ≤ lo) (hhi : hi ≤ hi')
    (h : (p.within lo hi).exec m = some (a, m')) : (p.within lo' hi').exec m = some (a, m') := by
  induction p generalizing m with
  | ret a => exact h
  | undefined => cases h
  | read i next ih =>
    rw [within] at h
    split at h
    next hi =>
      obtain ⟨b, hb, h⟩ := Option.bind_eq_some_iff.1 h
      rw [within, if_pos ⟨hlo.trans hi.1, hi.2.trans hhi⟩, exec, hb]
      exact ih b h
    next => cases h
  | write i b next ih =>
    rw [within] at h
    split at h
    next hi =>
      obtain ⟨m₁, hm₁, h⟩ := Option.bind_eq_some_iff.1 h
      rw [within, if_pos ⟨hlo.trans hi.1, hi.2.trans hhi⟩, exec, hm₁]
      exact ih h
    next => cases h

/-- A confined read inside its places is the read. -/
theorem exec_get (hlo : lo ≤ i) (hhi : i ≤ hi) (hb : Access.get m i = some b) :
    ((get i).within lo hi).exec m = some (b, m) := by
  rw [get, within, if_pos ⟨hlo, hhi⟩, exec, hb]
  rfl

/-- A confined swap inside its places is the swap. -/
theorem exec_swap (hilo : lo ≤ i) (hihi : i ≤ hi) (hjlo : lo ≤ j) (hjhi : j ≤ hi)
    (hx : Access.get m i = some x) (hy : Access.get m j = some y) :
    ((swap i j).within lo hi).exec m = some (⟨⟩, (m.set i.toNat y).set j.toNat x) := by
  obtain ⟨hj, hj'⟩ := get_bounds hy
  obtain ⟨z, hz⟩ := exists_get (m := m.set i.toNat y) hj (by rwa [List.length_set])
  simp only [swap, within, if_pos (And.intro hilo hihi), if_pos (And.intro hjlo hjhi), exec, hx,
    hy, Option.bind_some, put_eq hx, put_eq hz]

end Prog

end Access
