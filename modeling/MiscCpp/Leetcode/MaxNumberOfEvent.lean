import Mathlib.Algebra.Order.Ring.Int
import Mathlib.Data.List.Sort
import MiscCpp.Library.Counters
import MiscCpp.Library.IntervalChoice
import MiscCpp.Library.Machine
import MiscCpp.Library.StdAlgorithm
import MiscCpp.Library.TwoDimensional

/-!
# The maximum value of at most `k` events

`maxValue` of `leetcode/DP/maxNumberOfEvent.cc`, with exact sums, for any implementation of
`std::sort` that does what is documented.

Of the events ordered by their ends, the entry `dp[i][j]` has the greatest value of at most `j` of
the first `i` (`fillRow_spec`): the event `i - 1` is added to those that end before it starts, which
are the first ones (`lowerBound_eq`). The sizes of the table overflow if there are too many events,
or if `k` is the greatest `int` (`maxValue_iff`).
-/

open CInt Machine StdAlgorithm TwoDimensional

namespace MaxNumberOfEvent

/-! ### The program -/

/-- The vector `{startDay, endDay, value}` of an event. -/
structure Event where
  startDay : CInt
  endDay : CInt
  value : CInt
  start_nonneg : 0 ≤ startDay.1
  start_le_end : startDay ≤ endDay

/-- The order of the events, by their last days. -/
def comp (a b : Event) : Bool := a.endDay < b.endDay

/-- `std::lower_bound`, of a range that is partitioned as it is asked. -/
def lowerBound (range : List Event) (value : Event) : ℕ := range.findIdx fun a ↦ !comp a value

/-- The vector `{0, startDay, 0}`. -/
def bound (event : Event) : Event :=
  ⟨wrap 0, event.startDay, wrap 0, Int.le_refl 0, event.start_nonneg⟩

/-- `vector(count, b)`, an exception if the count is negative. -/
def vector {β : Type} (count : ℤ) (b : β) : Option (List β) :=
  if 0 ≤ count then some (List.replicate count.toNat b) else none

abbrev Table := List (List ℤ)

/-- The body of the inner loop. -/
def choose (event : Event) (p i : ℕ) (dp : Table) (j : ℕ) : Option Table := do
  let without ← get dp (i - 1) j
  let rest ← get dp p (j - 1)
  put dp i j (max without (rest + event.value.1))

/-- The body of the outer loop. -/
def fillRow (events : List Event) (k : CInt) (dp : Table) (i : ℕ) : Option Table := do
  let event ← Access.get events (i - 1)
  let p := lowerBound (events.take i) (bound event)
  exec (choose event p i) dp ((← counter (k.1 + 1).toNat).drop 1)

/-- The greatest total of at most `k` events, in a table over sorted events. -/
def maxValue (std : Implementation Event) (events : List Event) (k : CInt) : Option ℤ := do
  let n := (wrap events.length).1
  let row ← vector (← fit (k.1 + 1)) 0
  let dp : Table ← vector (← fit (n + 1)) row
  let events := std.sort comp events
  let dp ← exec (fillRow events k) dp ((← counter (n + 1).toNat).drop 1)
  get dp n k.1

/-- The events of `main`. -/
def nums : List Event :=
  [⟨wrap 1, wrap 2, wrap 4, by decide, by decide⟩, ⟨wrap 3, wrap 4, wrap 3, by decide, by decide⟩,
    ⟨wrap 2, wrap 3, wrap 10, by decide, by decide⟩]

/-- A sort that can be evaluated. -/
def insertionSort : Implementation Event :=
  { documented Event with sort := fun lt ↦ List.insertionSort fun a b ↦ lt b a = false }

example : maxValue insertionSort nums (wrap 2) = some 10 := by decide +kernel

/-! ### Events as intervals -/

/-- The days of an event, the last one included, and its value. -/
def intervals : Intervals Event CInt ℤ where
  start := Event.startDay
  finish := Event.endDay
  value event := event.value.1
  start_le_finish := Event.start_le_end

variable {events : List Event} {event : Event} {k : CInt} {std : Implementation Event}
  {dp : Table} {i j m n p : ℕ} {x v : ℤ}

theorem strictWeakOrder_comp : StrictWeakOrder comp where
  irrefl a h := lt_irrefl a.endDay (of_decide_eq_true h)
  trans _ _ _ hab hbc := decide_eq_true ((of_decide_eq_true hab).trans (of_decide_eq_true hbc))
  incomp_trans a b c hab hbc := by
    simp only [comp, decide_eq_true_iff, not_lt] at *
    exact ⟨hbc.1.trans hab.1, hab.2.trans hbc.2⟩

theorem sortedBy_iff : SortedBy comp events ↔ intervals.Ordered events := by
  have hcomp (a b : Event) : comp b a = false ↔ intervals.finish a ≤ intervals.finish b := by
    rw [comp, decide_eq_false_iff_not, not_lt]
    exact Iff.rfl
  exact ⟨fun h ↦ h.imp (hcomp _ _).1, fun h ↦ h.imp (hcomp _ _).2⟩

/-- The events that end before one of them starts are the first ones. -/
theorem lowerBound_eq (h : intervals.Ordered events) (hm : m < events.length) :
    ∃ p ≤ m, lowerBound (events.take (m + 1)) (bound events[m]) = p ∧
      ((events.take m).filter fun a ↦ intervals.finish a < intervals.start events[m]) =
        events.take p := by
  have hfilter : ((events.take m).filter fun a ↦ intervals.finish a < intervals.start events[m]) =
      (events.take m).take ((events.take m).findIdx fun a ↦ !comp a (bound events[m])) :=
    Intervals.Ordered.filter_eq_take (h.sublist (List.take_sublist m events)) events[m].startDay
  -- The event is in the range that is searched, but it does not end before it starts.
  have hlast : (!comp events[m] (bound events[m])) = true := by
    rw [Bool.not_eq_true', comp, decide_eq_false_iff_not, not_lt]
    exact events[m].start_le_end
  have hlen : (events.take m).length = m := List.length_take_of_le hm.le
  have hle : ((events.take m).findIdx fun a ↦ !comp a (bound events[m])) ≤
    (events.take m).length := List.findIdx_le_length
  refine ⟨(events.take m).findIdx fun a ↦ !comp a (bound events[m]), hle.trans hlen.le, ?_, ?_⟩
  · rw [lowerBound, List.take_succ_eq_append_getElem hm, List.findIdx_append,
      List.findIdx_singleton, if_pos hlast]
    split <;> omega
  · rwa [List.take_take, Nat.min_eq_left (hle.trans hlen.le)] at hfilter

/-! ### The table -/

/-- The entry is the greatest value of at most `j` of the first `i` events. -/
def Right (events : List Event) (i j : ℕ) (x : ℤ) : Prop :=
  IsGreatest (intervals.totals j (events.take i)) x

/-- No events, or none of them chosen. -/
theorem right_zero (h : i = 0 ∨ j = 0) : Right events i j 0 := by
  refine ⟨Intervals.zero_mem_totals _ _, fun v hv ↦ ?_⟩
  rcases h with rfl | rfl
  · exact (Intervals.mem_totals_nil_iff.1 hv).le
  · exact (Intervals.mem_totals_zero_iff.1 hv).le

/-- **One entry**, from two of earlier rows. -/
theorem choose_spec (h : intervals.Ordered events) (hm : m < events.length) (hmn : m < n)
    (hp : p ≤ m) (hfilter : ((events.take m).filter fun a ↦
      intervals.finish a < intervals.start events[m]) = events.take p) {l : ℕ} (hj : j < l)
    (hdp : Filled (Right events) n l (fun a b ↦ a ≤ m ∨ b = 0 ∨ a = m + 1 ∧ b < j + 1) dp) :
    ∃ dp', choose events[m] p (m + 1) dp (j + 1) = some dp' ∧
      Filled (Right events) n l (fun a b ↦ a ≤ m ∨ b = 0 ∨ a = m + 1 ∧ b < j + 2) dp' := by
  obtain ⟨x, hx, hxval⟩ := hdp.exists_get (show m ≤ n by omega) (show j + 1 ≤ l by omega)
    (Or.inl le_rfl)
  obtain ⟨y, hy, hyval⟩ := hdp.exists_get (show p ≤ n by omega) hj.le (Or.inl hp)
  have hlast (a : Event) (ha : a ∈ events.take m) :
      intervals.finish a ≤ intervals.finish events[m] := by
    obtain ⟨q, hq, rfl⟩ := List.mem_take_iff_getElem.1 ha
    exact List.pairwise_iff_getElem.1 h q m _ hm (by omega)
  have hright : Right events (m + 1) (j + 1) (max x (y + events[m].value.1)) := by
    rw [Right, List.take_succ_eq_append_getElem hm]
    refine Intervals.isGreatest_concat hlast hxval ?_
    rw [hfilter]
    exact hyval
  obtain ⟨dp', hput, hdp'⟩ : ∃ dp', put dp (m + 1 : ℕ) (j + 1 : ℕ) _ = some dp' ∧
      Filled (Right events) n l (fun a b ↦ a ≤ m ∨ b = 0 ∨ a = m + 1 ∧ b < j + 2) dp' :=
    hdp.put (by omega) (by omega) hright fun a b hd hne ↦ by omega
  refine ⟨dp', ?_, hdp'⟩
  rw [choose, show ((m + 1 : ℕ) : ℤ) - 1 = m by omega, show ((j + 1 : ℕ) : ℤ) - 1 = j by omega, hx,
    hy]
  exact hput

/-- **The body of the outer loop** fills a row. -/
theorem fillRow_spec (h : intervals.Ordered events) (hm : m < events.length) (hmn : m < n)
    {l : ℕ} (hk : k.1 = l) (hl : l < 2 ^ 31 - 1)
    (hdp : Filled (Right events) n l (fun a b ↦ a < m + 1 ∨ b = 0) dp) :
    ∃ dp', fillRow events k dp (m + 1) = some dp' ∧
      Filled (Right events) n l (fun a b ↦ a < m + 1 + 1 ∨ b = 0) dp' := by
  obtain ⟨p, hp, hbound, hfilter⟩ := lowerBound_eq h hm
  have hcount : counter (k.1 + 1).toNat = some (List.range (l + 1)) := by
    rw [hk, counter, if_pos (by omega)]
    rfl
  have hstep (j : ℕ) (s : Table) (hj : 1 ≤ j) (hjl : j < l + 1)
      (hs : Filled (Right events) n l (fun a b ↦ a ≤ m ∨ b = 0 ∨ a = m + 1 ∧ b < j) s) :
      ∃ t, choose events[m] p (m + 1) s j = some t ∧ Filled (Right events) n l
        (fun a b ↦ a ≤ m ∨ b = 0 ∨ a = m + 1 ∧ b < j + 1) t := by
    obtain ⟨j, rfl⟩ := Nat.exists_eq_add_of_le' hj
    exact choose_spec h hm hmn hp hfilter (Nat.lt_of_succ_lt_succ hjl) hs
  obtain ⟨dp', hexec, hdp'⟩ := exists_exec_drop_range (I := fun j ↦ Filled (Right events) n
    l fun a b ↦ a ≤ m ∨ b = 0 ∨ a = m + 1 ∧ b < j) (Nat.le_add_left 1 _) hstep
    (hdp.mono fun a b _ _ hd ↦ by omega)
  refine ⟨dp', ?_, hdp'.mono fun a b _ hb hd ↦ by omega⟩
  rw [fillRow, show ((m + 1 : ℕ) : ℤ) - 1 = m by omega, Access.get_natCast,
    List.getElem?_eq_getElem hm, Option.bind_eq_bind, Option.bind_some]
  dsimp only
  rw [hbound, hcount]
  exact hexec

/-! ### The function -/

/-- The size, converted to `int`. -/
def size (events : List Event) : ℤ := (wrap events.length).1

theorem vector_eq {β : Type} {c : ℤ} (hc : 0 ≤ c) (b : β) :
    vector c b = some (List.replicate c.toNat b) := if_pos hc

/-- **The first events** of those ordered by their ends count. -/
theorem maxValue_eq (hstd : Lawful std) (hk : 0 ≤ k.1) (hkmax : k.1 < INT_MAX.1)
    (hn : 0 ≤ size events) (hnmax : size events < INT_MAX.1) :
    ∃ v, maxValue std events k = some v ∧ IsGreatest
      (intervals.totals k.1.toNat ((std.sort comp events).take (size events).toNat)) v := by
  have hmax : INT_MAX.1 = 2 ^ 31 - 1 := rfl
  have hsorted := sortedBy_iff.1 (hstd.sorted comp strictWeakOrder_comp events)
  have hlen := (hstd.perm comp strictWeakOrder_comp events).length_eq
  have hwrap : size events ≤ events.length := wrap_le (Int.natCast_nonneg _)
  obtain ⟨n, hsize⟩ : ∃ n : ℕ, size events = n := ⟨_, (Int.toNat_of_nonneg hn).symm⟩
  obtain ⟨l, hl⟩ : ∃ l : ℕ, k.1 = l := ⟨_, (Int.toNat_of_nonneg hk).symm⟩
  rw [hsize] at hnmax hwrap ⊢
  have hstart : Filled (Right (std.sort comp events)) n l (fun a b ↦ a < 1 ∨ b = 0)
      (List.replicate (n + 1) (List.replicate (l + 1) 0)) :=
    fun i j hi hj ↦ ⟨0, get_replicate (by omega) (by omega) 0, fun h ↦ right_zero (by omega)⟩
  have hstep (i : ℕ) (s : Table) (hi : 1 ≤ i) (hin : i < n + 1)
      (hs : Filled (Right (std.sort comp events)) n l (fun a b ↦ a < i ∨ b = 0) s) :
      ∃ t, fillRow (std.sort comp events) k s i = some t ∧
        Filled (Right (std.sort comp events)) n l (fun a b ↦ a < i + 1 ∨ b = 0) t := by
    obtain ⟨m, rfl⟩ := Nat.exists_eq_add_of_le' hi
    have hm : m < (std.sort comp events).length := by omega
    refine fillRow_spec hsorted hm (Nat.lt_of_succ_lt_succ hin) hl (by omega) hs
  obtain ⟨dp, hexec, hdp⟩ := exists_exec_drop_range (I := fun i ↦ Filled
    (Right (std.sort comp events)) n l fun a b ↦ a < i ∨ b = 0) (Nat.le_add_left 1 n) hstep hstart
  obtain ⟨v, hv, hright⟩ := hdp.exists_get le_rfl le_rfl (Or.inl (Nat.lt_succ_self n))
  refine ⟨v, ?_, ?_⟩
  · have hrows : fit ((n : ℤ) + 1) = some ((n : ℤ) + 1) := fit_eq (by omega)
    have hcolumns : fit (k.1 + 1) = some (k.1 + 1) := fit_eq (by omega)
    have hcount : counter ((n : ℤ) + 1).toNat = some (List.range (n + 1)) := by
      rw [counter, if_pos (by omega)]
      rfl
    rw [size] at hsize
    rw [maxValue, hcolumns, hsize, hrows, Option.bind_eq_bind, Option.bind_some,
      vector_eq (by omega), Option.bind_eq_bind, Option.bind_some, Option.bind_eq_bind,
      Option.bind_some, vector_eq (by omega), Option.bind_eq_bind, Option.bind_some, hcount]
    dsimp only
    rw [Option.bind_some, show ((n : ℤ) + 1).toNat = n + 1 from rfl,
      show (k.1 + 1).toNat = l + 1 by omega, hexec, Option.bind_some, hl]
    exact hv
  · rwa [hl, Int.toNat_natCast, Int.toNat_natCast]

/-- **The sizes of the table** have to be positive values of an `int`. -/
theorem bounds_of_maxValue_eq_some (h : maxValue std events k = some v) :
    k.1 < INT_MAX.1 ∧ 0 ≤ size events ∧ size events < INT_MAX.1 := by
  have hmax : INT_MAX.1 = 2 ^ 31 - 1 := rfl
  obtain ⟨columns, hcolumns, h⟩ := Option.bind_eq_some_iff.1 h
  obtain ⟨row, -, h⟩ := Option.bind_eq_some_iff.1 h
  obtain ⟨rows, hrows, h⟩ := Option.bind_eq_some_iff.1 h
  obtain ⟨start, -, h⟩ := Option.bind_eq_some_iff.1 h
  obtain ⟨is, -, h⟩ := Option.bind_eq_some_iff.1 h
  obtain ⟨dp, -, h⟩ := Option.bind_eq_some_iff.1 h
  have hk := (fit_eq_some hcolumns).2.2
  have hn := (fit_eq_some hrows).2.2
  rw [TwoDimensional.get] at h
  split at h
  next hpos => exact ⟨by omega, hpos.1, Int.lt_sub_right_of_add_lt hn⟩
  next => cases h

/-- The greatest value of at most `k` events of which no two share a day is returned, however
`std::sort` is implemented. -/
def ReturnsBest (events : List Event) (k : CInt) : Prop :=
  ∃ v, IsGreatest (intervals.totals k.1.toNat events) v ∧
    ∀ std, Lawful std → maxValue std events k = some v

/-- So it is if both are less than the greatest `int`. -/
theorem returnsBest_of_lt (hk : 0 ≤ k.1) (hkmax : k.1 < INT_MAX.1)
    (hlt : events.length < 2 ^ 31 - 1) : ReturnsBest events k := by
  have hmax : INT_MAX.1 = 2 ^ 31 - 1 := rfl
  have hsize : size events = events.length := wrap_of_lt (Int.natCast_nonneg _) (by omega)
  have hbest (std : Implementation Event) (hstd : Lawful std) :
      ∃ v, maxValue std events k = some v ∧ IsGreatest (intervals.totals k.1.toNat events) v := by
    have hperm := hstd.perm comp strictWeakOrder_comp events
    obtain ⟨v, hv, hgreatest⟩ := maxValue_eq hstd hk hkmax (show 0 ≤ size events by omega)
      (by omega)
    rw [hsize, Int.toNat_natCast, List.take_of_length_le hperm.length_eq.le,
      Intervals.totals_perm hperm] at hgreatest
    exact ⟨v, hv, hgreatest⟩
  obtain ⟨v, -, hv⟩ := hbest _ (lawful_documented Event)
  refine ⟨v, hv, fun std hstd ↦ ?_⟩
  obtain ⟨u, hu, hgreatest⟩ := hbest std hstd
  rw [hu, hgreatest.unique hv]

/-- In this order, the first `n` events have the same greatest value as all events. -/
def Suffice (events : List Event) (k : CInt) (n : ℕ) : Prop :=
  ∃ v, IsGreatest (intervals.totals k.1.toNat (events.take n)) v ∧
    IsGreatest (intervals.totals k.1.toNat events) v

/-- **The greatest value** is returned exactly if `k` and the size `n`, converted to `int`, are less
than the greatest `int`, `n` is not negative, and the first `n` events suffice in every order by
their ends. -/
theorem maxValue_iff (events : List Event) (k : CInt) (hk : 0 ≤ k.1) :
    ReturnsBest events k ↔ k.1 < INT_MAX.1 ∧ 0 ≤ size events ∧ size events < INT_MAX.1 ∧
      ∀ sorted, sorted.Perm events → SortedBy comp sorted →
        Suffice sorted k (size events).toNat := by
  have hlawful := lawful_documented Event
  constructor
  · rintro ⟨v, hv, hreturn⟩
    obtain ⟨hkmax, hn, hnmax⟩ := bounds_of_maxValue_eq_some (hreturn _ hlawful)
    refine ⟨hkmax, hn, hnmax, fun sorted hperm hsorted ↦ ?_⟩
    -- Some implementation sorts into this order.
    obtain ⟨std, hstd, hsort⟩ := exists_sort hperm hsorted
    obtain ⟨u, hu, hgreatest⟩ := maxValue_eq hstd hk hkmax hn hnmax
    rw [hreturn std hstd] at hu
    rw [hsort, ← Option.some.inj hu] at hgreatest
    have hsame : intervals.totals k.1.toNat sorted = intervals.totals k.1.toNat events :=
      Intervals.totals_perm hperm
    rw [← hsame] at hv
    exact ⟨v, hgreatest, hv⟩
  · rintro ⟨hkmax, hn, hnmax, hsuffice⟩
    have hbest (std : Implementation Event) (hstd : Lawful std) :
        ∃ v, maxValue std events k = some v ∧
          IsGreatest (intervals.totals k.1.toNat events) v := by
      have hperm := hstd.perm comp strictWeakOrder_comp events
      obtain ⟨u, hu, hgreatest⟩ := maxValue_eq hstd hk hkmax hn hnmax
      obtain ⟨v, hv, hall⟩ := hsuffice _ hperm (hstd.sorted comp strictWeakOrder_comp events)
      rw [hgreatest.unique hv] at hu
      rw [Intervals.totals_perm hperm] at hall
      exact ⟨v, hu, hall⟩
    obtain ⟨v, -, hv⟩ := hbest _ hlawful
    refine ⟨v, hv, fun std hstd ↦ ?_⟩
    obtain ⟨u, hu, hgreatest⟩ := hbest std hstd
    rw [hu, hgreatest.unique hv]

/-- The events of `main`. -/
theorem maxValue_iff_main : ReturnsBest nums (wrap 2) ↔ (wrap 2).1 < INT_MAX.1 ∧
    0 ≤ size nums ∧ size nums < INT_MAX.1 ∧ ∀ sorted, sorted.Perm nums → SortedBy comp sorted →
      Suffice sorted (wrap 2) (size nums).toNat :=
  maxValue_iff nums (wrap 2) (by decide)

/-- One event, and no bound on the number of events. -/
theorem not_forall_returnsBest :
    ¬ ∀ (events : List Event) (k : CInt), 0 ≤ k.1 → ReturnsBest events k := by
  intro h
  obtain ⟨v, -, hreturn⟩ := h [⟨wrap 1, wrap 2, wrap 4, by decide, by decide⟩] INT_MAX (by decide)
  exact lt_irrefl _ (bounds_of_maxValue_eq_some (hreturn _ (lawful_documented Event))).1

end MaxNumberOfEvent
