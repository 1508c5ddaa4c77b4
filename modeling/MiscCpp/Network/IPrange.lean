import Mathlib.Order.Fin.Basic
import MiscCpp.Library.Access
import MiscCpp.Library.CInt

/-!
# Looking up the range of an IP address

`findIpValue` of `network/IPrange.cc`. A range with the address in it is the last one that starts
at the address or in front of it (`Table.le_of_contains`). This is where `std::lower_bound` stops,
if a range starts at the address, else the one in front (`exists_candidate`).
-/

open Access CInt

/-- The values of a `uint32_t`. -/
abbrev CUInt := Fin (2 ^ 32)

structure IPrange where
  startIp : CUInt
  endIp : CUInt
  value : CInt

namespace IPrange

/-! ### The program -/

/-- `operator<` -/
def less (lhs rhs : IPrange) : Bool := lhs.startIp < rhs.startIp

/-- `std::lower_bound`, of a range that is partitioned as it is asked. -/
def lowerBound (ranges : List IPrange) (needle : IPrange) : ℕ :=
  ranges.findIdx fun range ↦ !less range needle

/-- Iterators are indices, and `*it` is undefined outside the vector. -/
def findIpValue (ranges : List IPrange) (ip : CUInt) : Option CInt :=
  if ranges.isEmpty then some (wrap (-1))
  else do
    let it := lowerBound ranges ⟨ip, 0, wrap 0⟩
    let it : ℤ ←
      if it = ranges.length then some (it - 1)
      else if it = 0 then some it
      else do
        if ip < (← get ranges it).startIp then some (it - 1) else some it
    let range ← get ranges it
    if range.startIp ≤ ip ∧ ip ≤ range.endIp then some range.value else some (wrap (-1))

/-- The ranges of `main`. -/
def ranges : List IPrange :=
  [⟨123, 234, wrap 999⟩, ⟨1000, 2000, wrap 7777⟩, ⟨3221225472, 4294967295, wrap 5555⟩]

example : findIpValue ranges 122 = some (wrap (-1)) := by decide +kernel

example : findIpValue ranges 4294967295 = some (wrap 5555) := by decide +kernel

/-! ### Tables of ranges -/

/-- The address is in the range. -/
def Contains (range : IPrange) (ip : CUInt) : Prop := range.startIp ≤ ip ∧ ip ≤ range.endIp

instance (range : IPrange) (ip : CUInt) : Decidable (range.Contains ip) :=
  inferInstanceAs (Decidable (_ ∧ _))

/-- Ranges that are sorted and have no address in common. -/
structure Table where
  ranges : List IPrange
  sorted : ranges.Pairwise fun a b ↦ a.startIp ≤ b.startIp
  start_le_end : ∀ range ∈ ranges, range.startIp ≤ range.endIp
  disjoint : ranges.Pairwise fun a b ↦ ∀ ip, ¬ (a.Contains ip ∧ b.Contains ip)

namespace Table

variable {t : Table} {ip : CUInt} {i j : ℕ}

theorem start_le_start (hi : i < t.ranges.length) (hj : j < t.ranges.length) (hij : i ≤ j) :
    t.ranges[i].startIp ≤ t.ranges[j].startIp := by
  rcases hij.lt_or_eq with hlt | rfl
  · exact List.pairwise_iff_getElem.1 t.sorted i j hi hj hlt
  · exact le_rfl

theorem contains_start (hi : i < t.ranges.length) :
    t.ranges[i].Contains t.ranges[i].startIp :=
  ⟨le_rfl, t.start_le_end _ (List.getElem_mem hi)⟩

theorem eq_of_contains (hi : i < t.ranges.length) (hj : j < t.ranges.length)
    (hci : t.ranges[i].Contains ip) (hcj : t.ranges[j].Contains ip) : i = j := by
  have hdisjoint := List.pairwise_iff_getElem.1 t.disjoint
  rcases lt_trichotomy i j with hlt | heq | hlt
  · exact absurd ⟨hci, hcj⟩ (hdisjoint i j hi hj hlt ip)
  · exact heq
  · exact absurd ⟨hcj, hci⟩ (hdisjoint j i hj hi hlt ip)

/-- **A range with the address** is the last one that does not start behind it. -/
theorem le_of_contains (hi : i < t.ranges.length) (hj : j < t.ranges.length)
    (hci : t.ranges[i].Contains ip) (hle : t.ranges[j].startIp ≤ ip) : j ≤ i := by
  by_contra hlt
  have hci' : t.ranges[i].Contains t.ranges[j].startIp :=
    ⟨start_le_start hi hj (not_le.1 hlt).le, hle.trans hci.2⟩
  exact absurd (eq_of_contains hi hj hci' (contains_start hj)) (by omega)

/-- In front of the bound are the ranges that start in front of the address. -/
theorem lowerBound_spec (t : Table) (ip : CUInt) : ∃ k ≤ t.ranges.length,
    lowerBound t.ranges ⟨ip, 0, wrap 0⟩ = k ∧
      (∀ i (hi : i < t.ranges.length), i < k → t.ranges[i].startIp < ip) ∧
      ∀ i (hi : i < t.ranges.length), k ≤ i → ip ≤ t.ranges[i].startIp := by
  refine ⟨_, List.findIdx_le_length, rfl, fun i hi hlt ↦ ?_, fun i hi hle ↦ ?_⟩
  · have hless := List.not_of_lt_findIdx hlt
    rwa [Bool.not_eq_false', less, decide_eq_true_iff] at hless
  · have hk := hle.trans_lt hi
    have hless := List.findIdx_getElem (w := hk)
    rw [Bool.not_eq_true', less, decide_eq_false_iff_not, not_lt] at hless
    exact hless.trans (start_le_start hk hi hle)

/-- **One range** is looked at, and no other one has the address. -/
theorem exists_candidate (t : Table) (ip : CUInt) (hne : t.ranges ≠ []) :
    ∃ i, ∃ hi : i < t.ranges.length,
      (findIpValue t.ranges ip =
        if t.ranges[i].startIp ≤ ip ∧ ip ≤ t.ranges[i].endIp then some t.ranges[i].value
        else some (wrap (-1))) ∧
      ∀ j (hj : j < t.ranges.length), t.ranges[j].Contains ip → j = i := by
  have hpos := List.length_pos_of_ne_nil hne
  obtain ⟨k, hk, hbound, hbefore, hbehind⟩ := lowerBound_spec t ip
  have hpred (h : k ≠ 0) : (k : ℤ) - 1 = (k - 1 : ℕ) := by omega
  have hget (i : ℕ) (hi : i < t.ranges.length) : get t.ranges i = some t.ranges[i] := by
    rw [get_natCast, List.getElem?_eq_getElem hi]
  simp only [findIpValue, hbound, List.isEmpty_iff, if_neg hne, Option.bind_eq_bind]
  rcases hk.eq_or_lt with rfl | hlt
  · -- All ranges start in front of the address.
    have hlast : t.ranges.length - 1 < t.ranges.length := by omega
    refine ⟨t.ranges.length - 1, hlast, ?_, fun j hj hcj ↦ ?_⟩
    · rw [if_pos rfl, Option.bind_some, hpred hpos.ne', hget _ hlast, Option.bind_some]
    · have hle := le_of_contains hj hlast hcj (hbefore _ hlast hlast).le
      omega
  rw [if_neg hlt.ne]
  rcases eq_or_ne k 0 with rfl | hne'
  · -- None does; the first one may start at it.
    refine ⟨0, hlt, ?_, fun j hj hcj ↦ ?_⟩
    · rw [if_pos rfl, Option.bind_some, hget 0 hlt, Option.bind_some]
    · have hle := hbehind 0 hlt le_rfl
      have hc₀ : t.ranges[0].Contains ip :=
        ⟨(start_le_start hlt hj (Nat.zero_le j)).trans hcj.1, hle.trans (contains_start hlt).2⟩
      exact eq_of_contains hj hlt hcj hc₀
  rw [if_neg hne', hget k hlt, Option.bind_some]
  by_cases hstart : ip < t.ranges[k].startIp
  · -- The address is in front of the range, but not in front of the one before.
    have hlt' : k - 1 < t.ranges.length := by omega
    refine ⟨k - 1, hlt', ?_, fun j hj hcj ↦ ?_⟩
    · rw [if_pos hstart, Option.bind_some, hpred hne', hget _ hlt', Option.bind_some]
    · have hle := le_of_contains hj hlt' hcj (hbefore _ hlt' (by omega)).le
      have hjk : j < k := by
        by_contra hkj
        exact absurd (hstart.trans_le (start_le_start hlt hj (not_lt.1 hkj))) (not_lt.2 hcj.1)
      omega
  · -- The range starts at the address.
    have hck : t.ranges[k].Contains ip :=
      ⟨not_lt.1 hstart, (hbehind k hlt le_rfl).trans (contains_start hlt).2⟩
    refine ⟨k, hlt, ?_, fun j hj hcj ↦ eq_of_contains hj hlt hcj hck⟩
    rw [if_neg hstart, Option.bind_some, hget k hlt, Option.bind_some]

end Table

/-- **`findIpValue`** returns the value of the range with the address, and -1 if there is none. -/
theorem findIpValue_spec (t : Table) (ip : CUInt) :
    (∀ range ∈ t.ranges, range.Contains ip → findIpValue t.ranges ip = some range.value) ∧
      ((∀ range ∈ t.ranges, ¬ range.Contains ip) →
        findIpValue t.ranges ip = some (wrap (-1))) := by
  rcases eq_or_ne t.ranges [] with hnil | hne
  · rw [hnil]
    exact ⟨fun range hmem ↦ absurd hmem List.not_mem_nil, fun _ ↦ rfl⟩
  · obtain ⟨i, hi, hfind, hunique⟩ := Table.exists_candidate t ip hne
    rw [hfind]
    refine ⟨fun range hmem hc ↦ ?_, fun hnot ↦ if_neg (hnot _ (List.getElem_mem hi))⟩
    obtain ⟨j, hj, rfl⟩ := List.mem_iff_getElem.1 hmem
    obtain rfl := hunique j hj hc
    exact if_pos hc

/-- The table of `main`. -/
def mainTable : Table where
  ranges := ranges
  sorted := by decide
  start_le_end := by decide
  disjoint := by
    have hapart : ranges.Pairwise fun a b ↦ a.endIp < b.startIp := by decide
    exact hapart.imp fun hlt ip ⟨ha, hb⟩ ↦ absurd (hb.1.trans ha.2) (not_le.2 hlt)

/-- An address in the second range, and one behind it. -/
theorem findIpValue_spec_main : findIpValue mainTable.ranges 1500 = some (wrap 7777) ∧
    findIpValue mainTable.ranges 2001 = some (wrap (-1)) :=
  ⟨(findIpValue_spec mainTable 1500).1 ⟨1000, 2000, wrap 7777⟩
      (List.mem_cons_of_mem _ List.mem_cons_self) ⟨by decide, by decide⟩,
    (findIpValue_spec mainTable 2001).2 (by decide)⟩

end IPrange
