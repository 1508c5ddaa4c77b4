import Mathlib.Data.Finset.Image
import Mathlib.Data.Finset.Max
import Mathlib.Data.Int.Order.Basic
import Mathlib.Data.Prod.Lex
import Mathlib.Order.Lattice.Nat
import MiscCpp.Library.FloodFill

/-!
# Islands

Finite sets of cells of the plane, as land: their islands are the classes of the cells that are
connected by steps to a cell beside.

Two removals are always enough for the land not to have exactly one island (`exists_two`). The first
cell of the land in reading order has at most two cells beside it, and without these it is an island
of its own; if nothing else is left, there have been three cells at most.
-/

open FloodFill

namespace Islands

/-- The column and the row. -/
abbrev Cell := ℤ × ℤ

/-- The four cells beside a cell. -/
def beside (c : Cell) : List Cell :=
  [(c.1, c.2 + 1), (c.1 + 1, c.2), (c.1, c.2 - 1), (c.1 - 1, c.2)]

variable {land : Finset Cell} {a b c : Cell}

/-- Beside a cell are the ones a step up, down, left or right. -/
theorem mem_beside : b ∈ beside a ↔
    b.1 = a.1 ∧ (b.2 = a.2 + 1 ∨ b.2 = a.2 - 1) ∨ b.2 = a.2 ∧ (b.1 = a.1 + 1 ∨ b.1 = a.1 - 1) := by
  simp only [beside, List.mem_cons, List.not_mem_nil, or_false, Prod.ext_iff]
  tauto

theorem beside_symm (a b : Cell) (h : b ∈ beside a) : a ∈ beside b := by
  rw [mem_beside] at h ⊢
  omega

/-- `b` can be reached from `a` on land. -/
abbrev Connected (land : Finset Cell) : Cell → Cell → Prop := Reaches beside land

open Classical in
/-- The island of `a`. -/
noncomputable def island (land : Finset Cell) (a : Cell) : Finset Cell :=
  land.filter (Connected land a)

open Classical in
/-- The islands of the land, as sets of cells. -/
noncomputable def islands (land : Finset Cell) : Finset (Finset Cell) := land.image (island land)

/-- The land does not have exactly one island. -/
def Disconnected (land : Finset Cell) : Prop := (islands land).card ≠ 1

open Classical in
theorem mem_island : b ∈ island land a ↔ b ∈ land ∧ Connected land a b :=
  Finset.mem_filter

/-- Connected cells have the same island. -/
theorem island_eq (ha : a ∈ land) (h : Connected land a b) : island land b = island land a := by
  ext c
  rw [mem_island, mem_island]
  exact and_congr_right fun _ ↦ ⟨h.trans, (h.symm beside_symm ha).trans⟩

/-- **One island**: all land can be reached from some cell of it. -/
theorem not_disconnected_iff :
    ¬ Disconnected land ↔ ∃ a ∈ land, ∀ b ∈ land, Connected land a b := by
  classical
  rw [Disconnected, not_not, Finset.card_eq_one]
  constructor
  · rintro ⟨s, hs⟩
    obtain ⟨a, ha, has⟩ := Finset.mem_image.1 (hs.symm ▸ Finset.mem_singleton_self s)
    refine ⟨a, ha, fun b hb ↦ ?_⟩
    have hbs : island land b ∈ islands land := Finset.mem_image_of_mem _ hb
    rw [hs, Finset.mem_singleton] at hbs
    have hmem : b ∈ island land b := mem_island.2 ⟨hb, .refl⟩
    rw [hbs, ← has] at hmem
    exact (mem_island.1 hmem).2
  · rintro ⟨a, ha, hall⟩
    refine ⟨island land a, Finset.eq_singleton_iff_unique_mem.2
      ⟨Finset.mem_image_of_mem _ ha, fun s hs ↦ ?_⟩⟩
    obtain ⟨b, hb, rfl⟩ := Finset.mem_image.1 hs
    exact island_eq ha (hall b hb)

theorem disconnected_empty : Disconnected ∅ := by
  by_contra h
  obtain ⟨a, ha, -⟩ := not_disconnected_iff.1 h
  exact Finset.notMem_empty a ha

/-- Two cells that are not connected are on two islands. -/
theorem disconnected_of_not_connected (ha : a ∈ land) (hb : b ∈ land) (h : ¬ Connected land a b) :
    Disconnected land := by
  by_contra hone
  obtain ⟨c, hc, hall⟩ := not_disconnected_iff.1 hone
  exact h (((hall a ha).symm beside_symm hc).trans (hall b hb))

/-- A cell with only water beside it, and another cell. -/
theorem disconnected_of_isolated (ha : a ∈ land) (hb : b ∈ land) (hne : a ≠ b)
    (halone : ∀ c ∈ beside a, c ∉ land) : Disconnected land := by
  refine disconnected_of_not_connected ha hb fun h ↦ ?_
  rcases h.cases_head with heq | ⟨c, hstep, -⟩
  · exact hne heq
  · exact halone c hstep.1 hstep.2

/-! ### Removals -/

/-- The numbers of cells whose removal leaves the land without exactly one island. -/
def removals (land : Finset Cell) : Set ℕ :=
  {k | ∃ removed ⊆ land, removed.card = k ∧ Disconnected (land \ removed)}

/-- The first cell in reading order. -/
theorem exists_first (h : land.Nonempty) :
    ∃ c ∈ land, (c.1, c.2 - 1) ∉ land ∧ (c.1 - 1, c.2) ∉ land := by
  obtain ⟨c, hc, hmin⟩ := Finset.exists_min_image land (fun c ↦ toLex (c.2, c.1)) h
  refine ⟨c, hc, fun hup ↦ ?_, fun hleft ↦ ?_⟩
  · have hle := Prod.Lex.toLex_le_toLex.1 (hmin _ hup)
    simp only at hle
    omega
  · have hle := Prod.Lex.toLex_le_toLex.1 (hmin _ hleft)
    simp only at hle
    omega

/-- The cells beside a cell that come after it in reading order. -/
def after (c : Cell) : Finset Cell := {(c.1 + 1, c.2), (c.1, c.2 + 1)}

theorem mem_after : a ∈ after c ↔ a = (c.1 + 1, c.2) ∨ a = (c.1, c.2 + 1) := by
  rw [after, Finset.mem_insert, Finset.mem_singleton]

theorem right_ne_down (c : Cell) : (c.1 + 1, c.2) ≠ (c.1, c.2 + 1) := fun h ↦ by
  have heq : c.1 + 1 = c.1 := congrArg Prod.fst h
  omega

theorem card_after (c : Cell) : (after c).card = 2 := Finset.card_pair (right_ne_down c)

theorem not_mem_after (c : Cell) : c ∉ after c := fun h ↦ by
  rcases mem_after.1 h with h | h
  · have heq : c.1 = c.1 + 1 := congrArg Prod.fst h
    omega
  · have heq : c.2 = c.2 + 1 := congrArg Prod.snd h
    omega

/-- The first cell and another one are left, and nothing beside the first one. -/
theorem disconnected_sdiff_after (hc : c ∈ land) (hup : (c.1, c.2 - 1) ∉ land)
    (hleft : (c.1 - 1, c.2) ∉ land) (ha : a ∈ land) (hafter : a ∉ after c) (hne : a ≠ c) :
    Disconnected (land \ after c) := by
  refine disconnected_of_isolated (Finset.mem_sdiff.2 ⟨hc, not_mem_after c⟩)
    (Finset.mem_sdiff.2 ⟨ha, hafter⟩) hne.symm fun b hb hmem ↦ ?_
  obtain ⟨hland, hnot⟩ := Finset.mem_sdiff.1 hmem
  simp only [beside, List.mem_cons, List.not_mem_nil, or_false] at hb
  rcases hb with rfl | rfl | rfl | rfl
  · exact hnot (mem_after.2 (.inr rfl))
  · exact hnot (mem_after.2 (.inl rfl))
  · exact hup hland
  · exact hleft hland

/-- Of three cells in a corner, the first one connects the other two. -/
theorem disconnected_sdiff_corner (hsub : land ⊆ insert c (after c)) (hall : after c ⊆ land) :
    Disconnected (land \ {c}) := by
  have hleft : ∀ a ∈ after c, a ∈ land \ {c} := fun a ha ↦ by
    refine Finset.mem_sdiff.2 ⟨hall ha, fun h ↦ not_mem_after c ?_⟩
    rwa [Finset.mem_singleton.1 h] at ha
  refine disconnected_of_isolated (hleft _ (mem_after.2 (.inl rfl)))
    (hleft _ (mem_after.2 (.inr rfl))) (right_ne_down c) fun b hb hmem ↦ ?_
  obtain ⟨hland, hne⟩ := Finset.mem_sdiff.1 hmem
  have hcorner := Finset.mem_insert.1 (hsub hland)
  rw [mem_after] at hcorner
  rw [Finset.mem_singleton] at hne
  have hbeside := mem_beside.1 hb
  simp only [Prod.ext_iff] at hcorner hne hbeside
  omega

/-- **Two removals are enough.** -/
theorem exists_two (land : Finset Cell) :
    ∃ removed ⊆ land, removed.card ≤ 2 ∧ Disconnected (land \ removed) := by
  have hempty : Disconnected (land \ land) := by
    rw [Finset.sdiff_self]
    exact disconnected_empty
  rcases land.eq_empty_or_nonempty with rfl | hland
  · exact ⟨∅, subset_rfl, Nat.zero_le 2, hempty⟩
  -- `c` has nothing above it and nothing to the left: two neighbours are left to it
  obtain ⟨c, hc, hup, hleft⟩ := exists_first hland
  by_cases hrest : ∃ a ∈ land, a ∉ after c ∧ a ≠ c
  · obtain ⟨a, ha, hafter, hne⟩ := hrest
    refine ⟨land ∩ after c, Finset.inter_subset_left,
      (Finset.card_le_card Finset.inter_subset_right).trans (card_after c).le, ?_⟩
    rw [Finset.sdiff_inter_self_left]
    exact disconnected_sdiff_after hc hup hleft ha hafter hne
  · have hsub : land ⊆ insert c (after c) := fun a ha ↦ by
      by_contra hnot
      rw [Finset.mem_insert, not_or] at hnot
      exact hrest ⟨a, ha, hnot.2, hnot.1⟩
    by_cases hall : after c ⊆ land
    · exact ⟨{c}, Finset.singleton_subset_iff.2 hc, by simp, disconnected_sdiff_corner hsub hall⟩
    · refine ⟨land, subset_rfl, ?_, hempty⟩
      have hlt : land.card < (insert c (after c)).card := Finset.card_lt_card
        ⟨hsub, fun h ↦ hall ((Finset.subset_insert c (after c)).trans h)⟩
      rw [Finset.card_insert_of_notMem (not_mem_after c), card_after] at hlt
      omega

/-- The least number of cells to remove. -/
noncomputable def need (land : Finset Cell) : ℕ := sInf (removals land)

/-- The number is reached by some removal, and no smaller one is. -/
theorem isLeast_need (land : Finset Cell) : IsLeast (removals land) (need land) := by
  obtain ⟨removed, hsub, -, hdisc⟩ := exists_two land
  exact ⟨Nat.sInf_mem ⟨removed.card, removed, hsub, rfl, hdisc⟩, fun _ ↦ Nat.sInf_le⟩

/-- At most two cells have to be removed. -/
theorem need_le_two (land : Finset Cell) : need land ≤ 2 := by
  obtain ⟨removed, hsub, hcard, hdisc⟩ := exists_two land
  exact ((isLeast_need land).2 ⟨removed, hsub, rfl, hdisc⟩).trans hcard

/-- No removal is needed exactly if the land is disconnected. -/
theorem zero_mem_removals : 0 ∈ removals land ↔ Disconnected land := by
  constructor
  · rintro ⟨removed, -, hcard, hdisc⟩
    rwa [Finset.card_eq_zero.1 hcard, Finset.sdiff_empty] at hdisc
  · exact fun h ↦ ⟨∅, Finset.empty_subset land, rfl, by rwa [Finset.sdiff_empty]⟩

/-- One removal is enough exactly if some cell is a cut. -/
theorem one_mem_removals : 1 ∈ removals land ↔ ∃ a ∈ land, Disconnected (land.erase a) := by
  constructor
  · rintro ⟨removed, hsub, hcard, hdisc⟩
    obtain ⟨a, rfl⟩ := Finset.card_eq_one.1 hcard
    rw [Finset.sdiff_singleton_eq_erase] at hdisc
    exact ⟨a, Finset.singleton_subset_iff.1 hsub, hdisc⟩
  · rintro ⟨a, ha, hdisc⟩
    rw [← Finset.sdiff_singleton_eq_erase] at hdisc
    exact ⟨{a}, Finset.singleton_subset_iff.2 ha, Finset.card_singleton a, hdisc⟩

theorem need_eq_zero (h : Disconnected land) : need land = 0 :=
  Nat.le_zero.1 ((isLeast_need land).2 (zero_mem_removals.2 h))

/-- Connected land with a cut cell needs one removal. -/
theorem need_eq_one (h : ¬ Disconnected land) (ha : a ∈ land)
    (hdisc : Disconnected (land.erase a)) : need land = 1 := by
  have hle : need land ≤ 1 := (isLeast_need land).2 (one_mem_removals.2 ⟨a, ha, hdisc⟩)
  have hne : need land ≠ 0 := fun heq ↦ h (zero_mem_removals.1 (heq ▸ (isLeast_need land).1))
  omega

/-- Connected land without a cut cell needs two removals. -/
theorem need_eq_two (h : ¬ Disconnected land)
    (hall : ∀ a ∈ land, ¬ Disconnected (land.erase a)) : need land = 2 := by
  have hle := need_le_two land
  have hzero : need land ≠ 0 := fun heq ↦ h (zero_mem_removals.1 (heq ▸ (isLeast_need land).1))
  have hone : need land ≠ 1 := fun heq ↦ by
    obtain ⟨a, ha, hdisc⟩ := one_mem_removals.1 (heq ▸ (isLeast_need land).1)
    exact hall a ha hdisc
  omega

/-! ### Counting the islands

The cells of the land are visited one after another, and a cell that has not been marked is filled
from. What is left to visit does not matter once a second island is found. -/

/-- What is marked and counted when the cells `rest` are left to visit, up to the first island. -/
inductive Counted (land : Finset Cell) (rest : List Cell) : Finset Cell → ℕ → Prop
  | none (h : ∀ c ∈ land, c ∈ rest) : Counted land rest ∅ 0
  | one {marked : Finset Cell} (a : Cell) (ha : a ∈ land)
      (hmarked : ∀ b, b ∈ marked ↔ Connected land a b) (h : ∀ c ∈ land, c ∈ marked ∨ c ∈ rest) :
      Counted land rest marked 1

variable {rest : List Cell} {marked : Finset Cell} {count : ℕ}

/-- Water and cells that are marked are passed over. -/
theorem Counted.skip (h : Counted land (c :: rest) marked count) (hc : c ∉ land ∨ c ∈ marked) :
    Counted land rest marked count := by
  cases h with
  | none h =>
    refine .none fun b hb ↦ ?_
    rcases List.mem_cons.1 (h b hb) with rfl | hrest
    · exact absurd hb (hc.resolve_right (Finset.notMem_empty b))
    · exact hrest
  | one a ha hmarked h =>
    refine .one a ha hmarked fun b hb ↦ ?_
    rcases h b hb with hb' | hb'
    · exact .inl hb'
    · rcases List.mem_cons.1 hb' with rfl | hrest
      · exact .inl (hc.resolve_left (not_not_intro hb))
      · exact .inr hrest

/-- **A cell to fill from**: the first island, or a second one. -/
theorem Counted.fill {marked' : Finset Cell} (h : Counted land (c :: rest) marked count)
    (hc : c ∈ land) (hnew : c ∉ marked) (F : Fills beside land [c] marked marked') :
    count = 0 ∧ Counted land rest marked' 1 ∨ count = 1 ∧ Disconnected land := by
  cases h with
  | none h =>
    refine .inl ⟨rfl, .one c hc (fun b ↦ F.mem_iff hc) fun b hb ↦ ?_⟩
    rcases List.mem_cons.1 (h b hb) with rfl | hrest
    · exact .inl (F.mem b (List.mem_singleton_self b) hc)
    · exact .inr hrest
  | one a ha hmarked h =>
    exact .inr ⟨rfl, disconnected_of_not_connected ha hc fun hcon ↦ hnew ((hmarked c).2 hcon)⟩

/-- When all cells are visited, the count is zero exactly if the land is disconnected. -/
theorem Counted.disconnected_iff (h : Counted land [] marked count) :
    count = 0 ↔ Disconnected land := by
  cases h with
  | none h =>
    have hempty : land = ∅ := Finset.eq_empty_of_forall_notMem fun c hc ↦
      absurd (h c hc) List.not_mem_nil
    exact iff_of_true rfl (hempty ▸ disconnected_empty)
  | one a ha hmarked h =>
    refine iff_of_false one_ne_zero (not_disconnected_iff.2 ⟨a, ha, fun b hb ↦ ?_⟩)
    exact (hmarked b).1 ((h b hb).resolve_right List.not_mem_nil)

end Islands
