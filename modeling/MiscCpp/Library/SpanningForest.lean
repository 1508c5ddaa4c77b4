import Mathlib.Algebra.BigOperators.Group.Multiset.Defs
import Mathlib.Algebra.Order.Monoid.Defs
import Mathlib.Order.Bounds.Basic
import MiscCpp.Library.Connectivity

/-!
# Spanning forests of minimum weight

A graph is a multiset `E` of edges, and `ends e` are the two end points of an edge. Parallel edges
and self-loops are allowed. A set of edges is acyclic if no edge of it joins points that the others
join already, and a spanning forest is a maximal acyclic set.

A greedy algorithm chooses its edges one after the other. It ends with a spanning forest of minimum
weight if each chosen edge is of least weight among the edges that cross some cut, and no edge
chosen before crosses it (`Extends.add`). That is the exchange argument
(`IsSpanningForest.exchange`): a spanning forest without the edge has one on the cycle that crosses
the cut, and this can be replaced. Kruskal's algorithm is one of these (`Visits.choose`). Prim's
algorithm grows one tree from a point (`Grows`).
-/

namespace SpanningForest

open Connectivity

variable {ε V W : Type*} (ends : ε → V × V)

/-- The two end points of an edge in `S`. -/
def Linked (S : Multiset ε) (u v : V) : Prop := ∃ e ∈ S, ends e = (u, v)

/-- The edge has its ends on different sides. -/
def Crosses (P : V → Prop) (e : ε) : Prop := P (ends e).1 ↔ ¬ P (ends e).2

/-- Every edge of `E` has its ends joined by `S`. -/
def Spans (S E : Multiset ε) : Prop :=
  ∀ e ∈ E, Joined (Linked ends S) (ends e).1 (ends e).2

variable {ends} {A C E F S : Multiset ε} {e f : ε} {u v : V} {P : V → Prop}

theorem Linked.mono (h : Joined (Linked ends S) u v) (hSA : S ≤ A) :
    Joined (Linked ends A) u v :=
  h.mono fun _ _ ⟨e, he, heq⟩ ↦ ⟨e, Multiset.mem_of_le hSA he, heq⟩

variable (ends) in
/-- The ends of an edge are joined by it. -/
theorem joined_ends (he : e ∈ S) : Joined (Linked ends S) (ends e).1 (ends e).2 :=
  .of ⟨e, he, rfl⟩

/-- One edge more joins what is joined over it. -/
theorem joined_cons : Joined (Linked ends (e ::ₘ S)) u v ↔
    Joined (Adding (Linked ends S) (ends e).1 (ends e).2) u v := by
  constructor
  · refine fun h ↦ h.mono ?_
    rintro a b ⟨f, hf, heq⟩
    rcases Multiset.mem_cons.1 hf with rfl | hf
    · exact .inr ⟨congrArg Prod.fst heq.symm, congrArg Prod.snd heq.symm⟩
    · exact .inl ⟨f, hf, heq⟩
  · refine fun h ↦ h.mono ?_
    rintro a b (⟨f, hf, heq⟩ | ⟨rfl, rfl⟩)
    · exact ⟨f, Multiset.mem_cons_of_mem hf, heq⟩
    · exact ⟨e, Multiset.mem_cons_self e S, rfl⟩

/-- If edges join points across a cut, one of them crosses it. -/
theorem exists_crosses (h : Joined (Linked ends S) u v) (hu : P u) (hv : ¬ P v) :
    ∃ e ∈ S, Crosses ends P e := by
  obtain ⟨a, b, ⟨e, he, heq⟩, hab⟩ := h.exists_crossing hu hv
  exact ⟨e, he, by rwa [Crosses, heq]⟩

/-- Edges that do not cross a cut do not join the ends of one that does. -/
theorem not_joined_of_crosses (hS : ∀ f ∈ S, ¬ Crosses ends P f) (he : Crosses ends P e) :
    ¬ Joined (Linked ends S) (ends e).1 (ends e).2 := by
  intro h
  by_cases hP : P (ends e).1
  · obtain ⟨f, hf, hcross⟩ := exists_crosses h hP (he.1 hP)
    exact hS f hf hcross
  · have hP' : P (ends e).2 := by
      rw [Crosses] at he
      tauto
    obtain ⟨f, hf, hcross⟩ := exists_crosses h.symm hP' hP
    exact hS f hf hcross

section Weight

variable [AddCommMonoid W] (weight : ε → W)

/-- The weights of the edges, added up. -/
def totalWeight (S : Multiset ε) : W := (S.map weight).sum

@[simp] theorem totalWeight_zero : totalWeight weight (0 : Multiset ε) = 0 := rfl

@[simp] theorem totalWeight_cons (e : ε) (S : Multiset ε) :
    totalWeight weight (e ::ₘ S) = weight e + totalWeight weight S := by
  rw [totalWeight, Multiset.map_cons, Multiset.sum_cons, totalWeight]

end Weight

/-! ### Acyclic sets of edges -/

variable (ends) [DecidableEq ε]

/-- No edge of `S` has its ends joined by the others. -/
def Acyclic (S : Multiset ε) : Prop :=
  ∀ e ∈ S, ¬ Joined (Linked ends (S.erase e)) (ends e).1 (ends e).2

/-- A maximal set of edges of `E` without a cycle. -/
structure IsSpanningForest (E F : Multiset ε) : Prop where
  le : F ≤ E
  acyclic : Acyclic ends F
  maximal : ∀ e, e ::ₘ F ≤ E → ¬ Acyclic ends (e ::ₘ F)

variable {ends}

/-- Adding an edge between points that are not joined closes no cycle. -/
theorem Acyclic.cons (h : Acyclic ends S)
    (he : ¬ Joined (Linked ends S) (ends e).1 (ends e).2) : Acyclic ends (e ::ₘ S) := by
  intro i hi
  rcases Multiset.mem_cons.1 hi with rfl | hi
  · rwa [Multiset.erase_cons_head]
  · rw [Multiset.erase_cons_tail_of_mem hi, joined_cons, joined_add]
    have hmono : ∀ {a b}, Joined (Linked ends (S.erase i)) a b → Joined (Linked ends S) a b :=
      fun h ↦ Linked.mono h (Multiset.erase_le i S)
    rintro (hj | ⟨h₁, h₂⟩ | ⟨h₁, h₂⟩)
    · exact h i hi hj
    · exact he (((hmono h₁).symm.trans (joined_ends ends hi)).trans (hmono h₂).symm)
    · exact he (((hmono h₂).trans (joined_ends ends hi).symm).trans (hmono h₁))

theorem Acyclic.mono (h : Acyclic ends A) (hle : S ≤ A) : Acyclic ends S := fun e he hj ↦
  h e (Multiset.mem_of_le hle he) (Linked.mono hj (Multiset.erase_le_erase e hle))

/-- A maximal set without a cycle joins what can be joined. -/
theorem IsSpanningForest.spans (h : IsSpanningForest ends E F) : Spans ends F E := by
  intro e he
  by_contra hnot
  have hmem : e ∉ F := fun hF ↦ hnot (joined_ends ends hF)
  exact h.maximal e ((Multiset.cons_le_of_notMem hmem).2 ⟨he, h.le⟩) (h.acyclic.cons hnot)

/-- Edges of the graph without a cycle that join what it joins are a spanning forest. -/
theorem isSpanningForest_of_spans (hle : F ≤ E) (hacyclic : Acyclic ends F)
    (hspans : Spans ends F E) : IsSpanningForest ends E F where
  le := hle
  acyclic := hacyclic
  maximal e he hcons := by
    refine hcons e (Multiset.mem_cons_self e F) ?_
    rw [Multiset.erase_cons_head]
    exact hspans e (Multiset.mem_of_le he (Multiset.mem_cons_self e F))

/-- Among the edges that join two points there are some that all are needed: a path. -/
theorem exists_path (h : Joined (Linked ends S) u v) :
    ∃ C ≤ S, Joined (Linked ends C) u v ∧ ∀ f ∈ C, ¬ Joined (Linked ends (C.erase f)) u v := by
  induction S using Multiset.strongInductionOn with
  | ih S ih =>
    by_cases hall : ∀ f ∈ S, ¬ Joined (Linked ends (S.erase f)) u v
    · exact ⟨S, le_refl S, h, hall⟩
    · push Not at hall
      obtain ⟨f, hf, hj⟩ := hall
      obtain ⟨C, hC, hjoined, hneeded⟩ := ih _ (Multiset.erase_lt.2 hf) hj
      exact ⟨C, hC.trans (Multiset.erase_le f S), hjoined, hneeded⟩

/-- An edge of a path: without it the path is in two parts. -/
theorem joined_parts (hjoined : Joined (Linked ends C) u v)
    (hneeded : ¬ Joined (Linked ends (C.erase f)) u v) (hf : f ∈ C) :
    Joined (Linked ends (C.erase f)) u (ends f).1 ∧ Joined (Linked ends (C.erase f)) (ends f).2 v ∨
      Joined (Linked ends (C.erase f)) u (ends f).2 ∧
        Joined (Linked ends (C.erase f)) (ends f).1 v := by
  rw [← Multiset.cons_erase hf, joined_cons, joined_add] at hjoined
  exact hjoined.resolve_left hneeded

/-- **The exchange.** An edge that crosses a cut is in a spanning forest, or replaces one there that
crosses it too. -/
theorem IsSpanningForest.exchange (hF : IsSpanningForest ends E F) (he : e ∈ E) (heF : e ∉ F)
    (hcross : Crosses ends P e) :
    ∃ f ∈ F, Crosses ends P f ∧ IsSpanningForest ends E (e ::ₘ F.erase f) := by
  obtain ⟨C, hC, hjoined, hneeded⟩ := exists_path (hF.spans e he)
  obtain ⟨f, hf, hfcross⟩ : ∃ f ∈ C, Crosses ends P f := by
    by_contra hnone
    exact not_joined_of_crosses (fun f hf hc ↦ hnone ⟨f, hf, hc⟩) hcross hjoined
  have hfF : f ∈ F := Multiset.mem_of_le hC hf
  have hparts := joined_parts hjoined (hneeded f hf) hf
  have hup : ∀ {a b}, Joined (Linked ends (C.erase f)) a b →
      Joined (Linked ends (F.erase f)) a b := fun h ↦
    Linked.mono h (Multiset.erase_le_erase f hC)
  have hends : ¬ Joined (Linked ends (F.erase f)) (ends e).1 (ends e).2 := by
    intro hj
    refine hF.acyclic f hfF ?_
    rcases hparts with ⟨h₁, h₂⟩ | ⟨h₁, h₂⟩
    · exact ((hup h₁).symm.trans hj).trans (hup h₂).symm
    · exact ((hup h₂).trans hj.symm).trans (hup h₁)
  have hle : e ::ₘ F.erase f ≤ E :=
    (Multiset.cons_le_of_notMem fun h ↦ heF (Multiset.mem_of_mem_erase h)).2
      ⟨he, (Multiset.erase_le f F).trans hF.le⟩
  have hacyclic := (hF.acyclic.mono (Multiset.erase_le f F)).cons hends
  refine ⟨f, hfF, hfcross, isSpanningForest_of_spans hle hacyclic fun i hi ↦ ?_⟩
  have hup' : ∀ {a b}, Joined (Linked ends (C.erase f)) a b →
      Joined (Linked ends (e ::ₘ F.erase f)) a b := fun h ↦
    Linked.mono (hup h) (Multiset.le_cons_self _ e)
  have hei := joined_ends ends (Multiset.mem_cons_self e (F.erase f))
  refine (hF.spans i hi).lift ?_
  rintro a b ⟨j, hj, heq⟩
  rcases eq_or_ne j f with rfl | hjf
  · rw [show a = (ends j).1 from congrArg Prod.fst heq.symm,
      show b = (ends j).2 from congrArg Prod.snd heq.symm]
    rcases hparts with ⟨h₁, h₂⟩ | ⟨h₁, h₂⟩
    · exact ((hup' h₁).symm.trans hei).trans (hup' h₂).symm
    · exact ((hup' h₂).trans hei.symm).trans (hup' h₁)
  · exact .of ⟨j, Multiset.mem_cons_of_mem ((Multiset.mem_erase_of_ne hjf).2 hj), heq⟩

/-- A spanning forest has no cycle closed by another one that it contains. -/
theorem IsSpanningForest.eq_of_le (hF : IsSpanningForest ends E F) (hle : A ≤ F)
    (hspans : Spans ends A E) : A = F := by
  by_contra hne
  obtain ⟨e, he⟩ := Multiset.lt_iff_cons_le.1 (lt_of_le_of_ne hle hne)
  have hmem : e ∈ F := Multiset.mem_of_le he (Multiset.mem_cons_self e A)
  have hA : A ≤ F.erase e := by
    have hle := Multiset.erase_le_erase e he
    rwa [Multiset.erase_cons_head] at hle
  exact hF.acyclic e hmem (Linked.mono (hspans e (Multiset.mem_of_le hF.le hmem)) hA)

/-! ### Growing a tree -/

section Prim

variable [Preorder W] (ends) (weight : ε → W)

/-- The points that Prim's algorithm may have reached from `r`, with the edges that it has chosen:
each of them was of least weight among those that left the points. -/
inductive Grows (E : Multiset ε) (r : V) : Set V → Multiset ε → Prop
  | start : Grows E r {r} 0
  | add {P : Set V} {A : Multiset ε} {e : ε} (h : Grows E r P A) (he : e ∈ E)
      (hcross : Crosses ends (· ∈ P) e)
      (hleast : ∀ f ∈ E, Crosses ends (· ∈ P) f → weight e ≤ weight f) :
      Grows E r (insert (ends e).1 (insert (ends e).2 P)) (e ::ₘ A)

/-- As long as edges leave the points reached, one of them is lighter than each edge between these
points that has not been chosen. A self-loop is no such edge. -/
def LeadsOn (E : Multiset ε) (r : V) : Prop :=
  ∀ P A, Grows ends weight E r P A → (∃ f ∈ E, Crosses ends (· ∈ P) f) →
    ∀ e ∈ E - A, (ends e).1 ≠ (ends e).2 → (ends e).1 ∈ P → (ends e).2 ∈ P →
      ∃ f ∈ E, Crosses ends (· ∈ P) f ∧ weight f < weight e

variable {ends weight} {r : V} {P : Set V}

omit [DecidableEq ε] in
/-- The chosen edges are between points reached. -/
theorem Grows.mem (h : Grows ends weight E r P A) :
    ∀ e ∈ A, (ends e).1 ∈ P ∧ (ends e).2 ∈ P := by
  induction h with
  | start => exact fun e he ↦ absurd he (Multiset.notMem_zero e)
  | add _ _ _ _ ih =>
    intro e he
    rcases Multiset.mem_cons.1 he with rfl | he
    · exact ⟨Set.mem_insert _ _, Set.mem_insert_of_mem _ (Set.mem_insert _ _)⟩
    · obtain ⟨h₁, h₂⟩ := ih e he
      exact ⟨Set.mem_insert_of_mem _ (Set.mem_insert_of_mem _ h₁),
        Set.mem_insert_of_mem _ (Set.mem_insert_of_mem _ h₂)⟩

omit [DecidableEq ε] in
/-- An edge that crosses is not in the tree. -/
theorem Grows.notMem_of_crosses (h : Grows ends weight E r P A) (he : Crosses ends (· ∈ P) e) :
    e ∉ A := fun hmem ↦
  he.1 (h.mem e hmem).1 (h.mem e hmem).2

end Prim

/-! ### Greedy algorithms -/

variable [AddCommMonoid W] [PartialOrder W] {weight : ε → W}

variable (ends weight) in
/-- The chosen edges are acyclic, and each spanning forest can be replaced by one that has them and
weighs no more. -/
structure Extends (E A : Multiset ε) : Prop where
  le : A ≤ E
  acyclic : Acyclic ends A
  extends' : ∀ F, IsSpanningForest ends E F →
    ∃ F', IsSpanningForest ends E F' ∧ A ≤ F' ∧ totalWeight weight F' ≤ totalWeight weight F

/-- No edges at all extend to a minimum spanning forest. -/
theorem extends_zero : Extends ends weight E 0 where
  le := Multiset.zero_le E
  acyclic e he := absurd he (Multiset.notMem_zero e)
  extends' F hF := ⟨F, hF, Multiset.zero_le F, le_refl _⟩

/-- **What is chosen is of minimum weight** once it spans the graph. -/
theorem Extends.isLeast (h : Extends ends weight E A) (hspans : Spans ends A E) :
    IsLeast {w | ∃ F, IsSpanningForest ends E F ∧ totalWeight weight F = w}
      (totalWeight weight A) := by
  refine ⟨⟨A, isSpanningForest_of_spans h.le h.acyclic hspans, rfl⟩, ?_⟩
  rintro w ⟨F, hF, rfl⟩
  obtain ⟨F', hF', hAF, hweight⟩ := h.extends' F hF
  rwa [hF'.eq_of_le hAF hspans]

variable [IsOrderedAddMonoid W]

/-- **The cut rule.** The choice of an edge that is of least weight among those that cross a cut,
where no chosen edge does. -/
theorem Extends.add (h : Extends ends weight E A) (he : e ∈ E) (hcross : Crosses ends P e)
    (hA : ∀ f ∈ A, ¬ Crosses ends P f)
    (hleast : ∀ f ∈ E, Crosses ends P f → weight e ≤ weight f) :
    Extends ends weight E (e ::ₘ A) := by
  have heA : e ∉ A := fun hmem ↦ hA e hmem hcross
  refine ⟨(Multiset.cons_le_of_notMem heA).2 ⟨he, h.le⟩,
    h.acyclic.cons (not_joined_of_crosses hA hcross), fun F hF ↦ ?_⟩
  obtain ⟨F', hF', hAF, hweight⟩ := h.extends' F hF
  by_cases heF : e ∈ F'
  · exact ⟨F', hF', (Multiset.cons_le_of_notMem heA).2 ⟨heF, hAF⟩, hweight⟩
  · obtain ⟨f, hf, hfcross, hforest⟩ := hF'.exchange he heF hcross
    have hfA : f ∉ A := fun hmem ↦ hA f hmem hfcross
    have hAf : A ≤ F'.erase f := by
      have hle := Multiset.erase_le_erase f hAF
      rwa [Multiset.erase_of_notMem hfA] at hle
    refine ⟨_, hforest, (Multiset.cons_le_cons_iff e).2 hAf, le_trans ?_ hweight⟩
    calc totalWeight weight (e ::ₘ F'.erase f)
        = weight e + totalWeight weight (F'.erase f) := totalWeight_cons weight e _
      _ ≤ weight f + totalWeight weight (F'.erase f) := by
        gcongr
        exact hleast f (Multiset.mem_of_le hF'.le hf) hfcross
      _ = totalWeight weight F' := by rw [← totalWeight_cons, Multiset.cons_erase hf]

/-- The choice of an edge that joins two classes and is of least weight among those that do: the cut
is the class of one of its ends. -/
theorem Extends.add_of_not_joined (h : Extends ends weight E A) (he : e ∈ E)
    (hnot : ¬ Joined (Linked ends A) (ends e).1 (ends e).2)
    (hleast : ∀ f ∈ E, ¬ Joined (Linked ends A) (ends f).1 (ends f).2 → weight e ≤ weight f) :
    Extends ends weight E (e ::ₘ A) := by
  have hcut : ∀ f, Joined (Linked ends A) (ends f).1 (ends f).2 →
      ¬ Crosses ends (Joined (Linked ends A) (ends e).1) f := fun f hj hcross ↦ by
    have hiff : Joined (Linked ends A) (ends e).1 (ends f).1 ↔
        Joined (Linked ends A) (ends e).1 (ends f).2 :=
      ⟨fun h ↦ h.trans hj, fun h ↦ h.trans hj.symm⟩
    exact iff_not_self (hiff.symm.trans hcross)
  exact h.add he (iff_of_true (.refl _ _) hnot) (fun f hf ↦ hcut f (joined_ends ends hf))
    fun f hf hcross ↦ hleast f hf fun hj ↦ hcut f hj hcross

/-! ### Kruskal's algorithm -/

variable {rest : List ε}

variable (ends weight) in
/-- The edges `A` are chosen and `rest` are left to visit, from the lightest one on. -/
structure Visits (E : Multiset ε) (rest : List ε) (A : Multiset ε) : Prop where
  choice : Extends ends weight E A
  mem : ∀ e ∈ rest, e ∈ E
  sorted : rest.Pairwise fun e f ↦ weight e ≤ weight f
  done : ∀ e ∈ E, e ∈ rest ∨ Joined (Linked ends A) (ends e).1 (ends e).2

omit [IsOrderedAddMonoid W] in
/-- Before the visit no edge has been taken. -/
theorem visits_initial (hmem : ∀ e, e ∈ rest ↔ e ∈ E)
    (hsorted : rest.Pairwise fun e f ↦ weight e ≤ weight f) : Visits ends weight E rest 0 :=
  ⟨extends_zero, fun e ↦ (hmem e).1, hsorted, fun e he ↦ .inl ((hmem e).2 he)⟩

omit [IsOrderedAddMonoid W] in
/-- An edge between points that are joined already is passed over. -/
theorem Visits.skip (h : Visits ends weight E (e :: rest) A)
    (hj : Joined (Linked ends A) (ends e).1 (ends e).2) : Visits ends weight E rest A where
  choice := h.choice
  mem f hf := h.mem f (List.mem_cons_of_mem e hf)
  sorted := (List.pairwise_cons.1 h.sorted).2
  done f hf := by
    rcases h.done f hf with hmem | hjoined
    · rcases List.mem_cons.1 hmem with rfl | hmem
      · exact .inr hj
      · exact .inl hmem
    · exact .inr hjoined

/-- **An edge between points that are not joined** is chosen. -/
theorem Visits.choose (h : Visits ends weight E (e :: rest) A)
    (hnot : ¬ Joined (Linked ends A) (ends e).1 (ends e).2) :
    Visits ends weight E rest (e ::ₘ A) where
  choice := by
    refine h.choice.add_of_not_joined (h.mem e List.mem_cons_self) hnot fun f hf hf' ↦ ?_
    rcases List.mem_cons.1 ((h.done f hf).resolve_right hf') with rfl | hmem
    · exact le_refl _
    · exact (List.pairwise_cons.1 h.sorted).1 f hmem
  mem f hf := h.mem f (List.mem_cons_of_mem e hf)
  sorted := (List.pairwise_cons.1 h.sorted).2
  done f hf := by
    rcases h.done f hf with hmem | hjoined
    · rcases List.mem_cons.1 hmem with rfl | hmem
      · exact .inr (joined_ends ends (Multiset.mem_cons_self f A))
      · exact .inl hmem
    · exact .inr (Linked.mono hjoined (Multiset.le_cons_self A e))

omit [IsOrderedAddMonoid W] in
/-- When all edges have been visited, those that were taken span the graph. -/
theorem Visits.spans (h : Visits ends weight E [] A) : Spans ends A E := fun e he ↦
  (h.done e he).resolve_left List.not_mem_nil

end SpanningForest
