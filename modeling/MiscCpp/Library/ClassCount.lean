import Mathlib.Data.Finset.Card
import Mathlib.Data.Finset.Image
import Mathlib.Data.Multiset.AddSub
import MiscCpp.Library.SpanningForest

/-!
# Counting classes

How many classes of joined points a finite set of nodes has.

A pair that joins two classes makes one class fewer (`classes_adding_of_not_joined`), so the number
of classes and the number of edges bound each other (`components_le_add_card`), and a greedy choice
of edges attains the bound (`exists_spanning`). Two graphs that share some of their edges are both
connected with the fewest edges if the shared edges are chosen first (`card_le_of_connects`,
`exists_connects`).
-/

namespace Connectivity

/-- A function that another one determines takes no more values. -/
theorem card_image_le_of_determines {α β γ : Type*} [DecidableEq β] [DecidableEq γ] {s : Finset α}
    {f : α → β} {g : α → γ} (h : ∀ u ∈ s, ∀ v ∈ s, g u = g v → f u = f v) :
    (s.image f).card ≤ (s.image g).card := by
  let both := s.image fun u ↦ (g u, f u)
  have hfst : both.image Prod.fst = s.image g := by
    rw [Finset.image_image]
    rfl
  have hsnd : both.image Prod.snd = s.image f := by
    rw [Finset.image_image]
    rfl
  have hinj : Set.InjOn Prod.fst (both : Set (γ × β)) := by
    intro p hp q hq heq
    obtain ⟨u, hu, rfl⟩ := Finset.mem_image.1 hp
    obtain ⟨v, hv, rfl⟩ := Finset.mem_image.1 hq
    exact Prod.ext heq (h u hu v hv heq)
  rw [← hsnd, ← hfst, Finset.card_image_of_injOn hinj]
  exact Finset.card_image_le

variable {V β : Type*} {R S : V → V → Prop} {nodes : Finset V} {u v x y : V}

/-- The points that are joined with `u`. -/
def classOf (R : V → V → Prop) (u : V) : Set V := {v | Joined R u v}

/-- Two nodes have the same class exactly if they are joined. -/
theorem classOf_eq_iff : classOf R u = classOf R v ↔ Joined R u v := by
  constructor
  · intro h
    have hv : v ∈ classOf R v := Joined.refl R v
    rwa [← h] at hv
  · intro h
    ext w
    exact ⟨h.symm.trans, h.trans⟩

open Classical in
/-- The number of classes among `nodes`. -/
noncomputable def classes (nodes : Finset V) (R : V → V → Prop) : ℕ :=
  (nodes.image (classOf R)).card

/-- The classes are counted by any function that tells them apart. -/
theorem classes_eq_card [DecidableEq β] {f : V → β}
    (hf : ∀ u ∈ nodes, ∀ v ∈ nodes, f u = f v ↔ Joined R u v) :
    classes nodes R = (nodes.image f).card := by
  classical
  refine le_antisymm ?_ ?_
  · exact card_image_le_of_determines fun u hu v hv h ↦ classOf_eq_iff.2 ((hf u hu v hv).1 h)
  · exact card_image_le_of_determines fun u hu v hv h ↦ (hf u hu v hv).2 (classOf_eq_iff.1 h)

/-- More that is joined makes no more classes. -/
theorem classes_anti (h : ∀ u v, Joined R u v → Joined S u v) :
    classes nodes S ≤ classes nodes R := by
  classical
  exact card_image_le_of_determines fun u _ v _ huv ↦
    classOf_eq_iff.2 (h u v (classOf_eq_iff.1 huv))

theorem classes_congr (h : ∀ u v, Joined R u v ↔ Joined S u v) :
    classes nodes R = classes nodes S :=
  le_antisymm (classes_anti fun u v ↦ (h u v).2) (classes_anti fun u v ↦ (h u v).1)

/-- Without pairs each node is a class. -/
theorem classes_of_forall_not (h : ∀ u v, ¬ R u v) : classes nodes R = nodes.card := by
  classical
  have heq : classes nodes R = (nodes.image id).card := classes_eq_card fun u _ v _ ↦ by
    constructor
    · rintro rfl
      exact .refl R u
    · exact fun huv ↦ (huv.eq_of_isolated fun w ↦ ⟨h u w, h w u⟩).symm
  rw [heq, Finset.image_id]

/-- **One class**: everything is joined. -/
theorem classes_eq_one_iff (hnodes : nodes.Nonempty) :
    classes nodes R = 1 ↔ ∀ u ∈ nodes, ∀ v ∈ nodes, Joined R u v := by
  classical
  rw [classes, Finset.card_eq_one]
  constructor
  · rintro ⟨c, hc⟩ u hu v hv
    have hmem : ∀ w ∈ nodes, classOf R w = c := fun w hw ↦
      Finset.mem_singleton.1 (hc ▸ Finset.mem_image_of_mem _ hw)
    exact classOf_eq_iff.1 ((hmem u hu).trans (hmem v hv).symm)
  · intro h
    obtain ⟨u, hu⟩ := hnodes
    refine ⟨classOf R u, Finset.eq_singleton_iff_unique_mem.2
      ⟨Finset.mem_image_of_mem _ hu, fun c hc ↦ ?_⟩⟩
    obtain ⟨v, hv, rfl⟩ := Finset.mem_image.1 hc
    exact classOf_eq_iff.2 (h v hv u hu)

open Classical in
/-- With a pair of `x` and `y` more, the class of `y` is a part of the class of `x`. -/
theorem classes_adding : classes nodes (Adding R x y) =
    (nodes.image fun u ↦ if Joined R u y then classOf R x else classOf R u).card := by
  refine classes_eq_card fun u _ v _ ↦ ?_
  rw [joined_add]
  by_cases hu : Joined R u y <;> by_cases hv : Joined R v y <;>
    simp only [hu, hv, if_true, if_false, classOf_eq_iff]
  · exact iff_of_true trivial (.inl (hu.trans hv.symm))
  · refine ⟨fun h ↦ .inr (.inr ⟨trivial, h⟩), ?_⟩
    rintro (h | ⟨-, h⟩ | ⟨-, h⟩)
    · exact absurd (h.symm.trans hu) hv
    · exact absurd h.symm hv
    · exact h
  · refine ⟨fun h ↦ .inr (.inl ⟨h, hv.symm⟩), ?_⟩
    rintro (h | ⟨h, -⟩ | ⟨h, -⟩)
    · exact absurd (h.trans hv) hu
    · exact h
    · exact h.elim
  · refine ⟨.inl, ?_⟩
    rintro (h | ⟨-, h⟩ | ⟨h, -⟩)
    · exact h
    · exact absurd h.symm hv
    · exact h.elim

/-- A pair makes one class fewer at most. -/
theorem classes_le_adding : classes nodes R ≤ classes nodes (Adding R x y) + 1 := by
  classical
  rw [classes_adding, classes]
  refine le_trans (Finset.card_le_card fun c hc ↦ ?_) (Finset.card_insert_le (classOf R y) _)
  obtain ⟨u, hu, rfl⟩ := Finset.mem_image.1 hc
  by_cases huy : Joined R u y
  · exact Finset.mem_insert.2 (.inl (classOf_eq_iff.2 huy))
  · exact Finset.mem_insert_of_mem (Finset.mem_image.2 ⟨u, hu, if_neg huy⟩)

/-- **A pair that joins two classes** makes one class fewer. -/
theorem classes_adding_of_not_joined (hx : x ∈ nodes) (hy : y ∈ nodes) (h : ¬ Joined R x y) :
    classes nodes (Adding R x y) + 1 = classes nodes R := by
  classical
  rw [classes_adding, classes, ← Finset.card_erase_add_one (Finset.mem_image_of_mem (classOf R) hy)]
  congr 2
  ext c
  rw [Finset.mem_erase, Finset.mem_image, Finset.mem_image]
  constructor
  · rintro ⟨u, hu, rfl⟩
    by_cases huy : Joined R u y
    · rw [if_pos huy]
      exact ⟨fun heq ↦ h (classOf_eq_iff.1 heq), x, hx, rfl⟩
    · rw [if_neg huy]
      exact ⟨fun heq ↦ huy (classOf_eq_iff.1 heq), u, hu, rfl⟩
  · rintro ⟨hne, u, hu, rfl⟩
    exact ⟨u, hu, if_neg fun huy ↦ hne (classOf_eq_iff.2 huy)⟩

/-- An edge between joined nodes changes no class. -/
theorem classes_adding_of_joined (h : Joined R x y) :
    classes nodes (Adding R x y) = classes nodes R :=
  classes_congr fun _ _ ↦ joined_add_of_joined h

/-! ### Edges -/

open SpanningForest

variable {ε : Type*} {ends : ε → V × V} {A B C E T : Multiset ε} {e : ε}

/-- The classes that the edges `E` make among `nodes`. -/
noncomputable abbrev components (ends : ε → V × V) (nodes : Finset V) (E : Multiset ε) : ℕ :=
  classes nodes (Linked ends E)

theorem components_zero : components ends nodes 0 = nodes.card :=
  classes_of_forall_not fun _ _ ⟨_, he, _⟩ ↦ Multiset.notMem_zero _ he

/-- More edges leave no more components. -/
theorem components_anti (h : T ≤ E) : components ends nodes E ≤ components ends nodes T :=
  classes_anti fun _ _ huv ↦ huv.mono fun _ _ ⟨e, he, heq⟩ ↦ ⟨e, Multiset.mem_of_le h he, heq⟩

theorem components_cons :
    components ends nodes (e ::ₘ E) =
      classes nodes (Adding (Linked ends E) (ends e).1 (ends e).2) :=
  classes_congr fun _ _ ↦ joined_cons

/-- An edge joins two classes at most. -/
theorem components_le_add_card (ends : ε → V × V) (nodes : Finset V) (T E : Multiset ε) :
    components ends nodes E ≤ components ends nodes (T + E) + T.card := by
  induction T using Multiset.induction_on with
  | empty => rw [Multiset.zero_add, Multiset.card_zero, Nat.add_zero]
  | cons e T ih =>
    rw [Multiset.cons_add, components_cons, Multiset.card_cons]
    have hle : components ends nodes (T + E) ≤
        classes nodes (Adding (Linked ends (T + E)) (ends e).1 (ends e).2) + 1 := classes_le_adding
    omega

/-- **A greedy choice**: edges that join what `T` joins, one for each class that disappears. -/
theorem exists_spanning (hT : ∀ e ∈ T, (ends e).1 ∈ nodes ∧ (ends e).2 ∈ nodes)
    (E : Multiset ε) :
    ∃ S ≤ T, (∀ u v, Joined (Linked ends (S + E)) u v ↔ Joined (Linked ends (T + E)) u v) ∧
      S.card + components ends nodes (T + E) = components ends nodes E := by
  induction T using Multiset.induction_on with
  | empty => exact ⟨0, le_rfl, fun _ _ ↦ Iff.rfl, by simp⟩
  | cons e T ih =>
    obtain ⟨S, hle, hjoined, hcard⟩ := ih fun f hf ↦ hT f (Multiset.mem_cons_of_mem hf)
    obtain ⟨hx, hy⟩ := hT e (Multiset.mem_cons_self e T)
    rw [Multiset.cons_add, components_cons]
    by_cases h : Joined (Linked ends (T + E)) (ends e).1 (ends e).2
    · rw [classes_adding_of_joined h]
      refine ⟨S, hle.trans (Multiset.le_cons_self T e), fun u v ↦ ?_, hcard⟩
      rw [joined_cons, joined_add_of_joined h, hjoined]
    · have hone : classes nodes (Adding (Linked ends (T + E)) (ends e).1 (ends e).2) + 1 =
          components ends nodes (T + E) := classes_adding_of_not_joined hx hy h
      refine ⟨e ::ₘ S, (Multiset.cons_le_cons_iff e).2 hle, fun u v ↦ ?_, ?_⟩
      · rw [Multiset.cons_add, joined_cons, joined_cons, joined_add, joined_add]
        simp only [hjoined]
      · rw [Multiset.card_cons]
        omega

/-! ### Two graphs that share edges

Of the edges `A` and `C` makes one graph, `B` and `C` the other one. -/

/-- The edges connect the nodes. -/
def Connects (ends : ε → V × V) (nodes : Finset V) (E : Multiset ε) : Prop :=
  ∀ u ∈ nodes, ∀ v ∈ nodes, Joined (Linked ends E) u v

/-- A graph with nodes is connected exactly if it has one component. -/
theorem connects_iff (hnodes : nodes.Nonempty) :
    Connects ends nodes E ↔ components ends nodes E = 1 :=
  (classes_eq_one_iff hnodes).symm

/-- **The least number of edges** that connect both graphs. -/
theorem card_le_of_connects (hnodes : nodes.Nonempty) {A' B' C' : Multiset ε} (hC : C' ≤ C)
    (hA : Connects ends nodes (A' + C')) (hB : Connects ends nodes (B' + C')) :
    nodes.card + components ends nodes C ≤ A'.card + B'.card + C'.card + 2 := by
  have hshared := components_le_add_card ends nodes C' 0
  have hfirst := components_le_add_card ends nodes A' C'
  have hsecond := components_le_add_card ends nodes B' C'
  have hanti : components ends nodes C ≤ components ends nodes C' := components_anti hC
  rw [Multiset.add_zero, components_zero] at hshared
  rw [(connects_iff hnodes).1 hA] at hfirst
  rw [(connects_iff hnodes).1 hB] at hsecond
  omega

/-- **It is attained**: the shared edges are chosen first. -/
theorem exists_connects (hnodes : nodes.Nonempty)
    (hends : ∀ e ∈ A + B + C, (ends e).1 ∈ nodes ∧ (ends e).2 ∈ nodes)
    (hA : Connects ends nodes (A + C)) (hB : Connects ends nodes (B + C)) :
    ∃ A' ≤ A, ∃ B' ≤ B, ∃ C' ≤ C, Connects ends nodes (A' + C') ∧ Connects ends nodes (B' + C') ∧
      A'.card + B'.card + C'.card + 2 = nodes.card + components ends nodes C := by
  simp only [Multiset.mem_add] at hends
  -- first the shared edges, then what each side lacks
  obtain ⟨C', hC', hjoined, hcard⟩ :=
    exists_spanning (fun e he ↦ hends e (.inr he)) (0 : Multiset ε)
  rw [Multiset.add_zero, components_zero] at hcard
  simp only [Multiset.add_zero] at hjoined
  have hadd : ∀ {X : Multiset ε} {u v}, Joined (Linked ends (X + C)) u v →
      Joined (Linked ends (X + C')) u v := fun h ↦ h.lift fun u v ⟨e, he, heq⟩ ↦ by
    rcases Multiset.mem_add.1 he with he | he
    · exact .of ⟨e, Multiset.mem_add.2 (.inl he), heq⟩
    · exact ((hjoined u v).2 (.of ⟨e, he, heq⟩)).mono fun _ _ ⟨f, hf, h⟩ ↦
        ⟨f, Multiset.mem_add.2 (.inr hf), h⟩
  have hshared : components ends nodes C' = components ends nodes C := classes_congr hjoined
  obtain ⟨A', hA', hjA, hcardA⟩ := exists_spanning (fun e he ↦ hends e (.inl (.inl he))) C'
  obtain ⟨B', hB', hjB, hcardB⟩ := exists_spanning (fun e he ↦ hends e (.inl (.inr he))) C'
  have hfirst : Connects ends nodes (A + C') := fun u hu v hv ↦ hadd (hA u hu v hv)
  have hsecond : Connects ends nodes (B + C') := fun u hu v hv ↦ hadd (hB u hu v hv)
  rw [(connects_iff hnodes).1 hfirst] at hcardA
  rw [(connects_iff hnodes).1 hsecond] at hcardB
  refine ⟨A', hA', B', hB', C', hC', fun u hu v hv ↦ (hjA u v).2 (hfirst u hu v hv),
    fun u hu v hv ↦ (hjB u v).2 (hsecond u hu v hv), ?_⟩
  omega

end Connectivity
