import MiscCpp.Library.KWayMerge
import MiscCpp.Library.SinglyLinked
import MiscCpp.Library.StdHeap

/-!
# Merging several linked lists

`mergeListsMap`, `mergeListsPq` and `mergeListsHeap` of `leetcode/list/mergeLists.cc`. All three
keep the heads of the lists in a container; a turn links its front node, adds the successor of this
one and removes the front. What the heap functions leave may be any order that is documented, in
each call another one.

The multimap keeps equal keys in the order of their insertion, and its front is removed by an
iterator (`mergeListsMap_spec`). The queue removes what is on top after the successor has been
pushed, which may be another node of the same value (but see `mergeListsPq_of_keepsTop`). And the
third function only appends the successor, so that `pop_heap` may be called for a range that is not
a heap. So all three are right if and only if this cannot happen, whatever the order
(`mergeLists_iff`).
-/

open Function SinglyLinked StdAlgorithm KWayMerge

namespace MergeLists

/-! ### The functions -/

/-- The address of a node: those of the lists, and the local variable `dummy`. -/
inductive NodeRef (ι : Type) where
  | node (a : ι)
  | dummy
  deriving DecidableEq

/-- The pointers of the nodes. -/
abbrev Next (ι : Type) := NodeRef ι → Option (NodeRef ι)

/-- What the heads of the lists are kept in. -/
structure Container (ι σ C : Type) where
  front : σ → Option (NodeRef ι)
  /-- Adds the successor of the front node, if there is one, and removes the front node. -/
  replace : C → σ → Option (NodeRef ι) → Option σ

variable {ι σ C : Type} [DecidableEq ι] (val : NodeRef ι → ℤ)

/-- `while (!c.empty())`, where each turn has its own implementation. -/
def mergeLoop (K : Container ι σ C) : ℕ → (ℕ → C) → Next ι → NodeRef ι → σ → Option (Next ι)
  | 0, _, _, _, _ => none
  | fuel + 1, calls, next, tail, c =>
    match K.front c with
    | none => some next
    | some it => do
      let next := update next tail (some it)
      let c ← K.replace (calls 0) c (next it)
      mergeLoop K fuel (fun turn ↦ calls (turn + 1)) next it c

/-- The loop, from the local variable `dummy` on: the pointers, and the first node. -/
def mergeFrom (K : Container ι σ C) (fuel : ℕ) (turns : ℕ → C) (next : Next ι) (c : σ) :
    Option (Next ι × Option (NodeRef ι)) := do
  let next := update next .dummy none
  let next ← mergeLoop K fuel turns next .dummy c
  some (next, next .dummy)

/-- Behind the elements whose keys are not greater. -/
def upperBound (mp : List (ℤ × NodeRef ι)) (key : ℤ) : ℕ :=
  (mp.takeWhile fun e ↦ decide (e.1 ≤ key)).length

/-- Insert a list behind those with equal keys. -/
def emplace (mp : List (ℤ × NodeRef ι)) (l : NodeRef ι) : List (ℤ × NodeRef ι) :=
  mp.insertIdx (upperBound mp (val l)) (val l, l)

/-- The iterator `it` stays at its element, which is the first one unless the new one is. -/
def mapContainer : Container ι (List (ℤ × NodeRef ι)) Unit where
  front mp := mp.head?.map Prod.snd
  replace _ mp
    | some next =>
      some ((emplace val mp next).eraseIdx (if upperBound mp (val next) = 0 then 1 else 0))
    | none => some (mp.eraseIdx 0)

/-- Merge with a `multimap` by the first values. -/
def mergeListsMap (fuel : ℕ) (next : Next ι) (lists : List (NodeRef ι)) :
    Option (Next ι × Option (NodeRef ι)) :=
  mergeFrom (mapContainer val) fuel (fun _ ↦ ()) next (lists.foldl (emplace val) [])

/-- The order of the heap: the list with the least first value is on top. -/
def comp (l1 l2 : NodeRef ι) : Bool := decide (val l1 > val l2)

variable (std : HeapImplementation (NodeRef ι)) (calls : ℕ → HeapImplementation (NodeRef ι))

/-- `priority_queue::push` -/
def push (pq : List (NodeRef ι)) (l : NodeRef ι) : Option (List (NodeRef ι)) :=
  pushHeap std (comp val) (pq ++ [l])

/-- `pop_heap` and `pop_back` -/
def pop (pq : List (NodeRef ι)) : Option (List (NodeRef ι)) :=
  (popHeap std (comp val) pq).map List.dropLast

/-- A `priority_queue` of lists. -/
def pqContainer : Container ι (List (NodeRef ι)) (HeapImplementation (NodeRef ι)) where
  front := List.head?
  replace std pq next := do
    let pq ← next.toList.foldlM (push val std) pq
    pop val std pq

/-- Merge with a `priority_queue`. -/
def mergeListsPq (fuel : ℕ) (next : Next ι) (lists : List (NodeRef ι)) :
    Option (Next ι × Option (NodeRef ι)) := do
  let pq ← lists.foldlM (push val (calls 0)) []
  mergeFrom (pqContainer val) fuel (fun turn ↦ calls (turn + 1)) next pq

/-- A heap of lists in a vector, to which successors are only appended. -/
def heapContainer : Container ι (List (NodeRef ι)) (HeapImplementation (NodeRef ι)) where
  front := List.head?
  replace std lists next := pop val std (lists ++ next.toList)

/-- Merge with `make_heap` and `pop_heap`. -/
def mergeListsHeap (fuel : ℕ) (next : Next ι) (lists : List (NodeRef ι)) :
    Option (Next ι × Option (NodeRef ι)) :=
  mergeFrom (heapContainer val) fuel (fun turn ↦ calls (turn + 1)) next
    ((calls 0).makeHeap (comp val) lists)

/-! ### Merging right, and lists that can be merged -/

/-- Pointers to the first nodes of lists with the given nodes, which are sorted and disjoint. -/
structure Lists (next : Next ι) (lists : List (NodeRef ι)) (nodes : List (List (NodeRef ι))) :
    Prop where
  heads : nodes.map List.head? = lists.map some
  seg : ∀ xs ∈ nodes, Seg next xs.head? xs none
  sorted : AllSorted val nodes
  nodup : nodes.flatten.Nodup
  notMem : .dummy ∉ nodes.flatten

/-- A list of exactly the nodes, in ascending order. -/
def MergesTo (nodes : List (List (NodeRef ι))) (r : Option (Next ι × Option (NodeRef ι))) : Prop :=
  ∃ next head xs, r = some (next, head) ∧ Seg next head xs none ∧ xs.Perm nodes.flatten ∧
    xs.Pairwise (val · ≤ val ·)

/-- With enough turns that is the result. -/
def Ends (nodes : List (List (NodeRef ι))) (f : ℕ → Option (Next ι × Option (NodeRef ι))) : Prop :=
  ∃ n, ∀ fuel ≥ n, MergesTo val nodes (f fuel)

/-- All three functions, whatever implementations their calls use. -/
structure MergesRight (next : Next ι) (lists : List (NodeRef ι)) (nodes : List (List (NodeRef ι))) :
    Prop where
  map : Ends val nodes fun fuel ↦ mergeListsMap val fuel next lists
  pq : ∀ calls, (∀ call, LawfulHeap (calls call)) →
    Ends val nodes fun fuel ↦ mergeListsPq val calls fuel next lists
  heap : ∀ calls, (∀ call, LawfulHeap (calls call)) →
    Ends val nodes fun fuel ↦ mergeListsHeap val calls fuel next lists

/-- When the turn of `a` comes, with `w` behind it: neither `w` nor a node of another list has its
value, and at most one of the others that are heads then is greater than `w`, or none if their
number is even. -/
def Mergeable (nodes : List (List (NodeRef ι))) : Prop :=
  ∀ before done a w rest after, nodes = before ++ (done ++ a :: w :: rest) :: after →
    val a < val w ∧ (∀ b ∈ headsAt val a (before ++ after), val a < val b) ∧
      (headsAt val a (before ++ after)).countP (val w < val ·) ≤
        (headsAt val a (before ++ after)).length % 2

variable {val} {next : Next ι} {tail it a w : NodeRef ι} {out rest done : List (NodeRef ι)}
  {cut before after : Cut (NodeRef ι)} {nodes : List (List (NodeRef ι))} {fuel : ℕ} {c c' : σ}
  {K : Container ι σ C} {turns : ℕ → C}

/-! ### A turn -/

/-- The nodes up to `tail` are linked behind the local variable, and the lists that are left are
linked as before. -/
structure Merging (val : NodeRef ι → ℤ) (next : Next ι) (tail : NodeRef ι)
    (out : List (NodeRef ι)) (cut : Cut (NodeRef ι)) : Prop where
  linked : ∃ front, .dummy :: out = front ++ [tail] ∧
    Seg next (some .dummy) (front ++ [tail]) (next tail)
  last : left cut = [] → next tail = none
  seg : ∀ p ∈ cut, Seg next p.2.head? p.2 none
  nodup : (.dummy :: (out ++ left cut)).Nodup
  perm : out.Perm (taken cut)
  sorted : out.Pairwise (val · ≤ val ·)

omit [DecidableEq ι] in
/-- The last node that is linked is not left. -/
theorem Merging.notMem_left (h : Merging val next tail out cut) : tail ∉ left cut := by
  obtain ⟨front, hout, -⟩ := h.linked
  have hnodup := h.nodup
  rw [← List.cons_append, hout, List.append_assoc] at hnodup
  exact (List.nodup_cons.1 (List.nodup_append.1 hnodup).2.1).1

/-- **A turn** that links the node `it`. -/
theorem Merging.turn (h : Merging val next tail out (before ++ (done, it :: rest) :: after))
    (hbalanced : Balanced val (before ++ (done, it :: rest) :: after)) :
    Merging val (update next tail (some it)) it (out ++ [it])
        (before ++ (done ++ [it], rest) :: after) ∧
      update next tail (some it) it = rest.head? := by
  have hit : it ∈ left (before ++ (done, it :: rest) :: after) :=
    left_take_perm.mem_iff.2 List.mem_cons_self
  have hframe : ∀ b ∈ left (before ++ (done, it :: rest) :: after),
      update next tail (some it) b = next b := fun b hb ↦
    update_of_ne (ne_of_mem_of_not_mem hb h.notMem_left) ..
  have hthis := h.seg (done, it :: rest) (List.mem_append_right _ List.mem_cons_self)
  have hnext : update next tail (some it) it = rest.head? := by
    rw [hframe it hit]
    exact hthis.2.eq_head?
  obtain ⟨front, hout, hlinked⟩ := h.linked
  have hnodup := h.nodup
  refine ⟨⟨⟨front ++ [tail], ?_, ?_⟩, fun hnil ↦ ?_, fun p hp ↦ ?_, ?_, ?_, ?_⟩, hnext⟩
  · rw [← hout, List.cons_append]
  · have hfront : tail ∉ front := by
      rw [← List.cons_append, hout] at hnodup
      exact fun hmem ↦ (List.nodup_append.1 (List.nodup_append.1 hnodup).1).2.2 tail hmem tail
        List.mem_cons_self rfl
    exact seg_concat.2 ⟨hlinked.set_last hfront (some it), rfl⟩
  · rw [left_append, left_cons, List.append_eq_nil_iff, List.append_eq_nil_iff] at hnil
    have hrest : rest = [] := hnil.2.1
    rw [hnext, hrest]
    rfl
  · have hrest : ∀ b ∈ p.2, b ∈ left (before ++ (done, it :: rest) :: after) := fun b hb ↦
      left_take_perm.mem_iff.2 (List.mem_cons_of_mem it (mem_left hp hb))
    refine Seg.congr ?_ fun b hb ↦ hframe b (hrest b hb)
    rcases List.mem_append.1 hp with hp | hp
    · exact h.seg p (List.mem_append_left _ hp)
    · rcases List.mem_cons.1 hp with rfl | hp
      · rw [← hnext, hframe it hit]
        exact hthis.2
      · exact h.seg p (List.mem_append_right _ (List.mem_cons_of_mem _ hp))
  · rw [List.append_assoc]
    exact (((left_take_perm.append_left out).cons .dummy).nodup_iff).1 hnodup
  · exact (h.perm.append_right [it]).trans taken_take_perm.symm
  · refine List.pairwise_append.2 ⟨h.sorted, List.pairwise_singleton _ it, fun x hx b hb ↦ ?_⟩
    rw [List.mem_singleton.1 hb]
    exact hbalanced x (h.perm.mem_iff.1 hx) it hit

omit [DecidableEq ι] in
/-- When nothing is left the lists are merged. -/
theorem Merging.mergesTo (h : Merging val next tail out cut) (hleft : left cut = []) :
    MergesTo val (lists cut) (some (next, next .dummy)) := by
  obtain ⟨front, hout, hlinked⟩ := h.linked
  rw [← hout, h.last hleft] at hlinked
  refine ⟨next, next .dummy, out, rfl, hlinked.2, h.perm.trans ?_, h.sorted⟩
  have hall := perm_flatten_lists cut
  rwa [hleft, List.append_nil] at hall

/-! ### A run -/

/-- The container has the heads of the lists, with a least one in front, in every turn of a merge
of the given nodes. -/
structure Keeps (val : NodeRef ι → ℤ) (K : Container ι σ C) (Lawful : C → Prop)
    (Holds : σ → List (NodeRef ι) → Prop) (nodes : List (List (NodeRef ι))) : Prop where
  front_nil : ∀ c, Holds c [] → K.front c = none
  front : ∀ c heads, Holds c heads → heads ≠ [] →
    ∃ it ∈ heads, K.front c = some it ∧ ∀ b ∈ heads, val it ≤ val b
  replace : ∀ std, Lawful std → ∀ c before done it rest after,
    lists (before ++ (done, it :: rest) :: after) = nodes →
    Balanced val (before ++ (done, it :: rest) :: after) →
    Least val it (before ++ (done, it :: rest) :: after) →
    Holds c (heads (before ++ (done, it :: rest) :: after)) → K.front c = some it →
    ∃ c', K.replace std c rest.head? = some c' ∧
      Holds c' (heads (before ++ (done ++ [it], rest) :: after))

/-- **The loop** merges, with a container that keeps the heads. -/
theorem Keeps.mergeLoop_spec {Lawful : C → Prop} {Holds : σ → List (NodeRef ι) → Prop}
    (hK : Keeps val K Lawful Holds (lists cut)) (hsorted : AllSorted val (lists cut))
    (hturns : ∀ turn, Lawful (turns turn)) (h : Merging val next tail out cut)
    (hbalanced : Balanced val cut) (hc : Holds c (heads cut)) (hfuel : (left cut).length < fuel) :
    ∃ next', mergeLoop K fuel turns next tail c = some next' ∧
      MergesTo val (lists cut) (some (next', next' .dummy)) := by
  induction fuel generalizing turns next tail c out cut with
  | zero => exact absurd hfuel (Nat.not_lt_zero _)
  | succ fuel ih =>
    rcases eq_or_ne (heads cut) [] with hnil | hne
    · rw [mergeLoop, hK.front_nil c (hnil ▸ hc)]
      exact ⟨next, rfl, h.mergesTo (heads_eq_nil.1 hnil)⟩
    · obtain ⟨it, hit, hfront, hmin⟩ := hK.front c _ hc hne
      have hleast := hsorted.least hmin
      obtain ⟨before, done, rest, after, rfl⟩ := exists_of_mem_heads hit
      obtain ⟨hturn, hnext⟩ := h.turn hbalanced
      obtain ⟨c', hreplace, hc'⟩ := hK.replace (turns 0) (hturns 0) c before done it rest after rfl
        hbalanced hleast hc hfront
      have hlength : (left (before ++ (done, it :: rest) :: after)).length =
          (left (before ++ (done ++ [it], rest) :: after)).length + 1 := left_take_perm.length_eq
      rw [mergeLoop, hfront]
      simp only [hnext, hreplace, Option.bind_eq_bind, Option.bind_some]
      rw [← lists_take] at hK hsorted ⊢
      exact ih hK hsorted (fun turn ↦ hturns (turn + 1)) hturn (hbalanced.take hleast) hc'
        (by omega)

/-- Before the loop nothing is linked. -/
theorem Lists.merging {ls : List (NodeRef ι)} (h : Lists val next ls nodes) :
    Merging val (update next .dummy none) .dummy [] (start nodes) where
  linked := ⟨[], rfl, rfl, rfl⟩
  last _ := update_self ..
  seg p hp := by
    obtain ⟨xs, hxs, rfl⟩ := List.mem_map.1 hp
    exact (h.seg xs hxs).congr fun a ha ↦ update_of_ne
      (ne_of_mem_of_not_mem (List.mem_flatten_of_mem hxs ha) h.notMem) ..
  nodup := by
    rw [left_start]
    exact List.nodup_cons.2 ⟨h.notMem, h.nodup⟩
  perm := by rw [taken_start]
  sorted := .nil

omit [DecidableEq ι] in
theorem Lists.heads_start {ls : List (NodeRef ι)} (h : Lists val next ls nodes) :
    KWayMerge.heads (start nodes) = ls := by
  have heads := congrArg (List.filterMap id) h.heads
  rw [List.filterMap_map, List.filterMap_map] at heads
  rw [KWayMerge.heads_start]
  exact heads.trans (List.filterMap_some ..)

/-- From the first turn on. -/
theorem Keeps.ends {Lawful : C → Prop} {Holds : σ → List (NodeRef ι) → Prop}
    {ls : List (NodeRef ι)} (hK : Keeps val K Lawful Holds nodes) (h : Lists val next ls nodes)
    (hturns : ∀ turn, Lawful (turns turn)) (hc : Holds c ls) :
    Ends val nodes fun fuel ↦ mergeFrom K fuel turns next c := by
  refine ⟨nodes.flatten.length + 1, fun fuel hfuel ↦ ?_⟩
  have hlists := lists_start nodes
  have hsorted := h.sorted
  rw [← hlists] at hK hsorted
  obtain ⟨next', hrun, hmerges⟩ := hK.mergeLoop_spec hsorted hturns h.merging balanced_start
    (h.heads_start.symm ▸ hc) (by rw [left_start]; exact hfuel)
  rw [hlists] at hmerges
  simp only [mergeFrom, hrun, Option.bind_eq_bind, Option.bind_some]
  exact hmerges

/-! ### The multimap -/

section Map

variable {mp : List (ℤ × NodeRef ι)} {e : ℤ × NodeRef ι} {l : NodeRef ι} {hs : List (NodeRef ι)}

/-- The elements are in the order of their keys, which are the values of the given nodes. -/
structure MapHolds (val : NodeRef ι → ℤ) (mp : List (ℤ × NodeRef ι)) (hs : List (NodeRef ι)) :
    Prop where
  sorted : mp.Pairwise (·.1 ≤ ·.1)
  key : ∀ e ∈ mp, e.1 = val e.2
  perm : (mp.map Prod.snd).Perm hs

omit [DecidableEq ι]

theorem emplace_perm : (emplace val mp l).Perm ((val l, l) :: mp) :=
  List.perm_insertIdx _ mp (List.takeWhile_sublist _).length_le

theorem upperBound_cons_of_le (h : e.1 ≤ val l) :
    upperBound (e :: mp) (val l) = upperBound mp (val l) + 1 := by
  rw [upperBound, List.takeWhile_cons_of_pos (by simpa using h)]
  rfl

theorem emplace_cons_of_le (h : e.1 ≤ val l) :
    emplace val (e :: mp) l = e :: emplace val mp l := by
  rw [emplace, upperBound_cons_of_le h]
  rfl

theorem emplace_cons_of_lt (h : val l < e.1) :
    emplace val (e :: mp) l = (val l, l) :: e :: mp := by
  rw [emplace, upperBound, List.takeWhile_cons_of_neg (by simpa using h)]
  rfl

/-- The map stays in order. -/
theorem pairwise_emplace (h : mp.Pairwise (·.1 ≤ ·.1)) :
    (emplace val mp l).Pairwise (·.1 ≤ ·.1) := by
  induction mp with
  | nil => exact List.pairwise_singleton _ _
  | cons e mp ih =>
    obtain ⟨he, hmp⟩ := List.pairwise_cons.1 h
    rcases le_or_gt e.1 (val l) with hle | hlt
    · rw [emplace_cons_of_le hle]
      refine List.pairwise_cons.2 ⟨fun x hx ↦ ?_, ih hmp⟩
      rcases List.mem_cons.1 (emplace_perm.mem_iff.1 hx) with rfl | hx
      · exact hle
      · exact he x hx
    · rw [emplace_cons_of_lt hlt]
      refine List.pairwise_cons.2 ⟨fun x hx ↦ ?_, h⟩
      rcases List.mem_cons.1 hx with rfl | hx
      · exact hlt.le
      · exact hlt.le.trans (he x hx)

theorem MapHolds.emplace (h : MapHolds val mp hs) : MapHolds val (emplace val mp l) (l :: hs) where
  sorted := pairwise_emplace h.sorted
  key e he := by
    rcases List.mem_cons.1 (emplace_perm.mem_iff.1 he) with rfl | he
    · rfl
    · exact h.key e he
  perm := (emplace_perm.map Prod.snd).trans (h.perm.cons l)

theorem MapHolds.congr {hs' : List (NodeRef ι)} (h : MapHolds val mp hs) (hperm : hs.Perm hs') :
    MapHolds val mp hs' :=
  ⟨h.sorted, h.key, h.perm.trans hperm⟩

theorem MapHolds.foldl {ls : List (NodeRef ι)} (h : MapHolds val mp hs) :
    MapHolds val (ls.foldl (MergeLists.emplace val) mp) (ls ++ hs) := by
  induction ls generalizing mp hs with
  | nil => exact h
  | cons l ls ih => exact (ih h.emplace).congr List.perm_middle

/-- The map keeps the heads. -/
theorem mapContainer_keeps :
    Keeps val (mapContainer val) (fun _ ↦ True) (MapHolds val) nodes where
  front_nil mp h := by
    rw [List.map_eq_nil_iff.1 h.perm.eq_nil]
    rfl
  front mp hs h hne := by
    cases mp with
    | nil => exact absurd h.perm.symm.eq_nil hne
    | cons e mp =>
      refine ⟨e.2, h.perm.mem_iff.1 List.mem_cons_self, rfl, fun b hb ↦ ?_⟩
      obtain ⟨e', he', rfl⟩ := List.mem_map.1 (h.perm.mem_iff.2 hb)
      rw [← h.key e List.mem_cons_self, ← h.key e' he']
      rcases List.mem_cons.1 he' with rfl | he'
      · exact le_refl _
      · exact (List.pairwise_cons.1 h.sorted).1 e' he'
  replace _ _ mp before done it rest after _ _ hleast h hfront := by
    cases mp with
    | nil => cases hfront
    | cons e mp =>
      obtain rfl := Option.some.inj hfront
      have hothers : MapHolds val mp (heads (before ++ after)) :=
        ⟨(List.pairwise_cons.1 h.sorted).2, fun e' he' ↦ h.key e' (List.mem_cons_of_mem e he'),
          (h.perm.trans heads_perm).cons_inv⟩
      have hperm : (heads (before ++ (done ++ [e.2], rest) :: after)).Perm
          (rest.head?.toList ++ heads (before ++ after)) := heads_take_perm
      cases rest with
      | nil => exact ⟨mp, rfl, hothers.congr hperm.symm⟩
      | cons w rest =>
        have hle : e.1 ≤ val w := by
          rw [h.key e List.mem_cons_self]
          exact hleast w (left_take_perm.mem_iff.2 (List.mem_cons_of_mem _
            (mem_left (List.mem_append_right _ List.mem_cons_self) List.mem_cons_self)))
        refine ⟨MergeLists.emplace val mp w, ?_, hothers.emplace.congr hperm.symm⟩
        simp only [mapContainer, List.head?_cons, emplace_cons_of_le hle, upperBound_cons_of_le hle,
          Nat.succ_ne_zero, if_false, List.eraseIdx_zero, List.tail_cons]

end Map

/-- **`mergeListsMap`** is right for every sorted lists. -/
theorem mergeListsMap_spec {ls : List (NodeRef ι)} (h : Lists val next ls nodes) :
    Ends val nodes fun fuel ↦ mergeListsMap val fuel next ls := by
  have hholds : MapHolds val [] [] := ⟨.nil, fun e he ↦ absurd he List.not_mem_nil, .nil⟩
  exact mapContainer_keeps.ends h (fun _ ↦ trivial)
    (hholds.foldl.congr (by rw [List.append_nil]))

/-! ### The heaps -/

omit [DecidableEq ι] in
/-- The comparison of the heap is a strict weak order. -/
theorem strictWeakOrder_comp (val : NodeRef ι → ℤ) : StrictWeakOrder (comp val) where
  irrefl a := by simp [comp]
  trans a b c hab hbc := by
    rw [comp, decide_eq_true_iff] at hab hbc ⊢
    exact lt_trans hbc hab
  incomp_trans a b c hab hbc := by
    simp only [comp, decide_eq_true_iff] at hab hbc ⊢
    omega


section Heap

variable {std : HeapImplementation (NodeRef ι)} {calls : ℕ → HeapImplementation (NodeRef ι)}
  {pq pq' hs : List (NodeRef ι)} {x : NodeRef ι}

/-- A heap of the given nodes. -/
structure HeapHolds (val : NodeRef ι → ℤ) (pq hs : List (NodeRef ι)) : Prop where
  heap : IsHeap (comp val) pq
  perm : pq.Perm hs

omit [DecidableEq ι]

theorem comp_eq_false {a b : NodeRef ι} : comp val a b = false ↔ val a ≤ val b := by
  rw [comp, decide_eq_false_iff_not, gt_iff_lt, not_lt]

theorem HeapHolds.congr {hs' : List (NodeRef ι)} (h : HeapHolds val pq hs)
    (hperm : hs.Perm hs') : HeapHolds val pq hs' :=
  ⟨h.heap, h.perm.trans hperm⟩

/-- The head on top has the least value. -/
theorem HeapHolds.le (h : HeapHolds val (it :: pq) hs) : ∀ b ∈ hs, val it ≤ val b := by
  have := strictWeakOrder_comp val
  exact fun b hb ↦ comp_eq_false.1 (h.heap.top b (h.perm.mem_iff.2 hb))

/-- A push adds a head. -/
theorem push_spec (hstd : LawfulHeap std) (h : HeapHolds val pq hs) :
    ∃ pq', push val std pq x = some pq' ∧ HeapHolds val pq' (x :: hs) := by
  obtain ⟨hperm, hheap⟩ := hstd.push (comp val) (strictWeakOrder_comp val) pq x h.heap
  refine ⟨_, if_pos ⟨List.append_ne_nil_of_right_ne_nil _ (List.cons_ne_nil _ _), ?_⟩, hheap,
    hperm.trans ((List.perm_append_singleton x pq).trans (h.perm.cons x))⟩
  rw [List.dropLast_concat]
  exact h.heap

/-- A pop removes the head on top. -/
theorem pop_spec (hstd : LawfulHeap std) (h : HeapHolds val (it :: pq) (it :: hs)) :
    ∃ pq', pop val std (it :: pq) = some pq' ∧ HeapHolds val pq' hs := by
  obtain ⟨pq', heq, hperm, hheap⟩ := hstd.pop (comp val) (strictWeakOrder_comp val) it pq h.heap
  refine ⟨pq', ?_, hheap, hperm.trans h.perm.cons_inv⟩
  rw [pop, popHeap, if_pos ⟨List.cons_ne_nil _ _, h.heap⟩, heq, Option.map_some,
    List.dropLast_concat]

/-- The heads at the turn of `it`, with `w` behind it. -/
theorem Mergeable.heads (h : Mergeable val (lists (before ++ (done, it :: w :: rest) :: after)))
    (hbalanced : Balanced val (before ++ (done, it :: w :: rest) :: after))
    (hleast : Least val it (before ++ (done, it :: w :: rest) :: after)) :
    val it < val w ∧ (∀ b ∈ heads (before ++ after), val it < val b) ∧
      (heads (before ++ after)).countP (val w < val ·) ≤ (heads (before ++ after)).length % 2 := by
  obtain ⟨hw, hothers, hcount⟩ := h (lists before) done it w rest (lists after)
    (by rw [lists_append, lists_cons])
  rw [← lists_append] at hothers hcount
  rw [hbalanced.heads_eq hleast hothers]
  exact ⟨hw, hothers, hcount⟩

theorem HeapHolds.head?_nil (h : HeapHolds val pq []) : pq.head? = none := by
  rw [h.perm.eq_nil]
  rfl

/-- The front is a least one. -/
theorem HeapHolds.head? (h : HeapHolds val pq hs) (hne : hs ≠ []) :
    ∃ it ∈ hs, pq.head? = some it ∧ ∀ b ∈ hs, val it ≤ val b := by
  cases pq with
  | nil => exact absurd h.perm.symm.eq_nil hne
  | cons it pq => exact ⟨it, h.perm.mem_iff.1 List.mem_cons_self, rfl, h.le⟩

/-- A turn of the queue, if the front node is still on top after its successor has been pushed. -/
theorem pqContainer_replace_of_head? (hstd : LawfulHeap std)
    (hpq : HeapHolds val (it :: pq) (it :: hs)) {w : Option (NodeRef ι)}
    (htop : ∀ x ∈ w, ∀ pq', push val std (it :: pq) x = some pq' →
      HeapHolds val pq' (x :: it :: hs) → pq'.head? = some it) :
    ∃ pq', (pqContainer val).replace std (it :: pq) w = some pq' ∧
      HeapHolds val pq' (w.toList ++ hs) := by
  cases w with
  | none => exact pop_spec hstd hpq
  | some w =>
    obtain ⟨pq₁, hpush, hpq₁⟩ := push_spec (x := w) hstd hpq
    obtain ⟨pq₁, rfl⟩ := List.head?_eq_some_iff.1 (htop w rfl pq₁ hpush hpq₁)
    obtain ⟨pq', hpop, hholds⟩ := pop_spec hstd (hpq₁.congr (.swap ..))
    refine ⟨pq', ?_, hholds⟩
    simp only [pqContainer, Option.toList_some, List.foldlM_cons, List.foldlM_nil, hpush,
      Option.bind_eq_bind, Option.bind_some, Option.pure_def, hpop]

/-- The queue keeps the heads of lists that can be merged. -/
theorem pqContainer_keeps (h : Mergeable val nodes) :
    Keeps val (pqContainer val) LawfulHeap (HeapHolds val) nodes where
  front_nil _ hpq := hpq.head?_nil
  front _ _ hpq hne := hpq.head? hne
  replace std hstd pq before done it rest after hnodes hbalanced hleast hpq hfront := by
    obtain ⟨pq, rfl⟩ := List.head?_eq_some_iff.1 hfront
    obtain ⟨pq', hreplace, hpq'⟩ := pqContainer_replace_of_head? hstd (hpq.congr heads_perm)
      (w := rest.head?) fun w hw pq₁ _ hpq₁ ↦ by
        obtain ⟨rest, rfl⟩ := List.head?_eq_some_iff.1 hw
        obtain ⟨hlt, hothers, -⟩ := Mergeable.heads (hnodes ▸ h) hbalanced hleast
        -- no other node can be on top
        obtain ⟨top, htop, hfront₁, hle⟩ := hpq₁.head? (List.cons_ne_nil _ _)
        have hit := hle it (List.mem_cons_of_mem w List.mem_cons_self)
        rcases List.mem_cons.1 htop with rfl | htop
        · exact absurd hlt hit.not_gt
        · rcases List.mem_cons.1 htop with rfl | htop
          · exact hfront₁
          · exact absurd (hothers top htop) hit.not_gt
    exact ⟨pq', hreplace, hpq'.congr heads_take_perm.symm⟩

/-- A new element does not come to the front unless it is above the front. -/
def KeepsTop (std : HeapImplementation (NodeRef ι)) : Prop :=
  ∀ comp it pq x, IsHeap comp (it :: pq) → comp it x = false →
    (std.pushHeap comp (it :: pq ++ [x])).head? = some it

/-- And those of all lists, if a push keeps what is on top. -/
theorem pqContainer_keeps_of_keepsTop :
    Keeps val (pqContainer val) (fun std ↦ LawfulHeap std ∧ KeepsTop std) (HeapHolds val)
      nodes where
  front_nil _ hpq := hpq.head?_nil
  front _ _ hpq hne := hpq.head? hne
  replace std hstd pq before done it rest after _ _ hleast hpq hfront := by
    obtain ⟨pq, rfl⟩ := List.head?_eq_some_iff.1 hfront
    obtain ⟨pq', hreplace, hpq'⟩ := pqContainer_replace_of_head? hstd.1 (hpq.congr heads_perm)
      (w := rest.head?) fun w hw pq₁ hpush _ ↦ by
        have hle := hleast w (mem_left (List.mem_append_right _ List.mem_cons_self)
          (List.mem_cons_of_mem it (List.mem_of_mem_head? hw)))
        have htop := hstd.2 (comp val) it pq w hpq.heap (comp_eq_false.2 hle)
        rw [push, pushHeap] at hpush
        split at hpush
        · rwa [← Option.some.inj hpush]
        · cases hpush
    exact ⟨pq', hreplace, hpq'.congr heads_take_perm.symm⟩

/-- The vector keeps the heads of lists that can be merged. -/
theorem heapContainer_keeps (h : Mergeable val nodes) :
    Keeps val (heapContainer val) LawfulHeap (HeapHolds val) nodes where
  front_nil _ hpq := hpq.head?_nil
  front _ _ hpq hne := hpq.head? hne
  replace std hstd pq before done it rest after hnodes hbalanced hleast hpq hfront := by
    have := strictWeakOrder_comp val
    obtain ⟨pq, rfl⟩ := List.head?_eq_some_iff.1 hfront
    have hperm : (KWayMerge.heads (before ++ (done ++ [it], rest) :: after)).Perm
        (rest.head?.toList ++ KWayMerge.heads (before ++ after)) := heads_take_perm
    replace hpq := hpq.congr heads_perm
    have hheap : IsHeap (comp val) (it :: pq ++ rest.head?.toList) := by
      cases rest with
      | nil =>
        rw [List.head?_nil, Option.toList_none, List.append_nil]
        exact hpq.heap
      | cons w rest =>
        obtain ⟨hw, -, hcount⟩ := Mergeable.heads (hnodes ▸ h) hbalanced hleast
        have hothers := hpq.perm.cons_inv
        refine isHeap_concat_of_countP hpq.heap (comp_eq_false.2 hw.le) ?_
        rw [hothers.countP_eq, hothers.length_eq]
        exact hcount
    have hholds : HeapHolds val (it :: (pq ++ rest.head?.toList))
        (it :: (rest.head?.toList ++ KWayMerge.heads (before ++ after))) :=
      ⟨hheap, ((hpq.perm.cons_inv.append_right _).trans List.perm_append_comm).cons it⟩
    obtain ⟨pq', hpop, hpq'⟩ := pop_spec hstd hholds
    exact ⟨pq', hpop, hpq'.congr hperm.symm⟩

/-- The queue is filled with the heads. -/
theorem foldlM_push (ls : List (NodeRef ι)) (hstd : LawfulHeap std) (h : HeapHolds val pq hs) :
    ∃ pq', ls.foldlM (push val std) pq = some pq' ∧ HeapHolds val pq' (ls ++ hs) := by
  induction ls generalizing pq hs with
  | nil => exact ⟨pq, rfl, h⟩
  | cons l ls ih =>
    obtain ⟨pq₁, hpush, hpq₁⟩ := push_spec (x := l) hstd h
    obtain ⟨pq', hfold, hholds⟩ := ih hpq₁
    refine ⟨pq', ?_, hholds.congr List.perm_middle⟩
    rw [List.foldlM_cons, hpush]
    exact hfold

/-- The vector is made a heap of the heads. -/
theorem makeHeap_spec {ls : List (NodeRef ι)} (hstd : LawfulHeap std) :
    HeapHolds val (std.makeHeap (comp val) ls) ls := by
  obtain ⟨hperm, hheap⟩ := hstd.make (comp val) (strictWeakOrder_comp val) ls
  exact ⟨hheap, hperm⟩

theorem heapHolds_nil : HeapHolds val ([] : List (NodeRef ι)) [] := ⟨isHeap_nil, .nil⟩

end Heap

/-- The queue may be used like this if a node that is pushed does not get on top of an equal one. -/
theorem mergeListsPq_of_keepsTop {ls : List (NodeRef ι)} (h : Lists val next ls nodes)
    {calls : ℕ → HeapImplementation (NodeRef ι)} (hcalls : ∀ call, LawfulHeap (calls call))
    (htop : ∀ call, KeepsTop (calls call)) :
    Ends val nodes fun fuel ↦ mergeListsPq val calls fuel next ls := by
  obtain ⟨pq, hfold, hpq⟩ := foldlM_push ls (hcalls 0) heapHolds_nil
  rw [List.append_nil] at hpq
  obtain ⟨n, hn⟩ := pqContainer_keeps_of_keepsTop.ends h
    (fun turn ↦ ⟨hcalls (turn + 1), htop (turn + 1)⟩) hpq
  refine ⟨n, fun fuel hfuel ↦ ?_⟩
  simp only [mergeListsPq, hfold, Option.bind_eq_bind, Option.bind_some]
  exact hn fuel hfuel

/-- The condition is enough for all three functions. -/
theorem mergesRight_of_mergeable {ls : List (NodeRef ι)} (h : Lists val next ls nodes)
    (hmergeable : Mergeable val nodes) : MergesRight val next ls nodes where
  map := mergeListsMap_spec h
  pq calls hcalls := by
    obtain ⟨pq, hfold, hpq⟩ := foldlM_push ls (hcalls 0) heapHolds_nil
    rw [List.append_nil] at hpq
    obtain ⟨n, hn⟩ := (pqContainer_keeps hmergeable).ends h (fun turn ↦ hcalls (turn + 1)) hpq
    refine ⟨n, fun fuel hfuel ↦ ?_⟩
    simp only [mergeListsPq, hfold, Option.bind_eq_bind, Option.bind_some]
    exact hn fuel hfuel
  heap calls hcalls :=
    (heapContainer_keeps hmergeable).ends h (fun turn ↦ hcalls (turn + 1))
      (makeHeap_spec (hcalls 0))

/-! ### What is needed -/

section Needed

variable {K : Container ι (List (NodeRef ι)) (HeapImplementation (NodeRef ι))}
  {std : HeapImplementation (NodeRef ι)} {pq hs ls : List (NodeRef ι)}

/-- The loop ends, whatever implementations its calls use. -/
def Runs (K : Container ι (List (NodeRef ι)) (HeapImplementation (NodeRef ι))) (next : Next ι)
    (tail : NodeRef ι) (pq : List (NodeRef ι)) : Prop :=
  ∀ turns, (∀ turn, LawfulHeap (turns turn)) →
    ∃ n, ∀ fuel ≥ n, ∃ next', mergeLoop K fuel turns next tail pq = some next'

theorem Runs.turn (h : Runs K next tail pq) (hfront : K.front pq = some it)
    (hstd : LawfulHeap std) :
    ∃ pq', K.replace std pq (update next tail (some it) it) = some pq' ∧
      Runs K (update next tail (some it)) it pq' := by
  have hturn : ∀ fuel turns, mergeLoop K (fuel + 1) turns next tail pq =
      (K.replace (turns 0) pq (update next tail (some it) it)).bind fun pq' ↦
        mergeLoop K fuel (fun turn ↦ turns (turn + 1)) (update next tail (some it)) it pq' :=
    fun fuel turns ↦ by
      rw [mergeLoop, hfront]
      rfl
  obtain ⟨n, hn⟩ := h (fun _ ↦ std) fun _ ↦ hstd
  obtain ⟨next', hrun⟩ := hn (n + 1) (Nat.le_succ n)
  rw [hturn] at hrun
  obtain ⟨pq', hreplace, -⟩ := Option.bind_eq_some_iff.1 hrun
  refine ⟨pq', hreplace, fun turns hturns ↦ ?_⟩
  obtain ⟨n, hn⟩ := h (fun | 0 => std | turn + 1 => turns turn) fun
    | 0 => hstd
    | turn + 1 => hturns turn
  refine ⟨n, fun fuel hfuel ↦ ?_⟩
  obtain ⟨next', hrun⟩ := hn (fuel + 1) (Nat.le_succ_of_le hfuel)
  rw [hturn, hreplace] at hrun
  exact ⟨next', hrun⟩

/-- Whatever the order of a heap after a turn is, some implementation leaves it. -/
structure Free (val : NodeRef ι → ℤ)
    (K : Container ι (List (NodeRef ι)) (HeapImplementation (NodeRef ι))) : Prop where
  front : ∀ it pq, K.front (it :: pq) = some it
  replace : ∀ it pq hs w pq₁ pq₂ std₁, HeapHolds val (it :: pq) (it :: hs) →
    (∀ b ∈ w, val it ≤ val b) → K.replace std₁ (it :: pq) w = some pq₁ →
    HeapHolds val pq₂ (w.toList ++ hs) →
    ∃ std₂, LawfulHeap std₂ ∧ K.replace std₂ (it :: pq) w = some pq₂

/-- **Every balanced cut** is reached, with the heads in any order. -/
theorem Free.runs (hK : Free val K) (h : Lists val next ls nodes)
    (hstart : ∀ pq, HeapHolds val pq ls → Runs K (update next .dummy none) .dummy pq)
    (hnodes : lists cut = nodes) (hbalanced : Balanced val cut)
    (hpq : HeapHolds val pq (heads cut)) :
    ∃ next' tail out, Merging val next' tail out cut ∧ Runs K next' tail pq := by
  have := strictWeakOrder_comp val
  obtain ⟨n, hn⟩ : ∃ n, (taken cut).length = n := ⟨_, rfl⟩
  induction n generalizing cut pq with
  | zero =>
    have hcut := eq_start (List.length_eq_zero_iff.1 hn)
    rw [hnodes] at hcut
    rw [hcut, h.heads_start] at hpq
    exact ⟨_, _, _, hcut ▸ h.merging, hstart pq hpq⟩
  | succ n ih =>
    obtain ⟨before, done, it, rest, after, rfl, hbefore, hleast⟩ :=
      hbalanced.exists_take (hnodes ▸ h.sorted) fun hnil ↦ by
        rw [hnil] at hn
        cases hn
    have htaken : (taken (before ++ (done, it :: rest) :: after)).length = n := by
      rw [taken_take_perm.length_eq, List.length_append, List.length_singleton] at hn
      exact Nat.succ.inj hn
    rw [lists_take] at hnodes
    have hle : ∀ b ∈ KWayMerge.heads (before ++ (done, it :: rest) :: after), val it ≤ val b :=
      fun b hb ↦ hleast b (heads_sublist_left.subset hb)
    have hheap : HeapHolds val (it :: descending (comp val) (KWayMerge.heads (before ++ after)))
        (it :: KWayMerge.heads (before ++ after)) :=
      ⟨isHeap_cons_descending fun b hb ↦ comp_eq_false.2
        (hle b (heads_perm.mem_iff.2 (List.mem_cons_of_mem it hb))), descending_perm.cons it⟩
    obtain ⟨next', tail, out, hmerging, hruns⟩ :=
      ih hnodes hbefore (hheap.congr heads_perm.symm) htaken
    obtain ⟨hmerging', hnext⟩ := hmerging.turn hbefore
    have hstd : LawfulHeap (choosing id id : HeapImplementation (NodeRef ι)) := lawful_choosing
    obtain ⟨pq₁, hreplace₁, -⟩ := hruns.turn (hK.front ..) hstd
    rw [hnext] at hreplace₁
    have hw : ∀ b ∈ rest.head?, val it ≤ val b := fun b hb ↦ hleast b
      (mem_left (List.mem_append_right _ List.mem_cons_self)
        (List.mem_cons_of_mem it (List.mem_of_mem_head? hb)))
    obtain ⟨std, hstd, hreplace⟩ := hK.replace _ _ _ _ _ _ _ hheap hw hreplace₁
      (hpq.congr heads_take_perm)
    obtain ⟨pq₂, hreplace₂, hruns₂⟩ := hruns.turn (hK.front ..) hstd
    rw [hnext, hreplace] at hreplace₂
    exact ⟨_, _, _, hmerging', Option.some.inj hreplace₂ ▸ hruns₂⟩

/-- **The turn of every node** with a successor comes, with the other heads in any order. -/
theorem Free.exists_runs (hK : Free val K) (h : Lists val next ls nodes)
    (hstart : ∀ pq, HeapHolds val pq ls → Runs K (update next .dummy none) .dummy pq)
    {before after : List (List (NodeRef ι))}
    (hnodes : nodes = before ++ (done ++ a :: w :: rest) :: after) :
    (∀ b ∈ w :: headsAt val a (before ++ after), b ≠ a ∧ val a ≤ val b) ∧
      ∀ pq, HeapHolds val (a :: pq) (a :: headsAt val a (before ++ after)) →
        ∃ next' tail, update next' tail (some a) a = some w ∧ Runs K next' tail (a :: pq) := by
  have hsorted := h.sorted
  rw [hnodes] at hsorted
  obtain ⟨before', after', hlists, hbalanced, hleast, hheads⟩ := exists_cut hsorted
  rw [← hheads]
  refine ⟨fun b hb ↦ ?_, fun pq hpq ↦ ?_⟩
  · have hb' : b ∈ left (before' ++ (done ++ [a], w :: rest) :: after') :=
      heads_sublist_left.subset (heads_take_perm.mem_iff.2 hb)
    have hnodup : (a :: left (before' ++ (done ++ [a], w :: rest) :: after')).Nodup := by
      have hall := h.nodup
      rw [hnodes, ← hlists] at hall
      have hleft := (List.nodup_append.1 ((perm_flatten_lists _).nodup_iff.2 hall)).2.1
      exact left_take_perm.nodup_iff.1 hleft
    exact ⟨ne_of_mem_of_not_mem hb' (List.nodup_cons.1 hnodup).1,
      hleast b (left_take_perm.mem_iff.2 (List.mem_cons_of_mem a hb'))⟩
  · obtain ⟨next', tail, out, hmerging, hruns⟩ :=
      hK.runs h hstart (hlists.trans hnodes.symm) hbalanced (hpq.congr heads_perm.symm)
    exact ⟨next', tail, (hmerging.turn hbalanced).2, hruns⟩

/-! ### The functions, in any order -/

/-- A push may leave any heap. -/
theorem push_choosing {choose choosePop : List (NodeRef ι) → List (NodeRef ι)} {x : NodeRef ι}
    (hpq : IsHeap (comp val) pq) :
    push val (choosing choose choosePop) pq x = some (arrange choose (comp val) (pq ++ [x])) := by
  refine if_pos ⟨List.append_ne_nil_of_right_ne_nil _ (List.cons_ne_nil _ _), ?_⟩
  rwa [List.dropLast_concat]

/-- A pop may leave any heap. -/
theorem pop_choosing {choose choosePop : List (NodeRef ι) → List (NodeRef ι)}
    (hpq : IsHeap (comp val) (it :: pq)) :
    pop val (choosing choose choosePop) (it :: pq) = some (arrange choosePop (comp val) pq) := by
  rw [pop, popHeap, if_pos ⟨List.cons_ne_nil _ _, hpq⟩, Option.map_some]
  exact congrArg some List.dropLast_concat

omit [DecidableEq ι] in
/-- A pop that is defined has found a heap. -/
theorem isHeap_of_pop {pq' : List (NodeRef ι)} (h : pop val std pq = some pq') :
    IsHeap (comp val) pq := by
  by_contra hnot
  rw [pop, popHeap, if_neg fun hall ↦ hnot hall.2] at h
  cases h

/-- A turn of the queue in which `x` is on top after `w` has been pushed. -/
theorem pqContainer_replace (choosePop : List (NodeRef ι) → List (NodeRef ι)) {x : NodeRef ι}
    (hpq : IsHeap (comp val) (it :: pq)) (hx : x ∈ it :: pq ++ [w])
    (htop : ∀ b ∈ it :: pq ++ [w], val x ≤ val b) :
    (pqContainer val).replace (choosing (favour (comp val) x) choosePop) (it :: pq) (some w) =
      some (arrange choosePop (comp val) (descending (comp val) ((it :: pq ++ [w]).erase x))) := by
  have := strictWeakOrder_comp val
  have htop' : ∀ b ∈ it :: pq ++ [w], comp val x b = false := fun b hb ↦
    comp_eq_false.2 (htop b hb)
  have hheap := isHeap_favour htop'
  simp only [pqContainer, Option.toList_some, List.foldlM_cons, List.foldlM_nil,
    push_choosing hpq, arrange_favour hx htop', Option.bind_eq_bind, Option.bind_some,
    Option.pure_def]
  rw [favour] at hheap ⊢
  exact pop_choosing hheap

/-- The queue can be brought into any order. -/
theorem free_pqContainer : Free val (pqContainer val) where
  front _ _ := rfl
  replace it pq hs w pq₁ pq₂ std₁ hpq hw hreplace₁ hpq₂ := by
    refine ⟨choosing (favour (comp val) it) fun _ ↦ pq₂, lawful_choosing, ?_⟩
    have hperm : pq₂.Perm (pq ++ w.toList) :=
      hpq₂.perm.trans (List.perm_append_comm.trans (hpq.perm.cons_inv.symm.append_right _))
    cases w with
    | none =>
      refine (pop_choosing hpq.heap).trans (congrArg some ?_)
      exact arrange_of_isHeap (by rwa [Option.toList_none, List.append_nil] at hperm) hpq₂.heap
    | some w =>
      have htop : ∀ b ∈ it :: pq ++ [w], val it ≤ val b := by
        rw [List.forall_mem_append, List.forall_mem_singleton]
        exact ⟨fun b hb ↦ hpq.le b (hpq.perm.mem_iff.1 hb), hw w rfl⟩
      rw [pqContainer_replace _ hpq.heap (List.mem_append_left _ List.mem_cons_self) htop]
      refine congrArg some (arrange_of_isHeap (hperm.trans ?_) hpq₂.heap)
      rw [List.cons_append, List.erase_cons_head]
      exact descending_perm.symm

/-- The vector can be brought into any order. -/
theorem free_heapContainer : Free val (heapContainer val) where
  front _ _ := rfl
  replace it pq hs w pq₁ pq₂ std₁ hpq hw hreplace₁ hpq₂ := by
    refine ⟨choosing id fun _ ↦ pq₂, lawful_choosing, ?_⟩
    have hperm : pq₂.Perm (pq ++ w.toList) :=
      hpq₂.perm.trans (List.perm_append_comm.trans (hpq.perm.cons_inv.symm.append_right _))
    refine (pop_choosing (isHeap_of_pop hreplace₁)).trans (congrArg some ?_)
    exact arrange_of_isHeap hperm hpq₂.heap

theorem exists_of_mergesTo {turns : ℕ → HeapImplementation (NodeRef ι)}
    (h : MergesTo val nodes (mergeFrom K fuel turns next pq)) :
    ∃ next', mergeLoop K fuel turns (update next .dummy none) .dummy pq = some next' := by
  obtain ⟨next', head, xs, heq, -⟩ := h
  obtain ⟨next₁, hrun, -⟩ := Option.bind_eq_some_iff.1 heq
  exact ⟨next₁, hrun⟩

/-- The heap may have any order before the first turn. -/
theorem runs_mergeListsHeap (h : MergesRight val next ls nodes) (hpq : HeapHolds val pq ls) :
    Runs (heapContainer val) (update next .dummy none) .dummy pq := by
  intro turns hturns
  obtain ⟨n, hn⟩ := h.heap (fun | 0 => choosing (fun _ ↦ pq) id | turn + 1 => turns turn) fun
    | 0 => lawful_choosing
    | turn + 1 => hturns turn
  refine ⟨n, fun fuel hfuel ↦ ?_⟩
  have hmake : arrange (fun _ ↦ pq) (comp val) ls = pq := arrange_of_isHeap hpq.perm hpq.heap
  have hmerges := hn fuel hfuel
  simp only [mergeListsHeap, choosing, hmake] at hmerges
  exact exists_of_mergesTo hmerges

theorem foldlM_push_choosing (hpq : HeapHolds val pq ls) :
    ls.foldlM (push val (choosing (fun _ ↦ pq) id)) [] = some pq := by
  rcases List.eq_nil_or_concat ls with rfl | ⟨ls, l, rfl⟩
  · rw [hpq.perm.eq_nil]
    rfl
  · have hstd : LawfulHeap (choosing (fun _ ↦ pq) id) := lawful_choosing
    have hnil : HeapHolds val [] [] := heapHolds_nil
    obtain ⟨pq₁, hfold, hpq₁⟩ := foldlM_push ls hstd hnil
    rw [List.append_nil] at hpq₁
    rw [List.concat_eq_append] at hpq ⊢
    rw [List.foldlM_append, hfold, Option.bind_eq_bind, Option.bind_some, List.foldlM_cons,
      push_choosing hpq₁.heap]
    refine congrArg some ?_
    exact arrange_of_isHeap (hpq.perm.trans (hpq₁.perm.symm.append_right _)) hpq.heap

theorem runs_mergeListsPq (h : MergesRight val next ls nodes) (hpq : HeapHolds val pq ls) :
    Runs (pqContainer val) (update next .dummy none) .dummy pq := by
  intro turns hturns
  obtain ⟨n, hn⟩ := h.pq (fun | 0 => choosing (fun _ ↦ pq) id | turn + 1 => turns turn) fun
    | 0 => lawful_choosing
    | turn + 1 => hturns turn
  refine ⟨n, fun fuel hfuel ↦ ?_⟩
  have hmerges := hn fuel hfuel
  simp only [mergeListsPq, foldlM_push_choosing hpq, Option.bind_eq_bind, Option.bind_some]
    at hmerges
  exact exists_of_mergesTo hmerges

/-- The successor can be appended to the heads in any order. -/
theorem countP_of_mergesRight (hlists : Lists val next ls nodes) (h : MergesRight val next ls nodes)
    {before after : List (List (NodeRef ι))}
    (hnodes : nodes = before ++ (done ++ a :: w :: rest) :: after) :
    (headsAt val a (before ++ after)).countP (val w < val ·) ≤
      (headsAt val a (before ++ after)).length % 2 := by
  have := strictWeakOrder_comp val
  obtain ⟨hle, hruns⟩ :=
    free_heapContainer.exists_runs hlists (fun pq ↦ runs_mergeListsHeap h) hnodes
  obtain ⟨hw, hothers⟩ := List.forall_mem_cons.1 hle
  refine (forall_isHeap_concat_iff (fun b hb ↦ comp_eq_false.2 (hothers b hb).2)
    (comp_eq_false.2 hw.2)).1 fun l hperm hl ↦ ?_
  obtain ⟨next', tail, hnext, hruns⟩ := hruns l ⟨hl, hperm.cons a⟩
  have hstd : LawfulHeap (choosing id id : HeapImplementation (NodeRef ι)) := lawful_choosing
  obtain ⟨pq', hreplace, -⟩ := hruns.turn rfl hstd
  rw [hnext] at hreplace
  exact isHeap_of_pop hreplace

/-- A queue that has the node at the end on top may stay so: the node is its own successor then. -/
theorem not_runs_of_front (hpq : IsHeap (comp val) (a :: pq)) :
    ¬ Runs (pqContainer val) next a (a :: pq) := by
  have := strictWeakOrder_comp val
  intro h
  obtain ⟨n, hn⟩ := h (fun _ ↦ choosing (favour (comp val) a) (favour (comp val) a))
    fun _ ↦ lawful_choosing
  obtain ⟨next', hrun⟩ := hn n (Nat.le_refl n)
  have hnone : mergeLoop (pqContainer val) n
      (fun _ ↦ choosing (favour (comp val) a) (favour (comp val) a)) next a (a :: pq) = none := by
    clear hrun hn h
    induction n generalizing next pq with
    | zero => rfl
    | succ n ih =>
      have hleast : ∀ b ∈ a :: pq ++ [a], val a ≤ val b := by
        rw [List.forall_mem_append, List.forall_mem_singleton]
        exact ⟨fun b hb ↦ comp_eq_false.1 (hpq.top b hb), le_refl _⟩
      have hmem : a ∈ descending (comp val) ((a :: pq ++ [a]).erase a) := by
        rw [descending_perm.mem_iff, List.cons_append, List.erase_cons_head]
        exact List.mem_append_right _ List.mem_cons_self
      have htop : ∀ b ∈ descending (comp val) ((a :: pq ++ [a]).erase a), comp val a b = false :=
        fun b hb ↦ comp_eq_false.2 (hleast b (List.mem_of_mem_erase (descending_perm.mem_iff.1 hb)))
      have hreplace := pqContainer_replace (favour (comp val) a) hpq
        (List.mem_append_left [a] List.mem_cons_self) hleast
      rw [arrange_favour hmem htop] at hreplace
      have hfront : (pqContainer val).front (a :: pq) = some a := rfl
      rw [mergeLoop, hfront]
      simp only [update_self, hreplace, Option.bind_eq_bind, Option.bind_some]
      exact ih (isHeap_favour htop)
  rw [hnone] at hrun
  cases hrun

/-- If all runs merge right, a node has a lesser value than its successor and than the other heads.
-/
theorem lt_of_mergesRight (hlists : Lists val next ls nodes) (h : MergesRight val next ls nodes)
    {before after : List (List (NodeRef ι))}
    (hnodes : nodes = before ++ (done ++ a :: w :: rest) :: after) :
    ∀ x ∈ w :: headsAt val a (before ++ after), val a < val x := by
  have := strictWeakOrder_comp val
  obtain ⟨hle, hruns⟩ :=
    free_pqContainer.exists_runs hlists (fun pq ↦ runs_mergeListsPq h) hnodes
  intro x hx
  by_contra hnot
  obtain ⟨hw, hothers⟩ := List.forall_mem_cons.1 hle
  have hpq : HeapHolds val (a :: descending (comp val) (headsAt val a (before ++ after)))
      (a :: headsAt val a (before ++ after)) :=
    ⟨isHeap_cons_descending fun b hb ↦ comp_eq_false.2 (hothers b hb).2, descending_perm.cons a⟩
  obtain ⟨next', tail, hnext, hruns⟩ := hruns _ hpq
  generalize descending (comp val) (headsAt val a (before ++ after)) = pq at hpq hruns
  have hperm : (a :: pq ++ [w]).Perm (a :: w :: headsAt val a (before ++ after)) :=
    (hpq.perm.append_right [w]).trans ((List.perm_append_singleton w _).cons a)
  have hmin : ∀ b ∈ a :: pq ++ [w], val a ≤ val b := fun b hb ↦ by
    rcases List.mem_cons.1 (hperm.mem_iff.1 hb) with rfl | hb
    · exact le_refl _
    · exact (hle b hb).2
  -- the queue may have `x` on top, and remove it instead of `a`
  have hreplace := pqContainer_replace (favour (comp val) a) hpq.heap
    (hperm.mem_iff.2 (List.mem_cons_of_mem a hx)) fun b hb ↦ (not_lt.1 hnot).trans (hmin b hb)
  have hmem : a ∈ descending (comp val) ((a :: pq ++ [w]).erase x) :=
    descending_perm.mem_iff.2 ((List.mem_erase_of_ne (hle x hx).1.symm).2
      (List.mem_append_left _ List.mem_cons_self))
  have htop : ∀ b ∈ descending (comp val) ((a :: pq ++ [w]).erase x), comp val a b = false :=
    fun b hb ↦ comp_eq_false.2 (hmin b (List.mem_of_mem_erase (descending_perm.mem_iff.1 hb)))
  rw [arrange_favour hmem htop] at hreplace
  obtain ⟨pq', hreplace', hruns'⟩ := hruns.turn rfl
    (lawful_choosing : LawfulHeap (choosing (favour (comp val) x) (favour (comp val) a)))
  rw [hnext, hreplace] at hreplace'
  rw [← Option.some.inj hreplace'] at hruns'
  exact not_runs_of_front (isHeap_favour htop) hruns'

end Needed

/-- The condition is necessary. -/
theorem mergeable_of_mergesRight {ls : List (NodeRef ι)} (hlists : Lists val next ls nodes)
    (h : MergesRight val next ls nodes) : Mergeable val nodes := by
  intro before done a w rest after hnodes
  obtain ⟨hw, hothers⟩ := List.forall_mem_cons.1 (lt_of_mergesRight hlists h hnodes)
  exact ⟨hw, hothers, countP_of_mergesRight hlists h hnodes⟩

/-- **All three functions** are right exactly for the lists that can be merged. -/
theorem mergeLists_iff {ls : List (NodeRef ι)} (h : Lists val next ls nodes) :
    MergesRight val next ls nodes ↔ Mergeable val nodes :=
  ⟨mergeable_of_mergesRight h, mergesRight_of_mergeable h⟩

/-! ### An input -/

/-- The pointers of the lists `{1, 2}`, `{3}` and `{4}`. -/
def testNext : Next ℕ
  | .node 0 => some (.node 1)
  | _ => none

/-- The values of the nodes of a test. -/
def testVal : NodeRef ℕ → ℤ
  | .node i => i + 1
  | .dummy => 0

theorem lists_test : Lists testVal testNext [.node 0, .node 2, .node 3]
    [[.node 0, .node 1], [.node 2], [.node 3]] where
  heads := rfl
  seg := by simp [testNext]
  sorted := by
    rw [AllSorted]
    decide
  nodup := by decide
  notMem := by decide

theorem mergeLists_iff_test :
    MergesRight testVal testNext [.node 0, .node 2, .node 3]
        [[.node 0, .node 1], [.node 2], [.node 3]] ↔
      Mergeable testVal [[.node 0, .node 1], [.node 2], [.node 3]] :=
  mergeLists_iff lists_test

/-- Neither `3` nor `4` may be above the `2` that is appended. -/
theorem not_forall_mergeLists :
    ¬ ∀ (val : NodeRef ℕ → ℤ) next lists nodes, Lists val next lists nodes →
      MergesRight val next lists nodes := by
  intro h
  have hmergeable := mergeable_of_mergesRight lists_test (h _ _ _ _ lists_test)
  obtain ⟨-, -, hcount⟩ := hmergeable [] [] (.node 0) (.node 1) [] [[.node 2], [.node 3]] rfl
  exact absurd hcount (by decide)

example : (mergeListsHeap testVal (fun _ ↦ choosing id id) 5 testNext
    [.node 0, .node 2, .node 3]).isSome = false := by decide

example : (mergeListsMap testVal 5 testNext [.node 2, .node 0, .node 3]).map (fun r ↦
    [r.2, r.1 (.node 0), r.1 (.node 1), r.1 (.node 2), r.1 (.node 3)]) =
    some [some (.node 0), some (.node 1), some (.node 2), some (.node 3), none] := by decide

end MergeLists
