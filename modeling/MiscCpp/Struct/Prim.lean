import MiscCpp.Struct.Graph

/-!
# When `MinSpanningTreePrim` is right

A turn that gets the entry of a node connected before is missing in the end, so every turn has to
add a node. Up to such a turn the loop grows a tree as `SpanningForest.Grows` says: each entry
stands for an edge with an end among the nodes added (`PrimTree`), and an entry of least weight is
one of a lightest edge that leaves them.

An edge between two nodes added that has not been taken is in the queue as well. It comes first if
no edge that leaves the nodes is lighter, and so the loop is right on a graph, whatever entry it is
given among equal ones, exactly if `SpanningForest.LeadsOn` holds (`primRight_iff`).
-/

open Connectivity SpanningForest

namespace Struct

variable {g : Graph} {edges : List Edge} {nodes v : ℕ} {e f : Edge} {s s' : PrimState}
  {top : ℕ × ℤ} {tops : List (ℕ × ℤ)} {sort : List Edge → List Edge} {A : Multiset Edge}
  {Q : Multiset (Edge × ℕ)} {d : Edge × ℕ}

/-! ### The edges behind the entries -/

/-- An edge with an end among the nodes, and no self-loop. -/
def Reached (added : List ℕ) (e : Edge) : Prop := e.u ≠ e.v ∧ (e.u ∈ added ∨ e.v ∈ added)

instance decidableReached (added : List ℕ) (e : Edge) : Decidable (Reached added e) :=
  inferInstanceAs (Decidable (_ ∧ _))

theorem reached_concat {added : List ℕ} {x : ℕ} (hx : x ∉ added) (e : Edge) :
    (if Reached (added ++ [x]) e then {e} else 0 : Multiset Edge) =
      (if Reached added e then {e} else 0) +
        (((darts [e] x).filter fun d ↦ d.2 ∉ added ++ [x]).map Prod.fst : List Edge) := by
  by_cases hu : e.u ∈ added <;> by_cases hv : e.v ∈ added <;> by_cases hux : e.u = x <;>
    by_cases hvx : e.v = x <;> simp_all [Reached, darts]
  exact Ne.symm hvx

/-- With one node more those edges are reached that go from it to a node not yet added. -/
theorem filter_reached {added : List ℕ} {x : ℕ} (hx : x ∉ added) :
    (edges : Multiset Edge).filter (Reached (added ++ [x])) =
      (edges : Multiset Edge).filter (Reached added) +
        (((darts edges x).filter fun d ↦ d.2 ∉ added ++ [x]).map Prod.fst : List Edge) := by
  induction edges with
  | nil => rfl
  | cons e edges ih =>
    have hsplit : darts (e :: edges) x = darts [e] x ++ darts edges x := by
      simp [darts]
    rw [← Multiset.cons_coe, Multiset.filter_cons, Multiset.filter_cons, ih, reached_concat hx e,
      hsplit, List.filter_append, List.map_append, ← Multiset.coe_add]
    exact add_add_add_comm _ _ _ _

theorem PrimInv.connected_eq_zero_iff (I : PrimInv edges nodes s) (hv : v < nodes) :
    s.connected[v]? = some 0 ↔ v ∉ s.added := by
  have hget := List.getElem?_eq_getElem (I.length.symm ▸ hv : v < s.connected.length)
  rw [hget, Option.some.injEq]
  exact I.connected v _ hget

/-- The neighbours that are not connected are at the ends of edges to nodes not added. -/
theorem PrimInv.filter_neighbours {neighbours : List (ℕ × ℤ)} {x : ℕ} (I : PrimInv edges nodes s)
    (B : Built edges nodes g.adjacencyList) (hneighbours : g.adjacencyList[x]? = some neighbours) :
    (neighbours.filter fun p ↦ s.connected[p.1]? = some 0) =
      ((darts edges x).filter fun d ↦ d.2 ∉ s.added).map dartEntry := by
  rw [B.neighbours x neighbours hneighbours, List.filter_map]
  refine congrArg _ (List.filter_congr fun d hd ↦ decide_eq_decide.2 ?_)
  obtain ⟨hmem, hends⟩ := mem_darts.1 hd
  have hlt : d.2 < nodes := by
    rcases hends with h | h
    · exact (ends_eq.1 h).2 ▸ (B.ends _ hmem).2
    · exact (ends_eq.1 h).1 ▸ (B.ends _ hmem).1
  exact I.connected_eq_zero_iff hlt

/-- A turn that adds a node, with the edges of the new entries. -/
theorem primStep_fresh (I : PrimInv edges nodes s) (B : Built edges nodes g.adjacencyList)
    (h : primStep g s top = some s') (hfresh : Fresh s top) :
    top.1 ∉ s.added ∧ s'.added = s.added ++ [top.1] ∧ s'.pq = s.pq.erase top +
      (((darts edges top.1).filter fun d ↦ d.2 ∉ s.added ++ [top.1]).map dartEntry :
        List (ℕ × ℤ)) := by
  have I' := I.step B h
  obtain ⟨-, -, c, neighbours, hc, hneighbours, h⟩ := primStep_eq_some h
  obtain rfl : c = 0 := Option.some.inj (hc.symm.trans hfresh)
  rcases h with ⟨hne, -⟩ | ⟨-, rfl⟩
  · exact absurd rfl hne
  · exact ⟨(I.connected _ 0 hc).1 rfl, rfl,
      congrArg (s.pq.erase top + Multiset.ofList ·) (I'.filter_neighbours B hneighbours)⟩

/-! ### The tree that the loop grows -/

/-- The loop has taken the edges `A`, and the entries in the queue are those of `Q`: of all other
edges reached, each from an end that has been added. -/
structure PrimTree (edges : List Edge) (s : PrimState) (A : Multiset Edge)
    (Q : Multiset (Edge × ℕ)) : Prop where
  grows : Grows Edge.ends Edge.w (edges : Multiset Edge) 0 {v | v ∈ s.added} A
  pq : s.pq = Q.map dartEntry
  reached : A + Q.map Prod.fst = (edges : Multiset Edge).filter (Reached s.added)
  ends : ∀ d ∈ Q, ∃ a ∈ s.added, d.1.ends = (a, d.2) ∨ d.1.ends = (d.2, a)

/-- The entries that a turn adds to `Q`. -/
theorem primTree_of_fresh (I : PrimInv edges nodes s) (B : Built edges nodes g.adjacencyList)
    (h : primStep g s top = some s') (hfresh : Fresh s top)
    (hgrows : Grows Edge.ends Edge.w (edges : Multiset Edge) 0 {v | v ∈ s.added ++ [top.1]} A)
    (hpq : s.pq.erase top = Q.map dartEntry)
    (hreached : A + Q.map Prod.fst = (edges : Multiset Edge).filter (Reached s.added))
    (hends : ∀ d ∈ Q, ∃ a ∈ s.added, d.1.ends = (a, d.2) ∨ d.1.ends = (d.2, a)) :
    ∃ Q', PrimTree edges s' A Q' := by
  obtain ⟨hnot, hadded, hpq'⟩ := primStep_fresh I B h hfresh
  refine ⟨Q + ((darts edges top.1).filter fun d ↦ d.2 ∉ s.added ++ [top.1] : List (Edge × ℕ)),
    hadded.symm ▸ hgrows, ?_, ?_, fun d hd ↦ ?_⟩
  · rw [hpq', hpq, Multiset.map_add, Multiset.map_coe]
  · rw [Multiset.map_add, Multiset.map_coe, ← add_assoc, hreached, hadded, filter_reached hnot]
  · rw [hadded]
    rcases Multiset.mem_add.1 hd with hd | hd
    · obtain ⟨a, ha, h⟩ := hends d hd
      exact ⟨a, mem_concat.2 (.inl ha), h⟩
    · exact ⟨top.1, mem_concat.2 (.inr rfl), (mem_darts.1 (List.mem_filter.1 hd).1).2⟩

theorem fresh_initial (hg : Graph.construct edges nodes = some g)
    (h : primStep g (.initial g) top = some s) : Fresh (.initial g) top := by
  obtain ⟨-, -, c, -, hc, -⟩ := primStep_eq_some h
  rw [Fresh, hc, Option.some.injEq]
  exact ((primInv_initial hg).connected top.1 c hc).2 List.not_mem_nil

/-- **The first turn** adds node 0. -/
theorem primTree_first (hg : Graph.construct edges nodes = some g)
    (h : primStep g (.initial g) (0, 0) = some s) :
    s.added = [0] ∧ ∃ Q, PrimTree edges s 0 Q := by
  have I := primInv_initial hg
  have B := (construct_eq_some hg).2.2.2
  have hfresh := fresh_initial hg h
  refine ⟨(primStep_fresh I B h hfresh).2.1, primTree_of_fresh I B h hfresh (Q := 0) ?_ rfl ?_
    fun d hd ↦ absurd hd (Multiset.notMem_zero d)⟩
  · have hset : {v | v ∈ (PrimState.initial g).added ++ [0]} = ({0} : Set ℕ) := by
      ext v
      simp [PrimState.initial]
    rw [hset]
    exact .start
  · rw [Multiset.map_zero, add_zero]
    refine (Multiset.filter_eq_nil.2 fun e _ hreached ↦ ?_).symm
    exact hreached.2.elim List.not_mem_nil List.not_mem_nil

/-- An edge leaves the nodes added if one end of it is no such node. -/
theorem PrimTree.crosses (T : PrimTree edges s A Q) (hd : d ∈ Q) (hnot : d.2 ∉ s.added) :
    Crosses Edge.ends (· ∈ s.added) d.1 := by
  obtain ⟨a, ha, h | h⟩ := T.ends d hd
  · rw [Crosses, h]
    exact iff_of_true ha hnot
  · rw [Crosses, h]
    exact iff_of_false hnot (not_not_intro ha)

theorem PrimTree.mem_edges (T : PrimTree edges s A Q) (hd : d ∈ Q) :
    d.1 ∈ (edges : Multiset Edge) ∧ Reached s.added d.1 := by
  have hmem : d.1 ∈ A + Q.map Prod.fst := Multiset.mem_add.2 (.inr (Multiset.mem_map_of_mem _ hd))
  rwa [T.reached, Multiset.mem_filter] at hmem

theorem PrimTree.mem_added (T : PrimTree edges s A Q) (hd : d ∈ Q) (hu : d.1.u ∈ s.added)
    (hv : d.1.v ∈ s.added) : d.2 ∈ s.added := by
  obtain ⟨a, -, h | h⟩ := T.ends d hd
  · exact (ends_eq.1 h).2 ▸ hv
  · exact (ends_eq.1 h).1 ▸ hu

theorem PrimTree.ends_mem (T : PrimTree edges s A Q) (hd : d ∈ Q) (hadded : d.2 ∈ s.added) :
    d.1.u ∈ s.added ∧ d.1.v ∈ s.added := by
  obtain ⟨a, ha, h | h⟩ := T.ends d hd
  · obtain ⟨hu, hv⟩ := ends_eq.1 h
    exact ⟨hu.symm ▸ ha, hv.symm ▸ hadded⟩
  · obtain ⟨hu, hv⟩ := ends_eq.1 h
    exact ⟨hu.symm ▸ hadded, hv.symm ▸ ha⟩

theorem reached_of_crosses {added : List ℕ} (h : Crosses Edge.ends (· ∈ added) e) :
    Reached added e := by
  refine ⟨fun heq ↦ ?_, ?_⟩
  · rw [Crosses, Edge.ends, heq] at h
    exact iff_not_self h
  · by_contra hnone
    obtain ⟨hu, hv⟩ := not_or.1 hnone
    exact hu (h.2 hv)

/-- The edges reached that have not been taken are in the queue. -/
theorem PrimTree.exists_mem (T : PrimTree edges s A Q) (he : e ∈ (edges : Multiset Edge) - A)
    (hreached : Reached s.added e) : ∃ d ∈ Q, d.1 = e := by
  have hcount := Multiset.count_filter_of_pos (s := (edges : Multiset Edge)) hreached
  rw [Multiset.mem_sub, ← hcount, ← T.reached, Multiset.count_add] at he
  exact Multiset.mem_map.1 (Multiset.count_pos.1 (Nat.lt_add_right_iff_pos.1 he))

theorem PrimTree.mem_sub (T : PrimTree edges s A Q) (hd : d ∈ Q) :
    d.1 ∈ (edges : Multiset Edge) - A := by
  have hcount := Multiset.count_filter_of_pos (s := (edges : Multiset Edge)) (T.mem_edges hd).2
  rw [Multiset.mem_sub, ← hcount, ← T.reached, Multiset.count_add]
  exact Nat.lt_add_right_iff_pos.2 (Multiset.count_pos.2 (Multiset.mem_map_of_mem _ hd))

/-- **A further turn** that adds a node takes a lightest edge that leaves the nodes added. -/
theorem PrimTree.add (T : PrimTree edges s A Q) (I : PrimInv edges nodes s)
    (B : Built edges nodes g.adjacencyList) (hd : d ∈ Q)
    (h : primStep g s (dartEntry d) = some s') (hfresh : Fresh s (dartEntry d)) :
    {v | v ∈ s'.added} = insert d.1.ends.1 (insert d.1.ends.2 {v | v ∈ s.added}) ∧
      ∃ Q', PrimTree edges s' (d.1 ::ₘ A) Q' := by
  obtain ⟨hnot, hadded, -⟩ := primStep_fresh I B h hfresh
  have hset : {v | v ∈ s.added ++ [d.2]} =
      insert d.1.ends.1 (insert d.1.ends.2 {v | v ∈ s.added}) := by
    obtain ⟨a, ha, hends | hends⟩ := T.ends d hd <;> ext v <;>
      simp only [hends, Set.mem_insert_iff, Set.mem_ofPred_eq, mem_concat]
    · constructor
      · rintro (hv | rfl)
        · exact .inr (.inr hv)
        · exact .inr (.inl rfl)
      · rintro (rfl | rfl | hv)
        · exact .inl ha
        · exact .inr rfl
        · exact .inl hv
    · constructor
      · rintro (hv | rfl)
        · exact .inr (.inr hv)
        · exact .inl rfl
      · rintro (rfl | rfl | hv)
        · exact .inr rfl
        · exact .inl ha
        · exact .inl hv
  refine ⟨hadded.symm ▸ hset, primTree_of_fresh I B h hfresh (Q := Q.erase d) ?_ ?_ ?_
    fun d' hd' ↦ T.ends d' (Multiset.mem_of_mem_erase hd')⟩
  · obtain ⟨-, hleast, -⟩ := primStep_eq_some h
    show Grows Edge.ends Edge.w (edges : Multiset Edge) 0 {v | v ∈ s.added ++ [d.2]} (d.1 ::ₘ A)
    rw [hset]
    refine T.grows.add (T.mem_edges hd).1 (T.crosses hd hnot) fun f hf hcross ↦ ?_
    obtain ⟨a, ha, b, hb, hends⟩ := exists_of_crosses hcross
    exact hleast _ (I.leaving f (Multiset.mem_coe.1 hf) a ha b hb hends)
  · rw [T.pq, Multiset.map_erase_of_mem dartEntry Q hd]
  · rw [← T.reached, ← Multiset.cons_erase hd, Multiset.map_cons, Multiset.erase_cons_head,
      Multiset.cons_add, Multiset.add_cons]

/-- An edge in the queue between nodes added is heavier than one that leaves the nodes, or the entry
of such an edge can come first. -/
theorem PrimTree.exists_lighter (T : PrimTree edges s A Q) (I : PrimInv edges nodes s)
    (B : Built edges nodes g.adjacencyList) (hpos : 0 < nodes)
    (hnext : ∀ top s', primStep g s top = some s' → Fresh s top) (hd : d ∈ Q)
    (hstale : d.2 ∈ s.added) :
    ∃ f ∈ (edges : Multiset Edge), Crosses Edge.ends (· ∈ s.added) f ∧ f.w < d.1.w := by
  by_contra hnone
  push Not at hnone
  -- the first one among the entries of nodes added
  obtain ⟨c, hc, hleast⟩ := (Q.toFinset.filter fun d ↦ d.2 ∈ s.added).exists_min_image
    (fun d ↦ d.1.w) ⟨d, Finset.mem_filter.2 ⟨Multiset.mem_toFinset.2 hd, hstale⟩⟩
  obtain ⟨hcQ, hcstale⟩ := Finset.mem_filter.1 hc
  rw [Multiset.mem_toFinset] at hcQ
  have hall : ∀ p ∈ s.pq, (dartEntry c).2 ≤ p.2 := by
    intro p hp
    rw [T.pq] at hp
    obtain ⟨b, hb, rfl⟩ := Multiset.mem_map.1 hp
    by_cases hadded : b.2 ∈ s.added
    · exact hleast b (Finset.mem_filter.2 ⟨Multiset.mem_toFinset.2 hb, hadded⟩)
    · calc c.1.w
          ≤ d.1.w := hleast d (Finset.mem_filter.2 ⟨Multiset.mem_toFinset.2 hd, hstale⟩)
        _ ≤ b.1.w := hnone b.1 (T.mem_edges hb).1 (T.crosses hb hadded)
  have hmem : dartEntry c ∈ s.pq := T.pq ▸ Multiset.mem_map_of_mem dartEntry hcQ
  obtain ⟨s', hs'⟩ := I.exists_step_of_least B hpos hmem hall
  exact (I.connected _ 0 (hnext _ s' hs')).1 rfl hcstale

/-! ### Runs -/

/-- Turns that are not too many can be continued to a complete run. -/
theorem exists_primRun (hg : Graph.construct edges nodes = some g) (hconn : g.Connected)
    (hpos : 0 < nodes) (h : Machine.exec (primStep g) (.initial g) tops = some s)
    (hle : tops.length ≤ nodes) : ∃ more s', PrimRun g (tops ++ more) s' := by
  obtain ⟨hnodes, hedges, -, B⟩ := construct_eq_some hg
  induction hrest : nodes - tops.length generalizing tops s with
  | zero =>
    refine ⟨[], s, ?_, ?_, fun hlt ↦ ?_⟩
    · rwa [List.append_nil]
    · rwa [List.append_nil, hnodes]
    · rw [List.append_nil, hnodes] at hlt
      omega
  | succ rest ih =>
    have hlt : tops.length < nodes := Nat.lt_of_sub_pos (hrest ▸ rest.succ_pos)
    have I := (primInv_initial hg).exec B h
    have hne := I.pq_ne_zero (hnodes ▸ hedges ▸ hconn)
      (Nat.lt_of_le_of_lt (length_added_initial h).1 hlt)
    obtain ⟨top, t, ht⟩ := I.exists_step B hpos hne
    have hexec : Machine.exec (primStep g) (.initial g) (tops ++ [top]) = some t := by
      rw [Machine.exec_concat, h, Option.bind_some, ht]
    obtain ⟨more, s', hrun⟩ := ih hexec (by rwa [List.length_append])
      (by rw [List.length_append, List.length_singleton]; omega)
    rw [List.append_assoc] at hrun
    exact ⟨[top] ++ more, s', hrun⟩

/-- If an edge leaves the nodes added, a node is missing. -/
theorem PrimInv.lt_of_crosses (I : PrimInv edges nodes s)
    (B : Built edges nodes g.adjacencyList) (hf : f ∈ edges)
    (hcross : Crosses Edge.ends (· ∈ s.added) f) : s.added.length < nodes := by
  obtain ⟨a, -, b, hb, hends⟩ := exists_of_crosses hcross
  have hlt : b < nodes := by
    rcases hends with h | h
    · exact (ends_eq.1 h).2 ▸ (B.ends f hf).2
    · exact (ends_eq.1 h).1 ▸ (B.ends f hf).1
  by_contra hge
  have hperm := (List.subperm_of_subset I.nodup fun v hv ↦
    List.mem_range.2 (I.lt v hv)).perm_of_length_le (by rw [List.length_range]; omega)
  exact hb (hperm.mem_iff.2 (List.mem_range.2 hlt))

/-- In runs whose turns all add nodes the next one does. -/
theorem fresh_of_forall (hfresh : ∀ tops s, Machine.exec (primStep g) (.initial g) tops = some s →
      tops.length ≤ nodes → Machine.Always (primStep g) Fresh (.initial g) tops)
    (h : Machine.exec (primStep g) (.initial g) tops = some s) (hlt : tops.length < nodes)
    (top : ℕ × ℤ) (s' : PrimState) (hs' : primStep g s top = some s') : Fresh s top := by
  have hexec : Machine.exec (primStep g) (.initial g) (tops ++ [top]) = some s' := by
    rw [Machine.exec_concat, h, Option.bind_some, hs']
  have hle : (tops ++ [top]).length ≤ nodes := by rwa [List.length_append]
  exact Machine.always_step (hfresh _ s' hexec hle) h

/-- Every tree that Prim's algorithm may grow is grown in some run, if no run comes to a turn that
adds no node. -/
theorem exists_primTree_of_grows {P : Set ℕ} (hg : Graph.construct edges nodes = some g)
    (hpos : 0 < nodes) (hfresh : ∀ tops s, Machine.exec (primStep g) (.initial g) tops = some s →
      tops.length ≤ nodes → Machine.Always (primStep g) Fresh (.initial g) tops)
    (hgrows : Grows Edge.ends Edge.w (edges : Multiset Edge) 0 P A) :
    ∃ tops s Q, Machine.exec (primStep g) (.initial g) tops = some s ∧
      tops.length = s.added.length ∧ {v | v ∈ s.added} = P ∧ PrimTree edges s A Q := by
  have B := (construct_eq_some hg).2.2.2
  induction hgrows with
  | start =>
    obtain ⟨top, s, hs⟩ := (primInv_initial hg).exists_step B hpos (Multiset.singleton_ne_zero _)
    obtain rfl : top = (0, 0) := Multiset.mem_singleton.1 (primStep_eq_some hs).1
    obtain ⟨hadded, Q, T⟩ := primTree_first hg hs
    refine ⟨[(0, 0)], s, Q, ?_, ?_, ?_, T⟩
    · rw [Machine.exec_cons, hs]
      rfl
    · rw [hadded]
      rfl
    · ext v
      simp [hadded]
  | @add P A e _ he hcross hleast ih =>
    obtain ⟨tops, s, Q, hexec, hlen, rfl, T⟩ := ih
    have I := (primInv_initial hg).exec B hexec
    have hlt := I.lt_of_crosses B (Multiset.mem_coe.1 he) hcross
    have hnext := fresh_of_forall hfresh hexec (hlen ▸ hlt)
    have hsub : e ∈ (edges : Multiset Edge) - A := by
      rw [Multiset.mem_sub, Multiset.count_eq_zero.2 (T.grows.notMem_of_crosses hcross)]
      exact Multiset.count_pos.2 he
    obtain ⟨d, hd, rfl⟩ := T.exists_mem hsub (reached_of_crosses hcross)
    have hall : ∀ p ∈ s.pq, (dartEntry d).2 ≤ p.2 := by
      intro p hp
      rw [T.pq] at hp
      obtain ⟨b, hb, rfl⟩ := Multiset.mem_map.1 hp
      by_cases hadded : b.2 ∈ s.added
      · obtain ⟨f, hf, hfcross, hflt⟩ := T.exists_lighter I B hpos hnext hb hadded
        exact (hleast f hf hfcross).trans hflt.le
      · exact hleast b.1 (T.mem_edges hb).1 (T.crosses hb hadded)
    obtain ⟨s', hs'⟩ := I.exists_step_of_least B hpos
      (T.pq ▸ Multiset.mem_map_of_mem dartEntry hd) hall
    obtain ⟨hset, Q', T'⟩ := T.add I B hd hs' (hnext _ s' hs')
    refine ⟨tops ++ [dartEntry d], s', Q', ?_, ?_, hset, T'⟩
    · rw [Machine.exec_concat, hexec, Option.bind_some, hs']
    · rw [(primStep_fresh I B hs' (hnext _ s' hs')).2.1, List.length_append, List.length_append,
        hlen]
      rfl

/-- Where an edge leads on from the tree, the next turn adds a node. -/
theorem PrimTree.fresh_of_leadsOn (T : PrimTree edges s A Q) (I : PrimInv edges nodes s)
    (hlead : LeadsOn Edge.ends Edge.w (edges : Multiset Edge) 0)
    (hcross : ∃ f ∈ (edges : Multiset Edge), Crosses Edge.ends (· ∈ s.added) f)
    (h : primStep g s top = some s') : Fresh s top := by
  obtain ⟨hmem, hleast, c, -, hc, -⟩ := primStep_eq_some h
  obtain ⟨d, hd, rfl⟩ := Multiset.mem_map.1 (T.pq ▸ hmem)
  by_contra hstale
  have hadded : d.2 ∈ s.added := by
    by_contra hnot
    refine hstale (hc.trans (congrArg some ?_))
    exact (I.connected d.2 c hc).2 hnot
  obtain ⟨hu, hv⟩ := T.ends_mem hd hadded
  obtain ⟨f, hf, hfcross, hflt⟩ := hlead _ A T.grows hcross d.1 (T.mem_sub hd)
    (T.mem_edges hd).2.1 hu hv
  obtain ⟨a, ha, b, hb, hends⟩ := exists_of_crosses hfcross
  exact absurd (hleast _ (I.leaving f (Multiset.mem_coe.1 hf) a ha b hb hends)) (not_le.2 hflt)

/-- Where an edge leads on from every tree, no turn gets the entry of a node connected before. -/
theorem always_fresh_of_leadsOn (hg : Graph.construct edges nodes = some g) (hconn : g.Connected)
    (hlead : LeadsOn Edge.ends Edge.w (edges : Multiset Edge) 0)
    (h : Machine.exec (primStep g) (.initial g) tops = some s) (hle : tops.length ≤ nodes) :
    Machine.Always (primStep g) Fresh (.initial g) tops ∧
      (tops ≠ [] → ∃ A Q, PrimTree edges s A Q) := by
  obtain ⟨hnodes, hedges, -, B⟩ := construct_eq_some hg
  rw [Graph.Connected, hnodes, hedges] at hconn
  induction tops using List.reverseRecOn generalizing s with
  | nil => exact ⟨trivial, absurd rfl⟩
  | append_singleton tops top ih =>
    rw [Machine.exec_concat] at h
    obtain ⟨t, ht, h⟩ := Option.bind_eq_some_iff.1 h
    rw [List.length_append, List.length_singleton] at hle
    obtain ⟨halways, htree⟩ := ih ht (Nat.le_of_succ_le hle)
    have I := (primInv_initial hg).exec B ht
    have hlen := (length_added_initial ht).2.2 halways
    have hfresh : Fresh t top ∧ ∃ A Q, PrimTree edges s A Q := by
      rcases eq_or_ne tops [] with rfl | hne
      · obtain rfl := Option.some.inj ht
        obtain rfl : top = (0, 0) := Multiset.mem_singleton.1 (primStep_eq_some h).1
        obtain ⟨-, Q, T⟩ := primTree_first hg h
        exact ⟨fresh_initial hg h, 0, Q, T⟩
      · obtain ⟨A, Q, T⟩ := htree hne
        have hadded : t.added ≠ [] := fun hnil ↦ hne (List.length_eq_zero_iff.1 (by
          rw [← hlen, hnil, List.length_nil]))
        have hcross := I.exists_crosses hconn hadded (hlen ▸ hle)
        have hfresh := T.fresh_of_leadsOn I hlead hcross h
        obtain ⟨d, hd, rfl⟩ := Multiset.mem_map.1 (T.pq ▸ (primStep_eq_some h).1)
        obtain ⟨-, Q', T'⟩ := T.add I B hd h hfresh
        exact ⟨hfresh, _, Q', T'⟩
    refine ⟨Machine.always_append.2 ⟨halways, fun u hu ↦ ?_⟩, fun _ ↦ hfresh.2⟩
    obtain rfl := Option.some.inj (ht.symm.trans hu)
    exact ⟨hfresh.1, fun _ _ ↦ trivial⟩

/-- **Exactly when Prim's algorithm is right**, whatever entry of least weight the queue gives out:
from each tree that can be grown from node 0, as long as a node is missing, an edge leads on that is
lighter than those between the nodes of the tree that are not in it. -/
theorem primRight_iff (hg : Graph.construct edges nodes = some g) (hconn : g.Connected)
    (hpos : 1 ≤ nodes) (hsort : Search.Sorts edgesCompare sort) :
    (∀ tops s, PrimRun g tops s → PrimRight sort g tops s) ↔
      LeadsOn Edge.ends Edge.w (edges : Multiset Edge) 0 := by
  obtain ⟨hnodes, hedges, -, B⟩ := construct_eq_some hg
  constructor
  · intro hright
    have hfresh : ∀ tops s, Machine.exec (primStep g) (.initial g) tops = some s →
        tops.length ≤ nodes → Machine.Always (primStep g) Fresh (.initial g) tops := by
      intro tops s hexec hle
      obtain ⟨more, s', hrun⟩ := exists_primRun hg hconn hpos hexec hle
      have halways := (primRight_iff_fresh hg hconn hpos hsort hrun).1 (hright _ s' hrun)
      exact (Machine.always_append.1 halways).1
    rintro P A hgrows ⟨f, hf, hcross⟩ e he hne hu hv
    obtain ⟨tops, s, Q, hexec, hlen, rfl, T⟩ := exists_primTree_of_grows hg hpos hfresh hgrows
    have I := (primInv_initial hg).exec B hexec
    have hlt := I.lt_of_crosses B (Multiset.mem_coe.1 hf) hcross
    obtain ⟨d, hd, rfl⟩ := T.exists_mem he ⟨hne, .inl hu⟩
    exact T.exists_lighter I B hpos (fresh_of_forall hfresh hexec (hlen ▸ hlt)) hd
      (T.mem_added hd hu hv)
  · intro hlead tops s hrun
    exact (primRight_iff_fresh hg hconn hpos hsort hrun).2
      (always_fresh_of_leadsOn hg hconn hlead hrun.exec (hnodes ▸ hrun.le)).1

/-! ### Two graphs -/

/-- The trees that can be grown from node 0 of the test: there is one edge after the other. -/
theorem grows_testEdges {P : Set ℕ}
    (h : Grows Edge.ends Edge.w (testEdges : Multiset Edge) 0 P A) :
    P = {0} ∧ A = 0 ∨ P = {0, 1} ∧ A = {⟨0, 1, 1⟩} ∨ P = {0, 1, 3} ∧ A = {⟨0, 3, 3⟩, ⟨0, 1, 1⟩} ∨
      ∀ e ∈ testEdges, e.u ∈ P ∧ e.v ∈ P := by
  induction h with
  | start => exact .inl ⟨rfl, rfl⟩
  | @add P A e hgrows he hcross hleast ih =>
    simp only [testEdges, Multiset.mem_coe, List.mem_cons, List.not_mem_nil, or_false] at he
    rcases ih with ⟨rfl, rfl⟩ | ⟨rfl, rfl⟩ | ⟨rfl, rfl⟩ | hall
    · have hle := hleast ⟨0, 1, 1⟩ (by decide) (by simp [Crosses, Edge.ends])
      obtain rfl : e = ⟨0, 1, 1⟩ := by
        rcases he with rfl | rfl | rfl | rfl | rfl | rfl <;>
          simp [Crosses, Edge.ends] at hle hcross ⊢
      refine .inr (.inl ⟨?_, rfl⟩)
      ext v
      simp only [Edge.ends, Set.mem_insert_iff, Set.mem_singleton_iff]
      tauto
    · have hle := hleast ⟨0, 3, 3⟩ (by decide) (by simp [Crosses, Edge.ends])
      obtain rfl : e = ⟨0, 3, 3⟩ := by
        rcases he with rfl | rfl | rfl | rfl | rfl | rfl <;>
          simp [Crosses, Edge.ends] at hle hcross ⊢
      refine .inr (.inr (.inl ⟨?_, rfl⟩))
      ext v
      simp only [Edge.ends, Set.mem_insert_iff, Set.mem_singleton_iff]
      tauto
    · have hle := hleast ⟨2, 3, 2⟩ (by decide) (by simp [Crosses, Edge.ends])
      obtain rfl : e = ⟨2, 3, 2⟩ := by
        rcases he with rfl | rfl | rfl | rfl | rfl | rfl <;>
          simp [Crosses, Edge.ends] at hle hcross ⊢
      exact .inr (.inr (.inr (by simp [testEdges, Edge.ends])))
    · have hboth := hall e (by simp [testEdges, he])
      exact absurd hboth.2 (hcross.1 hboth.1)

/-- With three nodes in the tree, the edge between the nodes 1 and 3 is left out; it is heavier than
the one that leads to node 2. -/
theorem leadsOn_testEdges : LeadsOn Edge.ends Edge.w (testEdges : Multiset Edge) 0 := by
  rintro P A hgrows ⟨f, hf, hcross⟩ e he hne hu hv
  rcases grows_testEdges hgrows with ⟨rfl, rfl⟩ | ⟨rfl, rfl⟩ | ⟨rfl, rfl⟩ | hall
  · exact absurd (Eq.trans hu (Eq.symm hv)) hne
  · have hrest : e ∈ ([⟨0, 3, 3⟩, ⟨0, 2, 6⟩, ⟨2, 3, 2⟩, ⟨1, 2, 4⟩, ⟨1, 3, 5⟩] : List Edge) := he
    simp only [List.mem_cons, List.not_mem_nil, or_false] at hrest
    rcases hrest with rfl | rfl | rfl | rfl | rfl <;> simp [Edge.ends] at hu hv
  · have hrest : e ∈ ([⟨0, 2, 6⟩, ⟨2, 3, 2⟩, ⟨1, 2, 4⟩, ⟨1, 3, 5⟩] : List Edge) := he
    refine ⟨⟨2, 3, 2⟩, by decide, by simp [Crosses, Edge.ends], ?_⟩
    simp only [List.mem_cons, List.not_mem_nil, or_false] at hrest
    rcases hrest with rfl | rfl | rfl | rfl <;> simp [Edge.ends] at hu hv ⊢
  · have hboth := hall f (Multiset.mem_coe.1 hf)
    exact absurd hboth.2 (hcross.1 hboth.1)

/-- No turn is wasted on the graph of the test. -/
theorem primRight_test : LeadsOn Edge.ends Edge.w (testEdges : Multiset Edge) 0 ∧
    ∀ tops s, PrimRun testGraph tops s → PrimRight sortEdges testGraph tops s :=
  ⟨leadsOn_testEdges, (primRight_iff construct_testEdges connected_testGraph (by decide)
    sorts_sortEdges).2 leadsOn_testEdges⟩

/-- The state after the turns `tops`. -/
def primState (g : Graph) (tops : List (ℕ × ℤ)) : PrimState :=
  (Machine.exec (primStep g) (.initial g) tops).getD (.initial g)

/-- The entry of node 2 with weight 2 takes the turn in which node 3 would have been added. -/
theorem not_forall_primRight : ¬ ∀ (edges : List Edge) (nodes : ℕ) (g : Graph)
    (sort : List Edge → List Edge) (tops : List (ℕ × ℤ)) (s : PrimState),
    Graph.construct edges nodes = some g → g.Connected → 1 ≤ nodes →
      Search.Sorts edgesCompare sort → PrimRun g tops s → PrimRight sort g tops s := by
  intro hall
  have hrun : PrimRun tailGraph [(0, 0), (1, 1), (2, 1), (2, 2)]
      (primState tailGraph [(0, 0), (1, 1), (2, 1), (2, 2)]) :=
    ⟨rfl, Nat.le_refl 4, fun hlt ↦ absurd hlt (Nat.lt_irrefl 4)⟩
  have hright := hall tailEdges 4 tailGraph sortEdges _ _ rfl connected_tailGraph (by decide)
    sorts_sortEdges hrun
  exact absurd hright.adds.length_eq (by decide)

end Struct
