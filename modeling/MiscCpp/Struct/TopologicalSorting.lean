import Mathlib.Data.Finset.Card
import Mathlib.Data.Set.Finite.Basic
import MiscCpp.Library.Counters
import MiscCpp.Library.Machine
import MiscCpp.Library.TopologicalOrder

/-!
# Topological sorting

`topSort` of an adjacency matrix, with the counters of the edges into each vertex.

The counter of a vertex is the number of its edges from vertices that are not in the result yet
(`Counts`, `inEdges`), and the vertices whose counter is zero are those in the result or in the
queue (`Inv`). So what is listed is a topological order, and at the end each vertex that is left out
has an edge from another one that is: it can be reached from a cycle (`topSort_right`).
-/

open CInt Machine TopologicalOrder

namespace TopologicalSorting

/-! ### The program -/

/-- `matrix[u][v] > 0` -/
def isEdge (matrix : List (List CInt)) (u v : ℕ) : Option Bool := do
  let row ← matrix[u]?
  let weight ← row[v]?
  some (0 < weight.1)

/-- The body of the loops that count. -/
def countEdge (matrix : List (List CInt)) (u : ℕ) (inDegree : List CInt) (v : ℕ) :
    Option (List CInt) := do
  if ← isEdge matrix u v then
    let d ← inDegree[v]?
    let d ← d.incr
    some (inDegree.set v d)
  else some inDegree

structure State where
  inDegree : List CInt
  q : List ℕ
  num : CInt
  res : List ℕ

/-- `q.push(i)` and `++num` -/
def State.push (s : State) (i : ℕ) : Option State := do
  let num ← s.num.incr
  some { s with q := s.q ++ [i], num := num }

/-- The body of the loop that adds the vertices without an edge to them. -/
def addVertex (s : State) (i : ℕ) : Option State := do
  let d ← s.inDegree[i]?
  if d.1 = 0 then s.push i else some s

/-- The body of the loop over the vertices that `vertex` may have an edge to. -/
def visit (matrix : List (List CInt)) (vertex : ℕ) (s : State) (i : ℕ) : Option State := do
  if ← isEdge matrix vertex i then
    let d ← s.inDegree[i]?
    let d ← d.decr
    let s := { s with inDegree := s.inDegree.set i d }
    if d.1 = 0 then s.push i else some s
  else some s

/-- `while (!q.empty())` -/
def queueLoop (matrix : List (List CInt)) (is : List ℕ) : ℕ → State → Option State
  | 0, _ => none
  | fuel + 1, s =>
    match s.q with
    | [] => some s
    | vertex :: q => do
      let s ← exec (visit matrix vertex) { s with res := s.res ++ [vertex], q := q } is
      queueLoop matrix is fuel s

/-- The result, and whether the message `has Cycle` is printed. -/
def topSort (fuel : ℕ) (matrix : List (List CInt)) : Option (List ℕ × Bool) := do
  let row ← matrix[0]?
  if matrix.length = row.length then
    let is ← counter matrix.length
    let inDegree ← exec (fun inDegree u ↦ exec (countEdge matrix u) inDegree is)
      (List.replicate matrix.length (wrap 0)) is
    let s ← exec addVertex ⟨inDegree, [], wrap 0, []⟩ is
    let s ← queueLoop matrix is fuel s
    some (s.res, s.num.1 ≠ matrix.length)
  else none

/-- A square matrix of at least one row, with less than `2 ^ 64` bytes. -/
structure AdjacencyMatrix where
  rows : List (List CInt)
  pos : 0 < rows.length
  square : ∀ row ∈ rows, row.length = rows.length
  memory : 4 * (rows.length * rows.length) < 2 ^ 64

/-- An edge from `u` to `v`. -/
def Edge (matrix : List (List CInt)) (u v : ℕ) : Prop := isEdge matrix u v = some true

instance (matrix : List (List CInt)) (u v : ℕ) : Decidable (Edge matrix u v) :=
  inferInstanceAs (Decidable (_ = _))

/-- The vertices are listed once, sources of edges before their targets. Left out are those behind a
cycle, and the message says whether there is one. -/
structure Right (matrix : List (List CInt)) (res : List ℕ) (hasCycle : Bool) : Prop where
  nodup : res.Nodup
  order : ∀ u ∈ res, ∀ v ∈ res, Edge matrix u v → res.idxOf u < res.idxOf v
  mem_iff : ∀ v, v ∈ res ↔ v < matrix.length ∧ ¬ BehindCycle (Edge matrix) v
  all_iff : res.length = matrix.length ↔ ∀ v, ¬ Relation.TransGen (Edge matrix) v v
  message : hasCycle = true ↔ ∃ v, Relation.TransGen (Edge matrix) v v

/-! ### The counters -/

/-- The number of edges to `v` from the first `k` vertices, without those of `res`. -/
def inEdges (matrix : List (List CInt)) (res : List ℕ) (k v : ℕ) : ℕ :=
  ((Finset.range k).filter fun u ↦ Edge matrix u v ∧ u ∉ res).card

variable {matrix : List (List CInt)} {res : List ℕ} {f g : ℕ → ℕ} {inDegree : List CInt}
  {k n u v : ℕ}

theorem inEdges_succ (res : List ℕ) (k v : ℕ) :
    inEdges matrix res (k + 1) v =
      inEdges matrix res k v + if Edge matrix k v ∧ k ∉ res then 1 else 0 := by
  rw [inEdges, Finset.range_add_one, Finset.filter_insert]
  split
  · rw [Finset.card_insert_of_notMem (by simp)]
    rfl
  · rfl

theorem inEdges_le (res : List ℕ) (k v : ℕ) : inEdges matrix res k v ≤ k :=
  (Finset.card_filter_le _ _).trans (Finset.card_range k).le

theorem inEdges_concat (hu : u < k) (hres : u ∉ res) (huv : Edge matrix u v) :
    inEdges matrix res k v = inEdges matrix (res ++ [u]) k v + 1 := by
  have hmem : u ∈ (Finset.range k).filter fun w ↦ Edge matrix w v ∧ w ∉ res :=
    Finset.mem_filter.2 ⟨Finset.mem_range.2 hu, huv, hres⟩
  rw [inEdges, ← Finset.card_erase_add_one hmem, inEdges]
  congr 2
  ext w
  simp only [Finset.mem_erase, Finset.mem_filter, List.mem_append, List.mem_singleton]
  tauto

theorem inEdges_concat_of_not (huv : ¬ Edge matrix u v) :
    inEdges matrix (res ++ [u]) k v = inEdges matrix res k v := by
  rw [inEdges, inEdges]
  congr 1
  ext w
  simp only [Finset.mem_filter, List.mem_append, List.mem_singleton, not_or]
  refine and_congr_right fun _ ↦ and_congr_right fun hw ↦ and_iff_left ?_
  rintro rfl
  exact huv hw

theorem inEdges_eq_zero_iff :
    inEdges matrix res k v = 0 ↔ ∀ u < k, Edge matrix u v → u ∈ res := by
  rw [inEdges, Finset.card_eq_zero, Finset.filter_eq_empty_iff]
  simp only [Finset.mem_range, not_and, not_not]

/-! ### The matrix -/

namespace AdjacencyMatrix

variable (M : AdjacencyMatrix)

theorem length_lt : M.rows.length < 2 ^ 31 := by
  by_contra hge
  have hmul := Nat.mul_le_mul (not_lt.1 hge) (not_lt.1 hge)
  have hmemory := M.memory
  omega

theorem counter_eq : counter M.rows.length = some (List.range M.rows.length) := if_pos M.length_lt

theorem isEdge_eq (hu : u < M.rows.length) (hv : v < M.rows.length) :
    isEdge M.rows u v = some (decide (Edge M.rows u v)) := by
  have hrow : v < M.rows[u].length := by rwa [M.square _ (List.getElem_mem hu)]
  have heq : isEdge M.rows u v = some (decide (0 < (M.rows[u][v]).1)) := by
    rw [isEdge, List.getElem?_eq_getElem hu]
    simp only [Option.bind_eq_bind, Option.bind_some]
    rw [List.getElem?_eq_getElem hrow, Option.bind_some]
  have hiff : Edge M.rows u v ↔ 0 < (M.rows[u][v]).1 := by
    show isEdge M.rows u v = some true ↔ _
    rw [heq, Option.some_inj, decide_eq_true_iff]
  rw [heq, decide_eq_decide.2 hiff]

end AdjacencyMatrix

theorem Edge.lt (M : AdjacencyMatrix) (h : Edge M.rows u v) :
    u < M.rows.length ∧ v < M.rows.length := by
  obtain ⟨row, hrow, h⟩ := Option.bind_eq_some_iff.1 h
  obtain ⟨weight, hweight, -⟩ := Option.bind_eq_some_iff.1 h
  obtain ⟨hu, rfl⟩ := List.getElem?_eq_some_iff.1 hrow
  obtain ⟨hv, -⟩ := List.getElem?_eq_some_iff.1 hweight
  exact ⟨hu, by rwa [M.square _ (List.getElem_mem hu)] at hv⟩

/-! ### Counting -/

/-- **The count** of the edges from `u`. -/
theorem countEdge_spec (M : AdjacencyMatrix) (h : Counts M.rows.length inDegree f)
    (hu : u < M.rows.length) (hv : v < M.rows.length) (hf : f v < M.rows.length) :
    ∃ inDegree', countEdge M.rows u inDegree v = some inDegree' ∧
      Counts M.rows.length inDegree'
        (Function.update f v (f v + if Edge M.rows u v then 1 else 0)) := by
  rw [countEdge, M.isEdge_eq hu hv]
  simp only [Option.bind_eq_bind, Option.bind_some, decide_eq_true_eq]
  split
  next =>
    obtain ⟨d, hd, hincr⟩ := h.incr hv
    have hlt := M.length_lt
    rw [if_pos (by omega)] at hincr
    obtain ⟨d', hd', h'⟩ := hincr
    exact ⟨inDegree.set v d', by rw [hd, Option.bind_some, hd', Option.bind_some], h'⟩
  next => exact ⟨inDegree, rfl, by rwa [Nat.add_zero, Function.update_eq_self]⟩

/-- **The loops that count** end with the number of all edges into each vertex. -/
theorem countEdges_spec (M : AdjacencyMatrix) :
    ∃ inDegree, exec (fun inDegree u ↦ exec (countEdge M.rows u) inDegree
        (List.range M.rows.length)) (List.replicate M.rows.length (wrap 0))
        (List.range M.rows.length) = some inDegree ∧
      Counts M.rows.length inDegree (inEdges M.rows [] M.rows.length) := by
  refine exists_exec_range (I := fun u ds ↦ Counts M.rows.length ds (inEdges M.rows [] u))
    (fun u ds hu h ↦ ?_) (counts_replicate M.rows.length)
  -- the vertices before the counter have got their edge from `u`
  have hstep : ∀ k ds, k < M.rows.length →
      Counts M.rows.length ds (fun v ↦ inEdges M.rows [] (if v < k then u + 1 else u) v) →
      ∃ ds', countEdge M.rows u ds k = some ds' ∧ Counts M.rows.length ds' fun v ↦
        inEdges M.rows [] (if v < k + 1 then u + 1 else u) v := by
    intro k ds hk h
    have hle : inEdges M.rows [] u k ≤ u := inEdges_le [] u k
    obtain ⟨ds', hcount, h'⟩ := countEdge_spec M h hu hk (by
      rw [if_neg (Nat.lt_irrefl k)]
      omega)
    refine ⟨ds', hcount, h'.congr fun v hv ↦ ?_⟩
    rcases eq_or_ne v k with rfl | hne
    · rw [Function.update_self, if_neg (Nat.lt_irrefl v), if_pos (Nat.lt_succ_self v),
        inEdges_succ]
      simp
    · have hiff : v < k + 1 ↔ v < k := by omega
      rw [Function.update_of_ne hne, if_congr hiff rfl rfl]
  obtain ⟨ds', hexec, h'⟩ := exists_exec_range hstep (h.congr fun v _ ↦ by simp)
  exact ⟨ds', hexec, h'.congr fun v hv ↦ by rw [if_pos hv]⟩

/-! ### The queue -/

variable {s t : State} {p : ℕ → Bool} {vertex : ℕ} {q : List ℕ}

theorem filter_range_succ (p : ℕ → Bool) (k : ℕ) :
    (List.range (k + 1)).filter p = (List.range k).filter p ++ if p k then [k] else [] := by
  rw [List.range_succ, List.filter_append, List.filter_singleton, cond_eq_ite]

/-- From `s` on, those of the first `k` vertices that meet `p` have been added. -/
structure Extends (s : State) (p : ℕ → Bool) (k : ℕ) (t : State) : Prop where
  res : t.res = s.res
  q : t.q = s.q ++ (List.range k).filter p
  num : t.num.1 = s.num.1 + ((List.range k).filter p).length

theorem Extends.push (h : Extends s p k t) (hp : p k = true) (hk : k < n)
    (hnum : s.num.1 + ((List.range n).filter p).length < 2 ^ 31) :
    ∃ t', t.push k = some t' ∧ Extends s p (k + 1) t' ∧ t'.inDegree = t.inDegree := by
  have hlen : ((List.range k).filter p).length + 1 ≤ ((List.range n).filter p).length := by
    have hsub := (List.range_sublist.2 (Nat.succ_le_of_lt hk)).filter p
    rw [filter_range_succ, if_pos hp] at hsub
    have hle := hsub.length_le
    rwa [List.length_append, List.length_singleton] at hle
  have hnum' := h.num
  let num : CInt := ⟨t.num.1 + 1, by have := t.num.2; omega⟩
  have hincr : t.num.incr = some num := dif_pos (by omega)
  refine ⟨{ t with q := t.q ++ [k], num := num }, ?_, ⟨h.res, ?_, ?_⟩, rfl⟩
  · rw [State.push, hincr]
    rfl
  · rw [filter_range_succ, if_pos hp, ← List.append_assoc, ← h.q]
  · rw [filter_range_succ, if_pos hp, List.length_append, List.length_singleton]
    show t.num.1 + 1 = _
    omega

theorem Extends.skip (h : Extends s p k t) (hp : p k = false) : Extends s p (k + 1) t := by
  have hsucc : (List.range (k + 1)).filter p = (List.range k).filter p := by
    rw [filter_range_succ, hp, if_neg Bool.false_ne_true, List.append_nil]
  exact ⟨h.res, hsucc ▸ h.q, hsucc ▸ h.num⟩

theorem Extends.start (s : State) (p : ℕ → Bool) (inDegree : List CInt) :
    Extends s p 0 { s with inDegree := inDegree } :=
  ⟨rfl, (List.append_nil _).symm, (Int.add_zero _).symm⟩

/-- What is listed is in order, and the queue has the other vertices without an edge from one that
is not listed. -/
structure Inv (M : AdjacencyMatrix) (s : State) : Prop where
  counts : Counts M.rows.length s.inDegree (inEdges M.rows s.res M.rows.length)
  nodup : (s.res ++ s.q).Nodup
  mem_iff : ∀ v, v ∈ s.res ++ s.q ↔
    v < M.rows.length ∧ inEdges M.rows s.res M.rows.length v = 0
  ordered : Ordered (Edge M.rows) s.res
  num : s.num.1 = (s.res ++ s.q).length

variable {M : AdjacencyMatrix}

theorem length_le_of_nodup {xs : List ℕ} (hnodup : xs.Nodup) (hlt : ∀ v ∈ xs, v < n) :
    xs.length ≤ n := by
  have hsub : xs ⊆ List.range n := fun v hv ↦ List.mem_range.2 (hlt v hv)
  have hle := (List.subperm_of_subset hnodup hsub).length_le
  rwa [List.length_range] at hle

/-- **At the start** the queue has the vertices without an edge to them. -/
theorem addVertices_spec (M : AdjacencyMatrix)
    (h : Counts M.rows.length inDegree (inEdges M.rows [] M.rows.length)) :
    ∃ s, exec addVertex ⟨inDegree, [], wrap 0, []⟩ (List.range M.rows.length) = some s ∧
      Inv M s := by
  let p : ℕ → Bool := fun v ↦ inEdges M.rows [] M.rows.length v = 0
  have hlen : ((List.range M.rows.length).filter p).length ≤ M.rows.length :=
    (List.length_filter_le ..).trans List.length_range.le
  have hlt := M.length_lt
  have hstep : ∀ k s, k < M.rows.length →
      Extends ⟨inDegree, [], wrap 0, []⟩ p k s ∧ s.inDegree = inDegree →
      ∃ t, addVertex s k = some t ∧
        Extends ⟨inDegree, [], wrap 0, []⟩ p (k + 1) t ∧ t.inDegree = inDegree := by
    rintro k s hk ⟨hs, heq⟩
    obtain ⟨d, hd, hval⟩ := h.value k hk
    rw [addVertex, heq, hd]
    simp only [Option.bind_eq_bind, Option.bind_some]
    split
    next hzero =>
      obtain ⟨t, hpush, ht, heq'⟩ := hs.push (n := M.rows.length)
        (decide_eq_true (show inEdges M.rows [] M.rows.length k = 0 by omega)) hk
        (show (0 : ℤ) + _ < _ by omega)
      exact ⟨t, hpush, ht, heq'.trans heq⟩
    next hzero =>
      exact ⟨s, rfl, hs.skip (decide_eq_false
        (show ¬ inEdges M.rows [] M.rows.length k = 0 by omega)), heq⟩
  obtain ⟨s, hexec, hs, heq⟩ := exists_exec_range hstep ⟨.start _ _ _, rfl⟩
  have hres : s.res = [] := hs.res
  have hq : s.q = (List.range M.rows.length).filter p := hs.q
  refine ⟨s, hexec, ?_, ?_, fun v ↦ ?_, ?_, ?_⟩
  · rwa [hres, heq]
  · rw [hres, hq, List.nil_append]
    exact List.nodup_range.filter p
  · rw [hres, hq, List.nil_append, List.mem_filter, List.mem_range, decide_eq_true_iff]
  · rw [hres]
    exact ordered_nil
  · rw [hs.num, hres, hq]
    exact Int.zero_add _

/-- The vertices that are left with no edge when `vertex` is listed. -/
def lastFrom (M : AdjacencyMatrix) (res : List ℕ) (vertex v : ℕ) : Bool :=
  Edge M.rows vertex v ∧ inEdges M.rows (res ++ [vertex]) M.rows.length v = 0

theorem Inv.first (h : Inv M s) (hq : s.q = vertex :: q) :
    (s.res ++ [vertex] ++ q).Nodup ∧ vertex ∉ s.res ∧ vertex < M.rows.length ∧
      inEdges M.rows s.res M.rows.length vertex = 0 := by
  have hnodup := h.nodup
  have hmem := h.mem_iff vertex
  rw [hq] at hnodup hmem
  have hvertex : vertex ∈ s.res ++ vertex :: q := List.mem_append_right _ List.mem_cons_self
  refine ⟨?_, fun hv ↦ ?_, hmem.1 hvertex⟩
  · rwa [List.append_assoc]
  · exact (List.nodup_append.1 hnodup).2.2 vertex hv vertex List.mem_cons_self rfl

/-- With them, the vertices in the result and in the queue are again those that are left with no
edge. -/
theorem Inv.mem_turn (h : Inv M s) (hq : s.q = vertex :: q) :
    (s.res ++ [vertex] ++ q ++
      (List.range M.rows.length).filter (lastFrom M s.res vertex)).Nodup ∧
    ∀ v, v ∈ s.res ++ [vertex] ++ q ++
        (List.range M.rows.length).filter (lastFrom M s.res vertex) ↔
      v < M.rows.length ∧ inEdges M.rows (s.res ++ [vertex]) M.rows.length v = 0 := by
  obtain ⟨hnodup, hres, hlt, -⟩ := h.first hq
  have hmem : ∀ v, v ∈ s.res ++ [vertex] ++ q ↔
      v < M.rows.length ∧ inEdges M.rows s.res M.rows.length v = 0 := fun v ↦ by
    rw [← h.mem_iff, hq, List.append_assoc, List.singleton_append]
  have hnew : ∀ v, Edge M.rows vertex v → v ∉ s.res ++ [vertex] ++ q := fun v hedge hv ↦ by
    have hzero := ((hmem v).1 hv).2
    rw [inEdges_concat hlt hres hedge] at hzero
    cases hzero
  have hlast : ∀ v, lastFrom M s.res vertex v = true ↔ Edge M.rows vertex v ∧
      inEdges M.rows (s.res ++ [vertex]) M.rows.length v = 0 := fun v ↦ decide_eq_true_iff
  constructor
  · refine List.nodup_append.2 ⟨hnodup, List.nodup_range.filter _, fun v hv w hw ↦ ?_⟩
    rintro rfl
    exact hnew v ((hlast v).1 (List.mem_filter.1 hw).2).1 hv
  · intro v
    rw [List.mem_append, List.mem_filter, List.mem_range, hlast]
    by_cases hedge : Edge M.rows vertex v
    · rw [or_iff_right (hnew v hedge), and_iff_right hedge]
    · rw [hmem, inEdges_concat_of_not hedge, or_iff_left fun hv ↦ hedge hv.2.1]

/-- **The loop over the vertices** takes the edges from `vertex` from the counters, and adds the
vertices that are left with none. -/
theorem visits_spec {s' : State} (hcounts : Counts M.rows.length s'.inDegree
      (inEdges M.rows res M.rows.length)) (hres : vertex ∉ res) (hlt : vertex < M.rows.length)
    (hnum : s'.num.1 + ((List.range M.rows.length).filter (lastFrom M res vertex)).length <
      2 ^ 31) :
    ∃ t, exec (visit M.rows vertex) s' (List.range M.rows.length) = some t ∧
      Extends s' (lastFrom M res vertex) M.rows.length t ∧
      Counts M.rows.length t.inDegree (inEdges M.rows (res ++ [vertex]) M.rows.length) := by
  have hstep : ∀ k t, k < M.rows.length →
      Extends s' (lastFrom M res vertex) k t ∧ Counts M.rows.length t.inDegree (fun v ↦
        inEdges M.rows (if v < k then res ++ [vertex] else res) M.rows.length v) →
      ∃ t', visit M.rows vertex t k = some t' ∧
        Extends s' (lastFrom M res vertex) (k + 1) t' ∧ Counts M.rows.length t'.inDegree fun v ↦
          inEdges M.rows (if v < k + 1 then res ++ [vertex] else res) M.rows.length v := by
    rintro k t hk ⟨ht, hcounts⟩
    rw [visit, M.isEdge_eq hlt hk]
    simp only [Option.bind_eq_bind, Option.bind_some, decide_eq_true_eq]
    have hiff : ∀ v, v ≠ k → (v < k + 1 ↔ v < k) := fun v hne ↦ by omega
    split
    next hedge =>
      obtain ⟨d, hd, hval⟩ := hcounts.value k hk
      have hone := inEdges_concat hlt hres hedge
      rw [if_neg (Nat.lt_irrefl k), hone] at hval
      let d' : CInt := ⟨d.1 - 1, by have := d.2; omega⟩
      have hd' : d'.1 = inEdges M.rows (res ++ [vertex]) M.rows.length k := by
        show d.1 - 1 = _
        omega
      have hdecr : d.decr = some d' := dif_pos (by omega)
      rw [hd, Option.bind_some, hdecr, Option.bind_some]
      have hset : Counts M.rows.length (t.inDegree.set k d') fun v ↦
          inEdges M.rows (if v < k + 1 then res ++ [vertex] else res) M.rows.length v := by
        refine (hcounts.set hd' k).congr fun v _ ↦ ?_
        rcases eq_or_ne v k with rfl | hne
        · rw [Function.update_self, if_pos (Nat.lt_succ_self v)]
        · rw [Function.update_of_ne hne, if_congr (hiff v hne) rfl rfl]
      have ht' : Extends s' (lastFrom M res vertex) k
          { t with inDegree := t.inDegree.set k d' } := ⟨ht.res, ht.q, ht.num⟩
      split
      next hzero =>
        obtain ⟨t', hpush, ht', heq⟩ := ht'.push (decide_eq_true ⟨hedge, by omega⟩) hk hnum
        exact ⟨t', hpush, ht', heq ▸ hset⟩
      next hzero =>
        have hnot : lastFrom M res vertex k = false := decide_eq_false fun hlast ↦ hzero (by
          rw [hd', hlast.2]
          rfl)
        exact ⟨_, rfl, ht'.skip hnot, hset⟩
    next hedge =>
      refine ⟨t, rfl, ht.skip (decide_eq_false fun hlast ↦ hedge hlast.1),
        hcounts.congr fun v _ ↦ ?_⟩
      rcases eq_or_ne v k with rfl | hne
      · rw [if_neg (Nat.lt_irrefl v), if_pos (Nat.lt_succ_self v), inEdges_concat_of_not hedge]
      · rw [if_congr (hiff v hne) rfl rfl]
  obtain ⟨t, hexec, ht, hcounts⟩ := exists_exec_range hstep
    ⟨Extends.start s' _ s'.inDegree, hcounts.congr fun v _ ↦ by rw [if_neg (Nat.not_lt_zero v)]⟩
  exact ⟨t, hexec, ht, hcounts.congr fun v hv ↦ by rw [if_pos hv]⟩

/-- **A turn** of the loop lists the first vertex of the queue. -/
theorem Inv.turn (h : Inv M s) (hq : s.q = vertex :: q) :
    ∃ t, exec (visit M.rows vertex) { s with res := s.res ++ [vertex], q := q }
        (List.range M.rows.length) = some t ∧ Inv M t ∧ t.res = s.res ++ [vertex] := by
  obtain ⟨-, hres, hlt, hzero⟩ := h.first hq
  obtain ⟨hnodup, hmem⟩ := h.mem_turn hq
  have hnum := h.num
  rw [hq, List.length_append, List.length_cons] at hnum
  have hle := length_le_of_nodup hnodup fun v hv ↦ ((hmem v).1 hv).1
  simp only [List.length_append, List.length_singleton] at hle
  have hlength := M.length_lt
  let s' : State := { s with res := s.res ++ [vertex], q := q }
  have hs' : s'.num = s.num := rfl
  have hnum' : s'.num.1 + ((List.range M.rows.length).filter (lastFrom M s.res vertex)).length <
      2 ^ 31 := by
    rw [hs']
    omega
  obtain ⟨t, hexec, ht, hcounts⟩ := visits_spec (show Counts _ s'.inDegree _ from h.counts) hres
    hlt hnum'
  have htres : t.res = s.res ++ [vertex] := ht.res
  have htq : t.q = q ++ (List.range M.rows.length).filter (lastFrom M s.res vertex) := ht.q
  have hlisted : t.res ++ t.q = s.res ++ [vertex] ++ q ++
      (List.range M.rows.length).filter (lastFrom M s.res vertex) := by
    rw [htres, htq, ← List.append_assoc]
  refine ⟨t, hexec, ⟨?_, ?_, ?_, ?_, ?_⟩, htres⟩
  · rwa [htres]
  · rwa [hlisted]
  · rwa [hlisted, htres]
  · rw [htres]
    exact h.ordered.concat hres fun u huv ↦
      inEdges_eq_zero_iff.1 hzero u (huv.lt M).1 huv
  · rw [ht.num, hs', hlisted]
    simp only [List.length_append, List.length_singleton]
    omega

/-- **The loop** ends when all vertices that can be listed are. -/
theorem queueLoop_spec {fuel : ℕ} (h : Inv M s) (hfuel : M.rows.length < fuel + s.res.length) :
    ∃ t, queueLoop M.rows (List.range M.rows.length) fuel s = some t ∧ Inv M t ∧ t.q = [] := by
  have hle : s.res.length ≤ M.rows.length := by
    have hle := length_le_of_nodup h.nodup fun v hv ↦ ((h.mem_iff v).1 hv).1
    rw [List.length_append] at hle
    omega
  induction fuel generalizing s with
  | zero => omega
  | succ fuel ih =>
    cases hq : s.q with
    | nil => exact ⟨s, by rw [queueLoop, hq], h, hq⟩
    | cons vertex q =>
      obtain ⟨t, hexec, ht, hres⟩ := h.turn hq
      have hlen : t.res.length = s.res.length + 1 := by
        rw [hres, List.length_append, List.length_singleton]
      have hle' : t.res.length ≤ M.rows.length := by
        have hle := length_le_of_nodup ht.nodup fun v hv ↦ ((ht.mem_iff v).1 hv).1
        rw [List.length_append] at hle
        omega
      obtain ⟨t', hloop, ht'⟩ := ih ht (by omega) hle'
      refine ⟨t', ?_, ht'⟩
      rw [queueLoop, hq]
      simp only [Option.bind_eq_bind, hexec, Option.bind_some, hloop]

/-! ### The result -/

/-- What has been listed when the queue is empty. -/
theorem Inv.right (h : Inv M s) (hq : s.q = []) :
    Right M.rows s.res (s.num.1 ≠ M.rows.length) := by
  have hmem := h.mem_iff
  have hnum := h.num
  rw [hq, List.append_nil] at hmem hnum
  have hmem_iff : ∀ v, v ∈ s.res ↔
      v < M.rows.length ∧ ¬ BehindCycle (Edge M.rows) v := by
    intro v
    refine ⟨fun hv ↦ ⟨((hmem v).1 hv).1, h.ordered.not_behindCycle hv⟩, fun ⟨hlt, hnot⟩ ↦ ?_⟩
    by_contra hv
    -- the vertices that are left out have an edge from another one of them
    refine hnot (behindCycle_of_predecessor (S := {v | v < M.rows.length ∧ v ∉ s.res})
      ((Set.finite_lt_nat M.rows.length).subset fun v hv ↦ hv.1) (fun v hv ↦ ?_) ⟨hlt, hv⟩)
    by_contra hall
    refine hv.2 ((hmem v).2 ⟨hv.1, inEdges_eq_zero_iff.2 fun u hu huv ↦ ?_⟩)
    by_contra hmem
    exact hall ⟨u, ⟨hu, hmem⟩, huv⟩
  have hall : s.res.length = M.rows.length ↔ ∀ v, ¬ Relation.TransGen (Edge M.rows) v v := by
    constructor
    · intro hlen v hcycle
      have hv : v < M.rows.length := by
        obtain ⟨w, -, hwv⟩ := Relation.TransGen.tail'_iff.1 hcycle
        exact (hwv.lt M).2
      have hperm : s.res.Perm (List.range M.rows.length) :=
        (List.subperm_of_subset h.ordered.nodup fun v hv ↦
          List.mem_range.2 ((hmem v).1 hv).1).perm_of_length_le
          (by rw [List.length_range, hlen])
      have hlisted : v ∈ s.res := hperm.mem_iff.2 (List.mem_range.2 hv)
      exact ((hmem_iff v).1 hlisted).2 ⟨v, hcycle, .refl⟩
    · intro hacyclic
      have hperm : s.res.Perm (List.range M.rows.length) := by
        refine (List.perm_ext_iff_of_nodup h.ordered.nodup List.nodup_range).2 fun v ↦ ?_
        rw [hmem_iff, List.mem_range]
        exact and_iff_left fun ⟨c, hcycle, _⟩ ↦ hacyclic c hcycle
      rw [hperm.length_eq, List.length_range]
  refine ⟨h.ordered.nodup, fun u _ v hv huv ↦ (h.ordered.idxOf_lt hv huv).2, hmem_iff, hall, ?_⟩
  rw [decide_eq_true_iff, hnum, ne_eq, Int.natCast_inj, hall, not_forall_not]

/-- **`topSort`** ends, and lists the vertices that are not behind a cycle in topological order. -/
theorem topSort_right (M : AdjacencyMatrix) : ∃ n, ∀ fuel ≥ n, ∃ res hasCycle,
    topSort fuel M.rows = some (res, hasCycle) ∧ Right M.rows res hasCycle := by
  obtain ⟨inDegree, hcount, hcounts⟩ := countEdges_spec M
  obtain ⟨s, hexec, h⟩ := addVertices_spec M hcounts
  refine ⟨M.rows.length + 1, fun fuel hfuel ↦ ?_⟩
  obtain ⟨t, hloop, ht, hq⟩ := queueLoop_spec h (show M.rows.length < fuel + s.res.length by omega)
  refine ⟨t.res, t.num.1 ≠ M.rows.length, ?_, ht.right hq⟩
  have hrow : M.rows[0]? = some (M.rows.get ⟨0, M.pos⟩) := List.getElem?_eq_getElem M.pos
  have hsquare : M.rows.length = (M.rows.get ⟨0, M.pos⟩).length :=
    (M.square _ (List.getElem_mem M.pos)).symm
  rw [topSort, hrow]
  simp only [Option.bind_eq_bind, Option.bind_some]
  rw [if_pos hsquare, M.counter_eq]
  simp only [Option.bind_some, hcount, hexec, hloop]

/-- The edges of a cycle, with a vertex before and one behind it. -/
def testMatrix : AdjacencyMatrix where
  rows := [[0, 1, 0, 0], [0, 0, 1, 0], [0, 1, 0, 1], [0, 0, 0, 0]].map (·.map wrap)
  pos := by decide
  square := by decide
  memory := by decide

example : topSort 5 testMatrix.rows = some ([0], true) := by decide

end TopologicalSorting
