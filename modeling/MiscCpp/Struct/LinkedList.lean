import MiscCpp.Library.CInt
import MiscCpp.Library.MergeRuns
import MiscCpp.Library.SinglyLinked

/-!
# Merge sort of a linked list

`List::MergeSortTopDown` and `List::MergeSortBottomUp`, with the values of the nodes, which they do
not write, and the pointers, which are all they write.

`Merge` of two disjoint lists links their nodes in the order of `List.merge` (`merge_spec`). From
the top down the list is cut into two parts that are both shorter (`slowLoop_spec`). From the
bottom up a pass cuts off two runs at a time and links what they are merged to behind the runs
before (`pass_spec`), so it doubles the length of the sorted runs.

The length of the runs is an `int`. It is doubled while it is less than the number of nodes, and on
a list of more than `2 ^ 30` nodes it overflows (`mergeSortsRight_iff`).
-/

open Function SinglyLinked MergeRuns CInt

namespace LinkedList

/-! ### The operations -/

/-- The address of a node: those of the list, and the local variables of `MergeSortBottomUp` and of
`Merge`. -/
inductive NodeRef (ι : Type) where
  | node (a : ι)
  | dummy
  | mergeDummy
  deriving DecidableEq

/-- The pointers of the nodes. -/
abbrev Next (ι : Type) := NodeRef ι → Option (NodeRef ι)

variable {ι β : Type} [DecidableEq ι] [LinearOrder β] (value : NodeRef ι → β)

/-- `while (lhs && rhs)`, for `fuel` turns. -/
def mergeLoop : ℕ → Next ι → NodeRef ι → Option (NodeRef ι) → Option (NodeRef ι) →
    Option (Next ι × NodeRef ι × Option (NodeRef ι) × Option (NodeRef ι))
  | 0, _, _, _, _ => none
  | fuel + 1, next, p, some l, some r =>
    if value l < value r then
      let next := update next p (some l)
      mergeLoop fuel next l (next l) (some r)
    else
      let next := update next p (some r)
      mergeLoop fuel next r (some l) (next r)
  | _ + 1, next, p, lhs, rhs => some (next, p, lhs, rhs)

/-- `while (p->next) p = p->next` -/
def goLast (next : Next ι) : ℕ → NodeRef ι → Option (NodeRef ι)
  | 0, _ => none
  | fuel + 1, p =>
    match next p with
    | none => some p
    | some q => goLast next fuel q

/-- `Merge`: the pointers, and the first and the last node. -/
def merge (fuel : ℕ) (next : Next ι) (lhs rhs : Option (NodeRef ι)) :
    Option (Next ι × Option (NodeRef ι) × NodeRef ι) := do
  let next := update next .mergeDummy none
  let (next, p, lhs, rhs) ← mergeLoop value fuel next .mergeDummy lhs rhs
  let next := update next p (lhs.or rhs)
  let p ← goLast next fuel p
  some (next, next .mergeDummy, p)

/-- `while (fast && fast->next)` -/
def slowLoop (next : Next ι) : ℕ → Option (NodeRef ι) → Option (NodeRef ι) →
    Option (Option (NodeRef ι))
  | 0, _, _ => none
  | fuel + 1, slow, fast =>
    match fast with
    | none => some slow
    | some f =>
      match next f with
      | none => some slow
      | some g => do
        let s ← slow
        slowLoop next fuel (next s) (next g)

/-- The function `sort` of `MergeSortTopDown`, for `steps` levels. The order of the two calls is not
specified. -/
def sort (fuel : ℕ) (leftFirst : Bool) : ℕ → Next ι → Option (NodeRef ι) →
    Option (Next ι × Option (NodeRef ι))
  | 0, _, _ => none
  | _ + 1, next, none => some (next, none)
  | steps + 1, next, some node =>
    match next node with
    | none => some (next, some node)
    | some fast => do
      let slow ← slowLoop next fuel (some node) (some fast)
      let slow ← slow
      let mid := next slow
      let next := update next slow none
      if leftFirst then do
        let (next, l) ← sort fuel leftFirst steps next (some node)
        let (next, r) ← sort fuel leftFirst steps next mid
        let (next, first, _) ← merge value fuel next l r
        some (next, first)
      else do
        let (next, r) ← sort fuel leftFirst steps next mid
        let (next, l) ← sort fuel leftFirst steps next (some node)
        let (next, first, _) ← merge value fuel next l r
        some (next, first)

def mergeSortTopDown (leftFirst : Bool) (fuel : ℕ) (next : Next ι) (head : Option (NodeRef ι)) :
    Option (Next ι × Option (NodeRef ι)) :=
  sort value fuel leftFirst fuel next head

/-- `while (--n && node)` -/
def splitLoop (next : Next ι) : ℕ → Option (NodeRef ι) → CInt → Option (Option (NodeRef ι))
  | 0, _, _ => none
  | fuel + 1, node, n => do
    let n ← n.decr
    if n.1 ≠ 0 then
      match node with
      | some a => splitLoop next fuel (next a) n
      | none => some none
    else some node

/-- The function `split` of `MergeSortBottomUp`: the pointers, and the rest of the list. -/
def split (fuel : ℕ) (next : Next ι) (node : Option (NodeRef ι)) (n : CInt) :
    Option (Next ι × Option (NodeRef ι)) := do
  let node ← splitLoop next fuel node n
  match node with
  | some a => some (update next a none, next a)
  | none => some (next, none)

/-- `while (node)`, the pass with runs of length `n`. -/
def pass (fuel : ℕ) (n : CInt) : ℕ → Next ι → Option (NodeRef ι) → NodeRef ι → Option (Next ι)
  | 0, _, _, _ => none
  | _ + 1, next, none, _ => some next
  | turns + 1, next, some l, tail => do
    let (next, r) ← split fuel next (some l) n
    let (next, node) ← split fuel next r n
    let (next, first, last) ← merge value fuel next (some l) r
    pass fuel n turns (update next tail first) node last

/-- `for (int n = 1; n < len; n <<= 1)` -/
def passes (fuel : ℕ) (len : CInt) : ℕ → Next ι → CInt → Option (Next ι)
  | 0, _, _ => none
  | turns + 1, next, n =>
    if n < len then do
      let next ← pass value fuel n fuel next (next .dummy) .dummy
      passes fuel len turns next (wrap (2 * n.1))
    else some next

/-- `while (node = node->next) ++len` -/
def lenLoop (next : Next ι) : ℕ → NodeRef ι → CInt → Option CInt
  | 0, _, _ => none
  | fuel + 1, node, len =>
    match next node with
    | none => some len
    | some node => do
      let len ← len.incr
      lenLoop next fuel node len

def mergeSortBottomUp (fuel : ℕ) (next : Next ι) (head : Option (NodeRef ι)) :
    Option (Next ι × Option (NodeRef ι)) :=
  match head with
  | none => some (next, head)
  | some node =>
    match next node with
    | none => some (next, head)
    | some _ => do
      let len ← lenLoop next fuel node 1
      let next ← passes value fuel len fuel (update next .dummy head) 1
      some (next, next .dummy)

/-! ### Merging -/

variable {next next' : Next ι} {p q lhs rhs : Option (NodeRef ι)} {a b node tail : NodeRef ι}
  {ls rs xs ys : List (NodeRef ι)} {fuel k : ℕ} {n : CInt}

/-- The nodes of both lists in the order in which `Merge` links them: of equal ones the node of the
right list comes first. -/
def merged (value : NodeRef ι → β) (ls rs : List (NodeRef ι)) : List (NodeRef ι) :=
  rs.merge ls fun a b ↦ value a ≤ value b

omit [DecidableEq ι] in
theorem merged_perm (ls rs : List (NodeRef ι)) : (merged value ls rs).Perm (ls ++ rs) :=
  (List.merge_perm_append _).trans List.perm_append_comm

/-- The nodes `xs` are linked behind `p`, and the others have the pointers they had before. -/
structure LinksBehind (next next' : Next ι) (p : NodeRef ι) (xs : List (NodeRef ι)) : Prop where
  seg : Seg next' (next' p) xs none
  frame : ∀ a, a ≠ p → a ∉ xs → next' a = next a

theorem LinksBehind.cons {p : NodeRef ι} (h : LinksBehind (update next p (some a)) next' a xs)
    (hp : p ∉ a :: xs) : LinksBehind next next' p (a :: xs) where
  seg := by
    rw [List.mem_cons, not_or] at hp
    rw [h.frame p hp.1 hp.2, update_self]
    exact ⟨rfl, h.seg⟩
  frame b hbp hb := by
    rw [List.mem_cons, not_or] at hb
    rw [h.frame b hb.1 hb.2, update_of_ne hbp]

/-- The rest of one list, when the other one has ended. -/
theorem LinksBehind.of_seg {p : NodeRef ι} {q : Option (NodeRef ι)} (h : Seg next q xs none)
    (hp : p ∉ xs) : LinksBehind next (update next p q) p xs where
  seg := by
    rw [update_self]
    exact h.congr fun a ha ↦ update_of_ne (ne_of_mem_of_not_mem ha hp) ..
  frame a hap _ := update_of_ne hap ..

/-- **The loop** links the merged nodes behind `p`, when the last pointer is written behind it. -/
theorem mergeLoop_spec {p : NodeRef ι} (hl : Seg next lhs ls none) (hr : Seg next rhs rs none)
    (hnodup : (p :: (ls ++ rs)).Nodup) (hfuel : ls.length + rs.length < fuel) :
    ∃ next' p' lhs' rhs', mergeLoop value fuel next p lhs rhs = some (next', p', lhs', rhs') ∧
      LinksBehind next (update next' p' (lhs'.or rhs')) p (merged value ls rs) ∧
      ∃ pre suf, p :: merged value ls rs = pre ++ p' :: suf := by
  induction fuel generalizing next p lhs rhs ls rs with
  | zero => exact absurd hfuel (Nat.not_lt_zero _)
  | succ fuel ih =>
    obtain ⟨hp, hnodup'⟩ := List.nodup_cons.1 hnodup
    have hp' : p ∉ merged value ls rs := fun h ↦
      hp ((merged_perm value ls rs).mem_iff.1 h)
    cases ls with
    | nil =>
      obtain rfl := hl
      refine ⟨next, p, none, rhs, by cases rhs <;> rfl, ?_, [], merged value [] rs, rfl⟩
      rw [merged, List.merge_right] at hp' ⊢
      exact .of_seg hr hp'
    | cons l ls =>
      cases rs with
      | nil =>
        obtain rfl := hr
        refine ⟨next, p, lhs, none, by cases lhs <;> rfl, ?_, [], merged value (l :: ls) [], rfl⟩
        rw [merged, List.nil_merge] at hp' ⊢
        rw [Option.or_none]
        exact .of_seg hl hp'
      | cons r rs =>
        rw [List.length_cons, List.length_cons] at hfuel
        rw [List.mem_append, not_or] at hp
        -- the lists without the node that is linked, whose pointers are not written
        have hframe : ∀ {q : Option (NodeRef ι)} {xs : List (NodeRef ι)} (c : NodeRef ι),
            Seg next q xs none → p ∉ xs → Seg (update next p (some c)) q xs none := fun c h hx ↦
          h.congr fun a ha ↦ update_of_ne (ne_of_mem_of_not_mem ha hx) ..
        by_cases hlt : value l < value r
        · have hmerged : merged value (l :: ls) (r :: rs) = l :: merged value ls (r :: rs) :=
            List.cons_merge_cons_neg _ _ _ (by simpa using hlt)
          obtain ⟨hlhs, hl'⟩ := hframe l hl hp.1
          have hr' := hframe l hr hp.2
          obtain ⟨next', p', lhs', rhs', hloop, L, pre, suf, hsplit⟩ :=
            ih hl' hr' hnodup' (by rw [List.length_cons]; omega)
          rw [hmerged] at hp' ⊢
          refine ⟨next', p', lhs', rhs', ?_, L.cons hp', p :: pre, suf, ?_⟩
          · rw [hlhs, hr.1, mergeLoop, if_pos hlt, ← hr.1]
            exact hloop
          · rw [hsplit, List.cons_append]
        · have hmerged : merged value (l :: ls) (r :: rs) = r :: merged value (l :: ls) rs :=
            List.cons_merge_cons_pos _ _ _ (by simpa using hlt)
          have hl' := hframe r hl hp.1
          obtain ⟨hrhs, hr'⟩ := hframe r hr hp.2
          obtain ⟨next', p', lhs', rhs', hloop, L, pre, suf, hsplit⟩ :=
            ih hl' hr' (List.perm_middle.nodup_iff.1 hnodup') (by rw [List.length_cons]; omega)
          rw [hmerged] at hp' ⊢
          refine ⟨next', p', lhs', rhs', ?_, L.cons hp', p :: pre, suf, ?_⟩
          · rw [hrhs, hl.1, mergeLoop, if_neg hlt, ← hl.1]
            exact hloop
          · rw [hsplit, List.cons_append]

omit [DecidableEq ι] in
theorem goLast_eq {p : NodeRef ι} (h : Seg next (next p) xs none) (hfuel : xs.length < fuel) :
    goLast next fuel p = some (xs.getLast?.getD p) := by
  induction fuel generalizing p xs with
  | zero => exact absurd hfuel (Nat.not_lt_zero _)
  | succ fuel ih =>
    rw [goLast]
    cases xs with
    | nil =>
      rw [seg_nil] at h
      rw [h]
      rfl
    | cons x xs =>
      rw [h.1]
      show goLast next fuel x = _
      rw [ih h.2 (Nat.lt_of_succ_lt_succ hfuel), List.getLast?_cons, Option.getD_some]

/-- **`Merge`** of two disjoint lists. -/
theorem merge_spec (hl : Seg next lhs ls none) (hr : Seg next rhs rs none)
    (hnodup : (NodeRef.mergeDummy :: (ls ++ rs)).Nodup) (hfuel : ls.length + rs.length < fuel) :
    ∃ next', merge value fuel next lhs rhs = some (next', next' .mergeDummy,
        (merged value ls rs).getLast?.getD .mergeDummy) ∧
      LinksBehind next next' .mergeDummy (merged value ls rs) := by
  obtain ⟨hp, -⟩ := List.nodup_cons.1 hnodup
  rw [List.mem_append, not_or] at hp
  have hl' : Seg (update next .mergeDummy none) lhs ls none := hl.congr fun a ha ↦
    update_of_ne (ne_of_mem_of_not_mem ha hp.1) ..
  have hr' : Seg (update next .mergeDummy none) rhs rs none := hr.congr fun a ha ↦
    update_of_ne (ne_of_mem_of_not_mem ha hp.2) ..
  obtain ⟨next', p', lhs', rhs', hloop, L, pre, suf, hsplit⟩ :=
    mergeLoop_spec value hl' hr' hnodup hfuel
  refine ⟨update next' p' (lhs'.or rhs'), ?_, L.seg, fun a ha hmem ↦ ?_⟩
  · -- the loop has stopped at one of the merged nodes, or at the dummy in front of them
    have hseg : Seg (update next' p' (lhs'.or rhs')) (some .mergeDummy)
        (.mergeDummy :: merged value ls rs) none := ⟨rfl, L.seg⟩
    rw [hsplit] at hseg
    obtain ⟨-, -, -, hsuf⟩ := seg_append.1 hseg
    have hlen := congrArg List.length hsplit
    rw [List.length_cons, (merged_perm value ls rs).length_eq, List.length_append,
      List.length_append, List.length_cons] at hlen
    have hlast := congrArg List.getLast? hsplit
    rw [List.getLast?_cons, List.getLast?_append_cons, List.getLast?_cons] at hlast
    rw [merge, hloop]
    simp only [Option.bind_eq_bind, Option.bind_some]
    rw [goLast_eq hsuf (by omega), Option.some.inj hlast]
    rfl
  · rw [L.frame a ha hmem, update_of_ne ha]

/-! ### Cutting a list -/

omit [DecidableEq ι] in
theorem splitLoop_eq (h : Seg next p xs none) (hn : n.1 = k + 1) (hfuel : xs.length < fuel) :
    splitLoop next fuel p n = some (xs.drop k).head? := by
  induction fuel generalizing p xs n k with
  | zero => exact absurd hfuel (Nat.not_lt_zero _)
  | succ fuel ih =>
    have hdecr : n.decr = some ⟨n.1 - 1, by have := n.2; omega⟩ := dif_pos (by omega)
    rw [splitLoop, hdecr]
    simp only [Option.bind_eq_bind, Option.bind_some]
    cases k with
    | zero =>
      rw [if_neg (by omega), h.eq_head?]
      rfl
    | succ k =>
      rw [if_pos (by omega)]
      cases xs with
      | nil =>
        obtain rfl := h
        rfl
      | cons x xs =>
        obtain ⟨rfl, h⟩ := h
        show splitLoop next fuel (next x) _ = some (xs.drop k).head?
        have hk : n.1 - 1 = k + 1 := by omega
        exact ih h hk (Nat.lt_of_succ_lt_succ hfuel)

/-- **`split`** cuts the list behind `n` nodes. -/
theorem split_spec (h : Seg next p xs none) (hnodup : xs.Nodup) (hn : n.1 = k + 1)
    (hfuel : xs.length < fuel) :
    ∃ next' rest, split fuel next p n = some (next', rest) ∧
      Seg next' p (xs.take (k + 1)) none ∧ Seg next' rest (xs.drop (k + 1)) none ∧
      ∀ a ∉ xs, next' a = next a := by
  rw [split, splitLoop_eq h hn hfuel]
  simp only [Option.bind_eq_bind, Option.bind_some]
  cases hdrop : xs.drop k with
  | nil =>
    have hle := List.drop_eq_nil_iff.1 hdrop
    refine ⟨next, none, rfl, ?_, ?_, fun _ _ ↦ rfl⟩
    · rw [List.take_of_length_le (Nat.le_succ_of_le hle)]
      exact h
    · rw [List.drop_eq_nil_of_le (Nat.le_succ_of_le hle)]
      rfl
  | cons a post =>
    have hxs : xs = xs.take k ++ a :: post := by rw [← hdrop, List.take_append_drop]
    have htake : xs.take (k + 1) = xs.take k ++ [a] := by
      rw [List.take_add_one, ← List.head?_drop, hdrop]
      rfl
    have hpost : xs.drop (k + 1) = post := by
      rw [← List.drop_drop, hdrop]
      rfl
    have ha : a ∈ xs := hxs ▸ List.mem_append_right _ List.mem_cons_self
    rw [hxs] at h hnodup
    rw [htake, hpost]
    exact ⟨update next a none, next a, rfl, (h.cut hnodup).1, (h.cut hnodup).2,
      fun b hb ↦ update_of_ne (ne_of_mem_of_not_mem ha hb).symm ..⟩

omit [DecidableEq ι] in
/-- **The two pointers** of `MergeSortTopDown` stop at a node with nodes behind it. -/
theorem slowLoop_spec {slow : NodeRef ι} {fast : Option (NodeRef ι)}
    (hs : Seg next (next slow) ys none) (hf : Seg next fast xs none) (hne : ys ≠ [])
    (hle : xs.length ≤ ys.length) (hfuel : xs.length < fuel) :
    ∃ pre a post, slow :: ys = pre ++ a :: post ∧ post ≠ [] ∧
      slowLoop next fuel (some slow) fast = some (some a) := by
  induction fuel generalizing slow fast xs ys with
  | zero => exact absurd hfuel (Nat.not_lt_zero _)
  | succ fuel ih =>
    match xs, hf with
    | [], rfl => exact ⟨[], slow, ys, rfl, hne, rfl⟩
    | [f], ⟨rfl, hf⟩ =>
      rw [seg_nil] at hf
      exact ⟨[], slow, ys, rfl, hne, by rw [slowLoop, hf]⟩
    | f :: g :: xs, ⟨rfl, hf, hrest⟩ =>
      match ys, hs with
      | [], _ => exact absurd rfl hne
      | y :: ys, ⟨hy, hs⟩ =>
        rw [List.length_cons, List.length_cons, List.length_cons] at hle
        have hne' : ys ≠ [] := List.ne_nil_of_length_pos (by omega)
        obtain ⟨pre, a, post, hsplit, hpost, hloop⟩ :=
          ih hs hrest hne' (by omega) (by rw [List.length_cons, List.length_cons] at hfuel; omega)
        refine ⟨slow :: pre, a, post, by rw [hsplit, List.cons_append], hpost, ?_⟩
        rw [slowLoop, hf]
        simp only [Option.bind_eq_bind, Option.bind_some]
        rw [hy]
        exact hloop

/-! ### From the top down -/

/-- The nodes `xs` have been sorted: `ys` is linked from `head` on. -/
structure Sorted (next next' : Next ι) (head : Option (NodeRef ι)) (xs ys : List (NodeRef ι)) :
    Prop where
  seg : Seg next' head ys none
  perm : ys.Perm xs
  sorted : ys.Pairwise (value · ≤ value ·)
  frame : ∀ a, a ≠ .mergeDummy → a ∉ xs → next' a = next a

/-- A function that sorts the nodes `xs`, wherever the pointer to them comes from. -/
def SortsNodes (f : Next ι → Option (NodeRef ι) → Option (Next ι × Option (NodeRef ι)))
    (xs : List (NodeRef ι)) : Prop :=
  ∀ next p, Seg next p xs none → ∃ next' head ys, f next p = some (next', head) ∧
    Sorted value next next' head xs ys

/-- Two disjoint lists that have been sorted. -/
structure BothSorted (next next' : Next ι) (l r : Option (NodeRef ι))
    (xs ys xs' ys' : List (NodeRef ι)) : Prop where
  seg_left : Seg next' l xs' none
  seg_right : Seg next' r ys' none
  perm_left : xs'.Perm xs
  perm_right : ys'.Perm ys
  sorted_left : xs'.Pairwise (value · ≤ value ·)
  sorted_right : ys'.Pairwise (value · ≤ value ·)
  frame : ∀ a, a ≠ .mergeDummy → a ∉ xs → a ∉ ys → next' a = next a

omit [DecidableEq ι] in
theorem BothSorted.swap {l r : Option (NodeRef ι)} {xs' ys' : List (NodeRef ι)}
    (h : BothSorted value next next' l r xs ys xs' ys') :
    BothSorted value next next' r l ys xs ys' xs' :=
  ⟨h.seg_right, h.seg_left, h.perm_right, h.perm_left, h.sorted_right, h.sorted_left,
    fun a ha hy hx ↦ h.frame a ha hx hy⟩

omit [DecidableEq ι] in
/-- One list is sorted after the other. -/
theorem SortsNodes.both {f : Next ι → Option (NodeRef ι) → Option (Next ι × Option (NodeRef ι))}
    (hx : SortsNodes value f xs) (hy : SortsNodes value f ys)
    (hnodup : (NodeRef.mergeDummy :: (xs ++ ys)).Nodup) (hp : Seg next p xs none)
    (hq : Seg next q ys none) :
    ∃ next₁ l next₂ r xs' ys', f next p = some (next₁, l) ∧ f next₁ q = some (next₂, r) ∧
      BothSorted value next next₂ l r xs ys xs' ys' := by
  obtain ⟨hdummy, hnodup⟩ := List.nodup_cons.1 hnodup
  rw [List.mem_append, not_or] at hdummy
  obtain ⟨-, -, hdisj⟩ := List.nodup_append.1 hnodup
  obtain ⟨next₁, l, xs', hf₁, S₁⟩ := hx next p hp
  have hq' : Seg next₁ q ys none := hq.congr fun a ha ↦
    S₁.frame a (ne_of_mem_of_not_mem ha hdummy.2) fun hmem ↦ hdisj a hmem a ha rfl
  obtain ⟨next₂, r, ys', hf₂, S₂⟩ := hy next₁ q hq'
  refine ⟨next₁, l, next₂, r, xs', ys', hf₁, hf₂, S₁.seg.congr fun a ha ↦ ?_, S₂.seg, S₁.perm,
    S₂.perm, S₁.sorted, S₂.sorted, fun a ha hax hay ↦ by rw [S₂.frame a ha hay, S₁.frame a ha hax]⟩
  have hax := S₁.perm.mem_iff.1 ha
  exact S₂.frame a (ne_of_mem_of_not_mem hax hdummy.1) fun hmem ↦ hdisj a hax a hmem rfl

/-- Two sorted lists are merged. -/
theorem BothSorted.merge {l r : Option (NodeRef ι)} {xs' ys' : List (NodeRef ι)}
    (h : BothSorted value next next' l r xs ys xs' ys')
    (hnodup : (NodeRef.mergeDummy :: (xs ++ ys)).Nodup)
    (hfuel : xs.length + ys.length < fuel) :
    ∃ next'' first last, merge value fuel next' l r = some (next'', first, last) ∧
      Sorted value next next'' first (xs ++ ys) (merged value xs' ys') := by
  have hperm : (xs' ++ ys').Perm (xs ++ ys) := h.perm_left.append h.perm_right
  obtain ⟨next'', hmerge, L⟩ := merge_spec value h.seg_left h.seg_right
    ((hperm.cons _).nodup_iff.2 hnodup) (by rwa [h.perm_left.length_eq, h.perm_right.length_eq])
  have hperm' := (merged_perm value xs' ys').trans hperm
  refine ⟨next'', _, _, hmerge, L.seg, hperm', pairwise_merge value h.sorted_right h.sorted_left,
    fun a ha hmem ↦ ?_⟩
  rw [L.frame a ha fun hmem' ↦ hmem (hperm'.mem_iff.1 hmem')]
  rw [List.mem_append, not_or] at hmem
  exact h.frame a ha hmem.1 hmem.2

/-- **`sort`** sorts the nodes, whichever of its two calls comes first. -/
theorem sortsNodes_sort {steps : ℕ} (hnodup : (NodeRef.mergeDummy :: xs).Nodup)
    (hsteps : xs.length < steps) (hfuel : xs.length < fuel) (leftFirst : Bool) :
    SortsNodes value (sort value fuel leftFirst steps) xs := by
  induction steps generalizing xs with
  | zero => exact absurd hsteps (Nat.not_lt_zero _)
  | succ steps ih =>
    intro next p hp
    match xs, hp with
    | [], rfl => exact ⟨next, none, [], rfl, rfl, .refl _, .nil, fun _ _ _ ↦ rfl⟩
    | [x], ⟨rfl, hx⟩ =>
      rw [seg_nil] at hx
      exact ⟨next, some x, [x], by rw [sort, hx], ⟨rfl, hx⟩, .refl _, List.pairwise_singleton ..,
        fun _ _ _ ↦ rfl⟩
    | x :: y :: xs, ⟨rfl, hx⟩ =>
      obtain ⟨pre, a, post, hsplit, hpost, hslow⟩ := slowLoop_spec hx hx (List.cons_ne_nil y xs)
        (Nat.le_refl _) (Nat.lt_of_succ_lt hfuel)
      have hxs : x :: y :: xs = pre ++ [a] ++ post := by rw [hsplit, List.append_assoc]; rfl
      have hlen := congrArg List.length hxs
      rw [List.length_append] at hlen
      have hpos := List.length_pos_iff.2 hpost
      have hpos' : 0 < (pre ++ [a]).length := List.length_pos_iff.2 (by simp)
      have hfirst : next x = some y := hx.1
      rw [hfirst] at hslow
      have hseg : Seg next (some x) (x :: y :: xs) none := ⟨rfl, hx⟩
      obtain ⟨hdummy, hnodup'⟩ := List.nodup_cons.1 hnodup
      rw [hsplit] at hseg hnodup'
      obtain ⟨hleft, hright⟩ := hseg.cut hnodup'
      rw [hxs] at hnodup hfuel ⊢
      have hsub : (pre ++ [a]).Sublist (pre ++ [a] ++ post) := List.sublist_append_left ..
      have hsub' : post.Sublist (pre ++ [a] ++ post) := List.sublist_append_right ..
      have hl := ih (hnodup.sublist (hsub.cons_cons _)) (by omega)
        (Nat.lt_of_le_of_lt hsub.length_le hfuel)
      have hr := ih (hnodup.sublist (hsub'.cons_cons _)) (by omega)
        (Nat.lt_of_le_of_lt hsub'.length_le hfuel)
      rw [List.length_append] at hfuel
      -- the node at the cut is one of the list
      have hframe : ∀ b, b ∉ pre ++ [a] ++ post → update next a none b = next b := fun b hb ↦
        update_of_ne (fun heq ↦ hb (by rw [heq]; simp)) ..
      cases leftFirst with
      | true =>
        obtain ⟨next₁, l, next₂, r, ls, rs, hf₁, hf₂, B⟩ := hl.both value hr hnodup hleft hright
        obtain ⟨next₃, first, last, hmerge, S⟩ := B.merge value hnodup hfuel
        refine ⟨next₃, first, _, ?_, S.seg, S.perm, S.sorted, fun b hb hmem ↦ ?_⟩
        · rw [sort, hfirst]
          simp only [Option.bind_eq_bind, hslow, Option.bind_some, if_true, hf₁, hf₂, hmerge]
        · rw [S.frame b hb hmem, hframe b hmem]
      | false =>
        have hcomm := (List.perm_append_comm.cons NodeRef.mergeDummy).nodup_iff.1 hnodup
        obtain ⟨next₁, r, next₂, l, rs, ls, hf₁, hf₂, B⟩ := hr.both value hl hcomm hright hleft
        obtain ⟨next₃, first, last, hmerge, S⟩ := B.swap.merge value hnodup hfuel
        refine ⟨next₃, first, _, ?_, S.seg, S.perm, S.sorted, fun b hb hmem ↦ ?_⟩
        · rw [sort, hfirst]
          simp only [Option.bind_eq_bind, hslow, Option.bind_some, Bool.false_eq_true, if_false,
            hf₁, hf₂, hmerge]
        · rw [S.frame b hb hmem, hframe b hmem]

/-! ### From the bottom up -/

/-- The first two runs of the nodes `xs`, of `w` nodes each, have been merged: `ms` is linked up to
the node `last`, and the other nodes from `rest` on. -/
structure PairMerged (next next' : Next ι) (rest : Option (NodeRef ι)) (last : NodeRef ι) (w : ℕ)
    (xs ms : List (NodeRef ι)) : Prop where
  last : ms.getLast? = some last
  seg : Seg next' (next' .mergeDummy) ms none
  seg_rest : Seg next' rest (xs.drop (2 * w)) none
  perm : ms.Perm (xs.take (2 * w))
  sorted : ms.Pairwise (value · ≤ value ·)
  frame : ∀ a, a ≠ .mergeDummy → a ∉ xs → next' a = next a

/-- The runs of the nodes `xs` behind `tail`, of `w` nodes each, have been merged in pairs. -/
structure Passed (next next' : Next ι) (tail : NodeRef ι) (w : ℕ) (xs ys : List (NodeRef ι)) :
    Prop where
  seg : Seg next' (next' tail) ys none
  perm : ys.Perm xs
  runs : Runs (value · ≤ value ·) (2 * w) ys
  frame : ∀ a, a ≠ .mergeDummy → a ≠ tail → a ∉ xs → next' a = next a

section Turn

variable {value} {w : ℕ} {rest : Option (NodeRef ι)} {last : NodeRef ι} {ms zs : List (NodeRef ι)}

omit [DecidableEq ι] in
theorem PairMerged.mem (M : PairMerged value next next' rest last w xs ms) (ha : a ∈ ms) :
    a ∈ xs :=
  List.mem_of_mem_take (M.perm.mem_iff.1 ha)

omit [DecidableEq ι] in
theorem PairMerged.notMem_drop (M : PairMerged value next next' rest last w xs ms)
    (hxs : xs.Nodup) (ha : a ∈ ms) : a ∉ xs.drop (2 * w) :=
  List.disjoint_take_drop hxs (Nat.le_refl _) (M.perm.mem_iff.1 ha)

omit [DecidableEq ι] in
theorem PairMerged.last_mem (M : PairMerged value next next' rest last w xs ms) : last ∈ ms :=
  List.mem_of_getLast? M.last

omit [DecidableEq ι] in
/-- The nodes that are left are behind the last one that has been merged. -/
theorem PairMerged.nodup_rest (M : PairMerged value next next' rest last w xs ms)
    (hnodup : (NodeRef.mergeDummy :: tail :: xs).Nodup) :
    (NodeRef.mergeDummy :: last :: xs.drop (2 * w)).Nodup := by
  have hsub : (tail :: xs).Nodup := hnodup.of_cons
  have hdummy : .mergeDummy ∉ xs := fun hmem ↦
    (List.nodup_cons.1 hnodup).1 (List.mem_cons_of_mem tail hmem)
  refine List.nodup_cons.2 ⟨?_, List.nodup_cons.2 ⟨M.notMem_drop hsub.of_cons M.last_mem,
    hsub.of_cons.sublist (List.drop_sublist ..)⟩⟩
  rw [List.mem_cons, not_or]
  exact ⟨(ne_of_mem_of_not_mem (M.mem M.last_mem) hdummy).symm,
    fun hmem ↦ hdummy (List.mem_of_mem_drop hmem)⟩

/-- **The rest of the pass** goes on behind the node `last`, and the merged pair is linked behind
`tail`. -/
theorem PairMerged.passed (M : PairMerged value next next' rest last w xs ms)
    (hnodup : (NodeRef.mergeDummy :: tail :: xs).Nodup) {next'' : Next ι}
    (P : Passed value (update next' tail (next' .mergeDummy)) next'' last w (xs.drop (2 * w)) zs) :
    Passed value next next'' tail w xs (ms ++ zs) := by
  obtain ⟨hdummy, hnodup⟩ := List.nodup_cons.1 hnodup
  obtain ⟨htail, hxs⟩ := List.nodup_cons.1 hnodup
  rw [List.mem_cons, not_or] at hdummy
  have hlast := M.mem M.last_mem
  refine ⟨?_, ?_, P.runs.append M.sorted ?_, fun a ha hat hax ↦ ?_⟩
  · rw [P.frame tail (Ne.symm hdummy.1) (ne_of_mem_of_not_mem hlast htail).symm
      fun hmem ↦ htail (List.mem_of_mem_drop hmem), update_self]
    refine M.seg.append_last M.last (fun a ha hne ↦ ?_) P.seg
    rw [P.frame a (ne_of_mem_of_not_mem (M.mem ha) hdummy.2) hne (M.notMem_drop hxs ha),
      update_of_ne (ne_of_mem_of_not_mem (M.mem ha) htail)]
  · have happend := M.perm.append P.perm
    rwa [List.take_append_drop] at happend
  · -- the pair is a full run of the next pass, unless it is the last one
    have hlen := M.perm.length_eq
    rw [List.length_take] at hlen
    by_cases hle : xs.length ≤ 2 * w
    · have hzs := P.perm
      rw [List.drop_eq_nil_of_le hle, List.perm_nil] at hzs
      exact .inr ⟨by omega, hzs⟩
    · exact .inl (by omega)
  · rw [P.frame a ha (ne_of_mem_of_not_mem hlast hax).symm
      fun hmem ↦ hax (List.mem_of_mem_drop hmem), update_of_ne hat, M.frame a ha hax]

end Turn

/-- **A turn** of the pass cuts off two runs and merges them. -/
theorem turn_spec {x : NodeRef ι} (hn : n.1 = k + 1) (h : Seg next (some x) xs none)
    (hdummy : .mergeDummy ∉ xs) (hruns : Runs (value · ≤ value ·) (k + 1) xs)
    (hfuel : xs.length < fuel) :
    ∃ next₁ r next₂ rest next₃ last ms, split fuel next (some x) n = some (next₁, r) ∧
      split fuel next₁ r n = some (next₂, rest) ∧
      merge value fuel next₂ (some x) r = some (next₃, next₃ .mergeDummy, last) ∧
      PairMerged value next next₃ rest last (k + 1) xs ms := by
  have hnodup := h.nodup
  have hdrop : xs.drop (2 * (k + 1)) = (xs.drop (k + 1)).drop (k + 1) := by
    rw [List.drop_drop, Nat.two_mul]
  have htake : xs.take (2 * (k + 1)) = xs.take (k + 1) ++ (xs.drop (k + 1)).take (k + 1) := by
    rw [Nat.two_mul, List.take_add]
  obtain ⟨next₁, r, hsplit, hl, hrest, hframe⟩ := split_spec h hnodup hn hfuel
  obtain ⟨next₂, rest, hsplit', hr, hrest', hframe'⟩ :=
    split_spec hrest (hnodup.sublist (List.drop_sublist ..)) hn
      (Nat.lt_of_le_of_lt (List.drop_sublist ..).length_le hfuel)
  have hl' : Seg next₂ (some x) (xs.take (k + 1)) none := hl.congr fun a ha ↦
    hframe' a (List.disjoint_take_drop hnodup (Nat.le_refl _) ha)
  rw [← hdrop] at hrest'
  have hpair : (NodeRef.mergeDummy :: xs.take (2 * (k + 1))).Nodup :=
    List.nodup_cons.2 ⟨fun ha ↦ hdummy (List.mem_of_mem_take ha),
      hnodup.sublist (List.take_sublist ..)⟩
  have hlen := Nat.lt_of_le_of_lt (List.take_sublist (2 * (k + 1)) xs).length_le hfuel
  rw [htake] at hpair hlen
  rw [List.length_append] at hlen
  obtain ⟨next₃, hmerge, L⟩ := merge_spec value hl' hr hpair hlen
  have hperm := merged_perm value (xs.take (k + 1)) ((xs.drop (k + 1)).take (k + 1))
  rw [← htake] at hperm
  have hne : merged value (xs.take (k + 1)) ((xs.drop (k + 1)).take (k + 1)) ≠ [] := fun hnil ↦ by
    rw [hnil, List.nil_perm, List.take_eq_nil_iff] at hperm
    rcases hperm with hzero | rfl
    · omega
    · cases h
  refine ⟨next₁, r, next₂, rest, next₃, _, _, hsplit, hsplit', hmerge, ?_, L.seg,
    hrest'.congr fun a ha ↦ ?_, hperm,
    pairwise_merge value hruns.drop.take hruns.take, fun a ha hax ↦ ?_⟩
  · rw [List.getLast?_eq_some_getLast hne, Option.getD_some]
  · refine L.frame a (ne_of_mem_of_not_mem (List.mem_of_mem_drop ha) hdummy) fun hms ↦ ?_
    exact List.disjoint_take_drop hnodup (Nat.le_refl _) (hperm.mem_iff.1 hms) ha
  · rw [L.frame a ha fun hms ↦ hax (List.mem_of_mem_take (hperm.mem_iff.1 hms)),
      hframe' a fun hmem ↦ hax (List.mem_of_mem_drop hmem), hframe a hax]

/-- **A pass** over the nodes `xs` behind `tail`. -/
theorem pass_spec {turns : ℕ} (hn : n.1 = k + 1) (h : Seg next p xs none)
    (hnodup : (NodeRef.mergeDummy :: tail :: xs).Nodup) (htail : xs = [] → next tail = none)
    (hruns : Runs (value · ≤ value ·) (k + 1) xs) (hturns : xs.length < turns)
    (hfuel : xs.length < fuel) :
    ∃ next' ys, pass value fuel n turns next p tail = some next' ∧
      Passed value next next' tail (k + 1) xs ys := by
  induction turns generalizing next p xs tail with
  | zero => exact absurd hturns (Nat.not_lt_zero _)
  | succ turns ih =>
    cases p with
    | none =>
      obtain rfl : xs = [] := h.unique rfl
      exact ⟨next, [], rfl, htail rfl, .refl _, runs_nil, fun _ _ _ _ ↦ rfl⟩
    | some x =>
      have hdummy : .mergeDummy ∉ xs := fun hmem ↦
        (List.nodup_cons.1 hnodup).1 (List.mem_cons_of_mem tail hmem)
      have htail' : tail ∉ xs := (List.nodup_cons.1 hnodup.of_cons).1
      obtain ⟨next₁, r, next₂, rest, next₃, last, ms, hsplit, hsplit', hmerge, M⟩ :=
        turn_spec value hn h hdummy hruns hfuel
      have hupdate : ∀ a ∈ xs, update next₃ tail (next₃ .mergeDummy) a = next₃ a := fun a ha ↦
        update_of_ne (ne_of_mem_of_not_mem ha htail') ..
      have hrest := M.seg_rest.congr fun a ha ↦ hupdate a (List.mem_of_mem_drop ha)
      have hlast := M.mem M.last_mem
      have hend : xs.drop (2 * (k + 1)) = [] →
          update next₃ tail (next₃ .mergeDummy) last = none := fun _ ↦ by
        rw [hupdate last hlast]
        exact M.seg.next_last M.last
      have hruns' : Runs (value · ≤ value ·) (k + 1) (xs.drop (2 * (k + 1))) := by
        rw [Nat.two_mul, ← List.drop_drop]
        exact hruns.drop.drop
      have hlen : (xs.drop (2 * (k + 1))).length < xs.length := by
        have hpos := List.length_pos_of_mem hlast
        rw [List.length_drop]
        omega
      obtain ⟨next₄, zs, hpass, P⟩ :=
        ih hrest (M.nodup_rest hnodup) hend hruns' (by omega) (by omega)
      refine ⟨next₄, ms ++ zs, ?_, M.passed hnodup P⟩
      rw [pass, hsplit]
      simp only [Option.bind_eq_bind, Option.bind_some, hsplit', hmerge, hpass]

/-- The nodes `xs` behind the dummy of `MergeSortBottomUp`, in the order `ys`, which is made of
sorted runs of `w` nodes. -/
structure InRuns (next : Next ι) (w : ℕ) (xs ys : List (NodeRef ι)) : Prop where
  seg : Seg next (next .dummy) ys none
  perm : ys.Perm xs
  runs : Runs (value · ≤ value ·) w ys

theorem InRuns.pass {w : ℕ} (h : InRuns value next w xs ys) (hn : n.1 = w) (hpos : 0 < w)
    (hnodup : (NodeRef.mergeDummy :: .dummy :: xs).Nodup) (hfuel : xs.length < fuel) :
    ∃ next' ys', pass value fuel n fuel next (next .dummy) .dummy = some next' ∧
      InRuns value next' (2 * w) xs ys' := by
  obtain ⟨k, rfl⟩ := Nat.exists_eq_add_one_of_ne_zero hpos.ne'
  have hfuel' : ys.length < fuel := by rwa [h.perm.length_eq]
  have hnodup' := ((h.perm.cons NodeRef.dummy).cons NodeRef.mergeDummy).nodup_iff.2 hnodup
  have htail : ys = [] → next .dummy = none := by
    rintro rfl
    exact h.seg
  obtain ⟨next', ys', hpass, P⟩ := pass_spec value hn h.seg hnodup' htail h.runs hfuel' hfuel'
  exact ⟨next', ys', hpass, P.seg, P.perm.trans h.perm, P.runs⟩

/-- `n <<= 1`, below the overflow. -/
theorem double_eq {n : CInt} (hn : n.1 = (2 ^ k : ℕ)) (hk : k < 30) :
    (wrap (2 * n.1)).1 = (2 ^ (k + 1) : ℕ) := by
  have hle : 2 ^ k ≤ 2 ^ 29 := Nat.pow_le_pow_right (by decide) (by omega)
  rw [Nat.pow_succ]
  generalize 2 ^ k = w at hn hle ⊢
  have hbounds : -2 ^ 31 ≤ 2 * n.1 ∧ 2 * n.1 < 2 ^ 31 := by omega
  rw [show (wrap (2 * n.1)).1 = 2 * n.1 from congrArg Subtype.val (wrap_coe ⟨_, hbounds⟩)]
  omega

/-- **The passes** over a list of at most `2 ^ 30` nodes sort it. -/
theorem passes_spec {turns : ℕ} {len : CInt} (h : InRuns value next (2 ^ k) xs ys)
    (hn : n.1 = (2 ^ k : ℕ)) (hlen : len.1 = xs.length) (hle : xs.length ≤ 2 ^ 30)
    (hnodup : (NodeRef.mergeDummy :: .dummy :: xs).Nodup) (hfuel : xs.length < fuel)
    (hk : k ≤ 30) (hturns : 30 < k + turns) :
    ∃ next' ys', passes value fuel len turns next n = some next' ∧
      Seg next' (next' .dummy) ys' none ∧ ys'.Perm xs ∧ ys'.Pairwise (value · ≤ value ·) := by
  induction turns generalizing next ys n k with
  | zero => omega
  | succ turns ih =>
    rw [passes]
    by_cases hlt : n < len
    · have hpow : 2 ^ k < 2 ^ 30 := by
        have hval : n.1 < len.1 := hlt
        omega
      have hk' : k < 30 := (Nat.pow_lt_pow_iff_right (by decide)).1 hpow
      obtain ⟨next', ys', hpass, h'⟩ := h.pass value hn (Nat.two_pow_pos k) hnodup hfuel
      rw [Nat.mul_comm, ← Nat.pow_succ] at h'
      obtain ⟨next'', zs, hpasses, hsorted⟩ := ih h' (double_eq hn hk') hk' (by omega)
      refine ⟨next'', zs, ?_, hsorted⟩
      rw [if_pos hlt, hpass]
      exact hpasses
    · rw [if_neg hlt]
      refine ⟨next, ys, rfl, h.seg, h.perm, h.runs.pairwise ?_⟩
      have hval : len.1 ≤ n.1 := not_lt.1 hlt
      rw [h.perm.length_eq]
      omega

/-- In front of a longer list, `n` overflows before it reaches `len`. -/
theorem passes_none {turns : ℕ} {len : CInt} (h : InRuns value next (2 ^ k) xs ys)
    (hn : n.1 = (2 ^ k : ℕ)) (hlen : 2 ^ 30 < len.1) (hne : xs ≠ [])
    (hnodup : (NodeRef.mergeDummy :: .dummy :: xs).Nodup) (hfuel : xs.length < fuel)
    (hk : k ≤ 30) : passes value fuel len turns next n = none := by
  induction turns generalizing next ys n k with
  | zero => rfl
  | succ turns ih =>
    have hpow : 2 ^ k ≤ 2 ^ 30 := Nat.pow_le_pow_right (by decide) hk
    have hlt : n < len := by
      show n.1 < len.1
      omega
    obtain ⟨next', ys', hpass, h'⟩ := h.pass value hn (Nat.two_pow_pos k) hnodup hfuel
    rw [passes, if_pos hlt, hpass]
    show passes value fuel len turns next' (wrap (2 * n.1)) = none
    rcases Nat.lt_or_eq_of_le hk with hk' | rfl
    · rw [Nat.mul_comm, ← Nat.pow_succ] at h'
      exact ih h' (double_eq hn hk') hk'
    · -- the value after `2 ^ 30` is the least one, and `split` decrements it
      have hwrap : wrap (2 * n.1) = INT_MIN := by
        rw [hn]
        decide
      have hsplit : ∀ fuel (p : Option (NodeRef ι)), split fuel next' p INT_MIN = none := by
        intro fuel p
        cases fuel <;> rfl
      rw [hwrap]
      cases turns with
      | zero => rfl
      | succ turns =>
        obtain ⟨y, hy⟩ : ∃ y, next' .dummy = some y := by
          have hseg := h'.seg
          cases ys' with
          | nil => exact absurd (List.nil_perm.1 h'.perm) hne
          | cons y ys' => exact ⟨y, hseg.1⟩
        have hmin : INT_MIN < len := by
          show -2 ^ 31 < len.1
          omega
        rw [passes, if_pos hmin, hy]
        cases fuel with
        | zero => rfl
        | succ fuel =>
          rw [LinkedList.pass, hsplit]
          rfl

omit [DecidableEq ι] in
/-- The count of the nodes, which is not defined where it overflows. -/
theorem lenLoop_eq_some_iff {len len' : CInt} (h : Seg next (next node) xs none)
    (hfuel : xs.length < fuel) :
    lenLoop next fuel node len = some len' ↔ len'.1 = len.1 + xs.length := by
  induction fuel generalizing node len xs with
  | zero => exact absurd hfuel (Nat.not_lt_zero _)
  | succ fuel ih =>
    cases xs with
    | nil =>
      rw [seg_nil] at h
      rw [lenLoop, h]
      simp only [Option.some.injEq, Subtype.ext_iff, List.length_nil, Int.natCast_zero,
        Int.add_zero]
      exact eq_comm
    | cons x xs =>
      rw [lenLoop, h.1]
      simp only [Option.bind_eq_bind]
      rw [List.length_cons]
      by_cases hlt : len.1 + 1 < 2 ^ 31
      · rw [incr, dif_pos hlt, Option.bind_some, ih h.2 (Nat.lt_of_succ_lt_succ hfuel)]
        show len'.1 = len.1 + 1 + xs.length ↔ _
        omega
      · rw [incr, dif_neg hlt, Option.bind_none]
        have hlen' := len'.2
        constructor
        · intro hnone
          cases hnone
        · omega

/-! ### Both sorts -/

/-- A sort that ends, after enough turns of its loops, with the nodes `xs` in a list from the head
to the null pointer, whose values are `vs` in order. -/
def SortsTo (f : ℕ → Option (Next ι × Option (NodeRef ι))) (xs : List (NodeRef ι))
    (vs : List β) : Prop :=
  vs.Pairwise (· ≤ ·) ∧ ∃ n, ∀ fuel ≥ n, ∃ next head ys, f fuel = some (next, head) ∧
    Seg next head ys none ∧ ys.Perm xs ∧ ys.map value = vs

/-- Both sorts of the list `xs` end with its nodes in order, and with the same values. -/
def MergeSortsRight (leftFirst : Bool) (next : Next ι) (head : Option (NodeRef ι))
    (xs : List (NodeRef ι)) : Prop :=
  ∃ vs, SortsTo value (fun fuel ↦ mergeSortTopDown value leftFirst fuel next head) xs vs ∧
    SortsTo value (fun fuel ↦ mergeSortBottomUp value fuel next head) xs vs

omit [DecidableEq ι] in
theorem SortsTo.of_forall {f : ℕ → Option (Next ι × Option (NodeRef ι))} {k : ℕ}
    (h : ∀ fuel > k, ∃ next head ys, f fuel = some (next, head) ∧ Seg next head ys none ∧
      ys.Perm xs ∧ ys.Pairwise (value · ≤ value ·)) :
    SortsTo value f xs ((xs.map value).mergeSort (· ≤ ·)) := by
  refine ⟨List.pairwise_mergeSort' (· ≤ ·) _, k + 1, fun fuel hfuel ↦ ?_⟩
  obtain ⟨next, head, ys, heq, hseg, hperm, hsorted⟩ := h fuel hfuel
  exact ⟨next, head, ys, heq, hseg, hperm, map_eq_mergeSort value hperm hsorted⟩

/-- **`MergeSortTopDown`** sorts every list. -/
theorem mergeSortTopDown_spec (h : Seg next p xs none) (hdummy : .mergeDummy ∉ xs)
    (hfuel : xs.length < fuel) (leftFirst : Bool) :
    ∃ next' head ys, mergeSortTopDown value leftFirst fuel next p = some (next', head) ∧
      Sorted value next next' head xs ys :=
  sortsNodes_sort value (List.nodup_cons.2 ⟨hdummy, h.nodup⟩) hfuel hfuel leftFirst next p h

/-- The list behind the dummy, before the first pass. -/
theorem InRuns.start (h : Seg next p xs none) (hdummy : .dummy ∉ xs) :
    InRuns value (update next .dummy p) (2 ^ 0) xs xs where
  seg := by
    rw [update_self]
    exact h.congr fun a ha ↦ update_of_ne (ne_of_mem_of_not_mem ha hdummy) ..
  perm := .refl _
  runs := runs_one

/-- **`MergeSortBottomUp`** sorts a list of at most `2 ^ 30` nodes. -/
theorem mergeSortBottomUp_spec (h : Seg next p xs none)
    (hnodup : (NodeRef.mergeDummy :: .dummy :: xs).Nodup) (hle : xs.length ≤ 2 ^ 30)
    (hfuel : xs.length + 30 < fuel) :
    ∃ next' head ys, mergeSortBottomUp value fuel next p = some (next', head) ∧
      Seg next' head ys none ∧ ys.Perm xs ∧ ys.Pairwise (value · ≤ value ·) := by
  match xs, h with
  | [], rfl => exact ⟨next, none, [], rfl, rfl, .refl _, .nil⟩
  | [x], ⟨rfl, hx⟩ =>
    rw [seg_nil] at hx
    exact ⟨next, some x, [x], by rw [mergeSortBottomUp, hx], ⟨rfl, hx⟩, .refl _,
      List.pairwise_singleton ..⟩
  | x :: y :: xs, ⟨rfl, hx⟩ =>
    have hdummy := (List.nodup_cons.1 (List.nodup_cons.1 hnodup).2).1
    have hfuel' : (x :: y :: xs).length < fuel := by omega
    let len : CInt := ⟨(x :: y :: xs).length, by omega⟩
    have hlen : lenLoop next fuel x 1 = some len :=
      (lenLoop_eq_some_iff hx (Nat.lt_of_succ_lt hfuel')).2 (by
        show ((xs.length + 1 + 1 : ℕ) : ℤ) = 1 + (xs.length + 1 : ℕ)
        omega)
    have hseg : Seg next (some x) (x :: y :: xs) none := ⟨rfl, hx⟩
    obtain ⟨next', ys, hpasses, hsorted⟩ := passes_spec value (InRuns.start value hseg hdummy)
      (n := 1) rfl (show len.1 = _ from rfl) hle hnodup hfuel' (by decide)
      (show 30 < 0 + fuel by omega)
    refine ⟨next', next' .dummy, ys, ?_, hsorted⟩
    rw [mergeSortBottomUp, hx.1]
    simp only [Option.bind_eq_bind, hlen, Option.bind_some]
    rw [hpasses]
    rfl

/-- On a longer list it comes to an overflow, of `len` or of `n`. -/
theorem mergeSortBottomUp_none (h : Seg next p xs none)
    (hnodup : (NodeRef.mergeDummy :: .dummy :: xs).Nodup) (hlt : 2 ^ 30 < xs.length)
    (hfuel : xs.length < fuel) : mergeSortBottomUp value fuel next p = none := by
  have hdummy := (List.nodup_cons.1 (List.nodup_cons.1 hnodup).2).1
  have hruns := InRuns.start value h hdummy
  match xs with
  | [] | [x] => simp at hlt
  | x :: y :: xs =>
    obtain ⟨rfl, hx⟩ := h
    rw [mergeSortBottomUp, hx.1]
    simp only [Option.bind_eq_bind]
    cases hlen : lenLoop next fuel x 1 with
    | none => rfl
    | some len =>
      rw [lenLoop_eq_some_iff hx (Nat.lt_of_succ_lt hfuel)] at hlen
      have hlt' : 2 ^ 30 < len.1 := by
        rw [List.length_cons] at hlt
        rw [hlen]
        show (2 : ℤ) ^ 30 < 1 + _
        omega
      rw [Option.bind_some, passes_none value hruns rfl hlt' (List.cons_ne_nil _ _) hnodup hfuel
        (by decide)]
      rfl

omit [DecidableEq ι] in
theorem nodup_dummies {as : List ι} (h : Seg next p (as.map .node) none) :
    (NodeRef.mergeDummy :: .dummy :: as.map .node).Nodup :=
  List.nodup_cons.2 ⟨by simp, List.nodup_cons.2 ⟨by simp, h.nodup⟩⟩

/-- The pointers of a list that has been made of a vector of `n` values. -/
def chain (n : ℕ) : Next ℕ
  | .node i => if i + 1 < n then some (.node (i + 1)) else none
  | _ => none

theorem seg_chain_from {i m n : ℕ} (h : i + m = n) :
    Seg (chain n) (if i < n then some (.node i) else none) ((List.range' i m).map .node) none := by
  induction m generalizing i with
  | zero => rw [if_neg (by omega)]; rfl
  | succ m ih =>
    rw [if_pos (by omega)]
    exact ⟨rfl, ih (by omega)⟩

theorem seg_chain {n : ℕ} (h : 0 < n) :
    Seg (chain n) (some (.node 0)) ((List.range n).map .node) none := by
  have hseg := seg_chain_from (Nat.zero_add n)
  rwa [if_pos h, ← List.range_eq_range'] at hseg

/-- The values in the test. -/
def testValue : NodeRef ℕ → CInt
  | .node i => wrap ([6, -1, 5, 3, 4, 0, -2].getD i 0)
  | _ => wrap 0

theorem mergeSortsRight_of_le {as : List ι} (h : Seg next p (as.map .node) none)
    (leftFirst : Bool) (hle : as.length ≤ 2 ^ 30) :
    MergeSortsRight value leftFirst next p (as.map .node) := by
  have hmerge : .mergeDummy ∉ as.map NodeRef.node := by simp
  have htop : ∀ fuel > (as.map NodeRef.node).length, ∃ next' head ys,
      mergeSortTopDown value leftFirst fuel next p = some (next', head) ∧
      Seg next' head ys none ∧ ys.Perm (as.map .node) ∧ ys.Pairwise (value · ≤ value ·) := by
    intro fuel hfuel
    obtain ⟨next', head, ys, hsort, S⟩ := mergeSortTopDown_spec value h hmerge hfuel leftFirst
    exact ⟨next', head, ys, hsort, S.seg, S.perm, S.sorted⟩
  have hle' : (as.map NodeRef.node).length ≤ 2 ^ 30 := by rwa [List.length_map]
  exact ⟨_, .of_forall value htop, .of_forall value fun fuel hfuel ↦
    mergeSortBottomUp_spec value h (nodup_dummies h) hle' hfuel⟩

theorem not_mergeSortsRight_of_lt {as : List ι} (h : Seg next p (as.map .node) none)
    (leftFirst : Bool) (hlt : 2 ^ 30 < as.length) :
    ¬MergeSortsRight value leftFirst next p (as.map .node) := by
  rintro ⟨vs, -, -, n, hsort⟩
  have hlt' : 2 ^ 30 < (as.map NodeRef.node).length := by rwa [List.length_map]
  have hfuel : (as.map NodeRef.node).length < n + ((as.map NodeRef.node).length + 1) := by omega
  obtain ⟨next', head, ys, hsome, -⟩ := hsort _ (Nat.le_add_right n (_ + 1))
  have hnone := mergeSortBottomUp_none value h (nodup_dummies h) hlt' hfuel
  cases hnone.symm.trans hsome

/-- **Both sorts** are right exactly up to `2 ^ 30` nodes. -/
theorem mergeSortsRight_iff {as : List ι} (h : Seg next p (as.map .node) none)
    (leftFirst : Bool) :
    MergeSortsRight value leftFirst next p (as.map .node) ↔ as.length ≤ 2 ^ 30 :=
  ⟨fun hright ↦ not_lt.1 fun hlt ↦ not_mergeSortsRight_of_lt value h leftFirst hlt hright,
    mergeSortsRight_of_le value h leftFirst⟩

/-- The list in the test. -/
theorem mergeSortsRight_test :
    MergeSortsRight testValue true (chain 7) (some (.node 0)) ((List.range 7).map .node) :=
  (mergeSortsRight_iff testValue (seg_chain (by decide)) true).2 (by decide)

/-- A list of `2 ^ 30 + 1` nodes. -/
theorem not_forall_mergeSortsRight :
    ¬∀ (value : NodeRef ℕ → CInt) (leftFirst : Bool) (next : Next ℕ)
      (head : Option (NodeRef ℕ)) (as : List ℕ), Seg next head (as.map .node) none →
      MergeSortsRight value leftFirst next head (as.map .node) := by
  intro hall
  have hlong : ∀ n > 2 ^ 30, ∃ as : List ℕ, as.length = n ∧
      Seg (chain n) (some (.node 0)) (as.map .node) none := fun n hn ↦
    ⟨List.range n, List.length_range, seg_chain (Nat.zero_lt_of_lt hn)⟩
  obtain ⟨as, hlen, hseg⟩ := hlong (2 ^ 30 + 1) (Nat.lt_succ_self _)
  have hlt : 2 ^ 30 < as.length := by omega
  exact not_mergeSortsRight_of_lt testValue hseg true hlt (hall _ _ _ _ _ hseg)

end LinkedList
