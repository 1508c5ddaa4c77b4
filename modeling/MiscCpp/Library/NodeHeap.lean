import MiscCpp.Library.SinglyLinked

/-!
# Nodes that are only added

A heap is the list of its nodes, with their values and `next` pointers, and a new node gets the next
address. `Represents h p xs ds`: from the pointer `p` on are the nodes `xs`, up to the null pointer,
with the values `ds`. Two such lists may share nodes.

What is only added to (`h <+: h'`) still has its lists (`Represents.mono`), and writes to nodes
that are new leave it as it was (`prefix_set`).
-/

namespace NodeHeap

/-- A node with its value and the pointer to the next one. -/
structure Node (α : Type*) where
  val : α
  next : Option ℕ

/-- The nodes by their addresses, in the order of their allocation. -/
abbrev Heap (α : Type*) := List (Node α)

variable {α : Type*} {h h' : Heap α} {p q : Option ℕ} {xs : List ℕ} {ds : List α} {d v : α}
  {x y : ℕ}

/-- A new node, with a null pointer. -/
def alloc (h : Heap α) (v : α) : ℕ × Heap α := (h.length, h ++ [⟨v, none⟩])

/-- `x->next = q` -/
def setNext (h : Heap α) (x : ℕ) (q : Option ℕ) : Option (Heap α) := do
  some (h.set x ⟨(← h[x]?).val, q⟩)

/-- The pointer leads through the nodes `xs`, with the values `ds`, to null. -/
inductive Represents (h : Heap α) : Option ℕ → List ℕ → List α → Prop
  | nil : Represents h none [] []
  | cons {x : ℕ} {q : Option ℕ} {xs : List ℕ} {d : α} {ds : List α} (hx : h[x]? = some ⟨d, q⟩)
    (hrest : Represents h q xs ds) : Represents h (some x) (x :: xs) (d :: ds)

/-- The frame rule. -/
theorem Represents.congr (hp : Represents h p xs ds) (hframe : ∀ x ∈ xs, h'[x]? = h[x]?) :
    Represents h' p xs ds := by
  induction hp with
  | nil => exact .nil
  | cons hx _ ih =>
    refine .cons ((hframe _ List.mem_cons_self).trans hx) (ih fun y hy ↦ ?_)
    exact hframe y (List.mem_cons_of_mem _ hy)

theorem Represents.lt (hp : Represents h p xs ds) : ∀ x ∈ xs, x < h.length := by
  induction hp with
  | nil => exact fun x hx ↦ absurd hx List.not_mem_nil
  | cons hx _ ih =>
    refine List.forall_mem_cons.2 ⟨?_, ih⟩
    exact (List.getElem?_eq_some_iff.1 hx).1

theorem Represents.length (hp : Represents h p xs ds) : xs.length = ds.length := by
  induction hp with
  | nil => rfl
  | cons _ _ ih => exact congrArg Nat.succ ih

/-- Its nodes are a segment. -/
theorem Represents.seg (hp : Represents h p xs ds) :
    SinglyLinked.Seg (fun x ↦ (h[x]?).bind Node.next) p xs none := by
  induction hp with
  | nil => rfl
  | cons hx _ ih =>
    refine ⟨rfl, ?_⟩
    beta_reduce
    rw [hx]
    exact ih

/-- No node of a list comes twice, since the list ends. -/
theorem Represents.nodup (hp : Represents h p xs ds) : xs.Nodup := hp.seg.nodup

theorem getElem?_mono (hpre : h <+: h') (hx : x < h.length) : h'[x]? = h[x]? := by
  obtain ⟨rest, rfl⟩ := hpre
  exact List.getElem?_append_left hx

/-- An allocation leaves the lists that are there. -/
theorem Represents.mono (hp : Represents h p xs ds) (hpre : h <+: h') :
    Represents h' p xs ds :=
  hp.congr fun x hx ↦ getElem?_mono hpre (hp.lt x hx)

theorem prefix_set {n : Node α} (hpre : h <+: h') (hx : h.length ≤ x) : h <+: h'.set x n := by
  obtain ⟨rest, rfl⟩ := hpre
  rw [List.set_append_right _ _ hx]
  exact List.prefix_append h _

theorem setNext_eq (hx : h[x]? = some ⟨v, q⟩) (q' : Option ℕ) :
    setNext h x q' = some (h.set x ⟨v, q'⟩) := by
  rw [setNext, hx]
  rfl

theorem getElem?_set_self (hx : h[x]? = some ⟨v, q⟩) (n : Node α) : (h.set x n)[x]? = some n :=
  List.getElem?_set_self (List.getElem?_eq_some_iff.1 hx).1

/-- **A write** that puts a node in front of a list. -/
theorem Represents.exists_setNext (hp : Represents h' p xs ds) (hx : h'[x]? = some ⟨v, q⟩)
    (hxs : x ∉ xs) (hpre : h <+: h') (hnew : h.length ≤ x) :
    ∃ h'', setNext h' x p = some h'' ∧ h <+: h'' ∧ h''[x]? = some ⟨v, p⟩ ∧
      Represents h'' p xs ds := by
  refine ⟨h'.set x ⟨v, p⟩, setNext_eq hx p, prefix_set hpre hnew, getElem?_set_self hx _, ?_⟩
  exact hp.congr fun y hy ↦ List.getElem?_set_ne (ne_of_mem_of_not_mem hy hxs).symm

theorem prefix_alloc (h : Heap α) (v : α) : h <+: (alloc h v).2 := List.prefix_append h _

theorem getElem?_alloc (h : Heap α) (v : α) : (alloc h v).2[h.length]? = some ⟨v, none⟩ :=
  List.getElem?_concat_length

/-- Linking a node behind the last one makes the list one longer. -/
theorem Represents.append_last (hp : Represents h p (xs ++ [x]) ds) (hx : h[x]? = some ⟨d, q⟩)
    (hx' : h'[x]? = some ⟨d, some y⟩) (hy : h'[y]? = some ⟨v, none⟩)
    (hframe : ∀ z ∈ xs, h'[z]? = h[z]?) :
    Represents h' p (xs ++ [x] ++ [y]) (ds ++ [v]) := by
  induction xs generalizing p ds with
  | nil =>
    cases hp with
    | cons hx'' hrest =>
      cases hrest
      obtain ⟨rfl, rfl⟩ := Node.mk.inj (Option.some.inj (hx.symm.trans hx''))
      exact .cons hx' (.cons hy .nil)
  | cons z xs ih =>
    cases hp with
    | cons hz hrest =>
      refine .cons ((hframe z List.mem_cons_self).trans hz) (ih hrest fun w hw ↦ ?_)
      exact hframe w (List.mem_cons_of_mem z hw)

/-- **A new node** behind a list. -/
theorem Represents.exists_concat (hp : Represents h' p (xs ++ [x]) ds)
    (hx : h'[x]? = some ⟨d, q⟩) (hpre : h <+: h') (hnew : h.length ≤ x) (v : α) :
    ∃ h'', setNext (alloc h' v).2 x (some h'.length) = some h'' ∧ h <+: h'' ∧
      h''[x]? = some ⟨d, some h'.length⟩ ∧ h''[h'.length]? = some ⟨v, none⟩ ∧
      Represents h'' p (xs ++ [x] ++ [h'.length]) (ds ++ [v]) := by
  have hlt := (List.getElem?_eq_some_iff.1 hx).1
  have hx1 := (getElem?_mono (prefix_alloc h' v) hlt).trans hx
  have hself := getElem?_set_self hx1 ⟨d, some h'.length⟩
  have hnode : ((alloc h' v).2.set x ⟨d, some h'.length⟩)[h'.length]? = some ⟨v, none⟩ :=
    (List.getElem?_set_ne (Nat.ne_of_lt hlt)).trans (getElem?_alloc h' v)
  refine ⟨_, setNext_eq hx1 _, prefix_set (hpre.trans (prefix_alloc h' v)) hnew, hself, hnode, ?_⟩
  refine hp.append_last hx hself hnode fun z hz ↦ ?_
  have hne : z ≠ x := (List.nodup_append.1 hp.nodup).2.2 z hz x (List.mem_singleton_self x)
  exact (List.getElem?_set_ne hne.symm).trans
    (getElem?_mono (prefix_alloc h' v) (hp.lt z (List.mem_append_left [x] hz)))

end NodeHeap
