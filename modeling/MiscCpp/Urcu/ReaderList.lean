import Mathlib.Data.List.Nodup
import MiscCpp.Library.DoublyLinked
import MiscCpp.Library.Machine

/-!
# The lists of readers

`reader_list`: circular doubly linked lists with a head, in which a registered reader has a node.
The pointers of all nodes are two functions on addresses; a node without a reader is the head of a
list.

`reader_add` and `reader_del` keep the registry a circular list of the registered readers
(`registered_of_exec`). `reader_move` does not: it writes `dst->prev->next` where it should write
`dst->next->prev`, so a node that is moved to an empty list points to itself. What holds of it is
that whatever is closed under both pointers stays so (`closed_readerMove`).
-/

open Function DoublyLinked

namespace Urcu

/-- The address of a list entry. -/
abbrev Addr := ℕ
/-- A registered thread. -/
abbrev ReaderId := ℕ

/-- The nodes, with the pointers `reader->list` to them. The addresses from `fresh` on are not in
use. -/
structure ReaderLists where
  next : Addr → Addr
  prev : Addr → Addr
  node : Addr → Option ReaderId
  list : ReaderId → Option Addr
  fresh : Addr

/-- `registry_reader_list`. -/
def registryReaderList : Addr := 0

namespace ReaderLists

variable (l : ReaderLists)

/-- `a->next = v` -/
def setNext (a v : Addr) : ReaderLists := { l with next := update l.next a v }

/-- `a->prev = v` -/
def setPrev (a v : Addr) : ReaderLists := { l with prev := update l.prev a v }

@[simp] theorem next_setNext (a v : Addr) : (l.setNext a v).next = update l.next a v := rfl

@[simp] theorem prev_setNext (a v : Addr) : (l.setNext a v).prev = l.prev := rfl

@[simp] theorem next_setPrev (a v : Addr) : (l.setPrev a v).next = l.next := rfl

@[simp] theorem prev_setPrev (a v : Addr) : (l.setPrev a v).prev = update l.prev a v := rfl

/-- A list head on the stack, which points to itself. -/
def allocHead : ReaderLists :=
  { (l.setNext l.fresh l.fresh).setPrev l.fresh l.fresh with
    node := update l.node l.fresh none
    fresh := l.fresh + 1 }

/-- `reader_add`: a new entry for the reader behind the head. -/
def readerAdd (reader : ReaderId) (list : Addr) : ReaderLists :=
  let tmp := l.fresh
  let l := { l with node := update l.node tmp (some reader), fresh := tmp + 1 }
  let l := l.setPrev (l.next list) tmp
  let l := l.setNext tmp (l.next list)
  let l := l.setPrev tmp list
  let l := l.setNext list tmp
  { l with list := update l.list reader (some tmp) }

/-- `reader_del`: unlink the entry of the reader. -/
def readerDel (reader : ReaderId) : ReaderLists :=
  match l.list reader with
  | none => l
  | some x =>
    let l := l.setPrev (l.next x) (l.prev x)
    let l := l.setNext (l.prev x) (l.next x)
    { l with list := update l.list reader none }

/-- `reader_move`: unlink an entry and link it behind the head of another list. -/
def readerMove (src dst : Addr) : ReaderLists :=
  let l := l.setPrev (l.next src) (l.prev src)
  let l := l.setNext (l.prev src) (l.next src)
  let l := l.setNext (l.prev dst) src
  let l := l.setNext src (l.next dst)
  let l := l.setPrev src dst
  l.setNext dst src

/-- `reader_splice`: link all entries of a list behind the head of another one. -/
def readerSplice (src dst : Addr) : ReaderLists :=
  let l := l.setPrev (l.next src) dst
  let l := l.setNext (l.prev src) (l.next dst)
  let l := l.setPrev (l.next dst) (l.prev src)
  l.setNext dst (l.next src)

/-- At the start there is the registry, without readers. -/
def initial : ReaderLists where
  next := id
  prev := id
  node _ := none
  list _ := none
  fresh := registryReaderList + 1

end ReaderLists

/-- `rcu_register_thread` and `rcu_unregister_thread`. -/
inductive RegistryAction where
  | register (reader : ReaderId)
  | unregister (reader : ReaderId)

/-- A thread that is registered already does not register again. -/
def registryStep (l : ReaderLists) : RegistryAction → Option ReaderLists
  | .register reader =>
    if (l.list reader).isSome then none else some (l.readerAdd reader registryReaderList)
  | .unregister reader => some (l.readerDel reader)

/-! ### Circular lists -/

/-- A circular list of the nodes `xs`, with its head. -/
structure Circular (l : ReaderLists) (head : Addr) (xs : List Addr) : Prop where
  next : l.next head = xs.head?.getD head
  prev : l.prev head = xs.getLast?.getD head
  linked : Linked (some ∘ l.prev) (some ∘ l.next) (some head) xs (some head)
  nodup : (head :: xs).Nodup

variable {l l' : ReaderLists} {head : Addr} {xs ys : List Addr} {x a v : Addr}

theorem head?_getD_mem (head : Addr) (xs : List Addr) : xs.head?.getD head ∈ head :: xs := by
  cases xs with
  | nil => exact List.mem_cons_self
  | cons x xs => exact List.mem_cons_of_mem head List.mem_cons_self

theorem getLast?_getD_mem (head : Addr) (xs : List Addr) :
    xs.getLast?.getD head ∈ head :: xs := by
  rcases h : xs.getLast? with _ | x
  · exact List.mem_cons_self
  · exact List.mem_cons_of_mem head (List.mem_of_getLast? h)

theorem head?_eq_some_getD (hne : xs ≠ []) (head : Addr) :
    xs.head? = some (xs.head?.getD head) := by
  obtain ⟨x, hx⟩ := Option.isSome_iff_exists.1 (List.isSome_head?.2 hne)
  rw [hx, Option.getD_some]

theorem getLast?_eq_some_getD (hne : xs ≠ []) (head : Addr) :
    xs.getLast? = some (xs.getLast?.getD head) := by
  obtain ⟨x, hx⟩ := Option.isSome_iff_exists.1 (List.getLast?_isSome.2 hne)
  rw [hx, Option.getD_some]

/-- The neighbours of a node. -/
theorem Circular.middle (C : Circular l head (xs ++ x :: ys)) :
    l.prev x = xs.getLast?.getD head ∧ l.next x = ys.head?.getD head := by
  simpa only [comp_apply, Option.or_some, Option.some.injEq] using C.linked.middle

/-- The nodes of a circular list point to each other. -/
theorem Circular.mem (C : Circular l head xs) (ha : a ∈ head :: xs) :
    l.next a ∈ head :: xs ∧ l.prev a ∈ head :: xs := by
  rcases List.mem_cons.1 ha with rfl | hx
  · rw [C.next, C.prev]
    exact ⟨head?_getD_mem a xs, getLast?_getD_mem a xs⟩
  · obtain ⟨pre, post, rfl⟩ := List.append_of_mem hx
    obtain ⟨hprev, hnext⟩ := C.middle
    have hpost : post ⊆ pre ++ a :: post :=
      List.subset_append_of_subset_right pre (List.subset_cons_self a post)
    rw [hprev, hnext]
    exact ⟨List.cons_subset_cons head hpost (head?_getD_mem head post),
      List.cons_subset_cons head (List.subset_append_left pre _) (getLast?_getD_mem head pre)⟩

/-- The pointers `next` go through the list, and back to the head. -/
theorem Circular.next_getElem? {k : ℕ} (C : Circular l head xs) (ha : (head :: xs)[k]? = some a) :
    xs[k]? = some (l.next a) ∨ l.next a = head ∧ k = xs.length := by
  cases k with
  | zero =>
    obtain rfl := Option.some.inj ha
    rw [C.next]
    cases xs with
    | nil => exact .inr ⟨rfl, rfl⟩
    | cons x xs => exact .inl rfl
  | succ j =>
    obtain ⟨hj, rfl⟩ := List.getElem?_eq_some_iff.1 (show xs[j]? = some a from ha)
    have hsplit := C
    rw [← List.take_append_drop j xs, List.drop_eq_getElem_cons hj] at hsplit
    have hnext := hsplit.middle.2
    rw [List.head?_drop] at hnext
    rcases h : xs[j + 1]? with _ | b
    · rw [h] at hnext
      exact .inr ⟨hnext, Nat.le_antisymm hj (List.getElem?_eq_none_iff.1 h)⟩
    · rw [h] at hnext
      exact .inl (congrArg some hnext.symm)

/-- A node of a circular list does not point to itself. -/
theorem Circular.ne (C : Circular l head xs) (hx : x ∈ xs) : l.next x ≠ x ∧ l.prev x ≠ x := by
  obtain ⟨pre, post, rfl⟩ := List.append_of_mem hx
  obtain ⟨hprev, hnext⟩ := C.middle
  have hnodup := C.nodup
  simp only [List.nodup_cons, List.nodup_append, List.mem_append, List.mem_cons, not_or] at hnodup
  obtain ⟨⟨-, hxhead, -⟩, -, ⟨hpost, -⟩, hpre⟩ := hnodup
  have hx_post : x ∉ head :: post := List.not_mem_cons_of_ne_of_not_mem (Ne.symm hxhead) hpost
  have hx_pre : x ∉ head :: pre :=
    List.not_mem_cons_of_ne_of_not_mem (Ne.symm hxhead) fun h ↦ hpre x h x (.inl rfl) rfl
  rw [hprev, hnext]
  exact ⟨ne_of_mem_of_not_mem (head?_getD_mem head post) hx_post,
    ne_of_mem_of_not_mem (getLast?_getD_mem head pre) hx_pre⟩

/-- The frame rule: a list depends on the pointers of its head and its nodes only. -/
theorem Circular.congr (C : Circular l head xs)
    (h : ∀ a ∈ head :: xs, l'.next a = l.next a ∧ l'.prev a = l.prev a) :
    Circular l' head xs where
  next := (h head List.mem_cons_self).1.trans C.next
  prev := (h head List.mem_cons_self).2.trans C.prev
  linked := C.linked.congr (fun x hx ↦ congrArg some (h x (List.mem_cons_of_mem head hx)).2)
    fun x hx ↦ congrArg some (h x (List.mem_cons_of_mem head hx)).1
  nodup := C.nodup

/-- `prev` goes back where `next` came from. -/
theorem Circular.prev_next (C : Circular l head xs) (ha : a ∈ head :: xs) :
    l.prev (l.next a) = a := by
  rcases List.mem_cons.1 ha with rfl | hx
  · cases xs with
    | nil => exact (congrArg l.prev C.next).trans C.prev
    | cons x xs => exact (congrArg l.prev C.next).trans (Option.some.inj C.linked.1)
  · obtain ⟨pre, post, rfl⟩ := List.append_of_mem hx
    have hnext := C.middle.2
    cases post with
    | nil =>
      rw [hnext, List.head?_nil, Option.getD_none, C.prev, List.getLast?_concat, Option.getD_some]
    | cons y post =>
      rw [List.append_cons] at C
      rw [hnext, List.head?_cons, Option.getD_some, C.middle.1, List.getLast?_concat,
        Option.getD_some]

/-- The head points to the first node of its list. -/
theorem Circular.head?_eq (C : Circular l head xs) (hne : xs ≠ []) :
    xs.head? = some (l.next head) :=
  C.next ▸ head?_eq_some_getD hne head

/-- And back to the last one. -/
theorem Circular.getLast?_eq (C : Circular l head xs) (hne : xs ≠ []) :
    xs.getLast? = some (l.prev head) :=
  C.prev ▸ getLast?_eq_some_getD hne head

/-! ### What is closed under the pointers -/

/-- The nodes of `R` point to nodes of `R`, `src` perhaps excepted. -/
def ClosedBut (l : ReaderLists) (R : Set Addr) (src : Addr) : Prop :=
  ∀ a ∈ R, a ≠ src → l.next a ∈ R ∧ l.prev a ∈ R

/-- The pointers of these addresses lead to these addresses. -/
def Closed (l : ReaderLists) (R : Set Addr) : Prop := ∀ a ∈ R, l.next a ∈ R ∧ l.prev a ∈ R

variable {R : Set Addr} {src dst : Addr}

theorem ClosedBut.setNext (h : ClosedBut l R src) (hv : v ∈ R ∨ a ∉ R ∨ a = src) :
    ClosedBut (l.setNext a v) R src := by
  intro b hb hne
  refine ⟨?_, (h b hb hne).2⟩
  rcases eq_or_ne b a with rfl | hba
  · rw [ReaderLists.next_setNext, update_self]
    exact hv.resolve_right fun h ↦ h.elim (fun h ↦ h hb) hne
  · rw [ReaderLists.next_setNext, update_of_ne hba]
    exact (h b hb hne).1

theorem ClosedBut.setPrev (h : ClosedBut l R src) (hv : v ∈ R ∨ a ∉ R ∨ a = src) :
    ClosedBut (l.setPrev a v) R src := by
  intro b hb hne
  refine ⟨(h b hb hne).1, ?_⟩
  rcases eq_or_ne b a with rfl | hba
  · rw [ReaderLists.prev_setPrev, update_self]
    exact hv.resolve_right fun h ↦ h.elim (fun h ↦ h hb) hne
  · rw [ReaderLists.prev_setPrev, update_of_ne hba]
    exact (h b hb hne).2

/-- **`reader_move`** keeps what is closed, whether the node was in it before or comes from outside.
-/
theorem closed_readerMove (h : ClosedBut l R src) (hsrc : src ∈ R) (hdst : dst ∈ R)
    (hne : dst ≠ src)
    (hold : l.next src ∈ R ∧ l.prev src ∈ R ∨ l.next src ∉ R ∧ l.prev src ∉ R) :
    Closed (l.readerMove src dst) R := by
  -- the neighbours of `src` are linked to each other: both are in `R`, or both outside
  let l₁ := l.setPrev (l.next src) (l.prev src)
  have h₁ : ClosedBut l₁ R src := h.setPrev (hold.imp And.right fun h ↦ .inl h.1)
  have hprev : l₁.prev src = l.prev src := by
    show update l.prev (l.next src) (l.prev src) src = l.prev src
    rcases eq_or_ne src (l.next src) with heq | hne'
    · rw [← heq, update_self]
    · rw [update_of_ne hne']
  let l₂ := l₁.setNext (l₁.prev src) (l₁.next src)
  have h₂ : ClosedBut l₂ R src :=
    h₁.setNext (hold.imp And.left fun h ↦ .inl (hprev ▸ h.2))
  -- then `src` is linked in
  let l₃ := l₂.setNext (l₂.prev dst) src
  have h₃ : ClosedBut l₃ R src := h₂.setNext (.inl hsrc)
  have h₆ : ClosedBut (l.readerMove src dst) R src :=
    ((h₃.setNext (.inr (.inr rfl))).setPrev (.inr (.inr rfl))).setNext (.inl hsrc)
  intro a ha
  rcases eq_or_ne a src with rfl | hne'
  · constructor
    · show update (update l₃.next a (l₃.next dst)) dst a a ∈ R
      rw [update_of_ne hne.symm, update_self]
      exact (h₃ dst hdst hne).1
    · show update l₃.prev a dst a ∈ R
      rw [update_self]
      exact hdst
  · exact h₆ a ha hne'

theorem node_readerMove (l : ReaderLists) (src dst : Addr) :
    (l.readerMove src dst).node = l.node := rfl

/-! ### The registry -/

/-- The registry is a circular list of nodes that belong to the registered readers, one to each. -/
structure Registered (l : ReaderLists) (xs : List Addr) : Prop where
  circular : Circular l registryReaderList xs
  head : l.node registryReaderList = none
  node : ∀ x ∈ xs, ∃ reader, l.node x = some reader ∧ l.list reader = some x
  list : ∀ reader x, l.list reader = some x → x ∈ xs ∧ l.node x = some reader
  lt_fresh : ∀ x ∈ registryReaderList :: xs, x < l.fresh

theorem registered_initial : Registered .initial [] where
  circular := ⟨rfl, rfl, trivial, List.nodup_singleton _⟩
  head := rfl
  node x hx := absurd hx List.not_mem_nil
  list reader x h := by cases h
  lt_fresh x hx := by
    rw [List.mem_singleton.1 hx]
    exact Nat.lt_succ_self _

/-- **`reader_add`** puts a new node at the front. -/
theorem Circular.readerAdd (C : Circular l head xs) (hfresh : l.fresh ∉ head :: xs)
    (reader : ReaderId) : Circular (l.readerAdd reader head) head (l.fresh :: xs) := by
  have hne : head ≠ l.fresh := fun h ↦ hfresh (h ▸ List.mem_cons_self)
  have hnext : (l.readerAdd reader head).next =
      update (update l.next l.fresh (l.next head)) head l.fresh := rfl
  have hprev : (l.readerAdd reader head).prev =
      update (update l.prev (l.next head) l.fresh) l.fresh head := rfl
  have hnodup : (head :: l.fresh :: xs).Nodup := by
    obtain ⟨hhead, hxs⟩ := List.nodup_cons.1 C.nodup
    rw [List.nodup_cons, List.mem_cons, not_or]
    exact ⟨⟨hne, hhead⟩, List.nodup_cons.2 ⟨fun h ↦ hfresh (List.mem_cons_of_mem _ h), hxs⟩⟩
  have hnot : ∀ x ∈ xs, x ≠ head ∧ x ≠ l.fresh := fun x hx ↦
    ⟨fun h ↦ (List.nodup_cons.1 C.nodup).1 (h ▸ hx),
      fun h ↦ hfresh (h ▸ List.mem_cons_of_mem _ hx)⟩
  have hfirst : (l.readerAdd reader head).next head = l.fresh := by
    rw [hnext, update_self]
  have htmp : (l.readerAdd reader head).next l.fresh = xs.head?.getD head := by
    rw [hnext, update_of_ne hne.symm, update_self, C.next]
  have hback : (l.readerAdd reader head).prev l.fresh = head := by rw [hprev, update_self]
  cases xs with
  | nil =>
    have hlast : (l.readerAdd reader head).prev head = l.fresh := by
      rw [hprev, update_of_ne hne, C.next]
      exact update_self ..
    exact ⟨hfirst, hlast, ⟨congrArg some hback, congrArg some htmp, trivial⟩, hnodup⟩
  | cons y ys =>
    have hy : l.next head = y := C.next
    have hyne := hnot y List.mem_cons_self
    have hlast : (l.readerAdd reader head).prev head = ((y :: ys).getLast?).getD head := by
      rw [hprev, update_of_ne hne, hy, update_of_ne hyne.1.symm, C.prev]
    obtain ⟨-, hnexty, hrest⟩ := C.linked
    have hys : ∀ x ∈ ys, x ≠ y := fun x hx h ↦
      (List.nodup_cons.1 (List.nodup_cons.1 C.nodup).2).1 (h ▸ hx)
    refine ⟨hfirst, ?_, ⟨congrArg some hback, congrArg some htmp, ?_, ?_, ?_⟩, hnodup⟩
    · rw [hlast, List.getLast?_cons_cons]
    · show some ((l.readerAdd reader head).prev y) = _
      rw [hprev, update_of_ne hyne.2, hy, update_self]
    · show some ((l.readerAdd reader head).next y) = _
      rw [hnext, update_of_ne hyne.1, update_of_ne hyne.2]
      exact hnexty
    · refine hrest.congr (fun x hx ↦ ?_) fun x hx ↦ ?_
      · have hxne := hnot x (List.mem_cons_of_mem y hx)
        show some ((l.readerAdd reader head).prev x) = _
        rw [hprev, update_of_ne hxne.2, hy, update_of_ne (hys x hx)]
        rfl
      · have hxne := hnot x (List.mem_cons_of_mem y hx)
        show some ((l.readerAdd reader head).next x) = _
        rw [hnext, update_of_ne hxne.1, update_of_ne hxne.2]
        rfl

/-- **`reader_del`** takes a node out. -/
theorem Circular.readerDel {reader : ReaderId} (C : Circular l head (xs ++ x :: ys))
    (hlist : l.list reader = some x) : Circular (l.readerDel reader) head (xs ++ ys) := by
  obtain ⟨hprevx, hnextx⟩ := C.middle
  have hself : l.next x ≠ x := (C.ne (List.mem_append_right xs List.mem_cons_self)).1
  have hprev : (l.readerDel reader).prev = update l.prev (l.next x) (l.prev x) := by
    rw [ReaderLists.readerDel, hlist]
    rfl
  have hnext : (l.readerDel reader).next = update l.next (l.prev x) (l.next x) := by
    rw [ReaderLists.readerDel, hlist]
    exact congrArg (update l.next · _) (update_of_ne hself.symm ..)
  obtain ⟨hhead, hnodup⟩ := List.nodup_cons.1 C.nodup
  rw [List.mem_append, List.mem_cons, not_or, not_or] at hhead
  obtain ⟨hxs, hys, hdisj⟩ := List.nodup_append.1 hnodup
  obtain ⟨hfront, -, -, hback⟩ := linked_append.1 C.linked
  have hlast : xs ≠ [] → xs.getLast? = some (l.prev x) := fun hne ↦
    hprevx ▸ getLast?_eq_some_getD hne head
  have hfirst : ys ≠ [] → ys.head? = some (l.next x) := fun hne ↦
    hnextx ▸ head?_eq_some_getD hne head
  -- each half keeps its far pointers: those written are the head's or of the other half
  have hxs_ne : ∀ y ∈ xs, y ≠ l.next x := by
    intro y hy
    refine (ne_of_mem_of_not_mem (hnextx ▸ head?_getD_mem head ys) ?_).symm
    exact List.not_mem_cons_of_ne_of_not_mem (ne_of_mem_of_not_mem hy hhead.1) fun hy' ↦
      hdisj y hy y (List.mem_cons_of_mem x hy') rfl
  have hys_ne : ∀ y ∈ ys, y ≠ l.prev x := by
    intro y hy
    refine (ne_of_mem_of_not_mem (hprevx ▸ getLast?_getD_mem head xs) ?_).symm
    exact List.not_mem_cons_of_ne_of_not_mem (ne_of_mem_of_not_mem hy hhead.2.2) fun hy' ↦
      hdisj y hy' y (List.mem_cons_of_mem x hy) rfl
  refine ⟨?_, ?_, linked_append.2 ⟨?_, ?_⟩, ?_⟩
  · rw [hnext]
    cases xs with
    | nil =>
      rw [hprevx]
      exact (update_self ..).trans hnextx
    | cons z zs =>
      have hmem := List.mem_of_getLast? (hlast (List.cons_ne_nil z zs))
      rw [update_of_ne (ne_of_mem_of_not_mem hmem hhead.1).symm, C.next]
      rfl
  · rw [hprev]
    rcases eq_or_ne ys [] with rfl | hne
    · rw [List.append_nil, hnextx]
      exact (update_self ..).trans hprevx
    · have hmem := List.mem_of_head? (hfirst hne)
      rw [update_of_ne (ne_of_mem_of_not_mem hmem hhead.2.2).symm, C.prev,
        List.getLast?_append_of_ne_nil _ (List.cons_ne_nil x ys),
        List.getLast?_append_of_ne_nil _ hne, List.getLast?_cons_of_ne_nil hne]
  · rw [Option.or_some, ← hnextx]
    refine (hfront.set_next_last hxs _).congr (fun y hy ↦ ?_) fun y hy ↦ ?_
    · rw [hprev]
      exact congrArg some (update_of_ne (hxs_ne y hy) ..)
    · rw [hlast (List.ne_nil_of_mem hy), setAt_some, hnext, comp_update]
  · rw [Option.or_some, ← hprevx]
    refine (hback.set_prev_head (List.nodup_cons.1 hys).2 _).congr (fun y hy ↦ ?_) fun y hy ↦ ?_
    · rw [hfirst (List.ne_nil_of_mem hy), setAt_some, hprev, comp_update]
    · rw [hnext]
      exact congrArg some (update_of_ne (hys_ne y hy) ..)
  · rw [List.nodup_cons, List.mem_append, not_or]
    refine ⟨⟨hhead.1, hhead.2.2⟩, hxs.append (List.nodup_cons.1 hys).2 fun y hy hy' ↦ ?_⟩
    exact hdisj y hy y (List.mem_cons_of_mem _ hy') rfl

theorem list_readerAdd (l : ReaderLists) (reader : ReaderId) (head : Addr) :
    (l.readerAdd reader head).list = update l.list reader (some l.fresh) := rfl

theorem node_readerAdd (l : ReaderLists) (reader : ReaderId) (head : Addr) :
    (l.readerAdd reader head).node = update l.node l.fresh (some reader) := rfl

theorem list_readerDel (l : ReaderLists) (reader : ReaderId) :
    (l.readerDel reader).list = update l.list reader none := by
  rw [ReaderLists.readerDel]
  split
  next h => rw [← h, update_eq_self]
  next => rfl

theorem node_readerDel (l : ReaderLists) (reader : ReaderId) :
    (l.readerDel reader).node = l.node ∧ (l.readerDel reader).fresh = l.fresh := by
  rw [ReaderLists.readerDel]
  split <;> exact ⟨rfl, rfl⟩

/-- **A step** keeps the registry a list of the registered readers. -/
theorem Registered.step {act : RegistryAction} (h : Registered l xs)
    (hs : registryStep l act = some l') : ∃ ys, Registered l' ys := by
  cases act with
  | register reader =>
    rw [registryStep] at hs
    split at hs <;> [cases hs; skip]
    next hnew =>
      obtain rfl := Option.some.inj hs
      have hfresh : ∀ x ∈ registryReaderList :: xs, x ≠ l.fresh := fun x hx ↦
        Nat.ne_of_lt (h.lt_fresh x hx)
      have hnot : l.fresh ∉ registryReaderList :: xs := fun hmem ↦ hfresh _ hmem rfl
      refine ⟨l.fresh :: xs, h.circular.readerAdd hnot reader, ?_, fun x hx ↦ ?_, fun r x hr ↦ ?_,
        fun x hx ↦ ?_⟩
      · rw [node_readerAdd, update_of_ne (hfresh _ List.mem_cons_self), h.head]
      · rw [node_readerAdd, list_readerAdd]
        rcases List.mem_cons.1 hx with rfl | hx
        · exact ⟨reader, update_self .., update_self ..⟩
        · obtain ⟨r, hr, hlist⟩ := h.node x hx
          have hne : r ≠ reader := fun heq ↦ hnew (by rw [← heq, hlist]; rfl)
          refine ⟨r, ?_, by rw [update_of_ne hne, hlist]⟩
          rw [update_of_ne (hfresh x (List.mem_cons_of_mem _ hx)), hr]
      · rw [list_readerAdd] at hr
        rw [node_readerAdd]
        rcases eq_or_ne r reader with rfl | hne
        · rw [update_self, Option.some.injEq] at hr
          exact ⟨hr ▸ List.mem_cons_self, hr ▸ update_self ..⟩
        · rw [update_of_ne hne] at hr
          obtain ⟨hx, hnode⟩ := h.list r x hr
          refine ⟨List.mem_cons_of_mem _ hx, ?_⟩
          rw [update_of_ne (hfresh x (List.mem_cons_of_mem _ hx)), hnode]
      · show x < l.fresh + 1
        rcases List.mem_cons.1 hx with rfl | hx
        · exact Nat.lt_succ_of_lt (h.lt_fresh _ List.mem_cons_self)
        · rcases List.mem_cons.1 hx with rfl | hx
          · exact Nat.lt_succ_self _
          · exact Nat.lt_succ_of_lt (h.lt_fresh x (List.mem_cons_of_mem _ hx))
  | unregister reader =>
    obtain rfl := Option.some.inj hs
    rcases hlist : l.list reader with _ | x
    · refine ⟨xs, ?_⟩
      rwa [ReaderLists.readerDel, hlist]
    · obtain ⟨hx, hnode⟩ := h.list reader x hlist
      obtain ⟨ys, zs, rfl⟩ := List.append_of_mem hx
      have hnotin : x ∉ ys ++ zs := by
        have hnodup := (List.nodup_cons.1 h.circular.nodup).2
        exact (List.nodup_cons.1 (List.nodup_middle.1 hnodup)).1
      have hsub : ∀ y ∈ ys ++ zs, y ∈ ys ++ x :: zs := by simp +contextual [or_imp]
      have hreader : ∀ r y, y ∈ ys ++ zs → l.list r = some y → r ≠ reader := by
        rintro r y hy hr rfl
        exact hnotin (Option.some.inj (hlist.symm.trans hr) ▸ hy)
      refine ⟨ys ++ zs, h.circular.readerDel hlist, ?_, fun y hy ↦ ?_, fun r y hr ↦ ?_,
        fun y hy ↦ ?_⟩
      · rw [(node_readerDel l reader).1, h.head]
      · obtain ⟨r, hr, hrlist⟩ := h.node y (hsub y hy)
        refine ⟨r, by rw [(node_readerDel l reader).1, hr], ?_⟩
        rw [list_readerDel, update_of_ne (hreader r y hy hrlist), hrlist]
      · rw [list_readerDel] at hr
        rcases eq_or_ne r reader with rfl | hne
        · rw [update_self] at hr
          cases hr
        · rw [update_of_ne hne] at hr
          obtain ⟨hy, hynode⟩ := h.list r y hr
          rw [(node_readerDel l reader).1]
          refine ⟨?_, hynode⟩
          have hyx : y ≠ x := by
            rintro rfl
            exact hne (Option.some.inj (hynode.symm.trans hnode))
          simpa [hyx] using hy
      · rw [(node_readerDel l reader).2]
        refine h.lt_fresh y ?_
        rcases List.mem_cons.1 hy with rfl | hy
        · exact List.mem_cons_self
        · exact List.mem_cons_of_mem _ (hsub y hy)

/-- **The registry** is a list of the registered readers after any sequence of registrations. -/
theorem registered_of_exec {acts : List RegistryAction}
    (h : Machine.exec registryStep .initial acts = some l) : ∃ xs, Registered l xs :=
  Machine.exec_invariant' (I := fun l ↦ ∃ xs, Registered l xs)
    (fun _ _ _ ⟨_, hl⟩ hs ↦ hl.step hs) ⟨[], registered_initial⟩ h

end Urcu
