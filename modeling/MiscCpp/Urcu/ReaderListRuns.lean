import MiscCpp.Urcu.ReaderList

/-!
# Several lists of readers

`reader_add`, `reader_del`, `reader_move` and `reader_splice` on any number of lists, each with its
head. What the operations are for is a function from the nodes to the heads of the lists they are
in, `listOf`: a step does to it what the name of the operation says, and to the pointers what the
code writes. A state is well formed if the list of each head is circular and has the nodes that
`listOf` gives to this head.

`reader_add`, `reader_del` and `reader_splice` (with the spliced head reset) keep this, and
`reader_move` never does: after `dst->prev->next = src` the successor of `src` still points back to
the head `dst`, or `src` is its own successor. So the lists are well formed in every state of a run
exactly if the run takes no `reader_move` (`keepsCircular_iff`).
-/

open Function DoublyLinked

namespace Urcu

variable {l l' : ReaderLists} {head src dst a x : Addr} {xs ys zs : List Addr}

/-! ### `reader_splice` -/

/-- What `reader_splice` writes, if `src` has a node and `dst` is not one of its nodes. -/
theorem readerSplice_eq (hnext : l.next src ≠ src) (hprev : l.prev src ≠ src)
    (hdst : dst ≠ l.prev src) :
    (l.readerSplice src dst).next =
        update (update l.next (l.prev src) (l.next dst)) dst (l.next src) ∧
      (l.readerSplice src dst).prev =
        update (update l.prev (l.next src) dst) (l.next dst) (l.prev src) := by
  simp [ReaderLists.readerSplice, update_of_ne hnext.symm, update_of_ne hprev.symm,
    update_of_ne hdst]

/-- **`reader_splice`** puts the nodes of one list in front of those of another. -/
theorem Circular.readerSplice (S : Circular l src xs) (D : Circular l dst ys) (hne : xs ≠ [])
    (hdisj : ∀ a ∈ src :: xs, a ∉ dst :: ys) :
    Circular (l.readerSplice src dst) dst (xs ++ ys) := by
  have hhead := S.head?_eq hne
  have hlast := S.getLast?_eq hne
  have hfirst_mem : l.next src ∈ xs := List.mem_of_head? hhead
  have hlast_mem : l.prev src ∈ xs := List.mem_of_getLast? hlast
  obtain ⟨hsrc, hxs⟩ := List.nodup_cons.1 S.nodup
  obtain ⟨hdst, hys⟩ := List.nodup_cons.1 D.nodup
  have hne_dst : ∀ x ∈ xs, x ≠ dst ∧ x ∉ ys := fun x hx ↦ by
    simpa using hdisj x (List.mem_cons_of_mem src hx)
  have hnextdst : l.next dst ∈ dst :: ys := (D.mem List.mem_cons_self).1
  obtain ⟨hnext, hprev⟩ := readerSplice_eq (ne_of_mem_of_not_mem hfirst_mem hsrc)
    (ne_of_mem_of_not_mem hlast_mem hsrc) (hne_dst _ hlast_mem).1.symm
  refine ⟨?_, ?_, linked_append.2 ⟨?_, ?_⟩, ?_⟩
  · rw [hnext, update_self, List.head?_append_of_ne_nil _ hne, hhead, Option.getD_some]
  · cases ys with
    | nil =>
      rw [hprev, show l.next dst = dst from D.next, update_self, List.append_nil, hlast,
        Option.getD_some]
    | cons y ys =>
      have hy : l.next dst = y := D.next
      have hne' : dst ≠ y := fun h ↦ hdst (h ▸ List.mem_cons_self)
      rw [hprev, hy, update_of_ne hne', update_of_ne (hne_dst _ hfirst_mem).1.symm, D.prev,
        List.getLast?_append_of_ne_nil _ (List.cons_ne_nil y ys)]
  · -- the nodes of `src`: the first points back to `dst`, the last one on to the first of `dst`
    rw [Option.or_some, ← D.next]
    refine ((S.linked.set_next_last hxs (some (l.next dst))).set_prev_head hxs
      (some dst)).congr (fun x hx ↦ ?_) fun x hx ↦ ?_
    · rw [hhead, setAt_some, ← comp_update, comp_apply, hprev]
      refine congrArg some (update_of_ne ?_ ..)
      rintro rfl
      exact hdisj _ (List.mem_cons_of_mem src hx) hnextdst
    · rw [hlast, setAt_some, ← comp_update, comp_apply, hnext]
      exact congrArg some (update_of_ne (hne_dst x hx).1 ..)
  · -- the nodes of `dst`: the first points back to the last of `src`
    rw [hlast, Option.some_or]
    refine (D.linked.set_prev_head hys (some (l.prev src))).congr (fun y hy ↦ ?_) fun y hy ↦ ?_
    · have hyne : y ≠ l.next src := by
        rintro rfl
        exact (hne_dst _ hfirst_mem).2 hy
      rw [D.head?_eq (List.ne_nil_of_mem hy), setAt_some, ← comp_update, comp_apply, hprev]
      refine congrArg some ?_
      rcases eq_or_ne y (l.next dst) with heq | hne'
      · rw [heq, update_self, update_self]
      · rw [update_of_ne hne', update_of_ne hne', update_of_ne hyne]
    · have hyne : y ≠ l.prev src := by
        rintro rfl
        exact (hne_dst _ hlast_mem).2 hy
      rw [comp_apply, hnext, update_of_ne (ne_of_mem_of_not_mem hy hdst), update_of_ne hyne]
      rfl
  · rw [List.nodup_cons, List.mem_append, not_or]
    exact ⟨⟨fun h ↦ (hne_dst dst h).1 rfl, hdst⟩,
      hxs.append hys fun y hy hy' ↦ (hne_dst y hy).2 hy'⟩

/-- Resetting a head leaves the other lists alone. -/
theorem Circular.reset (C : Circular l head xs) (ha : a ∉ head :: xs) :
    Circular ((l.setNext a a).setPrev a a) head xs :=
  C.congr fun b hb ↦
    have hne : b ≠ a := ne_of_mem_of_not_mem hb ha
    ⟨update_of_ne hne .., update_of_ne hne ..⟩

/-! ### The pointers of other lists -/

theorem readerAdd_of_not_mem (C : Circular l head xs) (reader : ReaderId) (hfresh : a ≠ l.fresh)
    (ha : a ∉ head :: xs) :
    (l.readerAdd reader head).next a = l.next a ∧ (l.readerAdd reader head).prev a = l.prev a := by
  have hhead := List.mem_cons_self (a := head) (l := xs)
  exact ⟨(update_of_ne (ne_of_mem_of_not_mem hhead ha).symm ..).trans (update_of_ne hfresh ..),
    (update_of_ne hfresh ..).trans
      (update_of_ne (ne_of_mem_of_not_mem (C.mem hhead).1 ha).symm ..)⟩

theorem readerDel_of_not_mem (C : Circular l head xs) {reader : ReaderId}
    (hlist : l.list reader = some x) (hx : x ∈ xs) (ha : a ∉ head :: xs) :
    (l.readerDel reader).next a = l.next a ∧ (l.readerDel reader).prev a = l.prev a := by
  obtain ⟨hnext, hprev⟩ := C.mem (List.mem_cons_of_mem head hx)
  rw [ReaderLists.readerDel, hlist]
  refine ⟨update_of_ne ?_ .., update_of_ne (ne_of_mem_of_not_mem hnext ha).symm ..⟩
  rw [ReaderLists.prev_setPrev, update_of_ne (C.ne hx).1.symm]
  exact (ne_of_mem_of_not_mem hprev ha).symm

theorem readerSplice_of_not_mem (S : Circular l src xs) (D : Circular l dst ys) (hne : xs ≠ [])
    (hdst : dst ∉ src :: xs) (hasrc : a ∉ src :: xs) (hadst : a ∉ dst :: ys) :
    (l.readerSplice src dst).next a = l.next a ∧ (l.readerSplice src dst).prev a = l.prev a := by
  have hfirst : l.next src ∈ xs := List.mem_of_head? (S.head?_eq hne)
  have hlast : l.prev src ∈ xs := List.mem_of_getLast? (S.getLast?_eq hne)
  obtain ⟨hsrc, -⟩ := List.nodup_cons.1 S.nodup
  obtain ⟨hn, hp⟩ := readerSplice_eq (ne_of_mem_of_not_mem hfirst hsrc)
    (ne_of_mem_of_not_mem hlast hsrc)
    (ne_of_mem_of_not_mem (List.mem_cons_of_mem src hlast) hdst).symm
  have hself : dst ∈ dst :: ys := List.mem_cons_self
  rw [hn, hp, update_of_ne (ne_of_mem_of_not_mem hself hadst).symm,
    update_of_ne (ne_of_mem_of_not_mem (List.mem_cons_of_mem src hlast) hasrc).symm,
    update_of_ne (ne_of_mem_of_not_mem (D.mem hself).1 hadst).symm,
    update_of_ne (ne_of_mem_of_not_mem (List.mem_cons_of_mem src hfirst) hasrc).symm]
  exact ⟨rfl, rfl⟩

/-! ### `reader_move` -/

/-- **`reader_move`** breaks the list that it moves a node to, whatever the nodes of this list are
to be: the successor of `src` points back to the head, not to `src`. -/
theorem not_circular_readerMove (D : Circular l dst ys) (hsrc : src ∉ dst :: ys)
    (hnext : l.next src ∉ dst :: ys) (hprev : l.prev src ∉ dst :: ys) (hself : l.next src ≠ src)
    (zs : List Addr) : ¬ Circular (l.readerMove src dst) dst zs := by
  intro C
  have hdst : dst ∈ dst :: ys := List.mem_cons_self
  have hne : dst ≠ src := ne_of_mem_of_not_mem hdst hsrc
  -- the first four writes, before `src` gets its pointers
  have hunlink : ∀ b ∈ dst :: ys, update l.next (l.prev src) (l.next src) b = l.next b :=
    fun b hb ↦ update_of_ne (ne_of_mem_of_not_mem hb hprev) ..
  have hprevdst : update l.prev (l.next src) (l.prev src) dst = l.prev dst :=
    update_of_ne (ne_of_mem_of_not_mem hdst hnext) ..
  have hprevsrc : update l.prev (l.next src) (l.prev src) src = l.prev src :=
    update_of_ne hself.symm ..
  have hn : (l.readerMove src dst).next = update (update (update (update l.next (l.prev src)
      (l.next src)) (l.prev dst) src) src
        (update (update l.next (l.prev src) (l.next src)) (l.prev dst) src dst)) dst src := by
    simp [ReaderLists.readerMove, hprevdst, hprevsrc]
  have hp : (l.readerMove src dst).prev =
      update (update l.prev (l.next src) (l.prev src)) src dst := rfl
  have hfirst : (l.readerMove src dst).next dst = src := by rw [hn, update_self]
  have hmem : src ∈ dst :: zs := hfirst ▸ (C.mem List.mem_cons_self).1
  -- the successor of `src` is `src` itself, or the former first node of the list
  have hback : (l.readerMove src dst).prev ((l.readerMove src dst).next src) = dst := by
    rw [hn, update_of_ne hne.symm, update_self]
    cases ys with
    | nil =>
      rw [show l.prev dst = dst from D.prev, update_self, hp, update_self]
    | cons y ys =>
      have hlast : l.prev dst ∈ y :: ys :=
        List.mem_of_getLast? (D.getLast?_eq (List.cons_ne_nil y ys))
      have hy : y ∈ dst :: y :: ys := List.mem_cons_of_mem dst List.mem_cons_self
      rw [update_of_ne (ne_of_mem_of_not_mem hlast (List.nodup_cons.1 D.nodup).1).symm,
        hunlink dst hdst, show l.next dst = y from D.next, hp,
        update_of_ne (ne_of_mem_of_not_mem hy hsrc), update_of_ne (ne_of_mem_of_not_mem hy hnext)]
      exact Option.some.inj D.linked.1
  exact hne (hback.symm.trans (C.prev_next hmem))

/-! ### The lists of all heads -/

/-- The pointers, the heads of the lists, and the head of the list that a node is in. -/
structure ReaderFamily where
  lists : ReaderLists
  heads : List Addr
  listOf : Addr → Option Addr

/-- The operations. `splice` resets the head of the spliced list. -/
inductive ListAction where
  | add (reader : ReaderId) (list : Addr)
  | del (reader : ReaderId)
  | move (src dst : Addr)
  | splice (src dst : Addr)

namespace ReaderFamily

variable (s : ReaderFamily)

/-- When an operation may be called: a node is moved to another list than its own, and a list with
a node is spliced to another one. -/
def Legal : ListAction → Prop
  | .add _ list => list ∈ s.heads
  | .del _ => True
  | .move src dst => dst ∈ s.heads ∧ (s.listOf src).any (· ≠ dst)
  | .splice src dst => src ∈ s.heads ∧ dst ∈ s.heads ∧ src ≠ dst ∧ s.lists.next src ≠ src

instance : DecidablePred s.Legal := fun act ↦
  match act with
  | .add _ _ => inferInstanceAs (Decidable (_ ∈ _))
  | .del _ => inferInstanceAs (Decidable True)
  | .move _ _ => inferInstanceAs (Decidable (_ ∧ _))
  | .splice _ _ => inferInstanceAs (Decidable (_ ∧ _ ∧ _ ∧ _))

/-- What the code does to the pointers. -/
def write (l : ReaderLists) : ListAction → ReaderLists
  | .add reader list => l.readerAdd reader list
  | .del reader => l.readerDel reader
  | .move src dst => l.readerMove src dst
  | .splice src dst => ((l.readerSplice src dst).setNext src src).setPrev src src

/-- What the name of the operation says: the nodes that change their list. -/
def assign : ListAction → Addr → Option Addr
  | .add _ list => update s.listOf s.lists.fresh (some list)
  | .del reader =>
    match s.lists.list reader with
    | none => s.listOf
    | some x => update s.listOf x none
  | .move src dst => update s.listOf src (some dst)
  | .splice src dst => fun x ↦ if s.listOf x = some src then some dst else s.listOf x

def after (act : ListAction) : ReaderFamily :=
  { s with lists := write s.lists act, listOf := s.assign act }

/-- A step, undefined where the operation may not be called. -/
def step (act : ListAction) : Option ReaderFamily :=
  if s.Legal act then some (s.after act) else none

/-- The list of each head is circular, and has the nodes that it is to have. -/
def WellFormed : Prop :=
  ∀ head ∈ s.heads, ∃ xs, Circular s.lists head xs ∧ ∀ x, x ∈ xs ↔ s.listOf x = some head

/-- Well-formed lists, with what the operations rely on besides: a node is in the list of one of the
heads, a head is in no list, the pointer of a reader is to a node of this reader, and memory in use
is not allocated again. -/
structure Consistent : Prop where
  wellFormed : s.WellFormed
  mem_heads : ∀ x head, s.listOf x = some head → head ∈ s.heads
  listOf_head : ∀ head ∈ s.heads, s.listOf head = none
  list : ∀ reader x, s.lists.list reader = some x →
    s.lists.node x = some reader ∧ (s.listOf x).isSome
  lt_fresh : ∀ x, x ∈ s.heads ∨ (s.listOf x).isSome → x < s.lists.fresh

variable {s} {list head' : Addr}

namespace Consistent

variable (h : s.Consistent)
include h

/-- The lists of two heads have no node in common. -/
theorem disjoint (hhead : head ∈ s.heads) (hhead' : head' ∈ s.heads) (hne : head ≠ head')
    (hxs : ∀ x, x ∈ xs ↔ s.listOf x = some head) (hys : ∀ x, x ∈ ys ↔ s.listOf x = some head') :
    ∀ a ∈ head :: xs, a ∉ head' :: ys := by
  intro a ha ha'
  rcases List.mem_cons.1 ha with rfl | hx
  · rcases List.mem_cons.1 ha' with rfl | hy
    · exact hne rfl
    · cases (h.listOf_head a hhead).symm.trans ((hys a).1 hy)
  · rcases List.mem_cons.1 ha' with rfl | hy
    · cases (h.listOf_head a hhead').symm.trans ((hxs a).1 hx)
    · exact hne (Option.some.inj (((hxs a).1 hx).symm.trans ((hys a).1 hy)))

/-- The nodes of a list are in use. -/
theorem ne_fresh (hhead : head ∈ s.heads) (hxs : ∀ x, x ∈ xs ↔ s.listOf x = some head) :
    ∀ a ∈ head :: xs, a ≠ s.lists.fresh := by
  intro a ha
  refine Nat.ne_of_lt (h.lt_fresh a ?_)
  rcases List.mem_cons.1 ha with rfl | hx
  · exact .inl hhead
  · exact .inr (by rw [(hxs a).1 hx]; rfl)

theorem wellFormed_add (hlist : list ∈ s.heads) (reader : ReaderId) :
    (s.after (.add reader list)).WellFormed := by
  intro head hhead
  have hlistOf : (s.after (.add reader list)).listOf =
      update s.listOf s.lists.fresh (some list) := rfl
  obtain ⟨xs, C, hxs⟩ := h.wellFormed head hhead
  have hne := h.ne_fresh hhead hxs
  rw [hlistOf]
  rcases eq_or_ne head list with rfl | hhl
  · refine ⟨s.lists.fresh :: xs, C.readerAdd (fun hmem ↦ hne _ hmem rfl) reader, fun x ↦ ?_⟩
    rw [List.mem_cons]
    rcases eq_or_ne x s.lists.fresh with rfl | hx
    · rw [update_self]
      exact iff_of_true (.inl rfl) rfl
    · rw [update_of_ne hx, hxs, or_iff_right hx]
  · obtain ⟨ys, D, hys⟩ := h.wellFormed list hlist
    have hdisj := h.disjoint hhead hlist hhl hxs hys
    refine ⟨xs, C.congr fun a ha ↦ readerAdd_of_not_mem D reader (hne a ha) (hdisj a ha),
      fun x ↦ ?_⟩
    rcases eq_or_ne x s.lists.fresh with rfl | hx
    · rw [update_self]
      exact iff_of_false (fun hmem ↦ hne _ (List.mem_cons_of_mem head hmem) rfl)
        fun heq ↦ hhl (Option.some.inj heq).symm
    · rw [update_of_ne hx, hxs]

/-- **`reader_add`** brings a node into the list of one head. -/
theorem add (hlist : list ∈ s.heads) (reader : ReaderId) :
    (s.after (.add reader list)).Consistent := by
  have hlistOf : (s.after (.add reader list)).listOf =
      update s.listOf s.lists.fresh (some list) := rfl
  refine ⟨h.wellFormed_add hlist reader, fun x head hx ↦ ?_, fun head hhead ↦ ?_,
    fun r x hr ↦ ?_, fun x hx ↦ ?_⟩
  · rw [hlistOf] at hx
    rcases eq_or_ne x s.lists.fresh with rfl | hne
    · rw [update_self] at hx
      exact Option.some.inj hx ▸ hlist
    · rw [update_of_ne hne] at hx
      exact h.mem_heads x head hx
  · have hne : head ≠ s.lists.fresh := Nat.ne_of_lt (h.lt_fresh head (.inl hhead))
    rw [hlistOf, update_of_ne hne]
    exact h.listOf_head head hhead
  · change update s.lists.list reader (some s.lists.fresh) r = some x at hr
    show update s.lists.node s.lists.fresh (some reader) x = some r ∧ _
    rw [hlistOf]
    rcases eq_or_ne r reader with rfl | hne
    · rw [update_self] at hr
      rw [← Option.some.inj hr, update_self, update_self]
      exact ⟨rfl, rfl⟩
    · rw [update_of_ne hne] at hr
      obtain ⟨hnode, hsome⟩ := h.list r x hr
      have hx : x ≠ s.lists.fresh := Nat.ne_of_lt (h.lt_fresh x (.inr hsome))
      rw [update_of_ne hx, update_of_ne hx]
      exact ⟨hnode, hsome⟩
  · show x < s.lists.fresh + 1
    rw [hlistOf] at hx
    rcases eq_or_ne x s.lists.fresh with rfl | hne
    · exact Nat.lt_succ_self _
    · rw [update_of_ne hne] at hx
      exact Nat.lt_succ_of_lt (h.lt_fresh x hx)

theorem wellFormed_del {reader : ReaderId} (hreader : s.lists.list reader = some x) :
    (s.after (.del reader)).WellFormed := by
  intro head hhead
  have hlistOf : (s.after (.del reader)).listOf = update s.listOf x none := by
    simp only [after, assign, hreader]
  obtain ⟨own, hown⟩ := Option.isSome_iff_exists.1 (h.list reader x hreader).2
  obtain ⟨ys, D, hys⟩ := h.wellFormed own (h.mem_heads x own hown)
  have hx : x ∈ ys := (hys x).2 hown
  rw [hlistOf]
  rcases eq_or_ne head own with rfl | hne
  · obtain ⟨pre, post, rfl⟩ := List.append_of_mem hx
    have hnotin : x ∉ pre ++ post :=
      (List.nodup_cons.1 (List.nodup_middle.1 (List.nodup_cons.1 D.nodup).2)).1
    refine ⟨pre ++ post, D.readerDel hreader, fun y ↦ ?_⟩
    rcases eq_or_ne y x with rfl | hyx
    · rw [update_self]
      exact iff_of_false hnotin nofun
    · rw [update_of_ne hyx, ← hys]
      simp [hyx]
  · obtain ⟨xs, C, hxs⟩ := h.wellFormed head hhead
    have hdisj := h.disjoint hhead (h.mem_heads x own hown) hne hxs hys
    refine ⟨xs, C.congr fun a ha ↦ readerDel_of_not_mem D hreader hx (hdisj a ha), fun y ↦ ?_⟩
    rw [hxs]
    rcases eq_or_ne y x with rfl | hyx
    · rw [update_self, hown]
      exact iff_of_false (fun heq ↦ hne (Option.some.inj heq).symm) nofun
    · rw [update_of_ne hyx]

/-- **`reader_del`** takes the node of a reader out of its list. -/
theorem del (reader : ReaderId) : (s.after (.del reader)).Consistent := by
  cases hreader : s.lists.list reader with
  | none =>
    have hsame : s.after (.del reader) = s := by
      simp only [after, write, assign, ReaderLists.readerDel, hreader]
    rwa [hsame]
  | some x =>
    have hlistOf : (s.after (.del reader)).listOf = update s.listOf x none := by
      simp only [after, assign, hreader]
    obtain ⟨hnode, hsome⟩ := h.list reader x hreader
    refine ⟨h.wellFormed_del hreader, fun y head hy ↦ ?_, fun head hhead ↦ ?_,
      fun r y hr ↦ ?_, fun y hy ↦ ?_⟩
    · rw [hlistOf] at hy
      rcases eq_or_ne y x with rfl | hyx
      · rw [update_self] at hy
        cases hy
      · rw [update_of_ne hyx] at hy
        exact h.mem_heads y head hy
    · rw [hlistOf]
      rcases eq_or_ne head x with rfl | hne
      · exact update_self ..
      · rw [update_of_ne hne]
        exact h.listOf_head head hhead
    · change (s.lists.readerDel reader).list r = some y at hr
      show (s.lists.readerDel reader).node y = some r ∧ _
      rw [(node_readerDel s.lists reader).1, hlistOf]
      rw [list_readerDel] at hr
      rcases eq_or_ne r reader with rfl | hne
      · rw [update_self] at hr
        cases hr
      · rw [update_of_ne hne] at hr
        obtain ⟨hnode', hsome'⟩ := h.list r y hr
        have hyx : y ≠ x := by
          rintro rfl
          exact hne (Option.some.inj (hnode'.symm.trans hnode))
        rw [update_of_ne hyx]
        exact ⟨hnode', hsome'⟩
    · show y < (s.lists.readerDel reader).fresh
      rw [(node_readerDel s.lists reader).2]
      refine h.lt_fresh y (hy.imp id fun hy ↦ ?_)
      rw [hlistOf] at hy
      rcases eq_or_ne y x with rfl | hyx
      · exact hsome
      · rwa [update_of_ne hyx] at hy

theorem wellFormed_splice (hsrc : src ∈ s.heads) (hdst : dst ∈ s.heads) (hne : src ≠ dst)
    (hnonempty : s.lists.next src ≠ src) : (s.after (.splice src dst)).WellFormed := by
  intro head hhead
  obtain ⟨xs, S, hxs⟩ := h.wellFormed src hsrc
  obtain ⟨ys, D, hys⟩ := h.wellFormed dst hdst
  have hxne : xs ≠ [] := by
    rintro rfl
    exact hnonempty S.next
  have hdisj := h.disjoint hdst hsrc hne.symm hys hxs
  have hlistOf : ∀ x, (s.after (.splice src dst)).listOf x =
      if s.listOf x = some src then some dst else s.listOf x := fun _ ↦ rfl
  rcases eq_or_ne head src with rfl | hhs
  · refine ⟨[], ⟨update_self .., update_self .., trivial, List.nodup_singleton _⟩, fun x ↦ ?_⟩
    rw [hlistOf]
    refine iff_of_false List.not_mem_nil ?_
    split
    next => exact fun heq ↦ hne (Option.some.inj heq).symm
    next hx => exact hx
  rcases eq_or_ne head dst with rfl | hhd
  · have C := S.readerSplice D hxne (h.disjoint hsrc hdst hne hxs hys)
    have hsrc_ys : src ∉ head :: ys := fun hmem ↦ hdisj src hmem List.mem_cons_self
    have hsrc_notin : src ∉ head :: (xs ++ ys) := by
      rw [List.mem_cons, not_or] at hsrc_ys ⊢
      exact ⟨hsrc_ys.1, List.not_mem_append (List.nodup_cons.1 S.nodup).1 hsrc_ys.2⟩
    refine ⟨xs ++ ys, C.reset hsrc_notin, fun x ↦ ?_⟩
    rw [hlistOf, List.mem_append, hxs, hys]
    split
    next hx => exact iff_of_true (.inl hx) rfl
    next hx => exact or_iff_right hx
  · obtain ⟨zs, C, hzs⟩ := h.wellFormed head hhead
    have hzx := h.disjoint hhead hsrc hhs hzs hxs
    have hzy := h.disjoint hhead hdst hhd hzs hys
    have C' := C.congr fun a ha ↦ readerSplice_of_not_mem S D hxne
      (hdisj dst List.mem_cons_self) (hzx a ha) (hzy a ha)
    refine ⟨zs, C'.reset fun hmem ↦ hzx src hmem List.mem_cons_self, fun x ↦ ?_⟩
    rw [hlistOf, hzs]
    split
    next hx =>
      rw [hx]
      exact iff_of_false (fun heq ↦ hhs (Option.some.inj heq).symm)
        fun heq ↦ hhd (Option.some.inj heq).symm
    next => exact Iff.rfl

/-- **`reader_splice`** and the reset of the head give the nodes of one list to another. -/
theorem splice (hsrc : src ∈ s.heads) (hdst : dst ∈ s.heads) (hne : src ≠ dst)
    (hnonempty : s.lists.next src ≠ src) : (s.after (.splice src dst)).Consistent := by
  have hlistOf : ∀ x, (s.after (.splice src dst)).listOf x =
      if s.listOf x = some src then some dst else s.listOf x := fun _ ↦ rfl
  have hisSome : ∀ x, ((s.after (.splice src dst)).listOf x).isSome = (s.listOf x).isSome := by
    intro x
    rw [hlistOf]
    split
    next hx => rw [hx]; rfl
    next => rfl
  refine ⟨h.wellFormed_splice hsrc hdst hne hnonempty, fun x head hx ↦ ?_, fun head hhead ↦ ?_,
    fun r x hr ↦ ?_, fun x hx ↦ ?_⟩
  · rw [hlistOf] at hx
    split at hx
    next => exact Option.some.inj hx ▸ hdst
    next => exact h.mem_heads x head hx
  · rw [← Option.not_isSome_iff_eq_none, hisSome, Option.not_isSome_iff_eq_none]
    exact h.listOf_head head hhead
  · rw [hisSome]
    exact h.list r x hr
  · rw [hisSome] at hx
    exact h.lt_fresh x hx

/-- **`reader_move`** leaves lists that are not well formed. -/
theorem not_wellFormed_move (hdst : dst ∈ s.heads) (hsrc : s.listOf src = some head)
    (hne : head ≠ dst) : ¬ (s.after (.move src dst)).WellFormed := by
  intro hw
  obtain ⟨zs, Z, -⟩ := hw dst hdst
  have hhead := h.mem_heads src head hsrc
  obtain ⟨xs, C, hxs⟩ := h.wellFormed head hhead
  obtain ⟨ys, D, hys⟩ := h.wellFormed dst hdst
  have hdisj := h.disjoint hhead hdst hne hxs hys
  have hmem : src ∈ xs := (hxs src).2 hsrc
  have hmem' : src ∈ head :: xs := List.mem_cons_of_mem head hmem
  obtain ⟨hnext, hprev⟩ := C.mem hmem'
  exact not_circular_readerMove D (hdisj _ hmem') (hdisj _ hnext) (hdisj _ hprev) (C.ne hmem).1 zs Z

/-- **A step** that is not a `reader_move` keeps the lists well formed. -/
theorem step {t : ReaderFamily} {act : ListAction} (hmove : ∀ src dst, act ≠ .move src dst)
    (hs : s.step act = some t) : t.Consistent := by
  rw [ReaderFamily.step] at hs
  split at hs <;> [skip; cases hs]
  next hlegal =>
    obtain rfl := Option.some.inj hs
    cases act with
    | add reader list => exact h.add hlegal reader
    | del reader => exact h.del reader
    | move src dst => exact absurd rfl (hmove src dst)
    | splice src dst =>
      obtain ⟨hsrc, hdst, hne, hnonempty⟩ := hlegal
      exact h.splice hsrc hdst hne hnonempty

end Consistent

/-! ### Runs -/

/-- From lists that are well formed, every state of the run `acts` has well-formed lists with the
nodes that the operations are to give them. -/
def KeepsCircular (s : {s : ReaderFamily // s.Consistent}) (acts : List ListAction) : Prop :=
  ∀ bs t, bs <+: acts → Machine.exec step s.1 bs = some t → t.WellFormed

/-- Lists without nodes, at the heads `0, …, n - 1`. -/
def emptyLists (n : ℕ) : ReaderFamily where
  lists := { next := id, prev := id, node := fun _ ↦ none, list := fun _ ↦ none, fresh := n }
  heads := List.range n
  listOf _ := none

theorem consistent_emptyLists (n : ℕ) : (emptyLists n).Consistent where
  wellFormed head _ :=
    ⟨[], ⟨rfl, rfl, trivial, List.nodup_singleton head⟩, fun _ ↦
      iff_of_false List.not_mem_nil nofun⟩
  mem_heads x head hx := by cases hx
  listOf_head _ _ := rfl
  list reader x hx := by cases hx
  lt_fresh x hx := hx.elim List.mem_range.1 nofun

/-- **The lists of readers are well formed** in every state of a run exactly if no step that the run
takes is a `reader_move`. -/
theorem keepsCircular_iff (s : {s : ReaderFamily // s.Consistent}) (acts : List ListAction) :
    KeepsCircular s acts ↔
      Machine.Always step (fun s act ↦ ∀ src dst, act = .move src dst → ¬ s.Legal act) s.1
        acts := by
  refine Machine.forall_prefix_iff (fun _ ↦ Consistent.wellFormed) (fun s act t h hact hs ↦ ?_)
    (fun s act h hact ↦ ?_) s.2
  · refine h.step (fun src dst hmove ↦ hact src dst hmove ?_) hs
    by_contra hlegal
    rw [step, if_neg hlegal] at hs
    cases hs
  · push Not at hact
    obtain ⟨src, dst, rfl, hlegal⟩ := hact
    refine ⟨_, if_pos hlegal, ?_⟩
    obtain ⟨hdst, hany⟩ := hlegal
    rw [Option.any_eq_true] at hany
    obtain ⟨head, hsrc, hne⟩ := hany
    exact h.not_wellFormed_move hdst hsrc (of_decide_eq_true hne)

/-- One reader, moved from its list to an empty one. -/
theorem not_forall_keepsCircular : ¬ ∀ s acts, KeepsCircular s acts := by
  intro hall
  have h := (consistent_emptyLists 2).add (List.mem_range.2 Nat.zero_lt_two) 0
  have hnode : ((emptyLists 2).after (.add 0 0)).listOf 2 = some 0 := rfl
  have hrun : Machine.exec step (emptyLists 2) [.add 0 0, .move 2 1] =
      some (((emptyLists 2).after (.add 0 0)).after (.move 2 1)) := rfl
  exact h.not_wellFormed_move (List.mem_range.2 Nat.one_lt_two) hnode Nat.zero_ne_one
    (hall ⟨emptyLists 2, consistent_emptyLists 2⟩ [.add 0 0, .move 2 1] _ _ List.prefix_rfl hrun)

end ReaderFamily

end Urcu
