import MiscCpp.Library.CInt
import MiscCpp.Library.DigitLists
import MiscCpp.Library.NodeHeap

/-!
# The sum of two numbers as lists of digits

`addTwoNums` and `addTwoNums2` of `leetcode/list/addTwoNums.cc`. The first one adds a carry to the
rest of the sum that it has already, whose nodes may be those of an argument, and the second one
carries it in a variable. Both write to new nodes only, so the heap is only added to
(`addTwoNums_spec`).
-/

open CInt DigitLists NodeHeap

namespace AddTwoNums

/-! ### The program -/

def addTwoNums : ℕ → Heap ℤ → Option ℕ → Option ℕ → Option (Option ℕ × Heap ℤ)
  | 0, _, _, _ => none
  | _ + 1, h, none, l2 => some (l2, h)
  | _ + 1, h, l1, none => some (l1, h)
  | fuel + 1, h, some x, some y => do
    let a ← fit ((← h[x]?).val + (← h[y]?).val)
    let (p, h) := alloc h (a.tmod 10)
    let (rest, h) ← addTwoNums fuel h (← h[x]?).next (← h[y]?).next
    let h ← setNext h p rest
    if a ≥ 10 then
      let (one, h) := alloc h 1
      let (rest, h) ← addTwoNums fuel h (← h[p]?).next (some one)
      let h ← setNext h p rest
      some (some p, h)
    else some (some p, h)

/-- `l ? l->val : 0` -/
def valueOf (h : Heap ℤ) : Option ℕ → Option ℤ
  | none => some 0
  | some x => do some (← h[x]?).val

/-- `if (l) l = l->next;` -/
def advance (h : Heap ℤ) : Option ℕ → Option (Option ℕ)
  | none => some none
  | some x => do some (← h[x]?).next

/-- The loop of `addTwoNums2`. -/
def addLoop : ℕ → Heap ℤ → Option ℕ → Option ℕ → ℕ → ℤ → Option (Heap ℤ)
  | 0, _, _, _, _, _ => none
  | fuel + 1, h, l1, l2, tail, sum =>
    if l1 ≠ none ∨ l2 ≠ none ∨ sum ≠ 0 then do
      let sum ← fit (sum + (← fit ((← valueOf h l1) + (← valueOf h l2))))
      let l1 ← advance h l1
      let l2 ← advance h l2
      let (node, h) := alloc h (sum.tmod 10)
      let h ← setNext h tail (some node)
      let tail ← (← h[tail]?).next
      addLoop fuel h l1 l2 tail (sum.tdiv 10)
    else some h

/-- The local variable `dummy` is a node like the others. -/
def addTwoNums2 (fuel : ℕ) (h : Heap ℤ) (l1 l2 : Option ℕ) : Option (Option ℕ × Heap ℤ) := do
  let (dummy, h) := alloc h 0
  let h ← addLoop fuel h l1 l2 dummy 0
  some ((← h[dummy]?).next, h)

/-! ### The recursive function -/

variable {h h' : Heap ℤ} {l1 l2 p : Option ℕ} {xs ys zs : List ℕ} {ds es res : List ℤ}
  {c d e : ℤ} {fuel : ℕ} {tail : ℕ}

/-- A list of these digits, whose nodes are new or in `xs` or `ys`, in a heap that has been added
to. -/
structure IsResult (h : Heap ℤ) (xs ys : List ℕ) (res : List ℤ) (r : Option ℕ × Heap ℤ) :
    Prop where
  keeps : h <+: r.2
  represents : ∃ zs, Represents r.2 r.1 zs res ∧ ∀ z ∈ zs, z ∈ xs ∨ z ∈ ys ∨ h.length ≤ z

/-- The function adds these digits, wherever they are. -/
def Adds (fuel : ℕ) (ds es : List ℤ) : Prop :=
  ∀ h l1 l2 xs ys, Represents h l1 xs ds → Represents h l2 ys es →
    ∃ r, addTwoNums fuel h l1 l2 = some r ∧ IsResult h xs ys (addCarry ds es 0) r

theorem adds_nil_left (hfuel : 0 < fuel) (hes : IsDigits es) : Adds fuel [] es := by
  obtain ⟨fuel, rfl⟩ := Nat.exists_eq_succ_of_ne_zero hfuel.ne'
  intro h l1 l2 xs ys hxs hys
  cases hxs
  rw [addCarry, increase_zero hes]
  exact ⟨(l2, h), by rw [addTwoNums], List.prefix_rfl, ys, hys, fun z hz ↦ Or.inr (Or.inl hz)⟩

theorem adds_nil_right (hfuel : 0 < fuel) (hds : IsDigits ds) : Adds fuel ds [] := by
  obtain ⟨fuel, rfl⟩ := Nat.exists_eq_succ_of_ne_zero hfuel.ne'
  intro h l1 l2 xs ys hxs hys
  cases hys
  rw [addCarry_nil_right, increase_zero hds]
  refine ⟨(l1, h), ?_, List.prefix_rfl, xs, hxs, fun z hz ↦ Or.inl hz⟩
  cases l1 with
  | none => rw [addTwoNums]
  | some x => rw [addTwoNums]; exact fun h ↦ Option.some_ne_none x h

/-- A new node is put in front of a result. -/
theorem IsResult.exists_setNext {hk : Heap ℤ} {r : Option ℕ × Heap ℤ} {x : ℕ} {v : ℤ}
    (hr : IsResult hk xs ys res r) (hpre : h <+: hk) (hx : hk[x]? = some ⟨v, p⟩)
    (hnew : h.length ≤ x) (hxs : x ∉ xs) (hys : x ∉ ys) :
    ∃ h' zs, setNext r.2 x r.1 = some h' ∧ h <+: h' ∧ h'[x]? = some ⟨v, r.1⟩ ∧
      Represents h' r.1 zs res ∧ x ∉ zs ∧ ∀ z ∈ zs, z ∈ xs ∨ z ∈ ys ∨ h.length ≤ z := by
  obtain ⟨hkeeps, zs, hzs, hwhere⟩ := hr
  have hlt := (List.getElem?_eq_some_iff.1 hx).1
  have hnot : x ∉ zs := by
    intro hmem
    rcases hwhere x hmem with hmem | hmem | hle
    · exact hxs hmem
    · exact hys hmem
    · exact absurd hlt (not_lt.2 hle)
  obtain ⟨h', hset, hpre', hx', hzs'⟩ := hzs.exists_setNext
    ((getElem?_mono hkeeps hlt).trans hx) hnot (hpre.trans hkeeps) hnew
  refine ⟨h', zs, hset, hpre', hx', hzs', hnot, fun z hz ↦ ?_⟩
  exact (hwhere z hz).imp_right (Or.imp_right hpre.length_le.trans)

/-- **One digit**: the rest of the sum, and the carry added to it. -/
theorem adds_cons (hd : 0 ≤ d ∧ d ≤ 9) (he : 0 ≤ e ∧ e ≤ 9) (hds : IsDigits ds)
    (hes : IsDigits es) (hrest : Adds fuel ds es)
    (hcarry : 10 ≤ d + e → Adds fuel (addCarry ds es 0) [1]) :
    Adds (fuel + 1) (d :: ds) (e :: es) := by
  intro h l1 l2 xs ys hxs hys
  cases hxs with
  | @cons x q1 xs _ _ hx hxs =>
  cases hys with
  | @cons y q2 ys _ _ hy hys =>
  have hxlt := (List.getElem?_eq_some_iff.1 hx).1
  have hylt := (List.getElem?_eq_some_iff.1 hy).1
  have hmod : (d + e).tmod 10 = (d + e) % 10 := Int.tmod_eq_emod_of_nonneg (by omega)
  have hpre := prefix_alloc h ((d + e) % 10)
  obtain ⟨⟨rest, h2⟩, hcall, hres⟩ := hrest _ q1 q2 xs ys (hxs.mono hpre) (hys.mono hpre)
  obtain ⟨h3, zs, hset, hpre3, hnode3, hzs3, hnot, hwhere⟩ :=
    hres.exists_setNext hpre (getElem?_alloc h _) le_rfl
      (fun hmem ↦ absurd (hxs.lt _ hmem) (lt_irrefl _))
      (fun hmem ↦ absurd (hys.lt _ hmem) (lt_irrefl _))
  rw [addTwoNums, hx, hy]
  simp only [Option.bind_eq_bind, Option.bind_some]
  rw [fit_eq (by omega), Option.bind_some, hmod]
  rw [(getElem?_mono hpre hxlt).trans hx, (getElem?_mono hpre hylt).trans hy]
  simp only [Option.bind_some]
  rw [hcall]
  simp only [Option.bind_some]
  rw [show (alloc h ((d + e) % 10)).1 = h.length from rfl, hset, Option.bind_some]
  have hplace (zs : List ℕ) (hlarge : ∀ z ∈ zs, z ∈ xs ∨ z ∈ ys ∨ h.length ≤ z) :
      ∀ z ∈ h.length :: zs, z ∈ x :: xs ∨ z ∈ y :: ys ∨ h.length ≤ z := by
    refine List.forall_mem_cons.2 ⟨Or.inr (Or.inr le_rfl), fun z hz ↦ ?_⟩
    exact (hlarge z hz).imp (List.mem_cons_of_mem x) (Or.imp_left (List.mem_cons_of_mem y))
  by_cases hge : d + e ≥ 10
  · have hpre4 := prefix_alloc h3 (1 : ℤ)
    have hlen3 := (List.getElem?_eq_some_iff.1 hnode3).1
    have hnode4 := (getElem?_mono hpre4 hlen3).trans hnode3
    have hone : Represents (alloc h3 1).2 (some h3.length) [h3.length] [1] :=
      .cons (getElem?_alloc h3 1) .nil
    obtain ⟨⟨rest', h5⟩, hcall', hres'⟩ :=
      hcarry hge _ rest (some h3.length) zs [h3.length] (hzs3.mono hpre4) hone
    obtain ⟨h6, zs', hset', hpre6, hnode6, hzs6, -, hwhere'⟩ :=
      hres'.exists_setNext (hpre3.trans hpre4) hnode4 le_rfl hnot
        (fun hmem ↦ hlen3.ne (List.mem_singleton.1 hmem))
    refine ⟨(some h.length, h6), ?_, hpre6, h.length :: zs', ?_, hplace zs' fun z hz ↦ ?_⟩
    · rw [if_pos hge, hnode4, Option.bind_some, show (alloc h3 (1 : ℤ)).1 = h3.length from rfl,
        hcall', Option.bind_some, hset', Option.bind_some]
    · have hdiv : (d + e + 0) / 10 = 1 := by omega
      rw [addCarry, hdiv, addCarry_one hds hes, add_zero]
      exact .cons hnode6 hzs6
    · rcases hwhere' z hz with hz | hz | hle
      · exact hwhere z hz
      · exact Or.inr (Or.inr ((List.mem_singleton.1 hz).symm ▸ hlen3.le))
      · exact Or.inr (Or.inr hle)
  · refine ⟨(some h.length, h3), ?_, hpre3, h.length :: zs, ?_, hplace zs hwhere⟩
    · rw [if_neg hge]
    · have hdiv : (d + e + 0) / 10 = 0 := by omega
      rw [addCarry, hdiv, add_zero]
      exact .cons hnode3 hzs3

/-- A carry. -/
theorem adds_one (hds : IsDigits ds) (hfuel : ds.length < fuel) : Adds fuel ds [1] := by
  have hone : IsDigits [1] := List.forall_mem_singleton.2 (by decide)
  induction ds generalizing fuel with
  | nil => exact adds_nil_left (by omega) hone
  | cons d ds ih =>
    obtain ⟨fuel, rfl⟩ := Nat.exists_eq_succ_of_ne_zero (Nat.ne_zero_of_lt hfuel)
    obtain ⟨hd, hds⟩ := isDigits_cons_iff.1 hds
    have hlt : ds.length < fuel := Nat.lt_of_succ_lt_succ hfuel
    refine adds_cons hd (by decide) hds (fun _ h ↦ absurd h List.not_mem_nil)
      (adds_nil_right (by omega) hds) fun _ ↦ ?_
    rw [addCarry_nil_right, increase_zero hds]
    exact ih hds hlt

/-- **The recursive function** adds. -/
theorem adds (hds : IsDigits ds) (hes : IsDigits es)
    (hfuel : max ds.length es.length + 1 < fuel) : Adds fuel ds es := by
  induction ds generalizing es fuel with
  | nil => exact adds_nil_left (by omega) hes
  | cons d ds ih =>
    cases es with
    | nil => exact adds_nil_right (by omega) hds
    | cons e es =>
      obtain ⟨fuel, rfl⟩ := Nat.exists_eq_succ_of_ne_zero (Nat.ne_zero_of_lt hfuel)
      obtain ⟨hd, hds⟩ := isDigits_cons_iff.1 hds
      obtain ⟨he, hes⟩ := isDigits_cons_iff.1 hes
      rw [List.length_cons, List.length_cons] at hfuel
      have hle := length_addCarry_le ds es 0
      exact adds_cons hd he hds hes (ih hds hes (by omega)) fun _ ↦
        adds_one (isDigits_addCarry hds hes le_rfl (by decide)) (by omega)

/-! ### The loop -/

theorem valueOf_eq (hp : Represents h p xs ds) : valueOf h p = some (ds.headD 0) := by
  cases hp with
  | nil => rfl
  | cons hx _ =>
    rw [valueOf, hx]
    rfl

theorem exists_advance (hp : Represents h p xs ds) (hpre : h <+: h') :
    ∃ q, advance h' p = some q ∧ Represents h q xs.tail ds.tail := by
  cases hp with
  | nil => exact ⟨none, rfl, .nil⟩
  | @cons x q xs d ds hx hrest =>
    refine ⟨q, ?_, hrest⟩
    rw [advance, getElem?_mono hpre (List.getElem?_eq_some_iff.1 hx).1, hx]
    rfl

theorem ne_none_iff (hp : Represents h p xs ds) : p ≠ none ↔ ds ≠ [] := by
  cases hp with
  | nil => exact iff_of_false (not_not.2 rfl) (not_not.2 rfl)
  | cons => exact iff_of_true (Option.some_ne_none _) (List.cons_ne_nil _ _)

/-- **The loop**, with the lists in the heap before it and the sum from `dummy` to `tail`. -/
theorem addLoop_spec {dummy : ℕ} {done : List ℤ} {v sum : ℤ} (hxs : Represents h l1 xs ds)
    (hys : Represents h l2 ys es) (hds : IsDigits ds) (hes : IsDigits es) (hsum : 0 ≤ sum)
    (hsum' : sum ≤ 9) (hpre : h <+: h') (hnew : h.length ≤ tail)
    (htail : h'[tail]? = some ⟨v, none⟩) (hzs : Represents h' (some dummy) (zs ++ [tail]) done)
    (hfuel : (addCarry ds es sum).length < fuel) :
    ∃ h'', addLoop fuel h' l1 l2 tail sum = some h'' ∧ h <+: h'' ∧
      ∃ ws, Represents h'' (some dummy) ws (done ++ addCarry ds es sum) := by
  induction fuel generalizing h' l1 l2 xs ys zs ds es done v sum tail with
  | zero => exact absurd hfuel (Nat.not_lt_zero _)
  | succ fuel ih =>
    by_cases hne : ds ≠ [] ∨ es ≠ [] ∨ sum ≠ 0
    · have hcond : l1 ≠ none ∨ l2 ≠ none ∨ sum ≠ 0 := by
        rwa [ne_none_iff hxs, ne_none_iff hys]
      have hd := headD_bounds hds
      have he := headD_bounds hes
      have hmod : (sum + (ds.headD 0 + es.headD 0)).tmod 10 =
          (sum + (ds.headD 0 + es.headD 0)) % 10 := Int.tmod_eq_emod_of_nonneg (by omega)
      have hdiv : (sum + (ds.headD 0 + es.headD 0)).tdiv 10 =
          (sum + (ds.headD 0 + es.headD 0)) / 10 := Int.tdiv_eq_ediv_of_nonneg (by omega)
      have hnext := addCarry_eq hne hsum hsum'
      obtain ⟨q1, hq1, hxs'⟩ := exists_advance hxs hpre
      obtain ⟨q2, hq2, hys'⟩ := exists_advance hys hpre
      rw [addLoop, if_pos hcond, valueOf_eq (hxs.mono hpre), valueOf_eq (hys.mono hpre)]
      simp only [Option.bind_eq_bind, Option.bind_some]
      rw [fit_eq (by omega), Option.bind_some, fit_eq (by omega)]
      simp only [Option.bind_some, hq1, hq2]
      rw [hmod, hdiv]
      have hs : 0 ≤ sum + (ds.headD 0 + es.headD 0) ∧ sum + (ds.headD 0 + es.headD 0) ≤ 27 := by
        omega
      generalize sum + (ds.headD 0 + es.headD 0) = s at hnext hs ⊢
      rw [hnext, List.length_cons] at hfuel
      obtain ⟨h1, hset, hpre1, htail1, hnode, hconcat⟩ :=
        hzs.exists_concat htail hpre hnew (s % 10)
      have hlt := (List.getElem?_eq_some_iff.1 htail).1
      have hrest : ∃ h'', addLoop fuel h1 q1 q2 h'.length (s / 10) = some h'' ∧ h <+: h'' ∧
          ∃ ws, Represents h'' (some dummy) ws
            (done ++ [s % 10] ++ addCarry ds.tail es.tail (s / 10)) :=
        ih hxs' hys' hds.tail hes.tail (by omega) (by omega) hpre1 (hnew.trans hlt.le) hnode
          hconcat (Nat.lt_of_succ_lt_succ hfuel)
      obtain ⟨h'', hloop, hpre'', ws, hws⟩ := hrest
      refine ⟨h'', ?_, hpre'', ws, ?_⟩
      · rw [show (alloc h' (s % 10)).1 = h'.length from rfl, hset, Option.bind_some, htail1]
        exact hloop
      · rw [hnext]
        rwa [List.append_assoc, List.singleton_append] at hws
    · obtain ⟨hds', hes', hzero⟩ : ds = [] ∧ es = [] ∧ sum = 0 := by
        rwa [not_or, not_or, not_not, not_not, not_not] at hne
      subst hds' hes' hzero
      have hcond : ¬ (l1 ≠ none ∨ l2 ≠ none ∨ (0 : ℤ) ≠ 0) := by
        rwa [ne_none_iff hxs, ne_none_iff hys]
      refine ⟨h', by rw [addLoop, if_neg hcond], hpre, zs ++ [tail], ?_⟩
      rw [addCarry, increase, if_pos rfl, List.append_nil]
      exact hzs

/-- **The second function** adds. -/
theorem addTwoNums2_spec (hxs : Represents h l1 xs ds) (hys : Represents h l2 ys es)
    (hds : IsDigits ds) (hes : IsDigits es) (hfuel : max ds.length es.length + 1 < fuel) :
    ∃ r, addTwoNums2 fuel h l1 l2 = some r ∧ h <+: r.2 ∧
      ∃ zs, Represents r.2 r.1 zs (addCarry ds es 0) := by
  have hle := length_addCarry_le ds es 0
  have hdummy := getElem?_alloc h (0 : ℤ)
  have hstart : Represents (alloc h (0 : ℤ)).2 (some h.length) ([] ++ [h.length]) [0] :=
    .cons hdummy .nil
  obtain ⟨h', hloop, hpre, ws, hws⟩ := addLoop_spec hxs hys hds hes le_rfl (by decide)
    (prefix_alloc h 0) le_rfl hdummy hstart (hle.trans_lt hfuel)
  cases hws with
  | @cons _ q zs _ _ hnode hrest =>
    refine ⟨(q, h'), ?_, hpre, zs, hrest⟩
    rw [addTwoNums2]
    simp only [Option.bind_eq_bind]
    rw [show (alloc h (0 : ℤ)).1 = h.length from rfl, hloop, Option.bind_some, hnode]
    rfl

/-! ### Both functions -/

/-- **Both functions** return the digits of the sum, and no node there was is changed. -/
theorem addTwoNums_spec (hxs : Represents h l1 xs ds) (hys : Represents h l2 ys es)
    (hds : IsDigits ds) (hes : IsDigits es) :
    ∃ res, IsDigits res ∧ value res = value ds + value es ∧ ∃ n, ∀ fuel ≥ n,
      (∃ r, addTwoNums fuel h l1 l2 = some r ∧ h <+: r.2 ∧ ∃ zs, Represents r.2 r.1 zs res) ∧
      (∃ r, addTwoNums2 fuel h l1 l2 = some r ∧ h <+: r.2 ∧ ∃ zs, Represents r.2 r.1 zs res) := by
  refine ⟨addCarry ds es 0, isDigits_addCarry hds hes le_rfl (by decide),
    (value_addCarry ds es 0).trans (add_zero _), max ds.length es.length + 2, fun fuel hfuel ↦ ?_⟩
  have hlt := Nat.lt_of_succ_le hfuel
  obtain ⟨r, hr, hres⟩ := adds hds hes hlt h l1 l2 xs ys hxs hys
  obtain ⟨zs, hzs, -⟩ := hres.represents
  exact ⟨⟨r, hr, hres.keeps, zs, hzs⟩, addTwoNums2_spec hxs hys hds hes hlt⟩

/-- The lists of `main`. -/
theorem addTwoNums_spec_main :
    let h : Heap ℤ := [⟨2, none⟩, ⟨4, some 0⟩, ⟨3, some 1⟩, ⟨5, none⟩, ⟨6, some 3⟩, ⟨4, some 4⟩]
    ∃ res, IsDigits res ∧ value res = 564 + 243 ∧ ∃ n, ∀ fuel ≥ n,
      (∃ r, addTwoNums fuel h (some 5) (some 2) = some r ∧ h <+: r.2 ∧
        ∃ zs, Represents r.2 r.1 zs res) ∧
      (∃ r, addTwoNums2 fuel h (some 5) (some 2) = some r ∧ h <+: r.2 ∧
        ∃ zs, Represents r.2 r.1 zs res) := by
  have hds : IsDigits [4, 6, 5] := by unfold IsDigits; decide
  have hes : IsDigits [3, 4, 2] := by unfold IsDigits; decide
  exact addTwoNums_spec (.cons rfl (.cons rfl (.cons rfl .nil)))
    (.cons rfl (.cons rfl (.cons rfl .nil))) hds hes

end AddTwoNums
