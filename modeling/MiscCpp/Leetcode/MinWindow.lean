import MiscCpp.Library.Access
import MiscCpp.Library.CInt
import MiscCpp.Library.Machine
import MiscCpp.Library.SlidingWindow

/-!
# The shortest window that covers a string

`minWindow` of `leetcode/other/minWindowSubstr.cc`, with its table and its numbers of type `int`.

The table has what the window needs and `required` what it lacks, less the multiple of `2 ^ 32` that
the conversion of the size of `t` takes off (`Holds`). The loop then scans the windows
(`Scanned`), whether or not it is right about them, and from the last state one can see both what
is returned and what has overflowed on the way (`minWindow_iff`).
-/

open Access CInt Machine SlidingWindow

namespace MinWindow

/-! ### The program -/

/-- The characters `0` to `127`. -/
abbrev Ascii := Fin 128

/-- The variables; `finish` is `end`. -/
structure State where
  remaining : List ℤ
  required : ℤ
  begin : ℤ
  finish : ℤ
  left : ℤ
  len : ℤ

def INT32_MAX : ℤ := 2 ^ 31 - 1

/-- `remaining[c] += d`, with the value that `remaining[c]` had. -/
def change (remaining : List ℤ) (c : Ascii) (d : ℤ) : Option (ℤ × List ℤ) := do
  let n ← get remaining c.1
  let remaining ← put remaining c.1 (← fit (n + d))
  some (n, remaining)

/-- `s[i]`, also for the character behind the last one. -/
def charAt (s : List Ascii) (i : ℤ) : Option Ascii := get (s ++ [0]) i

/-- The body of the loop. -/
def turn (s : List Ascii) (st : State) : Option State :=
  if st.required ≠ 0 then do
    let (n, remaining) ← change st.remaining (← charAt s st.finish) (-1)
    let required ← (if 0 < n then fit (st.required - 1) else some st.required)
    some { st with remaining, required, finish := ← fit (st.finish + 1) }
  else do
    let length ← fit (st.finish - st.begin)
    let (left, len) := if length < st.len then (st.begin, length) else (st.left, st.len)
    let (n, remaining) ← change st.remaining (← charAt s st.begin) 1
    let required ← (if 0 < n + 1 then fit (st.required + 1) else some st.required)
    some ⟨remaining, required, ← fit (st.begin + 1), st.finish, left, len⟩

/-- The loop, with `begin` and `end` converted to `size_t`. -/
def loop (s : List Ascii) : ℕ → State → Option State
  | 0, _ => none
  | fuel + 1, st =>
    if st.begin % 2 ^ 64 < s.length ∧ st.finish % 2 ^ 64 ≤ s.length then
      (turn s st).bind (loop s fuel)
    else some st

/-- `remaining[c]++` -/
def demandOne (remaining : List ℤ) (c : Ascii) : Option (List ℤ) :=
  (change remaining c 1).map Prod.snd

/-- `minWindow(s, t)`: the shortest window of `s` that has all characters of `t`. -/
def minWindow (fuel : ℕ) (s t : List Ascii) : Option (List Ascii) := do
  let remaining ← exec demandOne (List.replicate 128 0) t
  let st ← loop s fuel ⟨remaining, (wrap t.length).1, 0, 0, 0, INT32_MAX⟩
  if st.len = INT32_MAX then some [] else substr s st.left st.len

/-- The characters of a string. -/
def ascii (s : String) : List Ascii := s.toList.map fun c ↦ Fin.ofNat 128 c.toNat

example : minWindow 30 (ascii "ADOBECODEBANC") (ascii "ABC") = some (ascii "BANC") := by
  decide +kernel

/-! ### The table -/

variable {s t : List Ascii} {f : Ascii → ℤ} {b e : ℕ} {st st' : State} {c : Ascii}

/-- The table is read at a character. -/
theorem get_ofFn (f : Ascii → ℤ) (c : Ascii) : get (List.ofFn f) c.1 = some (f c) := by
  rw [get_natCast, List.getElem?_ofFn, dif_pos c.2]

/-- The table is written at a character. -/
theorem put_ofFn (f : Ascii → ℤ) (c : Ascii) (x : ℤ) :
    put (List.ofFn f) c.1 x = some (List.ofFn (Function.update f c x)) := by
  rw [put_eq (get_ofFn f c), Int.toNat_natCast, Option.some_inj]
  refine List.ext_getElem? fun i ↦ ?_
  rw [List.getElem?_set, List.length_ofFn, List.getElem?_ofFn, List.getElem?_ofFn]
  split
  next hc =>
    subst hc
    rw [if_pos c.2, dif_pos c.2, Function.update_self]
  next hne =>
    by_cases hi : i < 128
    · rw [dif_pos hi, dif_pos hi, Function.update_of_ne (fun h ↦ hne (congrArg Fin.val h).symm)]
    · rw [dif_neg hi, dif_neg hi]

/-- A count is read and changed, unless it overflows. -/
theorem change_ofFn (f : Ascii → ℤ) (c : Ascii) (d : ℤ) :
    change (List.ofFn f) c d =
      (fit (f c + d)).map fun x ↦ (f c, List.ofFn (Function.update f c x)) := by
  rw [change, get_ofFn]
  simp only [Option.bind_eq_bind, Option.bind_some]
  cases fit (f c + d) with
  | none => rfl
  | some x => rw [Option.bind_some, put_ofFn, Option.bind_some, Option.map_some]

/-- The table is filled unless a character is in `t` too often. -/
theorem fill_eq (t : List Ascii) (hf : ∀ c, 0 ≤ f c ∧ f c < 2 ^ 31) :
    exec demandOne (List.ofFn f) t =
      if ∀ c, f c + t.count c < 2 ^ 31 then some (List.ofFn fun c ↦ f c + t.count c) else none := by
  induction t generalizing f with
  | nil =>
    simp only [List.count_nil, Int.natCast_zero, add_zero]
    rw [exec_nil, if_pos fun c ↦ (hf c).2]
  | cons a t ih =>
    have hcount (c : Ascii) : Function.update f a (f a + 1) c + t.count c =
        f c + (a :: t).count c := by
      rw [Function.update_apply, List.count_cons]
      by_cases hc : c = a
      · rw [if_pos hc, hc, beq_self_eq_true, if_pos rfl]
        omega
      · rw [if_neg hc, if_neg fun h ↦ hc (beq_iff_eq.1 h).symm]
        rfl
    rw [exec_cons, demandOne, change_ofFn]
    have hfa := hf a
    by_cases hlt : f a + 1 < 2 ^ 31
    · rw [fit_eq (by omega), Option.map_some, Option.map_some, Option.bind_some, ih]
      · simp only [hcount]
      · intro c
        rw [Function.update_apply]
        split
        · omega
        · exact hf c
    · rw [if_neg, fit_eq_none (by omega)]
      · rfl
      · intro hall
        have ha := hall a
        rw [List.count_cons_self] at ha
        omega

/-! ### The scan -/

variable (s t) in
/-- `required`, for the window `[b, e)`. -/
def lack (b e : ℕ) : ℤ := missing t (s ++ [0]) b e - (t.length - (wrap t.length).1)

/-- An empty window lacks what the length of `t` is converted to. -/
theorem lack_self (b : ℕ) : lack s t b b = (wrap t.length).1 := by
  rw [lack, missing_self]
  omega

theorem lawful_lack (s t : List Ascii) : Lawful (lack s t) := lawful_missing _

/-- The string may be read up to its terminator. -/
theorem charAt_of_lt {i : ℕ} (hi : i ≤ s.length) : ∃ c, charAt s i = some c := by
  refine exists_get (Int.natCast_nonneg i) ?_
  rw [List.length_append, List.length_singleton]
  omega

theorem getElem?_of_charAt {i : ℕ} (h : charAt s i = some c) : (s ++ [0])[i]? = some c := by
  rwa [charAt, get_natCast] at h

/-- The variables for the window `[b, e)`. -/
structure Holds (s t : List Ascii) (b e : ℕ) (st : State) : Prop where
  remaining : st.remaining = List.ofFn (need t (s ++ [0]) b e)
  required : st.required = lack s t b e
  begin : st.begin = b
  finish : st.finish = e
  begin_le : b ≤ s.length
  finish_le : e ≤ s.length + 1
  begin_lt : b < 2 ^ 31
  finish_lt : e < 2 ^ 31
  need_lt : ∀ c, need t (s ++ [0]) b e c < 2 ^ 31
  required_bounds : -2 ^ 31 ≤ lack s t b e ∧ lack s t b e < 2 ^ 31
  nonneg : 0 ≤ (wrap t.length).1 → 0 ≤ lack s t b e
  count_lt : (wrap t.length).1 = 0 → ∀ i < b, ∀ c, charAt s i = some c → t.count c + 1 < 2 ^ 31
  scanned : Scanned (lack s t) s.length INT32_MAX b e (st.left, st.len)

/-- Where nothing is lacking the window has not been overtaken. -/
theorem le_of_lack_eq_zero (hwrap : 0 ≤ (wrap t.length).1) (hb : b ≤ s.length + 1)
    (hzero : lack s t b e = 0) : b ≤ e := by
  by_contra hlt
  have hmono : lack s t (e + 1) e ≤ lack s t b e :=
    (lawful_lack s t).monotone e (not_le.1 hlt)
  have hsucc : lack s t (e + 1) e = (wrap t.length).1 + 1 := by
    rw [lack, missing_succ_self]
    · omega
    · rw [List.length_append, List.length_singleton]
      omega
  omega

/-- And it is not empty, if `t` is not. -/
theorem lt_of_lack_eq_zero (hwrap : 0 < (wrap t.length).1) (hb : b ≤ s.length + 1)
    (hzero : lack s t b e = 0) : b < e := by
  refine (le_of_lack_eq_zero hwrap.le hb hzero).lt_of_ne fun heq ↦ ?_
  rw [heq, lack_self] at hzero
  omega

/-- If nothing is required at first, the windows that are looked at are empty. -/
theorem Holds.eq_of_wrap_eq_zero (h : Holds s t b e st) (hwrap : (wrap t.length).1 = 0) :
    e ≤ b ∧ (lack s t b e = 0 → e = b) := by
  have hself : lack s t b b = 0 := by rw [lack_self, hwrap]
  have hle : e ≤ b := not_lt.1 fun hlt ↦ h.scanned.pending b hlt hself
  exact ⟨hle, fun hzero ↦
    hle.antisymm (le_of_lack_eq_zero hwrap.ge (h.begin_le.trans (Nat.le_succ _)) hzero)⟩

/-- The turn that moves `end`. -/
theorem turn_grow (h : Holds s t b e st) (hne : lack s t b e ≠ 0) (he : e ≤ s.length) :
    turn s st = if e + 1 < 2 ^ 31 ∧ -2 ^ 31 ≤ lack s t b (e + 1) then
      some { st with
        remaining := List.ofFn (need t (s ++ [0]) b (e + 1))
        required := lack s t b (e + 1)
        finish := (e + 1 : ℕ) }
    else none := by
  obtain ⟨c, hc⟩ := charAt_of_lt he
  have hget := getElem?_of_charAt hc
  have hlow := neg_le_need (t := t) (u := s ++ [0]) b e c
  have hhigh := h.need_lt c
  have hreq := h.required_bounds
  have hlt := h.finish_lt
  have hlack : lack s t b (e + 1) =
      lack s t b e - if 0 < need t (s ++ [0]) b e c then 1 else 0 := by
    rw [lack, missing_grow hget, lack]
    omega
  have hrequired : (if 0 < need t (s ++ [0]) b e c then fit (st.required - 1)
      else some st.required) = fit (lack s t b (e + 1)) := by
    rw [hlack, h.required]
    split
    · rfl
    · rw [sub_zero, fit_eq hreq]
  have hchange : change st.remaining c (-1) =
      some (need t (s ++ [0]) b e c, List.ofFn (need t (s ++ [0]) b (e + 1))) := by
    rw [h.remaining, change_ofFn, fit_eq (by omega), need_grow hget]
    rfl
  rw [turn, if_pos (h.required ▸ hne), h.finish, hc]
  simp only [Option.bind_eq_bind, Option.bind_some, hchange, hrequired]
  by_cases hfits : e + 1 < 2 ^ 31 ∧ -2 ^ 31 ≤ lack s t b (e + 1)
  · rw [if_pos hfits, fit_eq (by split at hlack <;> omega), fit_eq (by omega)]
    rfl
  · rw [if_neg hfits]
    rcases not_and_or.1 hfits with hover | hover
    · rw [fit_eq_none (by omega : ¬ (-2 ^ 31 ≤ (e : ℤ) + 1 ∧ (e : ℤ) + 1 < 2 ^ 31))]
      cases fit (lack s t b (e + 1)) <;> rfl
    · rw [fit_eq_none fun hbounds ↦ hover hbounds.1]
      rfl

/-- A further character changes what is lacking by at most one. -/
theorem lack_grow_bounds (b : ℕ) (he : e ≤ s.length) :
    lack s t b e - 1 ≤ lack s t b (e + 1) ∧ lack s t b (e + 1) ≤ lack s t b e := by
  obtain ⟨c, hc⟩ := charAt_of_lt he
  rw [lack, lack, missing_grow (getElem?_of_charAt hc)]
  split <;> omega

/-- The turn that lets the window grow. -/
theorem Holds.grow (h : Holds s t b e st) (hne : lack s t b e ≠ 0) (he : e ≤ s.length)
    (hfits : e + 1 < 2 ^ 31 ∧ -2 ^ 31 ≤ lack s t b (e + 1)) :
    Holds s t b (e + 1) { st with
      remaining := List.ofFn (need t (s ++ [0]) b (e + 1))
      required := lack s t b (e + 1)
      finish := (e + 1 : ℕ) } := by
  obtain ⟨c, hc⟩ := charAt_of_lt he
  have hget := getElem?_of_charAt hc
  have hlack := lack_grow_bounds (t := t) b he
  have hreq := h.required_bounds
  refine ⟨rfl, rfl, h.begin, rfl, h.begin_le, by omega, h.begin_lt, hfits.1, fun a ↦ ?_,
    ⟨hfits.2, by omega⟩, fun hwrap ↦ ?_, h.count_lt, h.scanned.grow hne⟩
  · have hlt := h.need_lt a
    rw [need_grow hget, Function.update_apply]
    split
    next ha => rw [ha] at hlt; omega
    next => exact hlt
  · have hnonneg := h.nonneg hwrap
    omega

/-- The turn that moves `begin`. -/
theorem turn_shrink (h : Holds s t b e st) (hzero : lack s t b e = 0) (hc : charAt s b = some c) :
    turn s st = if need t (s ++ [0]) b e c + 1 < 2 ^ 31 ∧ b + 1 < 2 ^ 31 then
      some ⟨List.ofFn (need t (s ++ [0]) (b + 1) e), lack s t (b + 1) e, (b + 1 : ℕ), e,
        (better b e (st.left, st.len)).1, (better b e (st.left, st.len)).2⟩
    else none := by
  have hget := getElem?_of_charAt hc
  have hlow := neg_le_need (t := t) (u := s ++ [0]) b e c
  have hblt := h.begin_lt
  have helt := h.finish_lt
  have hlack : lack s t (b + 1) e = if 0 < need t (s ++ [0]) b e c + 1 then 1 else 0 := by
    rw [lack] at hzero
    rw [lack, missing_shrink hget]
    omega
  have hrequired : (if 0 < need t (s ++ [0]) b e c + 1 then fit (st.required + 1)
      else some st.required) = some (lack s t (b + 1) e) := by
    rw [hlack, h.required, hzero]
    split <;> rfl
  have hbetter : better b e (st.left, st.len) =
      if (e : ℤ) - b < st.len then ((b : ℤ), (e : ℤ) - b) else (st.left, st.len) := rfl
  rw [turn, if_neg (fun hne ↦ hne (h.required.trans hzero)), h.begin, h.finish, hc,
    fit_eq (by omega)]
  simp only [Option.bind_eq_bind, Option.bind_some, hbetter]
  by_cases hfits : need t (s ++ [0]) b e c + 1 < 2 ^ 31 ∧ b + 1 < 2 ^ 31
  · have hchange : change st.remaining c 1 =
        some (need t (s ++ [0]) b e c, List.ofFn (need t (s ++ [0]) (b + 1) e)) := by
      rw [h.remaining, change_ofFn, fit_eq (by omega), need_shrink hget]
      rfl
    rw [if_pos hfits, hchange, Option.bind_some]
    simp only [hrequired, Option.bind_some, fit_eq (by omega : -2 ^ 31 ≤ (b : ℤ) + 1 ∧ _ < _)]
    split <;> rfl
  · rw [if_neg hfits]
    by_cases hneed : need t (s ++ [0]) b e c + 1 < 2 ^ 31
    · have hover : ¬ (b + 1 < 2 ^ 31) := fun hlt ↦ hfits ⟨hneed, hlt⟩
      have hnone : fit ((b : ℤ) + 1) = none := fit_eq_none (by omega)
      rw [h.remaining, change_ofFn, fit_eq (by omega)]
      simp only [Option.map_some, Option.bind_some, hrequired, hnone]
      split <;> rfl
    · rw [h.remaining, change_ofFn, fit_eq_none fun hbounds ↦ hneed hbounds.2]
      rfl

/-- The turn that lets the window shrink. -/
theorem Holds.shrink (h : Holds s t b e st) (hzero : lack s t b e = 0) (hb : b < s.length)
    (he : e ≤ s.length) (hc : charAt s b = some c)
    (hfits : need t (s ++ [0]) b e c + 1 < 2 ^ 31 ∧ b + 1 < 2 ^ 31) :
    Holds s t (b + 1) e ⟨List.ofFn (need t (s ++ [0]) (b + 1) e), lack s t (b + 1) e,
      (b + 1 : ℕ), e, (better b e (st.left, st.len)).1, (better b e (st.left, st.len)).2⟩ := by
  have hget := getElem?_of_charAt hc
  have hlack : 0 ≤ lack s t (b + 1) e ∧ lack s t (b + 1) e ≤ 1 := by
    rw [lack] at hzero
    rw [lack, missing_shrink hget]
    split <;> omega
  refine ⟨rfl, rfl, rfl, rfl, hb, h.finish_le, hfits.2, h.finish_lt, fun a ↦ ?_,
    by omega, fun _ ↦ hlack.1, fun hwrap i hi a ha ↦ ?_,
    h.scanned.shrink (lawful_lack s t) hzero he⟩
  · have hlt := h.need_lt a
    rw [need_shrink hget, Function.update_apply]
    split
    next ha => rw [ha] at hlt; omega
    next => exact hlt
  · rcases Nat.lt_succ_iff_lt_or_eq.1 hi with hlt | rfl
    · exact h.count_lt hwrap i hlt a ha
    · obtain rfl := Option.some.inj (hc.symm.trans ha)
      have hneed := hfits.1
      rw [(h.eq_of_wrap_eq_zero hwrap).2 hzero, need_self] at hneed
      omega

variable (s t b e) in
/-- No number overflows in the next turn. -/
def Fits : Prop :=
  (lack s t b e ≠ 0 → e + 1 < 2 ^ 31 ∧ -2 ^ 31 ≤ lack s t b (e + 1)) ∧
    (lack s t b e = 0 → ∀ c, charAt s b = some c →
      need t (s ++ [0]) b e c + 1 < 2 ^ 31 ∧ b + 1 < 2 ^ 31)

/-- A turn that fits is defined, and the window grows or shrinks. -/
theorem Holds.exists_turn (h : Holds s t b e st) (hb : b < s.length) (he : e ≤ s.length)
    (hfits : Fits s t b e) :
    ∃ st', turn s st = some st' ∧ (Holds s t b (e + 1) st' ∨ Holds s t (b + 1) e st') := by
  by_cases hzero : lack s t b e = 0
  · obtain ⟨c, hc⟩ := charAt_of_lt hb.le
    refine ⟨_, ?_, .inr (h.shrink hzero hb he hc (hfits.2 hzero c hc))⟩
    rw [turn_shrink h hzero hc, if_pos (hfits.2 hzero c hc)]
  · refine ⟨_, ?_, .inl (h.grow hzero he (hfits.1 hzero))⟩
    rw [turn_grow h hzero he, if_pos (hfits.1 hzero)]

/-- A turn that is defined fits. -/
theorem fits_of_turn (h : Holds s t b e st) (he : e ≤ s.length)
    (hrun : turn s st = some st') : Fits s t b e := by
  constructor
  · intro hne
    rw [turn_grow h hne he] at hrun
    by_contra hfits
    rw [if_neg hfits] at hrun
    cases hrun
  · intro hzero c hc
    rw [turn_shrink h hzero hc] at hrun
    by_contra hfits
    rw [if_neg hfits] at hrun
    cases hrun

/-- The condition of the loop. -/
theorem Holds.continues_iff (h : Holds s t b e st) :
    (st.begin % 2 ^ 64 < s.length ∧ st.finish % 2 ^ 64 ≤ s.length) ↔
      b < s.length ∧ e ≤ s.length := by
  have hb := h.begin_lt
  have he := h.finish_lt
  rw [h.begin, h.finish]
  omega

/-- **The last state** of a run. -/
theorem Holds.loop {fuel : ℕ} (h : Holds s t b e st) (hrun : loop s fuel st = some st') :
    ∃ b' e', Holds s t b' e' st' ∧ (s.length ≤ b' ∨ s.length < e') := by
  induction fuel generalizing b e st with
  | zero => cases hrun
  | succ fuel ih =>
    rw [MinWindow.loop] at hrun
    by_cases hcontinues : b < s.length ∧ e ≤ s.length
    · rw [if_pos (h.continues_iff.2 hcontinues)] at hrun
      obtain ⟨st₁, hturn, hrun⟩ := Option.bind_eq_some_iff.1 hrun
      obtain ⟨st₂, hturn', hnext⟩ :=
        h.exists_turn hcontinues.1 hcontinues.2 (fits_of_turn h hcontinues.2 hturn)
      obtain rfl := Option.some.inj (hturn.symm.trans hturn')
      rcases hnext with hnext | hnext <;> exact ih hnext hrun
    · rw [if_neg fun hst ↦ hcontinues (h.continues_iff.1 hst)] at hrun
      obtain rfl := Option.some.inj hrun
      exact ⟨b, e, h, by omega⟩

/-- The loop ends, unless a number overflows. -/
theorem Holds.exists_loop {fuel : ℕ}
    (hfits : ∀ b e st, Holds s t b e st → b < s.length → e ≤ s.length → Fits s t b e)
    (h : Holds s t b e st) (hfuel : (s.length - b) + (s.length + 1 - e) < fuel) :
    ∃ st', MinWindow.loop s fuel st = some st' := by
  induction fuel generalizing b e st with
  | zero => exact absurd hfuel (Nat.not_lt_zero _)
  | succ fuel ih =>
    rw [MinWindow.loop]
    by_cases hcontinues : b < s.length ∧ e ≤ s.length
    · obtain ⟨st₁, hturn, hnext⟩ :=
        h.exists_turn hcontinues.1 hcontinues.2 (hfits b e st h hcontinues.1 hcontinues.2)
      rw [if_pos (h.continues_iff.2 hcontinues), hturn, Option.bind_some]
      rcases hnext with hnext | hnext
      · exact ih hnext (by omega)
      · exact ih hnext (by omega)
    · exact ⟨st, if_neg fun hst ↦ hcontinues (h.continues_iff.1 hst)⟩

/-! ### The beginning -/

/-- The variables in front of the loop. -/
def start (t : List Ascii) : State :=
  ⟨List.ofFn fun c ↦ (t.count c : ℤ), (wrap t.length).1, 0, 0, 0, INT32_MAX⟩

/-- The function as its loop, on counts that fit. -/
theorem minWindow_eq (fuel : ℕ) (s t : List Ascii) :
    minWindow fuel s t = if ∀ c, t.count c < 2 ^ 31 then
      (loop s fuel (start t)).bind fun st ↦
        if st.len = INT32_MAX then some [] else substr s st.left st.len
    else none := by
  have hzeros : List.replicate 128 (0 : ℤ) = List.ofFn fun _ : Ascii ↦ 0 :=
    (List.ofFn_const 128 0).symm
  have hfill := fill_eq (f := fun _ ↦ 0) t fun _ ↦ by decide
  rw [minWindow, hzeros, hfill]
  simp only [zero_add]
  have hcount : (∀ c, (t.count c : ℤ) < 2 ^ 31) ↔ ∀ c, t.count c < 2 ^ 31 :=
    forall_congr' fun c ↦ by omega
  by_cases hall : ∀ c, t.count c < 2 ^ 31
  · rw [if_pos (hcount.2 hall), if_pos hall]
    rfl
  · rw [if_neg fun h ↦ hall (hcount.1 h), if_neg hall]
    rfl

/-- Before the loop the window is empty and lacks `t`. -/
theorem holds_start (hcount : ∀ c, t.count c < 2 ^ 31) : Holds s t 0 0 (start t) := by
  have hneed : need t (s ++ [0]) 0 0 = fun c ↦ (t.count c : ℤ) := funext (need_self 0)
  have hlack : lack s t 0 0 = (wrap t.length).1 := lack_self 0
  have hbounds := (wrap t.length).2
  refine ⟨?_, ?_, rfl, rfl, Nat.zero_le _, Nat.zero_le _, by decide, by decide, fun c ↦ ?_,
    by rwa [hlack], fun h ↦ by rwa [hlack], fun _ i hi ↦ absurd hi (Nat.not_lt_zero i),
    scanned_zero _ _⟩
  · rw [start, hneed]
  · rw [start, hlack]
  · rw [hneed]
    exact Int.ofNat_lt.2 (hcount c)

/-! ### What is returned -/

/-- `w` is a part of `s` with each character of `t` at least as often. -/
def IsWindow (s t w : List Ascii) : Prop := w <:+: s ∧ ∀ c, t.count c ≤ w.count c

/-- A shortest window, or the empty string if there is none. -/
def Right (s t w : List Ascii) : Prop :=
  (IsWindow s t w ∧ ∀ w', IsWindow s t w' → w.length ≤ w'.length) ∨
    (∀ w', ¬ IsWindow s t w') ∧ w = []

/-- The function ends, and returns a shortest window. -/
def FindsWindow (s t : List Ascii) : Prop :=
  ∃ fuel w, minWindow fuel s t = some w ∧ Right s t w

variable {w : List Ascii}

/-- A window is no shorter than `t` and no longer than `s`. -/
theorem IsWindow.length_le (h : IsWindow s t w) : t.length ≤ w.length ∧ w.length ≤ s.length := by
  have hle : (t : Multiset Ascii) ≤ w := Multiset.le_iff_count.2 fun c ↦ by
    rw [Multiset.coe_count, Multiset.coe_count]
    exact h.2 c
  exact ⟨Multiset.card_le_card hle, h.1.length_le⟩

theorem right_nil_of_lt (h : s.length < t.length) : Right s t [] :=
  .inr ⟨fun w hw ↦ by have := hw.length_le; omega, rfl⟩

theorem right_nil_nil (s : List Ascii) : Right s [] [] :=
  .inl ⟨⟨⟨[], s, rfl⟩, fun _ ↦ le_rfl⟩, fun _ _ ↦ Nat.zero_le _⟩

/-- Without the characters that the conversion takes off. -/
theorem right_nil_of_wrap (hs : s.length < 2 ^ 31)
    (hwrap : (wrap t.length).1 = 0 ∨ (wrap t.length).1 ≠ t.length) : Right s t [] := by
  by_cases hlt : t.length < 2 ^ 31
  · have hval := wrap_of_lt (n := t.length) (by omega) (by omega)
    have hlen : t.length = 0 := by omega
    rw [List.eq_nil_of_length_eq_zero hlen]
    exact right_nil_nil s
  · exact right_nil_of_lt (by omega)

/-- Nothing is lacking exactly if the window has all characters of `t`. -/
theorem lack_eq_zero_iff (hwrap : (wrap t.length).1 = t.length) (hbe : b ≤ e)
    (he : e ≤ s.length) :
    lack s t b e = 0 ↔ ∀ c, t.count c ≤ ((s.take e).drop b).count c := by
  rw [lack, hwrap, sub_self, sub_zero, missing_eq_zero_iff hbe, List.take_append_of_le_length he]

theorem lack_nonneg (hwrap : (wrap t.length).1 = t.length) (b e : ℕ) : 0 ≤ lack s t b e := by
  rw [lack, hwrap, sub_self, sub_zero]
  exact demand_nonneg _

/-- A window that lacks nothing is one that is looked for. -/
theorem isWindow_drop_take (hwrap : (wrap t.length).1 = t.length) (hbe : b ≤ e)
    (he : e ≤ s.length) (hzero : lack s t b e = 0) : IsWindow s t ((s.take e).drop b) :=
  ⟨isInfix_drop_take s b e, (lack_eq_zero_iff hwrap hbe he).1 hzero⟩

/-- A window that is looked for lacks nothing. -/
theorem IsWindow.exists_lack (hwrap : (wrap t.length).1 = t.length) (h : IsWindow s t w) :
    ∃ b e, b ≤ e ∧ e ≤ s.length ∧ lack s t b e = 0 ∧ w.length = e - b := by
  obtain ⟨b, e, hbe, he, rfl⟩ := exists_drop_take h.1
  refine ⟨b, e, hbe, he, (lack_eq_zero_iff hwrap hbe he).2 h.2, ?_⟩
  rw [List.length_drop, List.length_take]
  omega

/-- The value of the function, for the last state. -/
def result (s : List Ascii) (st : State) : Option (List Ascii) :=
  if st.len = INT32_MAX then some [] else substr s st.left st.len

/-- Without a window the result is empty. -/
theorem result_of_eq (h : (st.left, st.len) = (0, INT32_MAX)) : result s st = some [] :=
  if_pos (congrArg Prod.snd h)

/-- The best window is the result. -/
theorem result_of_best (hbest : (st.left, st.len) = ((b : ℤ), (e : ℤ) - b)) (hbe : b ≤ e)
    (he : e ≤ s.length) (hlen : s.length < 2 ^ 31) (hlt : st.len < INT32_MAX) :
    result s st = some ((s.take e).drop b) := by
  have hleft : st.left = b := congrArg Prod.fst hbest
  have hstlen : st.len = (e : ℤ) - b := congrArg Prod.snd hbest
  rw [result, if_neg hlt.ne, hstlen, hleft, substr_eq hbe he (by omega)]

/-! ### Nothing required at first -/

/-- For a length that is converted to zero, the turns fit. -/
theorem fits_of_wrap_eq_zero (hwrap : (wrap t.length).1 = 0) (hs : s.length < 2 ^ 31)
    (hcount : ∀ c ∈ s, t.count c + 1 < 2 ^ 31) (h : Holds s t b e st) (hb : b < s.length) :
    Fits s t b e := by
  obtain ⟨hle, heq⟩ := h.eq_of_wrap_eq_zero hwrap
  have hself : lack s t b b = 0 := by rw [lack_self, hwrap]
  constructor
  · intro hne
    have hlt : e < b := hle.lt_of_ne fun h ↦ hne (h ▸ hself)
    have hanti : lack s t b b ≤ lack s t b (e + 1) := (lawful_lack s t).antitone b hlt
    omega
  · intro hzero c hc
    have hmem : c ∈ s := by
      have hget := getElem?_of_charAt hc
      rw [List.getElem?_append_left hb] at hget
      exact List.mem_of_getElem? hget
    have hlt := hcount c hmem
    rw [heq hzero, need_self]
    omega

/-- And the result is empty. -/
theorem result_of_wrap_eq_zero (hwrap : (wrap t.length).1 = 0) (hs : s.length < 2 ^ 31)
    (h : Holds s t b e st) : result s st = some [] := by
  rcases h.scanned.best with hbest | ⟨b', hb', e', he', hfirst, hbest⟩
  · exact result_of_eq hbest
  · have hle := h.begin_le
    have hself : lack s t b' b' = 0 := by rw [lack_self, hwrap]
    obtain rfl : e' = b' :=
      (hfirst.2 hself).antisymm (le_of_lack_eq_zero hwrap.ge (by omega) hfirst.1)
    have hlen : st.len = (e' : ℤ) - e' := congrArg Prod.snd hbest
    have hlt : st.len < INT32_MAX := by
      rw [hlen, sub_self]
      decide
    rw [result_of_best hbest le_rfl he' (by omega) hlt, List.drop_take, Nat.sub_self,
      List.take_zero]

theorem count_lt_of_wrap_eq_zero (hwrap : (wrap t.length).1 = 0) (h : Holds s t b e st)
    (hend : s.length ≤ b ∨ s.length < e) : ∀ c ∈ s, t.count c + 1 < 2 ^ 31 := by
  intro c hc
  obtain ⟨i, hi, rfl⟩ := List.getElem_of_mem hc
  have hle := (h.eq_of_wrap_eq_zero hwrap).1
  refine h.count_lt hwrap i (by omega) _ ?_
  rw [charAt, get_natCast, List.getElem?_append_left hi, List.getElem?_eq_getElem]

/-! ### A number that is never reached -/

/-- A window that always lacks something never shrinks. -/
theorem Holds.begin_eq_zero (h : Holds s t b e st) (hnever : ∀ e ≤ s.length, lack s t 0 e ≠ 0) :
    b = 0 := by
  by_contra hb
  obtain ⟨e', -, he', hfirst, -⟩ := h.scanned.done 0 (Nat.pos_of_ne_zero hb)
  exact hnever e' he' hfirst.1

/-- The turns fit if the window always lacks something. -/
theorem fits_of_never (hs : s.length < 2 ^ 31 - 1) (hnever : ∀ e ≤ s.length, lack s t 0 e ≠ 0)
    (hlow : -2 ^ 31 ≤ lack s t 0 (s.length + 1)) (h : Holds s t b e st) (he : e ≤ s.length) :
    Fits s t b e := by
  obtain rfl := h.begin_eq_zero hnever
  have hanti : lack s t 0 (s.length + 1) ≤ lack s t 0 (e + 1) :=
    (lawful_lack s t).antitone 0 (Nat.succ_le_succ he)
  exact ⟨fun _ ↦ ⟨by omega, hlow.trans hanti⟩, fun hzero ↦ absurd hzero (hnever e he)⟩

/-- And the result is empty. -/
theorem result_of_never (hnever : ∀ e ≤ s.length, lack s t 0 e ≠ 0) (h : Holds s t b e st) :
    result s st = some [] := by
  obtain rfl := h.begin_eq_zero hnever
  rcases h.scanned.best with hbest | ⟨b', hb', -⟩
  · exact result_of_eq hbest
  · exact absurd hb' (Nat.not_lt_zero b')

/-! ### All characters required -/

/-- For a length that is an `int`, the turns fit. -/
theorem fits_of_wrap_eq (hwrap : (wrap t.length).1 = t.length) (hpos : 0 < t.length)
    (hs : s.length < 2 ^ 31 - 1 ∨
      s.length = 2 ^ 31 - 1 ∧ lack s t (s.length - 1) s.length = 0)
    (hcount : ∀ c, t.count c < 2 ^ 31) (h : Holds s t b e st) (hb : b < s.length)
    (he : e ≤ s.length) : Fits s t b e := by
  have hnonneg := lack_nonneg (s := s) hwrap
  constructor
  · intro hne
    have hlow := hnonneg b (e + 1)
    refine ⟨?_, by omega⟩
    rcases hs with hlt | ⟨heq, hlast⟩
    · omega
    · have hne' : e ≠ s.length := by
        rintro rfl
        have hmono : lack s t b s.length ≤ lack s t (s.length - 1) s.length :=
          (lawful_lack s t).monotone _ (by omega)
        have hpos := hnonneg b s.length
        omega
      omega
  · intro hzero c hc
    have hlt := lt_of_lack_eq_zero (by omega) (by omega) hzero
    have hneed := need_lt (t := t) (getElem?_of_charAt hc) hlt
    have hcount := hcount c
    omega

/-- A window that covers `t` makes the length that is returned less than its initial value. -/
theorem len_lt (hwrap : (wrap t.length).1 = t.length)
    (hs : s.length < 2 ^ 31 - 1 ∨
      s.length = 2 ^ 31 - 1 ∧ lack s t (s.length - 1) s.length = 0)
    (h : Holds s t b e st) (hend : s.length ≤ b ∨ s.length < e) {b' e' : ℕ} (hb' : b' < s.length)
    (he' : e' ≤ s.length) (hzero : lack s t b' e' = 0) : st.len < INT32_MAX := by
  have hnonneg := lack_nonneg (s := s) hwrap
  rw [INT32_MAX]
  rcases hs with hlt | ⟨heq, hlast⟩
  · obtain ⟨-, e₁, he₁, -, hlen⟩ :=
      h.scanned.done_of_eq_zero (lawful_lack s t) hnonneg hend hb' he' hzero
    dsimp only at hlen
    omega
  · obtain ⟨-, e₁, he₁, -, hlen⟩ :=
      h.scanned.done_of_eq_zero (lawful_lack s t) hnonneg hend (by omega) le_rfl hlast
    dsimp only at hlen
    omega

/-- And the result is right. -/
theorem right_of_wrap_eq (hwrap : (wrap t.length).1 = t.length) (hpos : 0 < t.length)
    (hlen : s.length < 2 ^ 31)
    (hs : s.length < 2 ^ 31 - 1 ∨
      s.length = 2 ^ 31 - 1 ∧ lack s t (s.length - 1) s.length = 0)
    (h : Holds s t b e st) (hend : s.length ≤ b ∨ s.length < e) :
    ∃ w, result s st = some w ∧ Right s t w := by
  have hle := h.begin_le
  -- A covering window is not empty, so the scan has compared it.
  have hbounds {b' e' : ℕ} (he' : e' ≤ s.length) (hbe : b' ≤ e') (hzero : lack s t b' e' = 0) :
      b' < s.length := by
    have hlt := lt_of_lack_eq_zero (by omega) (by omega) hzero
    omega
  rcases h.scanned.best with hbest | ⟨b', hb', e', he', hfirst, hbest⟩
  · refine ⟨[], result_of_eq hbest, .inr ⟨fun w hw ↦ ?_, rfl⟩⟩
    obtain ⟨b', e', hbe, he', hzero, -⟩ := hw.exists_lack hwrap
    have hlt := len_lt hwrap hs h hend (hbounds he' hbe hzero) he' hzero
    exact hlt.ne (congrArg Prod.snd hbest)
  · have hbe := lt_of_lack_eq_zero (by omega) (by omega) hfirst.1
    have hlt := len_lt hwrap hs h hend (hb'.trans_le hle) he' hfirst.1
    have hstlen : st.len = (e' : ℤ) - b' := congrArg Prod.snd hbest
    refine ⟨(s.take e').drop b', ?_, .inl ⟨?_, fun w hw ↦ ?_⟩⟩
    · exact result_of_best hbest hbe.le he' (by omega) hlt
    · exact isWindow_drop_take hwrap hbe.le he' hfirst.1
    · obtain ⟨b₁, e₁, hbe₁, he₁, hzero, hw⟩ := hw.exists_lack hwrap
      obtain ⟨-, e₂, he₂, -, hmin⟩ := h.scanned.done_of_eq_zero (lawful_lack s t)
        (lack_nonneg hwrap) hend (hbounds he₁ hbe₁ hzero) he₁ hzero
      dsimp only at hmin
      rw [List.length_drop, List.length_take]
      omega

/-- If the last character is looked at without an overflow, it has all characters of `t`. -/
theorem lack_last_eq_zero (hwrap : (wrap t.length).1 = t.length) (hs : s.length = 2 ^ 31 - 1)
    (h : Holds s t b e st) (hend : s.length ≤ b ∨ s.length < e) :
    lack s t (s.length - 1) s.length = 0 := by
  have hlt := h.finish_lt
  obtain ⟨e', -, he', hfirst, -⟩ := h.scanned.done (s.length - 1) (by omega)
  have hanti : lack s t (s.length - 1) s.length ≤ lack s t (s.length - 1) e' :=
    (lawful_lack s t).antitone _ he'
  exact (hanti.trans hfirst.1.le).antisymm (lack_nonneg hwrap _ _)

/-- If nothing is returned, the number has not been reached. -/
theorem never_of_result (hpos : 0 < (wrap t.length).1) (hs : 0 < s.length) (h : Holds s t b e st)
    (hend : s.length ≤ b ∨ s.length < e) (hresult : result s st = some []) :
    s.length < 2 ^ 31 - 1 ∧ ∀ e ≤ s.length, lack s t 0 e ≠ 0 := by
  have hble := h.begin_le
  have hblt := h.begin_lt
  have helt := h.finish_lt
  have hb : b = 0 := by
    by_contra hb
    obtain ⟨e₁, -, he₁, -, hlen⟩ := h.scanned.done (b - 1) (by omega)
    dsimp only at hlen
    have hlt : st.len < INT32_MAX := by
      rw [INT32_MAX]
      omega
    rcases h.scanned.best with hbest | ⟨b', hb', e', he', hfirst, hbest⟩
    · exact hlt.ne (congrArg Prod.snd hbest)
    · have hbe := lt_of_lack_eq_zero hpos (by omega) hfirst.1
      rw [result_of_best hbest hbe.le he' (by omega) hlt] at hresult
      have hnil := congrArg List.length (Option.some.inj hresult)
      rw [List.length_drop, List.length_take, List.length_nil] at hnil
      omega
  rw [hb] at hend
  refine ⟨by omega, fun e' he' ↦ ?_⟩
  rw [← hb]
  exact h.scanned.pending e' (by omega)

/-! ### The function -/

theorem lack_length (s t : List Ascii) :
    lack s t 0 s.length = (wrap t.length).1 - common t s := by
  rw [lack, missing_zero, List.take_left]
  omega

theorem lack_length_succ (s t : List Ascii) :
    lack s t 0 (s.length + 1) = (wrap t.length).1 - common t (s ++ [0]) := by
  rw [lack, missing_zero, List.take_of_length_le (by rw [List.length_append]; rfl)]
  omega

theorem lack_last_iff (hwrap : (wrap t.length).1 = t.length) (hpos : 0 < t.length)
    (hs : 0 < s.length) :
    lack s t (s.length - 1) s.length = 0 ↔ t = s.drop (s.length - 1) := by
  obtain ⟨x, hx⟩ : ∃ x, s.drop (s.length - 1) = [x] := by
    rw [← List.length_eq_one_iff, List.length_drop]
    omega
  rw [lack_eq_zero_iff hwrap (by omega) le_rfl, List.take_length, hx]
  constructor
  · intro hcount
    have hlen := IsWindow.length_le (s := [x]) ⟨List.infix_rfl, hcount⟩
    obtain ⟨y, rfl⟩ : ∃ y, t = [y] := by
      rw [← List.length_eq_one_iff]
      exact le_antisymm hlen.1 hpos
    have hy := hcount y
    rw [List.count_singleton_self] at hy
    rw [List.mem_singleton.1 (List.count_pos_iff.1 hy)]
  · rintro rfl c
    exact le_rfl

/-- The inputs for which no number overflows and no wrong window is found. -/
def Works (s t : List Ascii) : Prop :=
  (∀ c, t.count c < 2 ^ 31) ∧
    (s = [] ∨
      -- All characters of `t` are required.
      (wrap t.length).1 = t.length ∧ 0 < t.length ∧
        (s.length < 2 ^ 31 - 1 ∨ s.length = 2 ^ 31 - 1 ∧ t = s.drop (s.length - 1)) ∨
      -- None is, also because the size is a multiple of `2 ^ 32`.
      (wrap t.length).1 = 0 ∧ s.length < 2 ^ 31 ∧ (∀ c ∈ s, t.count c + 1 < 2 ^ 31) ∨
      -- The size of `t` is no `int`, and `required` does not become `0`.
      0 < (wrap t.length).1 ∧ (wrap t.length).1 ≠ t.length ∧ s.length < 2 ^ 31 - 1 ∧
        common t s < (wrap t.length).1 ∨
      (wrap t.length).1 < 0 ∧ s.length < 2 ^ 31 - 1 ∧
        common t (s ++ [0]) ≤ (wrap t.length).1 + 2 ^ 31)

/-- A defined run, from its last state. -/
theorem exists_last {fuel : ℕ} (hrun : minWindow fuel s t = some w) :
    (∀ c, t.count c < 2 ^ 31) ∧ ∃ b e st, Holds s t b e st ∧
      (s.length ≤ b ∨ s.length < e) ∧ s.length < 2 ^ 31 ∧ result s st = some w := by
  rw [minWindow_eq] at hrun
  by_cases hcount : ∀ c, t.count c < 2 ^ 31
  · rw [if_pos hcount] at hrun
    obtain ⟨st, hloop, hresult⟩ := Option.bind_eq_some_iff.1 hrun
    obtain ⟨b, e, h, hend⟩ := (holds_start hcount).loop hloop
    have hb := h.begin_lt
    have he := h.finish_lt
    exact ⟨hcount, b, e, st, h, hend, by omega, hresult⟩
  · rw [if_neg hcount] at hrun
    cases hrun

/-- If all turns fit and the result is right, the function finds the window. -/
theorem findsWindow_of_fits (hcount : ∀ c, t.count c < 2 ^ 31)
    (hfits : ∀ b e st, Holds s t b e st → b < s.length → e ≤ s.length → Fits s t b e)
    (hright : ∀ b e st, Holds s t b e st → (s.length ≤ b ∨ s.length < e) →
      ∃ w, result s st = some w ∧ Right s t w) : FindsWindow s t := by
  have hfuel : (s.length - 0) + (s.length + 1 - 0) < 2 * s.length + 2 := by omega
  obtain ⟨st, hloop⟩ := (holds_start hcount).exists_loop hfits hfuel
  obtain ⟨b, e, h, hend⟩ := (holds_start hcount).loop hloop
  obtain ⟨w, hresult, hw⟩ := hright b e st h hend
  refine ⟨2 * s.length + 2, w, ?_, hw⟩
  rw [minWindow_eq, if_pos hcount, hloop]
  exact hresult

theorem lt_length_of_wrap_ne (hlen : s.length < 2 ^ 31) (hne : (wrap t.length).1 ≠ t.length) :
    s.length < t.length := by
  by_contra hle
  exact hne (wrap_of_lt (by omega) (by omega))

theorem lack_le_wrap (s t : List Ascii) (e : ℕ) : lack s t 0 e ≤ (wrap t.length).1 := by
  rw [← lack_self (s := s) 0]
  exact (lawful_lack s t).antitone 0 (Nat.zero_le e)

/-- The condition is necessary. -/
theorem works_of_findsWindow (h : FindsWindow s t) : Works s t := by
  obtain ⟨fuel, w, hrun, hw⟩ := h
  obtain ⟨hcount, b, e, st, h, hend, hlen, hresult⟩ := exists_last hrun
  refine ⟨hcount, s.eq_nil_or_concat'.imp_right fun ⟨s', x, hs'⟩ ↦ ?_⟩
  have hpos : 0 < s.length := by
    rw [hs', List.length_append, List.length_singleton]
    exact Nat.succ_pos _
  have helt := h.finish_lt
  rcases lt_trichotomy (wrap t.length).1 0 with hneg | hzero | hpos'
  · have hb := h.begin_eq_zero fun e' _ ↦ ((lack_le_wrap s t e').trans_lt hneg).ne
    obtain rfl : e = s.length + 1 := by
      have hle := h.finish_le
      omega
    have hlow := h.required_bounds.1
    rw [hb, lack_length_succ] at hlow
    exact .inr (.inr (.inr ⟨hneg, by omega, by omega⟩))
  · exact .inr (.inl ⟨hzero, hlen, count_lt_of_wrap_eq_zero hzero h hend⟩)
  · by_cases hwrap : (wrap t.length).1 = t.length
    · refine .inl ⟨hwrap, by omega, ?_⟩
      rcases (Nat.le_sub_one_of_lt hlen).lt_or_eq with hlt | heq
      · exact .inl hlt
      · have hlast := lack_last_eq_zero hwrap heq h hend
        exact .inr ⟨heq, (lack_last_iff hwrap (by omega) hpos).1 hlast⟩
    · have hlt := lt_length_of_wrap_ne hlen hwrap
      obtain rfl : w = [] := by
        rcases hw with ⟨hwindow, -⟩ | ⟨-, hnil⟩
        · have hle := hwindow.length_le
          omega
        · exact hnil
      obtain ⟨hlen', hnever⟩ := never_of_result hpos' hpos h hend hresult
      have hne := hnever s.length le_rfl
      have hb := h.begin_eq_zero hnever
      have hanti : lack s t 0 e ≤ lack s t 0 s.length :=
        (lawful_lack s t).antitone 0 (by omega)
      have hnonneg := h.nonneg hpos'.le
      rw [hb] at hnonneg
      rw [lack_length] at hne hanti
      exact .inr (.inr (.inl ⟨hpos', hwrap, hlen', by omega⟩))

theorem findsWindow_nil (hcount : ∀ c, t.count c < 2 ^ 31) : FindsWindow [] t := by
  refine findsWindow_of_fits hcount (fun b e st _ hb ↦ absurd hb (Nat.not_lt_zero b))
    fun b e st h _ ↦ ⟨[], ?_, ?_⟩
  · have hb := h.begin_le
    rcases h.scanned.best with hbest | ⟨b', hb', -⟩
    · exact result_of_eq hbest
    · exact absurd (hb'.trans_le hb) (Nat.not_lt_zero b')
  · rcases t.eq_nil_or_concat' with rfl | ⟨t', x, rfl⟩
    · exact right_nil_nil []
    · refine right_nil_of_lt ?_
      rw [List.length_append]
      exact Nat.succ_pos _

theorem findsWindow_of_never (hcount : ∀ c, t.count c < 2 ^ 31) (hs : s.length < 2 ^ 31 - 1)
    (hwrap : (wrap t.length).1 ≠ t.length) (hnever : ∀ e ≤ s.length, lack s t 0 e ≠ 0)
    (hlow : -2 ^ 31 ≤ lack s t 0 (s.length + 1)) : FindsWindow s t :=
  findsWindow_of_fits hcount (fun _ _ _ h _ he ↦ fits_of_never hs hnever hlow h he)
    fun _ _ _ h _ ↦ ⟨[], result_of_never hnever h,
      right_nil_of_lt (lt_length_of_wrap_ne (by omega) hwrap)⟩

/-- The condition is enough. -/
theorem findsWindow_of_works (h : Works s t) : FindsWindow s t := by
  obtain ⟨hcount, rfl | ⟨hwrap, hpos, hs⟩ | ⟨hzero, hs, hall⟩ | ⟨hpos, hwrap, hs, hcommon⟩ |
    ⟨hneg, hs, hcommon⟩⟩ := h
  · exact findsWindow_nil hcount
  · have hs' : s.length < 2 ^ 31 - 1 ∨
        s.length = 2 ^ 31 - 1 ∧ lack s t (s.length - 1) s.length = 0 :=
      hs.imp_right fun ⟨hlen, hlast⟩ ↦ ⟨hlen, (lack_last_iff hwrap hpos (by omega)).2 hlast⟩
    exact findsWindow_of_fits hcount
      (fun _ _ _ h hb he ↦ fits_of_wrap_eq hwrap hpos hs' hcount h hb he)
      fun _ _ _ h hend ↦ right_of_wrap_eq hwrap hpos (by omega) hs' h hend
  · exact findsWindow_of_fits hcount
      (fun _ _ _ h hb _ ↦ fits_of_wrap_eq_zero hzero hs hall h hb)
      fun _ _ _ h _ ↦ ⟨[], result_of_wrap_eq_zero hzero hs h, right_nil_of_wrap hs (.inl hzero)⟩
  · have hlack := lack_length s t
    have hbounds := lack_grow_bounds (s := s) (t := t) 0 le_rfl
    refine findsWindow_of_never hcount hs hwrap (fun e he ↦ ?_) (by omega)
    have hanti : lack s t 0 s.length ≤ lack s t 0 e := (lawful_lack s t).antitone 0 he
    omega
  · have hlack := lack_length_succ s t
    refine findsWindow_of_never hcount hs (by omega) (fun e _ ↦ ?_) (by omega)
    exact ((lack_le_wrap s t e).trans_lt hneg).ne

/-- **`minWindow`** finds a shortest window exactly for these inputs. -/
theorem minWindow_iff (s t : List Ascii) : FindsWindow s t ↔ Works s t :=
  ⟨works_of_findsWindow, findsWindow_of_works⟩

/-- A string of `2 ^ 31` times the same character. -/
theorem not_forall_findsWindow : ¬ ∀ s t, FindsWindow s t := by
  intro h
  obtain ⟨fuel, w, hrun, -⟩ := h (List.replicate (2 ^ 31) 97) [97]
  obtain ⟨-, -, -, -, -, -, hlen, -⟩ := exists_last hrun
  rw [List.length_replicate] at hlen
  exact Nat.lt_irrefl _ hlen

end MinWindow
