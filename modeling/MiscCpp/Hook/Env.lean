import Mathlib.Data.Int.Notation
import MiscCpp.Coroutine.Runtime
import MiscCpp.Library.Machine
import MiscCpp.Library.Search

/-!
# The environment of a coroutine

The hooked `setenv`, `unsetenv` and `getenv`. `SetEnvList` names the variables each coroutine has of
its own, in a sorted array; a coroutine whose hook is enabled gets a copy of the array at its first
call, and the copies share the names. A name that is not in the array goes to the functions of the
system.

`qsort` and `bsearch` are parameters, known by what is documented of them (`Search.Sorts`,
`Search.Searches`), and so are the functions of the system, of which nothing is known. `asked` is a
history: the names that have been passed to these.

`getenv` returns the stored string itself, and `setenv` frees the stored string before it copies the
one it is given. So a value is passed with the entry that it belongs to, if there is one (`Arg`).

`getenv_isolated`: as long as no entry is overwritten with its own string, whatever the coroutines
do, `getenv` of a listed name returns what the calls of the same coroutine have left (`latest`), and
the system is not asked.
-/

open Function

namespace CoRoutine

/-- A string, without the terminating zero. -/
abbrev CString := List UInt8

/-- The sign of `strcmp`: the first difference decides, as `unsigned char`. -/
def strcmp : CString → CString → Ordering := List.compareLex compare

instance : Std.TransCmp strcmp := inferInstanceAs (Std.TransCmp (List.compareLex compare))

instance : Std.LawfulEqCmp strcmp := inferInstanceAs (Std.LawfulEqCmp (List.compareLex compare))

/-- A string that is passed as a value: its text, and the coroutine and the name of an entry if it
is the string stored there, or the end of it. -/
structure Arg where
  text : CString
  entry : Option (CoId × CString)

/-- `env_t`. -/
structure EnvT where
  name : CString
  value : Option CString

/-- What `setenv` does to an entry of `self`. -/
def EnvT.set (self : CoId) (value : Option Arg) (overwrite : ℤ) (e : EnvT) : Option EnvT :=
  if overwrite ≠ 0 ∨ e.value = none then
    -- `free(e->value)` comes before `strdup(value)`
    if e.value ≠ none ∧ value.bind Arg.entry = some (self, e.name) then none
    else some { e with value := value.map Arg.text }
  else some e

/-- What `unsetenv` does to an entry. -/
def EnvT.unset (e : EnvT) : EnvT := { e with value := none }

/-- `EnvComp`: the order of the names. -/
def envComp (lhs rhs : EnvT) : Ordering := strcmp lhs.name rhs.name

instance : Std.TransCmp envComp where
  eq_swap {a b} := Std.OrientedCmp.eq_swap (a := a.name) (b := b.name)
  isLE_trans {a b c} := Std.TransCmp.isLE_trans (a := a.name) (b := b.name) (c := c.name)

/-- The functions of the C library that sort and search. -/
structure CLib where
  qsort : List EnvT → List EnvT
  bsearch : List Ordering → Option ℕ
  sorts : Search.Sorts envComp qsort
  searches : Search.Searches bsearch

/-- The functions of the system, on the environment of the process. -/
structure SysEnv (σ : Type*) where
  setenv : CString → Option CString → ℤ → σ → ℤ × σ
  unsetenv : CString → σ → ℤ × σ
  getenv : CString → σ → Option CString

/-- `g_env_list`, the fields `enable_sys_hook` and `pv_env` of the coroutines, and the environment
of the process. -/
structure EnvState (σ : Type*) where
  gEnvList : Option (List EnvT)
  enableSysHook : CoId → Bool
  pvEnv : CoId → Option (List EnvT)
  process : σ
  asked : List CString

namespace EnvState

variable {σ : Type*} (lib : CLib) (sys : SysEnv σ) (s : EnvState σ)

/-- The names `SetEnvList` keeps: neither null nor empty. -/
def listed (names : List (Option CString)) : List CString :=
  names.filterMap fun name ↦ name.filter fun n ↦ !n.isEmpty

/-- `SetEnvList`: the listed names in order, at the first call only. -/
def setEnvList (names : List (Option CString)) : EnvState σ :=
  match s.gEnvList with
  | some _ => s
  | none =>
    let data := (listed names).map fun n ↦ ⟨n, none⟩
    { s with gEnvList := some (if data.length > 1 then lib.qsort data else data) }

/-- `CoEnableHook()` of the coroutine. -/
def coEnableHook (self : CoId) : EnvState σ :=
  { s with enableSysHook := update s.enableSysHook self true }

/-- The array a call of `self` looks in: its own, or a new copy. There is none if the call goes to
the system straight away. -/
def envList (self : CoId) : Option (List EnvT) :=
  if s.enableSysHook self then s.gEnvList.map fun data ↦ (s.pvEnv self).getD data else none

/-- `bsearch` for a name. -/
def find (data : List EnvT) (name : CString) : Option ℕ :=
  lib.bsearch (data.map (envComp ⟨name, none⟩))

/-- The system's `setenv`. -/
def sysSetenv (name : CString) (value : Option CString) (overwrite : ℤ) : ℤ × EnvState σ :=
  let r := sys.setenv name value overwrite s.process
  (r.1, { s with process := r.2, asked := name :: s.asked })

/-- The system's `unsetenv`. -/
def sysUnsetenv (name : CString) : ℤ × EnvState σ :=
  let r := sys.unsetenv name s.process
  (r.1, { s with process := r.2, asked := name :: s.asked })

/-- The system's `getenv`. -/
def sysGetenv (name : CString) : Option CString × EnvState σ :=
  (sys.getenv name s.process, { s with asked := name :: s.asked })

/-- `self->pv_env`. -/
def setPvEnv (self : CoId) (data : List EnvT) : EnvState σ :=
  { s with pvEnv := update s.pvEnv self (some data) }

/-- What the three calls share: where the hook of `self` is enabled and there is a list, `self` has
its own array from now on, and a name that is found there is dealt with there. Otherwise the call is
the system's. -/
def hooked {β : Type*} (self : CoId) (name : CString) (own : List EnvT → ℕ → EnvState σ → β)
    (system : EnvState σ → β) : β :=
  match s.envList self with
  | none => system s
  | some data =>
    let s := s.setPvEnv self data
    match find lib data name with
    | none => system s
    | some i => own data i s

/-- The hooked `setenv`, undefined where it reads a string that it has freed. -/
def setenv (self : CoId) (name : CString) (value : Option Arg) (overwrite : ℤ) :
    Option (ℤ × EnvState σ) :=
  s.hooked lib self name
    (fun data i s ↦ (data[i]?.bind (EnvT.set self value overwrite)).map fun e ↦
      (0, s.setPvEnv self (data.set i e)))
    (fun s ↦ some (s.sysSetenv sys name (value.map Arg.text) overwrite))

/-- The hooked `unsetenv`. -/
def unsetenv (self : CoId) (name : CString) : ℤ × EnvState σ :=
  s.hooked lib self name (fun data i s ↦ (0, s.setPvEnv self (data.modify i EnvT.unset)))
    (fun s ↦ s.sysUnsetenv sys name)

/-- The hooked `getenv`. -/
def getenv (self : CoId) (name : CString) : Option CString × EnvState σ :=
  s.hooked lib self name (fun data i s ↦ (data[i]?.bind EnvT.value, s))
    (fun s ↦ s.sysGetenv sys name)

end EnvState

/-- The calls, with the coroutine that makes them. -/
inductive EnvAction where
  | setEnvList (names : List (Option CString))
  | coEnableHook (self : CoId)
  | setenv (self : CoId) (name : CString) (value : Option Arg) (overwrite : ℤ)
  | unsetenv (self : CoId) (name : CString)
  | getenv (self : CoId) (name : CString)

namespace EnvState

variable {σ : Type*}

/-- A call is undefined where it reads a string that it has freed. -/
def step (lib : CLib) (sys : SysEnv σ) (s : EnvState σ) : EnvAction → Option (EnvState σ)
  | .setEnvList names => some (s.setEnvList lib names)
  | .coEnableHook self => some (s.coEnableHook self)
  | .setenv self name value overwrite => (s.setenv lib sys self name value overwrite).map Prod.snd
  | .unsetenv self name => some (s.unsetenv lib sys self name).2
  | .getenv self name => some (s.getenv lib sys self name).2

/-- At first no hook is enabled, and there is no list. -/
def initial (process : σ) : EnvState σ where
  gEnvList := none
  enableSysHook _ := false
  pvEnv _ := none
  process := process
  asked := []

end EnvState

/-! ### What a coroutine's own calls leave -/

/-- What a call does to the variable `name` of the coroutine `co`, together with whether the hook of
`co` is enabled. Calls of other coroutines, and calls before the hook is enabled, do nothing. -/
def ownStep (co : CoId) (name : CString) (st : Bool × Option CString) :
    EnvAction → Bool × Option CString
  | .coEnableHook self => if self = co then (true, st.2) else st
  | .setenv self n value overwrite =>
    if self = co ∧ n = name ∧ st.1 ∧ (overwrite ≠ 0 ∨ st.2 = none) then (st.1, value.map Arg.text)
    else st
  | .unsetenv self n => if self = co ∧ n = name ∧ st.1 then (st.1, none) else st
  | .setEnvList _ | .getenv _ _ => st

/-- The value of the latest effective `setenv` of the variable `name` in the coroutine `co`. -/
def latest (co : CoId) (name : CString) (hooked : Bool) (acts : List EnvAction) : Option CString :=
  (acts.foldl (ownStep co name) (hooked, none)).2

/-! ### Finding a name -/

/-- Where a name is found in an array with the names `ns`. -/
def slot (lib : CLib) (ns : List CString) (name : CString) : Option ℕ :=
  lib.bsearch (ns.map (strcmp name))

variable {lib : CLib} {ns : List CString} {name n : CString} {data : List EnvT} {i : ℕ} {e : EnvT}

theorem find_eq (data : List EnvT) (name : CString) :
    EnvState.find lib data name = slot lib (data.map EnvT.name) name := by
  rw [EnvState.find, slot, List.map_map]
  rfl

theorem slot_eq_some (h : slot lib ns name = some i) : ns[i]? = some name := by
  have hi := lib.searches.found h
  rw [List.getElem?_map, Option.map_eq_some_iff] at hi
  obtain ⟨m, hm, heq⟩ := hi
  rw [hm, Std.LawfulEqCmp.eq_of_compare heq]

variable (lib) in
/-- `bsearch` finds each name of a sorted array. -/
theorem exists_slot (hns : ns.Pairwise fun a b ↦ (strcmp a b).isLE) (h : name ∈ ns) :
    ∃ i, slot lib ns name = some i := by
  refine Option.isSome_iff_exists.1 (lib.searches.complete ?_ ?_)
  · exact Search.partitioned_of_sorted hns name
  · exact List.mem_map.2 ⟨name, h, Std.ReflCmp.compare_self⟩

/-! ### One call -/

/-- After `SetEnvList`: the names are sorted, no value is set in the array of the names, and the
arrays of the coroutines have the same names. -/
structure Ready {σ : Type*} (s : EnvState σ) (ns : List CString) : Prop where
  sorted : ns.Pairwise fun a b ↦ (strcmp a b).isLE
  list : ∃ data, s.gEnvList = some data ∧ data.map EnvT.name = ns ∧ ∀ e ∈ data, e.value = none
  own : ∀ co data, s.pvEnv co = some data → data.map EnvT.name = ns
  hook : ∀ co data, s.pvEnv co = some data → s.enableSysHook co = true

variable {σ : Type*} {sys : SysEnv σ} {s : EnvState σ} {self co : CoId}

@[simp] theorem setPvEnv_self (data : List EnvT) :
    (s.setPvEnv self data).pvEnv self = some data := update_self ..

theorem setPvEnv_of_ne (h : co ≠ self) (data : List EnvT) :
    (s.setPvEnv self data).pvEnv co = s.pvEnv co := update_of_ne h ..

theorem Ready.setPvEnv (R : Ready s ns) (hself : s.enableSysHook self = true)
    (hdata : data.map EnvT.name = ns) : Ready (s.setPvEnv self data) ns where
  sorted := R.sorted
  list := R.list
  own co d hco := by
    rcases eq_or_ne co self with rfl | hne
    · rw [setPvEnv_self, Option.some.injEq] at hco
      exact hco ▸ hdata
    · rw [setPvEnv_of_ne hne] at hco
      exact R.own co d hco
  hook co d hco := by
    rcases eq_or_ne co self with rfl | hne
    · exact hself
    · rw [setPvEnv_of_ne hne] at hco
      exact R.hook co d hco

/-- The value of the variable in the array of the coroutine. -/
def valueOf (lib : CLib) (s : EnvState σ) (co : CoId) (name : CString) : Option CString :=
  (s.pvEnv co).bind fun data ↦ (EnvState.find lib data name).bind fun i ↦
    data[i]?.bind EnvT.value

variable (lib) in
/-- The array a hooked call looks in, when it is the coroutine's own from now on. -/
theorem Ready.envList (R : Ready s ns) (hself : s.enableSysHook self = true) :
    ∃ data, s.envList self = some data ∧ data.map EnvT.name = ns ∧
      Ready (s.setPvEnv self data) ns ∧
      ∀ co name, valueOf lib (s.setPvEnv self data) co name = valueOf lib s co name := by
  obtain ⟨l, hl, hnames, hvalues⟩ := R.list
  have hdata : ((s.pvEnv self).getD l).map EnvT.name = ns := by
    cases hpv : s.pvEnv self with
    | none => exact hnames
    | some data => exact R.own self data hpv
  refine ⟨(s.pvEnv self).getD l, by rw [EnvState.envList, if_pos hself, hl, Option.map_some], hdata,
    R.setPvEnv hself hdata, fun co name ↦ ?_⟩
  rcases eq_or_ne co self with rfl | hne
  · cases hpv : s.pvEnv co with
    | none =>
      -- A new copy has no values.
      simp only [valueOf, setPvEnv_self, hpv, Option.getD_none, Option.bind_some, Option.bind_none]
      cases EnvState.find lib l name with
      | none => rfl
      | some i =>
        rw [Option.bind_some, Option.bind_eq_none_iff]
        exact fun e he ↦ hvalues e (List.mem_of_getElem? he)
    | some data => simp [valueOf, hpv]
  · simp [valueOf, setPvEnv_of_ne hne]

theorem entry_of_slot (hnames : data.map EnvT.name = ns) (hi : slot lib ns n = some i) :
    ∃ e, data[i]? = some e ∧ e.name = n := by
  have hni := slot_eq_some hi
  rwa [← hnames, List.getElem?_map, Option.map_eq_some_iff] at hni

variable (lib) in
/-- An entry of the array gets another value. -/
theorem Ready.set (R : Ready s ns) (hpv : s.pvEnv self = some data) (hi : slot lib ns n = some i)
    (he : data[i]? = some e) {e' : EnvT} (hname : e'.name = e.name) :
    Ready (s.setPvEnv self (data.set i e')) ns ∧
      valueOf lib s self n = e.value ∧
      valueOf lib (s.setPvEnv self (data.set i e')) self n = e'.value ∧
      ∀ co name, ¬ (self = co ∧ n = name) →
        valueOf lib (s.setPvEnv self (data.set i e')) co name = valueOf lib s co name := by
  have hnames : data.map EnvT.name = ns := R.own self data hpv
  obtain ⟨hlt, hget⟩ := List.getElem?_eq_some_iff.1 he
  have hnames' : (data.set i e').map EnvT.name = ns := by
    rw [List.map_set, hname, ← hget, ← List.getElem_map EnvT.name (h := by simpa using hlt),
      List.set_getElem_self, hnames]
  refine ⟨R.setPvEnv (R.hook self data hpv) hnames', ?_, ?_, fun co name hne ↦ ?_⟩
  · simp [valueOf, hpv, find_eq, hnames, hi, he]
  · simp [valueOf, find_eq, hnames', hi, hlt]
  · rcases eq_or_ne co self with rfl | hco
    · have hn : n ≠ name := fun h ↦ hne ⟨rfl, h⟩
      simp only [valueOf, setPvEnv_self, hpv, find_eq, hnames, hnames', Option.bind_some]
      cases hj : slot lib ns name with
      | none => rfl
      | some j =>
        have hij : i ≠ j := by
          rintro rfl
          exact hn (Option.some.inj ((slot_eq_some hi).symm.trans (slot_eq_some hj)))
        rw [Option.bind_some, Option.bind_some, List.getElem?_set_ne hij]
    · simp [valueOf, setPvEnv_of_ne hco]

variable (lib) in
/-- A call is dealt with in the array of its coroutine, or goes to the system. -/
theorem Ready.hooked_cases {β : Type*} (R : Ready s ns) (self : CoId) (n : CString)
    (own : List EnvT → ℕ → EnvState σ → β) (system : EnvState σ → β) :
    ∃ s' : EnvState σ, Ready s' ns ∧ s'.enableSysHook = s.enableSysHook ∧
      s'.process = s.process ∧ s'.asked = s.asked ∧
      (∀ co name, valueOf lib s' co name = valueOf lib s co name) ∧
      ((s.enableSysHook self = true → n ∉ ns) ∧ s.hooked lib self n own system = system s' ∨
        s.enableSysHook self = true ∧ ∃ data i e, s'.pvEnv self = some data ∧
          slot lib ns n = some i ∧ data[i]? = some e ∧ e.name = n ∧
          valueOf lib s self n = e.value ∧ s.hooked lib self n own system = own data i s') := by
  cases hself : s.enableSysHook self with
  | false =>
    have hnone : s.envList self = none := by rw [EnvState.envList, hself]; rfl
    exact ⟨s, R, rfl, rfl, rfl, fun _ _ ↦ rfl,
      .inl ⟨nofun, by rw [EnvState.hooked, hnone]⟩⟩
  | true =>
    obtain ⟨data, hdata, hnames, R', hvalues⟩ := R.envList lib hself
    refine ⟨s.setPvEnv self data, R', rfl, rfl, rfl, hvalues, ?_⟩
    cases hi : slot lib ns n with
    | none =>
      refine .inl ⟨fun _ hn ↦ ?_, ?_⟩
      · obtain ⟨i, hi'⟩ := exists_slot lib R.sorted hn
        rw [hi] at hi'
        cases hi'
      · simp only [EnvState.hooked, hdata, find_eq, hnames, hi]
    | some i =>
      obtain ⟨e, he, hname⟩ := entry_of_slot hnames hi
      refine .inr ⟨rfl, data, i, e, setPvEnv_self data, rfl, he, hname, ?_, ?_⟩
      · rw [← hvalues]
        simp [valueOf, find_eq, hnames, hi, he]
      · simp only [EnvState.hooked, hdata, find_eq, hnames, hi]

/-- What a call does to the listed variables of all coroutines. -/
structure Steps (lib : CLib) (s s' : EnvState σ) (ns : List CString) (a : EnvAction) : Prop where
  ready : Ready s' ns
  own : ∀ co, ∀ name ∈ ns, (s'.enableSysHook co, valueOf lib s' co name) =
    ownStep co name (s.enableSysHook co, valueOf lib s co name) a

/-- A call that changes an entry, where it does not go to the system. -/
theorem Ready.steps_set (self : CoId) (n : CString) {a : EnvAction} {s' t : EnvState σ}
    (R' : Ready s' ns) (hhook : s'.enableSysHook = s.enableSysHook)
    (hvalues : ∀ co name, valueOf lib s' co name = valueOf lib s co name)
    (ht : (s.enableSysHook self = true → n ∉ ns) ∧ Ready t ns ∧
        t.enableSysHook = s'.enableSysHook ∧ t.pvEnv = s'.pvEnv ∨
      s.enableSysHook self = true ∧ ∃ data i e e', s'.pvEnv self = some data ∧
        slot lib ns n = some i ∧ data[i]? = some e ∧ e'.name = e.name ∧
        ownStep self n (true, e.value) a = (true, e'.value) ∧
        t = s'.setPvEnv self (data.set i e'))
    (hother : ∀ co name st, ¬ (self = co ∧ n = name ∧ st.1 = true) → ownStep co name st a = st) :
    Steps lib s t ns a := by
  rcases ht with ⟨hn, Rt, hhook', hpv⟩ | ⟨hself, data, i, e, e', hpv, hi, he, hname, hown, rfl⟩
  · refine ⟨Rt, fun co name hname ↦ ?_⟩
    rw [hother co name _ fun ⟨h₁, h₂, h₃⟩ ↦ hn (h₁ ▸ h₃) (h₂ ▸ hname), hhook', hhook, valueOf, hpv,
      ← hvalues]
    rfl
  · obtain ⟨Rt, hbefore, hafter, hrest⟩ := R'.set lib hpv hi he hname
    refine ⟨Rt, fun co name _ ↦ ?_⟩
    by_cases heq : self = co ∧ n = name
    · obtain ⟨rfl, rfl⟩ := heq
      rw [hafter, ← hvalues, hbefore, hself, hown]
      show (s'.enableSysHook self, _) = _
      rw [hhook, hself]
    · rw [hrest co name heq, hvalues, hother co name _ fun ⟨h₁, h₂, _⟩ ↦ heq ⟨h₁, h₂⟩]
      show (s'.enableSysHook co, _) = _
      rw [hhook]

/-- A `setenv` of a coroutine's own variable is defined if it does not free what it is given. -/
theorem set_eq_none_iff {value : Option Arg} {overwrite : ℤ} :
    e.set self value overwrite = none ↔
      overwrite ≠ 0 ∧ e.value ≠ none ∧ value.bind Arg.entry = some (self, e.name) := by
  rw [EnvT.set]
  by_cases hvalue : e.value = none
  · simp [hvalue]
  · by_cases hover : overwrite = 0
    · simp [hvalue, hover]
    · simp [hvalue, hover]

theorem set_eq_some {value : Option Arg} {overwrite : ℤ} {e' : EnvT}
    (h : e.set self value overwrite = some e') : e'.name = e.name ∧
      ownStep self n (true, e.value) (.setenv self n value overwrite) = (true, e'.value) := by
  rw [EnvT.set] at h
  by_cases heff : overwrite ≠ 0 ∨ e.value = none
  · rw [if_pos heff, Option.ite_none_left_eq_some] at h
    obtain rfl := Option.some.inj h.2
    exact ⟨rfl, if_pos ⟨rfl, rfl, rfl, heff⟩⟩
  · rw [if_neg heff] at h
    obtain rfl := Option.some.inj h
    exact ⟨rfl, if_neg fun ⟨_, _, _, h⟩ ↦ heff h⟩

theorem Ready.setenv (R : Ready s ns) {n : CString} {value : Option Arg} {overwrite : ℤ}
    {r : ℤ × EnvState σ} (h : s.setenv lib sys self n value overwrite = some r) :
    Steps lib s r.2 ns (.setenv self n value overwrite) := by
  obtain ⟨s', R', hhook, -, -, hvalues, hcases⟩ := R.hooked_cases lib self n
    (fun data i s ↦ (data[i]?.bind (EnvT.set self value overwrite)).map fun e ↦
      ((0 : ℤ), s.setPvEnv self (data.set i e)))
    (fun s ↦ some (s.sysSetenv sys n (value.map Arg.text) overwrite))
  refine R'.steps_set self n hhook hvalues ?_ fun co name st hne ↦
    if_neg fun ⟨h₁, h₂, h₃, _⟩ ↦ hne ⟨h₁, h₂, h₃⟩
  rw [EnvState.setenv] at h
  rcases hcases with ⟨hn, heq⟩ | ⟨hself, data, i, e, hpv, hi, he, -, -, heq⟩
  · rw [heq, Option.some.injEq] at h
    subst h
    exact .inl ⟨hn, ⟨R'.sorted, R'.list, R'.own, R'.hook⟩, rfl, rfl⟩
  · rw [heq, he, Option.bind_some, Option.map_eq_some_iff] at h
    obtain ⟨e', hset, rfl⟩ := h
    obtain ⟨hname, hown⟩ := set_eq_some hset
    exact .inr ⟨hself, data, i, e, e', hpv, hi, he, hname, hown, rfl⟩

theorem Ready.unsetenv (R : Ready s ns) (self : CoId) (n : CString) :
    Steps lib s (s.unsetenv lib sys self n).2 ns (.unsetenv self n) := by
  obtain ⟨s', R', hhook, -, -, hvalues, hcases⟩ := R.hooked_cases lib self n
    (fun data i s ↦ ((0 : ℤ), s.setPvEnv self (data.modify i EnvT.unset)))
    (fun s ↦ s.sysUnsetenv sys n)
  refine R'.steps_set self n hhook hvalues ?_ fun co name st hne ↦ if_neg hne
  rw [EnvState.unsetenv]
  rcases hcases with ⟨hn, heq⟩ | ⟨hself, data, i, e, hpv, hi, he, -, -, heq⟩
  · rw [heq]
    exact .inl ⟨hn, ⟨R'.sorted, R'.list, R'.own, R'.hook⟩, rfl, rfl⟩
  · have hmodify : data.modify i EnvT.unset = data.set i e.unset := by
      rw [List.modify_eq_set_getElem?, he]
      rfl
    refine .inr ⟨hself, data, i, e, e.unset, hpv, hi, he, rfl, ?_, ?_⟩
    · simp [ownStep, EnvT.unset]
    · rw [heq, hmodify]

theorem Ready.getenv (R : Ready s ns) (self : CoId) (n : CString) :
    Steps lib s (s.getenv lib sys self n).2 ns (.getenv self n) := by
  obtain ⟨s', R', hhook, -, -, hvalues, hcases⟩ := R.hooked_cases lib self n
    (fun data i s ↦ (data[i]?.bind EnvT.value, s)) (fun s ↦ s.sysGetenv sys n)
  rw [EnvState.getenv]
  rcases hcases with ⟨-, heq⟩ | ⟨-, data, i, e, -, -, -, -, -, heq⟩
  · rw [heq]
    refine ⟨⟨R'.sorted, R'.list, R'.own, R'.hook⟩, fun co name _ ↦ ?_⟩
    show (s'.enableSysHook co, valueOf lib s' co name) = _
    rw [hhook, hvalues]
    rfl
  · rw [heq]
    refine ⟨R', fun co name _ ↦ ?_⟩
    show (s'.enableSysHook co, valueOf lib s' co name) = _
    rw [hhook, hvalues]
    rfl

/-- **A step** does to the listed variables of each coroutine what `ownStep` says. -/
theorem Ready.step (R : Ready s ns) {a : EnvAction} {t : EnvState σ}
    (h : s.step lib sys a = some t) : Steps lib s t ns a := by
  cases a with
  | setEnvList names =>
    obtain ⟨data, hdata, -⟩ := R.list
    have hsame : s.setEnvList lib names = s := by
      rw [EnvState.setEnvList, hdata]
    rw [EnvState.step, hsame] at h
    obtain rfl := Option.some.inj h
    exact ⟨R, fun _ _ _ ↦ rfl⟩
  | coEnableHook self =>
    obtain rfl := Option.some.inj h
    refine ⟨⟨R.sorted, R.list, R.own, fun co data hco ↦ ?_⟩, fun co name _ ↦ ?_⟩
    · rcases eq_or_ne co self with rfl | hne
      · exact update_self ..
      · exact (update_of_ne hne ..).trans (R.hook co data hco)
    · rw [ownStep]
      rcases eq_or_ne co self with rfl | hne
      · rw [if_pos rfl]
        exact Prod.ext (update_self ..) rfl
      · rw [if_neg hne.symm]
        exact Prod.ext (update_of_ne hne ..) rfl
  | setenv self n value overwrite =>
    obtain ⟨r, hr, rfl⟩ := Option.map_eq_some_iff.1 h
    exact R.setenv hr
  | unsetenv self n => exact Option.some.inj h ▸ R.unsetenv self n
  | getenv self n => exact Option.some.inj h ▸ R.getenv self n

/-- What a run leaves of the listed variables. -/
theorem Ready.exec (R : Ready s ns) {acts : List EnvAction} {t : EnvState σ}
    (h : Machine.exec (EnvState.step lib sys) s acts = some t) :
    Ready t ns ∧ ∀ co, ∀ name ∈ ns, (t.enableSysHook co, valueOf lib t co name) =
      acts.foldl (ownStep co name) (s.enableSysHook co, valueOf lib s co name) := by
  induction acts generalizing s with
  | nil =>
    obtain rfl := Option.some.inj h
    exact ⟨R, fun _ _ _ ↦ rfl⟩
  | cons a acts ih =>
    obtain ⟨u, hu, h⟩ := Option.bind_eq_some_iff.1 h
    obtain ⟨R', hown⟩ := R.step hu
    obtain ⟨Rt, hrun⟩ := ih R' h
    refine ⟨Rt, fun co name hname ↦ (hrun co name hname).trans ?_⟩
    rw [hown co name hname, List.foldl_cons]

/-! ### What a call may be given -/

/-- A string that belongs to an entry is what is stored there, or the end of it. -/
def Passes (lib : CLib) (s : EnvState σ) : EnvAction → Prop
  | .setenv _ _ value _ => ∀ arg ∈ value, ∀ entry ∈ arg.entry,
    ∃ stored ∈ valueOf lib s entry.1 entry.2, arg.text <:+ stored
  | .setEnvList _ | .coEnableHook _ | .unsetenv _ _ | .getenv _ _ => True

instance decidablePasses (lib : CLib) (s : EnvState σ) : ∀ a, Decidable (Passes lib s a)
  | .setenv _ _ value _ => inferInstanceAs (Decidable (∀ arg ∈ value, ∀ entry ∈ arg.entry,
    ∃ stored ∈ valueOf lib s entry.1 entry.2, arg.text <:+ stored))
  | .setEnvList _ | .coEnableHook _ | .unsetenv _ _ | .getenv _ _ => isTrue trivial

/-- No entry is overwritten with the string that it stores itself. -/
def EnvAction.Spares : EnvAction → Prop
  | .setenv self name value overwrite =>
    overwrite ≠ 0 → value.bind Arg.entry ≠ some (self, name)
  | .setEnvList _ | .coEnableHook _ | .unsetenv _ _ | .getenv _ _ => True

instance : ∀ a : EnvAction, Decidable a.Spares
  | .setenv self name value overwrite =>
    inferInstanceAs (Decidable (overwrite ≠ 0 → value.bind Arg.entry ≠ some (self, name)))
  | .setEnvList _ | .coEnableHook _ | .unsetenv _ _ | .getenv _ _ => isTrue trivial

/-- A value is stored only in the array of a hooked coroutine, for a listed name. -/
theorem Ready.of_valueOf (R : Ready s ns) {stored : CString}
    (h : valueOf lib s co name = some stored) : s.enableSysHook co = true ∧ name ∈ ns := by
  obtain ⟨data, hpv, h⟩ := Option.bind_eq_some_iff.1 h
  obtain ⟨i, hi, -⟩ := Option.bind_eq_some_iff.1 h
  rw [find_eq, R.own co data hpv] at hi
  exact ⟨R.hook co data hpv, List.mem_of_getElem? (slot_eq_some hi)⟩

theorem Passes.exists_stored {value : Option Arg} {overwrite : ℤ}
    (h : Passes lib s (.setenv self n value overwrite))
    (hentry : value.bind Arg.entry = some (co, name)) :
    ∃ stored, valueOf lib s co name = some stored := by
  obtain ⟨arg, harg, hentry⟩ := Option.bind_eq_some_iff.1 hentry
  obtain ⟨stored, hstored, -⟩ := h arg harg (co, name) hentry
  exact ⟨stored, hstored⟩

/-- **A call is defined** exactly if it does not overwrite an entry with its own string. -/
theorem Ready.exists_step_iff (R : Ready s ns) {a : EnvAction} (ha : Passes lib s a) :
    (∃ t, s.step lib sys a = some t) ↔ a.Spares := by
  cases a with
  | setenv self n value overwrite =>
    obtain ⟨s', R', -, -, -, -, hcases⟩ := R.hooked_cases lib self n
      (fun data i s ↦ (data[i]?.bind (EnvT.set self value overwrite)).map fun e ↦
        ((0 : ℤ), s.setPvEnv self (data.set i e)))
      (fun s ↦ some (s.sysSetenv sys n (value.map Arg.text) overwrite))
    rw [EnvState.step, EnvState.setenv]
    rcases hcases with ⟨hn, heq⟩ | ⟨-, data, i, e, -, -, he, hname, hvalue, heq⟩
    · rw [heq]
      refine iff_of_true ⟨_, rfl⟩ fun _ hentry ↦ ?_
      obtain ⟨stored, hstored⟩ := ha.exists_stored hentry
      obtain ⟨hself, hmem⟩ := R.of_valueOf hstored
      exact hn hself hmem
    · rw [heq, he, Option.bind_some]
      constructor
      · rintro ⟨t, ht⟩ hover hentry
        obtain ⟨stored, hstored⟩ := ha.exists_stored hentry
        have hnone : e.set self value overwrite = none :=
          set_eq_none_iff.2 ⟨hover, by simp [← hvalue, hstored], by rw [hentry, hname]⟩
        simp [hnone] at ht
      · intro hspares
        cases hset : e.set self value overwrite with
        | none =>
          obtain ⟨hover, -, hentry⟩ := set_eq_none_iff.1 hset
          rw [hname] at hentry
          exact absurd hentry (hspares hover)
        | some e' => exact ⟨_, rfl⟩
  | setEnvList names => exact iff_of_true ⟨_, rfl⟩ trivial
  | coEnableHook self => exact iff_of_true ⟨_, rfl⟩ trivial
  | unsetenv self n => exact iff_of_true ⟨_, rfl⟩ trivial
  | getenv self n => exact iff_of_true ⟨_, rfl⟩ trivial

/-! ### Runs -/

/-- **A run is defined** exactly if its calls do not overwrite entries with their own strings. -/
theorem Ready.exists_exec_iff (R : Ready s ns) {acts : List EnvAction}
    (hpasses : Machine.Always (EnvState.step lib sys) (Passes lib) s acts) :
    (∃ t, Machine.exec (EnvState.step lib sys) s acts = some t) ↔ ∀ a ∈ acts, a.Spares := by
  induction acts generalizing s with
  | nil => exact iff_of_true ⟨s, rfl⟩ fun a ha ↦ absurd ha List.not_mem_nil
  | cons a acts ih =>
    have hstep : (∃ t, s.step lib sys a = some t) ↔ a.Spares := R.exists_step_iff hpasses.1
    rw [List.forall_mem_cons, ← hstep, Machine.exec_cons]
    constructor
    · rintro ⟨t, ht⟩
      obtain ⟨u, hu, ht⟩ := Option.bind_eq_some_iff.1 ht
      exact ⟨⟨u, hu⟩, (ih (R.step hu).ready (hpasses.2 u hu)).1 ⟨t, ht⟩⟩
    · rintro ⟨⟨u, hu⟩, hacts⟩
      obtain ⟨t, ht⟩ := (ih (R.step hu).ready (hpasses.2 u hu)).2 hacts
      exact ⟨t, by rw [hu, Option.bind_some, ht]⟩

/-- Before `SetEnvList` there are no arrays. -/
theorem exec_before {before : List EnvAction} (hbefore : ∀ names, .setEnvList names ∉ before)
    (hlist : s.gEnvList = none) (hpv : ∀ co, s.pvEnv co = none) {t : EnvState σ}
    (h : Machine.exec (EnvState.step lib sys) s before = some t) :
    t.gEnvList = none ∧ ∀ co, t.pvEnv co = none := by
  induction before generalizing s with
  | nil =>
    obtain rfl := Option.some.inj h
    exact ⟨hlist, hpv⟩
  | cons a before ih =>
    obtain ⟨u, hu, h⟩ := Option.bind_eq_some_iff.1 h
    have henv : ∀ self, s.envList self = none := fun self ↦ by
      rw [EnvState.envList, hlist, Option.map_none, ite_self]
    have hstep : u.gEnvList = none ∧ ∀ co, u.pvEnv co = none := by
      cases a with
      | setEnvList names => exact absurd List.mem_cons_self (hbefore names)
      | coEnableHook self =>
        obtain rfl := Option.some.inj hu
        exact ⟨hlist, hpv⟩
      | setenv self n value overwrite =>
        rw [EnvState.step, EnvState.setenv, EnvState.hooked, henv] at hu
        obtain rfl := Option.some.inj hu
        exact ⟨hlist, hpv⟩
      | unsetenv self n =>
        rw [EnvState.step, EnvState.unsetenv, EnvState.hooked, henv] at hu
        obtain rfl := Option.some.inj hu
        exact ⟨hlist, hpv⟩
      | getenv self n =>
        rw [EnvState.step, EnvState.getenv, EnvState.hooked, henv] at hu
        obtain rfl := Option.some.inj hu
        exact ⟨hlist, hpv⟩
    exact ih (fun names h ↦ hbefore names (List.mem_cons_of_mem a h)) hstep.1 hstep.2 h

variable (lib) in
/-- `SetEnvList` makes the state ready, with no value set. -/
theorem setEnvList_ready (hlist : s.gEnvList = none) (hpv : ∀ co, s.pvEnv co = none)
    (names : List (Option CString)) :
    ∃ ns, Ready (s.setEnvList lib names) ns ∧ (∀ name, name ∈ ns ↔ name ∈ EnvState.listed names) ∧
      ∀ co name, valueOf lib (s.setEnvList lib names) co name = none := by
  have hmem : ∀ data : List EnvT, (data.Perm ((EnvState.listed names).map fun n ↦ ⟨n, none⟩)) →
      (∀ name, name ∈ data.map EnvT.name ↔ name ∈ EnvState.listed names) ∧
        ∀ e ∈ data, e.value = none := fun data hperm ↦ by
    refine ⟨fun name ↦ ?_, fun e he ↦ ?_⟩
    · rw [(hperm.map EnvT.name).mem_iff, List.map_map]
      simp
    · obtain ⟨n, -, rfl⟩ := List.mem_map.1 (hperm.mem_iff.1 he)
      rfl
  have hdata : ∃ data : List EnvT, s.setEnvList lib names = { s with gEnvList := some data } ∧
      (data.map EnvT.name).Pairwise (fun a b ↦ (strcmp a b).isLE) ∧
      data.Perm ((EnvState.listed names).map fun n ↦ ⟨n, none⟩) := by
    rw [EnvState.setEnvList, hlist]
    dsimp only
    split
    · exact ⟨_, rfl, List.pairwise_map.2 (lib.sorts.sorted _), lib.sorts.perm _⟩
    next hlen =>
      -- At most one name is sorted already.
      refine ⟨_, rfl, ?_, .refl _⟩
      rw [List.map_map]
      rcases hl : EnvState.listed names with _ | ⟨n, _ | ⟨m, l⟩⟩
      · exact .nil
      · exact List.pairwise_singleton ..
      · simp [hl] at hlen
  obtain ⟨data, hset, hsorted, hperm⟩ := hdata
  obtain ⟨hnames, hvalues⟩ := hmem data hperm
  rw [hset]
  refine ⟨_, ⟨hsorted, ⟨data, rfl, rfl, hvalues⟩, fun co d hco ↦ ?_, fun co d hco ↦ ?_⟩, hnames,
    fun co name ↦ ?_⟩
  · exact absurd ((hpv co).symm.trans hco) (by simp)
  · exact absurd ((hpv co).symm.trans hco) (by simp)
  · show (s.pvEnv co).bind _ = none
    rw [hpv co, Option.bind_none]

/-- A call of the coroutine `co` for the variable `name`. -/
def EnvAction.Calls (co : CoId) (name : CString) : EnvAction → Prop
  | .setenv self n _ _ | .unsetenv self n | .getenv self n => self = co ∧ n = name
  | .setEnvList _ | .coEnableHook _ => False

/-- **A call for a listed name** of a hooked coroutine is not the system's. -/
theorem Ready.asked_eq (R : Ready s ns) (hself : s.enableSysHook co = true) (hn : name ∈ ns)
    {a : EnvAction} (ha : a.Calls co name) {t : EnvState σ} (h : s.step lib sys a = some t) :
    t.process = s.process ∧ t.asked = s.asked := by
  cases a with
  | setEnvList names => exact ha.elim
  | coEnableHook self => exact ha.elim
  | setenv self n value overwrite =>
    obtain ⟨rfl, rfl⟩ := ha
    obtain ⟨r, hr, rfl⟩ := Option.map_eq_some_iff.1 h
    obtain ⟨s', -, -, hprocess, hasked, -, hcases⟩ := R.hooked_cases lib self n
      (fun data i s ↦ (data[i]?.bind (EnvT.set self value overwrite)).map fun e ↦
        ((0 : ℤ), s.setPvEnv self (data.set i e)))
      (fun s ↦ some (s.sysSetenv sys n (value.map Arg.text) overwrite))
    rw [EnvState.setenv] at hr
    rcases hcases with ⟨hnot, -⟩ | ⟨-, data, i, e, -, -, -, -, -, heq⟩
    · exact absurd hn (hnot hself)
    · rw [heq] at hr
      obtain ⟨e', -, rfl⟩ := Option.map_eq_some_iff.1 hr
      exact ⟨hprocess, hasked⟩
  | unsetenv self n =>
    obtain ⟨rfl, rfl⟩ := ha
    obtain rfl := Option.some.inj h
    obtain ⟨s', -, -, hprocess, hasked, -, hcases⟩ := R.hooked_cases lib self n
      (fun data i s ↦ ((0 : ℤ), s.setPvEnv self (data.modify i EnvT.unset)))
      (fun s ↦ s.sysUnsetenv sys n)
    rw [EnvState.unsetenv]
    rcases hcases with ⟨hnot, -⟩ | ⟨-, data, i, e, -, -, -, -, -, heq⟩
    · exact absurd hn (hnot hself)
    · rw [heq]
      exact ⟨hprocess, hasked⟩
  | getenv self n =>
    obtain ⟨rfl, rfl⟩ := ha
    obtain rfl := Option.some.inj h
    obtain ⟨s', -, -, hprocess, hasked, -, hcases⟩ := R.hooked_cases lib self n
      (fun data i s ↦ (data[i]?.bind EnvT.value, s)) (fun s ↦ s.sysGetenv sys n)
    rw [EnvState.getenv]
    rcases hcases with ⟨hnot, -⟩ | ⟨-, data, i, e, -, -, -, -, -, heq⟩
    · exact absurd hn (hnot hself)
    · rw [heq]
      exact ⟨hprocess, hasked⟩

theorem Ready.getenv_eq (R : Ready s ns) (hself : s.enableSysHook co = true) (hn : name ∈ ns) :
    (s.getenv lib sys co name).1 = valueOf lib s co name := by
  obtain ⟨s', -, -, -, -, -, hcases⟩ := R.hooked_cases lib co name
    (fun data i s ↦ (data[i]?.bind EnvT.value, s)) (fun s ↦ s.sysGetenv sys name)
  rw [EnvState.getenv]
  rcases hcases with ⟨hnot, -⟩ | ⟨-, data, i, e, -, -, he, -, hvalue, heq⟩
  · exact absurd hn (hnot hself)
  · rw [heq, hvalue, he, Option.bind_some]

/-- After `SetEnvList` in the state `s₀` and the calls `after`, which are defined: in a coroutine
whose hook is enabled, `getenv` of a listed name returns what the latest effective `setenv` of the
coroutine itself has set, or null, and a call for a listed name neither reads nor writes the
environment of the process. -/
def Isolated (lib : CLib) (sys : SysEnv σ) (s₀ : EnvState σ) (names : List (Option CString))
    (after : List EnvAction) : Prop :=
  ∃ s, Machine.exec (EnvState.step lib sys) (s₀.setEnvList lib names) after = some s ∧
    ∀ co, s.enableSysHook co = true → ∀ name ∈ EnvState.listed names,
      (s.getenv lib sys co name).1 = latest co name (s₀.enableSysHook co) after ∧
        ∀ a t, EnvAction.Calls co name a → s.step lib sys a = some t →
          t.process = s.process ∧ t.asked = s.asked

/-- **Exactly when the environment of a coroutine is its own**: no entry is overwritten with the
string that it stores itself. -/
theorem getenv_isolated (lib : CLib) (sys : SysEnv σ) (process : σ) {before after : List EnvAction}
    (hbefore : ∀ names, .setEnvList names ∉ before) {names : List (Option CString)}
    {s₀ : EnvState σ}
    (h₀ : Machine.exec (EnvState.step lib sys) (.initial process) before = some s₀)
    (hpasses : Machine.Always (EnvState.step lib sys) (Passes lib) (s₀.setEnvList lib names)
      after) :
    Isolated lib sys s₀ names after ↔ ∀ a ∈ after, a.Spares := by
  obtain ⟨hlist, hpv⟩ := exec_before hbefore rfl (fun _ ↦ rfl) h₀
  obtain ⟨ns, R₁, hmem, hnone⟩ := setEnvList_ready lib hlist hpv names
  have hhook : (s₀.setEnvList lib names).enableSysHook = s₀.enableSysHook := by
    rw [EnvState.setEnvList, hlist]
  rw [← R₁.exists_exec_iff hpasses]
  refine ⟨fun ⟨s, hs, _⟩ ↦ ⟨s, hs⟩, fun ⟨s, hs⟩ ↦ ⟨s, hs, fun co hco name hname ↦ ?_⟩⟩
  have hn : name ∈ ns := (hmem name).2 hname
  obtain ⟨R, hrun⟩ := R₁.exec hs
  have hown := hrun co name hn
  rw [hnone, hhook] at hown
  refine ⟨?_, fun a t ha ht ↦ R.asked_eq hco hn ha ht⟩
  rw [R.getenv_eq hco hn, latest, ← hown]

/-- A C library with insertion sort and binary search. -/
def CLib.reference : CLib where
  qsort l := l.insertionSort fun a b ↦ (envComp a b).isLE
  bsearch := Search.binarySearch
  sorts := Search.sorts_insertionSort
  searches := Search.searches_binarySearch

/-- Functions of the system that do nothing. -/
def SysEnv.null : SysEnv Unit := ⟨fun _ _ _ p ↦ (0, p), fun _ p ↦ (0, p), fun _ _ ↦ none⟩

/-- Two coroutines set the same variable, and the second one another variable to the string of the
first; the names are given with repetitions, a null and an empty one among them. -/
theorem getenv_isolated_two_coroutines :
    let names := [some [80], none, some [65], some [], some [80]]
    let s₀ := (EnvState.initial ()).coEnableHook 1
    Isolated .reference .null s₀ names
      [.setenv 1 [80] (some ⟨[49], none⟩) 1, .coEnableHook 2, .setenv 2 [80] (some ⟨[50], none⟩) 1,
        .setenv 1 [80] (some ⟨[51], none⟩) 0, .setenv 2 [65] (some ⟨[49], some (1, [80])⟩) 1] :=
  have hbefore : ∀ names, EnvAction.setEnvList names ∉ [EnvAction.coEnableHook 1] := by simp
  (getenv_isolated .reference .null () hbefore rfl (by decide)).2 (by decide)

/-- A variable is set to what `getenv` returns for it. -/
theorem not_forall_getenv_isolated : ¬ ∀ (lib : CLib) (sys : SysEnv Unit)
    (before after : List EnvAction) (names : List (Option CString)) (s₀ : EnvState Unit),
    (∀ names, .setEnvList names ∉ before) →
      Machine.exec (EnvState.step lib sys) (.initial ()) before = some s₀ →
        Machine.Always (EnvState.step lib sys) (Passes lib) (s₀.setEnvList lib names) after →
          Isolated lib sys s₀ names after := by
  intro hall
  obtain ⟨s, hs, -⟩ := hall .reference .null [.coEnableHook 1]
    [.setenv 1 [80] (some ⟨[49], none⟩) 1, .setenv 1 [80] (some ⟨[49], some (1, [80])⟩) 1]
    [some [80]] _ (by simp) rfl (by decide)
  cases hs

end CoRoutine
