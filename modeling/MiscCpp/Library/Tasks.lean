import Mathlib.Logic.Relation
import Mathlib.Order.RelClasses
import MiscCpp.Library.Access

/-!
# Two tasks on one vector

Two programs that run at the same time, each doing its accesses in its own order: a step is the next
access of one of them. When the first one stays in the indices up to `r` and the second one in those
from `l` on, with `r < l`, then no order of the steps leads to an undefined access, or to two
accesses to one element, and all of them end with what is left when the second program runs behind
the first one (`independent_of_exec`).
-/

namespace Access

universe u v

variable {β : Type u} {α α' : Type v} {m m' m₁ m₂ : List β} {i j lo hi r l : ℤ} {b : β}

namespace Prog

variable {p p' : Prog β α} {a : α}

/-- The index of the next access. -/
def index : Prog β α → Option ℤ
  | .read i _ => some i
  | .write i _ _ => some i
  | _ => none

/-- The next access. -/
def next : Prog β α → List β → Option (Prog β α × List β)
  | .read i next, m => (Access.get m i).map fun b ↦ (next b, m)
  | .write i b next, m => (put m i b).map (next, ·)
  | _, _ => none

/-- The program has returned. -/
def Ended (p : Prog β α) : Prop := ∃ a, p = .ret a

/-- The next access is defined exactly if its index is inside. -/
theorem isSome_next (h : p.index = some i) (m : List β) :
    (p.next m).isSome = (Access.get m i).isSome := by
  cases p with
  | ret a => cases h
  | undefined => cases h
  | read j next =>
    obtain rfl := Option.some.inj h
    exact Option.isSome_map
  | write j b next =>
    obtain rfl := Option.some.inj h
    rw [Prog.next, Option.isSome_map]
    cases hput : put m j b with
    | none =>
      cases hget : Access.get m j with
      | none => rfl
      | some x => rw [put_eq hget] at hput; cases hput
    | some m' =>
      obtain ⟨⟨x, hx⟩, -⟩ := put_eq_some hput
      rw [hx]
      rfl

/-- Where a program within a range has not ended, its next access is in that range. -/
theorem ended_or_next (h : (p.within lo hi).exec m = some (a, m')) :
    p = .ret a ∧ m = m' ∨
      ∃ i p₁ m₁, p.index = some i ∧ lo ≤ i ∧ i ≤ hi ∧ p.next m = some (p₁, m₁) := by
  cases p with
  | ret a₁ =>
    obtain ⟨rfl, rfl⟩ := Prod.mk.inj (Option.some.inj h)
    exact .inl ⟨rfl, rfl⟩
  | undefined => cases h
  | read i next =>
    rw [within] at h
    split at h
    next hi =>
      obtain ⟨b, hb, h⟩ := Option.bind_eq_some_iff.1 h
      exact .inr ⟨i, next b, m, rfl, hi.1, hi.2, by rw [Prog.next, hb, Option.map_some]⟩
    next => cases h
  | write i b next =>
    rw [within] at h
    split at h
    next hi =>
      obtain ⟨m₁, hm₁, h⟩ := Option.bind_eq_some_iff.1 h
      exact .inr ⟨i, next, m₁, rfl, hi.1, hi.2, by rw [Prog.next, hm₁, Option.map_some]⟩
    next => cases h

/-- The rest of a program does the rest. -/
theorem exec_next (h : (p.within lo hi).exec m = some (a, m')) (hp : p.next m = some (p', m₁)) :
    (p'.within lo hi).exec m₁ = some (a, m') := by
  cases p with
  | ret a₁ => cases hp
  | undefined => cases hp
  | read i next =>
    obtain ⟨b, hb, heq⟩ := Option.map_eq_some_iff.1 hp
    obtain ⟨rfl, rfl⟩ := Prod.mk.inj heq
    rw [within] at h
    split at h
    · rwa [exec, hb, Option.bind_some] at h
    · cases h
  | write i b next =>
    obtain ⟨m₂, hm₂, heq⟩ := Option.map_eq_some_iff.1 hp
    obtain ⟨rfl, rfl⟩ := Prod.mk.inj heq
    rw [within] at h
    split at h
    · rwa [exec, hm₂, Option.bind_some] at h
    · cases h

/-! ### What is outside the range -/

/-- A confined program does not change what is outside its places. -/
theorem get_exec (h : (p.within lo hi).exec m = some (a, m')) (hj : ¬ (lo ≤ j ∧ j ≤ hi)) :
    Access.get m' j = Access.get m j := by
  induction p generalizing m with
  | ret a₁ =>
    obtain ⟨-, rfl⟩ := Prod.mk.inj (Option.some.inj h)
    rfl
  | undefined => cases h
  | read i next ih =>
    rw [within] at h
    split at h
    · obtain ⟨b, hb, h⟩ := Option.bind_eq_some_iff.1 h
      exact ih b h
    · cases h
  | write i b next ih =>
    rw [within] at h
    split at h
    next hi =>
      obtain ⟨m₁, hm₁, h⟩ := Option.bind_eq_some_iff.1 h
      exact (ih h).trans (get_put_ne hm₁ fun heq ↦ hj (heq ▸ hi))
    next => cases h

/-- A write there can be done before. -/
theorem exec_put (h : (p.within lo hi).exec m = some (a, m')) (hj : ¬ (lo ≤ j ∧ j ≤ hi))
    (hm : put m j b = some m₁) :
    ∃ m₂, put m' j b = some m₂ ∧ (p.within lo hi).exec m₁ = some (a, m₂) := by
  induction p generalizing m m₁ with
  | ret a₁ =>
    obtain ⟨rfl, rfl⟩ := Prod.mk.inj (Option.some.inj h)
    exact ⟨m₁, hm, rfl⟩
  | undefined => cases h
  | read i next ih =>
    rw [within] at h ⊢
    split at h
    next hi =>
      obtain ⟨c, hc, h⟩ := Option.bind_eq_some_iff.1 h
      obtain ⟨m₂, hm₂, hexec⟩ := ih c h hm
      refine ⟨m₂, hm₂, ?_⟩
      rw [if_pos hi, exec, get_put_ne hm fun heq ↦ hj (heq ▸ hi), hc]
      exact hexec
    next => cases h
  | write i c next ih =>
    rw [within] at h ⊢
    split at h
    next hi =>
      obtain ⟨m₃, hm₃, h⟩ := Option.bind_eq_some_iff.1 h
      have hne : i ≠ j := fun heq ↦ hj (heq ▸ hi)
      obtain ⟨⟨x, hx⟩, -⟩ := put_eq_some hm
      obtain ⟨m₄, hm₄⟩ : ∃ m₄, put m₃ j b = some m₄ :=
        ⟨_, put_eq ((get_put_ne hm₃ hne.symm).trans hx) b⟩
      obtain ⟨m₅, hm₅, hm₅'⟩ := put_comm hm₃ hm₄ hne
      obtain rfl := Option.some.inj (hm.symm.trans hm₅)
      obtain ⟨m₂, hm₂, hexec⟩ := ih h hm₄
      refine ⟨m₂, hm₂, ?_⟩
      rw [if_pos hi, exec, hm₅']
      exact hexec
    next => cases h

/-- An access there can be done before. -/
theorem exec_next_comm {q q' : Prog β α'} (h : (p.within lo hi).exec m = some (a, m'))
    (hindex : q.index = some j) (hj : ¬ (lo ≤ j ∧ j ≤ hi)) (hq : q.next m = some (q', m₁)) :
    ∃ m₂, q.next m' = some (q', m₂) ∧ (p.within lo hi).exec m₁ = some (a, m₂) := by
  cases q with
  | ret a₁ => cases hq
  | undefined => cases hq
  | read i next =>
    obtain ⟨b, hb, heq⟩ := Option.map_eq_some_iff.1 hq
    obtain ⟨rfl, rfl⟩ := Prod.mk.inj heq
    obtain rfl := Option.some.inj hindex
    exact ⟨m', by rw [Prog.next, get_exec h hj, hb, Option.map_some], h⟩
  | write i b next =>
    obtain ⟨m₂, hm₂, heq⟩ := Option.map_eq_some_iff.1 hq
    obtain ⟨rfl, rfl⟩ := Prod.mk.inj heq
    obtain rfl := Option.some.inj hindex
    obtain ⟨m₃, hm₃, hexec⟩ := exec_put h hj hm₂
    exact ⟨m₃, by rw [Prog.next, hm₃, Option.map_some], hexec⟩

end Prog

/-! ### Steps in any order -/

/-- Two programs on one vector. -/
structure Tasks (β : Type u) (α α' : Type v) where
  first : Prog β α
  second : Prog β α'
  memory : List β

namespace Tasks

/-- One of the two programs makes its next access. -/
inductive Step : Tasks β α α' → Tasks β α α' → Prop
  | first {p p' : Prog β α} {q : Prog β α'} {m m' : List β} (h : p.next m = some (p', m')) :
    Step ⟨p, q, m⟩ ⟨p', q, m'⟩
  | second {p : Prog β α} {q q' : Prog β α'} {m m' : List β} (h : q.next m = some (q', m')) :
    Step ⟨p, q, m⟩ ⟨p, q', m'⟩

/-- Started together, the tasks do not depend on the order of their steps: the next access of each
is to an element on its own side, and defined; the steps come to an end, and when both tasks have
ended the vector is `m'`. -/
structure Independent (r l : ℤ) (t : Tasks β α α') (m' : List β) : Prop where
  disjoint : r < l
  first : ∀ u, Relation.ReflTransGen Step t u → u.first.Ended ∨
    (∃ i ≤ r, u.first.index = some i) ∧ (u.first.next u.memory).isSome
  second : ∀ u, Relation.ReflTransGen Step t u → u.second.Ended ∨
    (∃ i ≥ l, u.second.index = some i) ∧ (u.second.next u.memory).isSome
  ends : Acc (fun u v ↦ Step v u) t
  result : ∀ u, Relation.ReflTransGen Step t u → u.first.Ended → u.second.Ended → u.memory = m'

/-- The next access leaves a part of the program. -/
theorem acc_next (p : Prog β α) :
    Acc (fun p' p ↦ ∃ m m', p.next m = some (p', m')) p := by
  induction p with
  | ret a => exact ⟨_, fun _ ⟨_, _, h⟩ ↦ by cases h⟩
  | undefined => exact ⟨_, fun _ ⟨_, _, h⟩ ↦ by cases h⟩
  | read i next ih =>
    refine ⟨_, fun p' ⟨m, m', h⟩ ↦ ?_⟩
    obtain ⟨b, -, heq⟩ := Option.map_eq_some_iff.1 h
    exact (Prod.mk.inj heq).1 ▸ ih b
  | write i b next ih =>
    refine ⟨_, fun p' ⟨m, m', h⟩ ↦ ?_⟩
    obtain ⟨m₁, -, heq⟩ := Option.map_eq_some_iff.1 h
    exact (Prod.mk.inj heq).1 ▸ ih

/-- The steps of two programs come to an end. -/
theorem acc_step (t : Tasks β α α') : Acc (fun u v ↦ Step v u) t := by
  obtain ⟨p, q, m⟩ := t
  induction acc_next p generalizing q m with
  | intro p _ ihp =>
    induction acc_next q generalizing m with
    | intro q _ ihq =>
      refine ⟨_, fun u hstep ↦ ?_⟩
      cases hstep with
      | first h => exact ihp _ ⟨_, _, h⟩ _ _
      | second h => exact ihq _ ⟨_, _, h⟩ _

/-- What is left to do gives `m'` if the second task waits for the first one. -/
def Leads (lo r l hi : ℤ) (m' : List β) (t : Tasks β α α') : Prop :=
  ∃ a m₁ a', (t.first.within lo r).exec t.memory = some (a, m₁) ∧
    (t.second.within l hi).exec m₁ = some (a', m')

/-- A step keeps what the programs lead to. -/
theorem Leads.step {t u : Tasks β α α'} (hrl : r < l) (h : Leads lo r l hi m' t)
    (hstep : Step t u) : Leads lo r l hi m' u := by
  obtain ⟨a, m₁, a', hp, hq⟩ := h
  cases hstep with
  | first hnext => exact ⟨a, m₁, a', Prog.exec_next hp hnext, hq⟩
  | second hnext =>
    rcases Prog.ended_or_next hq with ⟨rfl, -⟩ | ⟨j, q₁, m₂, hindex, hj, -, -⟩
    · cases hnext
    · obtain ⟨m₃, hnext', hexec⟩ := Prog.exec_next_comm hp hindex (by omega) hnext
      exact ⟨a, m₃, a', hexec, Prog.exec_next hq hnext'⟩

/-- **Tasks in disjoint ranges** do not depend on the order of their steps. -/
theorem independent_of_exec {p : Prog β α} {q : Prog β α'} {a : α} {a' : α'} (hrl : r < l)
    (hp : (p.within lo r).exec m = some (a, m₁))
    (hq : (q.within l hi).exec m₁ = some (a', m')) : Independent r l ⟨p, q, m⟩ m' := by
  have hleads : ∀ u, Relation.ReflTransGen Step ⟨p, q, m⟩ u → Leads lo r l hi m' u := by
    intro u hu
    induction hu with
    | refl => exact ⟨a, m₁, a', hp, hq⟩
    | tail _ hstep ih => exact ih.step hrl hstep
  refine ⟨hrl, fun u hu ↦ ?_, fun u hu ↦ ?_, acc_step _, fun u hu hfirst hsecond ↦ ?_⟩
  all_goals obtain ⟨a, m₁, a', hp, hq⟩ := hleads u hu
  · rcases Prog.ended_or_next hp with ⟨heq, -⟩ | ⟨i, p₁, m₂, hindex, -, hi, hnext⟩
    · exact .inl ⟨a, heq⟩
    · exact .inr ⟨⟨i, hi, hindex⟩, Option.isSome_iff_exists.2 ⟨_, hnext⟩⟩
  · rcases Prog.ended_or_next hq with ⟨heq, -⟩ | ⟨j, q₁, m₂, hindex, hj, -, hnext⟩
    · exact .inl ⟨a', heq⟩
    · refine .inr ⟨⟨j, hj, hindex⟩, ?_⟩
      rw [Prog.isSome_next hindex, ← Prog.get_exec hp (by omega), ← Prog.isSome_next hindex, hnext]
      rfl
  · obtain ⟨b, hb⟩ := hfirst
    obtain ⟨b', hb'⟩ := hsecond
    rw [hb] at hp
    rw [hb'] at hq
    exact (Prod.mk.inj (Option.some.inj hp)).2.trans (Prod.mk.inj (Option.some.inj hq)).2

/-- What has been started can be ended. -/
theorem Independent.exists_ended {t : Tasks β α α'} (h : Independent r l t m') :
    ∃ u, Relation.ReflTransGen Step t u ∧ u.first.Ended ∧ u.second.Ended := by
  have hrun : ∀ v, Relation.ReflTransGen Step t v →
      ∃ u, Relation.ReflTransGen Step t u ∧ u.first.Ended ∧ u.second.Ended := by
    intro v hv
    have hacc := Tasks.acc_step v
    induction hacc with
    | intro v _ ih =>
      rcases h.first v hv with hfirst | ⟨-, hnext⟩
      · rcases h.second v hv with hsecond | ⟨-, hnext⟩
        · exact ⟨v, hv, hfirst, hsecond⟩
        · obtain ⟨⟨q, m⟩, hq⟩ := Option.isSome_iff_exists.1 hnext
          exact ih _ (.second hq) (hv.tail (.second hq))
      · obtain ⟨⟨p, m⟩, hp⟩ := Option.isSome_iff_exists.1 hnext
        exact ih _ (.first hp) (hv.tail (.first hp))
  exact hrun t .refl

/-- Programs that share nothing have one result. -/
theorem Independent.unique {t : Tasks β α α'} {r' l' : ℤ} (h : Independent r l t m')
    (h' : Independent r' l' t m₁) : m' = m₁ := by
  obtain ⟨u, hu, hfirst, hsecond⟩ := h.exists_ended
  exact (h.result u hu hfirst hsecond).symm.trans (h'.result u hu hfirst hsecond)

end Tasks

end Access
