import NimbleRs.TransitionSystem
import Mathlib.Tactic

/-!
# The registered pump

`PumpSlot`, `register_pump`, the drop of its guard and the two critical sections of
`pump_manual`, with any contexts that poll and any sequence of `run` futures. A
future is named by its number, so that a poll of a future that is gone can be told
from a poll of its successor. `none` as a poller is everything on the stack of the
poll of `run` itself: `run` cannot be dropped while such a poll is in flight.
-/
namespace NimbleRs.Hci
open TransitionSystem

structure PumpSlot where
  fut : Option ℕ
  busy : Bool
  deriving DecidableEq

def registerPump (_ : PumpSlot) (fut : ℕ) : PumpSlot := ⟨some fut, false⟩

/-- `PumpGuard::drop` -/
def dropGuard (_ : PumpSlot) : PumpSlot := ⟨none, false⟩

/-- The first section of `pump_manual`, and the future that it goes on to poll. -/
def pumpManualEnter (slot : PumpSlot) : PumpSlot × Option ℕ :=
  if slot.busy then (slot, none)
  else match slot.fut with
    | none => (slot, none)
    | some fut => ({ slot with busy := true }, some fut)

/-- The last section of `pump_manual`. -/
def pumpManualLeave (slot : PumpSlot) : PumpSlot := { slot with busy := false }

theorem pumpManualEnter_cases (slot : PumpSlot) :
    pumpManualEnter slot = (slot, none) ∨ ∃ fut, slot.busy = false ∧ slot.fut = some fut ∧
      pumpManualEnter slot = ({ slot with busy := true }, some fut) := by
  unfold pumpManualEnter
  cases hbusy : slot.busy with
  | true =>
    left
    rfl
  | false =>
    cases hfut : slot.fut with
    | none =>
      left
      rfl
    | some fut =>
      right
      exact ⟨fut, rfl, rfl, rfl⟩

/-- The slot, the `run` future that is alive and the polls in flight. -/
structure Pumps (Ctx : Type*) where
  slot : PumpSlot
  alive : Option ℕ
  polls : List (Option Ctx × ℕ)
  runs : ℕ

inductive PumpStep (Ctx : Type*)
  | enter (poller : Option Ctx)
  | leave (poller : Option Ctx) (fut : ℕ)
  | register
  | dropGuard

variable {Ctx : Type*} [DecidableEq Ctx]

def Pumps.start : Pumps Ctx := ⟨⟨none, false⟩, none, [], 0⟩

def pumpStep (s : Pumps Ctx) : PumpStep Ctx → Option (Pumps Ctx)
  | .enter poller =>
    let r := pumpManualEnter s.slot
    some { s with slot := r.1, polls := (r.2.map fun fut => (poller, fut)).toList ++ s.polls }
  | .leave poller fut =>
    if (poller, fut) ∈ s.polls then
      some { s with slot := pumpManualLeave s.slot, polls := s.polls.erase (poller, fut) }
    else none
  | .register =>
    if s.alive = none then
      some ⟨registerPump s.slot s.runs, some s.runs, s.polls, s.runs + 1⟩
    else none
  | .dropGuard =>
    if s.alive.isSome ∧ ∀ p ∈ s.polls, p.1.isSome then
      some { s with slot := dropGuard s.slot, alive := none }
    else none

/-- At most one poll is in flight, it is of a pump whose guard is not dropped, and the
flag is set exactly while a poll of the registered pump is in flight. -/
structure PumpSafe (s : Pumps Ctx) : Prop where
  atMostOne : s.polls.length ≤ 1
  alive : ∀ p ∈ s.polls, s.alive = some p.2
  busy : s.slot.busy = true ↔ ∃ p ∈ s.polls, s.slot.fut = some p.2

/-- A guard is dropped only while no poll is in flight. -/
def DropsIdle (s : Pumps Ctx) : PumpStep Ctx → Prop
  | .dropGuard => s.slot.busy = false
  | _ => True

/-- The registered pump is the one that is alive, and the flag counts its polls. -/
structure PumpGuarded (s : Pumps Ctx) : Prop where
  registered : s.slot.fut = s.alive
  polls : s.polls = [] ∧ s.slot.busy = false ∨
    ∃ poller fut, s.polls = [(poller, fut)] ∧ s.alive = some fut ∧ s.slot.busy = true

namespace PumpGuarded

variable {s s' : Pumps Ctx}

omit [DecidableEq Ctx] in
theorem safe (h : PumpGuarded s) : PumpSafe s := by
  obtain ⟨hreg, ⟨hpolls, hbusy⟩ | ⟨poller, fut, hpolls, halive, hbusy⟩⟩ := h
  · constructor
    · simp [hpolls]
    · simp [hpolls]
    · simp [hpolls, hbusy]
  · constructor
    · simp [hpolls]
    · simp [hpolls, halive]
    · simp [hpolls, hbusy, hreg, halive]

theorem enter (h : PumpGuarded s) (poller : Option Ctx)
    (hstep : pumpStep s (.enter poller) = some s') : PumpGuarded s' := by
  obtain ⟨hreg, ⟨hpolls, hbusy⟩ | ⟨_, _, hpolls, halive, hbusy⟩⟩ := h
  · cases hfut : s.slot.fut with
    | none =>
      simp only [pumpStep, pumpManualEnter, hbusy, hfut, Option.some.injEq] at hstep
      subst hstep
      exact ⟨hreg, .inl ⟨by simp [hpolls], hbusy⟩⟩
    | some fut =>
      simp only [pumpStep, pumpManualEnter, hbusy, hfut, Option.some.injEq] at hstep
      subst hstep
      refine ⟨by simpa [hfut] using hreg, .inr ⟨poller, fut, by simp [hpolls], ?_, rfl⟩⟩
      show s.alive = some fut
      rw [← hreg, hfut]
  · -- a busy slot turns the caller away
    simp only [pumpStep, pumpManualEnter, hbusy, if_true, Option.some.injEq] at hstep
    subst hstep
    exact ⟨hreg, .inr ⟨_, _, by simpa using hpolls, halive, hbusy⟩⟩

theorem leave (h : PumpGuarded s) {poller : Option Ctx} {fut : ℕ}
    (hstep : pumpStep s (.leave poller fut) = some s') : PumpGuarded s' := by
  by_cases hmem : (poller, fut) ∈ s.polls
  case neg => simp [pumpStep, hmem] at hstep
  simp only [pumpStep, hmem, if_true, Option.some.injEq] at hstep
  subst hstep
  obtain ⟨hreg, ⟨hpolls, -⟩ | ⟨poller', fut', hpolls, -, -⟩⟩ := h
  · simp [hpolls] at hmem
  · rw [hpolls, List.mem_singleton] at hmem
    refine ⟨hreg, .inl ⟨?_, rfl⟩⟩
    show s.polls.erase (poller, fut) = []
    rw [hpolls, hmem, List.erase_cons_head]

theorem register (h : PumpGuarded s) (hstep : pumpStep s .register = some s') :
    PumpGuarded s' := by
  by_cases halive : s.alive = none
  case neg => simp [pumpStep, halive] at hstep
  simp only [pumpStep, halive, if_true, Option.some.injEq] at hstep
  subst hstep
  obtain ⟨-, ⟨hpolls, -⟩ | ⟨_, _, -, halive', -⟩⟩ := h
  · exact ⟨rfl, .inl ⟨hpolls, rfl⟩⟩
  · rw [halive] at halive'
    exact absurd halive' (by simp)

theorem drop_eq (hstep : pumpStep s .dropGuard = some s') :
    s' = { s with slot := dropGuard s.slot, alive := none } := by
  simp only [pumpStep] at hstep
  split at hstep
  · exact (Option.some.inj hstep).symm
  · exact absurd hstep (by simp)

theorem drop (h : PumpGuarded s) (hidle : s.slot.busy = false)
    (hstep : pumpStep s .dropGuard = some s') : PumpGuarded s' := by
  obtain rfl := drop_eq hstep
  obtain ⟨-, ⟨hpolls, -⟩ | ⟨_, _, -, -, hbusy⟩⟩ := h
  · exact ⟨rfl, .inl ⟨hpolls, rfl⟩⟩
  · rw [hidle] at hbusy
    exact absurd hbusy Bool.false_ne_true

theorem step (h : PumpGuarded s) {a : PumpStep Ctx} (hidle : DropsIdle s a)
    (hstep : pumpStep s a = some s') : PumpGuarded s' := by
  cases a with
  | enter poller => exact h.enter poller hstep
  | leave poller fut => exact h.leave hstep
  | register => exact h.register hstep
  | dropGuard => exact h.drop hidle hstep

/-- A guard that is dropped under a poll leaves that poll with a pump that is gone. -/
theorem unsafe_of_drop (h : PumpGuarded s) {a : PumpStep Ctx} (hbusy : ¬ DropsIdle s a)
    (hstep : pumpStep s a = some s') : ¬ PumpSafe s' := by
  cases a with
  | enter poller => exact absurd trivial hbusy
  | leave poller fut => exact absurd trivial hbusy
  | register => exact absurd trivial hbusy
  | dropGuard =>
    have hflag : s.slot.busy = true := by simpa [DropsIdle] using hbusy
    obtain rfl := drop_eq hstep
    obtain ⟨-, ⟨-, hidle⟩ | ⟨poller, fut, hpolls, -, -⟩⟩ := h
    · rw [hflag] at hidle
      exact absurd hidle (by simp)
    · intro hsafe
      have halive := hsafe.alive (poller, fut) (by simp [hpolls])
      exact absurd halive (by simp)

end PumpGuarded

/-- The pump stays safe in a run exactly when each of its guard drops finds no poll in
flight. -/
theorem pump_safe_iff (steps : List (PumpStep Ctx)) :
    Always pumpStep PumpSafe Pumps.start steps ↔ Meets pumpStep DropsIdle Pumps.start steps :=
  always_iff_meets (I := PumpGuarded) (fun _ _ _ h hg hstep => h.step hg hstep)
    (fun _ h => h.safe) (fun _ _ _ h hstep hg => h.unsafe_of_drop hg hstep)
    ⟨rfl, .inl ⟨rfl, rfl⟩⟩

instance (s : Pumps Ctx) : Decidable (PumpSafe s) :=
  decidable_of_iff (s.polls.length ≤ 1 ∧ (∀ p ∈ s.polls, s.alive = some p.2) ∧
    (s.slot.busy = true ↔ ∃ p ∈ s.polls, s.slot.fut = some p.2))
    ⟨fun h => ⟨h.1, h.2.1, h.2.2⟩, fun h => ⟨h.1, h.2, h.3⟩⟩

/-- The `run` future is dropped while a thread polls its pump from a blocked wait, the
next one registers its own and polls it, and the first poll comes to its end. -/
theorem pump_unsafe_of_drop_under_poll :
    ¬ Always pumpStep PumpSafe (Pumps.start : Pumps (Fin 1))
      [.register, .enter (some 0), .dropGuard, .register, .enter none, .leave (some 0) 0] := by
  decide

end NimbleRs.Hci
