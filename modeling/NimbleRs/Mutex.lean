import NimbleRs.WaitUntil
import NimbleRs.TransitionSystem
import Mathlib.Tactic

/-!
# The NPL mutex and its wait loop

`ble_npl_mutex_pend` without a timeout and `ble_npl_mutex_release`, any number of
contexts, one point of the wait loop at a time. A contended pend registers no waker;
what can wake a parked context is the I/O that a pump poll left its waker with, and
the machine lets that happen to any context at any time. A pump poll runs host code
on the stack of the wait, so that the calls of a context form a stack of frames.
-/
namespace NimbleRs.Npl
open TransitionSystem

/-- What a `Parker` promises of `ctx_id`. -/
structure CtxIds (Ctx : Type*) where
  ctxId : Ctx → ℕ
  injective : Function.Injective ctxId
  ne_zero : ∀ c, ctxId c ≠ 0

structure Mutex where
  owner : ℕ
  count : ℕ
  deriving DecidableEq

inductive NplError
  | ok
  | invalidParam
  | timeout
  deriving DecidableEq

/-- The closure of `ble_npl_mutex_pend`; the count is a `u32`. -/
def tryLock (m : Mutex) (me : ℕ) : Mutex × Bool :=
  if m.owner = 0 then (⟨me, 1⟩, true)
  else if m.owner = me then ({ m with count := (m.count + 1) % 2 ^ 32 }, true)
  else (m, false)

def bleNplMutexRelease (m : Mutex) (me : ℕ) : Mutex × NplError :=
  if m.owner ≠ me ∨ m.count = 0 then (m, .invalidParam)
  else (⟨if m.count - 1 = 0 then 0 else m.owner, m.count - 1⟩, .ok)

theorem tryLock_owner {m : Mutex} {me : ℕ} (h : (tryLock m me).2 = true) :
    (tryLock m me).1.owner = me := by
  unfold tryLock at h ⊢
  split
  · rfl
  · split
    · assumption
    · simp_all

theorem tryLock_held {m : Mutex} {me : ℕ} (h : (tryLock m me).2 = false) :
    (tryLock m me).1 = m ∧ m.owner ≠ 0 ∧ m.owner ≠ me := by
  unfold tryLock at h ⊢
  split
  · simp_all
  · split
    · simp_all
    · exact ⟨rfl, ‹_›, ‹_›⟩

structure Contended (Ctx : Type*) where
  mutex : Mutex
  /-- The blocked pends of each context, the innermost one first. -/
  frames : Ctx → List WaitPoint
  parking : Parking Ctx

inductive MutexStep (Ctx : Type*)
  | pend (c : Ctx)
  | release (c : Ctx)
  | turn (c : Ctx)
  | wake (c : Ctx)
  | deliver (c : Ctx)

variable {Ctx : Type*} [DecidableEq Ctx]

namespace Contended

def start : Contended Ctx := ⟨⟨0, 0⟩, fun _ => [], Parking.start⟩

/-- The context runs code of its own: outside of any pend, or in a pump poll. -/
def Calls (s : Contended Ctx) (c : Ctx) : Prop := ∀ p ∈ (s.frames c).head?, p = .pump

def setFrames (s : Contended Ctx) (c : Ctx) (l : List WaitPoint) : Contended Ctx :=
  { s with frames := Function.update s.frames c l }

def Blocked (s : Contended Ctx) (c : Ctx) : Prop := s.frames c ≠ []

/-- Parked, with no unpark pending and none being delivered. -/
def Asleep (s : Contended Ctx) (c : Ctx) : Prop :=
  (s.frames c).head? = some .park ∧ s.parking.Quiet c

instance (s : Contended Ctx) (c : Ctx) : Decidable (s.Calls c) :=
  inferInstanceAs (Decidable (∀ p ∈ (s.frames c).head?, p = .pump))

instance (s : Contended Ctx) (c : Ctx) : Decidable (s.Blocked c) :=
  inferInstanceAs (Decidable (_ ≠ _))

instance (s : Contended Ctx) (c : Ctx) : Decidable (s.Asleep c) :=
  inferInstanceAs (Decidable (_ ∧ _))

@[simp] theorem setFrames_frames (s : Contended Ctx) (c d : Ctx) (l : List WaitPoint) :
    (s.setFrames c l).frames d = if d = c then l else s.frames d := by
  simp [setFrames, Function.update_apply]

end Contended

def mutexStep (ids : CtxIds Ctx) (s : Contended Ctx) : MutexStep Ctx → Option (Contended Ctx)
  | .pend c =>
    if s.Calls c then
      let r := tryLock s.mutex (ids.ctxId c)
      if r.2 then some { s with mutex := r.1 } else some (s.setFrames c (.check :: s.frames c))
    else none
  | .release c =>
    if s.Calls c then some { s with mutex := (bleNplMutexRelease s.mutex (ids.ctxId c)).1 }
    else none
  | .turn c =>
    match s.frames c with
    | [] => none
    | .park :: l => (s.parking.unpark c).map fun k =>
      { s with parking := k }.setFrames c (.check :: l)
    | p :: l =>
      let r := waitStep (fun m => tryLock m (ids.ctxId c)) id false p s.mutex
      some ({ s with mutex := r.1 }.setFrames c (match r.2 with
        | .returned _ => l
        | .waiting p' => p' :: l))
  | .wake c => some { s with parking := s.parking.wake c }
  | .deliver c => (s.parking.deliver c).map fun k => { s with parking := k }

/-- When somebody is blocked and all who are blocked sleep, another context holds the mutex. -/
def NeverFreeAsleep (ids : CtxIds Ctx) (s : Contended Ctx) : Prop :=
  (∃ c, s.Blocked c) → (∀ c, s.Blocked c → s.Asleep c) →
    ∃ holder, s.mutex.owner = ids.ctxId holder ∧ ¬ s.Blocked holder

/-- A release that frees the mutex leaves somebody who is blocked on it awake. -/
def ReleasesToWoken (ids : CtxIds Ctx) (s : Contended Ctx) : MutexStep Ctx → Prop
  | .release c => s.mutex.owner = ids.ctxId c → s.mutex.count = 1 →
    (∃ d, s.Blocked d) → ∃ d, s.Blocked d ∧ ¬ s.Asleep d
  | _ => True

/-- Blocked contexts that all sleep do not own the mutex, and it is not free. -/
structure Attended (ids : CtxIds Ctx) (s : Contended Ctx) : Prop where
  owner : s.mutex.owner = 0 ∨ ∃ c, s.mutex.owner = ids.ctxId c
  nested : ∀ c, ∀ p ∈ (s.frames c).tail, p = .pump
  parked : ∀ c, (s.frames c).head? = some .park → s.mutex.owner ≠ ids.ctxId c
  held : (∃ c, s.Blocked c) → (∀ c, s.Blocked c → s.Asleep c) → s.mutex.owner ≠ 0

namespace Attended

variable {ids : CtxIds Ctx} {s s' : Contended Ctx}

omit [DecidableEq Ctx] in
theorem neverFree (h : Attended ids s) : NeverFreeAsleep ids s := by
  intro hblocked hasleep
  obtain ⟨c, hc⟩ := h.owner.resolve_left (h.held hblocked hasleep)
  exact ⟨c, hc, fun hb => h.parked c (hasleep c hb).1 hc⟩

omit [DecidableEq Ctx] in
/-- A context that is blocked and not asleep will look at the mutex again. -/
theorem of_awake (howner : s.mutex.owner = 0 ∨ ∃ c, s.mutex.owner = ids.ctxId c)
    (hnested : ∀ c, ∀ p ∈ (s.frames c).tail, p = .pump)
    (hparked : ∀ c, (s.frames c).head? = some .park → s.mutex.owner ≠ ids.ctxId c)
    {c : Ctx} (hb : s.Blocked c) (hc : ¬ s.Asleep c) : Attended ids s :=
  ⟨howner, hnested, hparked, fun _ hall => absurd (hall c hb) hc⟩

theorem nested_setFrames (h : Attended ids s) {c : Ctx} {l : List WaitPoint}
    (hl : ∀ p ∈ l.tail, p = .pump) (d : Ctx) :
    ∀ p ∈ ((s.setFrames c l).frames d).tail, p = .pump :=
  forall_tail_update h.nested hl d

theorem parked_setFrames (h : Attended ids s) {c : Ctx} {l : List WaitPoint}
    (hl : l.head? = some .park → s.mutex.owner ≠ ids.ctxId c) (d : Ctx)
    (hd : ((s.setFrames c l).frames d).head? = some .park) : s.mutex.owner ≠ ids.ctxId d := by
  by_cases hdc : d = c
  · simp only [Contended.setFrames_frames, hdc, if_true] at hd
    rw [hdc]
    exact hl hd
  · simp only [Contended.setFrames_frames, hdc, if_false] at hd
    exact h.parked d hd

/-- A context that takes the mutex is not parked, and no other context becomes its owner. -/
theorem lock (h : Attended ids s) {c : Ctx} {m : Mutex} (hm : m.owner = ids.ctxId c)
    {l : List WaitPoint} (hl : ∀ p ∈ l, p = .pump) :
    Attended ids ({ s with mutex := m }.setFrames c l) := by
  refine ⟨.inr ⟨c, hm⟩, ?_, fun d hd => ?_, fun _ _ => ?_⟩
  · exact h.nested_setFrames (fun p hp => hl p (List.mem_of_mem_tail hp))
  · show m.owner ≠ ids.ctxId d
    rw [hm]
    by_cases hdc : d = c
    · simp only [Contended.setFrames_frames, hdc, if_true] at hd
      exact absurd (hl _ (List.mem_of_mem_head? hd)) (by simp)
    · exact fun heq => hdc (ids.injective heq).symm
  · show m.owner ≠ 0
    rw [hm]
    exact ids.ne_zero c

/-- A context that goes on to a point where it is awake. -/
theorem goOn (h : Attended ids s) {c : Ctx} {p : WaitPoint} (hp : p ≠ .park)
    {l : List WaitPoint} (hl : ∀ p ∈ l, p = .pump) {k : Parking Ctx} :
    Attended ids ({ s with parking := k }.setFrames c (p :: l)) := by
  refine of_awake h.owner (h.nested_setFrames hl) (h.parked_setFrames ?_) (c := c) ?_ ?_
  · exact fun heq => absurd (Option.some.inj heq) hp
  · simp [Contended.Blocked]
  · simp [Contended.Asleep, hp]

/-- A context that goes to sleep on a mutex that another context holds. -/
theorem park (h : Attended ids s) {c : Ctx} (hheld : s.mutex.owner ≠ 0)
    (hother : s.mutex.owner ≠ ids.ctxId c) {l : List WaitPoint} (hl : ∀ p ∈ l, p = .pump) :
    Attended ids (s.setFrames c (.park :: l)) := by
  constructor
  case owner => exact h.owner
  case nested => exact h.nested_setFrames hl
  case parked => exact h.parked_setFrames (fun _ => hother)
  case held => exact fun _ _ => hheld

omit [DecidableEq Ctx] in
theorem frames_pump (h : Attended ids s) {c : Ctx} (hc : s.Calls c) :
    ∀ p ∈ s.frames c, p = .pump :=
  forall_mem_of_head?_tail hc (h.nested c)

theorem pend (h : Attended ids s) {c : Ctx} (hstep : mutexStep ids s (.pend c) = some s') :
    Attended ids s' := by
  by_cases hcalls : s.Calls c
  case neg => simp [mutexStep, hcalls] at hstep
  have hpump := h.frames_pump hcalls
  cases hlock : (tryLock s.mutex (ids.ctxId c)).2 with
  | true =>
    simp only [mutexStep, hcalls, if_true, hlock, Option.some.injEq] at hstep
    subst hstep
    have hsame : { s with mutex := (tryLock s.mutex (ids.ctxId c)).1 } =
        { s with mutex := (tryLock s.mutex (ids.ctxId c)).1 }.setFrames c (s.frames c) := by
      simp [Contended.setFrames]
    rw [hsame]
    exact h.lock (tryLock_owner hlock) hpump
  | false =>
    simp only [mutexStep, hcalls, if_true, hlock, Bool.false_eq_true, if_false,
      Option.some.injEq] at hstep
    subst hstep
    exact h.goOn (by simp) hpump (k := s.parking)

theorem release_eq {c : Ctx} (hstep : mutexStep ids s (.release c) = some s') :
    s' = { s with mutex := (bleNplMutexRelease s.mutex (ids.ctxId c)).1 } := by
  by_cases hcalls : s.Calls c
  · simp only [mutexStep, hcalls, if_true, Option.some.injEq] at hstep
    exact hstep.symm
  · simp [mutexStep, hcalls] at hstep

theorem release (h : Attended ids s) {c : Ctx} (hwoken : ReleasesToWoken ids s (.release c))
    (hstep : mutexStep ids s (.release c) = some s') : Attended ids s' := by
  obtain rfl := release_eq hstep
  unfold bleNplMutexRelease
  by_cases hbad : s.mutex.owner ≠ ids.ctxId c ∨ s.mutex.count = 0
  · rw [if_pos hbad]
    exact h
  · rw [if_neg hbad]
    push Not at hbad
    by_cases hone : s.mutex.count - 1 = 0
    · simp only [hone, if_true]
      refine ⟨.inl rfl, h.nested, fun d _ => (ids.ne_zero d).symm, fun hb hall => ?_⟩
      have hcount : s.mutex.count = 1 := by omega
      obtain ⟨d, hd, hawake⟩ := hwoken hbad.1 hcount hb
      exact absurd (hall d hd) hawake
    · simp only [hone, if_false]
      exact ⟨h.owner, h.nested, h.parked, h.held⟩

theorem turn (h : Attended ids s) {c : Ctx} (hstep : mutexStep ids s (.turn c) = some s') :
    Attended ids s' := by
  have hnested := h.nested c
  cases hf : s.frames c with
  | nil => simp [mutexStep, hf] at hstep
  | cons p l =>
    rw [hf, List.tail_cons] at hnested
    by_cases hp : p = .park
    · subst hp
      simp only [mutexStep, hf, Option.map_eq_some_iff] at hstep
      obtain ⟨k, -, rfl⟩ := hstep
      exact h.goOn (by simp) hnested
    · have hturn : mutexStep ids s (.turn c) =
          let r := waitStep (fun m => tryLock m (ids.ctxId c)) id false p s.mutex
          some ({ s with mutex := r.1 }.setFrames c (match r.2 with
            | .returned _ => l
            | .waiting p' => p' :: l)) := by
        cases p <;> simp_all [mutexStep]
      rw [hturn] at hstep
      obtain ⟨-, hlock, hw⟩ | ⟨hasks, hlock, hw⟩ | ⟨hasks, hw⟩ := waitStep_cases
        (fun m => tryLock m (ids.ctxId c)) id false p s.mutex
      · -- the check takes the mutex and the pend returns
        simp only [hw, Option.some.injEq] at hstep
        subst hstep
        exact h.lock (tryLock_owner hlock) hnested
      · -- the check finds the mutex with another context
        obtain ⟨hsame, hheld, hother⟩ := tryLock_held hlock
        simp only [hw, hsame, Option.some.injEq] at hstep
        subst hstep
        cases p with
        | check => exact h.goOn (by simp) hnested (k := s.parking)
        | recheck => exact h.goOn (by simp) hnested (k := s.parking)
        | lastCheck => exact h.park hheld hother hnested
        | _ => simp [WaitPoint.asks] at hasks
      · -- any other point leaves the mutex alone and does not park
        simp only [hw, ite_self, id_eq, Option.some.injEq] at hstep
        subst hstep
        cases p with
        | expiry => exact h.goOn (by simp) hnested (k := s.parking)
        | register => exact h.goOn (by simp) hnested (k := s.parking)
        | pump => exact h.goOn (by simp) hnested (k := s.parking)
        | park => exact absurd rfl hp
        | _ => simp [WaitPoint.asks] at hasks

omit [DecidableEq Ctx] in
theorem wake (h : Attended ids s) (c : Ctx) :
    Attended ids { s with parking := s.parking.wake c } :=
  ⟨h.owner, h.nested, h.parked, fun hb hall =>
    h.held hb (fun d hd => ⟨(hall d hd).1, (hall d hd).2.of_wake⟩)⟩

theorem deliver (h : Attended ids s) {c : Ctx} {k : Parking Ctx}
    (hk : s.parking.deliver c = some k) : Attended ids { s with parking := k } := by
  refine ⟨h.owner, h.nested, h.parked, fun hb hall => h.held hb (fun d hd => ?_)⟩
  obtain ⟨hpark, hquiet⟩ := hall d hd
  exact ⟨hpark, hquiet.of_deliver hk⟩

theorem step (h : Attended ids s) {a : MutexStep Ctx} (hwoken : ReleasesToWoken ids s a)
    (hstep : mutexStep ids s a = some s') : Attended ids s' := by
  cases a with
  | pend c => exact h.pend hstep
  | release c => exact h.release hwoken hstep
  | turn c => exact h.turn hstep
  | wake c =>
    cases hstep
    exact h.wake c
  | deliver c =>
    obtain ⟨k, hk, rfl⟩ := Option.map_eq_some_iff.mp hstep
    exact h.deliver hk

/-- A release that finds everybody asleep wakes nobody. -/
theorem free_asleep {a : MutexStep Ctx} (hwoken : ¬ ReleasesToWoken ids s a)
    (hstep : mutexStep ids s a = some s') : ¬ NeverFreeAsleep ids s' := by
  cases a with
  | release c =>
    simp only [ReleasesToWoken] at hwoken
    push Not at hwoken
    obtain ⟨howner, hcount, hblocked, hasleep⟩ := hwoken
    have hfree : bleNplMutexRelease s.mutex (ids.ctxId c) = (⟨0, 0⟩, .ok) := by
      simp [bleNplMutexRelease, howner, hcount]
    obtain rfl := release_eq hstep
    rw [hfree]
    intro hnever
    obtain ⟨holder, hholder, -⟩ := hnever hblocked hasleep
    exact ids.ne_zero holder hholder.symm
  | _ => exact absurd trivial hwoken

end Attended

/-- The mutex is never free with everyone who wants it asleep, in a run whose releases
never free it with all of them asleep, and in no other run. -/
theorem mutex_never_free_asleep_iff (ids : CtxIds Ctx) (steps : List (MutexStep Ctx)) :
    Always (mutexStep ids) (NeverFreeAsleep ids) Contended.start steps ↔
      Meets (mutexStep ids) (ReleasesToWoken ids) Contended.start steps :=
  always_iff_meets (I := Attended ids) (fun _ _ _ h hg hstep => h.step hg hstep)
    (fun _ h => h.neverFree) (fun _ _ _ _ hstep hg => Attended.free_asleep hg hstep)
    ⟨.inl rfl, by simp [Contended.start], by simp [Contended.start],
      by simp [Contended.start, Contended.Blocked]⟩

instance [Fintype Ctx] (ids : CtxIds Ctx) (s : Contended Ctx) :
    Decidable (NeverFreeAsleep ids s) :=
  inferInstanceAs (Decidable ((∃ c, s.Blocked c) → (∀ c, s.Blocked c → s.Asleep c) →
    ∃ holder, s.mutex.owner = ids.ctxId holder ∧ ¬ s.Blocked holder))

/-- One context holds the mutex, another waits, polls the pump and parks, and the first
one releases: the mutex is free, and nobody wakes the one that sleeps. -/
theorem mutex_free_and_waiter_asleep :
    let ids : CtxIds (Fin 2) := ⟨fun c => c + 1, by decide, by decide⟩
    ¬ Always (mutexStep ids) (NeverFreeAsleep ids) Contended.start
      ([.pend 0, .pend 1] ++ List.replicate 6 (.turn 1) ++ [.release 0]) := by
  decide

end NimbleRs.Npl
