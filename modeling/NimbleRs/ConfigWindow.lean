import NimbleRs.HookLifetime
import Mathlib.Tactic

/-!
# The window in which the host is configured

The three callbacks of `ble_hs_cfg` that the driver sets and the active parker are written by
constructors and drops, the former with no lock at all. Nobody else is inside of the driver or
of the C host then, so that no callback is taken half-way and no context changes its identity
while it is in there. The security settings, which `set_security` writes at any time, are not
among them.
-/
namespace NimbleRs.Ble
open FlagGuard TransitionSystem

/-- What is written besides the slots. -/
def Statics.config (st : Statics) : Bool × Bool × Bool × Option Borrow :=
  (st.syncCb, st.resetCb, st.gattsRegisterCb, st.active)

@[simp] theorem Statics.config_slot (st : Statics) (sl : Slot) (callback : Option Borrow) :
    ((Write.slot sl callback).apply st).config = st.config := rfl

section Process
variable {f : Features} {p p' : Process} {a : ProcessStep} {owner : Option ℕ}

/-- Only a constructor or a drop that owns the statics configures the host, and not from inside
of a C function. -/
theorem Owned.of_config (howned : Owned f p owner) (hstep : processStep f p a = some p')
    (hne : p'.statics.config ≠ p.statics.config) :
    ∃ i prog found changed, owner = some i ∧ p.call i = some ⟨.running prog, found, changed⟩ ∧
      calledBy prog = none := by
  cases a with
  | construct i c =>
    simp only [processStep, Option.ite_none_right_eq_some, Option.some.injEq] at hstep
    exact absurd (by rw [← hstep.2]) hne
  | step i rc =>
    simp only [processStep] at hstep
    split at hstep
    next prog found changed hc =>
      obtain ⟨outcome, -, rfl⟩ | ⟨r, hr, rfl⟩ := Process.advance_cases hstep
      · exact absurd rfl hne
      · have hwp : driverWp i prog (Outcome.Leaves f) (view owner p.statics i) :=
          howned.kept i _ hc
        cases prog with
        | write w next =>
          obtain ⟨-, t, ht, -⟩ := hwp
          exact ⟨i, _, found, changed, (view_eq_some.mp ht).1, hc, rfl⟩
        | pure outcome => simp [Prog.step] at hr
        | swap new next =>
          obtain rfl := Option.some.inj hr
          exact absurd rfl hne
        | call fn next =>
          obtain rfl := Option.some.inj hr
          exact absurd rfl hne
    next => exact absurd hstep (by simp)
  | subscribe i sl callback =>
    simp only [processStep, Option.ite_none_right_eq_some, Option.some.injEq] at hstep
    exact absurd (by rw [← hstep.2, Statics.config_slot]) hne
  | unsubscribe i sl =>
    simp only [processStep, Option.ite_none_right_eq_some, Option.some.injEq] at hstep
    exact absurd (by rw [← hstep.2, Statics.config_slot]) hne
  | drop i =>
    simp only [processStep] at hstep
    split at hstep
    next =>
      obtain rfl := Option.some.inj hstep
      exact absurd rfl hne
    next => exact absurd hstep (by simp)

end Process

variable {Ctx : Type*} {f : EventFeatures} {s s' : Running Ctx}

/-- No context is in a method, a free function or a hook, and no constructor or drop is in a C
function. -/
def Running.Idle (s : Running Ctx) : Prop := s.frames = [] ∧ ∀ i, s.process.calling i = none

theorem Nested.frames_eq_nil (h : Nested f s) (hdead : ∀ j, s.lives j = false) :
    s.frames = [] := by
  have hfalse : ∀ j, s.lives j ≠ true := fun j => by simp [hdead j]
  refine List.eq_nil_iff_forall_not_mem.mpr fun e hmem => ?_
  obtain ⟨x, frame⟩ := e
  cases frame with
  | method i => exact hfalse i (h.methods x i hmem)
  | freeFn =>
    obtain ⟨i, hi⟩ := h.freeFns x hmem
    exact hfalse i hi
  | hook hook event result => exact hfalse _ (h.hooks x hook event result hmem)

variable [DecidableEq Ctx]

theorem Nested.idle_of_config (h : Nested f s) {a : RunningStep Ctx}
    (hstep : runningStep f s a = some s')
    (hne : s'.process.statics.config ≠ s.process.statics.config) : s.Idle := by
  cases a with
  | process a =>
    simp only [runningStep, Option.ite_none_right_eq_some, Option.map_eq_some_iff] at hstep
    obtain ⟨-, p, hp, rfl⟩ := hstep
    obtain ⟨owner, howned⟩ := h.owned
    obtain ⟨i, prog, found, changed, rfl, hc, hcalled⟩ := howned.of_config hp hne
    constructor
    · refine h.frames_eq_nil fun j => Bool.eq_false_iff.mpr fun hj => ?_
      have halive : s.process.alive j = true := (Bool.and_eq_true_iff.mp hj).1
      obtain ⟨c, hcj, hphase⟩ := Owned.alive_iff.mp halive
      obtain rfl := Option.some.inj (howned.of_alive halive).1
      obtain rfl := Option.some.inj (hc.symm.trans hcj)
      exact absurd hphase (by simp)
    · intro j
      cases hj : s.process.calling j with
      | none => rfl
      | some fn =>
        obtain rfl := Option.some.inj (howned.of_calling hj)
        exact absurd hj (by simp [Process.calling, hc, hcalled])
  | forget i =>
    simp only [runningStep, Option.ite_none_right_eq_some, Option.some.injEq] at hstep
    exact absurd (by rw [← hstep.2]) hne
  | method c i =>
    simp only [runningStep, Option.ite_none_right_eq_some, Option.some.injEq] at hstep
    exact absurd (by rw [← hstep.2, Running.push]) hne
  | freeFn c =>
    simp only [runningStep, Option.ite_none_right_eq_some, Option.some.injEq] at hstep
    exact absurd (by rw [← hstep.2, Running.push]) hne
  | callback x call =>
    simp only [runningStep, Option.ite_none_right_eq_some, Option.some.injEq] at hstep
    obtain ⟨-, rfl⟩ := hstep
    unfold Running.callback at hne
    split at hne <;> exact absurd rfl hne
  | ret x n =>
    simp only [runningStep] at hstep
    split at hstep
    next =>
      obtain rfl := Option.some.inj hstep
      exact absurd rfl hne
    next =>
      obtain rfl := Option.some.inj hstep
      exact absurd rfl hne
    next => exact absurd hstep (by simp)

/-- The host callbacks and the parker are only written while nobody is inside. -/
theorem config_written_idle (f : EventFeatures) (steps : List (RunningStep Ctx))
    (hkeeps : Meets (runningStep f) KeepsAlive Running.start steps) :
    Meets (runningStep f) (fun s a => ∀ s', runningStep f s a = some s' →
      s'.process.statics.config ≠ s.process.statics.config → s.Idle) Running.start steps :=
  meets_of_invariant (fun _ _ _ h hg ha => Nested.step h hg ha)
    (fun _ _ _ h _ _ _ hstep hne => h.idle_of_config hstep hne) Nested.start hkeeps

theorem config_written_idle_of_passkey :
    Meets (runningStep ⟨⟨true, true, true⟩, true⟩) (fun s a => ∀ s',
      runningStep ⟨⟨true, true, true⟩, true⟩ s a = some s' →
      s'.process.statics.config ≠ s.process.statics.config → s.Idle) Running.start passkeyRun :=
  config_written_idle _ _ keepsAlive_passkeyRun

end NimbleRs.Ble
