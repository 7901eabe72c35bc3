import NimbleRs.Singleton
import Mathlib.Tactic

/-!
# Drivers that come and go

Constructor calls and drops of any number of contexts, interleaved step by step. A call
stands for the driver that it creates, so that the number of the call is the number of the
driver. A driver that lives can be subscribed through a shared borrow, and its drop has it
to itself.
-/
namespace NimbleRs.Ble
open FlagGuard TransitionSystem

/-- What a constructor or a drop comes to. -/
inductive Outcome
  | created
  | failed (err : BleError)
  | dropped

inductive Ctor
  | new
  | newWithParker (parker : ℕ)
  | newWithServices
  | newWithServicesAndParker (parker : ℕ)

namespace Ctor

def compiled (f : Features) : Ctor → Bool
  | .new | .newWithParker _ => true
  | .newWithServices | .newWithServicesAndParker _ => f.peripheral

def prog (f : Features) (i : ℕ) : Ctor → DriverProg (Except BleError Unit)
  | .new => newBle f
  | .newWithParker parker => Ble.newWithParker f ⟨i, parker⟩
  | .newWithServices => Ble.newWithServices f
  | .newWithServicesAndParker parker => Ble.newWithServicesAndParker f ⟨i, parker⟩

def run (f : Features) (i : ℕ) (c : Ctor) : DriverProg Outcome := do
  match ← c.prog f i with
  | .ok _ => return .created
  | .error err => return .failed err

end Ctor

def dropRun (f : Features) : DriverProg Outcome := do
  dropBle f
  return .dropped

inductive Phase
  | running (p : DriverProg Outcome)
  | alive
  | ended (outcome : Outcome)

structure Call where
  phase : Phase
  /-- What its swap has found in the flag. -/
  found : Option Bool
  /-- Whether it has changed a static or called a C function. -/
  changed : Bool

structure Process where
  taken : Bool
  statics : Statics
  call : ℕ → Option Call

def Process.start : Process := ⟨false, Statics.new, fun _ => none⟩

inductive ProcessStep
  | construct (i : ℕ) (c : Ctor)
  | step (i : ℕ) (rc : ℤ)
  | subscribe (i : ℕ) (s : Slot) (callback : ℕ)
  | unsubscribe (i : ℕ) (s : Slot)
  | drop (i : ℕ)

def Outcome.phase : Outcome → Phase
  | .created => .alive
  | outcome => .ended outcome

/-- The next step of the constructor or the drop that call `c` is in. -/
def Process.advance (s : Process) (i : ℕ) (c : Call) (p : DriverProg Outcome) (rc : ℤ) :
    Option Process :=
  match p.result with
  | some outcome => some { s with
      call := Function.update s.call i (some { c with phase := outcome.phase }) }
  | none => (p.step Write.apply s.taken s.statics rc).map fun r =>
    { taken := r.flag
      statics := r.state
      call := Function.update s.call i (some
        { phase := .running r.prog
          found := c.found <|> p.finds s.taken
          changed := c.changed || p.changes s.taken }) }

def Process.alive (s : Process) (i : ℕ) : Bool :=
  match s.call i with
  | some ⟨.alive, _, _⟩ => true
  | _ => false

def processStep (f : Features) (s : Process) : ProcessStep → Option Process
  | .construct i c =>
    if (s.call i).isNone && c.compiled f then
      some { s with call := Function.update s.call i (some ⟨.running (c.run f i), none, false⟩) }
    else none
  | .step i rc =>
    match s.call i with
    | some ⟨.running p, found, changed⟩ => s.advance i ⟨.running p, found, changed⟩ p rc
    | _ => none
  | .subscribe i sl callback =>
    if s.alive i && sl.compiled f then
      some { s with statics := (Write.slot sl (some ⟨i, callback⟩)).apply s.statics }
    else none
  | .unsubscribe i sl =>
    if s.alive i && sl.compiled f && sl != .host then
      some { s with statics := (Write.slot sl none).apply s.statics }
    else none
  | .drop i =>
    match s.call i with
    | some ⟨.alive, found, changed⟩ => some { s with
        call := Function.update s.call i (some ⟨.running (dropRun f), found, changed⟩) }
    | _ => none

/-- The call has taken the flag and has not come to its end. -/
def Process.Holds (s : Process) (i : ℕ) : Prop :=
  ∃ c, s.call i = some c ∧ c.found = some false ∧ ∀ outcome, c.phase ≠ .ended outcome

/-- At most one driver is alive; a call that finds the flag taken fails with `EALREADY` and
has done nothing else; without a call that holds the flag everything is as it was at the
start; and all that the slots hold was borrowed by a driver that is not dead. -/
structure Hygienic (s : Process) : Prop where
  one : ∀ i j, s.alive i = true → s.alive j = true → i = j
  refused : ∀ i c, s.call i = some c → c.found = some true →
    c.changed = false ∧ (c.phase = .running (.pure (.failed .ealready)) ∨
      c.phase = .ended (.failed .ealready))
  clear : (∀ i, ¬ s.Holds i) → s.taken = false ∧ s.statics = Statics.new
  borrows : ∀ b, s.statics.Stores b → s.Holds b.driver

/-- What a call owes when it comes to its end: a driver that holds the flag, or nothing. -/
def Outcome.Leaves (f : Features) : Outcome → Option Statics → Prop
  | .created, o => ∃ st, o = some st ∧ st.Featured f
  | .failed _, o | .dropped, o => o = none

/-- What is known of the statics that the call owns. -/
def Phase.Kept (f : Features) (i : ℕ) (o : Option Statics) : Phase → Prop
  | .running p => driverWp i p (Outcome.Leaves f) o
  | .alive => ∃ st, o = some st ∧ st.Featured f
  | .ended _ => o = none

/-- What a call that has not taken the flag can have come to. -/
def Call.Told (f : Features) (i : ℕ) (c : Call) : Prop :=
  match c.found with
  | none => c.changed = false ∧ ∃ k : Ctor, c.phase = .running (k.run f i)
  | some true => c.changed = false ∧ (c.phase = .running (.pure (.failed .ealready)) ∨
      c.phase = .ended (.failed .ealready))
  | some false => True

/-- The statics are the owner's, and each call keeps to what it owns. -/
structure Owned (f : Features) (s : Process) (owner : Option ℕ) : Prop where
  guards : Guards Statics.new Statics.Own s.taken s.statics owner
  kept : ∀ i c, s.call i = some c → c.phase.Kept f i (view owner s.statics i)
  told : ∀ i c, s.call i = some c → c.Told f i
  called : ∀ i, owner = some i → ∃ c, s.call i = some c

theorem Ctor.kept_run (f : Features) (i : ℕ) {k : Ctor} (hk : k.compiled f = true) :
    driverWp i (k.run f i) (Outcome.Leaves f) none := by
  rw [Ctor.run, driverWp, wp_bind]
  cases k with
  | new =>
    apply wp_newBle
    · exact fun _ => rfl
    · exact ⟨_, rfl, fun _ _ => rfl, fun _ => rfl⟩
  | newWithParker parker =>
    have hparker : (⟨i, parker⟩ : Borrow).driver = i := rfl
    apply wp_newWithParker hparker
    · exact fun _ => rfl
    · exact ⟨_, rfl, fun _ _ => rfl, fun _ => rfl⟩
  | newWithServices =>
    have hf : f.peripheral = true := hk
    apply wp_newWithServices hf
    · exact fun _ => rfl
    · exact ⟨_, rfl, fun _ _ => rfl, by simp [hf]⟩
  | newWithServicesAndParker parker =>
    have hf : f.peripheral = true := hk
    have hparker : (⟨i, parker⟩ : Borrow).driver = i := rfl
    apply wp_newWithServicesAndParker hf hparker
    · exact fun _ => rfl
    · exact ⟨_, rfl, fun _ _ => rfl, by simp [hf]⟩

theorem kept_dropRun {f : Features} {i : ℕ} {st : Statics} (hst : st.Featured f) :
    driverWp i (dropRun f) (Outcome.Leaves f) (some st) := by
  rw [dropRun, driverWp, wp_bind]
  exact wp_dropBle hst rfl

/-- Every constructor begins with the swap, and finding the flag taken ends it. -/
theorem Ctor.run_eq (f : Features) (i : ℕ) (k : Ctor) :
    ∃ next, k.run f i = .swap true next ∧ next true = .pure (.failed .ealready) := by
  cases k <;> exact ⟨_, rfl, rfl⟩

theorem Outcome.Leaves.phase {f : Features} {i : ℕ} {o : Option Statics} {outcome : Outcome}
    (h : outcome.Leaves f o) : outcome.phase.Kept f i o := by
  cases outcome <;> exact h

theorem Call.Told.finish {f : Features} {i : ℕ} {c : Call} (h : c.Told f i) {outcome : Outcome}
    (hphase : c.phase = .running (.pure outcome)) :
    Call.Told f i { c with phase := outcome.phase } := by
  obtain ⟨phase, found, changed⟩ := c
  obtain rfl : phase = .running (.pure outcome) := hphase
  match found, h with
  | none, ⟨_, k, hk⟩ =>
    obtain ⟨next, hrun, -⟩ := k.run_eq f i
    rw [hrun] at hk
    cases hk
  | some true, ⟨hchanged, hk⟩ =>
    obtain hk | hk := hk
    · cases hk
      exact ⟨hchanged, .inr rfl⟩
    · cases hk
  | some false, _ => trivial

theorem Call.Told.step {f : Features} {i : ℕ} {c : Call} (h : c.Told f i)
    {p : DriverProg Outcome} (hphase : c.phase = .running p) {taken : Bool} {st : Statics}
    {rc : ℤ} {r : Prog.After Write CFn Outcome Statics}
    (hstep : p.step Write.apply taken st rc = some r) :
    Call.Told f i ⟨.running r.prog, c.found <|> p.finds taken, c.changed || p.changes taken⟩ := by
  obtain ⟨phase, found, changed⟩ := c
  obtain rfl : phase = .running p := hphase
  match found, h with
  | none, ⟨hchanged, k, hk⟩ =>
    obtain ⟨next, hrun, hnext⟩ := k.run_eq f i
    obtain rfl : p = .swap true next := by
      cases hk
      exact hrun
    obtain rfl := Option.some.inj hstep
    obtain rfl : changed = false := hchanged
    cases taken with
    | true => exact ⟨rfl, .inl (by rw [hnext])⟩
    | false => trivial
  | some true, ⟨_, hk⟩ =>
    obtain hk | hk := hk
    · cases hk
      simp [Prog.step] at hstep
    · cases hk
  | some false, _ => trivial

/-- A call that owns the statics has not failed and has not ended. -/
theorem Phase.Kept.held {f : Features} {i : ℕ} {st : Statics} {phase : Phase}
    (h : phase.Kept f i (some st)) :
    phase ≠ .running (.pure (.failed .ealready)) ∧ ∀ outcome, phase ≠ .ended outcome := by
  constructor
  · rintro rfl
    exact absurd (show some st = none from h) (by simp)
  · rintro outcome rfl
    exact absurd (show some st = none from h) (by simp)

/-- A call returns what it has come to, or makes its next access. -/
theorem Process.advance_cases {s s' : Process} {i : ℕ} {c : Call} {p : DriverProg Outcome} {rc : ℤ}
    (hstep : s.advance i c p rc = some s') :
    (∃ outcome, p = .pure outcome ∧ s' = { s with
        call := Function.update s.call i (some { c with phase := outcome.phase }) }) ∨
      ∃ r, p.step Write.apply s.taken s.statics rc = some r ∧ s' = ⟨r.flag, r.state,
        Function.update s.call i (some ⟨.running r.prog, c.found <|> p.finds s.taken,
          c.changed || p.changes s.taken⟩)⟩ := by
  unfold Process.advance at hstep
  cases hresult : p.result with
  | some outcome =>
    left
    simp only [hresult, Option.some.injEq] at hstep
    exact ⟨outcome, Prog.result_eq_some hresult, hstep.symm⟩
  | none =>
    right
    simp only [hresult, Option.map_eq_some_iff] at hstep
    obtain ⟨r, hr, rfl⟩ := hstep
    exact ⟨r, hr, rfl⟩

namespace Owned

variable {f : Features} {s : Process} {owner : Option ℕ} {i : ℕ}

theorem start (f : Features) : Owned f Process.start none where
  guards := ⟨rfl, fun _ => rfl, by simp⟩
  kept := by simp [Process.start]
  told := by simp [Process.start]
  called := by simp

/-- One call goes on, and the others own what they owned. -/
theorem update (h : Owned f s owner) {taken : Bool} {st : Statics} {owner' : Option ℕ} {c : Call}
    (hguards : Guards Statics.new Statics.Own taken st owner')
    (hothers : ∀ j, j ≠ i → view owner' st j = view owner s.statics j)
    (hkept : c.phase.Kept f i (view owner' st i)) (htold : c.Told f i) :
    Owned f ⟨taken, st, Function.update s.call i (some c)⟩ owner' := by
  constructor
  case guards => exact hguards
  case kept =>
    intro j d hd
    by_cases hj : j = i
    · subst hj
      obtain rfl : c = d := by simpa using hd
      exact hkept
    · rw [hothers j hj]
      exact h.kept j d (by simpa [hj] using hd)
  case told =>
    intro j d hd
    by_cases hj : j = i
    · subst hj
      obtain rfl : c = d := by simpa using hd
      exact htold
    · exact h.told j d (by simpa [hj] using hd)
  case called =>
    rintro j rfl
    by_cases hj : j = i
    · exact ⟨c, by simp [hj]⟩
    · have hview : view owner s.statics j = some st := by
        rw [← hothers j hj, view_self]
      obtain ⟨d, hd⟩ := h.called j (view_eq_some.mp hview).1
      exact ⟨d, by simpa [hj] using hd⟩

/-- A call that has not returned gets on. -/
theorem update_phase (h : Owned f s owner) {c : Call}
    (hkept : c.phase.Kept f i (view owner s.statics i)) (htold : c.Told f i) :
    Owned f { s with call := Function.update s.call i (some c) } owner :=
  h.update h.guards (fun _ _ => rfl) hkept htold

theorem advance (h : Owned f s owner) {c : Call} (hc : s.call i = some c)
    {p : DriverProg Outcome} (hphase : c.phase = .running p) {rc : ℤ} {s' : Process}
    (hstep : s.advance i c p rc = some s') : ∃ owner', Owned f s' owner' := by
  have hkept : driverWp i p (Outcome.Leaves f) (view owner s.statics i) := by
    have hkept := h.kept i c hc
    rwa [hphase] at hkept
  obtain ⟨outcome, rfl, rfl⟩ | ⟨r, hr, rfl⟩ := Process.advance_cases hstep
  · exact ⟨owner, h.update_phase (Outcome.Leaves.phase hkept) ((h.told i c hc).finish hphase)⟩
  · have hwrite : ∀ j w st, Write.mine j w → Statics.Own j st → Statics.Own j (w.apply st) :=
      fun j w st hmine hown => hown.apply hmine
    obtain ⟨owner', hguards, hnext, hothers⟩ :=
      wp_step Statics.own_new hwrite h.guards hkept hr
    exact ⟨owner', h.update hguards hothers hnext ((h.told i c hc).step hphase hr)⟩

theorem alive_iff : s.alive i = true ↔ ∃ c, s.call i = some c ∧ c.phase = .alive := by
  unfold Process.alive
  constructor
  · intro halive
    split at halive
    next found changed hc => exact ⟨_, hc, rfl⟩
    next => simp at halive
  · rintro ⟨⟨phase, found, changed⟩, hc, rfl⟩
    simp [hc]

/-- A driver that lives owns the statics. -/
theorem of_alive (h : Owned f s owner) (halive : s.alive i = true) :
    owner = some i ∧ s.statics.Featured f := by
  obtain ⟨c, hc, hphase⟩ := alive_iff.mp halive
  have hkept := h.kept i c hc
  rw [hphase] at hkept
  obtain ⟨st, hst, hfeatured⟩ := hkept
  obtain ⟨howner, rfl⟩ := view_eq_some.mp hst
  exact ⟨howner, hfeatured⟩

/-- Only a call that has found the flag clear can own the statics. -/
theorem holds_of_owner (h : Owned f s (some i)) : s.Holds i := by
  obtain ⟨c, hc⟩ := h.called i rfl
  have hkept := h.kept i c hc
  have htold := h.told i c hc
  rw [view_self] at hkept
  obtain ⟨hrunning, hended⟩ := hkept.held
  refine ⟨c, hc, ?_, hended⟩
  unfold Call.Told at htold
  cases hfound : c.found with
  | none =>
    simp only [hfound] at htold
    obtain ⟨-, k, hphase⟩ := htold
    obtain ⟨next, hrun, -⟩ := k.run_eq f i
    rw [hphase, hrun] at hkept
    exact absurd hkept.1 (by simp)
  | some b =>
    cases b with
    | false => rfl
    | true =>
      simp only [hfound] at htold
      obtain ⟨-, hphase | hphase⟩ := htold
      · exact absurd hphase hrunning
      · exact absurd hphase (hended _)

/-- A live driver fills or empties a slot. -/
theorem setSlot (h : Owned f s owner) (halive : s.alive i = true) {sl : Slot}
    (hsl : sl.compiled f = true) {callback : Option Borrow}
    (hmine : (Write.slot sl callback).mine i) :
    Owned f { s with statics := (Write.slot sl callback).apply s.statics } owner := by
  obtain ⟨rfl, hfeatured⟩ := h.of_alive halive
  obtain ⟨c, hc, hphase⟩ := alive_iff.mp halive
  constructor
  case guards =>
    refine ⟨h.guards.flag_eq, by simp, fun j hj => ?_⟩
    obtain rfl := Option.some.inj hj
    exact (h.guards.owned i rfl).apply hmine
  case kept =>
    intro j d hd
    by_cases hj : j = i
    · subst hj
      obtain rfl := Option.some.inj (hc.symm.trans hd)
      rw [hphase, view_self]
      refine ⟨_, rfl, fun r hr => ?_, hfeatured.gattsRegisterCb⟩
      have hne : r ≠ sl := by
        rintro rfl
        rw [hsl] at hr
        exact absurd hr (by simp)
      simpa [Write.apply, hne] using hfeatured.slot r hr
    · have hkept := h.kept j d hd
      rw [view_eq_none.mpr (fun he => hj (Option.some.inj he).symm)] at hkept ⊢
      exact hkept
  case told => exact h.told
  case called => exact h.called

theorem hygienic (h : Owned f s owner) : Hygienic s := by
  constructor
  case one =>
    intro i j hi hj
    obtain ⟨rfl, -⟩ := h.of_alive hi
    exact Option.some.inj (h.of_alive hj).1
  case refused =>
    intro i c hc hfound
    have htold := h.told i c hc
    unfold Call.Told at htold
    simpa only [hfound] using htold
  case clear =>
    intro hnone
    have howner : owner = none := by
      cases owner with
      | none => rfl
      | some i => exact absurd h.holds_of_owner (hnone i)
    subst howner
    exact ⟨h.guards.flag_eq, h.guards.clear_of_none rfl⟩
  case borrows =>
    intro b hb
    cases owner with
    | none =>
      rw [h.guards.clear_of_none rfl] at hb
      obtain hb | ⟨sl, hb⟩ := hb
      · simp [Statics.new] at hb
      · simp [Statics.new] at hb
    | some i =>
      rw [h.guards.owned i rfl b hb]
      exact h.holds_of_owner

theorem step (h : Owned f s owner) {a : ProcessStep} {s' : Process}
    (hstep : processStep f s a = some s') : ∃ owner', Owned f s' owner' := by
  cases a with
  | construct i k =>
    simp only [processStep, Option.ite_none_right_eq_some, Bool.and_eq_true,
      Option.isNone_iff_eq_none, Option.some.injEq] at hstep
    obtain ⟨⟨hnone, hk⟩, rfl⟩ := hstep
    have hview : view owner s.statics i = none := by
      apply view_eq_none.mpr
      rintro rfl
      obtain ⟨c, hc⟩ := h.called i rfl
      exact absurd (hnone.symm.trans hc) (by simp)
    refine ⟨owner, h.update_phase ?_ ⟨rfl, k, rfl⟩⟩
    rw [hview]
    exact k.kept_run f i hk
  | step i rc =>
    simp only [processStep] at hstep
    split at hstep
    next p found changed hc => exact h.advance hc rfl hstep
    next => simp at hstep
  | subscribe i sl callback =>
    simp only [processStep, Option.ite_none_right_eq_some, Bool.and_eq_true,
      Option.some.injEq] at hstep
    obtain ⟨⟨halive, hsl⟩, rfl⟩ := hstep
    exact ⟨owner, h.setSlot halive hsl (by simp [Write.mine])⟩
  | unsubscribe i sl =>
    simp only [processStep, Option.ite_none_right_eq_some, Bool.and_eq_true,
      Option.some.injEq] at hstep
    obtain ⟨⟨⟨halive, hsl⟩, -⟩, rfl⟩ := hstep
    exact ⟨owner, h.setSlot halive hsl (by simp [Write.mine])⟩
  | drop i =>
    simp only [processStep] at hstep
    split at hstep
    next found changed hc =>
      obtain rfl := Option.some.inj hstep
      obtain ⟨rfl, hfeatured⟩ := h.of_alive (alive_iff.mpr ⟨_, hc, rfl⟩)
      have htold := h.told i _ hc
      refine ⟨some i, h.update_phase ?_ ?_⟩
      · rw [view_self]
        exact kept_dropRun hfeatured
      · rcases found with _ | _ | _
        · obtain ⟨-, k, hk⟩ := htold
          cases hk
        · trivial
        · exact absurd htold.2 (by simp)
    next => simp at hstep

end Owned

/-- A step of a call that counts as having changed nothing leaves the statics alone. -/
theorem unchanged_of_changed {f : Features} {s s' : Process} {i : ℕ} {rc : ℤ} {c : Call}
    (hstep : processStep f s (.step i rc) = some s') (hc : s'.call i = some c)
    (hchanged : c.changed = false) : s'.taken = s.taken ∧ s'.statics = s.statics := by
  simp only [processStep] at hstep
  split at hstep
  next p found changed _ =>
    obtain ⟨outcome, -, rfl⟩ | ⟨r, hr, rfl⟩ := Process.advance_cases hstep
    · exact ⟨rfl, rfl⟩
    · obtain rfl := Option.some.inj ((Function.update_self i _ s.call).symm.trans hc)
      exact Prog.step_of_not_changes hr (Bool.or_eq_false_iff.mp hchanged).2
  next => simp at hstep

/-- Constructors, subscriptions and drops in any order and interleaving: one driver at most,
those that find it there change nothing, and nothing is left behind by those that are gone. -/
theorem driver_lifecycle_hygienic (f : Features) (steps : List ProcessStep) :
    Always (processStep f) Hygienic Process.start steps ∧
      ∀ s s' i rc c, processStep f s (.step i rc) = some s' → s'.call i = some c →
        c.changed = false → s'.taken = s.taken ∧ s'.statics = s.statics := by
  have hstep : ∀ s a s', (∃ owner, Owned f s owner) → processStep f s a = some s' →
      ∃ owner, Owned f s' owner := by
    rintro s a s' ⟨owner, h⟩ ha
    exact h.step ha
  constructor
  · exact always_of_step hstep (fun s ⟨owner, h⟩ => h.hygienic) steps ⟨none, Owned.start f⟩
  · exact fun s s' i rc c => unchanged_of_changed

/-- While driver 0 lives a second constructor fails. -/
example : (run (processStep ⟨true, true, true⟩) Process.start
    (.construct 0 (.newWithParker 7) :: List.replicate 15 (.step 0 0) ++
      [.subscribe 0 .gap 3, .construct 1 .newWithServices, .step 1 0, .step 1 0])).map
    (fun s => (s.alive 0, s.alive 1, s.taken)) = some (true, false, true) := by decide

end NimbleRs.Ble
