import NimbleRs.Events
import NimbleRs.PortLifecycle
import Mathlib.Tactic

/-!
# Hooks and the drivers that they are borrowed by

Any number of contexts in calls of a driver's methods, the C host that calls back from inside
them, the hooks that it reaches and what they call in turn, next to constructors and drops. A
method holds a shared borrow of its driver, so that it is neither dropped nor forgotten
meanwhile. A function that takes no driver lets the host call back as well, and what keeps the
driver there is up to its callers.
-/
namespace NimbleRs.Ble
open FlagGuard TransitionSystem

/-- What a context is in the midst of. -/
inductive Frame
  | method (driver : ℕ)
  /-- `inject_io`, or `drain_events` for a test harness. -/
  | freeFn
  | hook (hook : Borrow) (event : HookEvent) (result : ℤ → ℤ)

namespace Frame

def isHook : Frame → Bool
  | hook .. => true
  | _ => false

def borrows (i : ℕ) : Frame → Bool
  | method driver => driver = i
  | _ => false

def isFreeFn : Frame → Bool
  | freeFn => true
  | _ => false

end Frame

variable {Ctx : Type*} [DecidableEq Ctx]

/-- The frames of all contexts, the newest first; a constructor or a drop is a context by the
number of its call. -/
structure Running (Ctx : Type*) where
  process : Process
  /-- The drivers that were leaked, whose borrows have ended. -/
  forgotten : ℕ → Bool
  frames : List ((Ctx ⊕ ℕ) × Frame)
  /-- What the C host was told about the events. -/
  returned : List (HookEvent × ℤ)
  undefined : Bool

inductive RunningStep (Ctx : Type*)
  | process (a : ProcessStep)
  | forget (driver : ℕ)
  | method (c : Ctx) (driver : ℕ)
  | freeFn (c : Ctx)
  | callback (x : Ctx ⊕ ℕ) (call : Callback)
  | ret (x : Ctx ⊕ ℕ) (n : ℤ)

namespace Running

def start : Running Ctx := ⟨Process.start, fun _ => false, [], [], false⟩

def lives (s : Running Ctx) (i : ℕ) : Bool := s.process.alive i && !s.forgotten i

/-- No context is in a method of the driver. -/
def unborrowed (s : Running Ctx) (i : ℕ) : Bool := s.frames.all fun e => !e.2.borrows i

def top (s : Running Ctx) (x : Ctx ⊕ ℕ) : Option Frame :=
  (s.frames.find? fun e => e.1 = x).map Prod.snd

def push (s : Running Ctx) (x : Ctx ⊕ ℕ) (frame : Frame) : Running Ctx :=
  { s with frames := (x, frame) :: s.frames }

def pop (s : Running Ctx) (x : Ctx ⊕ ℕ) : Running Ctx :=
  { s with frames := s.frames.eraseP fun e => e.1 = x }

/-- The context runs Rust code, which can call a method. -/
def inRust (s : Running Ctx) (c : Ctx) : Bool :=
  match s.top (.inl c) with
  | none => true
  | some frame => frame.isHook

/-- The context runs code of the C host, which can call back. -/
def inHost (s : Running Ctx) : Ctx ⊕ ℕ → Bool
  | .inl c =>
    match s.top (.inl c) with
    | none => false
    | some frame => !frame.isHook
  | .inr i =>
    match s.top (.inr i) with
    | none => (s.process.calling i).isSome
    | some _ => false

/-- A constructor or a drop waits for the hook that it has come to call, a drop has the driver
to itself, and nothing is done with one that was leaked. -/
def allows (s : Running Ctx) : ProcessStep → Bool
  | .construct .. => true
  | .step i _ => s.frames.all fun e => e.1 ≠ .inr i
  | .subscribe i .. | .unsubscribe i _ => !s.forgotten i
  | .drop i => !s.forgotten i && s.unborrowed i

def callback (f : EventFeatures) (s : Running Ctx) (x : Ctx ⊕ ℕ) (call : Callback) :
    Running Ctx :=
  match dispatch f s.process.statics.slot call with
  | .undefined => { s with undefined := true }
  | .returns _ => s
  | .calls hook event result => s.push x (.hook hook event result)

end Running

def runningStep (f : EventFeatures) (s : Running Ctx) : RunningStep Ctx → Option (Running Ctx)
  | .process a =>
    if s.allows a then
      (processStep f.toFeatures s.process a).map fun process => { s with process := process }
    else none
  | .forget i =>
    if s.lives i && s.unborrowed i then
      some { s with forgotten := Function.update s.forgotten i true }
    else none
  | .method c driver =>
    if s.lives driver && s.inRust c then some (s.push (.inl c) (.method driver)) else none
  | .freeFn c => if s.inRust c then some (s.push (.inl c) .freeFn) else none
  | .callback x call => if s.inHost x && call.compiled f then some (s.callback f x call) else none
  | .ret x n =>
    match s.top x with
    | some (.hook _ event result) =>
      some { s.pop x with returned := s.returned ++ [(event, result n)] }
    | some _ => some (s.pop x)
    | none => none

/-- A hook that runs was borrowed by a driver that lives and was not leaked, and no constructor
or drop has called it; the events are made of what the host has written; and only the hooks
that have a say are heard. -/
structure HooksAlive (s : Running Ctx) : Prop where
  alive : ∀ x hook event result, (x, .hook hook event result) ∈ s.frames →
    s.lives hook.driver = true
  called : ∀ i frame, (.inr i, frame) ∉ s.frames
  defined : s.undefined = false
  returned : ∀ e ∈ s.returned, e.1.replies = false → e.2 = 0

/-- The events of the host are well formed, and a function that takes no driver is called while
one lives that is neither dropped nor leaked before it has returned. -/
def KeepsAlive (s : Running Ctx) : RunningStep Ctx → Prop
  | .freeFn _ => ∃ i, s.lives i = true
  | .process (.drop _) | .forget _ => ∀ e ∈ s.frames, e.2.isFreeFn = false
  | .callback _ call => call.WellFormed
  | _ => True

/-- What a hook needs of the older frames. -/
def Supported (x : Ctx ⊕ ℕ) (older : List ((Ctx ⊕ ℕ) × Frame)) : Frame → Prop
  | .hook hook event result => ((x, .method hook.driver) ∈ older ∨ (x, .freeFn) ∈ older) ∧
      (event.replies = false → ∀ n, result n = 0)
  | _ => True

def StackOk : List ((Ctx ⊕ ℕ) × Frame) → Prop
  | [] => True
  | (x, frame) :: older => Supported x older frame ∧ StackOk older

section Stack
variable {x : Ctx ⊕ ℕ} {frames : List ((Ctx ⊕ ℕ) × Frame)}

/-- The newest frame of another context supports nothing. -/
theorem Supported.eraseP {y : Ctx ⊕ ℕ} {frame : Frame} (h : Supported y frames frame)
    (hne : y ≠ x) : Supported y (frames.eraseP fun e => e.1 = x) frame := by
  have hmem : ∀ fr : Frame, (y, fr) ∈ frames → (y, fr) ∈ frames.eraseP fun e => e.1 = x :=
    fun fr hfr => (List.mem_eraseP_of_neg (by simpa using hne)).mpr hfr
  cases frame with
  | hook hook event result => exact ⟨h.1.imp (hmem _) (hmem _), h.2⟩
  | _ => trivial

theorem StackOk.eraseP (h : StackOk frames) : StackOk (frames.eraseP fun e => e.1 = x) := by
  induction frames with
  | nil => exact h
  | cons e frames ih =>
    obtain ⟨y, frame⟩ := e
    obtain ⟨hframe, hframes⟩ := h
    by_cases hy : y = x
    · rw [List.eraseP_cons_of_pos (by simpa using hy)]
      exact hframes
    · rw [List.eraseP_cons_of_neg (by simpa using hy)]
      exact ⟨hframe.eraseP hy, ih hframes⟩

omit [DecidableEq Ctx] in
theorem StackOk.supported (h : StackOk frames) {frame : Frame} (hmem : (x, frame) ∈ frames) :
    ∃ older, (∀ e ∈ older, e ∈ frames) ∧ Supported x older frame := by
  induction frames with
  | nil => exact absurd hmem (by simp)
  | cons e frames ih =>
    obtain ⟨hframe, hframes⟩ := h
    obtain rfl | hmem := List.mem_cons.mp hmem
    · exact ⟨frames, fun e he => List.mem_cons_of_mem _ he, hframe⟩
    · obtain ⟨older, hsub, holder⟩ := ih hframes hmem
      exact ⟨older, fun e he => List.mem_cons_of_mem _ (hsub e he), holder⟩

end Stack

/-- The call that a step is of. -/
def ProcessStep.touches : ProcessStep → Option ℕ
  | .construct i _ | .step i _ | .drop i => some i
  | .subscribe .. | .unsubscribe .. => none

section Process
variable {f : Features} {p p' : Process} {a : ProcessStep} {i : ℕ}

/-- A step leaves the other calls as they are. -/
theorem call_of_processStep (hstep : processStep f p a = some p') (hi : a.touches ≠ some i) :
    p'.call i = p.call i := by
  cases a with
  | construct j c =>
    have hj : i ≠ j := fun h => hi (congrArg some h.symm)
    simp only [processStep, Option.ite_none_right_eq_some, Option.some.injEq] at hstep
    rw [← hstep.2]
    exact Function.update_of_ne hj _ _
  | step j rc =>
    have hj : i ≠ j := fun h => hi (congrArg some h.symm)
    simp only [processStep] at hstep
    split at hstep
    next =>
      obtain ⟨outcome, -, rfl⟩ | ⟨r, -, rfl⟩ := Process.advance_cases hstep
      · exact Function.update_of_ne hj _ _
      · exact Function.update_of_ne hj _ _
    next => exact absurd hstep (by simp)
  | subscribe j sl callback =>
    simp only [processStep, Option.ite_none_right_eq_some, Option.some.injEq] at hstep
    rw [← hstep.2]
  | unsubscribe j sl =>
    simp only [processStep, Option.ite_none_right_eq_some, Option.some.injEq] at hstep
    rw [← hstep.2]
  | drop j =>
    have hj : i ≠ j := fun h => hi (congrArg some h.symm)
    simp only [processStep] at hstep
    split at hstep
    next =>
      rw [← Option.some.inj hstep]
      exact Function.update_of_ne hj _ _
    next => exact absurd hstep (by simp)

/-- Only its drop ends a driver that lives. -/
theorem alive_of_processStep (hstep : processStep f p a = some p') (hdrop : a ≠ .drop i)
    (halive : p.alive i = true) : p'.alive i = true := by
  obtain ⟨c, hc, hphase⟩ := Owned.alive_iff.mp halive
  have hi : a.touches ≠ some i := by
    intro htouches
    cases a with
    | construct j k =>
      obtain rfl := Option.some.inj htouches
      simp [processStep, hc] at hstep
    | step j rc =>
      obtain rfl := Option.some.inj htouches
      obtain ⟨phase, found, changed⟩ := c
      obtain rfl : phase = .alive := hphase
      simp [processStep, hc] at hstep
    | drop j => exact hdrop (congrArg _ (Option.some.inj htouches))
    | _ => exact absurd htouches (by simp [ProcessStep.touches])
  exact Owned.alive_iff.mpr ⟨c, (call_of_processStep hstep hi).trans hc, hphase⟩

theorem Owned.driver_of_slot (h : Owned f p (some i)) {sl : Slot} {hook : Borrow}
    (hslot : p.statics.slot sl = some hook) : hook.driver = i :=
  h.guards.owned i rfl hook (.inr ⟨sl, hslot⟩)

end Process

/-- What keeps the drivers alive whose hooks are on the stacks. -/
structure Nested (f : EventFeatures) (s : Running Ctx) : Prop where
  owned : ∃ owner, Owned f.toFeatures s.process owner
  ordered : ∃ k, s.process.Ordered k
  stack : StackOk s.frames
  methods : ∀ x i, (x, .method i) ∈ s.frames → s.lives i = true
  freeFns : ∀ x, (x, .freeFn) ∈ s.frames → ∃ i, s.lives i = true
  hooks : ∀ x hook event result, (x, .hook hook event result) ∈ s.frames →
    s.lives hook.driver = true
  called : ∀ i frame, (.inr i, frame) ∉ s.frames
  defined : s.undefined = false
  returned : ∀ e ∈ s.returned, e.1.replies = false → e.2 = 0

namespace Nested

variable {f : EventFeatures} {s s' : Running Ctx} {i : ℕ}

omit [DecidableEq Ctx] in
theorem start : Nested f (Running.start : Running Ctx) where
  owned := ⟨none, Owned.start f.toFeatures⟩
  ordered := ⟨.down, .start⟩
  stack := trivial
  methods := by simp [Running.start]
  freeFns := by simp [Running.start]
  hooks := by simp [Running.start]
  called := by simp [Running.start]
  defined := rfl
  returned := by simp [Running.start]

omit [DecidableEq Ctx] in
theorem hooksAlive (h : Nested f s) : HooksAlive s :=
  ⟨h.hooks, h.called, h.defined, h.returned⟩

omit [DecidableEq Ctx] in
theorem not_borrows (hfree : s.unborrowed i = true) {x : Ctx ⊕ ℕ} :
    (x, .method i) ∉ s.frames := by
  intro hmem
  have hmethod := List.all_eq_true.mp hfree _ hmem
  simp [Frame.borrows] at hmethod

omit [DecidableEq Ctx] in
/-- A driver is not given up inside of one of its methods and while a free function runs. -/
theorem not_hook (h : Nested f s) (hfree : s.unborrowed i = true)
    (hfreeFn : ∀ e ∈ s.frames, e.2.isFreeFn = false) {x : Ctx ⊕ ℕ} {hook : Borrow}
    {event : HookEvent} {result : ℤ → ℤ} (hmem : (x, .hook hook event result) ∈ s.frames) :
    hook.driver ≠ i := by
  rintro rfl
  obtain ⟨older, hsub, hbelow | hbelow, -⟩ := h.stack.supported hmem
  · exact not_borrows hfree (hsub _ hbelow)
  · exact absurd (hfreeFn _ (hsub _ hbelow)) (by simp [Frame.isFreeFn])

omit [DecidableEq Ctx] in
/-- The drivers that the frames need live on. -/
theorem keep (h : Nested f s) {p : Process} {forgotten : ℕ → Bool}
    (howned : ∃ owner, Owned f.toFeatures p owner) (hordered : ∃ k, p.Ordered k)
    (hlives : ∀ j, s.lives j = true →
      (p.alive j && !forgotten j) = true ∨ s.unborrowed j = true ∧
        ∀ e ∈ s.frames, e.2.isFreeFn = false) :
    Nested f { s with process := p, forgotten := forgotten } where
  owned := howned
  ordered := hordered
  stack := h.stack
  methods := by
    intro x j hmem
    obtain hj | ⟨hfree, -⟩ := hlives j (h.methods x j hmem)
    · exact hj
    · exact absurd hmem (not_borrows hfree)
  freeFns := by
    intro x hmem
    obtain ⟨j, hj⟩ := h.freeFns x hmem
    obtain hj | ⟨-, hfreeFn⟩ := hlives j hj
    · exact ⟨j, hj⟩
    · exact absurd (hfreeFn _ hmem) (by simp [Frame.isFreeFn])
  hooks := by
    intro x hook event result hmem
    obtain hj | ⟨hfree, hfreeFn⟩ := hlives _ (h.hooks x hook event result hmem)
    · exact hj
    · exact absurd rfl (h.not_hook hfree hfreeFn hmem)
  called := h.called
  defined := h.defined
  returned := h.returned

theorem process (h : Nested f s) {a : ProcessStep} (hkeeps : KeepsAlive s (.process a))
    (hallows : s.allows a = true) {p : Process}
    (hstep : processStep f.toFeatures s.process a = some p) :
    Nested f { s with process := p } := by
  obtain ⟨owner, howned⟩ := h.owned
  obtain ⟨k, hordered⟩ := h.ordered
  refine h.keep (howned.step hstep) ⟨_, hordered.step howned hstep⟩ fun j hj => ?_
  obtain ⟨halive, hkept⟩ := Bool.and_eq_true_iff.mp hj
  by_cases hdrop : a = .drop j
  · subst hdrop
    exact .inr ⟨(Bool.and_eq_true_iff.mp hallows).2, hkeeps⟩
  · exact .inl (Bool.and_eq_true_iff.mpr ⟨alive_of_processStep hstep hdrop halive, hkept⟩)

omit [DecidableEq Ctx] in
theorem forget (h : Nested f s) (hfree : s.unborrowed i = true)
    (hkeeps : KeepsAlive s (.forget i)) :
    Nested f { s with forgotten := Function.update s.forgotten i true } := by
  refine h.keep h.owned h.ordered fun j hj => ?_
  by_cases hij : j = i
  · subst hij
    exact .inr ⟨hfree, hkeeps⟩
  · left
    simpa [hij, Running.lives] using hj

theorem top_mem {x : Ctx ⊕ ℕ} {frame : Frame} (htop : s.top x = some frame) :
    (x, frame) ∈ s.frames := by
  obtain ⟨e, he, rfl⟩ := Option.map_eq_some_iff.mp htop
  have hx : e.1 = x := by simpa using List.find?_some he
  exact hx ▸ List.mem_of_find?_eq_some he

/-- A hook that is reached from a context is one of the driver whose method the context is in,
or of the driver that lives while it is in a free function. -/
theorem of_slot (h : Nested f s) {c : Ctx} (hx : s.inHost (.inl c) = true) {sl : Slot}
    {hook : Borrow} (hslot : s.process.statics.slot sl = some hook) :
    ((.inl c, .method hook.driver) ∈ s.frames ∨ (.inl c, .freeFn) ∈ s.frames) ∧
      s.lives hook.driver = true := by
  obtain ⟨owner, howned⟩ := h.owned
  have hdriver : ∀ i, s.lives i = true → hook.driver = i := by
    intro i hlives
    obtain ⟨rfl, -⟩ := howned.of_alive (Bool.and_eq_true_iff.mp hlives).1
    exact howned.driver_of_slot hslot
  simp only [Running.inHost] at hx
  split at hx
  next => exact absurd hx (by simp)
  next frame htop =>
    have hmem := top_mem htop
    cases frame with
    | method i =>
      have hlives := h.methods _ i hmem
      obtain rfl := hdriver i hlives
      exact ⟨.inl hmem, hlives⟩
    | freeFn =>
      obtain ⟨i, hlives⟩ := h.freeFns _ hmem
      exact ⟨.inr hmem, hdriver i hlives ▸ hlives⟩
    | hook hook event result => exact absurd hx (by simp [Frame.isHook])

theorem bare_of_inHost (h : Nested f s) (hx : s.inHost (.inr i) = true) :
    s.process.statics.Bare := by
  obtain ⟨k, hordered⟩ := h.ordered
  simp only [Running.inHost] at hx
  split at hx
  next =>
    obtain ⟨fn, hfn⟩ := Option.isSome_iff_exists.mp hx
    exact (hordered.calls hfn).1
  next => exact absurd hx (by simp)

omit [DecidableEq Ctx] in
/-- A new frame on the stack of a context, with what it needs. -/
theorem push (h : Nested f s) {c : Ctx} {frame : Frame}
    (hsupported : Supported (.inl c) s.frames frame)
    (hlives : match frame with
      | .method i => s.lives i = true
      | .freeFn => ∃ i, s.lives i = true
      | .hook hook _ _ => s.lives hook.driver = true) :
    Nested f (s.push (.inl c) frame) where
  owned := h.owned
  ordered := h.ordered
  stack := ⟨hsupported, h.stack⟩
  methods := by
    intro x i hmem
    obtain heq | hmem := List.mem_cons.mp hmem
    · obtain ⟨rfl, rfl⟩ := Prod.mk.inj heq
      exact hlives
    · exact h.methods x i hmem
  freeFns := by
    intro x hmem
    obtain heq | hmem := List.mem_cons.mp hmem
    · obtain ⟨rfl, rfl⟩ := Prod.mk.inj heq
      exact hlives
    · exact h.freeFns x hmem
  hooks := by
    intro x hook event result hmem
    obtain heq | hmem := List.mem_cons.mp hmem
    · obtain ⟨rfl, rfl⟩ := Prod.mk.inj heq
      exact hlives
    · exact h.hooks x hook event result hmem
  called := by
    intro i fr hmem
    obtain heq | hmem := List.mem_cons.mp hmem
    · exact absurd (Prod.mk.inj heq).1 (by simp)
    · exact h.called i fr hmem
  defined := h.defined
  returned := h.returned

theorem pop (h : Nested f s) (x : Ctx ⊕ ℕ) : Nested f (s.pop x) where
  owned := h.owned
  ordered := h.ordered
  stack := h.stack.eraseP
  methods := fun y i hmem => h.methods y i (List.mem_of_mem_eraseP hmem)
  freeFns := fun y hmem => h.freeFns y (List.mem_of_mem_eraseP hmem)
  hooks := fun y hook event result hmem =>
    h.hooks y hook event result (List.mem_of_mem_eraseP hmem)
  called := fun i frame hmem => h.called i frame (List.mem_of_mem_eraseP hmem)
  defined := h.defined
  returned := h.returned

theorem callback (h : Nested f s) {x : Ctx ⊕ ℕ} {call : Callback} (hx : s.inHost x = true)
    (hcall : call.WellFormed) : Nested f (s.callback f x call) := by
  cases hdispatch : dispatch f s.process.statics.slot call with
  | undefined => exact absurd hdispatch (dispatch_defined hcall)
  | returns rc =>
    simp only [Running.callback, hdispatch]
    exact h
  | calls hook event result =>
    simp only [Running.callback, hdispatch]
    have hasks := dispatch_asks hdispatch
    cases x with
    | inl c =>
      obtain ⟨hbelow, hlives⟩ := h.of_slot hx hasks.slot
      exact h.push ⟨hbelow, hasks.result⟩ hlives
    | inr i =>
      have hnone := h.bare_of_inHost hx event.slot
      exact absurd (hnone.symm.trans hasks.slot) (by simp)

/-- What the host is told of a hook that returns. -/
theorem ret (h : Nested f s) {x : Ctx ⊕ ℕ} {hook : Borrow} {event : HookEvent} {result : ℤ → ℤ}
    (htop : s.top x = some (.hook hook event result)) (n : ℤ) :
    Nested f { s.pop x with returned := s.returned ++ [(event, result n)] } where
  __ := h.pop x
  returned := by
    intro e he hreplies
    obtain he | he := List.mem_append.mp he
    · exact h.returned e he hreplies
    · obtain rfl := List.mem_singleton.mp he
      obtain ⟨older, -, -, hresult⟩ := h.stack.supported (top_mem htop)
      exact hresult hreplies n

theorem step (h : Nested f s) {a : RunningStep Ctx} (hkeeps : KeepsAlive s a)
    (hstep : runningStep f s a = some s') : Nested f s' := by
  cases a with
  | process a =>
    simp only [runningStep, Option.ite_none_right_eq_some, Option.map_eq_some_iff] at hstep
    obtain ⟨hallows, p, hp, rfl⟩ := hstep
    exact h.process hkeeps hallows hp
  | forget i =>
    simp only [runningStep, Option.ite_none_right_eq_some, Bool.and_eq_true,
      Option.some.injEq] at hstep
    obtain ⟨⟨-, hfree⟩, rfl⟩ := hstep
    exact h.forget hfree hkeeps
  | method c i =>
    simp only [runningStep, Option.ite_none_right_eq_some, Bool.and_eq_true,
      Option.some.injEq] at hstep
    obtain ⟨⟨hlives, -⟩, rfl⟩ := hstep
    exact h.push trivial hlives
  | freeFn c =>
    simp only [runningStep, Option.ite_none_right_eq_some, Option.some.injEq] at hstep
    obtain ⟨-, rfl⟩ := hstep
    exact h.push trivial hkeeps
  | callback x call =>
    simp only [runningStep, Option.ite_none_right_eq_some, Bool.and_eq_true,
      Option.some.injEq] at hstep
    obtain ⟨⟨hx, -⟩, rfl⟩ := hstep
    exact h.callback hx hkeeps
  | ret x n =>
    simp only [runningStep] at hstep
    split at hstep
    next hook event result htop =>
      obtain rfl := Option.some.inj hstep
      exact h.ret htop n
    next =>
      obtain rfl := Option.some.inj hstep
      exact h.pop x
    next => exact absurd hstep (by simp)

end Nested

/-- Whatever the host calls back from inside of methods and free functions, and whatever the
hooks call in turn, no hook runs whose driver has begun to be dropped or was leaked. -/
theorem hooks_outlive_calls (f : EventFeatures) (steps : List (RunningStep Ctx))
    (hkeeps : Meets (runningStep f) KeepsAlive Running.start steps) :
    Always (runningStep f) HooksAlive Running.start steps :=
  always_of_meets (fun _ _ _ h hg ha => Nested.step h hg ha) (fun _ h => h.hooksAlive)
    Nested.start hkeeps

/-- The same with a driver that is named, which can be checked. -/
def KeepsDriver (i : ℕ) (s : Running Ctx) : RunningStep Ctx → Prop
  | .freeFn _ => s.lives i = true
  | .process (.drop _) | .forget _ => ∀ e ∈ s.frames, e.2.isFreeFn = false
  | .callback _ call => call.WellFormed
  | _ => True

instance (i : ℕ) (s : Running Ctx) : DecidablePred (KeepsDriver i s)
  | .freeFn _ => inferInstanceAs (Decidable (s.lives i = true))
  | .process (.drop _) | .forget _ =>
    inferInstanceAs (Decidable (∀ e ∈ s.frames, e.2.isFreeFn = false))
  | .callback _ call => inferInstanceAs (Decidable call.WellFormed)
  | .process (.construct ..) | .process (.step ..) | .process (.subscribe ..)
  | .process (.unsubscribe ..) | .method .. | .ret .. => .isTrue trivial

omit [DecidableEq Ctx] in
theorem KeepsDriver.keepsAlive {i : ℕ} {s : Running Ctx} {a : RunningStep Ctx}
    (h : KeepsDriver i s a) : KeepsAlive s a := by
  cases a with
  | freeFn c => exact ⟨i, h⟩
  | process a => cases a <;> exact h
  | _ => exact h

/-- A hook answers a passkey request, which calls a second hook, and a drop comes after them. -/
def passkeyRun : List (RunningStep Unit) :=
  .process (.construct 0 .new) :: List.replicate 14 (.process (.step 0 0)) ++
    [.process (.subscribe 0 .gap 3), .method () 0,
      .callback (.inl ()) (.gapEventCb ⟨.passkeyAction, .passkey 1 .input 0⟩), .freeFn (),
      .callback (.inl ()) (.gapEventCb ⟨.encChange, .encChange 0 1⟩), .ret (.inl ()) 5,
      .ret (.inl ()) 0, .ret (.inl ()) 7, .ret (.inl ()) 0, .process (.drop 0)] ++
    List.replicate 9 (.process (.step 0 0)) ++
    [.callback (.inr 0) (.gapEventCb ⟨.disconnect, .disconnect 0 1⟩)]

theorem keepsAlive_passkeyRun :
    Meets (runningStep ⟨⟨true, true, true⟩, true⟩) KeepsAlive Running.start passkeyRun :=
  meets_of_invariant (I := fun _ => True) (G := KeepsDriver 0)
    (fun _ _ _ _ _ _ => trivial) (fun _ _ _ _ h _ => h.keepsAlive) trivial (by decide)

theorem hooks_outlive_calls_of_passkey :
    Always (runningStep ⟨⟨true, true, true⟩, true⟩) HooksAlive Running.start passkeyRun ∧
      (run (runningStep ⟨⟨true, true, true⟩, true⟩) Running.start passkeyRun).map
        (fun s => s.returned.map Prod.snd) = some [5, 7] :=
  ⟨hooks_outlive_calls _ _ keepsAlive_passkeyRun, by decide⟩

/-- The hooks of a driver that was leaked are still within reach of `inject_io`. -/
example : (run (runningStep ⟨⟨true, true, true⟩, true⟩) (Running.start : Running Unit)
    (.process (.construct 0 .new) :: List.replicate 14 (.process (.step 0 0)) ++
      [.process (.subscribe 0 .gap 3), .forget 0, .freeFn (),
        .callback (.inl ()) (.gapEventCb ⟨.encChange, .encChange 0 1⟩)])).map
    (fun s => (s.frames.length, s.lives 0)) = some (2, false) := by decide

end NimbleRs.Ble
