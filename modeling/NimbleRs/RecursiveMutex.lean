import NimbleRs.Mutex
import Mathlib.Tactic

/-!
# The NPL mutex as a recursive lock

`ble_npl_mutex_pend` with any timeout and `ble_npl_mutex_release`, in any number of
contexts and in any order of the points of their waits. What each step of the machine
returns is what a call that ends in it returns. `locks` and `unlocks` count the calls
of each context that returned OK: a context holds the mutex that has locked it more
often than unlocked it.
-/
namespace NimbleRs.Npl
open TransitionSystem

/-- A contended pend. -/
structure LockWait where
  tmo : ℕ
  point : PendPoint

/-- The wait polls the pump. -/
def LockWait.pumps (w : LockWait) : Bool :=
  match w.point with
  | .waiting _ .pump => true
  | _ => false

/-- The wait checks the mutex next. -/
def LockWait.asks (w : LockWait) : Bool :=
  match w.point with
  | .waiting _ point => point.asks
  | .entered => false

structure LockRun (Ctx : Type*) where
  mutex : Mutex
  /-- The contended pends of each context, the innermost one first. -/
  frames : Ctx → List LockWait
  parking : Parking Ctx
  now : Instant
  locks : Ctx → ℕ
  unlocks : Ctx → ℕ

inductive LockStep (Ctx : Type*)
  | pend (c : Ctx) (tmo : ℕ)
  | release (c : Ctx)
  | turn (c : Ctx)
  /-- The parker returns without a wake-up, at the deadline or before. -/
  | unpark (c : Ctx)
  | wake (c : Ctx)
  | deliver (c : Ctx)
  | advance (ms : ℕ)

variable {Ctx : Type*} [DecidableEq Ctx]

namespace LockRun

def start : LockRun Ctx := ⟨⟨0, 0⟩, fun _ => [], Parking.start, 0, fun _ => 0, fun _ => 0⟩

/-- The context runs code of its own: outside of any pend, or in a pump poll. -/
def Calls (s : LockRun Ctx) (c : Ctx) : Prop := ∀ w ∈ (s.frames c).head?, w.pumps = true

instance (s : LockRun Ctx) (c : Ctx) : Decidable (s.Calls c) :=
  inferInstanceAs (Decidable (∀ w ∈ (s.frames c).head?, w.pumps = true))

/-- The context has locked the mutex more often than it has unlocked it. -/
def Holds (s : LockRun Ctx) (c : Ctx) : Prop := s.unlocks c < s.locks c

def setFrames (s : LockRun Ctx) (c : Ctx) (l : List LockWait) : LockRun Ctx :=
  { s with frames := Function.update s.frames c l }

/-- A pend of the context returns. -/
def finish (s : LockRun Ctx) (c : Ctx) (ready : Bool) (l : List LockWait) :
    LockRun Ctx × Option NplError :=
  if ready then
    ({ s with locks := Function.update s.locks c (s.locks c + 1) }.setFrames c l, some .ok)
  else (s.setFrames c l, some .timeout)

/-- The next point of the innermost wait of the context. -/
def turn (s : LockRun Ctx) (me : ℕ) (c : Ctx) (w : LockWait) (l : List LockWait) :
    Option (LockRun Ctx × Option NplError) :=
  match w.point with
  | .entered => some (s.setFrames c (⟨w.tmo, .waiting (deadline w.tmo s.now) .check⟩ :: l), none)
  | .waiting d .park => (s.parking.unpark c).map fun k =>
    ({ s with parking := k }.setFrames c (⟨w.tmo, .waiting d .check⟩ :: l), none)
  | .waiting d point =>
    let r := waitStep (fun m => tryLock m me) id (expired d s.now) point s.mutex
    match r.2 with
    | .waiting next =>
      some ({ s with mutex := r.1 }.setFrames c (⟨w.tmo, .waiting d next⟩ :: l), none)
    | .returned ready => some ({ s with mutex := r.1 }.finish c ready l)

end LockRun

/-- `ble_npl_mutex_pend` up to the wait. -/
def bleNplMutexPend (s : LockRun Ctx) (me : ℕ) (c : Ctx) (tmo : ℕ) :
    LockRun Ctx × Option NplError :=
  let r := tryLock s.mutex me
  if r.2 then { s with mutex := r.1 }.finish c true (s.frames c)
  else ({ s with mutex := r.1 }.setFrames c (⟨tmo, .entered⟩ :: s.frames c), none)

def lockStep (ids : CtxIds Ctx) (s : LockRun Ctx) :
    LockStep Ctx → Option (LockRun Ctx × Option NplError)
  | .pend c tmo => if s.Calls c then some (bleNplMutexPend s (ids.ctxId c) c tmo) else none
  | .release c =>
    if s.Calls c then
      let r := bleNplMutexRelease s.mutex (ids.ctxId c)
      if r.2 = .ok then
        some ({ s with
          mutex := r.1, unlocks := Function.update s.unlocks c (s.unlocks c + 1) }, some .ok)
      else some ({ s with mutex := r.1 }, some r.2)
    else none
  | .turn c =>
    match s.frames c with
    | [] => none
    | w :: l => s.turn (ids.ctxId c) c w l
  | .unpark c =>
    match s.frames c with
    | ⟨tmo, .waiting d .park⟩ :: l =>
      some (s.setFrames c (⟨tmo, .waiting d .check⟩ :: l), none)
    | _ => none
  | .wake c => some ({ s with parking := s.parking.wake c }, none)
  | .deliver c => (s.parking.deliver c).map fun k => ({ s with parking := k }, none)
  | .advance ms => some ({ s with now := s.now + ms }, none)

/-- At most one context holds the mutex; it is the owner, and the count is its locks less
its unlocks. Both were equal in number when it last acquired the mutex. -/
inductive OwnedBy (ids : CtxIds Ctx) (s : LockRun Ctx) : Prop
  | free (owner : s.mutex.owner = 0) (count : s.mutex.count = 0)
      (nobody : ∀ c, s.locks c = s.unlocks c)
  | held (c : Ctx) (owner : s.mutex.owner = ids.ctxId c) (holds : s.Holds c)
      (count : s.mutex.count + s.unlocks c = s.locks c)
      (others : ∀ d, d ≠ c → s.locks d = s.unlocks d)

/-- What the calls return and when they leave the mutex alone: only a holder's release
succeeds, a pend of the holder or of a free mutex succeeds at once and so does the next check
of a wait that finds it free, and a pend changes nothing unless it succeeds. -/
def Answers (ids : CtxIds Ctx) (s : LockRun Ctx) (a : LockStep Ctx) : Prop :=
  ∀ s' r, lockStep ids s a = some (s', r) →
    match a with
    | .pend c _ => (s.Holds c ∨ (∀ d, ¬ s.Holds d) → r = some .ok ∧ s'.frames = s.frames) ∧
      (r ≠ some .ok → s'.mutex = s.mutex)
    | .turn c =>
      ((∀ d, ¬ s.Holds d) → (∃ w ∈ (s.frames c).head?, w.asks = true) → r = some .ok) ∧
        (r ≠ some .ok → s'.mutex = s.mutex)
    | .release c => (s.Holds c → r = some .ok) ∧
      (¬ s.Holds c → r = some .invalidParam ∧ s' = s)
    | _ => s'.mutex = s.mutex

/-- A pend nests less than 2^32 deep. -/
def NestsBelow (s : LockRun Ctx) : LockStep Ctx → Prop
  | .pend c _ | .turn c => s.locks c + 1 < s.unlocks c + 2 ^ 32
  | _ => True

theorem tryLock_cases (m : Mutex) (me : ℕ) :
    (m.owner = 0 ∧ tryLock m me = (⟨me, 1⟩, true)) ∨
      (m.owner = me ∧ m.owner ≠ 0 ∧
        tryLock m me = (⟨m.owner, (m.count + 1) % 2 ^ 32⟩, true)) ∨
      (m.owner ≠ 0 ∧ m.owner ≠ me ∧ tryLock m me = (m, false)) := by
  unfold tryLock
  by_cases hfree : m.owner = 0
  · left
    rw [if_pos hfree]
    exact ⟨hfree, rfl⟩
  · right
    rw [if_neg hfree]
    by_cases hme : m.owner = me
    · left
      rw [if_pos hme]
      exact ⟨hme, hfree, rfl⟩
    · right
      rw [if_neg hme]
      exact ⟨hfree, hme, rfl⟩

/-- What a step that leaves the locks and the mutex alone returns. -/
def Idle (s s' : LockRun Ctx) (r : Option NplError) : Prop :=
  r ≠ some .ok ∧ s'.mutex = s.mutex ∧ s'.locks = s.locks ∧ s'.unlocks = s.unlocks

/-- What a pend does that gets the mutex. -/
def Locks (ids : CtxIds Ctx) (c : Ctx) (s s' : LockRun Ctx) (r : Option NplError) : Prop :=
  r = some .ok ∧ (tryLock s.mutex (ids.ctxId c)).2 = true ∧
    s'.mutex = (tryLock s.mutex (ids.ctxId c)).1 ∧
    s'.locks = Function.update s.locks c (s.locks c + 1) ∧ s'.unlocks = s.unlocks

/-- One point of a wait that does not sleep: a check that succeeds locks the mutex, and
all else leaves it alone. -/
theorem waitStep_lock_cases (m : Mutex) (me : ℕ) (late : Bool) (point : WaitPoint) :
    ((tryLock m me).2 = true ∧
        waitStep (fun m => tryLock m me) id late point m = ((tryLock m me).1, .returned true)) ∨
      ∃ status, status ≠ .returned true ∧ (point.asks = true → (tryLock m me).2 = false) ∧
        waitStep (fun m => tryLock m me) id late point m = (m, status) := by
  have hnot : point.next false late ≠ .returned true := by
    intro h
    exact absurd (next_returned_true h).2 Bool.false_ne_true
  obtain ⟨-, hlock, heq⟩ | ⟨-, hlock, heq⟩ | ⟨hasks, heq⟩ :=
    waitStep_cases (fun m => tryLock m me) id late point m
  · left
    exact ⟨hlock, heq⟩
  · right
    refine ⟨_, hnot, fun _ => hlock, ?_⟩
    rw [heq, (tryLock_held hlock).1]
  · right
    refine ⟨_, hnot, fun h => absurd (h.symm.trans hasks) (by simp), ?_⟩
    rw [heq]
    simp

/-- A turn of a wait locks the mutex or leaves it alone, a check only when it is held. -/
theorem turn_cases {ids : CtxIds Ctx} {s s' : LockRun Ctx} {c : Ctx} {w : LockWait}
    {l : List LockWait} {r : Option NplError}
    (hstep : s.turn (ids.ctxId c) c w l = some (s', r)) :
    (Idle s s' r ∧ (w.asks = true → (tryLock s.mutex (ids.ctxId c)).2 = false)) ∨
      Locks ids c s s' r := by
  cases hw : w.point with
  | entered =>
    left
    simp only [LockRun.turn, hw, Option.some.injEq, Prod.mk.injEq] at hstep
    obtain ⟨rfl, rfl⟩ := hstep
    exact ⟨⟨by simp, rfl, rfl, rfl⟩, by simp [LockWait.asks, hw]⟩
  | waiting d point =>
    by_cases hpark : point = .park
    · left
      subst hpark
      simp only [LockRun.turn, hw] at hstep
      obtain ⟨k, -, heq⟩ := Option.map_eq_some_iff.mp hstep
      obtain ⟨rfl, rfl⟩ := Prod.mk.inj heq
      exact ⟨⟨by simp, rfl, rfl, rfl⟩, by simp [LockWait.asks, hw, WaitPoint.asks]⟩
    · have hasks : w.asks = point.asks := by simp [LockWait.asks, hw]
      have hturn : s.turn (ids.ctxId c) c w l =
          let r := waitStep (fun m => tryLock m (ids.ctxId c)) id (expired d s.now) point s.mutex
          match r.2 with
          | .waiting next =>
            some ({ s with mutex := r.1 }.setFrames c (⟨w.tmo, .waiting d next⟩ :: l), none)
          | .returned ready => some ({ s with mutex := r.1 }.finish c ready l) := by
        unfold LockRun.turn
        rw [hw]
        cases point with
        | park => exact absurd rfl hpark
        | _ => rfl
      rw [hturn] at hstep
      obtain ⟨hlock, heq⟩ | ⟨status, hstatus, hheld, heq⟩ :=
        waitStep_lock_cases s.mutex (ids.ctxId c) (expired d s.now) point
      · right
        simp only [heq, LockRun.finish, if_true, Option.some.injEq, Prod.mk.injEq] at hstep
        obtain ⟨rfl, rfl⟩ := hstep
        exact ⟨rfl, hlock, rfl, rfl, rfl⟩
      · left
        rw [← hasks] at hheld
        refine ⟨?_, hheld⟩
        cases status with
        | waiting next =>
          simp only [heq, Option.some.injEq, Prod.mk.injEq] at hstep
          obtain ⟨rfl, rfl⟩ := hstep
          exact ⟨by simp, rfl, rfl, rfl⟩
        | returned ready =>
          cases ready with
          | true => exact absurd rfl hstatus
          | false =>
            simp only [heq, LockRun.finish, Bool.false_eq_true, if_false, Option.some.injEq,
              Prod.mk.injEq] at hstep
            obtain ⟨rfl, rfl⟩ := hstep
            exact ⟨by simp, rfl, rfl, rfl⟩

namespace OwnedBy

variable {ids : CtxIds Ctx} {s s' : LockRun Ctx} {c : Ctx} {r : Option NplError}

omit [DecidableEq Ctx] in
theorem idle (h : OwnedBy ids s) (hidle : Idle s s' r) : OwnedBy ids s' := by
  obtain ⟨-, hmutex, hlocks, hunlocks⟩ := hidle
  cases h with
  | free owner count nobody =>
    apply OwnedBy.free
    · rw [hmutex, owner]
    · rw [hmutex, count]
    · rw [hlocks, hunlocks]
      exact nobody
  | held d owner holds count others =>
    apply OwnedBy.held d
    · rw [hmutex, owner]
    · unfold LockRun.Holds
      rw [hlocks, hunlocks]
      exact holds
    · rw [hmutex, hlocks, hunlocks, count]
    · rw [hlocks, hunlocks]
      exact others

/-- The owner is the context that holds the mutex. -/
theorem owner_iff (h : OwnedBy ids s) (c : Ctx) : s.mutex.owner = ids.ctxId c ↔ s.Holds c := by
  unfold LockRun.Holds
  cases h with
  | free owner count nobody =>
    have hne := ids.ne_zero c
    have hsame := nobody c
    omega
  | held d owner holds count others =>
    by_cases hc : c = d
    · subst hc
      exact iff_of_true owner holds
    · have hsame := others c hc
      refine iff_of_false (fun howner => ?_) (by omega)
      exact hc (ids.injective (howner.symm.trans owner))

omit [DecidableEq Ctx] in
/-- A mutex that nobody holds is there for the next one. -/
theorem tryLock_of_free (h : OwnedBy ids s) (hfree : ∀ d, ¬ s.Holds d) :
    (tryLock s.mutex (ids.ctxId c)).2 = true := by
  cases h with
  | free owner => simp [tryLock, owner]
  | held d _ holds => exact absurd holds (hfree d)

/-- The first lock of a free mutex, and the next one of its owner. -/
theorem lock (h : OwnedBy ids s) (hnests : s.locks c + 1 < s.unlocks c + 2 ^ 32)
    (hlock : Locks ids c s s' r) : OwnedBy ids s' := by
  obtain ⟨-, htaken, hmutex, hlocks, hunlocks⟩ := hlock
  obtain ⟨hfree, heq⟩ | ⟨hmine, hne, heq⟩ | ⟨-, -, heq⟩ := tryLock_cases s.mutex (ids.ctxId c)
  · rw [heq] at hmutex
    cases h with
    | held d owner => exact absurd (owner.symm.trans hfree) (ids.ne_zero d)
    | free owner count nobody =>
      have hsame := nobody c
      apply OwnedBy.held c
      · rw [hmutex]
      · unfold LockRun.Holds
        rw [hlocks, hunlocks, Function.update_self]
        omega
      · rw [hmutex, hlocks, hunlocks, Function.update_self]
        show 1 + s.unlocks c = s.locks c + 1
        omega
      · intro d hd
        rw [hlocks, hunlocks, Function.update_of_ne hd]
        exact nobody d
  · rw [heq] at hmutex
    cases h with
    | free owner => exact absurd owner hne
    | held d owner holds count others =>
      obtain rfl := ids.injective (hmine.symm.trans owner)
      have hdepth : (s.mutex.count + 1) % 2 ^ 32 = s.mutex.count + 1 := Nat.mod_eq_of_lt (by omega)
      apply OwnedBy.held c
      · rw [hmutex, hmine]
      · unfold LockRun.Holds at holds ⊢
        rw [hlocks, hunlocks, Function.update_self]
        omega
      · rw [hmutex, hlocks, hunlocks, Function.update_self]
        show (s.mutex.count + 1) % 2 ^ 32 + s.unlocks c = s.locks c + 1
        omega
      · intro d hd
        rw [hlocks, hunlocks, Function.update_of_ne hd]
        exact others d hd
  · rw [heq] at htaken
    exact absurd htaken Bool.false_ne_true

/-- A release of the owner takes one lock back, the last one frees the mutex. -/
theorem release (h : OwnedBy ids s) (hholds : s.Holds c) :
    ∃ m, bleNplMutexRelease s.mutex (ids.ctxId c) = (m, .ok) ∧
      OwnedBy ids { s with
        mutex := m, unlocks := Function.update s.unlocks c (s.unlocks c + 1) } := by
  have howner := (h.owner_iff c).mpr hholds
  cases h with
  | free owner => exact absurd (howner.symm.trans owner) (ids.ne_zero c)
  | held d owner holds count others =>
    obtain rfl := ids.injective (howner.symm.trans owner)
    unfold LockRun.Holds at holds
    have hcount : s.mutex.count ≠ 0 := by omega
    refine ⟨_, if_neg (by simp [howner, hcount]), ?_⟩
    by_cases hlast : s.mutex.count - 1 = 0
    · apply OwnedBy.free
      · simp [hlast]
      · exact hlast
      · intro d
        by_cases hd : d = c
        · simp only [hd, Function.update_self]
          omega
        · simp only [Function.update_of_ne hd]
          exact others d hd
    · apply OwnedBy.held c
      · simp [hlast, howner]
      · simp only [LockRun.Holds, Function.update_self]
        omega
      · simp only [Function.update_self]
        omega
      · intro d hd
        simp only [Function.update_of_ne hd]
        exact others d hd

/-- The release of a context that does not hold the mutex is refused. -/
theorem refuse (h : OwnedBy ids s) (hholds : ¬ s.Holds c) :
    bleNplMutexRelease s.mutex (ids.ctxId c) = (s.mutex, .invalidParam) := by
  have howner : s.mutex.owner ≠ ids.ctxId c := fun heq => hholds ((h.owner_iff c).mp heq)
  exact if_pos (.inl howner)

end OwnedBy

section Steps
variable {ids : CtxIds Ctx} {s s' : LockRun Ctx} {c : Ctx} {r : Option NplError}

/-- A pend locks the mutex at once, or waits. -/
theorem pend_cases {tmo : ℕ} (hstep : lockStep ids s (.pend c tmo) = some (s', r)) :
    (Locks ids c s s' r ∧ s'.frames = s.frames) ∨
      (Idle s s' r ∧ (tryLock s.mutex (ids.ctxId c)).2 = false) := by
  by_cases hcalls : s.Calls c
  case neg => simp [lockStep, hcalls] at hstep
  simp only [lockStep, hcalls, if_true, bleNplMutexPend, LockRun.finish] at hstep
  cases hlock : (tryLock s.mutex (ids.ctxId c)).2 with
  | true =>
    left
    simp only [hlock, if_true, Option.some.injEq, Prod.mk.injEq] at hstep
    obtain ⟨rfl, rfl⟩ := hstep
    exact ⟨⟨rfl, hlock, rfl, rfl, rfl⟩, Function.update_eq_self c s.frames⟩
  | false =>
    right
    simp only [hlock, Bool.false_eq_true, if_false, (tryLock_held hlock).1, Option.some.injEq,
      Prod.mk.injEq] at hstep
    obtain ⟨rfl, rfl⟩ := hstep
    exact ⟨⟨by simp, rfl, rfl, rfl⟩, rfl⟩

theorem turn_step (hstep : lockStep ids s (.turn c) = some (s', r)) :
    (Idle s s' r ∧ ∀ w ∈ (s.frames c).head?, w.asks = true →
        (tryLock s.mutex (ids.ctxId c)).2 = false) ∨ Locks ids c s s' r := by
  simp only [lockStep] at hstep
  split at hstep
  · exact absurd hstep (by simp)
  next w l hf =>
    refine (turn_cases hstep).imp_left (fun ⟨hidle, hheld⟩ => ⟨hidle, fun v hv => ?_⟩)
    rw [hf] at hv
    obtain rfl := Option.some.inj hv
    exact hheld

theorem release_step (h : OwnedBy ids s) (hstep : lockStep ids s (.release c) = some (s', r)) :
    (s.Holds c ∧ r = some .ok ∧ OwnedBy ids s') ∨
      (¬ s.Holds c ∧ r = some .invalidParam ∧ s' = s) := by
  by_cases hcalls : s.Calls c
  case neg => simp [lockStep, hcalls] at hstep
  by_cases hholds : s.Holds c
  · left
    obtain ⟨m, hrelease, hm⟩ := h.release hholds
    simp only [lockStep, hcalls, if_true, hrelease, Option.some.injEq, Prod.mk.injEq] at hstep
    obtain ⟨rfl, rfl⟩ := hstep
    exact ⟨hholds, rfl, hm⟩
  · right
    simp only [lockStep, hcalls, if_true, h.refuse hholds, reduceCtorEq, if_false,
      Option.some.injEq, Prod.mk.injEq] at hstep
    obtain ⟨rfl, rfl⟩ := hstep
    exact ⟨hholds, rfl, rfl⟩

/-- Steps of the parker, of the I/O and of the clock. -/
theorem other_step {a : LockStep Ctx} (hstep : lockStep ids s a = some (s', r))
    (hpend : ∀ c tmo, a ≠ .pend c tmo) (hrelease : ∀ c, a ≠ .release c)
    (hturn : ∀ c, a ≠ .turn c) : Idle s s' r := by
  cases a with
  | pend c tmo => exact absurd rfl (hpend c tmo)
  | release c => exact absurd rfl (hrelease c)
  | turn c => exact absurd rfl (hturn c)
  | unpark c =>
    simp only [lockStep] at hstep
    split at hstep
    · obtain ⟨rfl, rfl⟩ := Prod.mk.inj (Option.some.inj hstep)
      exact ⟨by simp, rfl, rfl, rfl⟩
    · exact absurd hstep (by simp)
  | wake c =>
    obtain ⟨rfl, rfl⟩ := Prod.mk.inj (Option.some.inj hstep)
    exact ⟨by simp, rfl, rfl, rfl⟩
  | deliver c =>
    obtain ⟨k, -, heq⟩ := Option.map_eq_some_iff.mp hstep
    obtain ⟨rfl, rfl⟩ := Prod.mk.inj heq
    exact ⟨by simp, rfl, rfl, rfl⟩
  | advance ms =>
    obtain ⟨rfl, rfl⟩ := Prod.mk.inj (Option.some.inj hstep)
    exact ⟨by simp, rfl, rfl, rfl⟩

theorem ownedBy_step (h : OwnedBy ids s) {a : LockStep Ctx} (hnests : NestsBelow s a)
    (hstep : lockStep ids s a = some (s', r)) : OwnedBy ids s' := by
  cases a with
  | pend c tmo =>
    obtain ⟨hlock, -⟩ | ⟨hidle, -⟩ := pend_cases hstep
    · exact h.lock hnests hlock
    · exact h.idle hidle
  | turn c =>
    obtain ⟨hidle, -⟩ | hlock := turn_step hstep
    · exact h.idle hidle
    · exact h.lock hnests hlock
  | release c =>
    obtain ⟨-, -, hm⟩ | ⟨-, -, hsame⟩ := release_step h hstep
    · exact hm
    · exact hsame ▸ h
  | _ => exact h.idle (other_step hstep (by simp) (by simp) (by simp))

theorem answers (h : OwnedBy ids s) (a : LockStep Ctx) : Answers ids s a := by
  intro s' r hstep
  cases a with
  | pend c tmo =>
    obtain ⟨⟨hr, -⟩, hframes⟩ | ⟨hidle, hheld⟩ := pend_cases hstep
    · exact ⟨fun _ => ⟨hr, hframes⟩, fun hne => absurd hr hne⟩
    · refine ⟨fun hmay => ?_, fun _ => hidle.2.1⟩
      obtain hholds | hfree := hmay
      · exact absurd ((h.owner_iff c).mpr hholds) (tryLock_held hheld).2.2
      · exact absurd (hheld.symm.trans (h.tryLock_of_free hfree)) (by simp)
  | turn c =>
    obtain ⟨hidle, hheld⟩ | hlock := turn_step hstep
    · refine ⟨fun hfree hasks => ?_, fun _ => hidle.2.1⟩
      obtain ⟨w, hw, hask⟩ := hasks
      exact absurd ((hheld w hw hask).symm.trans (h.tryLock_of_free hfree)) (by simp)
    · exact ⟨fun _ _ => hlock.1, fun hne => absurd hlock.1 hne⟩
  | release c =>
    obtain ⟨hholds, hr, -⟩ | ⟨hholds, hr, hsame⟩ := release_step h hstep
    · exact ⟨fun _ => hr, fun hne => absurd hholds hne⟩
    · exact ⟨fun hh => absurd hh hholds, fun _ => ⟨hr, hsame⟩⟩
  | _ => exact (other_step hstep (by simp) (by simp) (by simp)).2.1

end Steps

/-- For nesting depths below 2^32 the mutex is a recursive lock in every run. -/
theorem mutex_is_recursive_lock (ids : CtxIds Ctx) (steps : List (LockStep Ctx))
    (hnests : Meets (silent (lockStep ids)) NestsBelow LockRun.start steps) :
    Always (silent (lockStep ids)) (OwnedBy ids) LockRun.start steps ∧
      Meets (silent (lockStep ids)) (Answers ids) LockRun.start steps := by
  have hstart : OwnedBy ids (LockRun.start : LockRun Ctx) := .free rfl rfl (fun _ => rfl)
  have hstep : ∀ s a t, OwnedBy ids s → NestsBelow s a → silent (lockStep ids) s a = some t →
      OwnedBy ids t := by
    intro s a t h hn ht
    obtain ⟨r, hr⟩ := silent_eq_some.mp ht
    exact ownedBy_step h hn hr
  constructor
  · exact always_of_meets hstep (fun _ h => h) hstart hnests
  · exact meets_of_invariant hstep (fun _ a _ h _ _ => answers h a) hstart hnests

instance (s : LockRun Ctx) (a : LockStep Ctx) : Decidable (NestsBelow s a) := by
  cases a <;> simp only [NestsBelow] <;> infer_instance

/-- One context locks the mutex twice, another one times out on it and then waits until
the first one has released it twice. -/
theorem mutex_handed_over :
    let ids : CtxIds (Fin 2) := ⟨fun c => c + 1, by decide, by decide⟩
    let steps : List (LockStep (Fin 2)) :=
      [.pend 0 forever, .pend 0 0, .pend 1 0, .turn 1, .turn 1, .turn 1, .release 1,
        .pend 1 forever, .release 0, .release 0, .turn 1, .turn 1, .release 1]
    (trace (lockStep ids) LockRun.start steps).map Prod.snd =
        some [some .ok, some .ok, none, none, none, some .timeout, some .invalidParam, none,
          some .ok, some .ok, none, some .ok, some .ok] ∧
      Always (silent (lockStep ids)) (OwnedBy ids) LockRun.start steps ∧
      Meets (silent (lockStep ids)) (Answers ids) LockRun.start steps :=
  ⟨by decide, mutex_is_recursive_lock _ _ (by decide)⟩

end NimbleRs.Npl
