import Mathlib.Data.Nat.Basic
import Mathlib.Logic.Function.Basic
import Mathlib.Tactic

/-!
# The pump-while-pending wait loop

`wait_until` of `npl.rs`, one point at a time, so that the steps of other contexts
can fall between any two points. A machine that runs the loop supplies what the
points do to its state: `ready` and `register` are the two closures of the caller.
Polling the pump and sleeping in the parker are steps of the machine itself.
Instants are counted in milliseconds, the unit of the NPL ticks.
-/
namespace NimbleRs.Npl

abbrev Instant := ℕ

/-- `BLE_NPL_TIME_FOREVER`, the largest `ble_npl_time_t`. -/
def forever : ℕ := 2 ^ 32 - 1

def deadline (ticks : ℕ) (now : Instant) : Option Instant :=
  if ticks ≠ forever then some (now + ticks) else none

/-- `deadline.is_some_and(|deadline| Instant::now() >= deadline)` -/
def expired (deadline : Option Instant) (now : Instant) : Bool :=
  deadline.any (fun d => decide (d ≤ now))

/-- Where a context stands in the body of the loop. -/
inductive WaitPoint
  | check
  | expiry
  | register
  | recheck
  | pump
  | lastCheck
  | park
  deriving DecidableEq, Repr

inductive Status
  | waiting (point : WaitPoint)
  | returned (ready : Bool)
  deriving DecidableEq, Repr

/-- The control flow of the loop body: `ready` is what the closure said at one of
the three checks and `late` what the deadline test said. -/
def WaitPoint.next (ready late : Bool) : WaitPoint → Status
  | .check => if ready then .returned true else .waiting .expiry
  | .expiry => if late then .returned false else .waiting .register
  | .register => .waiting .recheck
  | .recheck => if ready then .returned true else .waiting .pump
  | .pump => .waiting .lastCheck
  | .lastCheck => if ready then .returned true else .waiting .park
  | .park => .waiting .check

/-- The points at which the loop calls `ready`. -/
def WaitPoint.asks : WaitPoint → Bool
  | .check | .recheck | .lastCheck => true
  | _ => false

/-- One point of the loop on a state `s`. -/
def waitStep {σ : Type*} (ready : σ → σ × Bool) (register : σ → σ) (late : Bool)
    (point : WaitPoint) (s : σ) : σ × Status :=
  if point.asks then
    let r := ready s
    (r.1, point.next r.2 late)
  else if point = .register then (register s, point.next false late)
  else (s, point.next false late)

/-- Where a pend stands that goes into the loop. -/
inductive PendPoint
  /-- `deadline(tmo)` is evaluated next. -/
  | entered
  | waiting (deadline : Option Instant) (point : WaitPoint)
  deriving DecidableEq

/-- The loop returns `true` only from a check that said so. -/
theorem next_returned_true {p : WaitPoint} {ready late : Bool}
    (h : p.next ready late = .returned true) : p.asks = true ∧ ready = true := by
  cases p <;> cases ready <;> cases late <;> simp_all [WaitPoint.next, WaitPoint.asks]

/-- One point of the loop: a check that is satisfied returns, one that is not goes on,
and no other point calls `ready`. -/
theorem waitStep_cases {σ : Type*} (ready : σ → σ × Bool) (register : σ → σ) (late : Bool)
    (p : WaitPoint) (s : σ) :
    (p.asks = true ∧ (ready s).2 = true ∧
        waitStep ready register late p s = ((ready s).1, .returned true)) ∨
      (p.asks = true ∧ (ready s).2 = false ∧
        waitStep ready register late p s = ((ready s).1, p.next false late)) ∨
      (p.asks = false ∧ waitStep ready register late p s =
        (if p = .register then register s else s, p.next false late)) := by
  unfold waitStep
  cases hp : p.asks with
  | true =>
    cases hr : (ready s).2 with
    | true =>
      left
      cases p <;> simp_all [WaitPoint.asks, WaitPoint.next]
    | false =>
      right
      left
      simp [hr]
  | false =>
    right
    right
    by_cases hreg : p = .register
    · simp [hreg]
    · simp [hreg]

section Frames
variable {Ctx α : Type*} {P : α → Prop}

/-- What holds of the frame that a context calls from, and of those below, holds of all. -/
theorem forall_mem_of_head?_tail {l : List α} (hhead : ∀ p ∈ l.head?, P p)
    (htail : ∀ p ∈ l.tail, P p) : ∀ p ∈ l, P p := by
  cases l with
  | nil => simp
  | cons q l => exact List.forall_mem_cons.mpr ⟨hhead q rfl, htail⟩

theorem forall_tail_update [DecidableEq Ctx] {frames : Ctx → List α}
    (h : ∀ c, ∀ p ∈ (frames c).tail, P p) {c : Ctx} {l : List α} (hl : ∀ p ∈ l.tail, P p)
    (d : Ctx) : ∀ p ∈ (Function.update frames c l d).tail, P p := by
  by_cases hd : d = c
  · rw [hd, Function.update_self]
    exact hl
  · rw [Function.update_of_ne hd]
    exact h d

end Frames

/-- The unpark tokens of the contexts, and the wakers that are being woken. -/
structure Parking (Ctx : Type*) where
  token : Ctx → Bool
  delivering : List Ctx

namespace Parking

variable {Ctx : Type*} [DecidableEq Ctx]

def start : Parking Ctx := ⟨fun _ => false, []⟩

/-- Something takes a waker that the context has handed out. -/
def wake (k : Parking Ctx) (c : Ctx) : Parking Ctx := { k with delivering := c :: k.delivering }

def deliver (k : Parking Ctx) (c : Ctx) : Option (Parking Ctx) :=
  if c ∈ k.delivering then some ⟨Function.update k.token c true, k.delivering.erase c⟩ else none

/-- The return of `thread::park`. -/
def unpark (k : Parking Ctx) (c : Ctx) : Option (Parking Ctx) :=
  if k.token c then some { k with token := Function.update k.token c false } else none

/-- The context has no token, and none is on its way. -/
def Quiet (k : Parking Ctx) (c : Ctx) : Prop := k.token c = false ∧ c ∉ k.delivering

instance (k : Parking Ctx) (c : Ctx) : Decidable (k.Quiet c) := inferInstanceAs (Decidable (_ ∧ _))

omit [DecidableEq Ctx] in
theorem Quiet.of_wake {k : Parking Ctx} {c d : Ctx} (h : (k.wake c).Quiet d) : k.Quiet d :=
  ⟨h.1, fun hd => h.2 (List.mem_cons_of_mem c hd)⟩

/-- Who is quiet after a token was delivered was so before, and is not who it was for. -/
theorem Quiet.of_deliver {k k' : Parking Ctx} {c d : Ctx} (hk : k.deliver c = some k')
    (h : k'.Quiet d) : k.Quiet d := by
  by_cases hc : c ∈ k.delivering
  · simp only [deliver, hc, if_true, Option.some.injEq] at hk
    subst hk
    have hd : d ≠ c := by
      rintro rfl
      exact absurd h.1 (by simp)
    constructor
    · simpa [hd] using h.1
    · exact fun hmem => h.2 ((List.mem_erase_of_ne hd).mpr hmem)
  · simp [deliver, hc] at hk

end Parking

end NimbleRs.Npl
