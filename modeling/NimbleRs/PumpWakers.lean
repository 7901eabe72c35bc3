import NimbleRs.SendCmd
import NimbleRs.WaitUntil
import NimbleRs.TransitionSystem
import Mathlib.Tactic

/-!
# Who is woken when the pump can go on

The wakers that the suspended pump leaves with its four sources: the two queues, the
controller call of the TX arm and `controller.read`. A queue wakes the waker that it
replaces, the controller overwrites. `run` and the contexts in `wait_until` poll the
pump, each with a waker of its own, one source at a time. A wait that host code begins
inside a pump poll finds the pump busy, like the wait of another context.
-/
namespace NimbleRs.Hci
open TransitionSystem Npl

inductive Waker (Ctx : Type*)
  | run
  | parker (ctx : Ctx)
  deriving DecidableEq

/-- What the TX arm is suspended on. -/
inductive TxAt
  | select
  | exec
  | write
  deriving DecidableEq

/-- What the poll in flight does next; `tx` is the source that the TX arm is suspended
on, of the two queues the one with the commands. -/
inductive PollAt
  | tx
  | acl
  | rx
  | done
  deriving DecidableEq

structure PumpWakers (aclMax aclDepth : ℕ) (Ctx : Type*) where
  cmd : Channel (Packet cmdPacketMax) (Waker Ctx) cmdQueueDepth
  acl : Channel (Packet aclMax) (Waker Ctx) aclDepth
  tx : TxAt
  txWaker : Option (Waker Ctx)
  rxWaker : Option (Waker Ctx)
  poll : Option (Waker Ctx × PollAt)
  /-- The task of `run` has been woken since its latest poll began. -/
  woken : Bool
  /-- A poll of `run` has begun and has not come to its pump arm. -/
  polling : Bool
  /-- Where the contexts in `wait_until` are. -/
  point : Ctx → Option WaitPoint

inductive WakerStep (aclMax : ℕ) (Ctx : Type*)
  | runPoll
  | runArm
  | wakeRun
  | submitCmd (p : Packet cmdPacketMax)
  | submitAcl (p : Packet aclMax)
  | completeTx
  | completeRx
  | call (ctx : Ctx)
  | wait (ctx : Ctx) (ready late : Bool)
  | pumpManual (ctx : Ctx)
  | turn (ready : Bool)

variable {aclMax aclDepth : ℕ} {Ctx : Type*} [DecidableEq Ctx]

namespace PumpWakers

/-- The pump is registered in the first poll of `run`. -/
def start : PumpWakers aclMax aclDepth Ctx :=
  ⟨Channel.new, Channel.new, .select, none, none, none, false, true, fun _ => none⟩

def wake (s : PumpWakers aclMax aclDepth Ctx) (w : Option (Waker Ctx)) :
    PumpWakers aclMax aclDepth Ctx :=
  { s with woken := s.woken || decide (w = some .run) }

def goTo (s : PumpWakers aclMax aclDepth Ctx) (ctx : Ctx) (p : Option WaitPoint) :
    PumpWakers aclMax aclDepth Ctx :=
  { s with point := Function.update s.point ctx p }

/-- The poll of the source that the TX arm is suspended on. -/
def turnTx (bt : BtHci) (f : Features) (s : PumpWakers aclMax aclDepth Ctx) (w : Waker Ctx)
    (ready : Bool) : PumpWakers aclMax aclDepth Ctx :=
  match s.tx with
  | .select =>
    match s.cmd.pollReceive w with
    | (cmd, none, old) => { s with cmd := cmd, poll := some (w, .acl) }.wake old
    | (cmd, some p, _) =>
      match sendCmd bt f p.bytes with
      | .exec .. => { s with cmd := cmd, tx := .exec, txWaker := none }
      | .answered _ => { s with cmd := cmd }
  | _ =>
    if ready then { s with tx := .select, txWaker := none }
    else { s with txWaker := some w, poll := some (w, .rx) }

/-- The second half of the `select`; a malformed packet is given up. -/
def turnAcl (bt : BtHci) (s : PumpWakers aclMax aclDepth Ctx) (w : Waker Ctx) :
    PumpWakers aclMax aclDepth Ctx :=
  match s.acl.pollReceive w with
  | (acl, none, old) => { s with acl := acl, poll := some (w, .rx) }.wake old
  | (acl, some p, _) =>
    if bt.parsesAcl p.bytes then
      { s with acl := acl, tx := .write, txWaker := none, poll := some (w, .tx) }
    else { s with acl := acl, poll := some (w, .tx) }

/-- The end of `pump_manual`; a context goes on with its last check. -/
def turnDone (s : PumpWakers aclMax aclDepth Ctx) : Waker Ctx → PumpWakers aclMax aclDepth Ctx
  | .run => { s with poll := none }
  | .parker ctx => { s with poll := none }.goTo ctx (some .lastCheck)

end PumpWakers

/-- `ready` is what the controller answers to a poll, or the closure of `wait_until`. -/
def wakerStep (bt : BtHci) (f : Features) (s : PumpWakers aclMax aclDepth Ctx) :
    WakerStep aclMax Ctx → Option (PumpWakers aclMax aclDepth Ctx)
  | .runPoll =>
    if s.polling = false ∧ s.poll.map Prod.fst ≠ some .run then
      some { s with woken := false, polling := true }
    else none
  | .runArm =>
    if s.polling then
      -- `run` does not look at what `pump_manual` returns
      if s.poll.isSome then some { s with polling := false }
      else some { s with polling := false, poll := some (.run, .tx) }
    else none
  | .wakeRun => some { s with woken := true }
  | .submitCmd p =>
    match s.cmd.trySend p with
    | none => some s
    | some (cmd, w) => some ({ s with cmd := cmd }.wake w)
  | .submitAcl p =>
    match s.acl.trySend p with
    | none => some s
    | some (acl, w) => some ({ s with acl := acl }.wake w)
  | .completeTx => some ({ s with txWaker := none }.wake s.txWaker)
  | .completeRx => some ({ s with rxWaker := none }.wake s.rxWaker)
  | .call ctx => if s.point ctx = none then some (s.goTo ctx (some .check)) else none
  | .wait ctx ready late =>
    match s.point ctx with
    | none => none
    | some .pump => none
    | some p => some (s.goTo ctx (match p.next ready late with
      | .returned _ => none
      | .waiting p' => some p'))
  | .pumpManual ctx =>
    if s.point ctx = some .pump ∧ s.poll.map Prod.fst ≠ some (.parker ctx) then
      if s.poll.isSome then some (s.goTo ctx (some .lastCheck))
      else some { s with poll := some (.parker ctx, .tx) }
    else none
  | .turn ready =>
    match s.poll with
    | none => none
    | some (w, .tx) => some (s.turnTx bt f w ready)
    | some (w, .acl) => some (s.turnAcl bt w)
    | some (w, .rx) =>
      if ready then some s else some { s with rxWaker := some w, poll := some (w, .done) }
    | some (w, .done) => some (s.turnDone w)

/-- What can hold a waker of the pump. -/
inductive Source
  | cmd
  | acl
  | call
  | read
  deriving DecidableEq

instance : Fintype Source :=
  ⟨{.cmd, .acl, .call, .read}, fun x => by cases x <;> decide⟩

/-- The sources come up in a poll in this order. -/
def Source.rank : Source → ℕ
  | .cmd | .call => 0
  | .acl => 1
  | .read => 2

def PollAt.rank : PollAt → ℕ
  | .tx => 0
  | .acl => 1
  | .rx => 2
  | .done => 3

namespace PumpWakers

def holder (s : PumpWakers aclMax aclDepth Ctx) : Source → Option (Waker Ctx)
  | .cmd => s.cmd.receiverWaker
  | .acl => s.acl.receiverWaker
  | .call => s.txWaker
  | .read => s.rxWaker

def SuspendedOn (s : PumpWakers aclMax aclDepth Ctx) : Source → Prop
  | .cmd | .acl => s.tx = .select
  | .call => s.tx ≠ .select
  | .read => True

/-- A wake-up of `run` has not yet come to the pump. -/
def Due (s : PumpWakers aclMax aclDepth Ctx) : Prop := s.woken = true ∨ s.polling = true

/-- A poll of a context is about to replace, and so to wake, the waker of `run`. -/
def WakesRun (s : PumpWakers aclMax aclDepth Ctx) : Prop :=
  match s.poll with
  | some (.parker _, .tx) => s.tx = .select ∧ s.holder .cmd = some .run
  | some (.parker _, .acl) => s.holder .acl = some .run
  | _ => False

instance (s : PumpWakers aclMax aclDepth Ctx) (x : Source) : Decidable (s.SuspendedOn x) := by
  cases x <;> simp only [SuspendedOn] <;> infer_instance

instance (s : PumpWakers aclMax aclDepth Ctx) : Decidable s.Due :=
  inferInstanceAs (Decidable (_ ∨ _))

instance (s : PumpWakers aclMax aclDepth Ctx) : Decidable s.WakesRun := by
  unfold WakesRun
  split <;> infer_instance

end PumpWakers

/-- With no poll in flight and nobody waiting, `run` will poll the pump, or every source
that the pump is suspended on holds the waker of `run`. -/
def PumpAttended (s : PumpWakers aclMax aclDepth Ctx) : Prop :=
  s.poll = none → (∀ ctx, s.point ctx = none) →
    s.Due ∨ ∀ x, s.SuspendedOn x → s.holder x = some .run

/-- `run` does not lose a poll to a busy pump, and a context does not take over a pump
whose TX arm is in a controller call, unless `run` is about to be woken or is already. -/
def KeepsRunDue (s : PumpWakers aclMax aclDepth Ctx) : WakerStep aclMax Ctx → Prop
  | .runArm => s.poll = none ∨ s.woken = true ∨ s.WakesRun
  | .pumpManual _ => s.poll = none → s.Due ∨ s.tx = .select
  | _ => True

namespace PumpWakers

/-- What a state in which `run` is not due holds of its waker: all that a poll of `run` has
come to keeps it, and a poll of a context has not touched it yet. -/
def Progress (s : PumpWakers aclMax aclDepth Ctx) : Prop :=
  match s.poll with
  | none => ∀ x, s.SuspendedOn x → s.holder x = some .run
  | some (.run, pos) => ∀ x, s.SuspendedOn x → x.rank < pos.rank → s.holder x = some .run
  | some (.parker _, _) => s.WakesRun

variable {s : PumpWakers aclMax aclDepth Ctx}

omit [DecidableEq Ctx] in
theorem progress_idle (h : s.poll = none) :
    s.Progress ↔ ∀ x, s.SuspendedOn x → s.holder x = some .run := by
  unfold Progress
  rw [h]

omit [DecidableEq Ctx] in
theorem progress_run {pos : PollAt} (h : s.poll = some (.run, pos)) :
    s.Progress ↔ ∀ x, s.SuspendedOn x → x.rank < pos.rank → s.holder x = some .run := by
  unfold Progress
  rw [h]

omit [DecidableEq Ctx] in
theorem progress_parker {ctx : Ctx} {pos : PollAt} (h : s.poll = some (.parker ctx, pos)) :
    s.Progress ↔ (pos = .tx ∧ s.tx = .select ∧ s.holder .cmd = some .run) ∨
      (pos = .acl ∧ s.holder .acl = some .run) := by
  unfold Progress WakesRun
  rw [h]
  cases pos <;> simp

omit [DecidableEq Ctx] in
theorem WakesRun.progress (h : s.WakesRun) : s.Progress := by
  obtain hpoll | ⟨⟨w, pos⟩, hpoll⟩ := Option.eq_none_or_eq_some s.poll
  · simp [WakesRun, hpoll] at h
  · cases w with
    | run => simp [WakesRun, hpoll] at h
    | parker ctx =>
      unfold Progress
      rw [hpoll]
      exact h

theorem Due.wake (h : s.Due) (w : Option (Waker Ctx)) : (s.wake w).Due := by
  obtain hwoken | hpolling := h
  · left
    simp [PumpWakers.wake, hwoken]
  · exact .inr hpolling

theorem due_wake_run : (s.wake (some .run)).Due := by
  left
  simp [wake]

end PumpWakers

/-- A queue with a stored waker is empty. -/
structure Watched (s : PumpWakers aclMax aclDepth Ctx) : Prop where
  cmdEmpty : s.cmd.Parked
  aclEmpty : s.acl.Parked
  watched : s.Due ∨ s.Progress

namespace Watched

variable {bt : BtHci} {f : Features} {s s' : PumpWakers aclMax aclDepth Ctx}

omit [DecidableEq Ctx] in
theorem attended (h : Watched s) : PumpAttended s := by
  intro hpoll _
  rw [← PumpWakers.progress_idle hpoll]
  exact h.watched

/-- Taking a waker from a source wakes `run` if the waker is its own. -/
theorem take (h : Watched s) {y : Source} (htx : s'.tx = s.tx) (hpoll : s'.poll = s.poll)
    (hpolling : s'.polling = s.polling)
    (hwoken : s'.woken = (s.woken || decide (s.holder y = some .run)))
    (hholder : ∀ x, x ≠ y → s'.holder x = s.holder x) : s'.Due ∨ s'.Progress := by
  by_cases hy : s.holder y = some .run
  · left
    left
    simp [hwoken, hy]
  · obtain hdue | hprogress := h.watched
    · left
      unfold PumpWakers.Due at hdue ⊢
      rw [hwoken, hpolling]
      simpa [hy] using hdue
    · right
      have hsame : ∀ x, s.holder x = some .run → s'.holder x = some .run := by
        intro x hx
        rw [hholder x (fun hxy => hy (hxy ▸ hx))]
        exact hx
      have hsuspended : ∀ x, s'.SuspendedOn x → s.SuspendedOn x := by
        intro x
        cases x <;> simp [PumpWakers.SuspendedOn, htx]
      obtain hpoll' | ⟨⟨w, pos⟩, hpoll'⟩ := Option.eq_none_or_eq_some s.poll
      · have hheld := (PumpWakers.progress_idle hpoll').mp hprogress
        exact (PumpWakers.progress_idle (hpoll.trans hpoll')).mpr
          (fun x hx => hsame x (hheld x (hsuspended x hx)))
      · cases w with
        | run =>
          have hheld := (PumpWakers.progress_run hpoll').mp hprogress
          exact (PumpWakers.progress_run (hpoll.trans hpoll')).mpr
            (fun x hx hrank => hsame x (hheld x (hsuspended x hx) hrank))
        | parker ctx =>
          have hwakes := (PumpWakers.progress_parker hpoll').mp hprogress
          apply (PumpWakers.progress_parker (hpoll.trans hpoll')).mpr
          rw [htx]
          exact hwakes.imp (fun h => ⟨h.1, h.2.1, hsame _ h.2.2⟩) (fun h => ⟨h.1, hsame _ h.2⟩)

omit [DecidableEq Ctx] in
/-- A poll that does not find the waker of `run` in a queue: only a poll of `run` itself can
leave `run` not due, and keeps what it has come to. -/
theorem advance (h : Watched s) {w : Waker Ctx} {pos pos' : PollAt}
    (hpoll : s.poll = some (w, pos)) (htx : pos = .tx → s.tx = .select → s.holder .cmd ≠ some .run)
    (hacl : pos = .acl → s.holder .acl ≠ some .run) (hcmdEmpty : s'.cmd.Parked)
    (haclEmpty : s'.acl.Parked) (hpoll' : s'.poll = some (w, pos')) (hdue : s.Due → s'.Due)
    (hheld : w = .run → (∀ x, s.SuspendedOn x → x.rank < pos.rank → s.holder x = some .run) →
      ∀ x, s'.SuspendedOn x → x.rank < pos'.rank → s'.holder x = some .run) : Watched s' := by
  refine ⟨hcmdEmpty, haclEmpty, ?_⟩
  obtain hd | hprogress := h.watched
  · exact .inl (hdue hd)
  · cases w with
    | run =>
      right
      apply (PumpWakers.progress_run hpoll').mpr
      exact hheld rfl ((PumpWakers.progress_run hpoll).mp hprogress)
    | parker ctx =>
      obtain ⟨hpos, hs, hrun⟩ | ⟨hpos, hrun⟩ := (PumpWakers.progress_parker hpoll).mp hprogress
      · exact absurd hrun (htx hpos hs)
      · exact absurd hrun (hacl hpos)

omit [DecidableEq Ctx] in
/-- The TX arm goes on to another source, which the same poll will look at. -/
theorem moveOn (h : Watched s) {w : Waker Ctx} {pos : PollAt} (hpoll : s.poll = some (w, pos))
    (htx : pos = .tx → s.tx = .select → s.holder .cmd ≠ some .run)
    (hacl : pos = .acl → s.holder .acl ≠ some .run) (hcmdEmpty : s'.cmd.Parked)
    (haclEmpty : s'.acl.Parked) (hpoll' : s'.poll = some (w, .tx)) (hdue : s.Due → s'.Due) :
    Watched s' :=
  h.advance hpoll htx hacl hcmdEmpty haclEmpty hpoll' hdue
    (fun _ _ _ _ hrank => absurd hrank (Nat.not_lt_zero _))

/-- A poll of a queue that finds nothing stores its waker there, and wakes `run` when it
is the waker of `run` that it replaces. -/
theorem store (h : Watched s) {w : Waker Ctx} {pos pos' : PollAt} {x : Source}
    {old : Option (Waker Ctx)} (hpoll : s.poll = some (w, pos)) (hcmdEmpty : s'.cmd.Parked)
    (haclEmpty : s'.acl.Parked) (hpoll' : s'.poll = some (w, pos'))
    (hpos : pos = .tx ∧ x = .cmd ∨ pos = .acl ∧ x = .acl)
    (hold : old = (s.holder x).filter (fun v => decide (v ≠ w)))
    (hheld : w = .run → (∀ x, s.SuspendedOn x → x.rank < pos.rank → s.holder x = some .run) →
      ∀ x, s'.SuspendedOn x → x.rank < pos'.rank → s'.holder x = some .run)
    (hpolling : s'.polling = s.polling) (hwoken : s'.woken = s.woken) : Watched (s'.wake old) := by
  refine ⟨hcmdEmpty, haclEmpty, ?_⟩
  obtain hdue | hprogress := h.watched
  · left
    apply PumpWakers.Due.wake
    unfold PumpWakers.Due at hdue ⊢
    rw [hwoken, hpolling]
    exact hdue
  · cases w with
    | run =>
      right
      apply (PumpWakers.progress_run hpoll').mpr
      exact hheld rfl ((PumpWakers.progress_run hpoll).mp hprogress)
    | parker ctx =>
      have hrun : s.holder x = some .run := by
        obtain ⟨hp, -, hrun⟩ | ⟨hp, hrun⟩ := (PumpWakers.progress_parker hpoll).mp hprogress
        · obtain ⟨-, rfl⟩ | ⟨hp', -⟩ := hpos
          · exact hrun
          · exact absurd (hp.symm.trans hp') (by decide)
        · obtain ⟨hp', -⟩ | ⟨-, rfl⟩ := hpos
          · exact absurd (hp.symm.trans hp') (by decide)
          · exact hrun
      have hsome : old = some .run := by
        rw [hold, hrun]
        rfl
      rw [hsome]
      exact .inl PumpWakers.due_wake_run

theorem turnTx (h : Watched s) {w : Waker Ctx} (hpoll : s.poll = some (w, .tx)) (ready : Bool) :
    Watched (s.turnTx bt f w ready) := by
  unfold PumpWakers.turnTx
  split
  next htx =>
    split
    next cmd old hr =>
      obtain ⟨hempty, hwaker, hold⟩ := Channel.pollReceive_none hr
      refine h.store hpoll hempty h.aclEmpty rfl (.inl ⟨rfl, rfl⟩) hold ?_ rfl rfl
      intro hw _ x hx hrank
      cases x with
      | cmd => exact hw ▸ hwaker
      | call => exact absurd htx hx
      | acl => exact absurd hrank (by decide)
      | read => exact absurd hrank (by decide)
    next cmd p old hr =>
      obtain ⟨hempty, hnone⟩ := Channel.pollReceive_some h.cmdEmpty hr
      have hnot : s.holder .cmd ≠ some .run := by simp [PumpWakers.holder, hnone]
      split
      · exact h.moveOn hpoll (fun _ _ => hnot) (by simp) hempty h.aclEmpty hpoll id
      · exact h.moveOn hpoll (fun _ _ => hnot) (by simp) hempty h.aclEmpty hpoll id
  next htx =>
    split
    · exact h.moveOn hpoll (fun _ hs => absurd hs htx) (by simp) h.cmdEmpty h.aclEmpty hpoll id
    · refine h.advance hpoll (fun _ hs => absurd hs htx) (by simp) h.cmdEmpty h.aclEmpty rfl id ?_
      intro hw _ x hx hrank
      cases x with
      | call => exact congrArg some hw
      | cmd => exact absurd hx htx
      | acl => exact absurd hx htx
      | read => exact absurd hrank (by decide)

theorem turnAcl (h : Watched s) {w : Waker Ctx} (hpoll : s.poll = some (w, .acl)) :
    Watched (s.turnAcl bt w) := by
  unfold PumpWakers.turnAcl
  split
  next acl old hr =>
    obtain ⟨hempty, hwaker, hold⟩ := Channel.pollReceive_none hr
    refine h.store hpoll h.cmdEmpty hempty rfl (.inr ⟨rfl, rfl⟩) hold ?_ rfl rfl
    intro hw hheld x hx hrank
    cases x with
    | acl => exact hw ▸ hwaker
    | cmd => exact hheld .cmd hx (by decide)
    | call => exact hheld .call hx (by decide)
    | read => exact absurd hrank (by decide)
  next acl p old hr =>
    obtain ⟨hempty, hnone⟩ := Channel.pollReceive_some h.aclEmpty hr
    have hnot : s.holder .acl ≠ some .run := by simp [PumpWakers.holder, hnone]
    split
    · exact h.moveOn hpoll (by simp) (fun _ => hnot) h.cmdEmpty hempty rfl id
    · exact h.moveOn hpoll (by simp) (fun _ => hnot) h.cmdEmpty hempty rfl id

omit [DecidableEq Ctx] in
theorem turnRx (h : Watched s) {w : Waker Ctx} (hpoll : s.poll = some (w, .rx)) :
    Watched { s with rxWaker := some w, poll := some (w, .done) } := by
  refine h.advance hpoll (by simp) (by simp) h.cmdEmpty h.aclEmpty rfl id ?_
  intro hw hheld x hx _
  cases x with
  | read => exact congrArg some hw
  | cmd => exact hheld .cmd hx (by decide)
  | acl => exact hheld .acl hx (by decide)
  | call => exact hheld .call hx (by decide)

theorem turnDone (h : Watched s) {w : Waker Ctx} (hpoll : s.poll = some (w, .done)) :
    Watched (s.turnDone w) := by
  obtain hdue | hprogress := h.watched
  · cases w with
    | run => exact ⟨h.cmdEmpty, h.aclEmpty, .inl hdue⟩
    | parker ctx => exact ⟨h.cmdEmpty, h.aclEmpty, .inl hdue⟩
  · cases w with
    | run =>
      refine ⟨h.cmdEmpty, h.aclEmpty, .inr ?_⟩
      apply (PumpWakers.progress_idle rfl).mpr
      intro x hx
      exact (PumpWakers.progress_run hpoll).mp hprogress x hx (by cases x <;> decide)
    | parker ctx =>
      have hwakes := (PumpWakers.progress_parker hpoll).mp hprogress
      exact absurd hwakes (by simp)

theorem turn (h : Watched s) {ready : Bool} (hstep : wakerStep bt f s (.turn ready) = some s') :
    Watched s' := by
  simp only [wakerStep] at hstep
  split at hstep
  next => exact absurd hstep (by simp)
  next w hpoll =>
    obtain rfl := Option.some.inj hstep
    exact h.turnTx hpoll ready
  next w hpoll =>
    obtain rfl := Option.some.inj hstep
    exact h.turnAcl hpoll
  next w hpoll =>
    split at hstep
    · obtain rfl := Option.some.inj hstep
      exact h
    · obtain rfl := Option.some.inj hstep
      exact h.turnRx hpoll
  next w hpoll =>
    obtain rfl := Option.some.inj hstep
    exact h.turnDone hpoll

theorem runArm (h : Watched s) (hdue : KeepsRunDue s (WakerStep.runArm : WakerStep aclMax Ctx))
    (hstep : wakerStep bt f s .runArm = some s') : Watched s' := by
  simp only [wakerStep] at hstep
  split at hstep
  · split at hstep
    next hbusy =>
      obtain rfl := Option.some.inj hstep
      refine ⟨h.cmdEmpty, h.aclEmpty, ?_⟩
      obtain hfree | hwoken | hwakes := hdue
      · rw [hfree] at hbusy
        exact absurd hbusy (by simp)
      · exact .inl (.inl hwoken)
      · -- the poll of a context will replace the waker of `run`
        exact .inr (PumpWakers.WakesRun.progress (by exact hwakes))
    next =>
      obtain rfl := Option.some.inj hstep
      refine ⟨h.cmdEmpty, h.aclEmpty, .inr ?_⟩
      apply (PumpWakers.progress_run rfl).mpr
      exact fun x _ hrank => absurd hrank (Nat.not_lt_zero _)
  · exact absurd hstep (by simp)

theorem pumpManual (h : Watched s) {ctx : Ctx}
    (hdue : KeepsRunDue s (WakerStep.pumpManual ctx : WakerStep aclMax Ctx))
    (hstep : wakerStep bt f s (.pumpManual ctx) = some s') : Watched s' := by
  simp only [wakerStep] at hstep
  split at hstep
  · split at hstep
    next =>
      obtain rfl := Option.some.inj hstep
      exact ⟨h.cmdEmpty, h.aclEmpty, h.watched⟩
    next hbusy =>
      have hfree : s.poll = none := by simpa using hbusy
      obtain rfl := Option.some.inj hstep
      refine ⟨h.cmdEmpty, h.aclEmpty, ?_⟩
      obtain hd | hprogress := h.watched
      · exact .inl hd
      · obtain hd | htx := hdue hfree
        · exact .inl hd
        · right
          apply (PumpWakers.progress_parker rfl).mpr
          exact .inl ⟨rfl, htx, (PumpWakers.progress_idle hfree).mp hprogress .cmd htx⟩
  · exact absurd hstep (by simp)

theorem submitCmd (h : Watched s) {p : Packet cmdPacketMax}
    (hstep : wakerStep bt f s (.submitCmd p) = some s') : Watched s' := by
  simp only [wakerStep] at hstep
  split at hstep
  next =>
    obtain rfl := Option.some.inj hstep
    exact h
  next cmd w hsend =>
    obtain rfl := Option.some.inj hstep
    obtain ⟨hempty, rfl⟩ := Channel.trySend_waker hsend
    refine ⟨hempty, h.aclEmpty, h.take (y := .cmd) rfl rfl rfl rfl ?_⟩
    intro x hx
    cases x with
    | cmd => exact absurd rfl hx
    | _ => rfl

theorem submitAcl (h : Watched s) {p : Packet aclMax}
    (hstep : wakerStep bt f s (.submitAcl p) = some s') : Watched s' := by
  simp only [wakerStep] at hstep
  split at hstep
  next =>
    obtain rfl := Option.some.inj hstep
    exact h
  next acl w hsend =>
    obtain rfl := Option.some.inj hstep
    obtain ⟨hempty, rfl⟩ := Channel.trySend_waker hsend
    refine ⟨h.cmdEmpty, hempty, h.take (y := .acl) rfl rfl rfl rfl ?_⟩
    intro x hx
    cases x with
    | acl => exact absurd rfl hx
    | _ => rfl

theorem completeTx (h : Watched s) : Watched ({ s with txWaker := none }.wake s.txWaker) := by
  refine ⟨h.cmdEmpty, h.aclEmpty, h.take (y := .call) rfl rfl rfl rfl ?_⟩
  intro x hx
  cases x with
  | call => exact absurd rfl hx
  | _ => rfl

theorem completeRx (h : Watched s) : Watched ({ s with rxWaker := none }.wake s.rxWaker) := by
  refine ⟨h.cmdEmpty, h.aclEmpty, h.take (y := .read) rfl rfl rfl rfl ?_⟩
  intro x hx
  cases x with
  | read => exact absurd rfl hx
  | _ => rfl

theorem step (h : Watched s) {a : WakerStep aclMax Ctx} (hdue : KeepsRunDue s a)
    (hstep : wakerStep bt f s a = some s') : Watched s' := by
  cases a with
  | runArm => exact h.runArm hdue hstep
  | pumpManual ctx => exact h.pumpManual hdue hstep
  | turn ready => exact h.turn hstep
  | submitCmd p => exact h.submitCmd hstep
  | submitAcl p => exact h.submitAcl hstep
  | completeTx =>
    obtain rfl := Option.some.inj hstep
    exact h.completeTx
  | completeRx =>
    obtain rfl := Option.some.inj hstep
    exact h.completeRx
  | runPoll =>
    simp only [wakerStep] at hstep
    split at hstep
    · obtain rfl := Option.some.inj hstep
      exact ⟨h.cmdEmpty, h.aclEmpty, .inl (.inr rfl)⟩
    · exact absurd hstep (by simp)
  | wakeRun =>
    obtain rfl := Option.some.inj hstep
    exact ⟨h.cmdEmpty, h.aclEmpty, .inl (.inl rfl)⟩
  | call ctx =>
    simp only [wakerStep] at hstep
    split at hstep
    · obtain rfl := Option.some.inj hstep
      exact ⟨h.cmdEmpty, h.aclEmpty, h.watched⟩
    · exact absurd hstep (by simp)
  | wait ctx ready late =>
    simp only [wakerStep] at hstep
    split at hstep
    · exact absurd hstep (by simp)
    · exact absurd hstep (by simp)
    · obtain rfl := Option.some.inj hstep
      exact ⟨h.cmdEmpty, h.aclEmpty, h.watched⟩

end Watched

/-- The pump always has somebody who polls it, in a run in which `run` loses no poll to a
busy pump and no context takes over a controller call behind the back of `run`. -/
theorem pump_always_attended (bt : BtHci) (f : Features) (steps : List (WakerStep aclMax Ctx))
    (hdue : Meets (wakerStep bt f) KeepsRunDue
      (PumpWakers.start : PumpWakers aclMax aclDepth Ctx) steps) :
    Always (wakerStep bt f) PumpAttended
      (PumpWakers.start : PumpWakers aclMax aclDepth Ctx) steps :=
  always_of_meets (I := Watched) (fun _ _ _ h hg hstep => h.step hg hstep)
    (fun _ h => h.attended) ⟨fun _ => rfl, fun _ => rfl, .inl (.inr rfl)⟩ hdue

instance [Fintype Ctx] (s : PumpWakers aclMax aclDepth Ctx) : Decidable (PumpAttended s) :=
  inferInstanceAs (Decidable (_ → _ → _))

instance (s : PumpWakers aclMax aclDepth Ctx) (a : WakerStep aclMax Ctx) :
    Decidable (KeepsRunDue s a) := by
  cases a <;> simp only [KeepsRunDue] <;> infer_instance

/-- One context waits and takes over an idle pump, which wakes `run`. -/
theorem pump_always_attended_idle :
    let bt : BtHci := ⟨fun c => if c = .reset then 0x0c03 else 0, fun _ _ => true, fun _ => true⟩
    let poll : List (WakerStep 255 (Fin 1)) := List.replicate 4 (.turn false)
    Always (wakerStep bt ⟨false, true, false, false, false⟩) PumpAttended
      (PumpWakers.start : PumpWakers 255 4 (Fin 1))
      ([WakerStep.runArm] ++ poll ++ [WakerStep.call 0] ++
        List.replicate 4 (WakerStep.wait 0 false false) ++ [WakerStep.pumpManual 0] ++ poll ++
        [WakerStep.wait 0 true false, .runPoll, .runArm] ++ poll) :=
  pump_always_attended _ _ _ (by decide)

/-- An ACL packet wakes `run`, whose poll leaves the pump in `write_acl_data`. A context that
waits for a token of its own polls the pump once, gets the token and goes: the controller
has its waker only, and nothing has woken `run`. -/
theorem pump_unattended_after_wait :
    let bt : BtHci := ⟨fun c => if c = .reset then 0x0c03 else 0, fun _ _ => true, fun _ => true⟩
    let poll (n : ℕ) : List (WakerStep 255 (Fin 1)) := List.replicate n (.turn false)
    ¬ Always (wakerStep bt ⟨false, true, false, false, false⟩) PumpAttended
      (PumpWakers.start : PumpWakers 255 4 (Fin 1))
      ([WakerStep.runArm] ++ poll 4 ++
        [WakerStep.submitAcl ⟨[1, 0, 0, 0], by decide⟩, .runPoll, .runArm] ++ poll 5 ++
        [WakerStep.call 0] ++ List.replicate 4 (WakerStep.wait 0 false false) ++
        [WakerStep.pumpManual 0] ++ poll 3 ++ [WakerStep.wait 0 true false]) := by
  decide

end NimbleRs.Hci
