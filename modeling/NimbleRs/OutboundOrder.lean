import NimbleRs.Outbound
import NimbleRs.PumpSlot
import NimbleRs.SendCmd
import Mathlib.Tactic

/-!
# The order of the outbound packets

The TX arm of the pump, one look at a queue or one poll of an awaited call at a time,
in the hands of whoever polls the pump: a context that gets past the flag of the slot
resumes the arm where the last poll left it. Any context submits commands and ACL data
at any time. The histories say what was accepted into a queue and what was passed on.
-/
namespace NimbleRs.Hci
open TransitionSystem

/-- What the arm is suspended on between two polls. -/
inductive TxWait
  | select
  | sendCmd
  | writeAclData
  deriving DecidableEq

/-- Where the arm stands in a poll. -/
inductive TxPoint
  /-- `CMD_QUEUE.receive()`, the first future of `select`. -/
  | receiveCmd
  /-- `ACL_QUEUE.receive()`, behind a command queue that was empty when this many
  commands had been accepted. -/
  | receiveAcl (looked : ℕ)
  | sendCmd
  | writeAclData
  /-- The arm returns `Pending`; the RX arm is polled before the poll returns. -/
  | pending (wait : TxWait)
  deriving DecidableEq

def TxWait.resume : TxWait → TxPoint
  | .select => .receiveCmd
  | .sendCmd => .sendCmd
  | .writeAclData => .writeAclData

/-- The packets that are being processed: the one in `send_cmd` or `write_acl_data`. -/
def TxWait.held : TxWait → ℕ
  | .select => 0
  | _ => 1

def TxPoint.held : TxPoint → ℕ
  | .receiveCmd | .receiveAcl _ => 0
  | .sendCmd | .writeAclData => 1
  | .pending wait => wait.held

theorem TxWait.held_resume (wait : TxWait) : wait.resume.held = wait.held := by
  cases wait <;> rfl

structure TxPump (aclMax aclDepth : ℕ) (Ctx : Type*) where
  slot : PumpSlot
  cmdQueue : Channel (Packet cmdPacketMax) Unit cmdQueueDepth
  aclQueue : Channel (Packet aclMax) Unit aclDepth
  wait : TxWait
  /-- Where the arm stands in the poll of a context. -/
  polls : Ctx → Option TxPoint
  cmdsAccepted : List (Packet cmdPacketMax)
  cmdsPassed : List (Packet cmdPacketMax)
  aclAccepted : List (Packet aclMax)
  /-- The ACL packets that the arm has received, and those of them that parsed. -/
  aclTaken : List (Packet aclMax)
  aclPassed : List (Packet aclMax)
  /-- How often `send_cmd` and `write_acl_data` have returned. -/
  returned : ℕ

inductive TxStep (Ctx : Type*)
  | submitCmd (buf : CmdBuf)
  | submitAcl (om : List (List UInt8))
  /-- `run` registers its pump. -/
  | register
  /-- `pump_manual` up to the poll. -/
  | enter (c : Ctx)
  /-- The next point of a poll; `ready` is what the awaited call says. -/
  | turn (c : Ctx) (ready : Bool)

variable {aclMax aclDepth : ℕ} {Ctx : Type*} [DecidableEq Ctx]

namespace TxPump

def start : TxPump aclMax aclDepth Ctx :=
  ⟨⟨none, false⟩, Channel.new, Channel.new, .select, fun _ => none, [], [], [], [], [], 0⟩

def goTo (s : TxPump aclMax aclDepth Ctx) (c : Ctx) (point : TxPoint) :
    TxPump aclMax aclDepth Ctx :=
  { s with polls := Function.update s.polls c (some point) }

/-- A look at the command queue. -/
def receiveCmd (s : TxPump aclMax aclDepth Ctx) (c : Ctx) : TxPump aclMax aclDepth Ctx :=
  match s.cmdQueue.pollReceive () with
  | (queue, some cmd, _) =>
    { s with cmdQueue := queue, cmdsPassed := s.cmdsPassed ++ [cmd] }.goTo c .sendCmd
  | (queue, none, _) => { s with cmdQueue := queue }.goTo c (.receiveAcl s.cmdsAccepted.length)

/-- A look at the ACL queue; a malformed packet is dropped and the loop goes on. -/
def receiveAcl (bt : BtHci) (s : TxPump aclMax aclDepth Ctx) (c : Ctx) :
    TxPump aclMax aclDepth Ctx :=
  match s.aclQueue.pollReceive () with
  | (queue, some acl, _) =>
    if bt.parsesAcl acl.bytes then
      { s with
        aclQueue := queue
        aclTaken := s.aclTaken ++ [acl]
        aclPassed := s.aclPassed ++ [acl] }.goTo c .writeAclData
    else { s with aclQueue := queue, aclTaken := s.aclTaken ++ [acl] }.goTo c .receiveCmd
  | (queue, none, _) => { s with aclQueue := queue }.goTo c (.pending .select)

end TxPump

def txTurn (bt : BtHci) (s : TxPump aclMax aclDepth Ctx) (c : Ctx) (ready : Bool) :
    TxPoint → TxPump aclMax aclDepth Ctx
  | .receiveCmd => s.receiveCmd c
  | .receiveAcl _ => s.receiveAcl bt c
  | .sendCmd =>
    if ready then { s with returned := s.returned + 1 }.goTo c .receiveCmd
    else s.goTo c (.pending .sendCmd)
  | .writeAclData =>
    -- a write error is logged, and the loop goes on as after a success
    if ready then { s with returned := s.returned + 1 }.goTo c .receiveCmd
    else s.goTo c (.pending .writeAclData)
  | .pending wait =>
    { s with
      slot := pumpManualLeave s.slot
      wait := wait
      polls := Function.update s.polls c none }

def txStep (bt : BtHci) (s : TxPump aclMax aclDepth Ctx) :
    TxStep Ctx → Option (TxPump aclMax aclDepth Ctx)
  | .submitCmd buf =>
    let cmd := bleTransportToLlCmdCopy buf
    match s.cmdQueue.trySend cmd with
    | none => some s
    | some (queue, _) =>
      some { s with cmdQueue := queue, cmdsAccepted := s.cmdsAccepted ++ [cmd] }
  | .submitAcl om =>
    match bleTransportToLlAclFlatten om with
    | none => some s
    | some acl =>
      match s.aclQueue.trySend acl with
      | none => some s
      | some (queue, _) =>
        some { s with aclQueue := queue, aclAccepted := s.aclAccepted ++ [acl] }
  | .register =>
    if s.slot.fut = none then some { s with slot := registerPump s.slot 0, wait := .select }
    else none
  | .enter c =>
    match pumpManualEnter s.slot with
    | (_, none) => some s
    | (slot, some _) => some ({ s with slot := slot }.goTo c s.wait.resume)
  | .turn c ready => (s.polls c).map (txTurn bt s c ready)

/-- What has been passed on and what is queued are the accepted packets of the kind in
their order, up to the ACL packets that did not parse, and at most one is in processing. -/
structure InOrder (bt : BtHci) (s : TxPump aclMax aclDepth Ctx) : Prop where
  cmds : s.cmdsPassed ++ s.cmdQueue.queue = s.cmdsAccepted
  acl : s.aclTaken ++ s.aclQueue.queue = s.aclAccepted
  parsed : s.aclPassed = s.aclTaken.filter (fun p => bt.parsesAcl p.bytes)
  atMostOne : s.cmdsPassed.length + s.aclPassed.length ≤ s.returned + 1

/-- A look at a command queue that is not empty picks its first command, and an ACL
packet is picked only if all queued commands came in after the look that preceded it. -/
def CmdsFirst (s : TxPump aclMax aclDepth Ctx) : TxStep Ctx → Prop
  | .turn c _ =>
    match s.polls c with
    | some .receiveCmd => ∀ cmd l, s.cmdQueue.queue = cmd :: l →
      (s.receiveCmd c).cmdsPassed = s.cmdsPassed ++ [cmd]
    | some (.receiveAcl looked) => s.cmdQueue.queue = s.cmdsAccepted.drop looked
    | _ => True
  | _ => True

/-- No ACL packet is picked while a command is queued. -/
def CmdsAlwaysFirst (s : TxPump aclMax aclDepth Ctx) : TxStep Ctx → Prop
  | .turn c _ =>
    match s.polls c with
    | some (.receiveAcl _) => s.aclQueue.queue ≠ [] → s.cmdQueue.queue = []
    | _ => True
  | _ => True

/-- The flag of the slot keeps the arm in the hands of one context. -/
structure TxOwned (s : TxPump aclMax aclDepth Ctx) : Prop where
  registered : s.slot.fut = none → s.slot.busy = false ∧ s.wait = .select
  polls : s.slot.busy = false ∧ (∀ c, s.polls c = none) ∧
      s.cmdsPassed.length + s.aclPassed.length = s.returned + s.wait.held ∨
    s.slot.busy = true ∧ ∃ c point, s.polls c = some point ∧
      (∀ d, d ≠ c → s.polls d = none) ∧
      s.cmdsPassed.length + s.aclPassed.length = s.returned + point.held

/-- What is queued behind a look that found the command queue empty came in since. -/
def TxLooked (s : TxPump aclMax aclDepth Ctx) : Prop :=
  ∀ c looked, s.polls c = some (.receiveAcl looked) →
    looked ≤ s.cmdsAccepted.length ∧ s.cmdQueue.queue = s.cmdsAccepted.drop looked

namespace TxOwned

variable {s s' : TxPump aclMax aclDepth Ctx} {c : Ctx} {point : TxPoint}

omit [DecidableEq Ctx] in
theorem atMostOne (h : TxOwned s) : s.cmdsPassed.length + s.aclPassed.length ≤ s.returned + 1 := by
  obtain ⟨-, -, hcount⟩ | ⟨-, c, point, -, -, hcount⟩ := h.polls
  · have hheld : s.wait.held ≤ 1 := by cases s.wait <;> decide
    omega
  · have hheld : point.held ≤ 1 := by
      cases point with
      | pending wait => cases wait <;> decide
      | _ => simp [TxPoint.held]
    omega

omit [DecidableEq Ctx] in
/-- A context in a poll is the only one. -/
theorem owner (h : TxOwned s) (hc : s.polls c = some point) :
    s.slot.busy = true ∧ (∀ d, d ≠ c → s.polls d = none) ∧
      s.cmdsPassed.length + s.aclPassed.length = s.returned + point.held := by
  obtain ⟨-, hnone, -⟩ | ⟨hbusy, d, point', hd, hothers, hcount⟩ := h.polls
  · rw [hnone c] at hc
    exact absurd hc (by simp)
  · have hcd : c = d := by
      by_contra hne
      rw [hothers c hne] at hc
      exact absurd hc (by simp)
    subst hcd
    rw [hc] at hd
    obtain rfl := Option.some.inj hd
    exact ⟨hbusy, hothers, hcount⟩

/-- The arm goes on in the poll of its context. -/
theorem goOn (h : TxOwned s) (hc : s.polls c = some point) {next : TxPoint}
    (hslot : s'.slot = s.slot) (hpolls : s'.polls = Function.update s.polls c (some next))
    (hcount : s'.cmdsPassed.length + s'.aclPassed.length = s'.returned + next.held) :
    TxOwned s' := by
  obtain ⟨hbusy, hothers, -⟩ := h.owner hc
  constructor
  · intro hfut
    rw [hslot] at hfut
    have hidle := (h.registered hfut).1
    rw [hbusy] at hidle
    exact absurd hidle (by simp)
  · right
    refine ⟨by rw [hslot, hbusy], c, next, by simp [hpolls], fun d hd => ?_, hcount⟩
    rw [hpolls, Function.update_of_ne hd]
    exact hothers d hd

theorem leave (h : TxOwned s) {wait : TxWait} (hc : s.polls c = some (.pending wait)) :
    TxOwned { s with
      slot := pumpManualLeave s.slot
      wait := wait
      polls := Function.update s.polls c none } := by
  obtain ⟨hbusy, hothers, hcount⟩ := h.owner hc
  constructor
  · intro hfut
    have hidle := (h.registered hfut).1
    rw [hbusy] at hidle
    exact absurd hidle (by simp)
  · left
    refine ⟨rfl, fun d => ?_, hcount⟩
    show Function.update s.polls c none d = none
    by_cases hd : d = c
    · rw [hd, Function.update_self]
    · rw [Function.update_of_ne hd]
      exact hothers d hd

theorem enter (h : TxOwned s) (hidle : s.slot.busy = false) (hfut : s.slot.fut ≠ none) :
    TxOwned ({ s with slot := { s.slot with busy := true } }.goTo c s.wait.resume) := by
  obtain ⟨-, hnone, hcount⟩ | ⟨hbusy, -⟩ := h.polls
  · constructor
    · exact fun hf => absurd hf hfut
    · right
      refine ⟨rfl, c, s.wait.resume, by simp [TxPump.goTo], fun d hd => ?_, ?_⟩
      · show Function.update s.polls c _ d = none
        rw [Function.update_of_ne hd]
        exact hnone d
      · rw [TxWait.held_resume]
        exact hcount
  · rw [hidle] at hbusy
    exact absurd hbusy (by simp)

omit [DecidableEq Ctx] in
theorem register (h : TxOwned s) (hfut : s.slot.fut = none) :
    TxOwned { s with slot := registerPump s.slot 0, wait := .select } := by
  obtain ⟨hidle, hwait⟩ := h.registered hfut
  constructor
  · exact fun hf => absurd hf (by simp [registerPump])
  · left
    obtain ⟨-, hnone, hcount⟩ | ⟨hbusy, -⟩ := h.polls
    · rw [hwait] at hcount
      exact ⟨rfl, hnone, hcount⟩
    · rw [hidle] at hbusy
      exact absurd hbusy (by simp)

end TxOwned

/-- Order, ownership and the look that precedes an ACL packet. -/
structure TxInvariant (bt : BtHci) (s : TxPump aclMax aclDepth Ctx) : Prop where
  cmds : s.cmdsPassed ++ s.cmdQueue.queue = s.cmdsAccepted
  acl : s.aclTaken ++ s.aclQueue.queue = s.aclAccepted
  parsed : s.aclPassed = s.aclTaken.filter (fun p => bt.parsesAcl p.bytes)
  owned : TxOwned s
  looked : TxLooked s

namespace TxInvariant

variable {bt : BtHci} {s s' : TxPump aclMax aclDepth Ctx} {c : Ctx}

omit [DecidableEq Ctx] in
theorem inOrder (h : TxInvariant bt s) : InOrder bt s :=
  ⟨h.cmds, h.acl, h.parsed, h.owned.atMostOne⟩

theorem cmdsFirst (h : TxInvariant bt s) (a : TxStep Ctx) : CmdsFirst s a := by
  cases a with
  | turn c ready =>
    cases hc : s.polls c with
    | none => simp only [CmdsFirst, hc]
    | some point =>
      cases point with
      | receiveCmd =>
        simp only [CmdsFirst, hc]
        intro cmd l hqueue
        obtain ⟨a, queue, hq, hpoll⟩ | ⟨-, -, hq, -, -⟩ := s.cmdQueue.pollReceive_cases ()
        · simp only [TxPump.receiveCmd, hpoll]
          rw [hqueue] at hq
          obtain ⟨rfl, -⟩ := List.cons_eq_cons.mp hq
          rfl
        · rw [hqueue] at hq
          exact absurd hq (by simp)
      | receiveAcl looked =>
        simp only [CmdsFirst, hc]
        exact (h.looked c looked hc).2
      | _ => simp only [CmdsFirst, hc]
  | _ => trivial

/-- A step that moves no packet, or only moves the arm past `receiveAcl`. -/
theorem looked_goTo {next : TxPoint} (hnext : ∀ looked, next ≠ .receiveAcl looked)
    (h : TxInvariant bt s) {point : TxPoint} (hc : s.polls c = some point)
    (hpolls : s'.polls = Function.update s.polls c (some next)) : TxLooked s' := by
  obtain ⟨-, hothers, -⟩ := h.owned.owner hc
  intro d looked hd
  rw [hpolls] at hd
  by_cases hdc : d = c
  · rw [hdc, Function.update_self] at hd
    exact absurd (Option.some.inj hd) (hnext looked)
  · rw [Function.update_of_ne hdc, hothers d hdc] at hd
    exact absurd hd (by simp)

theorem receiveCmd (h : TxInvariant bt s) (hc : s.polls c = some .receiveCmd) :
    TxInvariant bt (s.receiveCmd c) := by
  have hcmds := h.cmds
  obtain ⟨-, -, hcount⟩ := h.owned.owner hc
  obtain ⟨cmd, queue, hq, hpoll⟩ | ⟨queue, old, hq, hq', hpoll⟩ :=
    s.cmdQueue.pollReceive_cases ()
  · simp only [TxPump.receiveCmd, hpoll]
    refine ⟨?_, h.acl, h.parsed, ?_, looked_goTo (by simp) h hc rfl⟩
    · show (s.cmdsPassed ++ [cmd]) ++ queue.queue = s.cmdsAccepted
      rw [← hcmds, hq]
      simp
    · refine h.owned.goOn hc rfl rfl ?_
      show (s.cmdsPassed ++ [cmd]).length + s.aclPassed.length = s.returned + 1
      simp only [TxPoint.held] at hcount
      rw [List.length_append, List.length_singleton]
      omega
  · simp only [TxPump.receiveCmd, hpoll]
    refine ⟨?_, h.acl, h.parsed, h.owned.goOn hc rfl rfl hcount, ?_⟩
    · show s.cmdsPassed ++ queue.queue = s.cmdsAccepted
      rw [hq', ← hcmds, hq]
    · obtain ⟨-, hothers, -⟩ := h.owned.owner hc
      intro d looked hd
      have hd' : Function.update s.polls c (some (.receiveAcl s.cmdsAccepted.length)) d =
          some (.receiveAcl looked) := hd
      show looked ≤ s.cmdsAccepted.length ∧ queue.queue = s.cmdsAccepted.drop looked
      by_cases hdc : d = c
      · rw [hdc, Function.update_self, Option.some.injEq, TxPoint.receiveAcl.injEq] at hd'
        rw [← hd', List.drop_length, hq']
        exact ⟨le_rfl, rfl⟩
      · rw [Function.update_of_ne hdc, hothers d hdc] at hd'
        exact absurd hd' (by simp)

theorem receiveAcl (h : TxInvariant bt s) {looked : ℕ}
    (hc : s.polls c = some (.receiveAcl looked)) : TxInvariant bt (s.receiveAcl bt c) := by
  have hacl := h.acl
  have hparsed := h.parsed
  obtain ⟨-, -, hcount⟩ := h.owned.owner hc
  simp only [TxPoint.held] at hcount
  obtain ⟨acl, queue, hq, hpoll⟩ | ⟨queue, old, hq, hq', hpoll⟩ :=
    s.aclQueue.pollReceive_cases ()
  · have htaken : (s.aclTaken ++ [acl]) ++ queue.queue = s.aclAccepted := by
      rw [← hacl, hq]
      simp
    by_cases hparses : bt.parsesAcl acl.bytes = true
    · simp only [TxPump.receiveAcl, hpoll, hparses, if_true]
      refine ⟨h.cmds, htaken, ?_, ?_, looked_goTo (by simp) h hc rfl⟩
      · show s.aclPassed ++ [acl] = (s.aclTaken ++ [acl]).filter _
        simp [hparsed, hparses]
      · refine h.owned.goOn hc rfl rfl ?_
        show s.cmdsPassed.length + (s.aclPassed ++ [acl]).length = s.returned + 1
        rw [List.length_append, List.length_singleton]
        omega
    · simp only [TxPump.receiveAcl, hpoll, hparses]
      refine ⟨h.cmds, htaken, ?_, h.owned.goOn hc rfl rfl hcount, looked_goTo (by simp) h hc rfl⟩
      show s.aclPassed = (s.aclTaken ++ [acl]).filter _
      simp [hparsed, hparses]
  · simp only [TxPump.receiveAcl, hpoll]
    refine ⟨h.cmds, ?_, hparsed, h.owned.goOn hc rfl rfl hcount, looked_goTo (by simp) h hc rfl⟩
    show s.aclTaken ++ queue.queue = s.aclAccepted
    rw [hq', ← hacl, hq]

/-- An awaited call is polled: it returns, or the arm stays suspended on it. -/
theorem await (h : TxInvariant bt s) {point : TxPoint} (hc : s.polls c = some point)
    (hpoint : point.held = 1) (ready : Bool) {wait : TxWait} (hwait : wait.held = 1) :
    TxInvariant bt (if ready then { s with returned := s.returned + 1 }.goTo c .receiveCmd
      else s.goTo c (.pending wait)) := by
  obtain ⟨-, -, hcount⟩ := h.owned.owner hc
  rw [hpoint] at hcount
  cases ready with
  | true =>
    rw [if_pos rfl]
    exact ⟨h.cmds, h.acl, h.parsed, h.owned.goOn hc rfl rfl hcount,
      looked_goTo (by simp) h hc rfl⟩
  | false =>
    rw [if_neg Bool.false_ne_true]
    refine ⟨h.cmds, h.acl, h.parsed, h.owned.goOn hc rfl rfl ?_, looked_goTo (by simp) h hc rfl⟩
    show s.cmdsPassed.length + s.aclPassed.length = s.returned + wait.held
    omega

theorem turn (h : TxInvariant bt s) {ready : Bool} {point : TxPoint}
    (hc : s.polls c = some point) : TxInvariant bt (txTurn bt s c ready point) := by
  cases point with
  | receiveCmd => exact h.receiveCmd hc
  | receiveAcl looked => exact h.receiveAcl hc
  | sendCmd => exact h.await hc rfl ready rfl
  | writeAclData => exact h.await hc rfl ready rfl
  | pending wait =>
    obtain ⟨-, hothers, -⟩ := h.owned.owner hc
    refine ⟨h.cmds, h.acl, h.parsed, h.owned.leave hc, fun d looked hd => ?_⟩
    have hd' : Function.update s.polls c none d = some (.receiveAcl looked) := hd
    by_cases hdc : d = c
    · rw [hdc, Function.update_self] at hd'
      exact absurd hd' (by simp)
    · rw [Function.update_of_ne hdc, hothers d hdc] at hd'
      exact absurd hd' (by simp)

theorem submitCmd (h : TxInvariant bt s) {buf : CmdBuf}
    (hstep : txStep bt s (.submitCmd buf) = some s') : TxInvariant bt s' := by
  simp only [txStep] at hstep
  split at hstep
  · obtain rfl := Option.some.inj hstep
    exact h
  next queue w hsend =>
    obtain rfl := Option.some.inj hstep
    have hqueue := Channel.trySend_queue hsend
    refine ⟨?_, h.acl, h.parsed, ⟨h.owned.registered, h.owned.polls⟩, fun d looked hd => ?_⟩
    · show s.cmdsPassed ++ queue.queue = s.cmdsAccepted ++ [_]
      rw [hqueue, ← List.append_assoc, h.cmds]
    · obtain ⟨hle, hdrop⟩ := h.looked d looked hd
      show looked ≤ (s.cmdsAccepted ++ [_]).length ∧
        queue.queue = (s.cmdsAccepted ++ [_]).drop looked
      rw [hqueue, hdrop, List.drop_append_of_le_length hle, List.length_append]
      exact ⟨by omega, rfl⟩

theorem submitAcl (h : TxInvariant bt s) {om : List (List UInt8)}
    (hstep : txStep bt s (.submitAcl om) = some s') : TxInvariant bt s' := by
  simp only [txStep] at hstep
  split at hstep
  · obtain rfl := Option.some.inj hstep
    exact h
  · split at hstep
    · obtain rfl := Option.some.inj hstep
      exact h
    next queue w hsend =>
      obtain rfl := Option.some.inj hstep
      have hqueue := Channel.trySend_queue hsend
      refine ⟨h.cmds, ?_, h.parsed, ⟨h.owned.registered, h.owned.polls⟩, h.looked⟩
      show s.aclTaken ++ queue.queue = s.aclAccepted ++ [_]
      rw [hqueue, ← List.append_assoc, h.acl]

theorem register (h : TxInvariant bt s) (hstep : txStep bt s .register = some s') :
    TxInvariant bt s' := by
  simp only [txStep] at hstep
  split at hstep
  next hfut =>
    obtain rfl := Option.some.inj hstep
    exact ⟨h.cmds, h.acl, h.parsed, h.owned.register hfut, h.looked⟩
  · exact absurd hstep (by simp)

theorem enter (h : TxInvariant bt s) (hstep : txStep bt s (.enter c) = some s') :
    TxInvariant bt s' := by
  obtain hturned | ⟨fut, hbusy, hfut, hgo⟩ := pumpManualEnter_cases s.slot
  · simp only [txStep, hturned, Option.some.injEq] at hstep
    subst hstep
    exact h
  · simp only [txStep, hgo, Option.some.injEq] at hstep
    subst hstep
    have hnone : ∀ d, s.polls d = none := by
      obtain ⟨-, hnone, -⟩ | ⟨hb, -⟩ := h.owned.polls
      · exact hnone
      · rw [hbusy] at hb
        exact absurd hb (by simp)
    refine ⟨h.cmds, h.acl, h.parsed, h.owned.enter hbusy (by simp [hfut]), fun d looked hd => ?_⟩
    have hd' : Function.update s.polls c (some s.wait.resume) d = some (.receiveAcl looked) := hd
    by_cases hdc : d = c
    · rw [hdc, Function.update_self] at hd'
      cases hw : s.wait <;> simp [hw, TxWait.resume] at hd'
    · rw [Function.update_of_ne hdc, hnone d] at hd'
      exact absurd hd' (by simp)

theorem step (h : TxInvariant bt s) {a : TxStep Ctx} (hstep : txStep bt s a = some s') :
    TxInvariant bt s' := by
  cases a with
  | submitCmd buf => exact h.submitCmd hstep
  | submitAcl om => exact h.submitAcl hstep
  | register => exact h.register hstep
  | enter c => exact h.enter hstep
  | turn c ready =>
    obtain ⟨point, hc, rfl⟩ := Option.map_eq_some_iff.mp hstep
    exact h.turn hc

omit [DecidableEq Ctx] in
theorem start : TxInvariant bt (TxPump.start : TxPump aclMax aclDepth Ctx) :=
  ⟨rfl, rfl, rfl, ⟨fun _ => ⟨rfl, rfl⟩, .inl ⟨rfl, fun _ => rfl, rfl⟩⟩, fun _ _ hd =>
    absurd hd (by simp [TxPump.start])⟩

end TxInvariant

/-- In every run the packets of a kind are passed on in the order in which they were
accepted, none twice and none left out, and commands go first. -/
theorem outbound_in_order (bt : BtHci) (steps : List (TxStep Ctx)) :
    Always (txStep bt) (InOrder bt) (TxPump.start : TxPump aclMax aclDepth Ctx) steps ∧
      Meets (txStep bt) CmdsFirst (TxPump.start : TxPump aclMax aclDepth Ctx) steps := by
  constructor
  · exact always_of_step (I := TxInvariant bt) (fun _ _ _ h hstep => h.step hstep)
      (fun _ h => h.inOrder) steps TxInvariant.start
  · exact meets_of_invariant (I := TxInvariant bt) (G := fun _ _ => True)
      (fun _ _ _ h _ hstep => h.step hstep) (fun _ a _ h _ _ => h.cmdsFirst a)
      TxInvariant.start (meets_true _ _)

instance (s : TxPump aclMax aclDepth Ctx) (a : TxStep Ctx) : Decidable (CmdsAlwaysFirst s a) := by
  cases a <;> simp only [CmdsAlwaysFirst] <;> first | infer_instance | (split <;> infer_instance)

/-- A command comes in between the two looks of the `select`. -/
theorem acl_picked_before_command :
    ¬ Meets (txStep ⟨fun _ => 0, fun _ _ => true, fun _ => true⟩) CmdsAlwaysFirst
      (TxPump.start : TxPump 255 4 (Fin 1))
      [.register, .submitAcl [[0, 0, 0, 0]], .enter 0, .turn 0 false,
        .submitCmd ⟨[3, 12, 0], by decide⟩, .turn 0 false] := by
  decide

end NimbleRs.Hci
