import NimbleRs.SendCmd
import NimbleRs.TransitionSystem
import Mathlib.Tactic

/-!
# Events on their way into the host

`feed_event` and `rx_dispatch` over the event buffers of the C transport, and a caller
that is blocked on the ack of its command while the two arms of the pump run. The wait
in `ble_npl_sem_pend` only polls the pump, so that its polls are steps of the arms, in
any order. The transport is taken as its contract: `ble_transport_alloc_evt(0)` fails
exactly when all its `N` buffers are outstanding, and any answer to
`ble_transport_alloc_evt(1)` is possible.
-/
namespace NimbleRs.Hci
open TransitionSystem

/-- An outstanding buffer; `counted` are the `N` that `ble_transport_alloc_evt(0)` hands out. -/
structure EvtBuf where
  bytes : List UInt8
  counted : Bool

/-- The buffers that the host holds, and all events that it has been passed. -/
structure HostEvents where
  acks : List EvtBuf
  queued : List EvtBuf
  toHs : List (List UInt8)

namespace HostEvents

def outstanding (h : HostEvents) : ℕ := h.acks.countP (·.counted) + h.queued.countP (·.counted)

/-- Commands are acked to the blocked caller, all other events wait for `run_events`. -/
def bleTransportToHsEvtImpl (h : HostEvents) (buf : EvtBuf) : HostEvents :=
  if buf.bytes.head? = some 0x0e ∨ buf.bytes.head? = some 0x0f then
    { h with acks := h.acks ++ [buf], toHs := h.toHs ++ [buf.bytes] }
  else { h with queued := h.queued ++ [buf], toHs := h.toHs ++ [buf.bytes] }

theorem toHs_outstanding (h : HostEvents) (buf : EvtBuf) :
    (h.bleTransportToHsEvtImpl buf).outstanding = h.outstanding + buf.counted.toNat := by
  have hcount : ∀ l : List EvtBuf, (l ++ [buf]).countP (·.counted) =
      l.countP (·.counted) + buf.counted.toNat := by
    intro l
    cases hb : buf.counted with
    | true => simp [List.countP_append, hb]
    | false => simp [List.countP_append, hb]
  unfold bleTransportToHsEvtImpl
  split
  · simp only [outstanding, hcount]
    omega
  · simp only [outstanding, hcount]
    omega

theorem toHs_toHs (h : HostEvents) (buf : EvtBuf) :
    (h.bleTransportToHsEvtImpl buf).toHs = h.toHs ++ [buf.bytes] := by
  unfold bleTransportToHsEvtImpl
  split
  · rfl
  · rfl

end HostEvents

/-- The buffer that is handed out: is it one of the `N`? The answer for a discardable
event is the transport's choice. -/
def bleTransportAllocEvt (N : ℕ) (h : HostEvents) (discardable : Bool) (answer : Option Bool) :
    Option Bool :=
  if discardable then
    match answer with
    | some true => if h.outstanding < N then some true else none
    | _ => answer
  else if h.outstanding < N then some true else none

def feedEvent (N : ℕ) (h : HostEvents) (code : UInt8) (params : List UInt8) (discardable : Bool)
    (answer : Option Bool) : HostEvents :=
  match bleTransportAllocEvt N h discardable answer with
  | none => h
  | some counted =>
    h.bleTransportToHsEvtImpl ⟨code :: .ofNat params.length :: params, counted⟩

/-- The event asks for one of the `N` buffers. -/
def draws (discardable : Bool) (answer : Option Bool) : ℕ :=
  if discardable = false ∨ answer = some true then 1 else 0

theorem allocEvt_draws {N : ℕ} {h : HostEvents} (hN : h.outstanding ≤ N) (discardable : Bool)
    (answer : Option Bool) :
    h.outstanding + ((bleTransportAllocEvt N h discardable answer).elim 0 Bool.toNat) =
      min N (h.outstanding + draws discardable answer) := by
  unfold bleTransportAllocEvt draws
  by_cases hroom : h.outstanding < N
  · cases discardable with
    | false => simp [hroom]
    | true =>
      cases answer with
      | none => simp [hN]
      | some counted => cases counted <;> simp [hroom, hN]
  · have hfull : h.outstanding = N := by omega
    cases discardable with
    | false => simp [hfull]
    | true =>
      cases answer with
      | none => simp [hfull]
      | some counted => cases counted <;> simp [hfull]

theorem feedEvent_outstanding {N : ℕ} {h : HostEvents} (hN : h.outstanding ≤ N) (code : UInt8)
    (params : List UInt8) (discardable : Bool) (answer : Option Bool) :
    (feedEvent N h code params discardable answer).outstanding =
      min N (h.outstanding + draws discardable answer) := by
  rw [← allocEvt_draws hN, feedEvent]
  cases bleTransportAllocEvt N h discardable answer with
  | none => rfl
  | some counted => exact h.toHs_outstanding _

/-- An ack is fed as a whole, and only if one of the `N` buffers is left for it. -/
theorem feedEvent_toHs (N : ℕ) (h : HostEvents) (code : UInt8) (params : List UInt8) :
    (feedEvent N h code params false none).toHs =
      if h.outstanding < N then h.toHs ++ [code :: .ofNat params.length :: params]
      else h.toHs := by
  unfold feedEvent bleTransportAllocEvt
  by_cases hroom : h.outstanding < N
  · simp [hroom, HostEvents.toHs_toHs]
  · simp [hroom]

/-- `feed_event(evt[0], &evt[2..], false)` -/
def feedAck (N : ℕ) (h : HostEvents) (evt : Packet evtPacketMax) : HostEvents :=
  feedEvent N h (evt.bytes.getD 0 0) (evt.bytes.drop 2) false none

theorem feedAck_toHs {N : ℕ} {h : HostEvents} {evt : Packet evtPacketMax} (hevt : Framed evt) :
    (feedAck N h evt).toHs = if h.outstanding < N then h.toHs ++ [evt.bytes] else h.toHs := by
  obtain ⟨code, params, hbytes⟩ := hevt
  unfold feedAck
  rw [feedEvent_toHs, hbytes]
  rfl

inductive ControllerToHostPacket
  | event (code : UInt8) (params : List UInt8)
  | acl (raw : List UInt8)
  | sync
  | iso

/-- LE advertising reports. -/
def discardable (code : UInt8) (params : List UInt8) : Bool :=
  code = 0x3e ∧ (params.head? = some 0x02 ∨ params.head? = some 0x0d)

/-- An ACL packet takes an mbuf and no event buffer. -/
def rxDispatch (N : ℕ) (h : HostEvents) (answer : Option Bool) :
    ControllerToHostPacket → HostEvents
  | .event code params => feedEvent N h code params (discardable code params) answer
  | _ => h

def ControllerToHostPacket.draws (answer : Option Bool) : ControllerToHostPacket → ℕ
  | .event code params => Hci.draws (discardable code params) answer
  | _ => 0

theorem rxDispatch_outstanding {N : ℕ} {h : HostEvents} (hN : h.outstanding ≤ N)
    (answer : Option Bool) (packet : ControllerToHostPacket) :
    (rxDispatch N h answer packet).outstanding = min N (h.outstanding + packet.draws answer) := by
  cases packet with
  | event code params => exact feedEvent_outstanding hN ..
  | _ => exact (Nat.min_eq_right hN).symm

/-- What the TX arm is suspended on; a command in `exec` keeps its number. -/
inductive TxArm
  | select
  | exec (id : ℕ) (kind : CmdKind) (opcode : UInt16)
  | write
  deriving DecidableEq

/-- Commands are numbered as they are submitted. -/
structure AckWait where
  host : HostEvents
  cmdQueue : Channel (ℕ × Packet cmdPacketMax) Unit cmdQueueDepth
  tx : TxArm
  /-- The command that a caller is blocked on; `run_events` is not polled meanwhile. -/
  caller : Option ℕ
  sent : ℕ
  /-- The buffers that were outstanding when the caller blocked. -/
  before : ℕ
  /-- The events since then that asked for one of the `N` buffers. -/
  drawn : ℕ

inductive AckStep
  | submit (buf : CmdBuf)
  | select
  | write
  | written
  | execDone (result : Except CmdError ReturnParams)
  | read (packet : ControllerToHostPacket) (answer : Option Bool)
  | consume
  | expire
  | runEvent

namespace AckWait

def start : AckWait := ⟨⟨[], [], []⟩, Channel.new, .select, none, 0, 0, 0⟩

def ack (s : AckWait) (N : ℕ) (evt : Packet evtPacketMax) : AckWait :=
  { s with host := feedAck N s.host evt, drawn := s.drawn + 1 }

end AckWait

def ackStep (N : ℕ) (bt : BtHci) (f : Features) (s : AckWait) : AckStep → Option AckWait
  | .submit buf =>
    if s.caller = none then
      (s.cmdQueue.trySend (s.sent, bleTransportToLlCmdCopy buf)).map fun r =>
        { s with
          cmdQueue := r.1
          caller := some s.sent
          sent := s.sent + 1
          before := s.host.outstanding
          drawn := 0 }
    else none
  | .select =>
    if s.tx = .select then
      match s.cmdQueue.pollReceive () with
      | (_, none, _) => none
      | (queue, some (id, cmd), _) =>
        match sendCmd bt f cmd.bytes with
        | .exec kind _ opcode _ => some { s with cmdQueue := queue, tx := .exec id kind opcode }
        | .answered evt => some ({ s with cmdQueue := queue }.ack N evt)
    else none
  | .write =>
    -- a packet of the ACL queue, which is looked at only behind an empty command queue
    if s.tx = .select ∧ s.cmdQueue.queue = [] then some { s with tx := .write } else none
  | .written => if s.tx = .write then some { s with tx := .select } else none
  | .execDone result =>
    match s.tx with
    | .exec _ kind opcode => some ({ s with tx := .select }.ack N (kind.ack opcode result))
    | _ => none
  | .read packet answer =>
    some { s with
      host := rxDispatch N s.host answer packet
      drawn := s.drawn + packet.draws answer }
  | .consume =>
    match s.caller, s.host.acks with
    | some _, _ :: acks => some { s with host := { s.host with acks := acks }, caller := none }
    | _, _ => none
  | .expire => if s.caller.isSome then some { s with caller := none } else none
  | .runEvent =>
    match s.caller, s.host.queued with
    | none, _ :: queued => some { s with host := { s.host with queued := queued } }
    | _, _ => none

/-- The ack of the awaited command is passed to the host, byte for byte, when `exec` completes. -/
def AckReachesHost (N : ℕ) (bt : BtHci) (f : Features) (s : AckWait) : AckStep → Prop
  | .execDone result =>
    match s.tx with
    | .exec id kind opcode => s.caller = some id →
      (ackStep N bt f s (.execDone result)).map (·.host.toHs) =
        some (s.host.toHs ++ [(kind.ack opcode result).bytes])
    | _ => True
  | _ => True

/-- The host held few enough buffers when the caller blocked, and few enough events
came in since. -/
def LeavesRoom (N : ℕ) (s : AckWait) : AckStep → Prop
  | .execDone _ =>
    match s.tx with
    | .exec id _ _ => s.caller = some id → s.before + s.drawn < N
    | _ => True
  | _ => True

/-- While the caller is blocked no buffer comes back. -/
structure Accounted (N : ℕ) (s : AckWait) : Prop where
  bound : s.host.outstanding ≤ N
  blocked : s.caller.isSome → s.host.outstanding = min N (s.before + s.drawn)

namespace Accounted

variable {N : ℕ} {bt : BtHci} {f : Features} {s s' : AckWait}

theorem draw (h : Accounted N s) {host : HostEvents} {n : ℕ}
    (hhost : host.outstanding = min N (s.host.outstanding + n)) {tx : TxArm}
    {queue : Channel (ℕ × Packet cmdPacketMax) Unit cmdQueueDepth} :
    Accounted N { s with host := host, cmdQueue := queue, tx := tx, drawn := s.drawn + n } := by
  have hbound := h.bound
  refine ⟨?_, fun hc => ?_⟩
  · show host.outstanding ≤ N
    omega
  · have hblocked := h.blocked hc
    show host.outstanding = min N (s.before + (s.drawn + n))
    omega

theorem ack (h : Accounted N s) (evt : Packet evtPacketMax) {tx : TxArm}
    {queue : Channel (ℕ × Packet cmdPacketMax) Unit cmdQueueDepth} :
    Accounted N ({ s with cmdQueue := queue, tx := tx }.ack N evt) :=
  h.draw (n := 1) (feedEvent_outstanding h.bound ..)

theorem submit (h : Accounted N s) {buf : CmdBuf}
    (hstep : ackStep N bt f s (.submit buf) = some s') : Accounted N s' := by
  by_cases hcaller : s.caller = none
  · simp only [ackStep, hcaller, if_true] at hstep
    obtain ⟨r, -, rfl⟩ := Option.map_eq_some_iff.mp hstep
    have hbound := h.bound
    refine ⟨hbound, fun _ => ?_⟩
    show s.host.outstanding = min N (s.host.outstanding + 0)
    omega
  · simp [ackStep, hcaller] at hstep

theorem select (h : Accounted N s) (hstep : ackStep N bt f s .select = some s') :
    Accounted N s' := by
  simp only [ackStep] at hstep
  split at hstep
  · split at hstep
    · exact absurd hstep (by simp)
    · split at hstep
      · obtain rfl := Option.some.inj hstep
        exact ⟨h.bound, h.blocked⟩
      · obtain rfl := Option.some.inj hstep
        exact h.ack _
  · exact absurd hstep (by simp)

theorem execDone (h : Accounted N s) {result : Except CmdError ReturnParams}
    (hstep : ackStep N bt f s (.execDone result) = some s') : Accounted N s' := by
  simp only [ackStep] at hstep
  split at hstep
  · obtain rfl := Option.some.inj hstep
    exact h.ack _
  · exact absurd hstep (by simp)

theorem consume (h : Accounted N s) (hstep : ackStep N bt f s .consume = some s') :
    Accounted N s' := by
  simp only [ackStep] at hstep
  split at hstep
  next buf acks _ hacks =>
    obtain rfl := Option.some.inj hstep
    have hbound := h.bound
    simp only [HostEvents.outstanding, hacks, List.countP_cons] at hbound
    refine ⟨?_, fun hc => absurd hc (by simp)⟩
    show acks.countP (·.counted) + s.host.queued.countP (·.counted) ≤ N
    omega
  next => exact absurd hstep (by simp)

theorem runEvent (h : Accounted N s) (hstep : ackStep N bt f s .runEvent = some s') :
    Accounted N s' := by
  simp only [ackStep] at hstep
  split at hstep
  next buf queued hcaller hqueued =>
    obtain rfl := Option.some.inj hstep
    have hbound := h.bound
    simp only [HostEvents.outstanding, hqueued, List.countP_cons] at hbound
    refine ⟨?_, fun hc => absurd hc (by simp [hcaller])⟩
    show s.host.acks.countP (·.counted) + queued.countP (·.counted) ≤ N
    omega
  next => exact absurd hstep (by simp)

theorem step (h : Accounted N s) {a : AckStep} (hstep : ackStep N bt f s a = some s') :
    Accounted N s' := by
  cases a with
  | submit buf => exact h.submit hstep
  | select => exact h.select hstep
  | execDone result => exact h.execDone hstep
  | consume => exact h.consume hstep
  | runEvent => exact h.runEvent hstep
  | read packet answer =>
    obtain rfl := Option.some.inj hstep
    exact h.draw (rxDispatch_outstanding h.bound ..)
  | write =>
    simp only [ackStep] at hstep
    split at hstep
    · obtain rfl := Option.some.inj hstep
      exact ⟨h.bound, h.blocked⟩
    · exact absurd hstep (by simp)
  | written =>
    simp only [ackStep] at hstep
    split at hstep
    · obtain rfl := Option.some.inj hstep
      exact ⟨h.bound, h.blocked⟩
    · exact absurd hstep (by simp)
  | expire =>
    simp only [ackStep] at hstep
    split at hstep
    · obtain rfl := Option.some.inj hstep
      exact ⟨h.bound, fun hc => absurd hc (by simp)⟩
    · exact absurd hstep (by simp)

/-- An ack that finds all buffers outstanding is dropped. -/
theorem reaches_iff (h : Accounted N s) (a : AckStep) :
    AckReachesHost N bt f s a ↔ LeavesRoom N s a := by
  cases a with
  | execDone result =>
    cases htx : s.tx with
    | exec id kind opcode =>
      simp only [AckReachesHost, LeavesRoom, ackStep, htx, Option.map_some, Option.some.injEq]
      refine forall_congr' (fun hcaller => ?_)
      have hblocked := h.blocked (by simp [hcaller])
      show (feedAck N s.host _).toHs = _ ↔ _
      rw [feedAck_toHs (kind.ack_framed opcode result)]
      by_cases hroom : s.host.outstanding < N
      · rw [if_pos hroom]
        refine iff_of_true rfl ?_
        omega
      · rw [if_neg hroom]
        refine iff_of_false (by simp) ?_
        omega
    | _ => simp [AckReachesHost, LeavesRoom, htx]
  | _ => exact Iff.rfl

end Accounted

/-- The acks that callers are blocked on reach the host in a run exactly when, at each of
them, the buffers outstanding when its caller blocked and the events that came in since
have left one of the `N` buffers. -/
theorem ack_reaches_host_iff (N : ℕ) (bt : BtHci) (f : Features) (steps : List AckStep) :
    Meets (ackStep N bt f) (AckReachesHost N bt f) AckWait.start steps ↔
      Meets (ackStep N bt f) (LeavesRoom N) AckWait.start steps :=
  meets_iff_meets (I := Accounted N) (fun _ a _ h _ => h.reaches_iff a)
    (fun _ _ _ h _ hstep => h.step hstep) steps
    ⟨Nat.zero_le N, fun hc => absurd hc (by simp [AckWait.start])⟩

instance (N : ℕ) (bt : BtHci) (f : Features) (s : AckWait) (a : AckStep) :
    Decidable (AckReachesHost N bt f s a) := by
  cases a <;> simp only [AckReachesHost] <;> first | infer_instance | (split <;> infer_instance)

/-- A Reset is being executed when the controller reports four disconnections; the caller
is blocked, so that nothing gives their buffers back. -/
theorem ack_dropped_behind_events :
    let bt : BtHci := ⟨fun c => if c = .reset then 0x0c03 else 0, fun _ _ => true, fun _ => true⟩
    ¬ Meets (ackStep 4 bt ⟨false, true, false, false, false⟩)
      (AckReachesHost 4 bt ⟨false, true, false, false, false⟩) AckWait.start
      ([.submit ⟨[0x03, 0x0c, 0], by decide⟩, .select] ++
        List.replicate 4 (.read (.event 0x05 [0, 0x40, 0, 0x13]) none) ++
        [.execDone (.ok ⟨[], by decide⟩)]) := by
  decide

end NimbleRs.Hci
