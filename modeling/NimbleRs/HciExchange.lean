import NimbleRs.CommandAck
import NimbleRs.FeedEvent
import Mathlib.Tactic

/-!
# The exchange between the host and the controller

Both arms of the pump, from one `await` to the next, over all the pumps that are registered
and dropped one after the other. A command is followed from the buffer of the host through
the queue, `send_cmd` and `exec`, and back as an ack. The histories say what became of the
packets of either side.
-/
namespace NimbleRs.Hci
open TransitionSystem

/-- A call of `exec` that a task awaits. -/
structure Await where
  kind : CmdKind
  command : Command
  params : List UInt8
  resume : Except CmdError ReturnParams → Task

/-- A task runs on to its next `await`: what it feeds on the way, and the call. -/
def Task.settle : Task → List (UInt8 × List UInt8) × Option Await
  | .done => ([], none)
  | .feedEvent code params next => ((code, params) :: next.settle.1, next.settle.2)
  | .exec kind command params resume => ([], some ⟨kind, command, params, resume⟩)

/-- Where the TX arm stands: a look of the `select`, or a call that it awaits. -/
inductive TxStage (aclMax : ℕ)
  | receiveCmd
  | receiveAcl
  | sendCmd (cmd : Packet cmdPacketMax) (made : List Call) (call : Await)
  | writeAclData (acl : Packet aclMax)

inductive RxStage
  | allocBuf
  | read

/-- What became of a command: `send_cmd` made these calls and returned, the pump was dropped
in the midst of it, or `ble_transport_ll_deinit` emptied the queue. -/
inductive CmdFate
  | acked (cmd : Packet cmdPacketMax) (calls : List Call)
  | lost (cmd : Packet cmdPacketMax)
  | drained (cmd : Packet cmdPacketMax)

namespace CmdFate

def cmd : CmdFate → Packet cmdPacketMax
  | acked cmd _ | lost cmd | drained cmd => cmd

/-- The command, if the pump has taken it from the queue. -/
def taken : CmdFate → Option (Packet cmdPacketMax)
  | acked cmd _ | lost cmd => some cmd
  | drained _ => none

def isLost : CmdFate → Bool
  | lost _ => true
  | _ => false

def acks : CmdFate → List (UInt8 × List UInt8)
  | acked _ calls => feeds calls
  | _ => []

end CmdFate

inductive AclFate (aclMax : ℕ)
  | written (acl : Packet aclMax)
  | malformed (acl : Packet aclMax)
  | lost (acl : Packet aclMax)
  | drained (acl : Packet aclMax)

namespace AclFate

variable {aclMax : ℕ}

def acl : AclFate aclMax → Packet aclMax
  | written acl | malformed acl | lost acl | drained acl => acl

def taken : AclFate aclMax → Option (Packet aclMax)
  | written acl | malformed acl | lost acl => some acl
  | drained _ => none

def isLost : AclFate aclMax → Bool
  | lost _ => true
  | _ => false

end AclFate

/-- Who an event comes from that is fed into the host. -/
inductive Origin
  | ack
  | controller
  deriving DecidableEq

structure FedEvent where
  source : Origin
  code : UInt8
  params : List UInt8

def FedEvent.bytes (e : FedEvent) : List UInt8 := e.code :: .ofNat e.params.length :: e.params

structure Exchange (aclMax aclDepth : ℕ) where
  cmdQueue : Channel (Packet cmdPacketMax) Unit cmdQueueDepth
  aclQueue : Channel (Packet aclMax) Unit aclDepth
  /-- The two arms of the registered pump. -/
  pump : Option (TxStage aclMax × RxStage)
  host : HostEvents
  cmdsAccepted : List (Packet cmdPacketMax)
  cmdFates : List CmdFate
  /-- The calls of `exec`. -/
  issued : List (Command × List UInt8)
  aclAccepted : List (Packet aclMax)
  aclFates : List (AclFate aclMax)
  /-- The calls of `write_acl_data`. -/
  written : List (Packet aclMax)
  eventsRead : List (UInt8 × List UInt8)
  /-- The calls of `feed_event`. -/
  fed : List FedEvent
  drops : ℕ

inductive ExchangeStep
  | submitCmd (buf : CmdBuf)
  | submitAcl (om : List (List UInt8))
  | register
  | dropPump
  | deinit
  | select
  | execDone (result : Except CmdError ReturnParams)
  | written
  | allocBuf (ok : Bool)
  /-- What `read` returns, and what the transport says to a discardable event. -/
  | read (packet : Option ControllerToHostPacket) (answer : Option Bool)
  /-- The host is done with the first ack, or with the first of the other events. -/
  | freeAck
  | freeEvent

variable {aclMax aclDepth : ℕ}

def TxStage.cmd : TxStage aclMax → Option (Packet cmdPacketMax)
  | .sendCmd cmd _ _ => some cmd
  | _ => none

def TxStage.acl : TxStage aclMax → Option (Packet aclMax)
  | .writeAclData acl => some acl
  | _ => none

/-- `while CMD_QUEUE.try_receive().is_ok() {}` -/
def Channel.drain {α Wk : Type*} {depth : ℕ} (c : Channel α Wk depth) : Channel α Wk depth :=
  ⟨[], c.receiverWaker, Nat.zero_le depth⟩

/-- The event that a packet is. -/
def ControllerToHostPacket.event? : ControllerToHostPacket → Option (UInt8 × List UInt8)
  | .event code params => some (code, params)
  | _ => none

namespace Exchange

def start : Exchange aclMax aclDepth :=
  ⟨Channel.new, Channel.new, none, ⟨[], [], []⟩, [], [], [], [], [], [], [], [], 0⟩

/-- The command that is in `send_cmd`. -/
def cmdTaken (s : Exchange aclMax aclDepth) : List (Packet cmdPacketMax) :=
  (s.pump.bind fun p => p.1.cmd).toList

/-- The packet that is in `write_acl_data`. -/
def aclTaken (s : Exchange aclMax aclDepth) : List (Packet aclMax) :=
  (s.pump.bind fun p => p.1.acl).toList

/-- `feed_event(evt[0], &evt[2..], false)`, for one ack after the other. -/
def feedAcks (N : ℕ) (s : Exchange aclMax aclDepth) (evts : List (UInt8 × List UInt8)) :
    Exchange aclMax aclDepth :=
  { s with
    host := evts.foldl (fun h e => feedEvent N h e.1 e.2 false none) s.host
    fed := s.fed ++ evts.map fun e => ⟨.ack, e.1, e.2⟩ }

/-- `send_cmd` gets on until it awaits a call or returns. -/
def proceed (N : ℕ) (s : Exchange aclMax aclDepth) (rx : RxStage) (cmd : Packet cmdPacketMax)
    (made : List Call) (task : Task) : Exchange aclMax aclDepth :=
  let made := made ++ task.settle.1.map fun e => .feedEvent e.1 e.2
  let s := s.feedAcks N task.settle.1
  match task.settle.2 with
  | some call => { s with
      pump := some (.sendCmd cmd made call, rx)
      issued := s.issued ++ [(call.command, call.params)] }
  | none => { s with
      pump := some (.receiveCmd, rx)
      cmdFates := s.cmdFates ++ [.acked cmd made] }

/-- The next look of the `select`. -/
def select (N : ℕ) (bt : BtHci) (f : Features) (s : Exchange aclMax aclDepth) :
    Option (Exchange aclMax aclDepth) :=
  match s.pump with
  | some (.receiveCmd, rx) =>
    match s.cmdQueue.pollReceive () with
    | (queue, some cmd, _) =>
      some ({ s with cmdQueue := queue }.proceed N rx cmd [] (sendCmdTask bt f cmd.bytes))
    | (queue, none, _) => some { s with cmdQueue := queue, pump := some (.receiveAcl, rx) }
  | some (.receiveAcl, rx) =>
    match s.aclQueue.pollReceive () with
    | (queue, some acl, _) =>
      if bt.parsesAcl acl.bytes then
        some { s with
          aclQueue := queue
          pump := some (.writeAclData acl, rx)
          written := s.written ++ [acl] }
      else
        some { s with
          aclQueue := queue
          pump := some (.receiveCmd, rx)
          aclFates := s.aclFates ++ [.malformed acl] }
    -- pending; the next poll begins with the command queue again
    | (queue, none, _) => some { s with aclQueue := queue, pump := some (.receiveCmd, rx) }
  | _ => none

/-- The packet that was read is dispatched, and the loop goes on. -/
def dispatch (N : ℕ) (s : Exchange aclMax aclDepth) (tx : TxStage aclMax) (answer : Option Bool)
    (packet : ControllerToHostPacket) : Exchange aclMax aclDepth :=
  { s with
    pump := some (tx, .allocBuf)
    host := rxDispatch N s.host answer packet
    eventsRead := s.eventsRead ++ packet.event?.toList
    fed := s.fed ++ packet.event?.toList.map fun e => ⟨.controller, e.1, e.2⟩ }

end Exchange

def exchangeStep (N : ℕ) (bt : BtHci) (f : Features) (s : Exchange aclMax aclDepth) :
    ExchangeStep → Option (Exchange aclMax aclDepth)
  | .submitCmd buf =>
    let cmd := bleTransportToLlCmdCopy buf
    match s.cmdQueue.trySend cmd with
    | none => some s
    | some (queue, _) =>
      some { s with cmdQueue := queue, cmdsAccepted := s.cmdsAccepted ++ [cmd] }
  | .submitAcl om =>
    match bleTransportToLlAclFlatten om with
    | none => some s
    | some acl =>
      match s.aclQueue.trySend acl with
      | none => some s
      | some (queue, _) =>
        some { s with aclQueue := queue, aclAccepted := s.aclAccepted ++ [acl] }
  | .register =>
    match s.pump with
    | none => some { s with pump := some (.receiveCmd, .allocBuf) }
    | some _ => none
  | .dropPump =>
    s.pump.map fun _ => { s with
      pump := none
      cmdFates := s.cmdFates ++ s.cmdTaken.map .lost
      aclFates := s.aclFates ++ s.aclTaken.map .lost
      drops := s.drops + 1 }
  | .deinit =>
    -- the driver is dropped, and `run` borrows it
    match s.pump with
    | none => some { s with
        cmdQueue := s.cmdQueue.drain
        aclQueue := s.aclQueue.drain
        cmdFates := s.cmdFates ++ s.cmdQueue.queue.map .drained
        aclFates := s.aclFates ++ s.aclQueue.queue.map .drained }
    | some _ => none
  | .select => s.select N bt f
  | .execDone result =>
    match s.pump with
    | some (.sendCmd cmd made call, rx) =>
      some (s.proceed N rx cmd (made ++ [.exec call.kind call.command call.params result])
        (call.resume result))
    | _ => none
  | .written =>
    -- an error is logged, and the loop goes on as after a success
    match s.pump with
    | some (.writeAclData acl, rx) =>
      some { s with pump := some (.receiveCmd, rx), aclFates := s.aclFates ++ [.written acl] }
    | _ => none
  | .allocBuf ok =>
    match s.pump with
    | some (tx, .allocBuf) => some { s with pump := some (tx, if ok then .read else .allocBuf) }
    | _ => none
  | .read packet answer =>
    match s.pump with
    | some (tx, .read) =>
      match packet with
      | some packet => some (s.dispatch N tx answer packet)
      | none => some { s with pump := some (tx, .allocBuf) }
    | _ => none
  | .freeAck =>
    match s.host.acks with
    | _ :: acks => some { s with host := { s.host with acks := acks } }
    | [] => none
  | .freeEvent =>
    match s.host.queued with
    | _ :: queued => some { s with host := { s.host with queued := queued } }
    | [] => none

/-- What `send_cmd` asks of the controller: the command and the raw parameters that the typed
value is read from, of which it is a function. Bytes after those that the value is read from
stay in the list here, and the source drops them with the value. -/
def translated (bt : BtHci) (f : Features) (cmd : Packet cmdPacketMax) :
    Option (Command × List UInt8) :=
  match sendCmd bt f cmd.bytes with
  | .exec _ command _ params => some (command, params)
  | .answered _ => none

/-- These are the calls of `send_cmd` for the command, and one of them feeds its ack. -/
def AckedBy (bt : BtHci) (f : Features) (cmd : Packet cmdPacketMax) (calls : List Call) : Prop :=
  ∃ result evt status ret, calls = (sendCmdTask bt f cmd.bytes).calls (fun _ _ => result) ∧
    feeds calls = [evt] ∧ IsAck cmd.bytes evt status ret

/-- The commands of the host are acked, or lost with a pump or with the driver, in their
order, and the controller is asked what they say; its events get to the host in the order in
which it sent them, among the acks, except for those that there is no buffer for. -/
structure Relays (bt : BtHci) (f : Features) (s : Exchange aclMax aclDepth) : Prop where
  cmds : s.cmdFates.map CmdFate.cmd ++ s.cmdTaken ++ s.cmdQueue.queue = s.cmdsAccepted
  acked : ∀ cmd calls, .acked cmd calls ∈ s.cmdFates → AckedBy bt f cmd calls
  issued : s.issued = (s.cmdFates.filterMap CmdFate.taken ++ s.cmdTaken).filterMap (translated bt f)
  acl : s.aclFates.map AclFate.acl ++ s.aclTaken ++ s.aclQueue.queue = s.aclAccepted
  written : s.written = (s.aclFates.filterMap AclFate.taken ++ s.aclTaken).filter fun acl =>
    bt.parsesAcl acl.bytes
  lost : s.cmdFates.countP CmdFate.isLost + s.aclFates.countP AclFate.isLost ≤ s.drops
  acks : (s.fed.filter (·.source = .ack)).map (fun e => (e.code, e.params)) =
    s.cmdFates.flatMap CmdFate.acks
  events : (s.fed.filter (·.source = .controller)).map (fun e => (e.code, e.params)) =
    s.eventsRead
  delivered : List.Sublist s.host.toHs (s.fed.map FedEvent.bytes)

theorem CmdKind.ack_isAck {raw : List UInt8} {opcode : UInt16}
    (hopcode : toLeBytes opcode = raw.take 2) (kind : CmdKind)
    (result : Except CmdError ReturnParams) : ∃ status ret,
      IsAck raw ((kind.ack opcode result).bytes.getD 0 0, (kind.ack opcode result).bytes.drop 2)
        status ret := by
  cases kind with
  | sync =>
    cases result with
    | ok ret => exact ⟨_, _, completeAck_isAck hopcode 0 (some ret)⟩
    | error e => exact ⟨_, _, completeAck_isAck hopcode _ none⟩
  | async => exact ⟨_, _, statusAck_isAck hopcode _⟩

/-- An answer is an ack of the packet, and a call will be acked under its opcode. -/
def Dispatched.Fits (raw : List UInt8) : Dispatched → Prop
  | .exec _ _ opcode _ => toLeBytes opcode = raw.take 2
  | .answered evt =>
    ∃ status ret, IsAck raw (evt.bytes.getD 0 0, evt.bytes.drop 2) status ret

theorem execCmd_fits {bt : BtHci} {raw : List UInt8} {opcode : UInt16}
    (hopcode : toLeBytes opcode = raw.take 2) (kind : CmdKind) (command : Command)
    (params : List UInt8) : (execCmd bt kind command opcode params).Fits raw := by
  unfold execCmd
  split
  · exact hopcode
  · cases kind with
    | sync => exact ⟨_, _, completeAck_isAck hopcode _ none⟩
    | async => exact ⟨_, _, statusAck_isAck hopcode _⟩

theorem sendCmd_fits {bt : BtHci} {f : Features} {raw : List UInt8} (hraw : 3 ≤ raw.length) :
    (sendCmd bt f raw).Fits raw := by
  have hopcode := opcode_bytes hraw
  unfold sendCmd
  dsimp only
  split
  next arm harm =>
    cases arm with
    | cmd kind command => exact execCmd_fits hopcode kind command _
    | maskedEventMask => exact execCmd_fits hopcode .sync .leSetEventMask _
    | supportedCmds => exact ⟨_, _, completeAck_isAck hopcode 0 (some (supportedCmds f))⟩
  next => exact ⟨_, _, completeAck_isAck hopcode _ none⟩

theorem length_cmdCopy (buf : CmdBuf) : 3 ≤ (bleTransportToLlCmdCopy buf).bytes.length := by
  have hparams := buf.params
  have hfits := buf.length_take
  have hbytes : (bleTransportToLlCmdCopy buf).bytes = buf.bytes.take buf.len := by
    have hcopy : (Packet.new : Packet cmdPacketMax).extendFromSlice (buf.bytes.take buf.len) =
        some ⟨buf.bytes.take buf.len, hfits⟩ := by
      rw [Packet.extendFromSlice, dif_pos (by simpa [Packet.new] using hfits)]
      rfl
    rw [bleTransportToLlCmdCopy, Option.get_of_eq_some _ hcopy]
  rw [hbytes, List.length_take, CmdBuf.len]
  omega

/-- An event that is fed gets to the host behind the earlier ones, or not at all. -/
theorem feedEvent_delivers {N : ℕ} {h : HostEvents} {fed : List FedEvent}
    (hsub : List.Sublist h.toHs (fed.map FedEvent.bytes)) (e : FedEvent) (discardable : Bool)
    (answer : Option Bool) :
    List.Sublist (feedEvent N h e.code e.params discardable answer).toHs
      ((fed ++ [e]).map FedEvent.bytes) := by
  rw [List.map_append]
  unfold feedEvent
  cases bleTransportAllocEvt N h discardable answer with
  | none => exact hsub.trans (List.sublist_append_left _ _)
  | some counted =>
    show List.Sublist (h.bleTransportToHsEvtImpl _).toHs _
    rw [HostEvents.toHs_toHs]
    exact hsub.append (List.Sublist.refl [e.bytes])

@[simp] theorem feeds_append (calls calls' : List Call) :
    feeds (calls ++ calls') = feeds calls ++ feeds calls' :=
  List.filterMap_append

@[simp] theorem feeds_feedEvent (code : UInt8) (params : List UInt8) :
    feeds [.feedEvent code params] = [(code, params)] := rfl

/-- What `Relays` says, with the command that is in `exec` and what is left to do about it. -/
structure ExchangeInvariant (bt : BtHci) (f : Features) (s : Exchange aclMax aclDepth) : Prop
    extends Relays bt f s where
  long : ∀ cmd ∈ s.cmdsAccepted, 3 ≤ cmd.bytes.length
  awaits : ∀ cmd made call rx, s.pump = some (.sendCmd cmd made call, rx) → made = [] ∧
    ∃ opcode, sendCmd bt f cmd.bytes = .exec call.kind call.command opcode call.params ∧
      call.resume = fun result => .feed (call.kind.ack opcode result)

namespace ExchangeInvariant

variable {N : ℕ} {bt : BtHci} {f : Features} {s s' : Exchange aclMax aclDepth}

theorem start : ExchangeInvariant bt f (Exchange.start : Exchange aclMax aclDepth) where
  cmds := rfl
  acked := fun _ _ h => absurd h (by simp [Exchange.start])
  issued := rfl
  acl := rfl
  written := rfl
  lost := le_rfl
  acks := rfl
  events := rfl
  delivered := List.Sublist.refl []
  long := fun _ h => absurd h (by simp [Exchange.start])
  awaits := fun _ _ _ _ h => absurd h (by simp [Exchange.start])

theorem proceed_feed (rx : RxStage) (cmd : Packet cmdPacketMax) (made : List Call)
    (evt : Packet evtPacketMax) : s.proceed N rx cmd made (.feed evt) =
      { s with
        pump := some (.receiveCmd, rx)
        host := feedAck N s.host evt
        fed := s.fed ++ [⟨.ack, evt.bytes.getD 0 0, evt.bytes.drop 2⟩]
        cmdFates := s.cmdFates ++
          [.acked cmd (made ++ [.feedEvent (evt.bytes.getD 0 0) (evt.bytes.drop 2)])] } :=
  rfl

/-- `send_cmd` feeds its ack and returns. -/
theorem returned (h : ExchangeInvariant bt f s) (hacl : s.aclTaken = [])
    {queue : Channel (Packet cmdPacketMax) Unit cmdQueueDepth} {cmd : Packet cmdPacketMax}
    (hcmds : s.cmdFates.map CmdFate.cmd ++ [cmd] ++ queue.queue = s.cmdsAccepted)
    (hissued : s.issued = (s.cmdFates.filterMap CmdFate.taken ++ [cmd]).filterMap
      (translated bt f)) (rx : RxStage) {made : List Call} {evt : Packet evtPacketMax}
    (hacked : AckedBy bt f cmd
      (made ++ [.feedEvent (evt.bytes.getD 0 0) (evt.bytes.drop 2)]))
    (hmade : feeds made = []) :
    ExchangeInvariant bt f
      ({ s with cmdQueue := queue }.proceed N rx cmd made (.feed evt)) := by
  have haclCmds := h.acl
  have hwritten := h.written
  rw [hacl] at haclCmds hwritten
  rw [proceed_feed]
  constructor
  case toRelays =>
    constructor
    case cmds => simpa [Exchange.cmdTaken, TxStage.cmd, CmdFate.cmd] using hcmds
    case acked =>
      intro c calls hmem
      rw [List.mem_append, List.mem_singleton] at hmem
      obtain hmem | heq := hmem
      · exact h.acked c calls hmem
      · obtain ⟨rfl, rfl⟩ := CmdFate.acked.inj heq
        exact hacked
    case issued =>
      show s.issued = ((s.cmdFates ++ [_]).filterMap CmdFate.taken ++ []).filterMap _
      rw [hissued, List.filterMap_append (f := CmdFate.taken), List.append_nil]
      rfl
    case acl => simpa [Exchange.aclTaken, TxStage.acl] using haclCmds
    case written => simpa [Exchange.aclTaken, TxStage.acl] using hwritten
    case lost => simpa [CmdFate.isLost] using h.lost
    case acks =>
      rw [List.filter_append, List.map_append, List.flatMap_append]
      refine congrArg₂ _ h.acks ?_
      simp [CmdFate.acks, hmade]
    case events => simpa using h.events
    case delivered => exact feedEvent_delivers h.delivered ⟨.ack, _, _⟩ false none
  case long => exact h.long
  case awaits => simp

/-- The arms move on with what they have in hand. -/
theorem goTo (h : ExchangeInvariant bt f s) {pump : Option (TxStage aclMax × RxStage)}
    {cmdQueue : Channel (Packet cmdPacketMax) Unit cmdQueueDepth}
    {aclQueue : Channel (Packet aclMax) Unit aclDepth} (hcmds : cmdQueue.queue = s.cmdQueue.queue)
    (hacls : aclQueue.queue = s.aclQueue.queue)
    (hcmd : (pump.bind fun p => p.1.cmd) = s.pump.bind fun p => p.1.cmd)
    (hacl : (pump.bind fun p => p.1.acl) = s.pump.bind fun p => p.1.acl)
    (hawaits : ∀ cmd made call rx, pump = some (.sendCmd cmd made call, rx) →
      ∃ rx', s.pump = some (.sendCmd cmd made call, rx')) :
    ExchangeInvariant bt f { s with cmdQueue := cmdQueue, aclQueue := aclQueue, pump := pump } := by
  have hcmdTaken : (pump.bind fun p => p.1.cmd).toList = s.cmdTaken := congrArg Option.toList hcmd
  have haclTaken : (pump.bind fun p => p.1.acl).toList = s.aclTaken := congrArg Option.toList hacl
  constructor
  case toRelays =>
    constructor
    case cmds =>
      show _ ++ (pump.bind fun p => p.1.cmd).toList ++ cmdQueue.queue = _
      rw [hcmdTaken, hcmds]
      exact h.cmds
    case issued =>
      show _ = (_ ++ (pump.bind fun p => p.1.cmd).toList).filterMap _
      rw [hcmdTaken]
      exact h.issued
    case acl =>
      show _ ++ (pump.bind fun p => p.1.acl).toList ++ aclQueue.queue = _
      rw [haclTaken, hacls]
      exact h.acl
    case written =>
      show _ = (_ ++ (pump.bind fun p => p.1.acl).toList).filter _
      rw [haclTaken]
      exact h.written
    case acked => exact h.acked
    case lost => exact h.lost
    case acks => exact h.acks
    case events => exact h.events
    case delivered => exact h.delivered
  case long => exact h.long
  case awaits =>
    intro cmd made call rx hpump
    obtain ⟨rx', hs⟩ := hawaits cmd made call rx hpump
    exact h.awaits cmd made call rx' hs

theorem translated_exec {cmd : Packet cmdPacketMax} {kind : CmdKind} {command : Command}
    {opcode : UInt16} {params : List UInt8}
    (hsend : sendCmd bt f cmd.bytes = .exec kind command opcode params) :
    translated bt f cmd = some (command, params) := by
  simp only [translated, hsend]

theorem translated_answered {cmd : Packet cmdPacketMax} {evt : Packet evtPacketMax}
    (hsend : sendCmd bt f cmd.bytes = .answered evt) : translated bt f cmd = none := by
  simp only [translated, hsend]

/-- `send_cmd` is called with the first command of the queue. -/
theorem sendCmd (h : ExchangeInvariant bt f s) {rx : RxStage}
    (hpump : s.pump = some (.receiveCmd, rx))
    {queue : Channel (Packet cmdPacketMax) Unit cmdQueueDepth} {cmd : Packet cmdPacketMax}
    (hqueue : s.cmdQueue.queue = cmd :: queue.queue) :
    ExchangeInvariant bt f
      ({ s with cmdQueue := queue }.proceed N rx cmd [] (sendCmdTask bt f cmd.bytes)) := by
  have hcmdTaken : s.cmdTaken = [] := by simp [Exchange.cmdTaken, hpump, TxStage.cmd]
  have haclTaken : s.aclTaken = [] := by simp [Exchange.aclTaken, hpump, TxStage.acl]
  have hcmds : s.cmdFates.map CmdFate.cmd ++ [cmd] ++ queue.queue = s.cmdsAccepted := by
    rw [← h.cmds, hcmdTaken, hqueue]
    simp
  have hissued := h.issued
  rw [hcmdTaken, List.append_nil] at hissued
  have hlong : 3 ≤ cmd.bytes.length := h.long cmd (by rw [← hcmds]; simp)
  have hfits : (Hci.sendCmd bt f cmd.bytes).Fits cmd.bytes := sendCmd_fits hlong
  rw [sendCmdTask_eq]
  cases hsend : Hci.sendCmd bt f cmd.bytes with
  | answered evt =>
    rw [hsend] at hfits
    obtain ⟨status, ret, hack⟩ := hfits
    refine h.returned haclTaken hcmds ?_ rx ⟨.error .io, _, status, ret, ?_, rfl, hack⟩ rfl
    · rw [List.filterMap_append, ← hissued]
      simp [translated_answered hsend]
    · rw [sendCmdTask_eq, hsend]
      rfl
  | exec kind command opcode params =>
    have hacl := h.acl
    have hwritten := h.written
    rw [haclTaken] at hacl hwritten
    constructor
    case toRelays =>
      constructor
      case cmds => exact hcmds
      case acked => exact h.acked
      case issued =>
        show s.issued ++ [(command, params)] =
          (s.cmdFates.filterMap CmdFate.taken ++ [cmd]).filterMap (translated bt f)
        rw [List.filterMap_append, ← hissued]
        simp [translated_exec hsend]
      case acl => exact hacl
      case written => exact hwritten
      case lost => exact h.lost
      case acks => simpa [Exchange.proceed, Dispatched.task, Task.settle, Exchange.feedAcks]
        using h.acks
      case events => simpa [Exchange.proceed, Dispatched.task, Task.settle, Exchange.feedAcks]
        using h.events
      case delivered => simpa [Exchange.proceed, Dispatched.task, Task.settle, Exchange.feedAcks]
        using h.delivered
    case long => exact h.long
    case awaits =>
      intro cmd' made call rx' hpump'
      obtain ⟨⟨rfl, rfl, rfl⟩, -⟩ : (cmd = cmd' ∧ [] = made ∧ _ = call) ∧ rx = rx' := by
        simpa [Exchange.proceed, Dispatched.task, Task.settle, Exchange.feedAcks] using hpump'
      exact ⟨rfl, opcode, hsend, rfl⟩

/-- `exec` returns, and the ack is fed. -/
theorem execDone (h : ExchangeInvariant bt f s) {cmd : Packet cmdPacketMax} {made : List Call}
    {call : Await} {rx : RxStage} (hpump : s.pump = some (.sendCmd cmd made call, rx))
    (result : Except CmdError ReturnParams) :
    ExchangeInvariant bt f (s.proceed N rx cmd
      (made ++ [.exec call.kind call.command call.params result]) (call.resume result)) := by
  have hcmdTaken : s.cmdTaken = [cmd] := by simp [Exchange.cmdTaken, hpump, TxStage.cmd]
  have haclTaken : s.aclTaken = [] := by simp [Exchange.aclTaken, hpump, TxStage.acl]
  have hcmds := h.cmds
  have hissued := h.issued
  rw [hcmdTaken] at hcmds hissued
  obtain ⟨rfl, opcode, hsend, hresume⟩ := h.awaits cmd made call rx hpump
  have hlong : 3 ≤ cmd.bytes.length := h.long cmd (by rw [← hcmds]; simp)
  have hfits : (Hci.sendCmd bt f cmd.bytes).Fits cmd.bytes := sendCmd_fits hlong
  rw [hsend] at hfits
  obtain ⟨status, ret, hack⟩ := call.kind.ack_isAck hfits result
  rw [hresume]
  refine h.returned haclTaken hcmds hissued rx ⟨result, _, status, ret, ?_, rfl, hack⟩ rfl
  rw [sendCmdTask_eq, hsend]
  rfl

/-- A look at the ACL queue finds a packet; one that does not parse is dropped. -/
theorem receiveAcl (h : ExchangeInvariant bt f s) {rx : RxStage}
    (hpump : s.pump = some (.receiveAcl, rx)) {queue : Channel (Packet aclMax) Unit aclDepth}
    {acl : Packet aclMax} (hqueue : s.aclQueue.queue = acl :: queue.queue) :
    ExchangeInvariant bt f (if bt.parsesAcl acl.bytes then
        { s with
          aclQueue := queue
          pump := some (.writeAclData acl, rx)
          written := s.written ++ [acl] }
      else
        { s with
          aclQueue := queue
          pump := some (.receiveCmd, rx)
          aclFates := s.aclFates ++ [.malformed acl] }) := by
  have hcmdTaken : s.cmdTaken = [] := by simp [Exchange.cmdTaken, hpump, TxStage.cmd]
  have haclTaken : s.aclTaken = [] := by simp [Exchange.aclTaken, hpump, TxStage.acl]
  have hcmds := h.cmds
  have hissued := h.issued
  have hacl := h.acl
  have hwritten := h.written
  rw [hcmdTaken] at hcmds hissued
  rw [haclTaken, hqueue] at hacl
  rw [haclTaken, List.append_nil] at hwritten
  split
  next hparses =>
    constructor
    case toRelays =>
      constructor
      case cmds => exact hcmds
      case acked => exact h.acked
      case issued => exact hissued
      case acl => simpa [Exchange.aclTaken, TxStage.acl] using hacl
      case written => simp [Exchange.aclTaken, TxStage.acl, hwritten, hparses]
      case lost => exact h.lost
      case acks => exact h.acks
      case events => exact h.events
      case delivered => exact h.delivered
    case long => exact h.long
    case awaits => simp
  next hparses =>
    constructor
    case toRelays =>
      constructor
      case cmds => exact hcmds
      case acked => exact h.acked
      case issued => exact hissued
      case acl => simpa [Exchange.aclTaken, TxStage.acl, AclFate.acl] using hacl
      case written =>
        simp [Exchange.aclTaken, TxStage.acl, AclFate.taken, hparses, hwritten,
          List.filterMap_append]
      case lost => simpa [AclFate.isLost] using h.lost
      case acks => exact h.acks
      case events => exact h.events
      case delivered => exact h.delivered
    case long => exact h.long
    case awaits => simp

theorem writeDone (h : ExchangeInvariant bt f s) {acl : Packet aclMax} {rx : RxStage}
    (hpump : s.pump = some (.writeAclData acl, rx)) :
    ExchangeInvariant bt f { s with
      pump := some (.receiveCmd, rx)
      aclFates := s.aclFates ++ [.written acl] } := by
  have hcmdTaken : s.cmdTaken = [] := by simp [Exchange.cmdTaken, hpump, TxStage.cmd]
  have haclTaken : s.aclTaken = [acl] := by simp [Exchange.aclTaken, hpump, TxStage.acl]
  have hcmds := h.cmds
  have hissued := h.issued
  have hacl := h.acl
  have hwritten := h.written
  rw [hcmdTaken] at hcmds hissued
  rw [haclTaken] at hacl hwritten
  constructor
  case toRelays =>
    constructor
    case cmds => exact hcmds
    case acked => exact h.acked
    case issued => exact hissued
    case acl => simpa [Exchange.aclTaken, TxStage.acl, AclFate.acl] using hacl
    case written =>
      simp [Exchange.aclTaken, TxStage.acl, AclFate.taken, hwritten, List.filterMap_append]
    case lost => simpa [AclFate.isLost] using h.lost
    case acks => exact h.acks
    case events => exact h.events
    case delivered => exact h.delivered
  case long => exact h.long
  case awaits => simp

/-- The arm has at most one packet in hand. -/
theorem taken_le_one (s : Exchange aclMax aclDepth) :
    s.cmdTaken.length + s.aclTaken.length ≤ 1 := by
  unfold Exchange.cmdTaken Exchange.aclTaken
  match s.pump with
  | none => exact Nat.zero_le 1
  | some (.receiveCmd, _) | some (.receiveAcl, _) => exact Nat.zero_le 1
  | some (.sendCmd _ _ _, _) | some (.writeAclData _, _) => exact le_rfl

theorem dropPump (h : ExchangeInvariant bt f s) : ExchangeInvariant bt f { s with
    pump := none
    cmdFates := s.cmdFates ++ s.cmdTaken.map .lost
    aclFates := s.aclFates ++ s.aclTaken.map .lost
    drops := s.drops + 1 } := by
  have hcmd : (s.cmdTaken.map CmdFate.lost).map CmdFate.cmd = s.cmdTaken := by
    simp [Function.comp_def, CmdFate.cmd]
  have hcmdTaken : (s.cmdTaken.map CmdFate.lost).filterMap CmdFate.taken = s.cmdTaken := by
    simp [List.filterMap_map, Function.comp_def, CmdFate.taken]
  have hacl : (s.aclTaken.map AclFate.lost).map AclFate.acl = s.aclTaken := by
    simp [Function.comp_def, AclFate.acl]
  have haclTaken : (s.aclTaken.map AclFate.lost).filterMap AclFate.taken = s.aclTaken := by
    simp [List.filterMap_map, Function.comp_def, AclFate.taken]
  have hcmdLost : (s.cmdTaken.map CmdFate.lost).countP CmdFate.isLost = s.cmdTaken.length := by
    simp [List.countP_map, Function.comp_def, CmdFate.isLost]
  have haclLost : (s.aclTaken.map AclFate.lost).countP AclFate.isLost = s.aclTaken.length := by
    simp [List.countP_map, Function.comp_def, AclFate.isLost]
  constructor
  case toRelays =>
    constructor
    case cmds =>
      show (s.cmdFates ++ s.cmdTaken.map CmdFate.lost).map CmdFate.cmd ++ [] ++ _ = _
      rw [List.map_append, hcmd, List.append_nil]
      exact h.cmds
    case acked =>
      intro c calls hmem
      exact h.acked c calls (by simpa using hmem)
    case issued =>
      show s.issued = ((s.cmdFates ++ s.cmdTaken.map CmdFate.lost).filterMap CmdFate.taken ++
        []).filterMap _
      rw [List.filterMap_append (f := CmdFate.taken), hcmdTaken, List.append_nil]
      exact h.issued
    case acl =>
      show (s.aclFates ++ s.aclTaken.map AclFate.lost).map AclFate.acl ++ [] ++ _ = _
      rw [List.map_append, hacl, List.append_nil]
      exact h.acl
    case written =>
      show s.written = ((s.aclFates ++ s.aclTaken.map AclFate.lost).filterMap AclFate.taken ++
        []).filter _
      rw [List.filterMap_append, haclTaken, List.append_nil]
      exact h.written
    case lost =>
      have hlost := h.lost
      have hone := taken_le_one s
      show (s.cmdFates ++ s.cmdTaken.map CmdFate.lost).countP CmdFate.isLost +
        (s.aclFates ++ s.aclTaken.map AclFate.lost).countP AclFate.isLost ≤ s.drops + 1
      rw [List.countP_append, List.countP_append, hcmdLost, haclLost]
      omega
    case acks =>
      have hnone : (s.cmdTaken.map CmdFate.lost).flatMap CmdFate.acks = [] := by
        simp [CmdFate.acks]
      show _ = (s.cmdFates ++ s.cmdTaken.map CmdFate.lost).flatMap CmdFate.acks
      rw [List.flatMap_append, hnone, List.append_nil]
      exact h.acks
    case events => exact h.events
    case delivered => exact h.delivered
  case long => exact h.long
  case awaits => simp

/-- The queues are emptied while no pump is registered. -/
theorem deinit (h : ExchangeInvariant bt f s) (hpump : s.pump = none) :
    ExchangeInvariant bt f { s with
      cmdQueue := s.cmdQueue.drain
      aclQueue := s.aclQueue.drain
      cmdFates := s.cmdFates ++ s.cmdQueue.queue.map .drained
      aclFates := s.aclFates ++ s.aclQueue.queue.map .drained } := by
  have hcmdTaken : s.cmdTaken = [] := by simp [Exchange.cmdTaken, hpump]
  have haclTaken : s.aclTaken = [] := by simp [Exchange.aclTaken, hpump]
  have hcmds := h.cmds
  have hissued := h.issued
  have hacl := h.acl
  have hwritten := h.written
  rw [hcmdTaken] at hcmds hissued
  rw [haclTaken] at hacl hwritten
  constructor
  case toRelays =>
    constructor
    case cmds =>
      simpa [Exchange.cmdTaken, hpump, Channel.drain, Function.comp_def, CmdFate.cmd] using hcmds
    case acked =>
      intro c calls hmem
      exact h.acked c calls (by simpa using hmem)
    case issued =>
      simpa [Exchange.cmdTaken, hpump, List.filterMap_map, Function.comp_def, CmdFate.taken]
        using hissued
    case acl =>
      simpa [Exchange.aclTaken, hpump, Channel.drain, Function.comp_def, AclFate.acl] using hacl
    case written =>
      simpa [Exchange.aclTaken, hpump, List.filterMap_map, Function.comp_def, AclFate.taken]
        using hwritten
    case lost => simpa [List.countP_map, Function.comp_def, CmdFate.isLost, AclFate.isLost]
      using h.lost
    case acks =>
      have hnone : (s.cmdQueue.queue.map CmdFate.drained).flatMap CmdFate.acks = [] := by
        simp [CmdFate.acks]
      show _ = (s.cmdFates ++ s.cmdQueue.queue.map CmdFate.drained).flatMap CmdFate.acks
      rw [List.flatMap_append, hnone, List.append_nil]
      exact h.acks
    case events => exact h.events
    case delivered => exact h.delivered
  case long => exact h.long
  case awaits => simp [hpump]

theorem submitCmd (h : ExchangeInvariant bt f s) (buf : CmdBuf)
    (hstep : exchangeStep N bt f s (.submitCmd buf) = some s') : ExchangeInvariant bt f s' := by
  simp only [exchangeStep] at hstep
  split at hstep
  · exact Option.some.inj hstep ▸ h
  next queue w hsend =>
    obtain rfl := Option.some.inj hstep
    have hqueue := Channel.trySend_queue hsend
    constructor
    case toRelays =>
      constructor
      case cmds =>
        show _ ++ queue.queue = s.cmdsAccepted ++ [_]
        rw [hqueue, ← List.append_assoc]
        exact congrArg (· ++ [_]) h.cmds
      case acked => exact h.acked
      case issued => exact h.issued
      case acl => exact h.acl
      case written => exact h.written
      case lost => exact h.lost
      case acks => exact h.acks
      case events => exact h.events
      case delivered => exact h.delivered
    case long =>
      intro cmd hmem
      rw [List.mem_append, List.mem_singleton] at hmem
      obtain hmem | rfl := hmem
      · exact h.long cmd hmem
      · exact length_cmdCopy buf
    case awaits => exact h.awaits

theorem submitAcl (h : ExchangeInvariant bt f s) (om : List (List UInt8))
    (hstep : exchangeStep N bt f s (.submitAcl om) = some s') : ExchangeInvariant bt f s' := by
  simp only [exchangeStep] at hstep
  split at hstep
  · exact Option.some.inj hstep ▸ h
  split at hstep
  · exact Option.some.inj hstep ▸ h
  next queue w hsend =>
    obtain rfl := Option.some.inj hstep
    have hqueue := Channel.trySend_queue hsend
    constructor
    case toRelays =>
      constructor
      case cmds => exact h.cmds
      case acked => exact h.acked
      case issued => exact h.issued
      case acl =>
        show _ ++ queue.queue = s.aclAccepted ++ [_]
        rw [hqueue, ← List.append_assoc]
        exact congrArg (· ++ [_]) h.acl
      case written => exact h.written
      case lost => exact h.lost
      case acks => exact h.acks
      case events => exact h.events
      case delivered => exact h.delivered
    case long => exact h.long
    case awaits => exact h.awaits

/-- The events that are fed, and what the host is passed of them. -/
theorem feed (h : ExchangeInvariant bt f s) {host : HostEvents} (fed : List FedEvent)
    {events : List (UInt8 × List UInt8)}
    (hevents : fed.map (fun e => (e.code, e.params)) = events)
    (hsource : ∀ e ∈ fed, e.source = .controller)
    (hdelivered : List.Sublist host.toHs ((s.fed ++ fed).map FedEvent.bytes)) :
    ExchangeInvariant bt f { s with
      host := host
      eventsRead := s.eventsRead ++ events
      fed := s.fed ++ fed } := by
  have hacks : fed.filter (·.source = .ack) = [] := by
    refine List.filter_eq_nil_iff.mpr fun e he => ?_
    simp [hsource e he]
  have hall : fed.filter (·.source = .controller) = fed := by
    refine List.filter_eq_self.mpr fun e he => ?_
    simp [hsource e he]
  constructor
  case toRelays =>
    constructor
    case cmds => exact h.cmds
    case acked => exact h.acked
    case issued => exact h.issued
    case acl => exact h.acl
    case written => exact h.written
    case lost => exact h.lost
    case acks =>
      rw [List.filter_append, hacks, List.append_nil]
      exact h.acks
    case events =>
      rw [List.filter_append, hall, List.map_append, hevents]
      exact congrArg (· ++ events) h.events
    case delivered => exact hdelivered
  case long => exact h.long
  case awaits => exact h.awaits

/-- The RX arm has its own place in the pump. -/
theorem goToRx (h : ExchangeInvariant bt f s) {tx : TxStage aclMax} {rx : RxStage}
    (hpump : s.pump = some (tx, rx)) (rx' : RxStage) :
    ExchangeInvariant bt f { s with pump := some (tx, rx') } := by
  refine h.goTo rfl rfl ?_ ?_ ?_
  · rw [hpump]
    rfl
  · rw [hpump]
    rfl
  · intro cmd made call rx'' heq
    obtain ⟨rfl, -⟩ := Prod.mk.inj (Option.some.inj heq)
    exact ⟨rx, hpump⟩

theorem dispatch (h : ExchangeInvariant bt f s) {tx : TxStage aclMax}
    (hpump : s.pump = some (tx, .read)) (answer : Option Bool) (packet : ControllerToHostPacket) :
    ExchangeInvariant bt f (s.dispatch N tx answer packet) := by
  have hmoved := h.goToRx hpump .allocBuf
  have hdelivered := h.delivered
  cases packet with
  | event code params =>
    refine hmoved.feed [⟨.controller, code, params⟩] rfl (by simp) ?_
    exact feedEvent_delivers hdelivered ⟨.controller, code, params⟩ _ answer
  | _ =>
    refine hmoved.feed [] rfl (by simp) ?_
    rw [List.append_nil]
    exact hdelivered

/-- A look finds nothing. -/
theorem look (h : ExchangeInvariant bt f s) {tx tx' : TxStage aclMax} {rx : RxStage}
    (hpump : s.pump = some (tx, rx)) (htx : tx.cmd = none ∧ tx.acl = none)
    (htx' : tx'.cmd = none ∧ tx'.acl = none)
    {cmdQueue : Channel (Packet cmdPacketMax) Unit cmdQueueDepth}
    {aclQueue : Channel (Packet aclMax) Unit aclDepth} (hcmds : cmdQueue.queue = s.cmdQueue.queue)
    (hacls : aclQueue.queue = s.aclQueue.queue) : ExchangeInvariant bt f
      { s with cmdQueue := cmdQueue, aclQueue := aclQueue, pump := some (tx', rx) } := by
  refine h.goTo hcmds hacls ?_ ?_ ?_
  · rw [hpump]
    exact htx'.1.trans htx.1.symm
  · rw [hpump]
    exact htx'.2.trans htx.2.symm
  · intro cmd made call rx' heq
    obtain ⟨rfl, -⟩ := Prod.mk.inj (Option.some.inj heq)
    exact absurd htx'.1 (by simp [TxStage.cmd])

theorem select (h : ExchangeInvariant bt f s) (hstep : s.select N bt f = some s') :
    ExchangeInvariant bt f s' := by
  unfold Exchange.select at hstep
  split at hstep
  next rx hpump =>
    obtain ⟨cmd, queue, hq, hpoll⟩ | ⟨queue, old, hq, hq', hpoll⟩ := s.cmdQueue.pollReceive_cases ()
    · simp only [hpoll, Option.some.injEq] at hstep
      exact hstep ▸ h.sendCmd hpump hq
    · simp only [hpoll, Option.some.injEq] at hstep
      exact hstep ▸ h.look hpump ⟨rfl, rfl⟩ ⟨rfl, rfl⟩ (hq'.trans hq.symm) rfl
  next rx hpump =>
    obtain ⟨acl, queue, hq, hpoll⟩ | ⟨queue, old, hq, hq', hpoll⟩ := s.aclQueue.pollReceive_cases ()
    · have hreceived := h.receiveAcl hpump hq
      simp only [hpoll] at hstep
      split at hstep
      next hparses =>
        rw [if_pos hparses] at hreceived
        exact Option.some.inj hstep ▸ hreceived
      next hparses =>
        rw [if_neg hparses] at hreceived
        exact Option.some.inj hstep ▸ hreceived
    · simp only [hpoll, Option.some.injEq] at hstep
      exact hstep ▸ h.look hpump ⟨rfl, rfl⟩ ⟨rfl, rfl⟩ rfl (hq'.trans hq.symm)
  next => exact absurd hstep (by simp)

theorem step (h : ExchangeInvariant bt f s) {a : ExchangeStep}
    (hstep : exchangeStep N bt f s a = some s') : ExchangeInvariant bt f s' := by
  cases a with
  | submitCmd buf => exact h.submitCmd buf hstep
  | submitAcl om => exact h.submitAcl om hstep
  | select => exact h.select hstep
  | register =>
    simp only [exchangeStep] at hstep
    split at hstep
    next hpump =>
      obtain rfl := Option.some.inj hstep
      exact h.goTo rfl rfl (by rw [hpump]; rfl) (by rw [hpump]; rfl) (by simp)
    next => exact absurd hstep (by simp)
  | dropPump =>
    obtain ⟨p, -, rfl⟩ := Option.map_eq_some_iff.mp hstep
    exact h.dropPump
  | deinit =>
    simp only [exchangeStep] at hstep
    split at hstep
    next hpump => exact Option.some.inj hstep ▸ h.deinit hpump
    next => exact absurd hstep (by simp)
  | execDone result =>
    simp only [exchangeStep] at hstep
    split at hstep
    next cmd made call rx hpump => exact Option.some.inj hstep ▸ h.execDone hpump result
    next => exact absurd hstep (by simp)
  | written =>
    simp only [exchangeStep] at hstep
    split at hstep
    next acl rx hpump => exact Option.some.inj hstep ▸ h.writeDone hpump
    next => exact absurd hstep (by simp)
  | allocBuf ok =>
    simp only [exchangeStep] at hstep
    split at hstep
    next tx hpump => exact Option.some.inj hstep ▸ h.goToRx hpump _
    next => exact absurd hstep (by simp)
  | read packet answer =>
    simp only [exchangeStep] at hstep
    split at hstep
    next tx hpump =>
      cases packet with
      | some packet => exact Option.some.inj hstep ▸ h.dispatch hpump answer packet
      | none => exact Option.some.inj hstep ▸ h.goToRx hpump .allocBuf
    next => exact absurd hstep (by simp)
  | freeAck =>
    simp only [exchangeStep] at hstep
    split at hstep
    next => exact Option.some.inj hstep ▸ ⟨⟨h.cmds, h.acked, h.issued, h.acl, h.written, h.lost,
      h.acks, h.events, h.delivered⟩, h.long, h.awaits⟩
    next => exact absurd hstep (by simp)
  | freeEvent =>
    simp only [exchangeStep] at hstep
    split at hstep
    next => exact Option.some.inj hstep ▸ ⟨⟨h.cmds, h.acked, h.issued, h.acl, h.written, h.lost,
      h.acks, h.events, h.delivered⟩, h.long, h.awaits⟩
    next => exact absurd hstep (by simp)

end ExchangeInvariant

/-- In every run the pumps relay the exchange: no command is acked twice or under another
opcode, none is passed over, and with each pump that is dropped at most one packet is lost. -/
theorem pumps_relay_exchange (N : ℕ) (bt : BtHci) (f : Features) (steps : List ExchangeStep) :
    Always (exchangeStep N bt f) (Relays bt f) (Exchange.start : Exchange aclMax aclDepth) steps :=
  always_of_step (I := ExchangeInvariant bt f) (fun _ _ _ h hstep => h.step hstep)
    (fun _ h => h.toRelays) steps ExchangeInvariant.start

end NimbleRs.Hci
