import NimbleRs.SendCmd
import Mathlib.Tactic

/-!
# One ack for each command

`send_cmd` with its suspensions and early returns written out: a task either is done,
calls `feed_event` or awaits `exec`, and what it does then depends on the result. A run
of the task against a controller lists its calls. The dispatcher of `SendCmd` says what
the task comes to, and the calls of a run are read off from there.
-/
namespace NimbleRs.Hci

/-- What is left of a call of `send_cmd`. -/
inductive Task
  | done
  | feedEvent (code : UInt8) (params : List UInt8) (next : Task)
  | exec (kind : CmdKind) (command : Command) (params : List UInt8)
      (resume : Except CmdError ReturnParams → Task)

/-- `feed_event(evt[0], &evt[2..], false)` and return -/
def Task.feed (evt : Packet evtPacketMax) : Task :=
  .feedEvent (evt.bytes.getD 0 0) (evt.bytes.drop 2) .done

def syncCmd (bt : BtHci) (command : Command) (opcode : UInt16) (params : List UInt8) : Task :=
  if bt.parses command params then
    .exec .sync command params fun result =>
      match result with
      | .ok ret => .feed (completeAck opcode 0 (some ret))
      | .error e => .feed (plainAck opcode (ackStatus (.error e : Except CmdError Unit)))
  else .feed (plainAck opcode statusInvalidParams)

def asyncCmd (bt : BtHci) (command : Command) (opcode : UInt16) (params : List UInt8) : Task :=
  if bt.parses command params then
    .exec .async command params fun result => .feed (statusAck opcode (ackStatus result))
  else .feed (statusAck opcode statusInvalidParams)

def Arm.task (bt : BtHci) (f : Features) (opcode : UInt16) (params : List UInt8) : Arm → Task
  | .cmd .sync command => syncCmd bt command opcode params
  | .cmd .async command => asyncCmd bt command opcode params
  | .maskedEventMask =>
    syncCmd bt .leSetEventMask opcode ((params.take 8).modifyHead (· &&& ~~~0x20))
  | .supportedCmds => .feed (completeAck opcode 0 (some (Hci.supportedCmds f)))

/-- The branches that are left: the first one that takes the opcode returns. -/
def tryArms (bt : BtHci) (f : Features) (opcode : UInt16) (params : List UInt8) :
    List Arm → Task
  | [] => .feed (plainAck opcode statusUnknownCmd)
  | arm :: rest =>
    if arm.takes bt opcode params then arm.task bt f opcode params
    else tryArms bt f opcode params rest

def sendCmdTask (bt : BtHci) (f : Features) (raw : List UInt8) : Task :=
  tryArms bt f (fromLeBytes (raw.getD 0 0) (raw.getD 1 0)) (raw.drop 3) (arms f)

/-- A call that a task makes. -/
inductive Call
  | feedEvent (code : UInt8) (params : List UInt8)
  | exec (kind : CmdKind) (command : Command) (params : List UInt8)
      (result : Except CmdError ReturnParams)

/-- The calls of a task that is run to its end; `controller` answers `exec`. -/
def Task.calls (controller : Command → List UInt8 → Except CmdError ReturnParams) :
    Task → List Call
  | .done => []
  | .feedEvent code params next => .feedEvent code params :: next.calls controller
  | .exec kind command params resume =>
    let result := controller command params
    .exec kind command params result :: (resume result).calls controller

/-- The arguments of the calls of `feed_event`. -/
def feeds (calls : List Call) : List (UInt8 × List UInt8) :=
  calls.filterMap fun call =>
    match call with
    | .feedEvent code params => some (code, params)
    | .exec .. => none

/-- What the dispatcher comes to, as a task. -/
def Dispatched.task : Dispatched → Task
  | .exec kind command opcode params =>
    .exec kind command params fun result => .feed (kind.ack opcode result)
  | .answered evt => .feed evt

theorem execCmd_task (bt : BtHci) (kind : CmdKind) (command : Command) (opcode : UInt16)
    (params : List UInt8) :
    (execCmd bt kind command opcode params).task =
      match kind with
      | .sync => syncCmd bt command opcode params
      | .async => asyncCmd bt command opcode params := by
  unfold execCmd
  cases kind with
  | sync =>
    by_cases hparses : bt.parses command params = true
    · simp only [syncCmd, hparses, if_true, Dispatched.task, Task.exec.injEq, true_and]
      ext result
      cases result with
      | ok ret => rfl
      | error e => rfl
    · simp [syncCmd, hparses, Dispatched.task, CmdKind.malformed]
  | async =>
    by_cases hparses : bt.parses command params = true
    · simp only [asyncCmd, hparses, if_true, Dispatched.task, CmdKind.ack]
    · simp [asyncCmd, hparses, Dispatched.task, CmdKind.malformed]

theorem Arm.dispatch_task (bt : BtHci) (f : Features) (opcode : UInt16) (params : List UInt8)
    (arm : Arm) : (arm.dispatch bt f opcode params).task = arm.task bt f opcode params := by
  cases arm with
  | cmd kind command =>
    show (execCmd bt kind command opcode params).task = _
    rw [execCmd_task]
    cases kind with
    | sync => rfl
    | async => rfl
  | maskedEventMask =>
    show (execCmd bt .sync .leSetEventMask opcode _).task = _
    rw [execCmd_task]
    rfl
  | supportedCmds => rfl

/-- The dispatcher picks the branch that the chain of early returns comes to. -/
theorem sendCmdTask_eq (bt : BtHci) (f : Features) (raw : List UInt8) :
    sendCmdTask bt f raw = (sendCmd bt f raw).task := by
  unfold sendCmdTask sendCmd
  dsimp only
  induction arms f with
  | nil => rfl
  | cons arm rest ih =>
    by_cases htakes : arm.takes bt (fromLeBytes (raw.getD 0 0) (raw.getD 1 0)) (raw.drop 3) = true
    · rw [tryArms, if_pos htakes, List.find?_cons_of_pos htakes]
      exact (arm.dispatch_task bt f _ _).symm
    · rw [tryArms, if_neg htakes, List.find?_cons_of_neg htakes]
      exact ih

theorem toLeBytes_fromLeBytes (lo hi : UInt8) : toLeBytes (fromLeBytes lo hi) = [lo, hi] := by
  have hlo := lo.toNat_lt
  have hhi := hi.toNat_lt
  have hn : (fromLeBytes lo hi).toNat = lo.toNat + 256 * hi.toNat := by
    unfold fromLeBytes
    rw [UInt16.toNat_ofNat_of_lt']
    show _ < 2 ^ 16
    omega
  have hfst : UInt8.ofNat (lo.toNat + 256 * hi.toNat) = lo := by
    apply UInt8.toNat_inj.mp
    rw [UInt8.toNat_ofNat']
    omega
  have hsnd : UInt8.ofNat ((lo.toNat + 256 * hi.toNat) / 256) = hi := by
    apply UInt8.toNat_inj.mp
    rw [UInt8.toNat_ofNat']
    omega
  unfold toLeBytes
  rw [hn, hfst, hsnd]

/-- The event is a Command Complete with these return parameters, or a Command Status
without any. It has the opcode bytes of the packet and says that one packet may follow,
and its length fits the length byte. -/
structure IsAck (raw : List UInt8) (evt : UInt8 × List UInt8) (status : UInt8)
    (ret : Option (List UInt8)) : Prop where
  length : (UInt8.ofNat evt.2.length).toNat = evt.2.length
  layout : evt = (0x0e, 1 :: raw.take 2 ++ status :: ret.getD []) ∨
    (evt = (0x0f, status :: 1 :: raw.take 2) ∧ ret = none)

/-- The packet is the Read Local Supported Commands that the dispatcher answers itself. -/
def AnsweredLocally (bt : BtHci) (raw : List UInt8) : Prop :=
  fromLeBytes (raw.getD 0 0) (raw.getD 1 0) = bt.opcode .readLocalSupportedCmds

instance (bt : BtHci) (raw : List UInt8) : Decidable (AnsweredLocally bt raw) :=
  inferInstanceAs (Decidable (_ = _))

/-- `exec` succeeded, or the answer did not need it. -/
def Succeeded (bt : BtHci) (raw : List UInt8) (calls : List Call) : Prop :=
  AnsweredLocally bt raw ∨
    ∃ kind command params ret, .exec kind command params (.ok ret) ∈ calls

/-- A synchronous command succeeded, and these are the parameters that it returned. -/
def Returned (bt : BtHci) (f : Features) (raw : List UInt8) (calls : List Call)
    (bytes : List UInt8) : Prop :=
  (AnsweredLocally bt raw ∧ bytes = (supportedCmds f).bytes) ∨
    ∃ command params ret, .exec .sync command params (.ok ret) ∈ calls ∧ bytes = ret.bytes

/-- One call of `feed_event`, with a well-formed ack of the packet. -/
def AckedOnce (bt : BtHci) (f : Features) (raw : List UInt8) (calls : List Call) : Prop :=
  ∃ evt status ret, feeds calls = [evt] ∧ IsAck raw evt status ret ∧
    (status = 0 ↔ Succeeded bt raw calls) ∧
      ∀ bytes, ret = some bytes ↔ Returned bt f raw calls bytes

section Acks
variable {bt : BtHci} {f : Features} {raw : List UInt8}
  {controller : Command → List UInt8 → Except CmdError ReturnParams}

theorem opcode_bytes (hraw : 3 ≤ raw.length) :
    toLeBytes (fromLeBytes (raw.getD 0 0) (raw.getD 1 0)) = raw.take 2 := by
  rw [toLeBytes_fromLeBytes]
  match raw, hraw with
  | a :: b :: _ :: _, _ => rfl

theorem completeAck_isAck {opcode : UInt16} (hopcode : toLeBytes opcode = raw.take 2)
    (status : UInt8) (ret : Option ReturnParams) :
    IsAck raw ((completeAck opcode status ret).bytes.getD 0 0,
      (completeAck opcode status ret).bytes.drop 2) status (ret.map (·.bytes)) := by
  have hbytes : (completeAck opcode status ret).bytes.drop 2 =
      1 :: toLeBytes opcode ++ status :: (ret.map (·.bytes)).getD [] := by
    simp [completeAck]
  have hfits := (completeAck opcode status ret).fits
  have hdrop := List.length_drop (l := (completeAck opcode status ret).bytes) (i := 2)
  refine ⟨?_, .inl ?_⟩
  · rw [UInt8.toNat_ofNat_of_lt']
    show ((completeAck opcode status ret).bytes.drop 2).length < 2 ^ 8
    unfold evtPacketMax at hfits
    omega
  · rw [hbytes, hopcode]
    simp [completeAck]

theorem statusAck_isAck {opcode : UInt16} (hopcode : toLeBytes opcode = raw.take 2)
    (status : UInt8) :
    IsAck raw ((statusAck opcode status).bytes.getD 0 0, (statusAck opcode status).bytes.drop 2)
      status none := by
  have hbytes : (statusAck opcode status).bytes.drop 2 = status :: 1 :: toLeBytes opcode := by
    simp [statusAck]
  refine ⟨?_, .inr ⟨?_, rfl⟩⟩
  · rw [hbytes]
    rfl
  · rw [hbytes, hopcode]
    rfl

theorem ackStatus_ne_zero (hstatus : ∀ c p s, controller c p = .error (.hci s) → s ≠ 0)
    {command : Command} {params : List UInt8} {e : CmdError}
    (he : controller command params = .error e) {α : Type*} :
    ackStatus (.error e : Except CmdError α) ≠ 0 := by
  cases e with
  | hci status => exact hstatus command params status he
  | io =>
    show statusHwFailure ≠ 0
    decide

/-- A command that was not executed, or not with success, is acked with an error. -/
theorem acked_of_failure {calls : List Call} {evt : UInt8 × List UInt8} {status : UInt8}
    (hlocal : ¬ AnsweredLocally bt raw) (hfeeds : feeds calls = [evt])
    (hack : IsAck raw evt status none) (hstatus : status ≠ 0)
    (hcalls : ∀ kind command params ret, .exec kind command params (.ok ret) ∉ calls) :
    AckedOnce bt f raw calls := by
  refine ⟨evt, status, none, hfeeds, hack, ?_, fun bytes => ?_⟩
  · refine iff_of_false hstatus ?_
    rintro (hl | ⟨kind, command, params, ret, hmem⟩)
    · exact hlocal hl
    · exact hcalls kind command params ret hmem
  · refine iff_of_false (by simp) ?_
    rintro (⟨hl, -⟩ | ⟨command, params, ret, hmem, -⟩)
    · exact hlocal hl
    · exact hcalls .sync command params ret hmem

/-- What a command that is forwarded is acked with, for every result. -/
theorem exec_acked (hraw : 3 ≤ raw.length)
    (hstatus : ∀ c p s, controller c p = .error (.hci s) → s ≠ 0)
    (hlocal : ¬ AnsweredLocally bt raw) (kind : CmdKind) (command : Command)
    (params : List UInt8) :
    AckedOnce bt f raw ((Dispatched.exec kind command
      (fromLeBytes (raw.getD 0 0) (raw.getD 1 0)) params).task.calls controller) := by
  have hopcode := opcode_bytes hraw
  simp only [Dispatched.task, Task.calls, Task.feed]
  cases hresult : controller command params with
  | error e =>
    cases kind with
    | sync =>
      exact acked_of_failure hlocal rfl (completeAck_isAck hopcode _ none)
        (ackStatus_ne_zero hstatus hresult) (by simp)
    | async =>
      exact acked_of_failure hlocal rfl (statusAck_isAck hopcode _)
        (ackStatus_ne_zero hstatus hresult) (by simp)
  | ok ret =>
    cases kind with
    | sync =>
      refine ⟨_, _, _, rfl, completeAck_isAck hopcode 0 (some ret), ?_, fun bytes => ?_⟩
      · exact iff_of_true rfl (.inr ⟨.sync, command, params, ret, by simp⟩)
      · simp [Returned, hlocal, eq_comm]
    | async =>
      refine ⟨_, _, _, rfl, statusAck_isAck hopcode 0, ?_, fun bytes => ?_⟩
      · exact iff_of_true rfl (.inr ⟨.async, command, params, ret, by simp⟩)
      · simp [Returned, hlocal]

/-- Parameters that do not parse are acked at once. -/
theorem execCmd_acked (hraw : 3 ≤ raw.length)
    (hstatus : ∀ c p s, controller c p = .error (.hci s) → s ≠ 0)
    (hlocal : ¬ AnsweredLocally bt raw) (kind : CmdKind) (command : Command)
    (params : List UInt8) :
    AckedOnce bt f raw ((execCmd bt kind command
      (fromLeBytes (raw.getD 0 0) (raw.getD 1 0)) params).task.calls controller) := by
  have hopcode := opcode_bytes hraw
  unfold execCmd
  by_cases hparses : bt.parses command params = true
  · rw [if_pos hparses]
    exact exec_acked hraw hstatus hlocal kind command params
  · rw [if_neg hparses]
    cases kind with
    | sync =>
      exact acked_of_failure hlocal rfl (completeAck_isAck hopcode _ none) (by decide)
        (by simp [Task.calls, Dispatched.task, Task.feed])
    | async =>
      exact acked_of_failure hlocal rfl (statusAck_isAck hopcode _) (by decide)
        (by simp [Task.calls, Dispatched.task, Task.feed])

theorem local_acked (hraw : 3 ≤ raw.length) (hlocal : AnsweredLocally bt raw) :
    AckedOnce bt f raw ((Dispatched.answered (completeAck
      (fromLeBytes (raw.getD 0 0) (raw.getD 1 0)) 0 (some (supportedCmds f)))).task.calls
      controller) := by
  refine ⟨_, _, _, rfl, completeAck_isAck (opcode_bytes hraw) 0 (some (supportedCmds f)), ?_,
    fun bytes => ?_⟩
  · exact iff_of_true rfl (.inl hlocal)
  · simp [Returned, hlocal, Dispatched.task, Task.feed, Task.calls, eq_comm]

end Acks

theorem forall_mem_select {α : Type*} {p : α → Prop} {core conn adv scan central sm : List α}
    (f : Features) (hcore : ∀ x ∈ core, p x) (hconn : ∀ x ∈ conn, p x) (hadv : ∀ x ∈ adv, p x)
    (hscan : ∀ x ∈ scan, p x) (hcentral : ∀ x ∈ central, p x) (hsm : ∀ x ∈ sm, p x) :
    ∀ x ∈ f.select core conn adv scan central sm, p x := by
  intro x hx
  simp only [Features.select, List.mem_append, List.mem_ite_nil_right] at hx
  obtain ((((hx | hx) | hx) | hx) | hx) | hx := hx
  · exact hcore x hx
  · exact hconn x hx.2
  · exact hadv x hx.2
  · exact hscan x hx.2
  · exact hcentral x hx.2
  · exact hsm x hx.2

/-- The arm forwards no Read Local Supported Commands. -/
def Arm.NotLocal : Arm → Prop
  | .cmd _ command => command ≠ .readLocalSupportedCmds
  | _ => True

instance (arm : Arm) : Decidable arm.NotLocal := by
  cases arm <;> simp only [Arm.NotLocal] <;> infer_instance

theorem arms_notLocal (f : Features) : ∀ arm ∈ arms f, arm.NotLocal :=
  forall_mem_select f (by decide) (by decide) (by decide) (by decide) (by decide) (by decide)

theorem supportedCmds_mem_arms (f : Features) : Arm.supportedCmds ∈ arms f := by
  simp [arms, Features.select, coreArms]

/-- The opcodes of the commands, `ogf << 10 | ocf`. -/
def Command.opcode : Command → UInt16
  | .reset => 0x0c03
  | .setEventMask => 0x0c01
  | .setEventMaskPage2 => 0x0c63
  | .leSetEventMask => 0x2001
  | .readLocalVersionInformation => 0x1001
  | .readLocalSupportedCmds => 0x1002
  | .readLocalSupportedFeatures => 0x1003
  | .readBdAddr => 0x1009
  | .leReadBufferSize => 0x2002
  | .leReadLocalSupportedFeatures => 0x2003
  | .leRand => 0x2018
  | .leSetRandomAddr => 0x2005
  | .leSetAdvEnable => 0x200a
  | .leSetAddrResolutionEnable => 0x202d
  | .leClearResolvingList => 0x2029
  | .leAddDeviceToResolvingList => 0x2027
  | .leRemoveDeviceFromResolvingList => 0x2028
  | .leSetPrivacyMode => 0x204e
  | .leSetResolvablePrivateAddrTimeout => 0x202e
  | .disconnect => 0x0406
  | .leReadRemoteFeatures => 0x2016
  | .readRemoteVersionInformation => 0x041d
  | .leSetDataLength => 0x2022
  | .leReadSuggestedDefaultDataLength => 0x2023
  | .leWriteSuggestedDefaultDataLength => 0x2024
  | .leReadChannelMap => 0x2015
  | .readRssi => 0x1405
  | .leAddDeviceToFilterAcceptList => 0x2011
  | .leRemoveDeviceFromFilterAcceptList => 0x2012
  | .leClearFilterAcceptList => 0x2010
  | .leReadFilterAcceptListSize => 0x200f
  | .leSetAdvParams => 0x2006
  | .leSetAdvData => 0x2008
  | .leSetScanResponseData => 0x2009
  | .leReadAdvPhysicalChannelTxPower => 0x2007
  | .leSetScanParams => 0x200b
  | .leSetScanEnable => 0x200c
  | .leCreateConn => 0x200d
  | .leCreateConnCancel => 0x200e
  | .leConnUpdate => 0x2013
  | .leSetHostChannelClassification => 0x2014
  | .leEnableEncryption => 0x2019
  | .leLongTermKeyRequestReply => 0x201a
  | .leLongTermKeyRequestNegativeReply => 0x201b

def Command.ofOpcode (opcode : UInt16) : Option Command :=
  let commands := (arms ⟨true, true, true, true, true⟩).filterMap fun arm =>
    match arm with
    | .cmd _ command => some command
    | .supportedCmds => some .readLocalSupportedCmds
    | .maskedEventMask => none
  commands.find? fun command => command.opcode = opcode

theorem Command.opcode_injective : Function.Injective Command.opcode := by
  have hleft : ∀ c : Command, Command.ofOpcode c.opcode = some c := by
    intro c
    cases c <;> decide
  intro c d h
  have hc := hleft c
  rw [h, hleft d] at hc
  exact (Option.some.inj hc).symm

/-- Every command packet is acked once, whatever the controller answers. -/
theorem send_cmd_acks_once (bt : BtHci) (hbt : Function.Injective bt.opcode) (f : Features)
    (raw : List UInt8) (hraw : 3 ≤ raw.length)
    (controller : Command → List UInt8 → Except CmdError ReturnParams)
    (hstatus : ∀ command params status,
      controller command params = .error (.hci status) → status ≠ 0) :
    AckedOnce bt f raw ((sendCmdTask bt f raw).calls controller) := by
  have hopcode := opcode_bytes hraw
  rw [sendCmdTask_eq]
  unfold sendCmd
  dsimp only
  cases harm : (arms f).find? (Arm.takes bt (fromLeBytes (raw.getD 0 0) (raw.getD 1 0))
    (raw.drop 3)) with
  | none =>
    have hlocal : ¬ AnsweredLocally bt raw := by
      intro hl
      have htakes := List.find?_eq_none.mp harm _ (supportedCmds_mem_arms f)
      exact htakes (decide_eq_true (show fromLeBytes _ _ = _ from hl))
    exact acked_of_failure hlocal rfl (completeAck_isAck hopcode _ none) (by decide)
      (by simp [Task.calls, Dispatched.task, Task.feed])
  | some arm =>
    have htakes := List.find?_some harm
    have hmem := List.mem_of_find?_eq_some harm
    cases arm with
    | cmd kind command =>
      have hcommand := arms_notLocal f _ hmem
      refine execCmd_acked hraw hstatus ?_ kind command _
      intro hl
      have heq : fromLeBytes (raw.getD 0 0) (raw.getD 1 0) = bt.opcode command :=
        of_decide_eq_true htakes
      exact hcommand (hbt (heq.symm.trans hl))
    | maskedEventMask =>
      refine execCmd_acked hraw hstatus ?_ .sync .leSetEventMask _
      intro hl
      have heq : fromLeBytes (raw.getD 0 0) (raw.getD 1 0) = bt.opcode .leSetEventMask := by
        simp only [Arm.takes, Bool.decide_and, Bool.and_eq_true, decide_eq_true_eq] at htakes
        exact htakes.1
      exact absurd (hbt (heq.symm.trans hl)) (by decide)
    | supportedCmds => exact local_acked hraw (of_decide_eq_true htakes)

theorem reset_acked_once :
    AckedOnce ⟨Command.opcode, fun _ _ => true, fun _ => true⟩ ⟨false, true, true, false, false⟩
      [0x03, 0x0c, 0] ((sendCmdTask ⟨Command.opcode, fun _ _ => true, fun _ => true⟩
        ⟨false, true, true, false, false⟩ [0x03, 0x0c, 0]).calls
        fun _ _ => .ok ⟨[], by decide⟩) :=
  send_cmd_acks_once ⟨Command.opcode, fun _ _ => true, fun _ => true⟩ Command.opcode_injective
    ⟨false, true, true, false, false⟩ [0x03, 0x0c, 0] (by decide) (fun _ _ => .ok ⟨[], by decide⟩)
    (by simp)

end NimbleRs.Hci
