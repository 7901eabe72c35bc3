import NimbleRs.Outbound
import Mathlib.Tactic

/-!
# Command dispatch and the synthesized acks

`send_cmd` up to the point where it awaits `controller.exec` or feeds an ack at once,
and the Command Complete and Command Status events that are synthesized from what
`exec` returns. What `bt_hci` knows about a typed command is a parameter.
-/
namespace NimbleRs.Hci

/-- `u16::from_le_bytes` -/
def fromLeBytes (lo hi : UInt8) : UInt16 := .ofNat (lo.toNat + 256 * hi.toNat)

/-- `u16::to_le_bytes` -/
def toLeBytes (n : UInt16) : List UInt8 := [.ofNat n.toNat, .ofNat (n.toNat / 256)]

def evtPacketMax : ℕ := 2 + 255

def statusUnknownCmd : UInt8 := 0x01
def statusInvalidParams : UInt8 := 0x12
def statusHwFailure : UInt8 := 0x03

/-- `bt_hci::cmd::Error` -/
inductive CmdError
  | hci (status : UInt8)
  | io

/-- What a command returns, serialized: the event has room for it. -/
structure ReturnParams where
  bytes : List UInt8
  fits : 6 + bytes.length ≤ evtPacketMax

def ackStatus {α : Type*} : Except CmdError α → UInt8
  | .ok _ => 0
  | .error (.hci status) => status
  | .error .io => statusHwFailure

def completeAck (opcode : UInt16) (status : UInt8) (ret : Option ReturnParams) :
    Packet evtPacketMax :=
  let evt := [0x0e, 0, 1] ++ toLeBytes opcode ++ [status] ++ (ret.map (·.bytes)).getD []
  ⟨evt.set 1 (.ofNat (evt.length - 2)), by
    cases ret with
    | none => simp [evt, toLeBytes, evtPacketMax]
    | some r =>
      have hfits := r.fits
      simp only [evt, toLeBytes, Option.map_some, Option.getD_some, List.length_set,
        List.length_append, List.length_cons, List.length_nil]
      omega⟩

def plainAck (opcode : UInt16) (status : UInt8) : Packet evtPacketMax :=
  completeAck opcode status none

def statusAck (opcode : UInt16) (status : UInt8) : Packet evtPacketMax :=
  ⟨[0x0f, 4, status, 1] ++ toLeBytes opcode, by simp [toLeBytes, evtPacketMax]⟩

/-- A command is acked when it completes (`sync_cmd`) or when it starts (`async_cmd`). -/
inductive CmdKind
  | sync
  | async
  deriving DecidableEq

/-- The last lines of `sync_cmd` and `async_cmd`. -/
def CmdKind.ack (kind : CmdKind) (opcode : UInt16) (result : Except CmdError ReturnParams) :
    Packet evtPacketMax :=
  match kind, result with
  | .sync, .ok ret => completeAck opcode 0 (some ret)
  | .sync, .error e => plainAck opcode (ackStatus (.error e : Except CmdError Unit))
  | .async, result => statusAck opcode (ackStatus result)

/-- The ack for parameters that do not parse. -/
def CmdKind.malformed (kind : CmdKind) (opcode : UInt16) : Packet evtPacketMax :=
  match kind with
  | .sync => plainAck opcode statusInvalidParams
  | .async => statusAck opcode statusInvalidParams

/-- The length byte of an event counts the parameters that follow it. -/
def Framed (evt : Packet evtPacketMax) : Prop :=
  ∃ code params, evt.bytes = code :: .ofNat params.length :: params

theorem completeAck_framed (opcode : UInt16) (status : UInt8) (ret : Option ReturnParams) :
    Framed (completeAck opcode status ret) :=
  ⟨0x0e, [1] ++ toLeBytes opcode ++ [status] ++ (ret.map (·.bytes)).getD [], by
    simp [completeAck, toLeBytes, add_assoc]⟩

theorem statusAck_framed (opcode : UInt16) (status : UInt8) : Framed (statusAck opcode status) :=
  ⟨0x0f, [status, 1] ++ toLeBytes opcode, by simp [statusAck, toLeBytes]⟩

theorem CmdKind.ack_framed (kind : CmdKind) (opcode : UInt16)
    (result : Except CmdError ReturnParams) : Framed (kind.ack opcode result) := by
  cases kind with
  | sync => cases result <;> exact completeAck_framed ..
  | async => exact statusAck_framed ..

/-- The typed commands of `bt_hci` that the dispatcher names. -/
inductive Command
  | reset
  | setEventMask
  | setEventMaskPage2
  | leSetEventMask
  | readLocalVersionInformation
  | readLocalSupportedCmds
  | readLocalSupportedFeatures
  | readBdAddr
  | leReadBufferSize
  | leReadLocalSupportedFeatures
  | leRand
  | leSetRandomAddr
  | leSetAdvEnable
  | leSetAddrResolutionEnable
  | leClearResolvingList
  | leAddDeviceToResolvingList
  | leRemoveDeviceFromResolvingList
  | leSetPrivacyMode
  | leSetResolvablePrivateAddrTimeout
  | disconnect
  | leReadRemoteFeatures
  | readRemoteVersionInformation
  | leSetDataLength
  | leReadSuggestedDefaultDataLength
  | leWriteSuggestedDefaultDataLength
  | leReadChannelMap
  | readRssi
  | leAddDeviceToFilterAcceptList
  | leRemoveDeviceFromFilterAcceptList
  | leClearFilterAcceptList
  | leReadFilterAcceptListSize
  | leSetAdvParams
  | leSetAdvData
  | leSetScanResponseData
  | leReadAdvPhysicalChannelTxPower
  | leSetScanParams
  | leSetScanEnable
  | leCreateConn
  | leCreateConnCancel
  | leConnUpdate
  | leSetHostChannelClassification
  | leEnableEncryption
  | leLongTermKeyRequestReply
  | leLongTermKeyRequestNegativeReply
  deriving DecidableEq

/-- `Cmd::OPCODE`, and whether `Params::from_hci_bytes` and
`AclPacket::from_hci_bytes_complete` accept the bytes. -/
structure BtHci where
  opcode : Command → UInt16
  parses : Command → List UInt8 → Bool
  parsesAcl : List UInt8 → Bool

/-- The features that the dispatcher is compiled with; `sm` is `sm` or `sm-sc-only`. -/
structure Features where
  central : Bool
  peripheral : Bool
  broadcaster : Bool
  observer : Bool
  sm : Bool

def Features.conn (f : Features) : Bool := f.central || f.peripheral

def coreBits : List (ℕ × ℕ) :=
  [(5, 7), (5, 6), (22, 2), (25, 0), (14, 3), (14, 4), (14, 5), (15, 1), (25, 1), (25, 2), (27, 7),
    (25, 4), (26, 1), (35, 1), (34, 5), (34, 3), (34, 4), (39, 2), (35, 2)]

def connBits : List (ℕ × ℕ) :=
  [(0, 5), (27, 5), (2, 7), (33, 6), (33, 7), (34, 0), (27, 4), (15, 5), (27, 0), (27, 1), (26, 7),
    (26, 6)]

def advBits : List (ℕ × ℕ) := [(25, 5), (25, 7), (26, 0), (25, 6)]

def scanBits : List (ℕ × ℕ) := [(26, 2), (26, 3)]

def centralBits : List (ℕ × ℕ) := [(26, 4), (26, 5), (27, 2), (27, 3)]

def smBits : List (ℕ × ℕ) := [(28, 0), (28, 1), (28, 2)]

/-- What the features compile in: the first list always, the others under their feature. -/
def Features.select {α : Type*} (f : Features) (core conn adv scan central sm : List α) : List α :=
  core ++ (if f.conn then conn else []) ++ (if f.broadcaster then adv else []) ++
    (if f.observer then scan else []) ++ (if f.central then central else []) ++
    (if f.sm then sm else [])

/-- `SUPPORTED_CMDS` as the octets and bits that it sets. -/
def supportedBits (f : Features) : List (ℕ × ℕ) :=
  f.select coreBits connBits advBits scanBits centralBits smBits

/-- The `set!` macro: sets the bits one after the other. -/
def setBits (mask : List UInt8) (bits : List (ℕ × ℕ)) : List UInt8 :=
  bits.foldl (fun mask b => mask.modify b.1 (· ||| .ofNat (2 ^ b.2))) mask

@[simp] theorem setBits_length (mask : List UInt8) (bits : List (ℕ × ℕ)) :
    (setBits mask bits).length = mask.length := by
  unfold setBits
  induction bits generalizing mask with
  | nil => rfl
  | cons b bits ih => simp [ih]

def supportedCmds (f : Features) : ReturnParams :=
  ⟨setBits (List.replicate 64 0) (supportedBits f), by simp [evtPacketMax]⟩

/-- One branch of the dispatcher. -/
inductive Arm
  | cmd (kind : CmdKind) (command : Command)
  | maskedEventMask
  | supportedCmds

def coreArms : List Arm :=
  [.cmd .sync .reset, .cmd .sync .setEventMask, .cmd .sync .setEventMaskPage2, .maskedEventMask,
    .cmd .sync .leSetEventMask, .cmd .sync .readLocalVersionInformation, .supportedCmds,
    .cmd .sync .readLocalSupportedFeatures, .cmd .sync .readBdAddr, .cmd .sync .leReadBufferSize,
    .cmd .sync .leReadLocalSupportedFeatures, .cmd .sync .leRand, .cmd .sync .leSetRandomAddr,
    .cmd .sync .leSetAdvEnable, .cmd .sync .leSetAddrResolutionEnable,
    .cmd .sync .leClearResolvingList, .cmd .sync .leAddDeviceToResolvingList,
    .cmd .sync .leRemoveDeviceFromResolvingList, .cmd .sync .leSetPrivacyMode,
    .cmd .sync .leSetResolvablePrivateAddrTimeout]

def connArms : List Arm :=
  [.cmd .sync .disconnect, .cmd .async .leReadRemoteFeatures,
    .cmd .async .readRemoteVersionInformation, .cmd .sync .leSetDataLength,
    .cmd .sync .leReadSuggestedDefaultDataLength, .cmd .sync .leWriteSuggestedDefaultDataLength,
    .cmd .sync .leReadChannelMap, .cmd .sync .readRssi, .cmd .sync .leAddDeviceToFilterAcceptList,
    .cmd .sync .leRemoveDeviceFromFilterAcceptList, .cmd .sync .leClearFilterAcceptList,
    .cmd .sync .leReadFilterAcceptListSize]

def advArms : List Arm :=
  [.cmd .sync .leSetAdvParams, .cmd .sync .leSetAdvData, .cmd .sync .leSetScanResponseData,
    .cmd .sync .leReadAdvPhysicalChannelTxPower]

def scanArms : List Arm := [.cmd .sync .leSetScanParams, .cmd .sync .leSetScanEnable]

def centralArms : List Arm :=
  [.cmd .async .leCreateConn, .cmd .sync .leCreateConnCancel, .cmd .async .leConnUpdate,
    .cmd .sync .leSetHostChannelClassification]

def smArms : List Arm :=
  [.cmd .async .leEnableEncryption, .cmd .sync .leLongTermKeyRequestReply,
    .cmd .sync .leLongTermKeyRequestNegativeReply]

/-- The branches in the order in which they are tried. -/
def arms (f : Features) : List Arm :=
  f.select coreArms connArms advArms scanArms centralArms smArms

def Arm.takes (bt : BtHci) (opcode : UInt16) (params : List UInt8) : Arm → Bool
  | .cmd _ command => opcode = bt.opcode command
  | .maskedEventMask => opcode = bt.opcode .leSetEventMask ∧ 8 ≤ params.length
  | .supportedCmds => opcode = bt.opcode .readLocalSupportedCmds

/-- What `send_cmd` comes to: a call of `exec` that is awaited, or an ack fed at once. -/
inductive Dispatched
  | exec (kind : CmdKind) (command : Command) (opcode : UInt16) (params : List UInt8)
  | answered (evt : Packet evtPacketMax)

/-- `sync_cmd` and `async_cmd` up to `exec`. -/
def execCmd (bt : BtHci) (kind : CmdKind) (command : Command) (opcode : UInt16)
    (params : List UInt8) : Dispatched :=
  if bt.parses command params then .exec kind command opcode params
  else .answered (kind.malformed opcode)

def Arm.dispatch (bt : BtHci) (f : Features) (opcode : UInt16) (params : List UInt8) :
    Arm → Dispatched
  | .cmd kind command => execCmd bt kind command opcode params
  | .maskedEventMask =>
    -- the LE Remote Connection Parameter Request event stays masked
    execCmd bt .sync .leSetEventMask opcode ((params.take 8).modifyHead (· &&& ~~~0x20))
  | .supportedCmds => .answered (completeAck opcode 0 (some (Hci.supportedCmds f)))

def sendCmd (bt : BtHci) (f : Features) (raw : List UInt8) : Dispatched :=
  let opcode := fromLeBytes (raw.getD 0 0) (raw.getD 1 0)
  let params := raw.drop 3
  match (arms f).find? (Arm.takes bt opcode params) with
  | some arm => arm.dispatch bt f opcode params
  | none => .answered (plainAck opcode statusUnknownCmd)

end NimbleRs.Hci
