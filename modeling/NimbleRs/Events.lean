import NimbleRs.GattTable
import NimbleRs.Singleton
import Mathlib.Tactic

/-!
# Events of the host and the hooks that they go to

The functions that the C host calls back: each looks up a slot, makes a safe event of the raw
one and passes it to the hook. A union is the member that the host has written, and reading
another one is not defined. Constants of the C headers are constructors, and a pointer to an
mbuf that may be null is an option.
-/
namespace NimbleRs.Ble
open Gatt (BleUuid)

/-- The features that decide about events; `sm` is `sm` or `sm-sc-only`. -/
structure EventFeatures extends Features where
  sm : Bool

structure BleAddr where
  kind : UInt8
  val : Vector UInt8 6

/-- `Mbuf`, a view of the buffer of this number. -/
abbrev Mbuf := Option ℕ

section Gap

/-- `BLE_GAP_EVENT_*` -/
inductive GapType
  | connect
  | disconnect
  | mtu
  | disc
  | discComplete
  | passkeyAction
  | encChange
  | subscribe
  | notifyTx
  | notifyRx
  | other
  deriving DecidableEq

/-- `BLE_SM_IOACT_*` -/
inductive SmIoact
  | disp
  | input
  | numcmp
  | oob
  | other (action : UInt8)

/-- `BLE_GAP_SUBSCRIBE_REASON_*` -/
inductive GapSubscribeReason
  | write
  | term
  | restore
  | other (reason : UInt8)

/-- The union in `ble_gap_event`. -/
inductive GapAnon
  | connect (status : ℤ) (connHandle : UInt16)
  | disconnect (reason : ℤ) (connHandle : UInt16)
  | mtu (connHandle value : UInt16)
  | disc (eventType : UInt8) (addr : BleAddr) (rssi : ℤ) (data : Option (List UInt8))
    (lengthData : UInt8)
  | discComplete (reason : ℤ)
  | passkey (connHandle : UInt16) (action : SmIoact) (numcmp : UInt32)
  | encChange (status : ℤ) (connHandle : UInt16)
  | subscribe (connHandle attrHandle : UInt16) (reason : GapSubscribeReason)
    (prevNotify curNotify prevIndicate curIndicate : Bool)
  | notifyTx (status : ℤ) (connHandle attrHandle : UInt16) (indication : Bool)
  | notifyRx (om : Mbuf) (connHandle attrHandle : UInt16) (indication : Bool)
  | other

structure BleGapEvent where
  type : GapType
  anon : GapAnon

/-- The data of an advertisement is there. -/
def GapAnon.HasData : GapAnon → Prop
  | disc _ _ _ data lengthData => ∀ bytes ∈ data, lengthData.toNat ≤ bytes.length
  | _ => True

instance : DecidablePred GapAnon.HasData
  | .disc _ _ _ none _ => .isTrue (by simp [GapAnon.HasData])
  | .disc _ _ _ (some bytes) lengthData =>
    decidable_of_iff (lengthData.toNat ≤ bytes.length) (by simp [GapAnon.HasData])
  | .connect .. | .disconnect .. | .mtu .. | .discComplete .. | .passkey .. | .encChange ..
  | .subscribe .. | .notifyTx .. | .notifyRx .. | .other => .isTrue trivial

/-- The type that a member belongs to. -/
def GapAnon.type : GapAnon → GapType
  | connect .. => .connect
  | disconnect .. => .disconnect
  | mtu .. => .mtu
  | disc .. => .disc
  | discComplete .. => .discComplete
  | passkey .. => .passkeyAction
  | encChange .. => .encChange
  | subscribe .. => .subscribe
  | notifyTx .. => .notifyTx
  | notifyRx .. => .notifyRx
  | other => .other

inductive PasskeyAction
  | display (passkey : UInt32)
  | input
  | numCmp (number : UInt32)
  | oob
  | other (action : UInt8)

inductive GapEvent
  | connect (connHandle : UInt16) (status : Except BleError Unit)
  | disconnect (connHandle : UInt16) (reason : ℤ)
  | mtu (connHandle value : UInt16)
  | discovery (eventType : UInt8) (addr : BleAddr) (rssi : ℤ) (data : List UInt8)
  | discoveryComplete (reason : ℤ)
  | passkeyAction (connHandle : UInt16) (action : PasskeyAction)
  | encChange (connHandle : UInt16) (status : Except BleError Unit)
  | other

def PasskeyAction.ofRaw (action : SmIoact) (numcmp : UInt32) : PasskeyAction :=
  match action with
  | .disp => .display numcmp
  | .input => .input
  | .numcmp => .numCmp numcmp
  | .oob => .oob
  | .other action => .other action

/-- `slice::from_raw_parts`, with what is in memory behind the pointer. -/
def fromRawParts (data : Option (List UInt8)) (len : ℕ) : Option (List UInt8) :=
  match data with
  | none => some []
  | some bytes => if len ≤ bytes.length then some (bytes.take len) else none

/-- `From<&ble_gap_event> for GapEvent`; `none` when it reads a member that is not there. -/
def GapEvent.ofRaw (sm : Bool) (event : BleGapEvent) : Option GapEvent :=
  match event.type, event.anon with
  | .connect, .connect status connHandle => some (.connect connHandle (BleError.check status))
  | .disconnect, .disconnect reason connHandle => some (.disconnect connHandle reason)
  | .mtu, .mtu connHandle value => some (.mtu connHandle value)
  | .disc, .disc eventType addr rssi data lengthData =>
    (fromRawParts data lengthData.toNat).map fun data => .discovery eventType addr rssi data
  | .discComplete, .discComplete reason => some (.discoveryComplete reason)
  | .passkeyAction, anon =>
    if sm then
      match anon with
      | .passkey connHandle action numcmp =>
        some (.passkeyAction connHandle (.ofRaw action numcmp))
      | _ => none
    else some .other
  | .encChange, .encChange status connHandle =>
    some (.encChange connHandle (BleError.check status))
  | .connect, _ | .disconnect, _ | .mtu, _ | .disc, _ | .discComplete, _ | .encChange, _ => none
  | .subscribe, _ | .notifyTx, _ | .notifyRx, _ | .other, _ => some .other

end Gap

section Gatts

/-- The union in `ble_gatt_register_ctxt`; what the definitions point to is their UUID. -/
inductive RegisterAnon
  | svc (uuid : BleUuid) (handle : UInt16)
  | chr (uuid : BleUuid) (defHandle valHandle : UInt16)
  | dsc (uuid : BleUuid) (handle : UInt16)

/-- `BLE_GATT_REGISTER_OP_*` -/
inductive RegisterOp
  | svc
  | chr
  | dsc
  | other
  deriving DecidableEq

structure RegisterCtxt where
  op : RegisterOp
  anon : RegisterAnon

def RegisterAnon.op : RegisterAnon → RegisterOp
  | svc .. => .svc
  | chr .. => .chr
  | dsc .. => .dsc

inductive BleGattRegister
  | service (uuid : BleUuid) (handle : UInt16)
  | characteristic (uuid : BleUuid) (defHandle valHandle : UInt16)
  | descriptor (uuid : BleUuid) (handle : UInt16)
  | other

/-- `From<&ble_gatt_register_ctxt> for BleGattRegister` -/
def BleGattRegister.ofRaw (ctxt : RegisterCtxt) : Option BleGattRegister :=
  match ctxt.op, ctxt.anon with
  | .svc, .svc uuid handle => some (.service uuid handle)
  | .chr, .chr uuid defHandle valHandle => some (.characteristic uuid defHandle valHandle)
  | .dsc, .dsc uuid handle => some (.descriptor uuid handle)
  | .other, _ => some .other
  | _, _ => none

/-- `BLE_GATT_ACCESS_OP_*` -/
inductive AccessOp
  | readChr
  | writeChr
  | other

/-- `ble_gatt_access_ctxt` -/
structure AccessCtxt where
  op : AccessOp
  om : Mbuf
  offset : UInt16

inductive GattsEvent
  | register (event : BleGattRegister)
  | read (connHandle attrHandle offset : UInt16) (reply : Mbuf)
  | write (connHandle attrHandle : UInt16) (data : Mbuf)
  | subscriptionChanged (connHandle attrHandle : UInt16) (reason : GapSubscribeReason)
    (prevNotify curNotify prevIndicate curIndicate : Bool)
  | notifyComplete (connHandle attrHandle : UInt16) (indication : Bool) (status : ℤ)

/-- `GattsEvent::from_gap`; the inner `none` is its `None`. -/
def GattsEvent.fromGap (event : BleGapEvent) : Option (Option GattsEvent) :=
  match event.type, event.anon with
  | .subscribe, .subscribe connHandle attrHandle reason prevNotify curNotify prevIndicate
      curIndicate =>
    some (some (.subscriptionChanged connHandle attrHandle reason prevNotify curNotify
      prevIndicate curIndicate))
  | .notifyTx, .notifyTx status connHandle attrHandle indication =>
    some (some (.notifyComplete connHandle attrHandle indication status))
  | .subscribe, _ | .notifyTx, _ => none
  | _, _ => some none

end Gatts

section Gattc

/-- `ble_gatt_svc`, and the safe view of it. -/
structure GattcService where
  startHandle : UInt16
  endHandle : UInt16
  uuid : BleUuid

/-- `ble_gatt_chr`, and the safe view of it. -/
structure GattcChr where
  defHandle : UInt16
  valHandle : UInt16
  properties : UInt8
  uuid : BleUuid

/-- The fields of `ble_gatt_attr` that are read. -/
structure GattAttr where
  handle : UInt16
  om : Mbuf

inductive GattcEvent
  | service (connHandle status : UInt16) (service : Option GattcService)
  | characteristic (connHandle status : UInt16) (chr : Option GattcChr)
  | readComplete (connHandle status attrHandle : UInt16) (data : Mbuf)
  | writeComplete (connHandle status attrHandle : UInt16)
  | notify (connHandle attrHandle : UInt16) (indication : Bool) (data : Mbuf)

/-- The status of a `ble_gatt_error` that may be null. -/
def errorStatus (error : Option UInt16) : UInt16 := error.getD 0

/-- `GattcEvent::from_notify_rx` -/
def GattcEvent.fromNotifyRx (event : BleGapEvent) : Option GattcEvent :=
  match event.anon with
  | .notifyRx om connHandle attrHandle indication =>
    some (.notify connHandle attrHandle indication om)
  | _ => none

end Gattc

section L2cap

/-- `BLE_L2CAP_EVENT_COC_*` -/
inductive L2capType
  | connected
  | disconnected
  | accept
  | dataReceived
  | txUnstalled
  | reconfigCompleted
  | peerReconfigured
  | other
  deriving DecidableEq

/-- The union in `ble_l2cap_event`; a channel is the number of its handle. -/
inductive L2capAnon
  | connect (status : ℤ) (connHandle : UInt16) (chan : ℕ)
  | disconnect (connHandle : UInt16) (chan : ℕ)
  | accept (connHandle peerSduSize : UInt16) (chan : ℕ)
  | receive (connHandle : UInt16) (chan : ℕ) (sduRx : Mbuf)
  | txUnstalled (connHandle : UInt16) (chan : ℕ) (status : ℤ)
  | reconfigured (status : ℤ) (connHandle : UInt16) (chan : ℕ)
  | other

structure BleL2capEvent where
  type : L2capType
  anon : L2capAnon

/-- The member is the one of the type; two types share the last one. -/
def L2capAnon.fits (type : L2capType) : L2capAnon → Prop
  | connect .. => type = .connected
  | disconnect .. => type = .disconnected
  | accept .. => type = .accept
  | receive .. => type = .dataReceived
  | txUnstalled .. => type = .txUnstalled
  | reconfigured .. => type = .reconfigCompleted ∨ type = .peerReconfigured
  | other => type = .other

instance (type : L2capType) : DecidablePred (L2capAnon.fits type)
  | .connect .. => inferInstanceAs (Decidable (type = .connected))
  | .disconnect .. => inferInstanceAs (Decidable (type = .disconnected))
  | .accept .. => inferInstanceAs (Decidable (type = .accept))
  | .receive .. => inferInstanceAs (Decidable (type = .dataReceived))
  | .txUnstalled .. => inferInstanceAs (Decidable (type = .txUnstalled))
  | .reconfigured .. =>
    inferInstanceAs (Decidable (type = .reconfigCompleted ∨ type = .peerReconfigured))
  | .other => inferInstanceAs (Decidable (type = .other))

inductive L2capEvent
  | connected (connHandle : UInt16) (status : ℤ) (chan : ℕ)
  | disconnected (connHandle : UInt16) (chan : ℕ)
  | accept (connHandle peerSduSize : UInt16) (chan : ℕ)
  | received (connHandle : UInt16) (chan : ℕ) (data : Mbuf)
  | txUnstalled (connHandle : UInt16) (status : ℤ) (chan : ℕ)
  | reconfigured (connHandle : UInt16) (status : ℤ) (chan : ℕ) (byPeer : Bool)

/-- `L2capEvent::from_raw`; the inner `none` is its `None`. -/
def L2capEvent.fromRaw (event : BleL2capEvent) : Option (Option L2capEvent) :=
  match event.type, event.anon with
  | .connected, .connect status connHandle chan => some (some (.connected connHandle status chan))
  | .disconnected, .disconnect connHandle chan => some (some (.disconnected connHandle chan))
  | .accept, .accept connHandle peerSduSize chan =>
    some (some (.accept connHandle peerSduSize chan))
  | .dataReceived, .receive connHandle chan sduRx => some (some (.received connHandle chan sduRx))
  | .txUnstalled, .txUnstalled connHandle chan status =>
    some (some (.txUnstalled connHandle status chan))
  | .reconfigCompleted, .reconfigured status connHandle chan =>
    some (some (.reconfigured connHandle status chan false))
  | .peerReconfigured, .reconfigured status connHandle chan =>
    some (some (.reconfigured connHandle status chan true))
  | .other, _ => some none
  | _, _ => none

end L2cap

inductive HostEvent
  | sync
  | reset (reason : ℤ)

/-- What the hooks of the five slots are called with. -/
inductive HookEvent
  | host (event : HostEvent)
  | gap (event : GapEvent)
  | gatts (event : GattsEvent)
  | gattc (event : GattcEvent)
  | l2cap (event : L2capEvent)

def HookEvent.slot : HookEvent → Slot
  | host _ => .host
  | gap _ => .gap
  | gatts _ => .gatts
  | gattc _ => .gattc
  | l2cap _ => .l2cap

/-- A call from the C host. -/
inductive Callback
  | onSync
  | onReset (reason : ℤ)
  | gapEventCb (event : BleGapEvent)
  | gattsRegisterCb (ctxt : RegisterCtxt)
  | gattsAccessCb (connHandle attrHandle : UInt16) (ctxt : AccessCtxt)
  | discSvcCb (connHandle : UInt16) (error : Option UInt16) (service : Option GattcService)
  | discChrCb (connHandle : UInt16) (error : Option UInt16) (chr : Option GattcChr)
  | readCb (connHandle : UInt16) (error : Option UInt16) (attr : Option GattAttr)
  | writeCb (connHandle : UInt16) (error : Option UInt16) (attr : Option GattAttr)
  | l2capEventCb (event : BleL2capEvent)

namespace Callback

/-- Whether the function is compiled; `gap_event_cb` has arms that may not be. -/
def compiled (f : EventFeatures) : Callback → Bool
  | onSync | onReset _ | gapEventCb _ => true
  | gattsRegisterCb _ | gattsAccessCb .. => f.peripheral
  | discSvcCb .. | discChrCb .. | readCb .. | writeCb .. => f.central
  | l2capEventCb _ => f.l2cap

/-- The member of a union that comes with a call is the one of its type, and what it points
to is there. -/
def WellFormed : Callback → Prop
  | gapEventCb event => event.anon.type = event.type ∧ event.anon.HasData
  | gattsRegisterCb ctxt => ctxt.anon.op = ctxt.op
  | l2capEventCb event => event.anon.fits event.type
  | _ => True

instance : DecidablePred WellFormed
  | .gapEventCb event =>
    inferInstanceAs (Decidable (event.anon.type = event.type ∧ event.anon.HasData))
  | .gattsRegisterCb ctxt => inferInstanceAs (Decidable (ctxt.anon.op = ctxt.op))
  | .l2capEventCb event => inferInstanceAs (Decidable (event.anon.fits event.type))
  | .onSync | .onReset .. | .gattsAccessCb .. | .discSvcCb .. | .discChrCb .. | .readCb ..
  | .writeCb .. => .isTrue trivial

end Callback

/-- What such a function does: it returns at once, or calls a hook and makes its own result of
the hook's. -/
inductive Dispatch
  | undefined
  | returns (rc : ℤ)
  | calls (hook : Borrow) (event : HookEvent) (result : ℤ → ℤ)

/-- `BLE_ATT_ERR_UNLIKELY` -/
def attErrUnlikely : ℤ := 0x0e

/-- `if let Some(cb) = slot.get() { cb(event) } else { absent }` -/
def callHook (hook : Option Borrow) (event : Option HookEvent) (absent : ℤ) (result : ℤ → ℤ) :
    Dispatch :=
  match hook, event with
  | none, _ => .returns absent
  | some _, none => .undefined
  | some hook, some event => .calls hook event result

/-- The same for an event that is made before the slot is looked at and may be none at all. -/
def callHookWith (hook : Option Borrow) (event : Option (Option HookEvent)) (result : ℤ → ℤ) :
    Dispatch :=
  match hook, event with
  | _, none => .undefined
  | some hook, some (some event) => .calls hook event result
  | _, _ => .returns 0

/-- `gap_event_cb` -/
def gapEventCb (f : EventFeatures) (slot : Slot → Option Borrow) (event : BleGapEvent) :
    Dispatch :=
  match event.type, f.peripheral, f.central with
  | .subscribe, true, _ | .notifyTx, true, _ =>
    callHookWith (slot .gatts) ((GattsEvent.fromGap event).map (·.map .gatts)) fun _ => 0
  | .notifyRx, _, true =>
    callHook (slot .gattc) ((GattcEvent.fromNotifyRx event).map .gattc) 0 fun _ => 0
  | _, _, _ => callHook (slot .gap) ((GapEvent.ofRaw f.sm event).map .gap) 0 id

/-- `gatts_access_cb` -/
def gattsAccessCb (slot : Slot → Option Borrow) (connHandle attrHandle : UInt16)
    (ctxt : AccessCtxt) : Dispatch :=
  match slot .gatts, ctxt.op with
  | none, _ => .returns attErrUnlikely
  | some hook, .readChr => .calls hook (.gatts (.read connHandle attrHandle ctxt.offset ctxt.om)) id
  | some hook, .writeChr => .calls hook (.gatts (.write connHandle attrHandle ctxt.om)) id
  | some _, .other => .returns attErrUnlikely

def dispatch (f : EventFeatures) (slot : Slot → Option Borrow) : Callback → Dispatch
  | .onSync => callHook (slot .host) (some (.host .sync)) 0 fun _ => 0
  | .onReset reason => callHook (slot .host) (some (.host (.reset reason))) 0 fun _ => 0
  | .gapEventCb event => gapEventCb f slot event
  | .gattsRegisterCb ctxt =>
    callHook (slot .gatts) ((BleGattRegister.ofRaw ctxt).map fun e => .gatts (.register e)) 0
      fun _ => 0
  | .gattsAccessCb connHandle attrHandle ctxt => gattsAccessCb slot connHandle attrHandle ctxt
  | .discSvcCb connHandle error service =>
    callHook (slot .gattc) (some (.gattc (.service connHandle (errorStatus error) service))) 0
      fun _ => 0
  | .discChrCb connHandle error chr =>
    callHook (slot .gattc) (some (.gattc (.characteristic connHandle (errorStatus error) chr))) 0
      fun _ => 0
  | .readCb connHandle error attr =>
    callHook (slot .gattc) (some (.gattc (.readComplete connHandle (errorStatus error)
      ((attr.map (·.handle)).getD 0) (attr.bind (·.om))))) 0 fun _ => 0
  | .writeCb connHandle error attr =>
    callHook (slot .gattc) (some (.gattc (.writeComplete connHandle (errorStatus error)
      ((attr.map (·.handle)).getD 0)))) 0 fun _ => 0
  | .l2capEventCb event =>
    callHookWith (slot .l2cap) ((L2capEvent.fromRaw event).map (·.map .l2cap)) id

section Dispatch
variable {f : EventFeatures} {slot : Slot → Option Borrow} {hook : Borrow} {e : HookEvent}
  {result : ℤ → ℤ}

/-- The C host is told what the hook returns only for these events. -/
def HookEvent.replies : HookEvent → Bool
  | gap _ | gatts (.read ..) | gatts (.write ..) | l2cap _ => true
  | _ => false

theorem callHook_calls {h : Option Borrow} {event : Option HookEvent} {absent : ℤ}
    {r : ℤ → ℤ} (hcalls : callHook h event absent r = .calls hook e result) :
    h = some hook ∧ event = some e ∧ r = result := by
  unfold callHook at hcalls
  split at hcalls
  · exact absurd hcalls (by simp)
  · exact absurd hcalls (by simp)
  · obtain ⟨rfl, rfl, rfl⟩ := Dispatch.calls.inj hcalls
    exact ⟨rfl, rfl, rfl⟩

theorem callHookWith_calls {h : Option Borrow} {event : Option (Option HookEvent)} {r : ℤ → ℤ}
    (hcalls : callHookWith h event r = .calls hook e result) :
    h = some hook ∧ event = some (some e) ∧ r = result := by
  unfold callHookWith at hcalls
  split at hcalls
  · exact absurd hcalls (by simp)
  · obtain ⟨rfl, rfl, rfl⟩ := Dispatch.calls.inj hcalls
    exact ⟨rfl, rfl, rfl⟩
  · exact absurd hcalls (by simp)

theorem callHook_defined {h : Option Borrow} {event : Option HookEvent} {absent : ℤ} {r : ℤ → ℤ}
    (hevent : event ≠ none) : callHook h event absent r ≠ .undefined := by
  unfold callHook
  split
  · simp
  · exact absurd rfl hevent
  · simp

theorem callHookWith_defined {h : Option Borrow} {event : Option (Option HookEvent)} {r : ℤ → ℤ}
    (hevent : event ≠ none) : callHookWith h event r ≠ .undefined := by
  unfold callHookWith
  split
  · exact absurd rfl hevent
  · simp
  · simp

/-- A hook is called from the slot of its event, and only some are asked for a result. -/
structure Asks (slot : Slot → Option Borrow) (hook : Borrow) (e : HookEvent) (result : ℤ → ℤ) :
    Prop where
  slot : slot e.slot = some hook
  result : e.replies = false → ∀ n, result n = 0

theorem gapEventCb_asks {event : BleGapEvent}
    (h : gapEventCb f slot event = .calls hook e result) : Asks slot hook e result := by
  unfold gapEventCb at h
  split at h
  iterate 2
    obtain ⟨hslot, hevent, rfl⟩ := callHookWith_calls h
    obtain ⟨o, -, ho⟩ := Option.map_eq_some_iff.mp hevent
    obtain ⟨g, -, rfl⟩ := Option.map_eq_some_iff.mp ho
    exact ⟨hslot, fun _ _ => rfl⟩
  · obtain ⟨hslot, hevent, rfl⟩ := callHook_calls h
    obtain ⟨g, -, rfl⟩ := Option.map_eq_some_iff.mp hevent
    exact ⟨hslot, fun _ _ => rfl⟩
  · obtain ⟨hslot, hevent, rfl⟩ := callHook_calls h
    obtain ⟨g, -, rfl⟩ := Option.map_eq_some_iff.mp hevent
    exact ⟨hslot, fun hreplies => absurd hreplies (by simp [HookEvent.replies])⟩

theorem gattsAccessCb_asks {connHandle attrHandle : UInt16} {ctxt : AccessCtxt}
    (h : gattsAccessCb slot connHandle attrHandle ctxt = .calls hook e result) :
    Asks slot hook e result := by
  unfold gattsAccessCb at h
  split at h
  · exact absurd h (by simp)
  iterate 2
    next hslot _ =>
      obtain ⟨rfl, rfl, rfl⟩ := Dispatch.calls.inj h
      exact ⟨hslot, fun hreplies => absurd hreplies (by simp [HookEvent.replies])⟩
  · exact absurd h (by simp)

theorem dispatch_asks {call : Callback} (h : dispatch f slot call = .calls hook e result) :
    Asks slot hook e result := by
  cases call with
  | gapEventCb event => exact gapEventCb_asks h
  | gattsAccessCb connHandle attrHandle ctxt => exact gattsAccessCb_asks h
  | gattsRegisterCb ctxt =>
    obtain ⟨hslot, hevent, rfl⟩ := callHook_calls h
    obtain ⟨r, -, rfl⟩ := Option.map_eq_some_iff.mp hevent
    exact ⟨hslot, fun _ _ => rfl⟩
  | l2capEventCb event =>
    obtain ⟨hslot, hevent, rfl⟩ := callHookWith_calls h
    obtain ⟨o, -, ho⟩ := Option.map_eq_some_iff.mp hevent
    obtain ⟨g, -, rfl⟩ := Option.map_eq_some_iff.mp ho
    exact ⟨hslot, fun hreplies => absurd hreplies (by simp [HookEvent.replies])⟩
  | _ =>
    obtain ⟨hslot, hevent, rfl⟩ := callHook_calls h
    obtain rfl := Option.some.inj hevent
    exact ⟨hslot, fun _ _ => rfl⟩

theorem GapEvent.ofRaw_ne_none {sm : Bool} {event : BleGapEvent}
    (htype : event.anon.type = event.type) (hdata : event.anon.HasData) :
    GapEvent.ofRaw sm event ≠ none := by
  obtain ⟨type, anon⟩ := event
  obtain rfl : anon.type = type := htype
  cases anon with
  | disc eventType addr rssi data lengthData =>
    cases data with
    | none => simp [GapEvent.ofRaw, GapAnon.type, fromRawParts]
    | some bytes =>
      have hlen : lengthData.toNat ≤ bytes.length := hdata bytes rfl
      simp [GapEvent.ofRaw, GapAnon.type, fromRawParts, hlen]
  | passkey connHandle action numcmp => cases sm <;> simp [GapEvent.ofRaw, GapAnon.type]
  | _ => simp [GapEvent.ofRaw, GapAnon.type]

theorem GattsEvent.fromGap_ne_none {event : BleGapEvent} (htype : event.anon.type = event.type) :
    GattsEvent.fromGap event ≠ none := by
  obtain ⟨type, anon⟩ := event
  obtain rfl : anon.type = type := htype
  cases anon <;> simp [GattsEvent.fromGap, GapAnon.type]

theorem GattcEvent.fromNotifyRx_ne_none {event : BleGapEvent}
    (htype : event.anon.type = event.type) (hrx : event.type = .notifyRx) :
    GattcEvent.fromNotifyRx event ≠ none := by
  obtain ⟨type, anon⟩ := event
  obtain rfl : anon.type = type := htype
  cases anon <;> simp_all [GattcEvent.fromNotifyRx, GapAnon.type]

theorem BleGattRegister.ofRaw_ne_none {ctxt : RegisterCtxt} (hop : ctxt.anon.op = ctxt.op) :
    BleGattRegister.ofRaw ctxt ≠ none := by
  obtain ⟨op, anon⟩ := ctxt
  obtain rfl : anon.op = op := hop
  cases anon <;> simp [BleGattRegister.ofRaw, RegisterAnon.op]

theorem L2capEvent.fromRaw_ne_none {event : BleL2capEvent} (hfits : event.anon.fits event.type) :
    L2capEvent.fromRaw event ≠ none := by
  obtain ⟨type, anon⟩ := event
  cases anon with
  | reconfigured status connHandle chan =>
    obtain rfl | rfl : type = .reconfigCompleted ∨ type = .peerReconfigured := hfits
    · simp [L2capEvent.fromRaw]
    · simp [L2capEvent.fromRaw]
  | _ =>
    simp only [L2capAnon.fits] at hfits
    subst hfits
    simp [L2capEvent.fromRaw]

/-- No member of a union is read that the host has not written. -/
theorem dispatch_defined {call : Callback} (h : call.WellFormed) :
    dispatch f slot call ≠ .undefined := by
  cases call with
  | gapEventCb event =>
    obtain ⟨htype, hdata⟩ : event.anon.type = event.type ∧ event.anon.HasData := h
    simp only [dispatch, gapEventCb]
    split
    iterate 2 exact callHookWith_defined (by simpa using GattsEvent.fromGap_ne_none htype)
    next hrx _ => exact callHook_defined (by simpa using GattcEvent.fromNotifyRx_ne_none htype hrx)
    next => exact callHook_defined (by simpa using GapEvent.ofRaw_ne_none htype hdata)
  | gattsAccessCb connHandle attrHandle ctxt =>
    simp only [dispatch, gattsAccessCb]
    split <;> simp
  | gattsRegisterCb ctxt =>
    exact callHook_defined (by simpa using BleGattRegister.ofRaw_ne_none h)
  | l2capEventCb event =>
    exact callHookWith_defined (by simpa using L2capEvent.fromRaw_ne_none h)
  | _ => exact callHook_defined (by simp)

end Dispatch

end NimbleRs.Ble
