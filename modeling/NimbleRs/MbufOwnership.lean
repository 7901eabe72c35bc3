import NimbleRs.OwnedHeap
import NimbleRs.InboundAcl
import NimbleRs.Mbuf
import NimbleRs.OutboundAcl
import Mathlib.Tactic

/-!
# Who frees a buffer

The functions that allocate, take over, borrow or pass on a buffer of the C host, as programs
on the heap of buffers: the mbufs of `os_msys` and the buffers of the transport. What a C
function that is passed an mbuf does with it is what the comments at its calls say. The hooks
that are called on the way may read and append as often as they like. Any number of these
calls may be under way at once.
-/
namespace NimbleRs.Ownership
open OwnedHeap TransitionSystem
open Ble (BleError)
open Payload (SendOutcome)

variable {R : Type}

inductive Kind
  /-- Freed with `os_mbuf_free_chain`. -/
  | mbuf
  /-- Freed with `ble_transport_free`. -/
  | transport
  deriving DecidableEq

/-- The C functions that are passed a buffer or asked about one. -/
inductive CFn
  | gattsIndicateCustom
  | gattsNotifyCustom
  | l2capConnect
  | l2capSend
  | l2capRecvReady
  | transportToHsEvt
  | transportToHsAcl
  | hsMbufToFlat
  | osMbufAppend

/-- The error codes of the host that decide who frees a buffer. -/
structure Codes where
  enomem : ℤ
  einval : ℤ
  enotconn : ℤ
  ebusy : ℤ
  ebaddata : ℤ
  estalled : ℤ
  enomem_ne_zero : enomem ≠ 0
  enomem_ne_einval : enomem ≠ einval
  enomem_ne_enotconn : enomem ≠ enotconn
  ebusy_ne_zero : ebusy ≠ 0
  ebaddata_ne_zero : ebaddata ≠ 0
  ebusy_ne_estalled : ebusy ≠ estalled
  ebaddata_ne_estalled : ebaddata ≠ estalled

/-- Whether a C function that returns `rc` may have taken the buffer that it was passed. -/
def Codes.takes (codes : Codes) (fn : CFn) (rc : ℤ) (taken : Bool) : Bool :=
  match fn with
  | .l2capConnect =>
    if rc = codes.enotconn ∨ rc = codes.einval then !taken
    -- returned from both sides of the line where the channel takes the buffer
    else if rc = codes.enomem then true
    else taken
  | .l2capSend => if rc = codes.ebaddata ∨ rc = codes.ebusy then !taken else taken
  | .l2capRecvReady => if rc = codes.ebusy ∨ rc = codes.einval then !taken else taken
  | _ => taken

abbrev BufferProg (R : Type) := Prog Kind CFn R

/-- What a call comes to. -/
inductive Returned
  | unit
  | result (r : Except BleError Unit)
  | sent (r : Except BleError SendOutcome)
  | status (rc : ℤ)
  | panicked

/-- What a hook does with the `Mbuf` that it is given. -/
inductive MbufUse
  | read
  | append

/-- `Mbuf::read` and `Mbuf::append`; a read of a null mbuf is over at once. -/
def MbufUse.prog (om : Option R) : MbufUse → BufferProg R Unit
  | .read =>
    match om with
    | none => return ()
    | some om => do
      .touch om
      let _ ← .ask .hsMbufToFlat
  | .append => do
    if let some om := om then .touch om
    let _ ← .ask .osMbufAppend

def hook (om : Option R) : List MbufUse → BufferProg R Unit
  | [] => return ()
  | u :: uses => do
    u.prog om
    hook om uses

/-- `mbuf_from_slice` -/
def mbufFromSlice : BufferProg R (Except BleError R) := do
  match ← .new .mbuf with
  | none => return .error .enomem
  | some om => return .ok om

def indicate : BufferProg R (Except BleError Unit) := do
  match ← mbufFromSlice with
  | .error err => return .error err
  | .ok om => return BleError.check (← .pass .gattsIndicateCustom om)

def notify : BufferProg R (Except BleError Unit) := do
  match ← mbufFromSlice with
  | .error err => return .error err
  | .ok om => return BleError.check (← .pass .gattsNotifyCustom om)

/-- `free_mbuf` -/
def freeMbuf : Option R → BufferProg R Unit
  | none => return ()
  | some om => .release .mbuf om

/-- `alloc_sdu` -/
def allocSdu : BufferProg R (Except BleError R) := do
  match ← .new .mbuf with
  | none => return .error .enomem
  | some om => return .ok om

def l2capConnect (codes : Codes) : BufferProg R (Except BleError Unit) := do
  match ← allocSdu with
  | .error err => return .error err
  | .ok sduRx =>
    let rc ← .pass .l2capConnect sduRx
    if rc = codes.enotconn ∨ rc = codes.einval then freeMbuf (some sduRx)
    return BleError.check rc

def l2capSend (codes : Codes) : BufferProg R (Except BleError SendOutcome) := do
  match ← .new .mbuf with
  | none => return .error .enomem
  | some sdu =>
    let rc ← .pass .l2capSend sdu
    if rc = 0 then return .ok .sent
    else if rc = codes.estalled then return .ok .stalled
    else if rc = codes.ebaddata ∨ rc = codes.ebusy then
      freeMbuf (some sdu)
      return (BleError.check rc).map fun _ => .sent
    else return (BleError.check rc).map fun _ => .sent

def l2capRecvReady (codes : Codes) : BufferProg R (Except BleError Unit) := do
  match ← allocSdu with
  | .error err => return .error err
  | .ok sduRx =>
    let rc ← .pass .l2capRecvReady sduRx
    if rc = codes.ebusy ∨ rc = codes.einval then freeMbuf (some sduRx)
    return BleError.check rc

/-- `l2cap_event_cb` on a received SDU (`sduRx`) or on another event; `cb` is what the
subscribed hook does, if there is one, and the status that it returns. -/
def l2capEventCb (sduRx : Option (Option R)) (cb : Option (List MbufUse × ℤ)) :
    BufferProg R ℤ := do
  let status ←
    match cb with
    | none => pure 0
    | some (uses, status) => do
      if let some om := sduRx then hook om uses
      pure status
  if let some om := sduRx then freeMbuf om
  return status

def bleAttErrUnlikely : ℤ := 0x0e

/-- `gatts_access_cb` on the mbuf of the access; `accessed` says that the operation is a read
or a write of a characteristic. -/
def gattsAccessCb (om : Option R) (accessed : Bool) (cb : Option (List MbufUse × ℤ)) :
    BufferProg R ℤ :=
  match cb with
  | none => return bleAttErrUnlikely
  | some (uses, status) =>
    if accessed then do
      hook om uses
      return status
    else return bleAttErrUnlikely

/-- `read_cb` of the GATT client, and the `NOTIFY_RX` arm of `gap_event_cb`. -/
def gattcCb (om : Option R) (cb : Option (List MbufUse)) : BufferProg R ℤ := do
  if let some uses := cb then hook om uses
  return 0

/-- `ble_transport_to_ll_cmd_impl`, which reads the length and copies the packet. -/
def toLlCmdImpl (buf : R) (queueFull : Bool) : BufferProg R ℤ := do
  .touch buf
  .touch buf
  .release .transport buf
  return if queueFull then Hci.bleErrMemCapacity else 0

/-- Copies segments of these lengths as long as there is room for them. -/
def flatten (om : R) : ℕ → List ℕ → BufferProg R Bool
  | _, [] => return true
  | room, len :: lens => do
    .touch om
    if len ≤ room then flatten om (room - len) lens
    else return false

/-- `ble_transport_to_ll_acl_impl` -/
def toLlAclImpl (aclSize : ℕ) (om : R) (lens : List ℕ) (queueFull : Bool) : BufferProg R ℤ := do
  if ← flatten om (Hci.aclPacketMax aclSize) lens then
    .release .mbuf om
    return if queueFull then Hci.bleErrMemCapacity else 0
  else
    .release .mbuf om
    return Hci.bleErrMemCapacity

def bleErrUnsupported : ℤ := 0x11

/-- `ble_transport_to_ll_iso_impl` -/
def toLlIsoImpl (om : R) : BufferProg R ℤ := do
  .release .mbuf om
  return bleErrUnsupported

def feedEvent : BufferProg R Unit := do
  match ← .new .transport with
  | none => return ()
  | some buf =>
    -- the code, the length, the parameters
    .touch buf
    .touch buf
    .touch buf
    let _ ← .pass .transportToHsEvt buf

/-- The `Acl` arm of `rx_dispatch`, on a packet of this size. -/
def rxDispatchAcl (aclSize size : ℕ) : BufferProg R Returned := do
  match ← .new .mbuf with
  | none => return .unit
  | some om =>
    if size ≤ Hci.aclPacketMax aclSize then
      .touch om
      if (← .ask .osMbufAppend) ≠ 0 then
        .release .mbuf om
        return .unit
      let _ ← .pass .transportToHsAcl om
      return .unit
    else return .panicked

/-- A call, with what it is handed and what the hooks do. -/
inductive Entry (R : Type)
  | indicate
  | notify
  | l2capConnect
  | l2capSend
  | l2capRecvReady
  | l2capEventCb (sduRx : Option (Option R)) (cb : Option (List MbufUse × ℤ))
  | gattsAccessCb (om : Option R) (accessed : Bool) (cb : Option (List MbufUse × ℤ))
  | gattcCb (om : Option R) (cb : Option (List MbufUse))
  | toLlCmdImpl (buf : R) (queueFull : Bool)
  | toLlAclImpl (om : R) (lens : List ℕ) (queueFull : Bool)
  | toLlIsoImpl (om : R)
  | feedEvent
  | rxDispatchAcl (size : ℕ)

namespace Entry

def prog (codes : Codes) (aclSize : ℕ) : Entry R → BufferProg R Returned
  | indicate => do return .result (← Ownership.indicate)
  | notify => do return .result (← Ownership.notify)
  | l2capConnect => do return .result (← Ownership.l2capConnect codes)
  | l2capSend => do return .sent (← Ownership.l2capSend codes)
  | l2capRecvReady => do return .result (← Ownership.l2capRecvReady codes)
  | l2capEventCb sduRx cb => do return .status (← Ownership.l2capEventCb sduRx cb)
  | gattsAccessCb om accessed cb => do return .status (← Ownership.gattsAccessCb om accessed cb)
  | gattcCb om cb => do return .status (← Ownership.gattcCb om cb)
  | toLlCmdImpl buf queueFull => do return .status (← Ownership.toLlCmdImpl buf queueFull)
  | toLlAclImpl om lens queueFull => do
    return .status (← Ownership.toLlAclImpl aclSize om lens queueFull)
  | toLlIsoImpl om => do return .status (← Ownership.toLlIsoImpl om)
  | feedEvent => do
    Ownership.feedEvent
    return .unit
  | rxDispatchAcl size => Ownership.rxDispatchAcl aclSize size

/-- What the C host hands over with a call: a received SDU and an outgoing packet for good, the
mbuf of an access or of a notification as a loan. -/
def hands : Entry R → List (R × Holding Kind)
  | l2capEventCb (some (some om)) _ => [(om, .owned .mbuf false)]
  | gattsAccessCb (some om) _ _ => [(om, .borrowed)]
  | gattcCb (some om) _ => [(om, .borrowed)]
  | toLlCmdImpl buf _ => [(buf, .owned .transport false)]
  | toLlAclImpl om _ _ => [(om, .owned .mbuf false)]
  | toLlIsoImpl om => [(om, .owned .mbuf false)]
  | _ => []

/-- The ends on which a buffer may be left behind: `l2cap_connect` when the host is out of
memory, and the panic on an ACL packet that is too large. -/
def MayLeak (codes : Codes) : Entry R → Returned → Prop
  | l2capConnect, .result (.error (.host code)) => code = codes.enomem
  | rxDispatchAcl _, .panicked => True
  | _, _ => False

end Entry

/-- The driver on the heap of buffers. -/
def api (codes : Codes) (aclSize : ℕ) : Api Kind CFn R (Entry R) Returned :=
  ⟨Entry.prog codes aclSize, Entry.hands, codes.takes⟩

section Spec
variable [DecidableEq R] {codes : Codes} {aclSize : ℕ} {om : Option R}
  {v : R → Holding Kind}

theorem wp_mbufUse (hom : ∀ r, om = some r → v r ≠ .nothing) (u : MbufUse)
    {Q : Unit → (R → Holding Kind) → Prop} (hQ : Q () v) : wp codes.takes (u.prog om) Q v := by
  cases u with
  | read =>
    cases om with
    | none => simpa [MbufUse.prog] using hQ
    | some om => simpa [MbufUse.prog] using ⟨hom om rfl, hQ⟩
  | append =>
    cases om with
    | none => simpa [MbufUse.prog] using hQ
    | some om => simpa [MbufUse.prog] using ⟨hom om rfl, hQ⟩

/-- A hook may use the mbuf that it is given and leaves everything as it is. -/
theorem wp_hook (hom : ∀ r, om = some r → v r ≠ .nothing) {uses : List MbufUse}
    {Q : Unit → (R → Holding Kind) → Prop} (hQ : Q () v) :
    wp codes.takes (hook om uses) Q v := by
  induction uses with
  | nil => exact hQ
  | cons u uses ih =>
    rw [hook, wp_bind]
    exact wp_mbufUse hom u ih

/-- The program ends holding nothing, unless it ends as `may` allows. -/
def Clears (codes : Codes) (may : α → Prop) (p : BufferProg R α) (v : R → Holding Kind) : Prop :=
  wp codes.takes p (fun a v => v = (fun _ => .nothing) ∨ may a) v

theorem clears_indicate :
    Clears codes (fun _ => False) (indicate (R := R)) (fun _ => .nothing) := by
  simp [Clears, indicate, mbufFromSlice, Codes.takes]

theorem clears_notify :
    Clears codes (fun _ => False) (notify (R := R)) (fun _ => .nothing) := by
  simp [Clears, notify, mbufFromSlice, Codes.takes]

theorem clears_l2capConnect :
    Clears codes (fun a => a = .error (.host codes.enomem)) (l2capConnect (R := R) codes)
      (fun _ => .nothing) := by
  simp only [Clears, l2capConnect, allocSdu, wp_bind, wp_new]
  refine ⟨by simp, fun r _ => ?_⟩
  simp only [wp_pure, wp_bind, wp_pass, update_nothing]
  refine ⟨⟨.mbuf, only_self⟩, fun rc taken htaken => ?_⟩
  by_cases hleft : rc = codes.enotconn ∨ rc = codes.einval
  · have htaken : taken = false := by simpa [Codes.takes, hleft] using htaken
    simp [hleft, htaken, freeMbuf]
  · by_cases hnomem : rc = codes.enomem
    · have hcheck : BleError.check rc = .error (.host codes.enomem) := by
        simp [BleError.check, hnomem, codes.enomem_ne_zero]
      simp [hleft, hcheck]
    · have htaken : taken = true := by simpa [Codes.takes, hleft, hnomem] using htaken
      simp [hleft, htaken]

theorem clears_l2capSend :
    Clears codes (fun _ => False) (l2capSend (R := R) codes) (fun _ => .nothing) := by
  simp only [Clears, l2capSend, wp_bind, wp_new]
  refine ⟨by simp, fun sdu _ => ?_⟩
  simp only [wp_pass, update_nothing]
  refine ⟨⟨.mbuf, only_self⟩, fun rc taken htaken => ?_⟩
  by_cases hleft : rc = codes.ebaddata ∨ rc = codes.ebusy
  · have htaken : taken = false := by simpa [Codes.takes, hleft] using htaken
    have hzero : rc ≠ 0 := by
      rintro rfl
      exact hleft.elim (codes.ebaddata_ne_zero ·.symm) (codes.ebusy_ne_zero ·.symm)
    have hstalled : rc ≠ codes.estalled := by
      rintro rfl
      exact hleft.elim (codes.ebaddata_ne_estalled ·.symm) (codes.ebusy_ne_estalled ·.symm)
    simp [hzero, hstalled, hleft, htaken, freeMbuf]
  · have htaken : taken = true := by simpa [Codes.takes, hleft] using htaken
    simp only [htaken, if_true, update_only, only_nothing, if_neg hleft]
    split_ifs <;> simp

theorem clears_l2capRecvReady :
    Clears codes (fun _ => False) (l2capRecvReady (R := R) codes) (fun _ => .nothing) := by
  simp only [Clears, l2capRecvReady, allocSdu, wp_bind, wp_new]
  refine ⟨by simp, fun r _ => ?_⟩
  simp only [wp_pure, wp_bind, wp_pass, update_nothing]
  refine ⟨⟨.mbuf, only_self⟩, fun rc taken htaken => ?_⟩
  by_cases hleft : rc = codes.ebusy ∨ rc = codes.einval
  · have htaken : taken = false := by simpa [Codes.takes, hleft] using htaken
    simp [hleft, htaken, freeMbuf]
  · have htaken : taken = true := by simpa [Codes.takes, hleft] using htaken
    simp [hleft, htaken]

/-- A received SDU is freed after the hook has seen it, and also when there is no hook. -/
theorem clears_l2capEventCb {sduRx : Option (Option R)} {cb : Option (List MbufUse × ℤ)} :
    Clears codes (fun _ => False) (l2capEventCb sduRx cb)
      (handed (Entry.l2capEventCb sduRx cb).hands) := by
  simp only [Clears, l2capEventCb]
  rcases cb with _ | ⟨uses, status⟩
  · rcases sduRx with _ | _ | om <;> simp [Entry.hands, freeMbuf]
  · rcases sduRx with _ | _ | om
    · simp [Entry.hands]
    · simp only [wp_bind]
      exact wp_hook (by simp) (by simp [Entry.hands, freeMbuf])
    · simp only [wp_bind]
      exact wp_hook (by simp [Entry.hands]) (by simp [Entry.hands, freeMbuf])

theorem leaves_gattsAccessCb {accessed : Bool} {cb : Option (List MbufUse × ℤ)} :
    wp codes.takes (gattsAccessCb om accessed cb)
      (fun _ v => v = handed (Entry.gattsAccessCb om accessed cb).hands)
      (handed (Entry.gattsAccessCb om accessed cb).hands) := by
  unfold gattsAccessCb
  rcases cb with _ | ⟨uses, status⟩
  · simp
  · cases accessed with
    | false => simp
    | true =>
      simp only [if_true, wp_bind]
      exact wp_hook (by rintro r rfl; simp [Entry.hands]) rfl

theorem leaves_gattcCb {cb : Option (List MbufUse)} :
    wp codes.takes (gattcCb om cb) (fun _ v => v = handed (Entry.gattcCb om cb).hands)
      (handed (Entry.gattcCb om cb).hands) := by
  unfold gattcCb
  cases cb with
  | none => simp
  | some uses =>
    simp only [wp_bind]
    exact wp_hook (by rintro r rfl; simp [Entry.hands]) rfl

theorem clears_toLlCmdImpl {buf : R} {queueFull : Bool} :
    Clears codes (fun _ => False) (toLlCmdImpl buf queueFull)
      (only buf (.owned .transport false)) := by
  simp [Clears, toLlCmdImpl]

/-- The loop reads a chain that is there and leaves it, whether all of it fits or not. -/
theorem wp_flatten {om : R} (hom : v om ≠ .nothing) {room : ℕ} {lens : List ℕ}
    {Q : Bool → (R → Holding Kind) → Prop} (hQ : ∀ b, Q b v) :
    wp codes.takes (flatten om room lens) Q v := by
  induction lens generalizing room with
  | nil => exact hQ true
  | cons len lens ih =>
    rw [flatten, wp_bind, wp_touch]
    refine ⟨hom, ?_⟩
    split_ifs with hroom
    · exact ih
    · exact hQ false

theorem clears_toLlAclImpl {om : R} {lens : List ℕ} {queueFull : Bool} :
    Clears codes (fun _ => False) (toLlAclImpl aclSize om lens queueFull)
      (only om (.owned .mbuf false)) := by
  rw [Clears, toLlAclImpl, wp_bind]
  refine wp_flatten (by simp) fun b => ?_
  cases b <;> simp

theorem clears_toLlIsoImpl {om : R} :
    Clears codes (fun _ => False) (toLlIsoImpl om) (only om (.owned .mbuf false)) := by
  simp [Clears, toLlIsoImpl]

theorem clears_feedEvent :
    Clears codes (fun _ => False) (feedEvent (R := R)) (fun _ => .nothing) := by
  simp [Clears, feedEvent, Codes.takes]

theorem clears_rxDispatchAcl {size : ℕ} :
    Clears codes (fun a => a = .panicked) (rxDispatchAcl (R := R) aclSize size)
      (fun _ => .nothing) := by
  simp only [Clears, rxDispatchAcl, wp_bind, wp_new]
  refine ⟨by simp, fun om _ => ?_⟩
  by_cases hsize : size ≤ Hci.aclPacketMax aclSize
  · simp only [if_pos hsize, wp_bind, wp_touch, wp_ask, update_nothing]
    refine ⟨by simp, fun rc => ?_⟩
    split_ifs <;> simp [Codes.takes]
  · simp [if_neg hsize]

/-- A program that ends holding nothing, or as it may, leaves nothing behind in its call. -/
theorem Clears.leaves {may : α → Prop} {p : BufferProg R α} {e : Entry R} {f : α → Returned}
    (hp : Clears codes may p v) (hmay : ∀ a, may a → e.MayLeak codes (f a)) :
    wp codes.takes (p >>= fun a => pure (f a)) (Leaves (Entry.MayLeak codes) e) v := by
  rw [wp_bind]
  refine wp_mono hp fun a v ha r hr => ?_
  rcases ha with rfl | ha
  · exact absurd rfl hr
  · exact .inr (hmay a ha)

/-- What is lent to a call may be held to its end. -/
theorem leaves_of_borrowed {e : Entry R} {p : BufferProg R α} {f : α → Returned}
    (hv : ∀ r, v r ≠ .nothing → v r = .borrowed) (hp : wp codes.takes p (fun _ v' => v' = v) v) :
    wp codes.takes (p >>= fun a => pure (f a)) (Leaves (Entry.MayLeak codes) e) v := by
  rw [wp_bind]
  refine wp_mono hp fun a v' hv' r hr => ?_
  subst hv'
  exact .inl (hv r hr)

theorem borrowed_of_only {r : R} (r' : R) (h : only r (.borrowed : Holding Kind) r' ≠ .nothing) :
    only r (.borrowed : Holding Kind) r' = .borrowed := by
  by_cases hr : r' = r
  · rw [hr, only_self]
  · exact absurd (Function.update_of_ne hr _ _) h

/-- Each call keeps to what it owns and leaves nothing behind but what it may. -/
theorem Entry.prog_leaves (e : Entry R) :
    wp codes.takes (e.prog codes aclSize) (Leaves (Entry.MayLeak codes) e) (handed e.hands) := by
  cases e with
  | indicate => exact clears_indicate.leaves fun _ h => h.elim
  | notify => exact clears_notify.leaves fun _ h => h.elim
  | l2capConnect => exact clears_l2capConnect.leaves fun a h => by subst h; rfl
  | l2capSend => exact clears_l2capSend.leaves fun _ h => h.elim
  | l2capRecvReady => exact clears_l2capRecvReady.leaves fun _ h => h.elim
  | l2capEventCb sduRx cb => exact clears_l2capEventCb.leaves fun _ h => h.elim
  | gattsAccessCb om accessed cb =>
    refine leaves_of_borrowed ?_ leaves_gattsAccessCb
    cases om with
    | none => exact fun r hr => absurd rfl hr
    | some om => exact borrowed_of_only
  | gattcCb om cb =>
    refine leaves_of_borrowed ?_ leaves_gattcCb
    cases om with
    | none => exact fun r hr => absurd rfl hr
    | some om => exact borrowed_of_only
  | toLlCmdImpl buf queueFull => exact clears_toLlCmdImpl.leaves fun _ h => h.elim
  | toLlAclImpl om lens queueFull => exact clears_toLlAclImpl.leaves fun _ h => h.elim
  | toLlIsoImpl om => exact clears_toLlIsoImpl.leaves fun _ h => h.elim
  | feedEvent => exact clears_feedEvent.leaves (f := fun _ => .unit) fun _ h => h.elim
  | rxDispatchAcl size =>
    refine wp_mono clears_rxDispatchAcl fun a v ha r hr => ?_
    rcases ha with rfl | rfl
    · exact absurd rfl hr
    · exact .inr trivial

end Spec

variable {ι : Type*} [DecidableEq R] [DecidableEq ι]

/-- No call is under way, and none has ended as one that may leave a buffer behind. -/
def Quiet (codes : Codes) (s : State Kind CFn R ι (Entry R) Returned) : Prop :=
  ∀ i, match s.thread i with
    | .unused => True
    | .running .. => False
    | .done e a => ¬ e.MayLeak codes a

/-- No call uses a buffer that is not there, frees one that is not its own or passes one on that
it no longer has, whatever other calls do in between; and each buffer finds its way back to the
C host. -/
theorem buffers_freed_once (codes : Codes) (aclSize : ℕ) (as : List (Label Kind R ι (Entry R))) :
    Always (machineStep (api codes aclSize))
      (fun s : State Kind CFn R ι (Entry R) Returned =>
        (∀ i, (s.thread i).Safe (Entry.MayLeak codes) (view s.heap i)) ∧
          (Quiet codes s → ∀ r c, s.heap r = some c → ∃ k, c = .foreign k none)) .start as := by
  have hsafe : Always (machineStep (api codes aclSize))
      (fun s : State Kind CFn R ι (Entry R) Returned =>
        ∀ i, (s.thread i).Safe (Entry.MayLeak codes) (view s.heap i)) .start as :=
    always_safe (fun e => e.prog_leaves) as
  refine hsafe.imp fun s hsafe =>
    ⟨hsafe, fun hquiet r c hr => foreign_of_nothing hr fun i => ?_⟩
  by_contra hheld
  have hi := hsafe i
  have hq := hquiet i
  cases hthread : s.thread i with
  | unused =>
    rw [hthread] at hi
    exact hheld (hi r)
  | running e p => simp [hthread] at hq
  | done e a =>
    simp only [hthread] at hi hq
    exact hq (hi r hheld)

/-- The codes of NimBLE. -/
def nimbleCodes : Codes where
  enomem := 6
  einval := 3
  enotconn := 7
  ebusy := 15
  ebaddata := 10
  estalled := 31
  enomem_ne_zero := by decide
  enomem_ne_einval := by decide
  enomem_ne_enotconn := by decide
  ebusy_ne_zero := by decide
  ebaddata_ne_zero := by decide
  ebusy_ne_estalled := by decide
  ebaddata_ne_estalled := by decide

/-- A send is refused while a received SDU is read by its hook, and each frees its buffer. -/
def busySend : List (Label Kind (Fin 2) (Fin 2) (Entry (Fin 2))) :=
  [.start 0 .l2capSend, .step 0 (some 0) 0 false, .foreignAlloc 1 .mbuf,
    .start 1 (.l2capEventCb (some (some 1)) (some ([.read], 0))), .step 1 none 0 false,
    .step 0 none 15 false, .step 1 none 0 false, .step 0 none 0 false, .finish 0,
    .step 1 none 0 false, .finish 1]

theorem buffers_freed_once_busy_send :
    let api := api nimbleCodes 251
    ((run (machineStep api) .start (busySend.take 4)).map fun s => List.ofFn s.heap) =
        some [some (.owned .mbuf 0 false), some (.owned .mbuf 1 false)] ∧
      ((run (machineStep api) .start busySend).map fun s => List.ofFn s.heap) =
        some [none, none] ∧
      Always (machineStep api)
        (fun s : State Kind CFn (Fin 2) (Fin 2) (Entry (Fin 2)) Returned =>
          (∀ i, (s.thread i).Safe (Entry.MayLeak nimbleCodes) (view s.heap i)) ∧
            (Quiet nimbleCodes s → ∀ r c, s.heap r = some c → ∃ k, c = .foreign k none)) .start
        busySend :=
  ⟨by decide, by decide, buffers_freed_once nimbleCodes 251 busySend⟩

end NimbleRs.Ownership
