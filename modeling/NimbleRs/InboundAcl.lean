import NimbleRs.SendCmd
import NimbleRs.TransitionSystem
import Mathlib.Tactic

/-!
# ACL data on its way into the host

The `Acl` arm of `rx_dispatch`: a packet of the controller is written out into a scratch
buffer on the stack and appended to an mbuf, which the host is handed. How long a packet is
is up to the controller, while the scratch buffer has the size that the host was built with.
-/
namespace NimbleRs.Hci
open TransitionSystem

/-- `ACL_PACKET_MAX`, from the value of `MYNEWT_VAL_BLE_TRANSPORT_ACL_SIZE`. -/
def aclPacketMax (aclSize : ℕ) : ℕ := 4 + aclSize

/-- A packet that was read; the length on the wire is 16 bits. -/
structure AclPacket where
  handleFlags : UInt16
  data : List UInt8
  fits : data.length < 2 ^ 16

namespace AclPacket

def size (acl : AclPacket) : ℕ := 4 + acl.data.length

/-- The wire form, `[handle+flags: 2][len: 2][data]`. -/
def writeHci (acl : AclPacket) : List UInt8 :=
  toLeBytes acl.handleFlags ++ toLeBytes (.ofNat acl.data.length) ++ acl.data

@[simp] theorem length_writeHci (acl : AclPacket) : acl.writeHci.length = acl.size := by
  simp [writeHci, size, toLeBytes]
  omega

end AclPacket

/-- What the C transport does about one packet: the mbuf it allocates, the return code of
`os_mbuf_append` and the bytes that a failing one has copied. -/
structure MbufAnswers (Om : Type*) where
  alloc : Option Om
  append : ℤ
  copied : ℕ

/-- The mbufs that the dispatcher holds, what they contain, and what the host was handed. The C
functions on them do what they are documented to: an allocated mbuf is empty and the caller's,
`os_mbuf_append` appends the bytes it is told or, when it fails, a part of them, a free gives
the mbuf back, and `ble_transport_to_hs_acl_impl` takes it. -/
structure Mbufs (Om : Type*) where
  content : Om → List UInt8
  held : List Om
  toHs : List (List UInt8)

variable {Om : Type*} [DecidableEq Om]

namespace Mbufs

def bleTransportAllocAclFromLl (s : Mbufs Om) (om : Om) : Mbufs Om :=
  { s with content := Function.update s.content om [], held := om :: s.held }

/-- `os_mbuf_append`, with its 16-bit length. -/
def osMbufAppend (s : Mbufs Om) (om : Om) (raw : List UInt8) (len : UInt16) (rc : ℤ) (copied : ℕ) :
    Mbufs Om :=
  let data := raw.take (if rc = 0 then len.toNat else min copied len.toNat)
  { s with content := Function.update s.content om (s.content om ++ data) }

def osMbufFreeChain (s : Mbufs Om) (om : Om) : Mbufs Om := { s with held := s.held.erase om }

def bleTransportToHsAclImpl (s : Mbufs Om) (om : Om) : Mbufs Om :=
  { s with held := s.held.erase om, toHs := s.toHs ++ [s.content om] }

end Mbufs

/-- How a call ends; a panic leaves everything as it is at that point. -/
inductive Outcome (σ : Type*)
  | returned (s : σ)
  | panicked (s : σ)

def rxDispatchAcl (aclSize : ℕ) (s : Mbufs Om) (answers : MbufAnswers Om) (acl : AclPacket) :
    Outcome (Mbufs Om) :=
  match answers.alloc with
  | none => .returned s
  | some om =>
    let s := s.bleTransportAllocAclFromLl om
    let size := acl.size
    if size ≤ aclPacketMax aclSize then
      let raw := acl.writeHci ++ List.replicate (aclPacketMax aclSize - size) 0
      let s := s.osMbufAppend om raw (.ofNat size) answers.append answers.copied
      if answers.append ≠ 0 then .returned (s.osMbufFreeChain om)
      else .returned (s.bleTransportToHsAclImpl om)
    -- `raw[..size]` is out of range
    else .panicked s

/-- The call returns, holds no mbuf that it did not hold before, and the host was handed one
mbuf with exactly the bytes of the packet, or none. -/
def Outcome.Clean (s : Mbufs Om) (acl : AclPacket) : Outcome (Mbufs Om) → Prop
  | .returned t => t.held = s.held ∧ (t.toHs = s.toHs ++ [acl.writeHci] ∨ t.toHs = s.toHs)
  | .panicked _ => False

/-- No mbuf was there, or the packet fits into the scratch buffer and its size into 16 bits;
a size that does not is harmless when the append fails. -/
def AclFits (aclSize : ℕ) (answers : MbufAnswers Om) (acl : AclPacket) : Prop :=
  answers.alloc = none ∨
    acl.size ≤ aclPacketMax aclSize ∧ (acl.size < 2 ^ 16 ∨ answers.append ≠ 0)

section Dispatch
variable {aclSize : ℕ} {s : Mbufs Om} {answers : MbufAnswers Om} {acl : AclPacket}

theorem rxDispatchAcl_none (halloc : answers.alloc = none) :
    rxDispatchAcl aclSize s answers acl = .returned s := by
  simp [rxDispatchAcl, halloc]

/-- The mbuf that was taken is not given back. -/
theorem rxDispatchAcl_too_large {om : Om} (halloc : answers.alloc = some om)
    (hsize : ¬ acl.size ≤ aclPacketMax aclSize) :
    rxDispatchAcl aclSize s answers acl = .panicked (s.bleTransportAllocAclFromLl om) := by
  simp only [rxDispatchAcl, halloc, if_neg hsize]

theorem rxDispatchAcl_append_failed {om : Om} (halloc : answers.alloc = some om)
    (hsize : acl.size ≤ aclPacketMax aclSize) (hfail : answers.append ≠ 0) :
    ∃ t, rxDispatchAcl aclSize s answers acl = .returned t ∧ t.held = s.held ∧
      t.toHs = s.toHs := by
  simp only [rxDispatchAcl, halloc, if_pos hsize, if_pos hfail]
  refine ⟨_, rfl, ?_, rfl⟩
  simp [Mbufs.osMbufFreeChain, Mbufs.osMbufAppend, Mbufs.bleTransportAllocAclFromLl]

/-- The host is handed as many bytes of the packet as its size has in 16 bits. -/
theorem rxDispatchAcl_appended {om : Om} (halloc : answers.alloc = some om)
    (hsize : acl.size ≤ aclPacketMax aclSize) (happend : answers.append = 0) :
    ∃ t, rxDispatchAcl aclSize s answers acl = .returned t ∧ t.held = s.held ∧
      t.toHs = s.toHs ++ [acl.writeHci.take (acl.size % 2 ^ 16)] := by
  have hfail : ¬ answers.append ≠ 0 := by simp [happend]
  simp only [rxDispatchAcl, halloc, if_pos hsize, if_neg hfail]
  refine ⟨_, rfl, ?_, ?_⟩
  · simp [Mbufs.bleTransportToHsAclImpl, Mbufs.osMbufAppend, Mbufs.bleTransportAllocAclFromLl]
  · have hle : acl.size % 2 ^ 16 ≤ acl.writeHci.length := by
      rw [AclPacket.length_writeHci]
      exact Nat.mod_le _ _
    have htake : (acl.writeHci ++ List.replicate (aclPacketMax aclSize - acl.size) 0).take
        (acl.size % 2 ^ 16) = acl.writeHci.take (acl.size % 2 ^ 16) :=
      List.take_append_of_le_length hle
    simpa [Mbufs.bleTransportToHsAclImpl, Mbufs.osMbufAppend, Mbufs.bleTransportAllocAclFromLl,
      happend] using htake

theorem take_size_eq_iff : acl.writeHci.take (acl.size % 2 ^ 16) = acl.writeHci ↔
    acl.size < 2 ^ 16 := by
  rw [List.take_eq_self_iff, AclPacket.length_writeHci]
  have hle : acl.size % 2 ^ 16 ≤ acl.size := Nat.mod_le _ _
  exact hle.ge_iff_eq.trans (Nat.mod_eq_iff_lt (by norm_num))

theorem rxDispatchAcl_clean_iff :
    (rxDispatchAcl aclSize s answers acl).Clean s acl ↔ AclFits aclSize answers acl := by
  cases halloc : answers.alloc with
  | none =>
    rw [rxDispatchAcl_none halloc]
    simp [Outcome.Clean, AclFits, halloc]
  | some om =>
    by_cases hsize : acl.size ≤ aclPacketMax aclSize
    · by_cases happend : answers.append = 0
      · obtain ⟨t, ht, hheld, htoHs⟩ := rxDispatchAcl_appended (s := s) halloc hsize happend
        rw [ht]
        simp only [Outcome.Clean, AclFits, hheld, htoHs, halloc, hsize, happend]
        simpa using take_size_eq_iff
      · obtain ⟨t, ht, hheld, htoHs⟩ := rxDispatchAcl_append_failed (s := s) halloc hsize happend
        rw [ht]
        simp [Outcome.Clean, AclFits, hheld, htoHs, hsize, happend]
    · rw [rxDispatchAcl_too_large halloc hsize]
      simp [Outcome.Clean, AclFits, halloc, hsize]

end Dispatch

/-- The RX arm of the pump while ACL packets come in; `expected` is what the host is to have
been handed: the packets for which there was an mbuf that took them. -/
structure RxArm (Om : Type*) where
  mbufs : Mbufs Om
  panicked : Bool
  expected : List (List UInt8)

def RxArm.start : RxArm Om := ⟨⟨fun _ => [], [], []⟩, false, []⟩

/-- A packet and what the C transport does about it. -/
structure RxAcl (Om : Type*) where
  answers : MbufAnswers Om
  acl : AclPacket

def RxAcl.due (p : RxAcl Om) : List (List UInt8) :=
  if p.answers.alloc.isSome ∧ p.answers.append = 0 then [p.acl.writeHci] else []

def rxArmStep (aclSize : ℕ) (r : RxArm Om) (p : RxAcl Om) : Option (RxArm Om) :=
  if r.panicked then none
  else
    some (match rxDispatchAcl aclSize r.mbufs p.answers p.acl with
      | .returned s => ⟨s, false, r.expected ++ p.due⟩
      | .panicked s => ⟨s, true, r.expected ++ p.due⟩)

structure RxArm.Sound (r : RxArm Om) : Prop where
  alive : r.panicked = false
  held : r.mbufs.held = []
  toHs : r.mbufs.toHs = r.expected

def RxArm.Fits (aclSize : ℕ) (_ : RxArm Om) (p : RxAcl Om) : Prop :=
  AclFits aclSize p.answers p.acl

section Arm
variable {aclSize : ℕ} {r r' : RxArm Om} {p : RxAcl Om}

theorem rxDispatchAcl_of_fits {s : Mbufs Om} (h : AclFits aclSize p.answers p.acl) :
    ∃ t, rxDispatchAcl aclSize s p.answers p.acl = .returned t ∧ t.held = s.held ∧
      t.toHs = s.toHs ++ p.due := by
  cases halloc : p.answers.alloc with
  | none => exact ⟨s, rxDispatchAcl_none halloc, rfl, by simp [RxAcl.due, halloc]⟩
  | some om =>
    obtain ⟨hsize, hlen⟩ := h.resolve_left (by simp [halloc])
    by_cases happend : p.answers.append = 0
    · obtain ⟨t, ht, hheld, htoHs⟩ := rxDispatchAcl_appended (s := s) halloc hsize happend
      have htake := take_size_eq_iff.mpr (hlen.resolve_right (by simp [happend]))
      rw [htake] at htoHs
      exact ⟨t, ht, hheld, by simp [htoHs, RxAcl.due, halloc, happend]⟩
    · obtain ⟨t, ht, hheld, htoHs⟩ := rxDispatchAcl_append_failed (s := s) halloc hsize happend
      exact ⟨t, ht, hheld, by simp [htoHs, RxAcl.due, happend]⟩

theorem RxArm.Sound.step (h : r.Sound) (hfits : r.Fits aclSize p)
    (hstep : rxArmStep aclSize r p = some r') : r'.Sound := by
  obtain ⟨t, ht, hheld, htoHs⟩ := rxDispatchAcl_of_fits (s := r.mbufs) hfits
  simp only [rxArmStep, h.alive, ht] at hstep
  obtain rfl := Option.some.inj hstep
  exact ⟨rfl, hheld.trans h.held, by simp only [htoHs, h.toHs]⟩

/-- A packet that does not fit ends the arm, or the host is handed a part of it. -/
theorem RxArm.Sound.not_step (h : r.Sound) (hfits : ¬ r.Fits aclSize p)
    (hstep : rxArmStep aclSize r p = some r') : ¬ r'.Sound := by
  intro h'
  have hclean : ¬ (rxDispatchAcl aclSize r.mbufs p.answers p.acl).Clean r.mbufs p.acl :=
    fun hc => hfits (rxDispatchAcl_clean_iff.mp hc)
  simp only [rxArmStep, h.alive] at hstep
  obtain rfl := Option.some.inj hstep
  cases hd : rxDispatchAcl aclSize r.mbufs p.answers p.acl with
  | panicked t =>
    have halive := h'.alive
    simp [hd] at halive
  | returned t =>
    rw [hd] at hclean
    have hheld := h'.held
    have htoHs := h'.toHs
    simp only [hd] at hheld htoHs
    apply hclean
    refine ⟨hheld.trans h.held.symm, ?_⟩
    rw [htoHs, ← h.toHs, RxAcl.due]
    split
    · exact .inl rfl
    · exact .inr (List.append_nil _)

end Arm

/-- A packet is handed over whole or dropped cleanly exactly when no mbuf is there for it, or it
fits into the scratch buffer and its size into the 16 bits of `os_mbuf_append`; and the arm lives
on, holds no mbuf and has handed over what it is to, exactly as long as all packets are such. -/
theorem rx_dispatch_acl_iff (aclSize : ℕ) :
    (∀ (s : Mbufs Om) (answers : MbufAnswers Om) (acl : AclPacket),
      (rxDispatchAcl aclSize s answers acl).Clean s acl ↔ AclFits aclSize answers acl) ∧
    ∀ packets : List (RxAcl Om),
      Always (rxArmStep aclSize) RxArm.Sound RxArm.start packets ↔
        Meets (rxArmStep aclSize) (RxArm.Fits aclSize) RxArm.start packets := by
  constructor
  · exact fun s answers acl => rxDispatchAcl_clean_iff
  · intro packets
    exact always_iff_meets (I := RxArm.Sound) (fun r p r' h hfits hstep => h.step hfits hstep)
      (fun r h => h) (fun r p r' h hstep hfits => h.not_step hfits hstep) ⟨rfl, rfl, rfl⟩

/-- With buffers for 251 bytes, a packet with 252 is read. -/
theorem rx_dispatch_acl_panics :
    let acl : AclPacket :=
      ⟨0x2001, List.replicate 252 7, List.length_replicate.trans_lt (by decide)⟩
    let s : Mbufs (Fin 1) := ⟨fun _ => [], [], []⟩
    let answers : MbufAnswers (Fin 1) := ⟨some 0, 0, 0⟩
    ¬ (rxDispatchAcl 251 s answers acl).Clean s acl ∧
      ∃ t, rxDispatchAcl 251 s answers acl = .panicked t ∧ t.held = [0] := by
  intro acl s answers
  have hsize : ¬ acl.size ≤ aclPacketMax 251 := by
    simp [acl, AclPacket.size, aclPacketMax, -List.reduceReplicate]
  have hd : rxDispatchAcl 251 s answers acl = .panicked (s.bleTransportAllocAclFromLl 0) :=
    rxDispatchAcl_too_large rfl hsize
  constructor
  · rw [hd]
    exact not_false
  · exact ⟨_, hd, rfl⟩

end NimbleRs.Hci
