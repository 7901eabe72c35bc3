import NimbleRs.Singleton
import Mathlib.Tactic

/-!
# Payloads on their way through the C host

The functions of `mbuf.rs`, `gatt/client.rs`, `gatt/server.rs` and `l2cap.rs` that pass a slice
to C as a pointer and a 16-bit length, and the one that reads a packet into a slice. C copies
exactly as many bytes as it is told, so that an mbuf is the bytes that were copied into it;
what C answers is up to it.
-/
namespace NimbleRs.Payload
open Ble (BleError)

/-- A packet of the host; `omp_len` has 16 bits. -/
structure OsMbuf where
  bytes : List UInt8
  fits : bytes.length < 2 ^ 16

/-- `buf.len() as u16` -/
def lenU16 (buf : List UInt8) : UInt16 := .ofNat buf.length

/-- The part of a slice that C is told of. -/
def told (data : List UInt8) : List UInt8 := data.take (lenU16 data).toNat

@[simp] theorem toNat_lenU16 (buf : List UInt8) : (lenU16 buf).toNat = buf.length % 2 ^ 16 := by
  simp [lenU16]

theorem told_eq_iff {data : List UInt8} : told data = data ↔ data.length < 2 ^ 16 := by
  rw [told, List.take_eq_self_iff, toNat_lenU16]
  have hle : data.length % 2 ^ 16 ≤ data.length := Nat.mod_le _ _
  exact hle.ge_iff_eq.trans (Nat.mod_eq_iff_lt (by norm_num))

theorem length_told (data : List UInt8) : (told data).length < 2 ^ 16 := by
  have hlt : data.length % 2 ^ 16 < 2 ^ 16 := Nat.mod_lt _ (by norm_num)
  unfold told
  rw [List.length_take, toNat_lenU16]
  omega

/-- What the C functions return: return codes, and whether `ble_hs_mbuf_from_flat` has an mbuf. -/
structure CHost where
  mbufFromFlat : List UInt8 → Bool
  osMbufAppend : OsMbuf → List UInt8 → ℤ
  gattcWriteFlat : UInt16 → UInt16 → List UInt8 → ℤ
  gattcWriteNoRspFlat : UInt16 → UInt16 → List UInt8 → ℤ
  gattsIndicateCustom : UInt16 → UInt16 → OsMbuf → ℤ
  gattsNotifyCustom : UInt16 → UInt16 → OsMbuf → ℤ
  l2capSend : ℕ → OsMbuf → ℤ
  emsgsize : ℤ
  estalled : ℤ
  ebaddata : ℤ
  ebusy : ℤ
  emsgsize_ne : emsgsize ≠ 0

/-- `ble_hs_mbuf_from_flat`, as it is documented: an mbuf with a copy of the bytes that it is
told of, or null when there are no mbufs. -/
def bleHsMbufFromFlat (host : CHost) (data : List UInt8) : Option OsMbuf :=
  if host.mbufFromFlat (told data) then some ⟨told data, length_told data⟩ else none

/-- The bytes that came to the C host in a call, and what the call returns. -/
structure Passed (α : Type*) where
  toHost : Option (List UInt8)
  result : Except BleError α

/-- A call that returns `Ok` has passed on all of the slice. -/
def Passed.Conveys {α : Type*} (p : Passed α) (data : List UInt8) : Prop :=
  ∀ a, p.result = .ok a → p.toHost = some data

/-- The calls that hand C the slice itself, with their return code. -/
def passFlat (rc : List UInt8 → ℤ) (data : List UInt8) : Passed Unit :=
  ⟨some (told data), BleError.check (rc (told data))⟩

def Mbuf.append (host : CHost) (om : OsMbuf) (buf : List UInt8) : Passed Unit :=
  passFlat (host.osMbufAppend om) buf

def write (host : CHost) (connHandle attrHandle : UInt16) (data : List UInt8) : Passed Unit :=
  passFlat (host.gattcWriteFlat connHandle attrHandle) data

def writeCmd (host : CHost) (connHandle attrHandle : UInt16) (data : List UInt8) : Passed Unit :=
  passFlat (host.gattcWriteNoRspFlat connHandle attrHandle) data

def mbufFromSlice (host : CHost) (buf : List UInt8) : Except BleError OsMbuf :=
  match bleHsMbufFromFlat host buf with
  | none => .error .enomem
  | some om => .ok om

/-- The calls that hand C an mbuf with a copy of the slice. -/
def passMbuf (host : CHost) (rc : OsMbuf → ℤ) (data : List UInt8) : Passed Unit :=
  match mbufFromSlice host data with
  | .error err => ⟨none, .error err⟩
  | .ok om => ⟨some om.bytes, BleError.check (rc om)⟩

def indicate (host : CHost) (connHandle valHandle : UInt16) (data : List UInt8) : Passed Unit :=
  passMbuf host (host.gattsIndicateCustom connHandle valHandle) data

def notify (host : CHost) (connHandle valHandle : UInt16) (data : List UInt8) : Passed Unit :=
  passMbuf host (host.gattsNotifyCustom connHandle valHandle) data

inductive SendOutcome
  | sent
  | stalled

/-- `l2cap_send`, which makes its own copy. On the two codes that leave the SDU with the caller
it is freed, and the C host has nothing. -/
def l2capSend (host : CHost) (chan : ℕ) (data : List UInt8) : Passed SendOutcome :=
  match bleHsMbufFromFlat host data with
  | none => ⟨none, .error .enomem⟩
  | some sdu =>
    let rc := host.l2capSend chan sdu
    if rc = 0 then ⟨some sdu.bytes, .ok .sent⟩
    else if rc = host.estalled then ⟨some sdu.bytes, .ok .stalled⟩
    else if rc = host.ebaddata ∨ rc = host.ebusy then
      ⟨none, (BleError.check rc).map (fun _ => .sent)⟩
    else ⟨some sdu.bytes, (BleError.check rc).map (fun _ => .sent)⟩

/-- `ble_hs_mbuf_to_flat`: the return code, the copied length and the buffer. As it is
documented, it copies the packet, or the first `max_len` bytes of a longer one, for which it
returns `BLE_HS_EMSGSIZE`. -/
def bleHsMbufToFlat (host : CHost) (om : OsMbuf) (buf : List UInt8) (maxLen : UInt16) :
    ℤ × UInt16 × List UInt8 :=
  if om.bytes.length ≤ maxLen.toNat then
    (0, .ofNat om.bytes.length, om.bytes ++ buf.drop om.bytes.length)
  else (host.emsgsize, maxLen, om.bytes.take maxLen.toNat ++ buf.drop maxLen.toNat)

def Mbuf.read (host : CHost) (om : Option OsMbuf) (buf : List UInt8) :
    Except BleError ℕ × List UInt8 :=
  match om with
  | none => (.ok 0, buf)
  | some om =>
    let (rc, copied, buf) := bleHsMbufToFlat host om buf (lenU16 buf)
    match BleError.check rc with
    | .error err => (.error err, buf)
    | .ok _ => (.ok copied.toNat, buf)

/-- The read succeeds and the buffer starts with all bytes of the packet; a null pointer stands
for an empty one. -/
def ReadsAll (r : Except BleError ℕ × List UInt8) (om : Option OsMbuf) : Prop :=
  let bytes := om.elim [] (·.bytes)
  r.1 = .ok bytes.length ∧ r.2.take bytes.length = bytes

theorem check_eq_ok {rc : ℤ} {a : Unit} : BleError.check rc = .ok a ↔ rc = 0 := by
  unfold BleError.check
  split
  · simp [*]
  · simp [*]

section Conveys
variable {host : CHost} {data : List UInt8}

/-- When C has what it was told exactly if the call is to return `Ok`, then the call conveys
the slice exactly if the slice was not cut, or if the call fails. -/
theorem Passed.conveys_iff {α : Type*} {p : Passed α} {Fails : Prop}
    (hok : ¬ Fails → (∃ a, p.result = .ok a) ∧ p.toHost = some (told data))
    (hfails : Fails → ∀ a, p.result ≠ .ok a) :
    p.Conveys data ↔ data.length < 2 ^ 16 ∨ Fails := by
  constructor
  · intro h
    by_cases hf : Fails
    · exact .inr hf
    · obtain ⟨⟨a, ha⟩, htold⟩ := hok hf
      have hall := h a ha
      rw [htold] at hall
      exact .inl (told_eq_iff.mp (Option.some.inj hall))
  · intro h a ha
    have hf : ¬ Fails := fun hf => hfails hf a ha
    rw [(hok hf).2, told_eq_iff.mpr (h.resolve_right hf)]

theorem passFlat_conveys_iff {rc : List UInt8 → ℤ} :
    (passFlat rc data).Conveys data ↔ data.length < 2 ^ 16 ∨ rc (told data) ≠ 0 := by
  apply Passed.conveys_iff
  · intro hrc
    exact ⟨⟨(), check_eq_ok.mpr (not_not.mp hrc)⟩, rfl⟩
  · intro hrc a ha
    exact hrc (check_eq_ok.mp ha)

/-- The mbuf that C is given for a slice. -/
def copyOf (data : List UInt8) : OsMbuf := ⟨told data, length_told data⟩

@[simp] theorem copyOf_bytes (data : List UInt8) : (copyOf data).bytes = told data := rfl

theorem passMbuf_conveys_iff {rc : OsMbuf → ℤ} :
    (passMbuf host rc data).Conveys data ↔
      data.length < 2 ^ 16 ∨ (host.mbufFromFlat (told data) = false ∨ rc (copyOf data) ≠ 0) := by
  cases halloc : host.mbufFromFlat (told data) with
  | false =>
    have hp : passMbuf host rc data = ⟨none, .error .enomem⟩ := by
      simp [passMbuf, mbufFromSlice, bleHsMbufFromFlat, halloc]
    rw [hp]
    exact iff_of_true (fun a ha => by simp at ha) (.inr (.inl rfl))
  | true =>
    have hp : passMbuf host rc data = ⟨some (told data), BleError.check (rc (copyOf data))⟩ := by
      simp [passMbuf, mbufFromSlice, bleHsMbufFromFlat, halloc, copyOf]
    rw [hp]
    apply Passed.conveys_iff
    · intro hrc
      exact ⟨⟨(), check_eq_ok.mpr (by simpa using hrc)⟩, rfl⟩
    · intro hrc a ha
      exact hrc.elim (by simp) (fun hne => hne (check_eq_ok.mp ha))

theorem l2capSend_conveys_iff {chan : ℕ} :
    (l2capSend host chan data).Conveys data ↔ data.length < 2 ^ 16 ∨
      (host.mbufFromFlat (told data) = false ∨
        host.l2capSend chan (copyOf data) ≠ 0 ∧
          host.l2capSend chan (copyOf data) ≠ host.estalled) := by
  cases halloc : host.mbufFromFlat (told data) with
  | false =>
    have hp : l2capSend host chan data = ⟨none, .error .enomem⟩ := by
      simp [l2capSend, bleHsMbufFromFlat, halloc]
    rw [hp]
    exact iff_of_true (fun a ha => by simp at ha) (.inr (.inl rfl))
  | true =>
    have hsdu : bleHsMbufFromFlat host data = some (copyOf data) := by
      simp [bleHsMbufFromFlat, halloc, copyOf]
    apply Passed.conveys_iff
    · intro hrc
      by_cases hzero : host.l2capSend chan (copyOf data) = 0
      · simp [l2capSend, hsdu, hzero]
      · have hstalled : host.l2capSend chan (copyOf data) = host.estalled := by
          by_contra hne
          exact hrc (.inr ⟨hzero, hne⟩)
        rw [hstalled] at hzero
        simp [l2capSend, hsdu, hstalled, hzero]
    · intro hrc a ha
      obtain ⟨hzero, hstalled⟩ := hrc.resolve_left (by simp)
      have herr : (l2capSend host chan data).result =
          .error (.host (host.l2capSend chan (copyOf data))) := by
        simp only [l2capSend, hsdu, if_neg hzero, if_neg hstalled]
        split <;> simp [BleError.check, hzero, Except.map]
      rw [herr] at ha
      exact absurd ha (by simp)

/-- A capacity that wrapped around to less than the packet fails the read. -/
theorem read_emsgsize {om : OsMbuf} {buf : List UInt8}
    (hcap : ¬ om.bytes.length ≤ buf.length % 2 ^ 16) :
    (Mbuf.read host (some om) buf).1 = .error (.host host.emsgsize) := by
  simp only [Mbuf.read, bleHsMbufToFlat, toNat_lenU16, if_neg hcap, BleError.check,
    if_neg host.emsgsize_ne]

theorem read_iff (om : Option OsMbuf) (buf : List UInt8) :
    ((om.elim [] (·.bytes)).length ≤ buf.length → ReadsAll (Mbuf.read host om buf) om) ↔
      buf.length < (om.elim [] (·.bytes)).length ∨
        (om.elim [] (·.bytes)).length ≤ buf.length % 2 ^ 16 := by
  cases om with
  | none => simp [ReadsAll, Mbuf.read]
  | some om =>
    simp only [Option.elim_some]
    by_cases hcap : om.bytes.length ≤ buf.length % 2 ^ 16
    · refine iff_of_true (fun _ => ?_) (.inr hcap)
      have hflat : bleHsMbufToFlat host om buf (lenU16 buf) =
          (0, .ofNat om.bytes.length, om.bytes ++ buf.drop om.bytes.length) := by
        rw [bleHsMbufToFlat, toNat_lenU16, if_pos hcap]
      have hcopied : (UInt16.ofNat om.bytes.length).toNat = om.bytes.length :=
        UInt16.toNat_ofNat_of_lt' om.fits
      have hread : Mbuf.read host (some om) buf =
          (.ok om.bytes.length, om.bytes ++ buf.drop om.bytes.length) := by
        simp only [Mbuf.read, hflat, BleError.check, if_true, hcopied]
      rw [hread]
      exact ⟨rfl, by simp⟩
    · have hnot : ¬ ReadsAll (Mbuf.read host (some om) buf) (some om) := by
        intro h
        have hok := h.1
        rw [read_emsgsize hcap] at hok
        exact absurd hok (by simp)
      constructor
      · intro h
        by_contra hor
        exact hnot (h (by omega))
      · intro hor hle
        omega

end Conveys

/-- Each call conveys all of a slice when it returns `Ok`, and a read fills each buffer that is
long enough, exactly when the length that C is told is the true one, or it does not matter: for a
slice when C fails, for a buffer when what is left of its length is enough for the packet. -/
theorem payloads_conveyed_iff (host : CHost) (data : List UInt8) :
    (∀ connHandle attrHandle, (write host connHandle attrHandle data).Conveys data ↔
      data.length < 2 ^ 16 ∨ host.gattcWriteFlat connHandle attrHandle (told data) ≠ 0) ∧
    (∀ connHandle attrHandle, (writeCmd host connHandle attrHandle data).Conveys data ↔
      data.length < 2 ^ 16 ∨ host.gattcWriteNoRspFlat connHandle attrHandle (told data) ≠ 0) ∧
    (∀ om, (Mbuf.append host om data).Conveys data ↔
      data.length < 2 ^ 16 ∨ host.osMbufAppend om (told data) ≠ 0) ∧
    (∀ connHandle valHandle, (indicate host connHandle valHandle data).Conveys data ↔
      data.length < 2 ^ 16 ∨ (host.mbufFromFlat (told data) = false ∨
        host.gattsIndicateCustom connHandle valHandle (copyOf data) ≠ 0)) ∧
    (∀ connHandle valHandle, (notify host connHandle valHandle data).Conveys data ↔
      data.length < 2 ^ 16 ∨ (host.mbufFromFlat (told data) = false ∨
        host.gattsNotifyCustom connHandle valHandle (copyOf data) ≠ 0)) ∧
    (∀ chan, (l2capSend host chan data).Conveys data ↔
      data.length < 2 ^ 16 ∨ (host.mbufFromFlat (told data) = false ∨
        host.l2capSend chan (copyOf data) ≠ 0 ∧
          host.l2capSend chan (copyOf data) ≠ host.estalled)) ∧
    ∀ om : Option OsMbuf,
      ((om.elim [] (·.bytes)).length ≤ data.length → ReadsAll (Mbuf.read host om data) om) ↔
        data.length < (om.elim [] (·.bytes)).length ∨
          (om.elim [] (·.bytes)).length ≤ data.length % 2 ^ 16 :=
  ⟨fun _ _ => passFlat_conveys_iff, fun _ _ => passFlat_conveys_iff,
    fun _ => passFlat_conveys_iff, fun _ _ => passMbuf_conveys_iff,
    fun _ _ => passMbuf_conveys_iff, fun _ => l2capSend_conveys_iff, fun om => read_iff om data⟩

/-- Of 65536 bytes none are passed on, and a buffer of that length is too small for one byte. -/
theorem payload_of_65536_bytes :
    let host : CHost := ⟨fun _ => true, fun _ _ => 0, fun _ _ _ => 0, fun _ _ _ => 0,
      fun _ _ _ => 0, fun _ _ _ => 0, fun _ _ => 0, 4, 31, 10, 15, by decide⟩
    let data : List UInt8 := List.replicate 65536 7
    write host 1 2 data = ⟨some [], .ok ()⟩ ∧ notify host 1 2 data = ⟨some [], .ok ()⟩ ∧
      l2capSend host 0 data = ⟨some [], .ok .sent⟩ ∧
      Mbuf.append host ⟨[], by decide⟩ data = ⟨some [], .ok ()⟩ ∧
      (Mbuf.read host (some ⟨[9], by decide⟩) data).1 = .error (.host 4) := by
  intro host data
  have hdata : data.length = 65536 := List.length_replicate
  clear_value data
  have hlen : lenU16 data = 0 := by
    rw [lenU16, hdata]
    rfl
  have htold : told data = [] := by simp [told, hlen]
  refine ⟨?_, ?_, ?_, ?_, ?_⟩
  · simp [write, passFlat, htold, host, BleError.check]
  · simp [notify, passMbuf, mbufFromSlice, bleHsMbufFromFlat, htold, host, BleError.check]
  · simp [l2capSend, bleHsMbufFromFlat, htold, host]
  · simp [Mbuf.append, passFlat, htold, host, BleError.check]
  · have hcap : ¬ 1 ≤ data.length % 2 ^ 16 := by
      rw [hdata]
      norm_num
    exact read_emsgsize hcap

end NimbleRs.Payload
