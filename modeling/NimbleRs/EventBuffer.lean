import NimbleRs.FeedEvent
import Mathlib.Tactic

/-!
# The event buffers as memory

What `feed_event` writes, address by address. The buffer that `ble_transport_alloc_evt`
hands out is a block of `E` bytes, `BLE_TRANSPORT_EVT_SIZE` of the transport, which the
source does not look at. `alloc` is its answer, for discardable events and for others.
-/
namespace NimbleRs.Hci

/-- `core::ptr::copy_nonoverlapping`, byte by byte. -/
def copyNonoverlapping : List UInt8 → ℕ → List (ℕ × UInt8)
  | [], _ => []
  | b :: bytes, dst => (dst, b) :: copyNonoverlapping bytes (dst + 1)

def applyWrites (mem : ℕ → UInt8) (writes : List (ℕ × UInt8)) : ℕ → UInt8 :=
  writes.foldl (fun mem w => Function.update mem w.1 w.2) mem

def load (mem : ℕ → UInt8) (src : ℕ) : ℕ → List UInt8
  | 0 => []
  | n + 1 => mem src :: load mem (src + 1) n

/-- The writes of a call and the buffer that it passes to the host. -/
structure Fed where
  writes : List (ℕ × UInt8)
  toHs : Option ℕ

def feedEventTo (alloc : Bool → Option ℕ) (code : UInt8) (params : List UInt8)
    (discardable : Bool) : Fed :=
  match alloc discardable with
  | none => ⟨[], none⟩
  | some buf =>
    ⟨(buf, code) :: (buf + 1, .ofNat params.length) :: copyNonoverlapping params (buf + 2),
      some buf⟩

/-- The events that are fed: those of the controller and the synthesized acks. -/
inductive Inbound
  | event (code : UInt8) (params : List UInt8) (fits : params.length ≤ 255)
  | ack (evt : Packet evtPacketMax)

namespace Inbound

def code : Inbound → UInt8
  | .event code _ _ => code
  | .ack evt => evt.bytes.getD 0 0

def params : Inbound → List UInt8
  | .event _ params _ => params
  | .ack evt => evt.bytes.drop 2

/-- As `rx_dispatch` decides; acks must not be dropped. -/
def discardable : Inbound → Bool
  | .event code params _ => Hci.discardable code params
  | .ack _ => false

def feed (alloc : Bool → Option ℕ) (e : Inbound) : Fed :=
  feedEventTo alloc e.code e.params e.discardable

/-- The length byte can count the parameters. -/
theorem params_length_le (e : Inbound) : e.params.length ≤ 255 := by
  cases e with
  | event code params fits => exact fits
  | ack evt =>
    have hlen := evt.fits
    simp only [params, List.length_drop]
    unfold evtPacketMax at hlen
    omega

end Inbound

/-- No byte is written but into the first `E` bytes of the buffer, and what is passed to
the host there is the code, the exact length and all parameters. -/
structure Contained (E : ℕ) (buf : Option ℕ) (code : UInt8) (params : List UInt8) (r : Fed) :
    Prop where
  writes : ∀ w ∈ r.writes, ∃ b, buf = some b ∧ b ≤ w.1 ∧ w.1 < b + E
  stored : ∀ b, r.toHs = some b → buf = some b ∧ ∃ len : UInt8, len.toNat = params.length ∧
    ∀ mem, load (applyWrites mem r.writes) b (params.length + 2) = code :: len :: params

theorem mem_copyNonoverlapping {bytes : List UInt8} {dst : ℕ} {w : ℕ × UInt8}
    (hw : w ∈ copyNonoverlapping bytes dst) : dst ≤ w.1 ∧ w.1 < dst + bytes.length := by
  induction bytes generalizing dst with
  | nil => simp [copyNonoverlapping] at hw
  | cons b bytes ih =>
    obtain rfl | hw := List.mem_cons.mp hw
    · simp
    · have hbounds := ih hw
      rw [List.length_cons]
      omega

/-- The last byte is written too. -/
theorem exists_last_write {bytes : List UInt8} (hne : bytes ≠ []) (dst : ℕ) :
    ∃ w ∈ copyNonoverlapping bytes dst, w.1 + 1 = dst + bytes.length := by
  induction bytes generalizing dst with
  | nil => exact absurd rfl hne
  | cons b bytes ih =>
    by_cases hbytes : bytes = []
    · subst hbytes
      exact ⟨(dst, b), by simp [copyNonoverlapping], rfl⟩
    · obtain ⟨w, hw, hlast⟩ := ih hbytes (dst + 1)
      refine ⟨w, List.mem_cons_of_mem _ hw, ?_⟩
      rw [List.length_cons]
      omega

theorem applyWrites_before {mem : ℕ → UInt8} {bytes : List UInt8} {dst a : ℕ} (ha : a < dst) :
    applyWrites mem (copyNonoverlapping bytes dst) a = mem a := by
  induction bytes generalizing mem dst with
  | nil => rfl
  | cons b bytes ih =>
    show applyWrites (Function.update mem dst b) (copyNonoverlapping bytes (dst + 1)) a = _
    rw [ih (by omega), Function.update_of_ne (by omega)]

/-- A copy is read back as it was. -/
theorem load_copyNonoverlapping (mem : ℕ → UInt8) (bytes : List UInt8) (dst : ℕ) :
    load (applyWrites mem (copyNonoverlapping bytes dst)) dst bytes.length = bytes := by
  induction bytes generalizing mem dst with
  | nil => rfl
  | cons b bytes ih =>
    have hfirst : applyWrites mem (copyNonoverlapping (b :: bytes) dst) dst = b := by
      show applyWrites (Function.update mem dst b) (copyNonoverlapping bytes (dst + 1)) dst = b
      rw [applyWrites_before (Nat.lt_succ_self dst), Function.update_self]
    show applyWrites mem (copyNonoverlapping (b :: bytes) dst) dst :: _ = _
    rw [hfirst]
    exact congrArg (b :: ·) (ih (Function.update mem dst b) (dst + 1))

/-- The three writes of `feed_event` are one copy of the whole packet. -/
theorem feedEventTo_eq (alloc : Bool → Option ℕ) (code : UInt8) (params : List UInt8)
    (discardable : Bool) :
    feedEventTo alloc code params discardable =
      ⟨(alloc discardable).elim []
        (copyNonoverlapping (code :: .ofNat params.length :: params)), alloc discardable⟩ := by
  unfold feedEventTo
  cases alloc discardable <;> rfl

/-- The host finds the whole packet in the buffer that it is passed. -/
theorem load_feedEventTo {alloc : Bool → Option ℕ} {code : UInt8} {params : List UInt8}
    {discardable : Bool} {buf : ℕ} (hbuf : alloc discardable = some buf) (mem : ℕ → UInt8) :
    load (applyWrites mem (feedEventTo alloc code params discardable).writes) buf
      (params.length + 2) = code :: .ofNat params.length :: params := by
  rw [feedEventTo_eq, hbuf]
  exact load_copyNonoverlapping mem (code :: .ofNat params.length :: params) buf

/-- An event is contained exactly when it fits or there is no buffer for it. -/
theorem contained_iff (E : ℕ) (alloc : Bool → Option ℕ) (e : Inbound) :
    Contained E (alloc e.discardable) e.code e.params (e.feed alloc) ↔
      alloc e.discardable = none ∨ e.params.length + 2 ≤ E := by
  cases halloc : alloc e.discardable with
  | none =>
    have hfeed : e.feed alloc = ⟨[], none⟩ := by
      rw [Inbound.feed, feedEventTo_eq, halloc]
      rfl
    rw [hfeed]
    exact iff_of_true ⟨by simp, by simp⟩ (.inl rfl)
  | some buf =>
    have hfeed : e.feed alloc = ⟨copyNonoverlapping
        (e.code :: .ofNat e.params.length :: e.params) buf, some buf⟩ := by
      rw [Inbound.feed, feedEventTo_eq, halloc]
      rfl
    simp only [reduceCtorEq, false_or]
    constructor
    · intro h
      rw [hfeed] at h
      obtain ⟨w, hw, hlast⟩ := exists_last_write (List.cons_ne_nil e.code
        (.ofNat e.params.length :: e.params)) buf
      obtain ⟨b, hb, -, hlt⟩ := h.writes w hw
      obtain rfl := Option.some.inj hb
      simp only [List.length_cons] at hlast
      omega
    · intro hfits
      constructor
      case writes =>
        intro w hw
        rw [hfeed] at hw
        have hbounds := mem_copyNonoverlapping hw
        simp only [List.length_cons] at hbounds
        exact ⟨buf, rfl, hbounds.1, by omega⟩
      case stored =>
        intro b hb
        rw [hfeed] at hb
        obtain rfl := Option.some.inj hb
        have hlen := e.params_length_le
        refine ⟨rfl, .ofNat e.params.length, ?_, load_feedEventTo halloc⟩
        simp only [UInt8.toNat_ofNat']
        omega

/-- An event with a buffer is contained exactly when it fits, and all events are contained
exactly when a buffer has room for the largest one. -/
theorem inbound_contained_iff (E : ℕ) :
    (∀ (alloc : Bool → Option ℕ) (e : Inbound),
      Contained E (alloc e.discardable) e.code e.params (e.feed alloc) ↔
        alloc e.discardable = none ∨ e.params.length + 2 ≤ E) ∧
      ((∀ (alloc : Bool → Option ℕ) (e : Inbound),
        Contained E (alloc e.discardable) e.code e.params (e.feed alloc)) ↔ evtPacketMax ≤ E) := by
  refine ⟨contained_iff E, ?_⟩
  constructor
  · intro h
    let largest : Inbound := .event 0x3e (List.replicate 255 0x0d) List.length_replicate.le
    have hlen : largest.params.length = 255 := List.length_replicate
    have hlargest := h (fun _ => some 0) largest
    rw [contained_iff E (fun _ => some 0) largest] at hlargest
    obtain hnone | hroom := hlargest
    · exact absurd hnone (by simp)
    · unfold evtPacketMax
      omega
  · intro hE alloc e
    rw [contained_iff]
    have hlen := e.params_length_le
    unfold evtPacketMax at hE
    exact .inr (by omega)

/-- Blocks of 70 bytes: an extended advertising report of 71 bytes is written over the first
byte of the next block. -/
theorem report_overruns_block :
    ¬ Contained 70 (some 0) 0x3e (0x0d :: List.replicate 68 0)
      ((Inbound.event 0x3e (0x0d :: List.replicate 68 0) (by decide)).feed fun _ => some 0) := by
  intro h
  obtain ⟨b, hb, -, hlt⟩ := h.writes (70, 0) (by decide)
  obtain rfl := Option.some.inj hb
  omega

end NimbleRs.Hci
