import NimbleRs.TransitionSystem
import Mathlib.Tactic

/-!
# The outbound queues

Commands and ACL data on their way from the C host to the controller: the copy into
a bounded packet, the bounded channel with the one receiver waker that it stores, the
two `ble_transport_to_ll_*` functions cut where they free the C buffer, and the
`select` of the TX arm. The machine at the end counts the live C buffers of each kind.
-/
namespace NimbleRs.Hci
open TransitionSystem

/-- `heapless::Vec<u8, N>`, which holds up to `N` bytes: extending it appends all of a slice,
or fails and appends nothing when they do not fit. -/
structure Packet (N : ℕ) where
  bytes : List UInt8
  fits : bytes.length ≤ N

namespace Packet

variable {N : ℕ}

def new : Packet N := ⟨[], by simp⟩

def extendFromSlice (p : Packet N) (data : List UInt8) : Option (Packet N) :=
  if h : p.bytes.length + data.length ≤ N then
    some ⟨p.bytes ++ data, by simpa using h⟩
  else none

theorem extendFromSlice_new_isSome {data : List UInt8} (h : data.length ≤ N) :
    ((new : Packet N).extendFromSlice data).isSome = true := by
  simp [extendFromSlice, new, h]

end Packet

/-- `embassy_sync::channel::Channel`, as it is documented: a bounded FIFO whose `try_send`
fails when it is full, and whose receiver, when it finds the channel empty, leaves the waker
that the next send wakes. A waker of its own is kept for the receiver only. -/
structure Channel (α Wk : Type*) (depth : ℕ) where
  queue : List α
  receiverWaker : Option Wk
  fits : queue.length ≤ depth

namespace Channel

variable {α Wk : Type*} {depth : ℕ}

def new : Channel α Wk depth := ⟨[], none, by simp⟩

/-- Fails when the channel is full; else takes the stored waker, to be woken. -/
def trySend (c : Channel α Wk depth) (a : α) : Option (Channel α Wk depth × Option Wk) :=
  if h : c.queue.length < depth then
    some (⟨c.queue ++ [a], none, by rw [List.length_append]; exact h⟩, c.receiverWaker)
  else none

/-- A poll of `receive()`: takes the first message, or stores the waker. Storing a
different waker than the one that is there wakes that one. -/
def pollReceive [DecidableEq Wk] (c : Channel α Wk depth) (waker : Wk) :
    Channel α Wk depth × Option α × Option Wk :=
  match h : c.queue with
  | [] => (⟨[], some waker, by simp⟩, none, c.receiverWaker.filter (fun w => decide (w ≠ waker)))
  | a :: l =>
    (⟨l, c.receiverWaker, by have := c.fits; rw [h] at this; exact Nat.le_of_succ_le this⟩,
      some a, none)

theorem trySend_isSome_iff (c : Channel α Wk depth) (a : α) :
    (c.trySend a).isSome = true ↔ c.queue.length < depth := by
  unfold trySend
  split
  · simp [*]
  · simp [*]

theorem trySend_length {c c' : Channel α Wk depth} {a : α} {w : Option Wk}
    (h : c.trySend a = some (c', w)) : c'.queue.length = c.queue.length + 1 := by
  unfold trySend at h
  split at h
  · simp only [Option.some.injEq, Prod.mk.injEq] at h
    rw [← h.1]
    simp
  · exact absurd h (by simp)

theorem pollReceive_length [DecidableEq Wk] (c : Channel α Wk depth) (waker : Wk) :
    (c.pollReceive waker).1.queue.length + (c.pollReceive waker).2.1.toList.length =
      c.queue.length := by
  unfold pollReceive
  split
  next hq => simp [hq]
  next a l hq => simp [hq]

theorem trySend_queue {c c' : Channel α Wk depth} {a : α} {w : Option Wk}
    (h : c.trySend a = some (c', w)) : c'.queue = c.queue ++ [a] := by
  unfold trySend at h
  split at h
  · simp only [Option.some.injEq, Prod.mk.injEq] at h
    rw [← h.1]
  · exact absurd h (by simp)

/-- A poll takes the first message, or finds none. -/
theorem pollReceive_cases [DecidableEq Wk] (c : Channel α Wk depth) (waker : Wk) :
    (∃ a c', c.queue = a :: c'.queue ∧ c.pollReceive waker = (c', some a, none)) ∨
      ∃ c' old, c.queue = [] ∧ c'.queue = [] ∧ c.pollReceive waker = (c', none, old) := by
  unfold pollReceive
  split
  next hq =>
    right
    exact ⟨_, _, hq, rfl, rfl⟩
  next a l hq =>
    left
    exact ⟨a, _, hq, rfl⟩

/-- A waker is stored only while nothing is queued. -/
def Parked (c : Channel α Wk depth) : Prop := c.receiverWaker.isSome → c.queue = []

theorem Parked.receiverWaker_none {c : Channel α Wk depth} (h : c.Parked) {a : α} {l : List α}
    (hq : c.queue = a :: l) : c.receiverWaker = none := by
  cases hw : c.receiverWaker with
  | none => rfl
  | some w =>
    have hnil := h (by simp [hw])
    rw [hq] at hnil
    exact absurd hnil (by simp)

theorem trySend_waker {c c' : Channel α Wk depth} {a : α} {w : Option Wk}
    (h : c.trySend a = some (c', w)) : c'.Parked ∧ w = c.receiverWaker := by
  unfold trySend at h
  split at h
  · simp only [Option.some.injEq, Prod.mk.injEq] at h
    rw [← h.1, ← h.2]
    exact ⟨fun hw => absurd hw (by simp), rfl⟩
  · exact absurd h (by simp)

theorem pollReceive_none [DecidableEq Wk] {c c' : Channel α Wk depth} {waker : Wk}
    {old : Option Wk} (h : c.pollReceive waker = (c', none, old)) :
    c'.Parked ∧ c'.receiverWaker = some waker ∧
      old = c.receiverWaker.filter (fun w => decide (w ≠ waker)) := by
  unfold pollReceive at h
  split at h
  next hq =>
    simp only [Prod.mk.injEq] at h
    obtain ⟨rfl, -, rfl⟩ := h
    exact ⟨fun _ => rfl, rfl, rfl⟩
  next a l hq => simp at h

theorem pollReceive_some [DecidableEq Wk] {c c' : Channel α Wk depth} (hc : c.Parked)
    {waker : Wk} {a : α} {old : Option Wk} (h : c.pollReceive waker = (c', some a, old)) :
    c'.Parked ∧ c.receiverWaker = none := by
  unfold pollReceive at h
  split at h
  next hq => simp at h
  next b l hq =>
    have hnone := hc.receiverWaker_none hq
    simp only [Prod.mk.injEq] at h
    obtain ⟨rfl, -, -⟩ := h
    exact ⟨fun hw => absurd hw (by simp [hnone]), hnone⟩

end Channel

def cmdPacketMax : ℕ := 3 + 255

def cmdQueueDepth : ℕ := 2

/-- A flat command buffer `[opcode: 2][len: 1][params: len]` of the C host. -/
structure CmdBuf where
  bytes : List UInt8
  params : 3 + (bytes.getD 2 0).toNat ≤ bytes.length

def CmdBuf.len (buf : CmdBuf) : ℕ := 3 + (buf.bytes.getD 2 0).toNat

theorem CmdBuf.length_take (buf : CmdBuf) :
    (buf.bytes.take buf.len).length ≤ cmdPacketMax := by
  have hlt := (buf.bytes.getD 2 0).toNat_lt
  unfold cmdPacketMax
  rw [List.length_take, CmdBuf.len]
  omega

/-- `ble_transport_to_ll_cmd_impl` up to `ble_transport_free`; its unwrap cannot fail. -/
def bleTransportToLlCmdCopy (buf : CmdBuf) : Packet cmdPacketMax :=
  ((Packet.new : Packet cmdPacketMax).extendFromSlice (buf.bytes.take buf.len)).get
    (Packet.extendFromSlice_new_isSome buf.length_take)

/-- `ble_transport_to_ll_acl_impl` up to `os_mbuf_free_chain`, on the data of the chain:
`none` when the packet does not fit. -/
def bleTransportToLlAclFlatten {N : ℕ} (om : List (List UInt8)) : Option (Packet N) :=
  om.foldlM Packet.extendFromSlice Packet.new

section Lane
variable {N depth : ℕ} {Wk : Type*}

/-- One kind of packet: its queue, the live C buffers, and how many packets were handed
to `try_send` and taken by the pump so far. -/
structure Lane (N depth : ℕ) (Wk : Type*) where
  queue : Channel (Packet N) Wk depth
  live : ℕ
  sent : ℕ
  taken : ℕ

namespace Lane

def new : Lane N depth Wk := ⟨Channel.new, 0, 0, 0⟩

/-- The host never holds more than `depth` live buffers. -/
def alloc (k : Lane N depth Wk) : Option (Lane N depth Wk) :=
  if k.live < depth then some { k with live := k.live + 1 } else none

def free (k : Lane N depth Wk) : Option (Lane N depth Wk) :=
  if 0 < k.live then some { k with live := k.live - 1 } else none

/-- The tail of the two functions. A packet that does not fit the queue is dropped, the
overflow is logged and `BLE_ERR_MEM_CAPACITY` returned. -/
def send (k : Lane N depth Wk) (p : Packet N) : Lane N depth Wk :=
  match k.queue.trySend p with
  | none => { k with sent := k.sent + 1 }
  | some (queue, _) => { k with queue := queue, sent := k.sent + 1 }

def receive [DecidableEq Wk] (k : Lane N depth Wk) (waker : Wk) :
    Lane N depth Wk × Option (Packet N) :=
  let r := k.queue.pollReceive waker
  ({ k with queue := r.1, taken := k.taken + r.2.1.toList.length }, r.2.1)

/-- Nothing has been rejected: what was sent is in the queue or was taken. -/
def Balanced (k : Lane N depth Wk) : Prop := k.queue.queue.length + k.taken = k.sent

/-- Of the packets sent, the next one included, the pump has taken all but `depth`. -/
def HasRoom (k : Lane N depth Wk) : Prop := k.sent + 1 ≤ k.taken + depth

instance (k : Lane N depth Wk) : Decidable k.HasRoom := inferInstanceAs (Decidable (_ ≤ _))

theorem Balanced.accepts_iff {k : Lane N depth Wk} (h : k.Balanced) (p : Packet N) :
    (k.queue.trySend p).isSome = true ↔ k.HasRoom := by
  rw [Channel.trySend_isSome_iff]
  unfold Balanced at h
  unfold HasRoom
  omega

theorem Balanced.send {k : Lane N depth Wk} (h : k.Balanced) {p : Packet N}
    (hp : (k.queue.trySend p).isSome = true) : (k.send p).Balanced := by
  obtain ⟨⟨queue, waker⟩, hq⟩ := Option.isSome_iff_exists.mp hp
  have hlen := Channel.trySend_length hq
  unfold Balanced at h
  simp only [Lane.send, hq, Balanced]
  omega

theorem Balanced.receive [DecidableEq Wk] {k : Lane N depth Wk} (h : k.Balanced) (waker : Wk) :
    (k.receive waker).1.Balanced := by
  have hlen := Channel.pollReceive_length k.queue waker
  unfold Balanced at h
  simp only [Lane.receive, Balanced]
  omega

theorem Balanced.alloc {k k' : Lane N depth Wk} (h : k.Balanced) (hk : k.alloc = some k') :
    k'.Balanced := by
  unfold Lane.alloc at hk
  split at hk
  · rw [← Option.some.inj hk]
    exact h
  · exact absurd hk (by simp)

theorem Balanced.free {k k' : Lane N depth Wk} (h : k.Balanced) (hk : k.free = some k') :
    k'.Balanced := by
  unfold Lane.free at hk
  split at hk
  · rw [← Option.some.inj hk]
    exact h
  · exact absurd hk (by simp)

end Lane

end Lane

/-- Both kinds, and the packets that contexts have copied and not yet sent. -/
structure Outbound (aclMax aclDepth : ℕ) (Ctx Wk : Type*) where
  cmd : Lane cmdPacketMax cmdQueueDepth Wk
  acl : Lane aclMax aclDepth Wk
  sending : Ctx → Option (Packet cmdPacketMax ⊕ Packet aclMax)

inductive OutboundStep (Ctx Wk : Type*)
  | allocCmd
  | allocAcl
  | copyCmd (ctx : Ctx) (buf : CmdBuf)
  | copyAcl (ctx : Ctx) (om : List (List UInt8))
  | trySend (ctx : Ctx)
  | drain (waker : Wk)

variable {aclMax aclDepth : ℕ} {Ctx Wk : Type*} [DecidableEq Ctx] [DecidableEq Wk]

def Outbound.start : Outbound aclMax aclDepth Ctx Wk := ⟨Lane.new, Lane.new, fun _ => none⟩

/-- The `select` of the TX arm: commands take priority over data. -/
def Outbound.select (s : Outbound aclMax aclDepth Ctx Wk) (waker : Wk) :
    Outbound aclMax aclDepth Ctx Wk :=
  match s.cmd.receive waker with
  | (cmd, some _) => { s with cmd := cmd }
  | (cmd, none) => { s with cmd := cmd, acl := (s.acl.receive waker).1 }

def outboundStep (s : Outbound aclMax aclDepth Ctx Wk) :
    OutboundStep Ctx Wk → Option (Outbound aclMax aclDepth Ctx Wk)
  | .allocCmd => s.cmd.alloc.map fun cmd => { s with cmd := cmd }
  | .allocAcl => s.acl.alloc.map fun acl => { s with acl := acl }
  | .copyCmd ctx buf =>
    if (s.sending ctx).isNone then s.cmd.free.map fun cmd =>
      { s with
        cmd := cmd
        sending := Function.update s.sending ctx (some (.inl (bleTransportToLlCmdCopy buf))) }
    else none
  | .copyAcl ctx om =>
    if (s.sending ctx).isNone then s.acl.free.map fun acl =>
      { s with
        acl := acl
        sending := Function.update s.sending ctx ((bleTransportToLlAclFlatten om).map .inr) }
    else none
  | .trySend ctx => (s.sending ctx).map fun p =>
    match p with
    | .inl p => { s with cmd := s.cmd.send p, sending := Function.update s.sending ctx none }
    | .inr p => { s with acl := s.acl.send p, sending := Function.update s.sending ctx none }
  | .drain waker => some (s.select waker)

/-- No packet is rejected for a full queue. -/
def Accepts (s : Outbound aclMax aclDepth Ctx Wk) : OutboundStep Ctx Wk → Prop
  | .trySend ctx => match s.sending ctx with
    | some (.inl p) => (s.cmd.queue.trySend p).isSome = true
    | some (.inr p) => (s.acl.queue.trySend p).isSome = true
    | none => True
  | _ => True

/-- The pump has kept up: it has taken all but `depth` of the packets of the kind that
is sent, the one that is sent now included. -/
def KeptUp (s : Outbound aclMax aclDepth Ctx Wk) : OutboundStep Ctx Wk → Prop
  | .trySend ctx => match s.sending ctx with
    | some (.inl _) => s.cmd.HasRoom
    | some (.inr _) => s.acl.HasRoom
    | none => True
  | _ => True

instance (s : Outbound aclMax aclDepth Ctx Wk) (a : OutboundStep Ctx Wk) :
    Decidable (Accepts s a) := by
  cases a <;> simp only [Accepts] <;> first | infer_instance | (split <;> infer_instance)

def Outbound.Balanced (s : Outbound aclMax aclDepth Ctx Wk) : Prop :=
  s.cmd.Balanced ∧ s.acl.Balanced

namespace Outbound.Balanced

variable {s s' : Outbound aclMax aclDepth Ctx Wk}

omit [DecidableEq Ctx] [DecidableEq Wk] in
theorem accepts_iff (h : s.Balanced) (a : OutboundStep Ctx Wk) : Accepts s a ↔ KeptUp s a := by
  cases a with
  | trySend ctx =>
    cases hp : s.sending ctx with
    | none => simp only [Accepts, KeptUp, hp]
    | some p =>
      simp only [Accepts, KeptUp, hp]
      cases p with
      | inl p => exact h.1.accepts_iff p
      | inr p => exact h.2.accepts_iff p
  | _ => exact Iff.rfl

omit [DecidableEq Ctx] in
theorem select (h : s.Balanced) (waker : Wk) : (s.select waker).Balanced := by
  have hcmd := h.1.receive waker
  unfold Outbound.select
  cases hr : s.cmd.receive waker with
  | mk cmd p =>
    rw [hr] at hcmd
    cases p with
    | some p => exact ⟨hcmd, h.2⟩
    | none => exact ⟨hcmd, h.2.receive waker⟩

/-- A step that rejects nothing leaves every packet queued or taken. -/
theorem step (h : s.Balanced) {a : OutboundStep Ctx Wk} (ha : Accepts s a)
    (hstep : outboundStep s a = some s') : s'.Balanced := by
  cases a with
  | allocCmd =>
    obtain ⟨cmd, hcmd, rfl⟩ := Option.map_eq_some_iff.mp hstep
    exact ⟨h.1.alloc hcmd, h.2⟩
  | allocAcl =>
    obtain ⟨acl, hacl, rfl⟩ := Option.map_eq_some_iff.mp hstep
    exact ⟨h.1, h.2.alloc hacl⟩
  | copyCmd ctx buf =>
    by_cases hctx : (s.sending ctx).isNone = true
    · simp only [outboundStep, hctx, if_true] at hstep
      obtain ⟨cmd, hcmd, rfl⟩ := Option.map_eq_some_iff.mp hstep
      exact ⟨h.1.free hcmd, h.2⟩
    · simp [outboundStep, hctx] at hstep
  | copyAcl ctx om =>
    by_cases hctx : (s.sending ctx).isNone = true
    · simp only [outboundStep, hctx, if_true] at hstep
      obtain ⟨acl, hacl, rfl⟩ := Option.map_eq_some_iff.mp hstep
      exact ⟨h.1, h.2.free hacl⟩
    · simp [outboundStep, hctx] at hstep
  | trySend ctx =>
    obtain ⟨p, hp, rfl⟩ := Option.map_eq_some_iff.mp hstep
    simp only [Accepts, hp] at ha
    cases p with
    | inl p => exact ⟨h.1.send ha, h.2⟩
    | inr p => exact ⟨h.1, h.2.send ha⟩
  | drain waker =>
    obtain rfl := Option.some.inj hstep
    exact h.select waker

end Outbound.Balanced

/-- With the host holding no more than a pool of live buffers of a kind, the queues
reject nothing exactly when the pump keeps up with what is submitted. -/
theorem outbound_accepts_iff (steps : List (OutboundStep Ctx Wk)) :
    Meets outboundStep Accepts (Outbound.start : Outbound aclMax aclDepth Ctx Wk) steps ↔
      Meets outboundStep KeptUp (Outbound.start : Outbound aclMax aclDepth Ctx Wk) steps :=
  meets_iff_meets (I := Outbound.Balanced) (fun _ a _ h _ => h.accepts_iff a)
    (fun _ _ _ h ha hstep => h.step ha hstep) steps ⟨rfl, rfl⟩

/-- One command buffer after the other, each freed before the next one is allocated,
while the pump is not polled. -/
theorem cmd_queue_overflows :
    let buf : CmdBuf := ⟨[3, 12, 0], by decide⟩
    let submit : List (OutboundStep (Fin 1) (Fin 1)) := [.allocCmd, .copyCmd 0 buf, .trySend 0]
    ¬ Meets outboundStep Accepts (Outbound.start : Outbound 255 4 (Fin 1) (Fin 1))
      (submit ++ submit ++ submit) := by
  decide

end NimbleRs.Hci
