import NimbleRs.InboundAcl
import NimbleRs.Outbound
import NimbleRs.PointerChain
import Mathlib.Tactic

/-!
# Mbuf chains on their way to the controller

`ble_transport_to_ll_acl_impl` on the mbufs of the C host: the walk that copies the segments
of a chain into one packet, the release of the chain and the bounded queue. A pool says which
mbufs are allocated. To read or to free one that is not has no result, and neither has a
loop that does not end.
-/
namespace NimbleRs.Hci
open PointerChain

/-- What is read of an mbuf: `om_data` up to `om_len`, and `om_next`. -/
structure MbufSegment (Om : Type*) where
  omData : List UInt8
  omNext : Option Om

abbrev Pool (Om : Type*) := Om → Option (MbufSegment Om)

variable {Om Wk : Type*} {N depth : ℕ}

namespace Pool

def next (pool : Pool Om) (om : Om) : Option Om := (pool om).bind (·.omNext)

def data (pool : Pool Om) (om : Om) : List UInt8 := ((pool om).map (·.omData)).getD []

/-- The mbufs of the chain at `om`, all of them allocated. -/
structure Chain (pool : Pool Om) (om : Option Om) (l : List Om) : Prop where
  visits : Visits pool.next om l
  allocated : ∀ a ∈ l, (pool a).isSome

end Pool

variable [DecidableEq Om]

/-- `os_mbuf_free_chain` of the C host, as it is documented: it frees each mbuf of the chain,
reading its link before it is freed. There is no result when an mbuf is not allocated. -/
def osMbufFreeChain : ℕ → Pool Om → Option Om → Option (Pool Om)
  | _, pool, none => some pool
  | 0, _, some _ => none
  | fuel + 1, pool, some om =>
    (pool om).bind fun m => osMbufFreeChain fuel (Function.update pool om none) m.omNext

omit [DecidableEq Om] in
/-- The loop, which ends without a packet when the next segment does not fit. -/
def flattenChain (pool : Pool Om) : ℕ → Packet N → Option Om → Option (Option (Packet N))
  | _, packet, none => some (some packet)
  | 0, _, some _ => none
  | fuel + 1, packet, some cur =>
    (pool cur).bind fun m =>
      match packet.extendFromSlice m.omData with
      | none => some none
      | some packet => flattenChain pool fuel packet m.omNext

/-- `BLE_ERR_MEM_CAPACITY` -/
def bleErrMemCapacity : ℤ := 7

structure Submitted (Om Wk : Type*) (N depth : ℕ) where
  pool : Pool Om
  queue : Channel (Packet N) Wk depth
  woken : Option Wk
  rc : ℤ

/-- A chain has no more mbufs than there are, which bounds the turns of the loops. -/
def bleTransportToLlAclImpl [Fintype Om] (pool : Pool Om) (queue : Channel (Packet N) Wk depth)
    (om : Option Om) : Option (Submitted Om Wk N depth) :=
  (flattenChain pool (Fintype.card Om) Packet.new om).bind fun packet =>
    match packet with
    | none =>
      (osMbufFreeChain (Fintype.card Om) pool om).map fun pool =>
        ⟨pool, queue, none, bleErrMemCapacity⟩
    | some packet =>
      (osMbufFreeChain (Fintype.card Om) pool om).map fun pool =>
        match queue.trySend packet with
        | none => ⟨pool, queue, none, bleErrMemCapacity⟩
        | some (queue, woken) => ⟨pool, queue, woken, 0⟩

section Packets

theorem extendFromSlice_none {p : Packet N} {data : List UInt8} :
    p.extendFromSlice data = none ↔ N < p.bytes.length + data.length := by
  unfold Packet.extendFromSlice
  split
  · simp
    omega
  · simp
    omega

theorem extendFromSlice_bytes {p q : Packet N} {data : List UInt8}
    (h : p.extendFromSlice data = some q) : q.bytes = p.bytes ++ data := by
  unfold Packet.extendFromSlice at h
  split at h
  · rw [← Option.some.inj h]
  · exact absurd h (by simp)

/-- The segments are taken exactly when all of them fit together. -/
theorem foldlM_extendFromSlice (segments : List (List UInt8)) (p : Packet N) :
    (segments.foldlM Packet.extendFromSlice p = none ∧
        N < p.bytes.length + segments.flatten.length) ∨
      ∃ q, segments.foldlM Packet.extendFromSlice p = some q ∧
        q.bytes = p.bytes ++ segments.flatten := by
  induction segments generalizing p with
  | nil => exact .inr ⟨p, rfl, by simp⟩
  | cons data segments ih =>
    cases hext : p.extendFromSlice data with
    | none =>
      left
      have hlt := extendFromSlice_none.mp hext
      simp only [List.foldlM_cons, hext, List.flatten_cons, List.length_append]
      exact ⟨rfl, by omega⟩
    | some q =>
      have hbytes := extendFromSlice_bytes hext
      have hfold : (data :: segments).foldlM Packet.extendFromSlice p =
          segments.foldlM Packet.extendFromSlice q := by simp [List.foldlM_cons, hext]
      rw [hfold]
      rcases ih q with ⟨hnone, hlt⟩ | ⟨r, hr, hrbytes⟩
      · left
        refine ⟨hnone, ?_⟩
        rw [hbytes] at hlt
        simpa [add_assoc] using hlt
      · right
        exact ⟨r, hr, by simp [hrbytes, hbytes]⟩

theorem flatten_none_iff {segments : List (List UInt8)} :
    (bleTransportToLlAclFlatten segments : Option (Packet N)) = none ↔
      N < segments.flatten.length := by
  unfold bleTransportToLlAclFlatten
  rcases foldlM_extendFromSlice segments (Packet.new : Packet N) with ⟨hnone, hlt⟩ | ⟨q, hq, hbytes⟩
  · exact iff_of_true hnone (by simpa [Packet.new] using hlt)
  · have hfits : segments.flatten.length ≤ N := by
      have hlen := q.fits
      rw [hbytes] at hlen
      simpa [Packet.new] using hlen
    exact iff_of_false (by simp [hq]) (by omega)

theorem flatten_bytes {segments : List (List UInt8)} {q : Packet N}
    (h : bleTransportToLlAclFlatten segments = some q) : q.bytes = segments.flatten := by
  unfold bleTransportToLlAclFlatten at h
  rcases foldlM_extendFromSlice segments (Packet.new : Packet N) with ⟨hnone, -⟩ | ⟨r, hr, hbytes⟩
  · rw [hnone] at h
    exact absurd h (by simp)
  · obtain rfl : r = q := Option.some.inj (hr.symm.trans h)
    simpa [Packet.new] using hbytes

end Packets

section Walk
variable {pool : Pool Om} {om : Option Om} {l : List Om}

omit [DecidableEq Om] in
theorem Pool.Chain.cons {a : Om} (h : pool.Chain om (a :: l)) :
    om = some a ∧ ∃ m, pool a = some m ∧ pool.data a = m.omData ∧ pool.Chain m.omNext l := by
  obtain ⟨m, hm⟩ := Option.isSome_iff_exists.mp (h.allocated a (by simp))
  have hnext : pool.next a = m.omNext := by simp [Pool.next, hm]
  refine ⟨h.visits.1, m, hm, by simp [Pool.data, hm], ?_, fun b hb => h.allocated b (by simp [hb])⟩
  rw [← hnext]
  exact h.visits.2

omit [DecidableEq Om] in
/-- The loop copies what a fold over the list of the segments does. -/
theorem flattenChain_eq (h : pool.Chain om l) {fuel : ℕ} (hfuel : l.length ≤ fuel) (p : Packet N) :
    flattenChain pool fuel p om = some ((l.map pool.data).foldlM Packet.extendFromSlice p) := by
  induction l generalizing om fuel p with
  | nil =>
    obtain rfl : om = none := h.visits
    cases fuel <;> rfl
  | cons a l ih =>
    obtain ⟨rfl, m, hm, hdata, hrest⟩ := h.cons
    obtain ⟨fuel, rfl⟩ : ∃ k, fuel = k + 1 := ⟨fuel - 1, by simp at hfuel; omega⟩
    simp only [flattenChain, hm, Option.bind_some, List.map_cons, List.foldlM_cons, hdata]
    cases hext : p.extendFromSlice m.omData with
    | none => rfl
    | some q => exact ih hrest (by simpa using hfuel) q

/-- Exactly the mbufs of the chain are freed. What is freed first is not met again, because a
chain passes no mbuf twice. -/
theorem osMbufFreeChain_eq (h : pool.Chain om l) {fuel : ℕ} (hfuel : l.length ≤ fuel) :
    osMbufFreeChain fuel pool om = some (fun a => if a ∈ l then none else pool a) := by
  induction l generalizing pool om fuel with
  | nil =>
    obtain rfl : om = none := h.visits
    cases fuel <;> simp [osMbufFreeChain]
  | cons a l ih =>
    have hnot : a ∉ l := (List.nodup_cons.mp (visits_nodup h.visits)).1
    obtain ⟨rfl, m, hm, -, hrest⟩ := h.cons
    obtain ⟨fuel, rfl⟩ : ∃ k, fuel = k + 1 := ⟨fuel - 1, by simp at hfuel; omega⟩
    have hsame : ∀ b ∈ l, Function.update pool a none b = pool b := by
      intro b hb
      have hne : b ≠ a := fun heq => hnot (heq ▸ hb)
      rw [Function.update_of_ne hne]
    have hchain : Pool.Chain (Function.update pool a none) m.omNext l := by
      constructor
      case visits => exact hrest.visits.congr (fun b hb => by simp [Pool.next, hsame b hb])
      case allocated =>
        intro b hb
        rw [hsame b hb]
        exact hrest.allocated b hb
    simp only [osMbufFreeChain, hm, Option.bind_some]
    rw [ih hchain (by simpa using hfuel)]
    congr 1
    funext b
    by_cases hb : b = a
    · simp [hb, hnot]
    · by_cases hbl : b ∈ l <;> simp [hb, hbl]

end Walk

/-- The loops together compute what the flattening of the list of segments does. -/
theorem bleTransportToLlAclImpl_eq [Fintype Om] {pool : Pool Om} {om : Option Om} {l : List Om}
    (h : pool.Chain om l) (queue : Channel (Packet N) Wk depth) :
    bleTransportToLlAclImpl pool queue om =
      let freed : Pool Om := fun a => if a ∈ l then none else pool a
      match (bleTransportToLlAclFlatten (l.map pool.data)).bind queue.trySend with
      | none => some ⟨freed, queue, none, bleErrMemCapacity⟩
      | some (queue, woken) => some ⟨freed, queue, woken, 0⟩ := by
  have hlen : l.length ≤ Fintype.card Om := visits_length_le h.visits
  unfold bleTransportToLlAclImpl
  rw [flattenChain_eq h hlen, osMbufFreeChain_eq h hlen]
  cases hflat : (l.map pool.data).foldlM Packet.extendFromSlice (Packet.new : Packet N) with
  | none => simp [bleTransportToLlAclFlatten, hflat]
  | some packet =>
    cases hsend : queue.trySend packet with
    | none => simp [bleTransportToLlAclFlatten, hflat, hsend]
    | some r => simp [bleTransportToLlAclFlatten, hflat, hsend]

/-- A chain is copied segment by segment into one packet and queued, or the call fails and the
queue is as it was, which it does exactly when the segments together are too long or the queue is
full. Either way exactly the mbufs of the chain have been freed: no mbuf is freed twice or read
once it is freed, as then there were no result. -/
theorem to_ll_acl_exact [Fintype Om] {aclSize : ℕ} {pool : Pool Om} {om : Option Om} {l : List Om}
    (h : pool.Chain om l) (queue : Channel (Packet (aclPacketMax aclSize)) Wk depth) :
    ∃ r, bleTransportToLlAclImpl pool queue om = some r ∧
      r.pool = (fun a => if a ∈ l then none else pool a) ∧
      ((r.rc = 0 ∧ ∃ packet : Packet (aclPacketMax aclSize),
          packet.bytes = (l.map pool.data).flatten ∧ r.queue.queue = queue.queue ++ [packet]) ∨
        (r.rc ≠ 0 ∧ r.queue = queue)) ∧
      (r.rc ≠ 0 ↔ aclPacketMax aclSize < (l.map pool.data).flatten.length ∨
        queue.queue.length = depth) := by
  rw [bleTransportToLlAclImpl_eq h queue]
  cases hflat : (bleTransportToLlAclFlatten (l.map pool.data) :
      Option (Packet (aclPacketMax aclSize))) with
  | none =>
    have hlong := flatten_none_iff.mp hflat
    refine ⟨_, rfl, rfl, .inr ⟨by simp [bleErrMemCapacity], rfl⟩, ?_⟩
    exact iff_of_true (by simp [bleErrMemCapacity]) (.inl hlong)
  | some packet =>
    have hshort : ¬ aclPacketMax aclSize < (l.map pool.data).flatten.length := by
      rw [← flatten_none_iff, hflat]
      simp
    have hfull := queue.trySend_isSome_iff packet
    have hdepth := queue.fits
    cases hsend : queue.trySend packet with
    | none =>
      rw [hsend] at hfull
      have hlen : queue.queue.length = depth := by
        simp only [Option.isSome_none, Bool.false_eq_true, false_iff] at hfull
        omega
      simp only [Option.bind_some, hsend]
      refine ⟨_, rfl, rfl, .inr ⟨by simp [bleErrMemCapacity], rfl⟩, ?_⟩
      exact iff_of_true (by simp [bleErrMemCapacity]) (.inr hlen)
    | some sent =>
      have hroom := hfull.mp (by simp [hsend])
      simp only [Option.bind_some, hsend]
      refine ⟨_, rfl, rfl, .inl ⟨rfl, packet, flatten_bytes hflat, Channel.trySend_queue hsend⟩, ?_⟩
      exact iff_of_false (by simp) (by omega)

/-- A chain of two mbufs in a pool of three, the first of them empty. -/
theorem to_ll_acl_exact_two_segments :
    let pool : Pool (Fin 3) := fun a =>
      if a = 2 then some ⟨[], some 0⟩ else if a = 0 then some ⟨[1, 2], none⟩ else some ⟨[9], none⟩
    let queue : Channel (Packet (aclPacketMax 8)) (Fin 1) 2 := Channel.new
    ∃ r, bleTransportToLlAclImpl pool queue (some 2) = some r ∧
      r.pool = (fun a => if a ∈ [2, 0] then none else pool a) := by
  intro pool queue
  have hchain : pool.Chain (some 2) [2, 0] := by
    constructor
    case visits => exact ⟨rfl, rfl, rfl⟩
    case allocated => decide
  obtain ⟨r, hr, hfreed, -⟩ := to_ll_acl_exact hchain queue
  exact ⟨r, hr, hfreed⟩

end NimbleRs.Hci
