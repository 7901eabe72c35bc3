import NimbleRs.MemPoolRefinement

/-!
# Who holds the blocks of a pool

A ledger is kept from outside, of the calls on a pool and of what they returned. The blocks
on it and those on the free list are the blocks of the pool, each once, and the counters of
the pool agree with it. An initialization or a clear takes back all blocks of the pool, those
that are held included.
-/
namespace NimbleRs.MemPool
open PointerChain TransitionSystem

structure Ledger where
  used : Bool
  /-- The blocks that have been handed out and not taken back. -/
  held : List ℕ
  /-- The most blocks that have been held at once. -/
  most : ℕ

variable {P : Type*} [DecidableEq P]

/-- A call on pool `mp` and what it returned. -/
def Ledger.note (mp : P) (l : Ledger) : PoolCall P × PoolRet P → Ledger
  | (.moduleInit, _) => ⟨false, [], 0⟩
  | (.init q _ _ _ _, .rc .ok) | (.extInit q _ _ _ _, .rc .ok) =>
    if q = mp then ⟨true, [], 0⟩ else l
  | (.clear q, _) | (.extClear q, _) => if q = mp then ⟨l.used, [], 0⟩ else l
  | (.get q, .block (some b)) =>
    if q = mp then ⟨l.used, b :: l.held, max l.most (l.held.length + 1)⟩ else l
  | (.put q b, .put (.err .ok)) | (.putFromCb q b, .rc .ok) =>
    if q = mp then { l with held := l.held.erase b } else l
  | _ => l

def ledger (mp : P) (calls : List (PoolCall P)) (rets : List (PoolRet P)) : Ledger :=
  (calls.zip rets).foldl (Ledger.note mp) ⟨false, [], 0⟩

/-- The ledger of a pool accounts for all of its blocks. -/
structure Ledger.Accounts (l : Ledger) (v : Pool) : Prop where
  used : l.used = true
  blocks : (l.held ++ v.free).Perm v.blocks
  low : v.low + l.most = v.blocks.length

def Ledger.Agrees (l : Ledger) : Option Pool → Prop
  | none => l.used = false
  | some v => l.Accounts v

namespace Ledger.Accounts

variable {l : Ledger} {v : Pool}

theorem length (h : l.Accounts v) : l.held.length + v.free.length = v.blocks.length := by
  rw [← List.length_append]
  exact h.blocks.length_eq

theorem get {b : ℕ} {rest : List ℕ} (h : l.Accounts v) (hfree : v.free = b :: rest) :
    Accounts ⟨l.used, b :: l.held, max l.most (l.held.length + 1)⟩
      { v with free := rest, low := min v.low rest.length } := by
  have hlength := h.length
  have hlow := h.low
  have hblocks := h.blocks
  rw [hfree] at hblocks hlength
  constructor
  case used => exact h.used
  case blocks => exact List.perm_middle.symm.trans hblocks
  case low =>
    simp only [List.length_cons] at hlength
    dsimp only
    omega

theorem put {b : ℕ} (h : l.Accounts v) (hb : b ∈ v.blocks) (hfree : b ∉ v.free) :
    Accounts { l with held := l.held.erase b } { v with free := b :: v.free } := by
  have hheld : b ∈ l.held :=
    (List.mem_append.mp (h.blocks.mem_iff.mpr hb)).resolve_right hfree
  constructor
  case used => exact h.used
  case blocks =>
    have hback : (b :: l.held.erase b ++ v.free).Perm v.blocks :=
      ((List.perm_cons_erase hheld).symm.append_right v.free).trans h.blocks
    exact List.perm_middle.trans hback
  case low => exact h.low

theorem clear (h : l.Accounts v) : Accounts ⟨l.used, [], 0⟩ v.clear where
  used := h.used
  blocks := .refl _
  low := rfl

/-- What is not a block, a free list or a low-water mark is no concern of the ledger. -/
theorem congr (h : l.Accounts v) {v' : Pool} (hblocks : v'.blocks = v.blocks)
    (hfree : v'.free = v.free) (hlow : v'.low = v.low) : l.Accounts v' where
  used := h.used
  blocks := by rw [hblocks, hfree]; exact h.blocks
  low := by rw [hblocks, hlow]; exact h.low

end Ledger.Accounts

/-- The ledgers of all pools agree with the pools. -/
def Agree (ledgers : P → Ledger) (u : Pools P) : Prop := ∀ mp, (ledgers mp).Agrees (u.pool mp)

namespace Agree

variable {ledgers ledgers' : P → Ledger} {u u' : Pools P} {p : P} {v v' : Pool}

omit [DecidableEq P] in
theorem accounts (h : Agree ledgers u) (hp : u.pool p = some v) : (ledgers p).Accounts v := by
  have hl := h p
  rwa [hp] at hl

/-- A call on one pool, which the ledgers of the others leave out. -/
theorem setPool (h : Agree ledgers u) (hothers : ∀ q, q ≠ p → ledgers' q = ledgers q)
    (hself : (ledgers' p).Accounts v') : Agree ledgers' (u.setPool p v') := by
  intro q
  by_cases hqp : q = p
  · subst hqp
    rw [Pools.setPool_self]
    exact hself
  · rw [hothers q hqp]
    simpa [Pools.setPool, hqp] using h q

theorem putFromCb (h : Agree ledgers u) (hp : u.pool p = some v) (b : ℕ)
    (hnoted : ∀ q, ledgers' q = if (v.putFromCb b).2 = .ok ∧ p = q then
      { ledgers q with held := (ledgers q).held.erase b } else ledgers q) :
    Agree ledgers' (u.setPool p (v.putFromCb b).1) := by
  have hv := h.accounts hp
  refine h.setPool (fun q hqp => by rw [hnoted, if_neg (fun hc => hqp hc.2.symm)]) ?_
  rw [hnoted]
  unfold Pool.putFromCb
  split
  next hb =>
    rw [if_pos ⟨rfl, rfl⟩]
    exact hv.put hb.1 hb.2
  next hb =>
    rw [if_neg (by simp)]
    exact hv

theorem init {wordBits : ℕ} {blocks : UInt16} {blockSize : UInt32} {membuf : Option ℕ}
    {name : List UInt8} {ext : Bool} (h : Agree ledgers u)
    (hnoted : ∀ q, ledgers' q =
      if (u.init wordBits p blocks blockSize membuf name ext).2 = .rc .ok ∧ p = q then
        ⟨true, [], 0⟩ else ledgers q) :
    Agree ledgers' (u.init wordBits p blocks blockSize membuf name ext).1 := by
  unfold Pools.init at hnoted ⊢
  by_cases hrc : initRc wordBits blocks blockSize membuf = .ok
  · simp only [if_pos hrc, true_and] at hnoted ⊢
    have hset : Agree ledgers'
        (u.setPool p (.fresh wordBits blocks blockSize membuf name ext)) := by
      refine h.setPool (fun q hqp => by rw [hnoted, if_neg hqp.symm]) ?_
      rw [hnoted, if_pos rfl]
      exact ⟨rfl, .refl _, by simp [Pool.fresh]⟩
    exact hset
  · simp only [PoolRet.rc.injEq, hrc, false_and, if_false] at hnoted ⊢
    intro q
    rw [hnoted]
    exact h q

/-- A call that the ledgers do not note, on a pool that keeps its blocks. -/
theorem unnoted (h : Agree ledgers u) (hp : u.pool p = some v) (hblocks : v'.blocks = v.blocks)
    (hfree : v'.free = v.free) (hlow : v'.low = v.low) : Agree ledgers (u.setPool p v') :=
  h.setPool (fun _ _ => rfl) ((h.accounts hp).congr hblocks hfree hlow)

theorem clear (h : Agree ledgers u) (hp : u.pool p = some v) (hblocks : v'.blocks = v.blocks)
    (hfree : v'.free = v.blocks) (hlow : v'.low = v.blocks.length) :
    Agree (fun q => if p = q then ⟨(ledgers q).used, [], 0⟩ else ledgers q) (u.setPool p v') := by
  refine h.setPool (fun q hqp => if_neg hqp.symm) ?_
  rw [if_pos rfl]
  exact (h.accounts hp).clear.congr hblocks hfree hlow

theorem get (h : Agree ledgers u) (hp : u.pool p = some v) :
    Agree (fun q => (ledgers q).note q (.get p, .block v.get.2)) (u.setPool p v.get.1) := by
  unfold Pool.get
  cases hfree : v.free with
  | nil => exact h.unnoted hp rfl rfl rfl
  | cons b rest =>
    refine h.setPool (fun q hqp => if_neg hqp.symm) ?_
    dsimp only [Ledger.note]
    rw [if_pos rfl]
    exact (h.accounts hp).get hfree

theorem put (h : Agree ledgers u) (hp : u.pool p = some v) (b : ℕ) :
    Agree (fun q => (ledgers q).note q (.put p b, .put (v.put b).2))
      (u.setPool p (v.put b).1) := by
  unfold Pool.put
  by_cases hb : b = 0
  · simp only [if_pos hb]
    exact h.unnoted hp rfl rfl rfl
  · simp only [if_neg hb]
    cases hcb : v.putCb with
    | some cb => exact h.unnoted hp rfl rfl rfl
    | none =>
      refine h.putFromCb hp b (fun q => ?_)
      cases hrc : (v.putFromCb b).2 <;> simp [Ledger.note]

theorem step {wordBits : ℕ} (h : Agree ledgers u) {c : PoolCall P} {r : PoolRet P}
    (hstep : u.step wordBits c = some (u', r)) :
    Agree (fun mp => (ledgers mp).note mp (c, r)) u' := by
  cases c with
  | moduleInit =>
    simp only [Pools.step, Option.some.injEq, Prod.mk.injEq] at hstep
    obtain ⟨rfl, rfl⟩ := hstep
    exact fun _ => rfl
  | init p blocks blockSize membuf name =>
    simp only [Pools.step, Option.some.injEq] at hstep
    obtain rfl := congrArg Prod.fst hstep
    obtain rfl := congrArg Prod.snd hstep
    refine h.init (fun q => ?_)
    unfold Pools.init
    cases initRc wordBits blocks blockSize membuf <;> simp [Ledger.note]
  | extInit p blocks blockSize membuf name =>
    simp only [Pools.step, Option.some.injEq] at hstep
    obtain rfl := congrArg Prod.fst hstep
    obtain rfl := congrArg Prod.snd hstep
    refine h.init (fun q => ?_)
    unfold Pools.init
    cases initRc wordBits blocks blockSize membuf <;> simp [Ledger.note]
  | unregister p =>
    simp only [Pools.step, Option.some.injEq, Prod.mk.injEq] at hstep
    obtain ⟨rfl, rfl⟩ := hstep
    unfold Pools.unregister
    split <;> exact h
  | clear p =>
    simp only [Pools.step, Option.map_eq_some_iff, Prod.mk.injEq] at hstep
    obtain ⟨v, hv, rfl, rfl⟩ := hstep
    exact h.clear hv rfl rfl rfl
  | extClear p =>
    simp only [Pools.step, Option.map_eq_some_iff, Prod.mk.injEq] at hstep
    obtain ⟨v, hv, rfl, rfl⟩ := hstep
    exact h.clear hv rfl rfl rfl
  | setPutCb p cb =>
    simp only [Pools.step, Option.map_eq_some_iff, Prod.mk.injEq] at hstep
    obtain ⟨v, hv, rfl, rfl⟩ := hstep
    exact h.unnoted hv rfl rfl rfl
  | isSane p =>
    simp only [Pools.step, Option.map_eq_some_iff, Prod.mk.injEq] at hstep
    obtain ⟨v, hv, rfl, rfl⟩ := hstep
    exact h
  | memblockFrom p addr =>
    simp only [Pools.step, Option.map_eq_some_iff, Prod.mk.injEq] at hstep
    obtain ⟨v, hv, rfl, rfl⟩ := hstep
    exact h
  | get p =>
    simp only [Pools.step, Option.map_eq_some_iff, Prod.mk.injEq] at hstep
    obtain ⟨v, hv, rfl, rfl⟩ := hstep
    exact h.get hv
  | put p addr =>
    simp only [Pools.step, Option.map_eq_some_iff, Prod.mk.injEq] at hstep
    obtain ⟨v, hv, rfl, rfl⟩ := hstep
    exact h.put hv addr
  | putFromCb p addr =>
    simp only [Pools.step, Option.map_eq_some_iff, Prod.mk.injEq] at hstep
    obtain ⟨v, hv, rfl, rfl⟩ := hstep
    refine h.putFromCb hv addr (fun q => ?_)
    cases hrc : (v.putFromCb addr).2 <;> simp [Ledger.note]
  | infoGetNext mp =>
    simp only [Pools.step, Option.some.injEq, Prod.mk.injEq] at hstep
    obtain ⟨rfl, rfl⟩ := hstep
    exact h
  | write addr word =>
    simp only [Pools.step, Option.some.injEq, Prod.mk.injEq] at hstep
    obtain ⟨rfl, rfl⟩ := hstep
    exact h

theorem run {wordBits : ℕ} {calls : List (PoolCall P)} {rets : List (PoolRet P)}
    (h : Agree ledgers u) (htrace : trace (Pools.step wordBits) u calls = some (u', rets)) :
    Agree (fun mp => (calls.zip rets).foldl (Ledger.note mp) (ledgers mp)) u' := by
  induction calls generalizing ledgers u rets with
  | nil =>
    simp only [trace, Option.some.injEq, Prod.mk.injEq] at htrace
    obtain ⟨rfl, rfl⟩ := htrace
    exact h
  | cons c calls ih =>
    simp only [trace, Option.bind_eq_some_iff, Option.map_eq_some_iff, Prod.mk.injEq] at htrace
    obtain ⟨⟨u₁, r⟩, hstep, ⟨u₂, rest⟩, hrest, rfl, rfl⟩ := htrace
    exact ih (h.step hstep) hrest

end Agree

/-- Blocks at different places of one buffer are a stride apart. -/
theorem apart_of_ne {stride base n b c k : ℕ} (hk : k ≤ stride)
    (hb : b ∈ blockAddrs stride base n) (hc : c ∈ blockAddrs stride base n) (hne : b ≠ c) :
    Apart b k c k := by
  obtain ⟨i, -, rfl⟩ := mem_blockAddrs.mp hb
  obtain ⟨j, -, rfl⟩ := mem_blockAddrs.mp hc
  obtain hij | rfl | hij := lt_trichotomy i j
  · have hle := Nat.mul_le_mul_right stride (Nat.succ_le_of_lt hij)
    rw [Nat.succ_mul] at hle
    left
    omega
  · exact absurd rfl hne
  · have hle := Nat.mul_le_mul_right stride (Nat.succ_le_of_lt hij)
    rw [Nat.succ_mul] at hle
    right
    omega

/-- The blocks that clients hold and those on the free list are the blocks of the pool, each
once; `mp_num_free` counts the latter, and `mp_min_free` is what was left when most were held.
No byte belongs to two held blocks, of one pool or of two. -/
structure Exclusive (wordBits : ℕ) (s : MemPools P) (ledgers : P → Ledger) : Prop where
  blocks : ∀ p, (ledgers p).used = true → ∃ free, Visits s.next (s.pool p).first free ∧
    ((ledgers p).held ++ free).Perm (blockAddrs
      ((s.pool p).trueBlockSize wordBits) (s.pool p).membufAddr (s.pool p).numBlocks)
  numFree : ∀ p, (ledgers p).used = true →
    (s.pool p).numFree + (ledgers p).held.length = (s.pool p).numBlocks
  minFree : ∀ p, (ledgers p).used = true →
    (s.pool p).minFree + (ledgers p).most = (s.pool p).numBlocks
  apart : ∀ p q, (ledgers p).used = true → (ledgers q).used = true →
    ∀ b ∈ (ledgers p).held, ∀ c ∈ (ledgers q).held, (p, b) ≠ (q, c) →
      Apart b (s.pool p).blockSize c (s.pool q).blockSize

theorem Represents.exclusive {wordBits : ℕ} {s : MemPools P} {u : Pools P} {ledgers : P → Ledger}
    (h : Represents wordBits s u) (hagree : Agree ledgers u) : Exclusive wordBits s ledgers := by
  have hused : ∀ p, (ledgers p).used = true →
      ∃ v, u.pool p = some v ∧ (ledgers p).Accounts v := by
    intro p hp
    have hl := hagree p
    cases hv : u.pool p with
    | none =>
      rw [hv] at hl
      exact absurd (hp.symm.trans hl) (by simp)
    | some v => exact ⟨v, rfl, hagree.accounts hv⟩
  constructor
  case blocks =>
    intro p hp
    obtain ⟨v, hv, hl⟩ := hused p hp
    have hholds := h.pools p v hv
    refine ⟨v.free, hholds.chain, ?_⟩
    rw [← hholds.blocks]
    exact hl.blocks
  case numFree =>
    intro p hp
    obtain ⟨v, hv, hl⟩ := hused p hp
    have hholds := h.pools p v hv
    have hlength := hl.length
    rw [hholds.length_blocks] at hlength
    rw [hholds.numFree]
    omega
  case minFree =>
    intro p hp
    obtain ⟨v, hv, hl⟩ := hused p hp
    have hholds := h.pools p v hv
    rw [hholds.low, ← hholds.length_blocks]
    exact hl.low
  case apart =>
    intro p q hp hq b hb c hc hne
    obtain ⟨v, hv, hl⟩ := hused p hp
    obtain ⟨w, hw, hm⟩ := hused q hq
    have hpv := h.pools p v hv
    have hqw := h.pools q w hw
    have hb : b ∈ v.blocks := hl.blocks.mem_iff.mp (List.mem_append_left _ hb)
    have hc : c ∈ w.blocks := hm.blocks.mem_iff.mp (List.mem_append_left _ hc)
    by_cases hpq : p = q
    · subst hpq
      obtain rfl := Option.some.inj (hv.symm.trans hw)
      rw [hpv.blocks] at hb hc
      exact apart_of_ne hpv.blockSize_le hb hc (fun heq => hne (by rw [heq]))
    · have happart := h.apart p q v w hpq hv hw b hb c hc
      have hple := hpv.blockSize_le
      have hqle := hqw.blockSize_le
      rw [hpv.stride, hqw.stride] at happart
      unfold Apart at happart ⊢
      omega

/-- Every run of calls that keeps to the contract hands out blocks exclusively. -/
theorem held_blocks_exclusive [Fintype P] (wordBits : ℕ) (calls : List (PoolCall P))
    (hcalls : Keeps (silent (Pools.step wordBits)) (Contract wordBits) Pools.boot calls) :
    ∃ s rets, trace (poolStep wordBits) MemPools.boot calls = some (s, rets) ∧
      Exclusive wordBits s (fun p => ledger p calls rets) := by
  obtain ⟨s, u, rets, hs, hu, hrep⟩ :=
    trace_simulates_spec (fun _ _ _ h hc => Represents.step h hc) .boot hcalls
  have hboot : Agree (fun _ => ⟨false, [], 0⟩) (Pools.boot : Pools P) := fun _ => rfl
  exact ⟨s, rets, hs, hrep.exclusive (hboot.run hu)⟩

theorem held_blocks_exclusive_of_two_pools :
    let calls : List (PoolCall Bool) :=
      [.init false 3 10 (some 0x1000) [], .extInit true 2 8 (some 0x2000) [], .get false,
        .get true, .get false, .write 0x1000 none, .put false 0x1000, .put false 0x1000]
    ∃ s rets, trace (poolStep 16) MemPools.boot calls = some (s, rets) ∧
      Exclusive 16 s (fun p => ledger p calls rets) :=
  held_blocks_exclusive 16 _ (by decide)

end NimbleRs.MemPool
