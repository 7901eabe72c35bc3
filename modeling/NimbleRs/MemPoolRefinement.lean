import NimbleRs.MemPool
import NimbleRs.TransitionSystem

/-!
# Memory pools refine stacks of free blocks

What a pool is for is a set of blocks, each of which is either free or held by a client,
and the free ones are handed out last in, first out. A client that holds a block may write
into it, the link word included. `Represents` relates this view of any number of pools to the
structures of `os_mempool.c`, and each call keeps it and returns the same on both sides.
-/
namespace NimbleRs.MemPool
open PointerChain TransitionSystem

structure Pool where
  blockSize : ℕ
  /-- The distance from a block to the next one of the buffer. -/
  stride : ℕ
  name : List UInt8
  ext : Bool
  putCb : Option ℕ
  blocks : List ℕ
  /-- The free blocks, the next one to hand out first. -/
  free : List ℕ
  /-- The fewest blocks that have been free. -/
  low : ℕ

/-- The pools in use since `os_mempool_module_init`, and the registered ones in order. -/
structure Pools (P : Type*) where
  pool : P → Option Pool
  registered : List P

inductive PoolCall (P : Type*)
  | moduleInit
  | init (mp : P) (blocks : UInt16) (blockSize : UInt32) (membuf : Option ℕ) (name : List UInt8)
  | extInit (mp : P) (blocks : UInt16) (blockSize : UInt32) (membuf : Option ℕ) (name : List UInt8)
  | unregister (mp : P)
  | clear (mp : P)
  | extClear (mp : P)
  | setPutCb (mp : P) (cb : Option ℕ)
  | isSane (mp : P)
  | memblockFrom (mp : P) (blockAddr : ℕ)
  | get (mp : P)
  | put (mp : P) (blockAddr : ℕ)
  | putFromCb (mp : P) (blockAddr : ℕ)
  | infoGetNext (mp : Option P)
  /-- A client writes to the first word at an address. -/
  | write (addr : ℕ) (word : Option ℕ)

inductive PoolRet (P : Type*)
  | done
  | rc (rc : OsError)
  | put (ret : PutRet)
  | block (addr : Option ℕ)
  | bool (b : Bool)
  | info (next : Option (P × OsMempoolInfo))
  deriving DecidableEq

variable {P : Type*} [DecidableEq P]

def poolStep [Fintype P] (wordBits : ℕ) (s : MemPools P) :
    PoolCall P → Option (MemPools P × PoolRet P)
  | .moduleInit => some (osMempoolModuleInit s, .done)
  | .init mp blocks blockSize membuf name =>
    let (s, rc) := osMempoolInit wordBits s mp blocks blockSize membuf name
    some (s, .rc rc)
  | .extInit mp blocks blockSize membuf name =>
    let (s, rc) := osMempoolExtInit wordBits s mp blocks blockSize membuf name
    some (s, .rc rc)
  | .unregister mp => (osMempoolUnregister s mp).map fun r => (r.1, .rc r.2)
  | .clear mp => (osMempoolClear wordBits s mp).map fun s => (s, .rc .ok)
  | .extClear mp => (osMempoolExtClear wordBits s mp).map fun s => (s, .rc .ok)
  | .setPutCb mp cb => some (s.setPool mp { s.pool mp with putCb := cb }, .done)
  | .isSane mp => (osMempoolIsSane wordBits s mp).map fun b => (s, .bool b)
  | .memblockFrom mp addr => some (s, .bool (osMemblockFrom wordBits (s.pool mp) addr))
  | .get mp => (osMemblockGet s mp).map fun r => (r.1, .block r.2)
  | .put mp addr => (osMemblockPut wordBits s mp addr).map fun r => (r.1, .put r.2)
  | .putFromCb mp addr => (osMemblockPutFromCb wordBits s mp addr).map fun r => (r.1, .rc r.2)
  | .infoGetNext mp => some (s, .info (osMempoolInfoGetNext s mp))
  | .write addr word => some ({ s with next := Function.update s.next addr word }, .done)

namespace Pool

def get (v : Pool) : Pool × Option ℕ :=
  match v.free with
  | [] => (v, none)
  | b :: rest => ({ v with free := rest, low := min v.low rest.length }, some b)

/-- A block of the pool that is not free becomes the next one to hand out. -/
def putFromCb (v : Pool) (b : ℕ) : Pool × OsError :=
  if b ∈ v.blocks ∧ b ∉ v.free then ({ v with free := b :: v.free }, .ok) else (v, .invalidParm)

def put (v : Pool) (b : ℕ) : Pool × PutRet :=
  if b = 0 then (v, .err .invalidParm)
  else
    match v.putCb with
    | some cb => (v, .called cb b)
    | none => ((v.putFromCb b).1, .err (v.putFromCb b).2)

def clear (v : Pool) : Pool := { v with free := v.blocks, low := v.blocks.length }

def setPutCb (v : Pool) (cb : Option ℕ) : Pool := { v with putCb := if v.ext then cb else none }

def info (v : Pool) : OsMempoolInfo :=
  ⟨v.blockSize, v.blocks.length, v.free.length, v.low, v.name.take 31⟩

def fresh (wordBits : ℕ) (blocks : UInt16) (blockSize : UInt32) (membuf : Option ℕ)
    (name : List UInt8) (ext : Bool) : Pool :=
  let stride := osAlign blockSize.toNat (osAlignment wordBits)
  let addrs := blockAddrs stride (membuf.getD 0) blocks.toNat
  ⟨blockSize.toNat, stride, name, ext, none, addrs, addrs, blocks.toNat⟩

end Pool

/-- What `os_mempool_init` says of its arguments. -/
def initRc (wordBits : ℕ) (blocks : UInt16) (blockSize : UInt32) (membuf : Option ℕ) : OsError :=
  if blockSize = 0 then .invalidParm
  else if membuf.isNone && blocks ≠ 0 then .invalidParm
  else if membuf.any (fun addr => addr % 2 ^ 32 % osAlignment wordBits ≠ 0) then .memNotAligned
  else .ok

namespace Pools

def boot : Pools P := ⟨fun _ => none, []⟩

def setPool (u : Pools P) (mp : P) (v : Pool) : Pools P :=
  { u with pool := Function.update u.pool mp (some v) }

theorem setPool_self (u : Pools P) (mp : P) (v : Pool) : (u.setPool mp v).pool mp = some v := by
  simp [setPool]

def init (wordBits : ℕ) (u : Pools P) (mp : P) (blocks : UInt16) (blockSize : UInt32)
    (membuf : Option ℕ) (name : List UInt8) (ext : Bool) : Pools P × PoolRet P :=
  let rc := initRc wordBits blocks blockSize membuf
  if rc = .ok then
    (⟨Function.update u.pool mp (some (.fresh wordBits blocks blockSize membuf name ext)),
      u.registered ++ [mp]⟩, .rc .ok)
  else (u, .rc rc)

def unregister (u : Pools P) (mp : P) : Pools P × OsError :=
  if mp ∈ u.registered then ({ u with registered := u.registered.erase mp }, .ok)
  else (u, .invalidParm)

/-- The pool after `mp` in the order of registration, or the first one. -/
def after (u : Pools P) (mp : Option P) : Option P :=
  match mp with
  | none => u.registered[0]?
  | some mp => u.registered[u.registered.idxOf mp + 1]?

def step (wordBits : ℕ) (u : Pools P) : PoolCall P → Option (Pools P × PoolRet P)
  | .moduleInit => some (boot, .done)
  | .init mp blocks blockSize membuf name =>
    some (u.init wordBits mp blocks blockSize membuf name false)
  | .extInit mp blocks blockSize membuf name =>
    some (u.init wordBits mp blocks blockSize membuf name true)
  | .unregister mp => some ((u.unregister mp).1, .rc (u.unregister mp).2)
  | .clear mp => (u.pool mp).map fun v => (u.setPool mp v.clear, .rc .ok)
  | .extClear mp =>
    (u.pool mp).map fun v => (u.setPool mp { v.clear with ext := false, putCb := none }, .rc .ok)
  | .setPutCb mp cb => (u.pool mp).map fun v => (u.setPool mp (v.setPutCb cb), .done)
  | .isSane mp => (u.pool mp).map fun _ => (u, .bool true)
  | .memblockFrom mp addr => (u.pool mp).map fun v => (u, .bool (decide (addr ∈ v.blocks)))
  | .get mp => (u.pool mp).map fun v => (u.setPool mp v.get.1, .block v.get.2)
  | .put mp addr => (u.pool mp).map fun v => (u.setPool mp (v.put addr).1, .put (v.put addr).2)
  | .putFromCb mp addr =>
    (u.pool mp).map fun v => (u.setPool mp (v.putFromCb addr).1, .rc (v.putFromCb addr).2)
  | .infoGetNext mp =>
    some (u, .info ((u.after mp).bind fun q => (u.pool q).map fun v => (q, v.info)))
  | .write _ _ => some (u, .done)

end Pools

/-- The `n` bytes from `b` on and the `k` bytes from `c` on have no byte in common. -/
def Apart (b n c k : ℕ) : Prop := b + n ≤ c ∨ c + k ≤ b

instance (b n c k : ℕ) : Decidable (Apart b n c k) := inferInstanceAs (Decidable (_ ∨ _))

/-- The buffer that a pool is given: below 4 GiB, within the address space, and apart from the
blocks of the pools in use. A pool without blocks has no buffer. -/
structure FreshBuffer (wordBits : ℕ) (u : Pools P) (mp : P) (blocks : UInt16) (blockSize : UInt32)
    (membuf : Option ℕ) : Prop where
  unregistered : mp ∉ u.registered
  empty : blocks = 0 → membuf = none
  not_null : ∀ addr, membuf = some addr → addr ≠ 0
  size : blockSize.toNat + osAlignment wordBits < 2 ^ 32
  bytes : blocks.toNat * osAlign blockSize.toNat (osAlignment wordBits) < 2 ^ 32
  stop : membuf.getD 0 + blocks.toNat * osAlign blockSize.toNat (osAlignment wordBits) <
    2 ^ wordBits
  apart : ∀ q, q ≠ mp → ∀ v, u.pool q = some v → ∀ b ∈ v.blocks,
    ∀ c ∈ blockAddrs (osAlign blockSize.toNat (osAlignment wordBits)) (membuf.getD 0) blocks.toNat,
      Apart b v.stride c (osAlign blockSize.toNat (osAlignment wordBits))

/-- What the clients of the pools keep to: a pool that they initialize is not registered and
is given a fresh buffer, or none for no blocks; the pools that they use are in use, and those
that they clear have blocks; and they write to no free block. They may put back anything. -/
def Contract (wordBits : ℕ) (u : Pools P) : PoolCall P → Prop
  | .moduleInit | .unregister _ => True
  | .init mp blocks blockSize membuf _ | .extInit mp blocks blockSize membuf _ =>
    FreshBuffer wordBits u mp blocks blockSize membuf
  | .clear mp | .extClear mp =>
    (u.pool mp).isSome = true ∧ ∀ v, u.pool mp = some v → v.blocks ≠ []
  | .setPutCb mp _ | .isSane mp | .memblockFrom mp _ | .get mp | .put mp _ | .putFromCb mp _ =>
    (u.pool mp).isSome = true
  | .infoGetNext mp => ∀ q, mp = some q → q ∈ u.registered
  | .write addr _ => ∀ q v, u.pool q = some v → addr ∉ v.free

section Decidable
variable [Fintype P] {wordBits : ℕ} {u : Pools P}

instance {mp : P} {blocks : UInt16} {blockSize : UInt32} {membuf : Option ℕ} :
    Decidable (FreshBuffer wordBits u mp blocks blockSize membuf) :=
  decidable_of_iff (mp ∉ u.registered ∧ (blocks = 0 → membuf = none) ∧
      (∀ addr, membuf = some addr → addr ≠ 0) ∧
      blockSize.toNat + osAlignment wordBits < 2 ^ 32 ∧
      blocks.toNat * osAlign blockSize.toNat (osAlignment wordBits) < 2 ^ 32 ∧
      membuf.getD 0 + blocks.toNat * osAlign blockSize.toNat (osAlignment wordBits) <
        2 ^ wordBits ∧
      ∀ q, q ≠ mp → ∀ v, u.pool q = some v → ∀ b ∈ v.blocks,
        ∀ c ∈ blockAddrs (osAlign blockSize.toNat (osAlignment wordBits)) (membuf.getD 0)
          blocks.toNat, Apart b v.stride c (osAlign blockSize.toNat (osAlignment wordBits)))
    ⟨fun ⟨h₁, h₂, h₃, h₄, h₅, h₆, h₇⟩ => ⟨h₁, h₂, h₃, h₄, h₅, h₆, h₇⟩,
      fun ⟨h₁, h₂, h₃, h₄, h₅, h₆, h₇⟩ => ⟨h₁, h₂, h₃, h₄, h₅, h₆, h₇⟩⟩

instance : ∀ c, Decidable (Contract wordBits u c)
  | .moduleInit | .unregister _ => .isTrue trivial
  | .init mp blocks blockSize membuf _ | .extInit mp blocks blockSize membuf _ =>
    inferInstanceAs (Decidable (FreshBuffer wordBits u mp blocks blockSize membuf))
  | .clear mp | .extClear mp =>
    inferInstanceAs (Decidable ((u.pool mp).isSome = true ∧
      ∀ v, u.pool mp = some v → v.blocks ≠ []))
  | .setPutCb mp _ | .isSane mp | .memblockFrom mp _ | .get mp | .put mp _ | .putFromCb mp _ =>
    inferInstanceAs (Decidable ((u.pool mp).isSome = true))
  | .infoGetNext mp => inferInstanceAs (Decidable (∀ q, mp = some q → q ∈ u.registered))
  | .write addr _ =>
    inferInstanceAs (Decidable (∀ q, ∀ v, u.pool q = some v → addr ∉ v.free))

end Decidable

/-- A pool structure and the links of its free blocks stand for a pool. -/
structure Holds (wordBits : ℕ) (next : ℕ → Option ℕ) (m : OsMempool) (v : Pool) : Prop where
  fits : m.Fits wordBits
  addr : m.numBlocks ≠ 0 → m.membufAddr ≠ 0
  count : m.numBlocks < 2 ^ 16
  stride : v.stride = m.trueBlockSize wordBits
  blockSize_le : m.blockSize ≤ m.trueBlockSize wordBits
  blocks : v.blocks = blockAddrs (m.trueBlockSize wordBits) m.membufAddr m.numBlocks
  blockSize : v.blockSize = m.blockSize
  name : v.name = m.name
  ext : v.ext = m.ext
  putCb : v.putCb = if m.ext then m.putCb else none
  chain : Visits next m.first v.free
  free : v.free ⊆ v.blocks
  numFree : m.numFree = v.free.length
  low : m.minFree = v.low

namespace Holds

variable {wordBits : ℕ} {next next' : ℕ → Option ℕ} {m : OsMempool} {v : Pool}

theorem stride_pos (h : Holds wordBits next m v) : 0 < v.stride := by
  rw [h.stride]
  exact h.fits.stride

theorem length_blocks (h : Holds wordBits next m v) : v.blocks.length = m.numBlocks := by
  rw [h.blocks, length_blockAddrs]

theorem length_le (h : Holds wordBits next m v) : v.free.length ≤ m.numBlocks := by
  rw [← h.length_blocks]
  exact ((visits_nodup h.chain).subperm h.free).length_le

/-- As long as a block is not free, not all are. -/
theorem length_lt (h : Holds wordBits next m v) {b : ℕ} (hb : b ∈ v.blocks) (hfree : b ∉ v.free) :
    v.free.length < m.numBlocks := by
  have hnodup : (b :: v.free).Nodup := List.nodup_cons.mpr ⟨hfree, visits_nodup h.chain⟩
  have hsub : b :: v.free ⊆ v.blocks := List.cons_subset.mpr ⟨hb, h.free⟩
  have hle := (hnodup.subperm hsub).length_le
  rw [h.length_blocks] at hle
  simpa using hle

theorem memblockFrom (h : Holds wordBits next m v) (b : ℕ) :
    osMemblockFrom wordBits m b = decide (b ∈ v.blocks) := by
  rw [Bool.eq_iff_iff, osMemblockFrom_iff h.fits, h.blocks, decide_eq_true_iff]

/-- Only the links of the free blocks matter. -/
theorem congr (h : Holds wordBits next m v) (hnext : ∀ b ∈ v.free, next' b = next b) :
    Holds wordBits next' m v :=
  { h with chain := h.chain.congr hnext }

theorem pop (h : Holds wordBits next m v) {b : ℕ} {rest : List ℕ} (hfree : v.free = b :: rest)
    {numFree minFree : ℕ} (hnum : numFree = rest.length) (hmin : minFree = min v.low rest.length) :
    Holds wordBits next { m with first := next b, numFree := numFree, minFree := minFree }
      { v with free := rest, low := min v.low rest.length } := by
  have hchain := h.chain
  rw [hfree] at hchain
  have hsub := h.free
  rw [hfree] at hsub
  exact { h with
    fits := ⟨h.fits.stride, h.fits.bytes, h.fits.stop⟩
    chain := hchain.2
    free := (List.cons_subset.mp hsub).2
    numFree := hnum
    low := hmin }

theorem push (h : Holds wordBits next m v) {b : ℕ} (hb : b ∈ v.blocks) (hfree : b ∉ v.free) :
    Holds wordBits (Function.update next b m.first)
      { m with first := some b, numFree := (m.numFree + 1) % 2 ^ 16 }
      { v with free := b :: v.free } := by
  have hlt := h.length_lt hb hfree
  have hcount := h.count
  have hnum := h.numFree
  have hchain : Visits (Function.update next b m.first) (some b) (b :: v.free) := by
    refine ⟨rfl, ?_⟩
    rw [Function.update_self]
    refine h.chain.congr (fun c hc => Function.update_of_ne ?_ _ _)
    rintro rfl
    exact hfree hc
  exact { h with
    fits := ⟨h.fits.stride, h.fits.bytes, h.fits.stop⟩
    chain := hchain
    free := List.cons_subset.mpr ⟨hb, h.free⟩
    numFree := by simp only [List.length_cons]; omega }

end Holds

theorem not_apart_self {b n k : ℕ} (hn : 0 < n) (hk : 0 < k) : ¬ Apart b n b k := by
  unfold Apart
  omega

/-- The pool structures and the global list stand for pools in use and their registration. -/
structure Represents (wordBits : ℕ) (s : MemPools P) (u : Pools P) : Prop where
  pools : ∀ p v, u.pool p = some v → Holds wordBits s.next (s.pool p) v
  apart : ∀ p q v v', p ≠ q → u.pool p = some v → u.pool q = some v' → ∀ b ∈ v.blocks,
    ∀ c ∈ v'.blocks, Apart b v.stride c v'.stride
  chain : Visits s.list.next s.list.first u.registered
  last : s.list.last = u.registered.getLast?
  used : ∀ p ∈ u.registered, (u.pool p).isSome = true

namespace PoolList

variable {l : PoolList P} {reg : List P} {p : P}

/-- The tail pointer of a list that ends where it says takes a new pool. -/
theorem visits_insertTail (h : Visits l.next l.first reg) (hlast : l.last = reg.getLast?)
    (hp : p ∉ reg) : Visits (l.insertTail p).next (l.insertTail p).first (reg ++ [p]) := by
  have hchain : Visits l.next l.first (reg ++ []) := by rwa [List.append_nil]
  refine visits_link hchain ?_ ?_ ?_
  · by_cases hreg : reg = []
    · simp [insertTail, hlast, hreg]
    · obtain ⟨q, hq⟩ := Option.ne_none_iff_exists'.mp (mt List.getLast?_eq_none_iff.mp hreg)
      simp [insertTail, hlast, hq, hreg]
  · cases hq : l.last with
    | none => simp [insertTail, hq]
    | some q =>
      have hne : p ≠ q := by
        rintro rfl
        exact hp (List.mem_of_getLast? (hlast ▸ hq))
      simp [insertTail, hq, hne]
  · intro b hb
    have hbp : b ≠ p := by
      rintro rfl
      exact hp (by simpa using hb)
    rw [← hlast]
    cases hq : l.last with
    | none => simp [insertTail, hq, hbp]
    | some q => simp [insertTail, hq, hbp, Function.update_apply, eq_comm]

omit [DecidableEq P] in
theorem visits_removeHead {rest : List P} (h : Visits l.next l.first (p :: rest))
    (hlast : l.last = (p :: rest).getLast?) :
    Visits l.removeHead.next l.removeHead.first rest ∧ l.removeHead.last = rest.getLast? := by
  have hfirst : l.first.bind l.next = rest.head? := by
    rw [h.1, Option.bind_some, visits_head h.2]
  constructor
  · rw [removeHead, hfirst, ← visits_head h.2]
    exact h.2
  · rw [removeHead, hfirst]
    cases rest with
    | nil => simp
    | cons q rest => simp [hlast]

theorem visits_removeAfter {l₁ l₂ : List P} {prev : P} (h : Visits l.next l.first (l₁ ++ p :: l₂))
    (hlast : l.last = (l₁ ++ p :: l₂).getLast?) (hprev : l₁.getLast? = some prev) :
    Visits (l.removeAfter prev p).next (l.removeAfter prev p).first (l₁ ++ l₂) ∧
      (l.removeAfter prev p).last = (l₁ ++ l₂).getLast? := by
  have hl₁ : l₁ ≠ [] := by
    rintro rfl
    simp at hprev
  obtain ⟨r, -, -, h₂⟩ := segment_append.mp h
  have hnext : l.next p = l₂.head? := visits_head h₂
  have hcells : (l.removeAfter prev p).next = Function.update l.next prev (l.next p) ∧
      (l.removeAfter prev p).first = l.first := by
    simp only [removeAfter]
    split <;> exact ⟨rfl, rfl⟩
  constructor
  · rw [hcells.1, hcells.2]
    refine visits_unlink h (by rw [if_neg hl₁]) (fun b _ => ?_)
    simp [hprev, Function.update_apply, eq_comm]
  · rw [removeAfter, hnext]
    cases l₂ with
    | nil => simp [hprev]
    | cons q l₂ => simp [hlast, List.getLast?_cons]

end PoolList

namespace Represents

variable {wordBits : ℕ} {s : MemPools P} {u : Pools P} {p : P} {v : Pool}

omit [DecidableEq P] in
theorem boot : Represents wordBits (MemPools.boot : MemPools P) Pools.boot := by
  constructor
  case chain => exact rfl
  case last => rfl
  all_goals simp [Pools.boot]

/-- A call that works on one pool and writes links of its blocks only. -/
theorem update (h : Represents wordBits s u) {m' : OsMempool} {next' : ℕ → Option ℕ} {v' : Pool}
    (hholds : Holds wordBits next' m' v') (hframe : ∀ b, b ∉ v'.blocks → next' b = s.next b)
    (hapart : ∀ q, q ≠ p → ∀ w, u.pool q = some w → ∀ b ∈ w.blocks, ∀ c ∈ v'.blocks,
      Apart b w.stride c v'.stride) :
    Represents wordBits ⟨Function.update s.pool p m', next', s.list⟩ (u.setPool p v') := by
  have hother : ∀ q w, (u.setPool p v').pool q = some w →
      q = p ∧ w = v' ∨ q ≠ p ∧ u.pool q = some w := by
    intro q w hq
    by_cases hqp : q = p
    · subst hqp
      exact .inl ⟨rfl, by simpa [Pools.setPool, eq_comm] using hq⟩
    · exact .inr ⟨hqp, by simpa [Pools.setPool, hqp] using hq⟩
  constructor
  case pools =>
    intro q w hq
    obtain ⟨rfl, rfl⟩ | ⟨hqp, hq⟩ := hother q w hq
    · simpa using hholds
    · have hw := h.pools q w hq
      simp only [Function.update_of_ne hqp]
      refine hw.congr (fun b hb => hframe b (fun hb' => ?_))
      exact not_apart_self hw.stride_pos hholds.stride_pos (hapart q hqp w hq b (hw.free hb) b hb')
  case apart =>
    intro q r w w' hqr hq hr b hb c hc
    obtain ⟨rfl, rfl⟩ | ⟨hqp, hq₀⟩ := hother q w hq
    · obtain ⟨rfl, -⟩ | ⟨hrp, hr₀⟩ := hother r w' hr
      · exact absurd rfl hqr
      · exact (hapart r hrp w' hr₀ c hc b hb).symm
    · obtain ⟨-, rfl⟩ | ⟨-, hr₀⟩ := hother r w' hr
      · exact hapart q hqp w hq₀ b hb c hc
      · exact h.apart q r w w' hqr hq₀ hr₀ b hb c hc
  case chain => exact h.chain
  case last => exact h.last
  case used =>
    intro q hq
    by_cases hqp : q = p
    · simp [Pools.setPool, hqp]
    · simpa [Pools.setPool, hqp] using h.used q hq

/-- The same for a call that leaves the pool its blocks. -/
theorem update_same (h : Represents wordBits s u) (hp : u.pool p = some v) {m' : OsMempool}
    {next' : ℕ → Option ℕ} {v' : Pool} (hholds : Holds wordBits next' m' v')
    (hblocks : v'.blocks = v.blocks) (hstride : v'.stride = v.stride)
    (hframe : ∀ b, b ∉ v.blocks → next' b = s.next b) :
    Represents wordBits ⟨Function.update s.pool p m', next', s.list⟩ (u.setPool p v') := by
  refine h.update hholds (by rwa [hblocks]) ?_
  rw [hblocks, hstride]
  exact fun q hqp w hq => h.apart q p w v hqp hq hp

theorem setPool_of_pool (hp : u.pool p = some v) : u.setPool p v = u := by
  simp [Pools.setPool, ← hp]

theorem get (h : Represents wordBits s u) (hp : u.pool p = some v) :
    ∃ s', osMemblockGet s p = some (s', v.get.2) ∧
      Represents wordBits s' (u.setPool p v.get.1) := by
  have hv := h.pools p v hp
  have hnum := hv.numFree
  unfold osMemblockGet
  cases hfree : v.free with
  | nil =>
    rw [hfree] at hnum
    refine ⟨s, by simp [hnum, Pool.get, hfree], ?_⟩
    simpa [Pool.get, hfree, setPool_of_pool hp] using h
  | cons b rest =>
    rw [hfree, List.length_cons] at hnum
    have hfirst : (s.pool p).first = some b := by
      rw [visits_head hv.chain, hfree, List.head?_cons]
    have hmin : (if (s.pool p).minFree > (s.pool p).numFree - 1 then (s.pool p).numFree - 1
        else (s.pool p).minFree) = min v.low rest.length := by
      rw [hv.low, hnum, Nat.add_sub_cancel]
      split <;> omega
    have hpop := hv.pop hfree (show (s.pool p).numFree - 1 = rest.length by omega) hmin
    refine ⟨_, by simp [hnum, hfirst, Pool.get, hfree]; rfl, ?_⟩
    have hkept := h.update_same hp hpop rfl rfl (fun _ _ => rfl)
    simpa [Pool.get, hfree, MemPools.setPool, hnum] using hkept

theorem putFromCb (h : Represents wordBits s u) (hp : u.pool p = some v) (b : ℕ) :
    ∃ s', osMemblockPutFromCb wordBits s p b = some (s', (v.putFromCb b).2) ∧
      Represents wordBits s' (u.setPool p (v.putFromCb b).1) := by
  have hv := h.pools p v hp
  simp only [osMemblockPutFromCb, hv.memblockFrom]
  by_cases hb : b ∈ v.blocks
  · obtain ⟨⟨prev, found⟩, hwalk, hfound⟩ :=
      walk_search hv.chain (Nat.lt_succ_of_le hv.length_le) b
    dsimp only at hfound
    by_cases hfree : b ∈ v.free
    · rw [if_pos hfree] at hfound
      subst hfound
      refine ⟨s, by simp [hb, hwalk, Pool.putFromCb, hfree], ?_⟩
      simpa [Pool.putFromCb, hfree, setPool_of_pool hp] using h
    · rw [if_neg hfree] at hfound
      subst hfound
      have hlt : ¬ (s.pool p).numBlocks ≤ (s.pool p).numFree := by
        have hlength := hv.length_lt hb hfree
        have hnum := hv.numFree
        omega
      refine ⟨_, by simp [hb, hwalk, Pool.putFromCb, hfree, hlt]; rfl, ?_⟩
      have hframe : ∀ c, c ∉ v.blocks →
          Function.update s.next b (s.pool p).first c = s.next c := by
        intro c hc
        refine Function.update_of_ne ?_ _ _
        rintro rfl
        exact hc hb
      have hkept := h.update_same hp (hv.push hb hfree) rfl rfl hframe
      simpa [Pool.putFromCb, hb, hfree] using hkept
  · refine ⟨s, by simp [hb, Pool.putFromCb], ?_⟩
    simpa [Pool.putFromCb, hb, setPool_of_pool hp] using h

theorem put (h : Represents wordBits s u) (hp : u.pool p = some v) (b : ℕ) :
    ∃ s', osMemblockPut wordBits s p b = some (s', (v.put b).2) ∧
      Represents wordBits s' (u.setPool p (v.put b).1) := by
  have hv := h.pools p v hp
  unfold osMemblockPut Pool.put
  by_cases hb : b = 0
  · exact ⟨s, by simp [hb], by simpa [hb, setPool_of_pool hp] using h⟩
  · rw [if_neg hb, if_neg hb, hv.putCb]
    obtain ⟨s', hs', hkept⟩ := h.putFromCb hp b
    cases hext : (s.pool p).ext with
    | false => exact ⟨s', by simp [hs'], by simpa using hkept⟩
    | true =>
      cases hcb : (s.pool p).putCb with
      | none => exact ⟨s', by simp [hs'], by simpa using hkept⟩
      | some cb => exact ⟨s, by simp, by simpa [setPool_of_pool hp] using h⟩

theorem setPutCb (h : Represents wordBits s u) (hp : u.pool p = some v) (cb : Option ℕ) :
    Represents wordBits (s.setPool p { s.pool p with putCb := cb })
      (u.setPool p (v.setPutCb cb)) := by
  have hv := h.pools p v hp
  refine h.update_same hp ?_ rfl rfl (fun _ _ => rfl)
  exact { hv with
    fits := ⟨hv.fits.stride, hv.fits.bytes, hv.fits.stop⟩
    putCb := by simp [Pool.setPutCb, hv.ext] }

omit [DecidableEq P] in
theorem isSane (h : Represents wordBits s u) (hp : u.pool p = some v) :
    osMempoolIsSane wordBits s p = some true := by
  have hv := h.pools p v hp
  have hall : ∀ b ∈ v.free, (!!osMemblockFrom wordBits (s.pool p) b) = true := by
    intro b hb
    simpa [hv.memblockFrom] using hv.free hb
  rw [osMempoolIsSane, walk_of_visits _ hv.chain (Nat.lt_succ_of_le hv.length_le),
    List.dropWhile_eq_nil_iff.mpr hall]
  rfl

/-- Clearing takes back all blocks, whoever holds them. -/
theorem clear (h : Represents wordBits s u) (hp : u.pool p = some v) (hblocks : v.blocks ≠ []) :
    ∃ s', osMempoolClear wordBits s p = some s' ∧ Represents wordBits s' (u.setPool p v.clear) := by
  have hv := h.pools p v hp
  have hn : (s.pool p).numBlocks ≠ 0 := by
    rw [← hv.length_blocks]
    exact fun hzero => hblocks (List.length_eq_zero_iff.mp hzero)
  refine ⟨_, by rw [osMempoolClear, if_neg (hv.addr hn)], ?_⟩
  refine h.update_same hp ?_ rfl rfl ?_
  · exact { hv with
      fits := ⟨hv.fits.stride, hv.fits.bytes, hv.fits.stop⟩
      chain := by
        rw [Pool.clear, hv.blocks]
        exact visits_buffer hv.fits.stride hn
      free := List.Subset.refl _
      numFree := hv.length_blocks.symm
      low := hv.length_blocks.symm }
  · intro b hb
    refine chainBlocks_of_not_mem ?_
    rwa [Nat.sub_add_cancel (Nat.one_le_iff_ne_zero.mpr hn), ← hv.blocks]

theorem extClear (h : Represents wordBits s u) (hp : u.pool p = some v) (hblocks : v.blocks ≠ []) :
    ∃ s', osMempoolExtClear wordBits s p = some s' ∧
      Represents wordBits s' (u.setPool p { v.clear with ext := false, putCb := none }) := by
  have hv := h.pools p v hp
  have hplain : Represents wordBits
      (s.setPool p { s.pool p with ext := false, putCb := none })
      (u.setPool p { v with ext := false, putCb := none }) := by
    refine h.update_same hp ?_ rfl rfl (fun _ _ => rfl)
    exact { hv with
      fits := ⟨hv.fits.stride, hv.fits.bytes, hv.fits.stop⟩
      ext := rfl
      putCb := rfl }
  obtain ⟨s', hs', hkept⟩ := hplain.clear (Pools.setPool_self _ _ _) hblocks
  refine ⟨s', hs', ?_⟩
  simpa [Pools.setPool, Pool.clear] using hkept

omit [DecidableEq P] in
/-- Only the list of pools is touched. -/
theorem setList (h : Represents wordBits s u) {l : PoolList P} {reg : List P}
    (hchain : Visits l.next l.first reg) (hlast : l.last = reg.getLast?)
    (hused : ∀ p ∈ reg, (u.pool p).isSome = true) :
    Represents wordBits { s with list := l } { u with registered := reg } where
  pools := h.pools
  apart := h.apart
  chain := hchain
  last := hlast
  used := hused

theorem unregister [Fintype P] (h : Represents wordBits s u) (p : P) :
    ∃ s', osMempoolUnregister s p = some (s', (u.unregister p).2) ∧
      Represents wordBits s' (u.unregister p).1 := by
  unfold osMempoolUnregister Pools.unregister
  by_cases hp : p ∈ u.registered
  · obtain ⟨l₁, l₂, hreg⟩ := List.append_of_mem hp
    have hchain := h.chain
    have hlast := h.last
    rw [hreg] at hchain hlast
    have hnot : p ∉ l₁ := fun hm =>
      (List.nodup_append.mp (visits_nodup hchain)).2.2 p hm p (by simp) rfl
    have herase : u.registered.erase p = l₁ ++ l₂ := by
      rw [hreg, List.erase_append_right _ hnot, List.erase_cons_head]
    have hused : ∀ q ∈ l₁ ++ l₂, (u.pool q).isSome = true := by
      intro q hq
      rw [← herase] at hq
      exact h.used q (List.mem_of_mem_erase hq)
    rw [walk_to_mem hchain, if_pos hp, herase]
    cases hprev : l₁.getLast? with
    | none =>
      obtain rfl := List.getLast?_eq_none_iff.mp hprev
      obtain ⟨hvisits, hlast⟩ := PoolList.visits_removeHead hchain hlast
      exact ⟨_, rfl, h.setList hvisits hlast hused⟩
    | some prev =>
      obtain ⟨hvisits, hlast⟩ := PoolList.visits_removeAfter hchain hlast hprev
      exact ⟨_, rfl, h.setList hvisits hlast hused⟩
  · rw [walk_to_not_mem h.chain hp, if_neg hp]
    exact ⟨_, rfl, h⟩

omit [DecidableEq P] in
theorem moduleInit (s : MemPools P) : Represents wordBits (osMempoolModuleInit s) Pools.boot := by
  constructor
  case chain => exact rfl
  case last => rfl
  all_goals simp [Pools.boot]

omit [DecidableEq P] in
theorem info (h : Represents wordBits s u) (hp : u.pool p = some v) :
    (⟨(s.pool p).blockSize, (s.pool p).numBlocks, (s.pool p).numFree, (s.pool p).minFree,
      (s.pool p).name.take 31⟩ : OsMempoolInfo) = v.info := by
  have hv := h.pools p v hp
  simp [Pool.info, hv.blockSize, hv.length_blocks, hv.numFree, hv.low, hv.name]

theorem infoGetNext (h : Represents wordBits s u) {mp : Option P}
    (hmp : ∀ q, mp = some q → q ∈ u.registered) :
    osMempoolInfoGetNext s mp =
      (u.after mp).bind fun q => (u.pool q).map fun v => (q, v.info) := by
  have hcur : mp.elim s.list.first s.list.next = u.after mp := by
    cases mp with
    | none => simp [Pools.after, visits_head h.chain, List.head?_eq_getElem?]
    | some q => exact next_of_visits h.chain (hmp q rfl)
  rw [osMempoolInfoGetNext, hcur]
  cases hafter : u.after mp with
  | none => rfl
  | some q =>
    have hq : q ∈ u.registered := by
      cases mp with
      | none => exact List.mem_of_getElem? hafter
      | some r => exact List.mem_of_getElem? hafter
    obtain ⟨v, hv⟩ := Option.isSome_iff_exists.mp (h.used q hq)
    simp [hv, h.info hv]

omit [DecidableEq P] in
/-- A client that writes to no free block disturbs no pool. -/
theorem write (h : Represents wordBits s u) {addr : ℕ} (word : Option ℕ)
    (haddr : ∀ q v, u.pool q = some v → addr ∉ v.free) :
    Represents wordBits { s with next := Function.update s.next addr word } u := by
  refine { h with pools := fun p v hp => (h.pools p v hp).congr (fun b hb => ?_) }
  refine Function.update_of_ne ?_ _ _
  rintro rfl
  exact haddr p v hp hb

/-- A pool structure is filled in, its blocks are chained, and the pool is registered. -/
theorem register (h : Represents wordBits s u) {m : OsMempool} {next' : ℕ → Option ℕ}
    (hunregistered : p ∉ u.registered) (hholds : Holds wordBits next' m v)
    (hframe : ∀ b, b ∉ v.blocks → next' b = s.next b)
    (hapart : ∀ q, q ≠ p → ∀ w, u.pool q = some w → ∀ b ∈ w.blocks, ∀ c ∈ v.blocks,
      Apart b w.stride c v.stride) :
    Represents wordBits ⟨Function.update s.pool p m, next', s.list.insertTail p⟩
      ⟨Function.update u.pool p (some v), u.registered ++ [p]⟩ := by
  have hfilled := h.update hholds hframe hapart
  refine hfilled.setList (PoolList.visits_insertTail h.chain h.last hunregistered) (by
    simp [PoolList.insertTail]) ?_
  intro q hq
  obtain hq | hq := List.mem_append.mp hq
  · exact hfilled.used q hq
  · obtain rfl := List.mem_singleton.mp hq
    simp [Pools.setPool]

end Represents

section Init
variable {wordBits : ℕ} {s : MemPools P} {u : Pools P} {p : P} {blocks : UInt16}
  {blockSize : UInt32} {membuf : Option ℕ}

/-- The links that `os_mempool_init_internal` writes for a structure it has filled in. -/
def initNext (wordBits : ℕ) (m : OsMempool) (next : ℕ → Option ℕ) : ℕ → Option ℕ :=
  if m.numBlocks = 0 then next
  else chainBlocks (m.trueBlockSize wordBits) (m.numBlocks - 1) m.membufAddr next

theorem osMempoolInitInternal_eq (name : List UInt8) (ext : Bool) :
    osMempoolInitInternal wordBits s p blocks blockSize membuf name ext =
      let m := (s.pool p).initialized blocks blockSize membuf name ext
      if initRc wordBits blocks blockSize membuf = .ok then
        (⟨Function.update s.pool p m, initNext wordBits m s.next, s.list.insertTail p⟩, .ok)
      else (s, initRc wordBits blocks blockSize membuf) := by
  have hzero : blocks.toNat = 0 ↔ blocks = 0 := by
    rw [← UInt16.toNat_inj]
    rfl
  unfold osMempoolInitInternal initRc
  split
  next => rfl
  next =>
    split
    next => rfl
    next =>
      split
      next => rfl
      next => simp [initNext, OsMempool.initialized, hzero]

theorem osAlign_pos {n a : ℕ} (hn : n ≠ 0) (ha : n + a < 2 ^ 32) : 0 < osAlign n a := by
  unfold osAlign
  split
  next => omega
  next =>
    rw [Nat.mod_eq_of_lt (by omega)]
    omega

theorem le_osAlign {n a : ℕ} (ha : n + a < 2 ^ 32) : n ≤ osAlign n a := by
  unfold osAlign
  split
  next => exact le_refl n
  next =>
    rw [Nat.mod_eq_of_lt (by omega)]
    omega

theorem initRc_eq_ok (h : initRc wordBits blocks blockSize membuf = .ok) :
    blockSize.toNat ≠ 0 ∧ (blocks ≠ 0 → ∃ addr, membuf = some addr) := by
  unfold initRc at h
  split at h
  next => simp at h
  next hsize =>
    constructor
    · intro hzero
      exact hsize (UInt32.toNat_inj.mp hzero)
    · intro hblocks
      rw [← Option.isSome_iff_exists]
      cases membuf with
      | none => simp [hblocks] at h
      | some addr => rfl

omit [DecidableEq P] in
/-- A pool that has just been initialized has all its blocks free. -/
theorem FreshBuffer.holds (hu : FreshBuffer wordBits u p blocks blockSize membuf)
    (hrc : initRc wordBits blocks blockSize membuf = .ok) {m : OsMempool} {ext : Bool}
    (hcb : ext = true → m.putCb = none) (name : List UInt8) (next : ℕ → Option ℕ) :
    Holds wordBits (initNext wordBits (m.initialized blocks blockSize membuf name ext) next)
      (m.initialized blocks blockSize membuf name ext)
      (.fresh wordBits blocks blockSize membuf name ext) := by
  obtain ⟨hsize, hmembuf⟩ := initRc_eq_ok hrc
  have hstride := osAlign_pos hsize hu.size
  have hzero : blocks.toNat ≠ 0 → blocks ≠ 0 := by
    rintro hn rfl
    exact hn rfl
  constructor
  case fits => exact ⟨hstride, hu.bytes, hu.stop⟩
  case addr =>
    intro hn
    obtain ⟨addr, rfl⟩ := hmembuf (hzero hn)
    exact hu.not_null addr rfl
  case count => exact blocks.toNat_lt
  case blockSize_le => exact le_osAlign hu.size
  case putCb =>
    cases ext with
    | false => rfl
    | true => exact (hcb rfl).symm
  case chain =>
    by_cases hn : blocks.toNat = 0
    · have hnone : membuf = none := hu.empty (UInt16.toNat_inj.mp hn)
      simp [Pool.fresh, OsMempool.initialized, hn, hnone, blockAddrs]
    · obtain ⟨addr, rfl⟩ := hmembuf (hzero hn)
      have hblocks : (m.initialized blocks blockSize (some addr) name ext).numBlocks ≠ 0 := hn
      rw [initNext, if_neg hblocks]
      exact visits_buffer hstride hn
  case numFree => simp [Pool.fresh, OsMempool.initialized]
  case free => exact List.Subset.refl _
  all_goals rfl

theorem FreshBuffer.frame (next : ℕ → Option ℕ) {m : OsMempool} {name : List UInt8} {ext : Bool}
    {b : ℕ} (hb : b ∉ (Pool.fresh wordBits blocks blockSize membuf name ext).blocks) :
    initNext wordBits (m.initialized blocks blockSize membuf name ext) next b = next b := by
  unfold initNext
  split
  next => rfl
  next hn =>
    refine chainBlocks_of_not_mem ?_
    rwa [Nat.sub_add_cancel (Nat.one_le_iff_ne_zero.mpr hn)]

theorem Represents.init (h : Represents wordBits s u)
    (hu : FreshBuffer wordBits u p blocks blockSize membuf) (name : List UInt8) :
    let r := osMempoolInit wordBits s p blocks blockSize membuf name
    let q := u.init wordBits p blocks blockSize membuf name false
    q.2 = .rc r.2 ∧ Represents wordBits r.1 q.1 := by
  rw [osMempoolInit, osMempoolInitInternal_eq, Pools.init]
  by_cases hrc : initRc wordBits blocks blockSize membuf = .ok
  · simp only [if_pos hrc]
    exact ⟨trivial, h.register hu.unregistered (hu.holds hrc (by simp) name s.next)
      (fun b => FreshBuffer.frame s.next) hu.apart⟩
  · simp only [if_neg hrc]
    exact ⟨trivial, h⟩

theorem Represents.extInit (h : Represents wordBits s u)
    (hu : FreshBuffer wordBits u p blocks blockSize membuf) (name : List UInt8) :
    let r := osMempoolExtInit wordBits s p blocks blockSize membuf name
    let q := u.init wordBits p blocks blockSize membuf name true
    q.2 = .rc r.2 ∧ Represents wordBits r.1 q.1 := by
  unfold osMempoolExtInit
  rw [osMempoolInitInternal_eq, Pools.init]
  by_cases hrc : initRc wordBits blocks blockSize membuf = .ok
  · simp only [if_pos hrc, ne_eq, not_true_eq_false, if_false]
    refine ⟨trivial, ?_⟩
    have hcb : true = true → ({ s.pool p with putCb := none } : OsMempool).putCb = none :=
      fun _ => rfl
    have hholds := hu.holds hrc hcb name s.next
    simp only [MemPools.setPool, Function.update_idem, Function.update_self]
    exact h.register hu.unregistered hholds (fun b => FreshBuffer.frame s.next) hu.apart
  · simp only [hrc, if_false, ne_eq, not_false_eq_true, if_true]
    exact ⟨trivial, h⟩

end Init

/-- Each call keeps the relation and returns the same on both sides. -/
theorem Represents.step [Fintype P] {wordBits : ℕ} {s : MemPools P} {u : Pools P}
    (h : Represents wordBits s u) {c : PoolCall P} (hc : Contract wordBits u c) :
    ∃ s' u' r, poolStep wordBits s c = some (s', r) ∧ u.step wordBits c = some (u', r) ∧
      Represents wordBits s' u' := by
  cases c with
  | moduleInit => exact ⟨_, _, _, rfl, rfl, .moduleInit s⟩
  | init p blocks blockSize membuf name =>
    obtain ⟨hret, hkept⟩ := h.init hc name
    exact ⟨_, _, .rc (osMempoolInit wordBits s p blocks blockSize membuf name).2, rfl,
      by rw [← hret]; rfl, hkept⟩
  | extInit p blocks blockSize membuf name =>
    obtain ⟨hret, hkept⟩ := h.extInit hc name
    exact ⟨_, _, .rc (osMempoolExtInit wordBits s p blocks blockSize membuf name).2, rfl,
      by rw [← hret]; rfl, hkept⟩
  | unregister p =>
    obtain ⟨s', hs', hkept⟩ := h.unregister p
    exact ⟨s', _, .rc (u.unregister p).2, by simp [poolStep, hs'], rfl, hkept⟩
  | clear p =>
    obtain ⟨v, hv⟩ := Option.isSome_iff_exists.mp hc.1
    obtain ⟨s', hs', hkept⟩ := h.clear hv (hc.2 v hv)
    exact ⟨s', _, .rc .ok, by simp [poolStep, hs'], by simp [Pools.step, hv], hkept⟩
  | extClear p =>
    obtain ⟨v, hv⟩ := Option.isSome_iff_exists.mp hc.1
    obtain ⟨s', hs', hkept⟩ := h.extClear hv (hc.2 v hv)
    exact ⟨s', _, .rc .ok, by simp [poolStep, hs'], by simp [Pools.step, hv], hkept⟩
  | setPutCb p cb =>
    obtain ⟨v, hv⟩ := Option.isSome_iff_exists.mp hc
    exact ⟨_, _, _, rfl, by simp [Pools.step, hv], h.setPutCb hv cb⟩
  | isSane p =>
    obtain ⟨v, hv⟩ := Option.isSome_iff_exists.mp hc
    exact ⟨s, u, .bool true, by simp [poolStep, h.isSane hv], by simp [Pools.step, hv], h⟩
  | memblockFrom p addr =>
    obtain ⟨v, hv⟩ := Option.isSome_iff_exists.mp hc
    have hfrom := (h.pools p v hv).memblockFrom addr
    exact ⟨s, u, .bool (decide (addr ∈ v.blocks)), by simp [poolStep, hfrom],
      by simp [Pools.step, hv], h⟩
  | get p =>
    obtain ⟨v, hv⟩ := Option.isSome_iff_exists.mp hc
    obtain ⟨s', hs', hkept⟩ := h.get hv
    exact ⟨s', _, .block v.get.2, by simp [poolStep, hs'], by simp [Pools.step, hv], hkept⟩
  | put p addr =>
    obtain ⟨v, hv⟩ := Option.isSome_iff_exists.mp hc
    obtain ⟨s', hs', hkept⟩ := h.put hv addr
    exact ⟨s', _, .put (v.put addr).2, by simp [poolStep, hs'], by simp [Pools.step, hv], hkept⟩
  | putFromCb p addr =>
    obtain ⟨v, hv⟩ := Option.isSome_iff_exists.mp hc
    obtain ⟨s', hs', hkept⟩ := h.putFromCb hv addr
    exact ⟨s', _, .rc (v.putFromCb addr).2, by simp [poolStep, hs'],
      by simp [Pools.step, hv], hkept⟩
  | infoGetNext mp => exact ⟨s, u, _, rfl, by rw [h.infoGetNext hc]; rfl, h⟩
  | write addr word => exact ⟨_, u, _, rfl, rfl, h.write word hc⟩

/-- Any number of pools, in any run of calls of clients that keep to the contract, return what
stacks of free blocks return; no call follows null and none runs around a cycle. -/
theorem mempools_refine_stacks [Fintype P] (wordBits : ℕ) (calls : List (PoolCall P))
    (hcalls : Keeps (silent (Pools.step wordBits)) (Contract wordBits) Pools.boot calls) :
    ∃ s u rets, trace (poolStep wordBits) MemPools.boot calls = some (s, rets) ∧
      trace (Pools.step wordBits) Pools.boot calls = some (u, rets) ∧ Represents wordBits s u :=
  trace_simulates_spec (fun _ _ _ h hc => h.step hc) .boot hcalls

/-- Two pools: a block is taken and overwritten, put back twice and put to the wrong pool. -/
theorem mempools_refine_stacks_of_double_put :
    ∃ s u rets, trace (poolStep 16) MemPools.boot
        [.init false 3 10 (some 0x1000) [], .extInit true 2 8 (some 0x2000) [], .get false,
          .write 0x1000 (some 0x1004), .putFromCb true 0x1000, .put false 0x1000,
          .put false 0x1000, .isSane false, .unregister false, .infoGetNext none] =
        some (s, rets) ∧
      trace (Pools.step 16) Pools.boot
        [.init false 3 10 (some 0x1000) [], .extInit true 2 8 (some 0x2000) [], .get false,
          .write 0x1000 (some 0x1004), .putFromCb true 0x1000, .put false 0x1000,
          .put false 0x1000, .isSane false, .unregister false, .infoGetNext none] =
        some (u, rets) ∧ Represents 16 s u :=
  mempools_refine_stacks 16 _ (by decide)

end NimbleRs.MemPool
