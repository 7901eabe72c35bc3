import NimbleRs.PointerChain
import Mathlib.Data.Fintype.Basic
import Mathlib.Logic.Function.Basic
import Mathlib.Tactic

/-!
# Memory pools

The functions of `os_mempool.c` on a memory of pool structures, of the link words
of free blocks and of the global list of pools, as they are compiled with
`MP_RUNTIME_ALLOC`, `BLE_STATIC_TO_DYNAMIC`, poison, guard and check words all off.
An address is a number below `2 ^ wordBits`, a pointer an address or `none`. Blocks are
aligned to the width of a pointer, so that the link words of two blocks never overlap
and memory is a table of links. The loops over free blocks have no result when they take
more turns than the pool has blocks.
-/
namespace NimbleRs.MemPool
open PointerChain

/-- `OS_ALIGNMENT`, by the width of a pointer -/
def osAlignment (wordBits : ℕ) : ℕ := if 32 < wordBits then 8 else 4

/-- `OS_ALIGN` of a 32-bit size -/
def osAlign (n a : ℕ) : ℕ := if n % a = 0 then n else (n + (a - n % a)) % 2 ^ 32

inductive OsError
  | ok
  | invalidParm
  | memNotAligned
  deriving DecidableEq

/-- `struct os_mempool`, with the callback of the `os_mempool_ext` around it. -/
structure OsMempool where
  blockSize : ℕ
  numBlocks : ℕ
  numFree : ℕ
  minFree : ℕ
  /-- `OS_MEMPOOL_F_EXT` in `mp_flags` -/
  ext : Bool
  membufAddr : ℕ
  /-- `SLIST_FIRST` -/
  first : Option ℕ
  name : List UInt8
  putCb : Option ℕ

/-- `os_mempool_info`; the pool's name is cut to fit. -/
structure OsMempoolInfo where
  blockSize : ℕ
  numBlocks : ℕ
  numFree : ℕ
  minFree : ℕ
  name : List UInt8
  deriving DecidableEq

def OsMempool.zeroed : OsMempool := ⟨0, 0, 0, 0, false, 0, none, [], none⟩

/-- `OS_MEMPOOL_TRUE_BLOCK_SIZE` -/
def OsMempool.trueBlockSize (mp : OsMempool) (wordBits : ℕ) : ℕ :=
  osAlign mp.blockSize (osAlignment wordBits)

/-- `g_os_mempool_list`, a `STAILQ`: `last` points to the link to write at the next insertion,
`none` being the head's own. -/
structure PoolList (P : Type*) where
  first : Option P
  last : Option P
  next : P → Option P

structure MemPools (P : Type*) where
  pool : P → OsMempool
  /-- `SLIST_NEXT` of the block at an address -/
  next : ℕ → Option ℕ
  list : PoolList P

variable {P : Type*} [DecidableEq P]

namespace PoolList

/-- `STAILQ_INSERT_TAIL` -/
def insertTail (l : PoolList P) (p : P) : PoolList P :=
  let l := { l with next := Function.update l.next p none }
  let l := match l.last with
    | none => { l with first := some p }
    | some q => { l with next := Function.update l.next q (some p) }
  { l with last := some p }

omit [DecidableEq P] in
/-- `STAILQ_REMOVE_HEAD` -/
def removeHead (l : PoolList P) : PoolList P :=
  let first := l.first.bind l.next
  { l with first := first, last := if first.isNone then none else l.last }

/-- What `os_mempool_unregister` does behind a predecessor. -/
def removeAfter (l : PoolList P) (prev cur : P) : PoolList P :=
  let next := l.next cur
  let l := if next.isNone then { l with last := some prev } else l
  { l with next := Function.update l.next prev next }

end PoolList

/-- The loops that chain a buffer of `n + 1` blocks: each block points to the one behind it,
and the last one to null. -/
def chainBlocks (stride : ℕ) : ℕ → ℕ → (ℕ → Option ℕ) → ℕ → Option ℕ
  | 0, blockPtr, next => Function.update next blockPtr none
  | n + 1, blockPtr, next =>
    let blockAddr := blockPtr + stride
    chainBlocks stride n blockAddr (Function.update next blockPtr (some blockAddr))

namespace MemPools

def boot : MemPools P := ⟨fun _ => .zeroed, fun _ => none, ⟨none, none, fun _ => none⟩⟩

def setPool (s : MemPools P) (mp : P) (m : OsMempool) : MemPools P :=
  { s with pool := Function.update s.pool mp m }

end MemPools

/-- `os_mempool_module_init` -/
def osMempoolModuleInit (s : MemPools P) : MemPools P :=
  { s with list := { s.list with first := none, last := none } }

/-- The fields that `os_mempool_init_internal` writes. -/
def OsMempool.initialized (mp : OsMempool) (blocks : UInt16) (blockSize : UInt32)
    (membuf : Option ℕ) (name : List UInt8) (ext : Bool) : OsMempool :=
  { mp with
    blockSize := blockSize.toNat, numBlocks := blocks.toNat, numFree := blocks.toNat
    minFree := blocks.toNat, ext := ext, membufAddr := membuf.getD 0, first := membuf
    name := name }

def osMempoolInitInternal (wordBits : ℕ) (s : MemPools P) (mp : P) (blocks : UInt16)
    (blockSize : UInt32) (membuf : Option ℕ) (name : List UInt8) (ext : Bool) :
    MemPools P × OsError :=
  if blockSize = 0 then (s, .invalidParm)
  else if membuf.isNone && blocks ≠ 0 then (s, .invalidParm)
  else if membuf.any (fun addr => addr % 2 ^ 32 % osAlignment wordBits ≠ 0) then
    (s, .memNotAligned)
  else
    let pool := (s.pool mp).initialized blocks blockSize membuf name ext
    let next := if blocks = 0 then s.next
      else chainBlocks (pool.trueBlockSize wordBits) (blocks.toNat - 1) pool.membufAddr s.next
    (⟨Function.update s.pool mp pool, next, s.list.insertTail mp⟩, .ok)

def osMempoolInit (wordBits : ℕ) (s : MemPools P) (mp : P) (blocks : UInt16)
    (blockSize : UInt32) (membuf : Option ℕ) (name : List UInt8) : MemPools P × OsError :=
  osMempoolInitInternal wordBits s mp blocks blockSize membuf name false

def osMempoolExtInit (wordBits : ℕ) (s : MemPools P) (mp : P) (blocks : UInt16)
    (blockSize : UInt32) (membuf : Option ℕ) (name : List UInt8) : MemPools P × OsError :=
  let (s, rc) := osMempoolInitInternal wordBits s mp blocks blockSize membuf name true
  if rc ≠ .ok then (s, rc) else (s.setPool mp { s.pool mp with putCb := none }, .ok)

/-- `os_mempool_unregister`, which looks for the pool behind a trailing `prev`. -/
def osMempoolUnregister [Fintype P] (s : MemPools P) (mp : P) : Option (MemPools P × OsError) :=
  (walk s.list.next (· == mp) (Fintype.card P + 1) none s.list.first).map fun
    | (_, none) => (s, .invalidParm)
    | (none, some _) => ({ s with list := s.list.removeHead }, .ok)
    | (some prev, some cur) => ({ s with list := s.list.removeAfter prev cur }, .ok)

/-- `os_mempool_clear`; with a null buffer it writes through null. -/
def osMempoolClear (wordBits : ℕ) (s : MemPools P) (mp : P) : Option (MemPools P) :=
  let m := s.pool mp
  if m.membufAddr = 0 then none
  else
    let pool :=
      { m with numFree := m.numBlocks, minFree := m.numBlocks, first := some m.membufAddr }
    some ⟨Function.update s.pool mp pool,
      chainBlocks (m.trueBlockSize wordBits) (m.numBlocks - 1) m.membufAddr s.next, s.list⟩

/-- `os_mempool_ext_clear`, after which the pool is no longer an extended one. -/
def osMempoolExtClear (wordBits : ℕ) (s : MemPools P) (mp : P) : Option (MemPools P) :=
  osMempoolClear wordBits (s.setPool mp { s.pool mp with ext := false, putCb := none }) mp

/-- `os_memblock_from`; the size of the buffer is computed in 32 bits. -/
def osMemblockFrom (wordBits : ℕ) (mp : OsMempool) (blockAddr : ℕ) : Bool :=
  let trueBlockSize := mp.trueBlockSize wordBits
  let stop := (mp.membufAddr + mp.numBlocks * trueBlockSize % 2 ^ 32) % 2 ^ wordBits
  if blockAddr < mp.membufAddr || stop ≤ blockAddr then false
  else (blockAddr - mp.membufAddr) % trueBlockSize = 0

def osMempoolIsSane (wordBits : ℕ) (s : MemPools P) (mp : P) : Option Bool :=
  let m := s.pool mp
  (walk s.next (fun block => !osMemblockFrom wordBits m block) (m.numBlocks + 1) none m.first).map
    fun r => r.2.isNone

/-- `os_memblock_get`; it has no result where it follows null. -/
def osMemblockGet (s : MemPools P) (mp : P) : Option (MemPools P × Option ℕ) :=
  let m := s.pool mp
  if m.numFree = 0 then some (s, none)
  else
    m.first.map fun block =>
      let numFree := m.numFree - 1
      let minFree := if m.minFree > numFree then numFree else m.minFree
      (s.setPool mp { m with first := s.next block, numFree := numFree, minFree := minFree },
        some block)

def osMemblockPutFromCb (wordBits : ℕ) (s : MemPools P) (mp : P) (blockAddr : ℕ) :
    Option (MemPools P × OsError) :=
  let m := s.pool mp
  if !osMemblockFrom wordBits m blockAddr then some (s, .invalidParm)
  else
    (walk s.next (· == blockAddr) (m.numBlocks + 1) none m.first).map fun
      | (_, some _) => (s, .invalidParm)
      | (_, none) =>
        if m.numFree ≥ m.numBlocks then (s, .invalidParm)
        else
          (⟨Function.update s.pool mp
              { m with first := some blockAddr, numFree := (m.numFree + 1) % 2 ^ 16 },
            Function.update s.next blockAddr m.first, s.list⟩, .ok)

inductive PutRet
  | err (rc : OsError)
  /-- The put callback of an extended pool has been called instead. -/
  | called (cb blockAddr : ℕ)
  deriving DecidableEq

def osMemblockPut (wordBits : ℕ) (s : MemPools P) (mp : P) (blockAddr : ℕ) :
    Option (MemPools P × PutRet) :=
  if blockAddr = 0 then some (s, .err .invalidParm)
  else
    match (s.pool mp).ext, (s.pool mp).putCb with
    | true, some cb => some (s, .called cb blockAddr)
    | _, _ => (osMemblockPutFromCb wordBits s mp blockAddr).map fun r => (r.1, .err r.2)

omit [DecidableEq P] in
/-- `os_mempool_info_get_next`; `none` starts the iteration. -/
def osMempoolInfoGetNext (s : MemPools P) (mp : Option P) : Option (P × OsMempoolInfo) :=
  (mp.elim s.list.first s.list.next).map fun cur =>
    let m := s.pool cur
    (cur, ⟨m.blockSize, m.numBlocks, m.numFree, m.minFree, m.name.take 31⟩)

/-- The addresses of the blocks of a buffer. -/
def blockAddrs (stride : ℕ) : ℕ → ℕ → List ℕ
  | _, 0 => []
  | base, n + 1 => base :: blockAddrs stride (base + stride) n

@[simp] theorem length_blockAddrs (stride base n : ℕ) : (blockAddrs stride base n).length = n := by
  induction n generalizing base with
  | zero => rfl
  | succ n ih => simp [blockAddrs, ih]

theorem mem_blockAddrs {stride base n b : ℕ} :
    b ∈ blockAddrs stride base n ↔ ∃ i < n, b = base + i * stride := by
  induction n generalizing base with
  | zero => simp [blockAddrs]
  | succ n ih =>
    rw [blockAddrs, List.mem_cons, ih]
    constructor
    · rintro (rfl | ⟨i, hi, rfl⟩)
      · exact ⟨0, by omega, by simp⟩
      · exact ⟨i + 1, by omega, by rw [Nat.succ_mul]; omega⟩
    · rintro ⟨i, hi, rfl⟩
      cases i with
      | zero => exact .inl (by simp)
      | succ i => exact .inr ⟨i, by omega, by rw [Nat.succ_mul]; omega⟩

theorem chainBlocks_of_not_mem {stride n a b : ℕ} {next : ℕ → Option ℕ}
    (hb : b ∉ blockAddrs stride a (n + 1)) : chainBlocks stride n a next b = next b := by
  induction n generalizing a next with
  | zero =>
    have hne : b ≠ a := by simpa [blockAddrs] using hb
    simp [chainBlocks, hne]
  | succ n ih =>
    rw [blockAddrs, List.mem_cons, not_or] at hb
    rw [chainBlocks, ih hb.2, Function.update_of_ne hb.1]

/-- After the loop the free list passes the blocks of the buffer in order. -/
theorem visits_chainBlocks {stride n a : ℕ} {next : ℕ → Option ℕ} (hstride : 0 < stride) :
    Visits (chainBlocks stride n a next) (some a) (blockAddrs stride a (n + 1)) := by
  induction n generalizing a next with
  | zero => simp [chainBlocks, blockAddrs]
  | succ n ih =>
    refine ⟨rfl, ?_⟩
    have hnot : a ∉ blockAddrs stride (a + stride) (n + 1) := by
      rw [mem_blockAddrs]
      rintro ⟨i, -, hi⟩
      omega
    rw [chainBlocks, chainBlocks_of_not_mem hnot, Function.update_self]
    exact ih

theorem visits_buffer {stride n a : ℕ} {next : ℕ → Option ℕ} (hstride : 0 < stride) (hn : n ≠ 0) :
    Visits (chainBlocks stride (n - 1) a next) (some a) (blockAddrs stride a n) := by
  obtain ⟨n, rfl⟩ := Nat.exists_eq_succ_of_ne_zero hn
  exact visits_chainBlocks hstride

/-- The buffer of a pool lies below `2 ^ wordBits` and is smaller than 4 GiB. -/
structure OsMempool.Fits (wordBits : ℕ) (mp : OsMempool) : Prop where
  stride : 0 < mp.trueBlockSize wordBits
  bytes : mp.numBlocks * mp.trueBlockSize wordBits < 2 ^ 32
  stop : mp.membufAddr + mp.numBlocks * mp.trueBlockSize wordBits < 2 ^ wordBits

theorem osMemblockFrom_iff {wordBits : ℕ} {mp : OsMempool} (h : mp.Fits wordBits) (b : ℕ) :
    osMemblockFrom wordBits mp b = true ↔
      b ∈ blockAddrs (mp.trueBlockSize wordBits) mp.membufAddr mp.numBlocks := by
  have hstride := h.stride
  unfold osMemblockFrom
  simp only [Nat.mod_eq_of_lt h.bytes, Nat.mod_eq_of_lt h.stop, mem_blockAddrs]
  generalize mp.trueBlockSize wordBits = stride at hstride ⊢
  split
  next hout =>
    simp only [Bool.or_eq_true, decide_eq_true_eq] at hout
    simp only [Bool.false_eq_true, false_iff, not_exists, not_and]
    intro i hi hb
    have hlt : i * stride < mp.numBlocks * stride := Nat.mul_lt_mul_of_pos_right hi hstride
    omega
  next hin =>
    simp only [Bool.or_eq_true, decide_eq_true_eq, not_or, not_lt, not_le] at hin
    rw [decide_eq_true_iff]
    constructor
    · intro hmod
      have hdiv := Nat.div_add_mod (b - mp.membufAddr) stride
      refine ⟨(b - mp.membufAddr) / stride, ?_, ?_⟩
      · rw [Nat.div_lt_iff_lt_mul hstride]
        omega
      · rw [Nat.mul_comm]
        omega
    · rintro ⟨i, -, rfl⟩
      simp

end NimbleRs.MemPool
