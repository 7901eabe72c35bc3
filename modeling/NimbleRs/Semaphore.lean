import NimbleRs.WaitUntil
import NimbleRs.Mutex
import NimbleRs.TransitionSystem
import Mathlib.Tactic

/-!
# The NPL semaphore and its tokens

`ble_npl_sem_pend` with any timeout, one point of the wait loop at a time, and
`ble_npl_sem_release`, in any number of contexts. The waker slot holds the context
whose waker it is. A pump poll runs host code on the stack of the wait, so that the
pends of a context form a stack of frames. The parker may return at any time.
-/
namespace NimbleRs.Npl
open TransitionSystem

/-- The count is a `u16`. -/
structure Sem (Ctx : Type*) where
  count : ℕ
  waker : Option Ctx

section Sem
variable {Ctx : Type*}

def bleNplSemInit (tokens : UInt16) : Sem Ctx := ⟨tokens.toNat, none⟩

def bleNplSemGetCount (s : Sem Ctx) : ℕ := s.count

/-- `count += 1` is not checked in a release build: the `u16` wraps around. The second
result is the waker that is woken outside the critical section. -/
def bleNplSemRelease (s : Sem Ctx) : Sem Ctx × Option Ctx × NplError :=
  (⟨(s.count + 1) % 2 ^ 16, none⟩, s.waker, .ok)

/-- The closure of `ble_npl_sem_pend`. -/
def tryTake (s : Sem Ctx) : Sem Ctx × Bool :=
  if 0 < s.count then ({ s with count := s.count - 1 }, true) else (s, false)

def Sem.register (c : Ctx) (s : Sem Ctx) : Sem Ctx := { s with waker := some c }

theorem tryTake_cases (s : Sem Ctx) :
    (0 < s.count ∧ tryTake s = ({ s with count := s.count - 1 }, true)) ∨
      (s.count = 0 ∧ tryTake s = (s, false)) := by
  unfold tryTake
  by_cases hpos : 0 < s.count
  · left
    rw [if_pos hpos]
    exact ⟨hpos, rfl⟩
  · right
    rw [if_neg hpos]
    exact ⟨by omega, rfl⟩

end Sem

/-- A pend that has not returned, and how many tokens it has taken. -/
structure Pend where
  tmo : ℕ
  called : Instant
  point : PendPoint
  taken : ℕ

/-- The wait polls the pump. -/
def Pend.pumps (p : Pend) : Bool :=
  match p.point with
  | .waiting _ .pump => true
  | _ => false

/-- The wait sleeps in the parker. -/
def Pend.parks (p : Pend) : Bool :=
  match p.point with
  | .waiting _ .park => true
  | _ => false

/-- The tokens that are left when the next point of the pend returns; `none` when the
pend goes on. -/
def Pend.returnsWith (p : Pend) (now : Instant) (count : ℕ) : Option ℕ :=
  match p.point with
  | .entered => none
  | .waiting d point =>
    if point.asks then if 0 < count then some (count - 1) else none
    else if point = .expiry ∧ expired d now = true then some count
    else none

/-- A pend that has returned. -/
structure SemReturn where
  tmo : ℕ
  called : Instant
  result : NplError
  taken : ℕ
  returned : Instant

structure SemRun (Ctx : Type*) where
  sem : Sem Ctx
  /-- The pends of each context, the innermost one first. -/
  frames : Ctx → List Pend
  parking : Parking Ctx
  now : Instant
  returns : List SemReturn
  /-- How many releases have returned OK. -/
  released : ℕ

inductive SemStep (Ctx : Type*)
  | pend (c : Ctx) (tmo : ℕ)
  /-- A release, from a context or from an interrupt handler. -/
  | release
  | turn (c : Ctx)
  /-- The parker returns without a wake-up, at the deadline or before. -/
  | unpark (c : Ctx)
  /-- The I/O that a pump poll left a waker with wakes it. -/
  | wake (c : Ctx)
  | deliver (c : Ctx)
  | advance (ms : ℕ)

variable {Ctx : Type*} [DecidableEq Ctx]

namespace SemRun

def start (tokens : UInt16) : SemRun Ctx :=
  ⟨bleNplSemInit tokens, fun _ => [], Parking.start, 0, [], 0⟩

/-- The context runs code of its own: outside of any pend, or in a pump poll. -/
def Calls (s : SemRun Ctx) (c : Ctx) : Prop := ∀ p ∈ (s.frames c).head?, p.pumps = true

instance (s : SemRun Ctx) (c : Ctx) : Decidable (s.Calls c) :=
  inferInstanceAs (Decidable (∀ p ∈ (s.frames c).head?, p.pumps = true))

def setFrames (s : SemRun Ctx) (c : Ctx) (l : List Pend) : SemRun Ctx :=
  { s with frames := Function.update s.frames c l }

@[simp] theorem setFrames_frames (s : SemRun Ctx) (c d : Ctx) (l : List Pend) :
    (s.setFrames c l).frames d = if d = c then l else s.frames d := by
  simp [setFrames, Function.update_apply]

/-- A pend of the context returns to the frames below it. -/
def finish (s : SemRun Ctx) (c : Ctx) (p : Pend) (result : NplError) (l : List Pend) :
    SemRun Ctx :=
  { s with returns := ⟨p.tmo, p.called, result, p.taken, s.now⟩ :: s.returns }.setFrames c l

/-- The next point of the innermost pend of the context. -/
def turn (s : SemRun Ctx) (c : Ctx) (p : Pend) (l : List Pend) : Option (SemRun Ctx) :=
  match p.point with
  | .entered =>
    some (s.setFrames c ({ p with point := .waiting (deadline p.tmo s.now) .check } :: l))
  | .waiting d .park => (s.parking.unpark c).map fun k =>
    { s with parking := k }.setFrames c ({ p with point := .waiting d .check } :: l)
  | .waiting d point =>
    let r := waitStep tryTake (Sem.register c) (expired d s.now) point s.sem
    let taken := p.taken + (s.sem.count - r.1.count)
    match r.2 with
    | .waiting next =>
      some ({ s with sem := r.1 }.setFrames c (⟨p.tmo, p.called, .waiting d next, taken⟩ :: l))
    | .returned ready =>
      some ({ s with sem := r.1 }.finish c { p with taken := taken }
        (if ready then .ok else .timeout) l)

end SemRun

/-- `ble_npl_sem_pend` up to the wait. -/
def bleNplSemPend (s : SemRun Ctx) (c : Ctx) (tmo : ℕ) : SemRun Ctx :=
  let r := tryTake s.sem
  let p : Pend := ⟨tmo, s.now, .entered, s.sem.count - r.1.count⟩
  if r.2 then { s with sem := r.1 }.finish c p .ok (s.frames c)
  else if tmo = 0 then { s with sem := r.1 }.finish c p .timeout (s.frames c)
  else { s with sem := r.1 }.setFrames c (p :: s.frames c)

def semStep (s : SemRun Ctx) : SemStep Ctx → Option (SemRun Ctx)
  | .pend c tmo => if s.Calls c then some (bleNplSemPend s c tmo) else none
  | .release =>
    let r := bleNplSemRelease s.sem
    some { s with
      sem := r.1
      parking := r.2.1.elim s.parking s.parking.wake
      released := s.released + if r.2.2 = .ok then 1 else 0 }
  | .turn c =>
    match s.frames c with
    | [] => none
    | p :: l => s.turn c p l
  | .unpark c =>
    match s.frames c with
    | ⟨tmo, called, .waiting d .park, taken⟩ :: l =>
      some (s.setFrames c (⟨tmo, called, .waiting d .check, taken⟩ :: l))
    | _ => none
  | .wake c => some { s with parking := s.parking.wake c }
  | .deliver c => (s.parking.deliver c).map fun k => { s with parking := k }
  | .advance ms => some { s with now := s.now + ms }

omit [DecidableEq Ctx] in
/-- One point of a wait that does not sleep: a check with a token takes it, a passed
deadline ends the wait, and all else goes on. -/
theorem waitStep_sem_cases (s : Sem Ctx) (c : Ctx) (p : Pend) (now : Instant)
    {d : Option Instant} {point : WaitPoint} (hp : p.point = .waiting d point)
    (hpark : point ≠ .park) :
    (p.returnsWith now s.count = none ∧ ∃ s' next, s'.count = s.count ∧
        (next = .park → s.count = 0) ∧
        waitStep tryTake (Sem.register c) (expired d now) point s = (s', .waiting next)) ∨
      (p.returnsWith now s.count = some (s.count - 1) ∧ 0 < s.count ∧
        waitStep tryTake (Sem.register c) (expired d now) point s =
          ({ s with count := s.count - 1 }, .returned true)) ∨
      (p.returnsWith now s.count = some s.count ∧ point = .expiry ∧ expired d now = true ∧
        waitStep tryTake (Sem.register c) (expired d now) point s = (s, .returned false)) := by
  have hreturns : p.returnsWith now s.count =
      if point.asks then if 0 < s.count then some (s.count - 1) else none
      else if point = .expiry ∧ expired d now = true then some s.count else none := by
    unfold Pend.returnsWith
    rw [hp]
  obtain ⟨hasks, htake, hw⟩ | ⟨hasks, htake, hw⟩ | ⟨hasks, hw⟩ := waitStep_cases tryTake
    (Sem.register c) (expired d now) point s
  · obtain ⟨hpos, heq⟩ | ⟨-, heq⟩ := tryTake_cases s
    · right
      left
      rw [hreturns, if_pos hasks, if_pos hpos, hw, heq]
      exact ⟨rfl, hpos, rfl⟩
    · rw [heq] at htake
      exact absurd htake Bool.false_ne_true
  · obtain ⟨-, heq⟩ | ⟨hzero, heq⟩ := tryTake_cases s
    · rw [heq] at htake
      exact absurd htake.symm Bool.false_ne_true
    · left
      rw [hreturns, if_pos hasks, if_neg (by omega), hw, heq]
      cases point with
      | check => exact ⟨rfl, s, .expiry, rfl, fun _ => hzero, rfl⟩
      | recheck => exact ⟨rfl, s, .pump, rfl, fun _ => hzero, rfl⟩
      | lastCheck => exact ⟨rfl, s, .park, rfl, fun _ => hzero, rfl⟩
      | _ => exact absurd hasks Bool.false_ne_true
  · rw [hreturns, hasks, if_neg Bool.false_ne_true, hw]
    cases point with
    | expiry =>
      cases hlate : expired d now with
      | true =>
        right
        right
        exact ⟨by simp, rfl, rfl, rfl⟩
      | false =>
        left
        exact ⟨by simp, s, .register, rfl, fun h => absurd h (by simp), rfl⟩
    | register =>
      left
      exact ⟨by simp, s.register c, .recheck, rfl, fun h => absurd h (by simp), rfl⟩
    | pump =>
      left
      exact ⟨by simp, s, .lastCheck, rfl, fun h => absurd h (by simp), rfl⟩
    | park => exact absurd rfl hpark
    | _ => exact absurd hasks (by decide)

/-- The next frame of a pend that goes on. -/
def Pend.Follows (now : Instant) (p q : Pend) : Prop :=
  (p.point = .entered ∧ q = { p with point := .waiting (deadline p.tmo now) .check }) ∨
    ∃ d point next, p.point = .waiting d point ∧ q = { p with point := .waiting d next }

/-- What a turn can do. -/
theorem SemRun.turn_cases {s s' : SemRun Ctx} {c : Ctx} {p : Pend} {l : List Pend}
    (hstep : s.turn c p l = some s') :
    (p.returnsWith s.now s.sem.count = none ∧ ∃ sem k q, sem.count = s.sem.count ∧
        p.Follows s.now q ∧ (q.parks = true → s.sem.count = 0) ∧
        s' = { s with sem := sem, parking := k }.setFrames c (q :: l)) ∨
      (p.returnsWith s.now s.sem.count = some (s.sem.count - 1) ∧ 0 < s.sem.count ∧
        s' = { s with sem := { s.sem with count := s.sem.count - 1 } }.finish c
          { p with taken := p.taken + 1 } .ok l) ∨
      (p.returnsWith s.now s.sem.count = some s.sem.count ∧
        (∃ d, p.point = .waiting d .expiry ∧ expired d s.now = true) ∧
        s' = s.finish c p .timeout l) := by
  cases hp : p.point with
  | entered =>
    left
    simp only [SemRun.turn, hp, Option.some.injEq] at hstep
    exact ⟨by simp [Pend.returnsWith, hp], s.sem, s.parking, _, rfl, .inl ⟨hp, rfl⟩,
      fun h => absurd h (by simp [Pend.parks]), hstep.symm⟩
  | waiting d point =>
    by_cases hpark : point = .park
    · left
      subst hpark
      simp only [SemRun.turn, hp] at hstep
      obtain ⟨k, -, rfl⟩ := Option.map_eq_some_iff.mp hstep
      exact ⟨by simp [Pend.returnsWith, hp, WaitPoint.asks], s.sem, k, _, rfl,
        .inr ⟨d, _, _, hp, rfl⟩, fun h => absurd h (by simp [Pend.parks]), rfl⟩
    · have hturn : s.turn c p l =
          let r := waitStep tryTake (Sem.register c) (expired d s.now) point s.sem
          let taken := p.taken + (s.sem.count - r.1.count)
          match r.2 with
          | .waiting next =>
            some ({ s with sem := r.1 }.setFrames c
              (⟨p.tmo, p.called, .waiting d next, taken⟩ :: l))
          | .returned ready =>
            some ({ s with sem := r.1 }.finish c { p with taken := taken }
              (if ready then .ok else .timeout) l) := by
        unfold SemRun.turn
        rw [hp]
        cases point with
        | park => exact absurd rfl hpark
        | _ => rfl
      rw [hturn] at hstep
      obtain ⟨hret, sem, next, hsem, hnext, hw⟩ | ⟨hret, hpos, hw⟩ | ⟨hret, hexpiry, hlate, hw⟩ :=
        waitStep_sem_cases s.sem c p s.now hp hpark
      · left
        simp only [hw, hsem, Nat.sub_self, Option.some.injEq] at hstep
        refine ⟨hret, sem, s.parking, _, hsem, .inr ⟨d, point, next, hp, rfl⟩, fun h => ?_,
          hstep.symm⟩
        refine hnext ?_
        cases next <;> simp [Pend.parks] at h ⊢
      · right
        left
        have hone : s.sem.count - (s.sem.count - 1) = 1 := by omega
        simp only [hw, hone, if_true, Option.some.injEq] at hstep
        exact ⟨hret, hpos, hstep.symm⟩
      · right
        right
        simp only [hw, Nat.sub_self, Bool.false_eq_true, if_false, Option.some.injEq] at hstep
        exact ⟨hret, ⟨d, by rw [hexpiry], hlate⟩, hstep.symm⟩

/-- OK means one token; TIMEOUT means none, and that the deadline has passed unless the
call was not to wait. -/
def SemReturn.Sound (r : SemReturn) : Prop :=
  match r.result with
  | .ok => r.taken = 1
  | .timeout => r.taken = 0 ∧ (r.tmo ≠ 0 → r.tmo ≠ forever ∧ r.called + r.tmo ≤ r.returned)
  | .invalidParam => False

/-- The tokens are the first ones and the releases that returned OK, less the pends that
returned OK. -/
structure TokensConserved (tokens : UInt16) (s : SemRun Ctx) : Prop where
  count : bleNplSemGetCount s.sem + s.returns.countP (fun r => r.result = .ok) =
    tokens.toNat + s.released
  returns : ∀ r ∈ s.returns, r.Sound
  pends : ∀ c, ∀ p ∈ s.frames c, p.taken = 0

/-- A release finds room in the count. -/
def CountsRelease (s : SemRun Ctx) : SemStep Ctx → Prop
  | .release => s.sem.count + 1 < 2 ^ 16
  | _ => True

/-- A pend that waits has no token and, with a deadline, waits for all of its timeout. -/
structure Pend.Sound (now : Instant) (p : Pend) : Prop where
  taken : p.taken = 0
  tmo : p.tmo ≠ 0
  called : p.called ≤ now
  deadline : ∀ d point, p.point = .waiting (some d) point →
    p.tmo ≠ forever ∧ p.called + p.tmo ≤ d

theorem Pend.Sound.later {now : Instant} {p : Pend} (h : p.Sound now) (ms : ℕ) :
    p.Sound (now + ms) :=
  ⟨h.taken, h.tmo, h.called.trans (Nat.le_add_right now ms), h.deadline⟩

theorem Pend.Sound.follow {now : Instant} {p q : Pend} (h : p.Sound now) (hq : p.Follows now q) :
    q.Sound now := by
  have hcalled := h.called
  obtain ⟨-, rfl⟩ | ⟨d, point, next, hp, rfl⟩ := hq
  · refine ⟨h.taken, h.tmo, h.called, fun d' point' heq => ?_⟩
    obtain ⟨hd, -⟩ := PendPoint.waiting.inj heq
    by_cases hforever : p.tmo = forever
    · simp [Npl.deadline, hforever] at hd
    · simp only [Npl.deadline, ne_eq, hforever, not_false_eq_true, if_true,
        Option.some.injEq] at hd
      exact ⟨hforever, hd ▸ Nat.add_le_add_right hcalled p.tmo⟩
  · refine ⟨h.taken, h.tmo, h.called, fun d' point' heq => ?_⟩
    obtain ⟨rfl, -⟩ := PendPoint.waiting.inj heq
    exact h.deadline d' point hp

structure SemLedger (tokens : UInt16) (s : SemRun Ctx) : Prop where
  count : s.sem.count + s.returns.countP (fun r => r.result = .ok) = tokens.toNat + s.released
  bound : s.sem.count < 2 ^ 16
  returns : ∀ r ∈ s.returns, r.Sound
  pends : ∀ c, ∀ p ∈ s.frames c, p.Sound s.now

namespace SemLedger

variable {tokens : UInt16} {s s' : SemRun Ctx} {c : Ctx}

omit [DecidableEq Ctx] in
theorem conserved (h : SemLedger tokens s) : TokensConserved tokens s :=
  ⟨h.count, h.returns, fun c p hp => (h.pends c p hp).taken⟩

theorem pends_setFrames (h : SemLedger tokens s) {l : List Pend} (hl : ∀ p ∈ l, p.Sound s.now) :
    ∀ d, ∀ p ∈ (s.setFrames c l).frames d, p.Sound s.now := by
  intro d p hp
  rw [SemRun.setFrames_frames] at hp
  by_cases hd : d = c
  · rw [if_pos hd] at hp
    exact hl p hp
  · rw [if_neg hd] at hp
    exact h.pends d p hp

/-- A step of a wait that takes no token. -/
theorem wait (h : SemLedger tokens s) {sem : Sem Ctx} (hsem : sem.count = s.sem.count)
    {k : Parking Ctx} {l : List Pend} (hl : ∀ p ∈ l, p.Sound s.now) :
    SemLedger tokens ({ s with sem := sem, parking := k }.setFrames c l) :=
  ⟨hsem ▸ h.count, hsem ▸ h.bound, h.returns, h.pends_setFrames hl⟩

theorem finish (h : SemLedger tokens s) {sem : Sem Ctx} {p : Pend} {result : NplError}
    (hcount : sem.count + (if result = .ok then 1 else 0) = s.sem.count)
    (hsound : SemReturn.Sound ⟨p.tmo, p.called, result, p.taken, s.now⟩) {l : List Pend}
    (hl : ∀ p ∈ l, p.Sound s.now) :
    SemLedger tokens ({ s with sem := sem }.finish c p result l) := by
  have hbefore := h.count
  have hbound := h.bound
  constructor
  · show sem.count + List.countP _ (_ :: s.returns) = tokens.toNat + s.released
    simp only [List.countP_cons, decide_eq_true_eq]
    omega
  · show sem.count < 2 ^ 16
    omega
  · intro r hr
    obtain rfl | hr := List.mem_cons.mp hr
    · exact hsound
    · exact h.returns r hr
  · exact h.pends_setFrames hl

theorem pend (h : SemLedger tokens s) (c : Ctx) (tmo : ℕ) :
    SemLedger tokens (bleNplSemPend s c tmo) := by
  unfold bleNplSemPend
  obtain ⟨hpos, htake⟩ | ⟨hzero, htake⟩ := tryTake_cases s.sem
  · simp only [htake, if_true]
    refine h.finish ?_ ?_ (h.pends c)
    · show s.sem.count - 1 + 1 = s.sem.count
      omega
    · show s.sem.count - (s.sem.count - 1) = 1
      omega
  · simp only [htake, Bool.false_eq_true, if_false, Nat.sub_self]
    by_cases htmo : tmo = 0
    · rw [if_pos htmo]
      have hsound : SemReturn.Sound ⟨tmo, s.now, .timeout, 0, s.now⟩ :=
        ⟨rfl, fun hne => absurd htmo hne⟩
      exact h.finish rfl hsound (h.pends c)
    · rw [if_neg htmo]
      refine h.wait rfl (k := s.parking) (fun p hp => ?_)
      obtain rfl | hp := List.mem_cons.mp hp
      · exact ⟨rfl, htmo, le_rfl, fun d point heq => absurd heq (by simp)⟩
      · exact h.pends c p hp

theorem release (h : SemLedger tokens s) (hroom : s.sem.count + 1 < 2 ^ 16)
    (hstep : semStep s .release = some s') : SemLedger tokens s' := by
  obtain rfl := Option.some.inj hstep
  have hcount := h.count
  have hmod : (s.sem.count + 1) % 2 ^ 16 = s.sem.count + 1 := Nat.mod_eq_of_lt hroom
  refine ⟨?_, Nat.mod_lt _ (by decide), h.returns, h.pends⟩
  show (s.sem.count + 1) % 2 ^ 16 + s.returns.countP (fun r => r.result = .ok) =
    tokens.toNat + (s.released + 1)
  rw [hmod]
  omega

/-- A release that finds the count at its largest loses all tokens. -/
theorem wraps (h : SemLedger tokens s) (hfull : ¬ s.sem.count + 1 < 2 ^ 16)
    (hstep : semStep s .release = some s') : ¬ TokensConserved tokens s' := by
  obtain rfl := Option.some.inj hstep
  have hcount := h.count
  have hbound := h.bound
  have hwrap : (s.sem.count + 1) % 2 ^ 16 = 0 := by omega
  intro hsafe
  have hafter : (s.sem.count + 1) % 2 ^ 16 + s.returns.countP (fun r => r.result = .ok) =
      tokens.toNat + (s.released + 1) := hsafe.count
  rw [hwrap] at hafter
  omega

theorem sound_cons {now : Instant} {p : Pend} {l : List Pend} (hp : p.Sound now)
    (hl : ∀ q ∈ l, q.Sound now) : ∀ q ∈ p :: l, q.Sound now := by
  intro q hq
  obtain rfl | hq := List.mem_cons.mp hq
  · exact hp
  · exact hl q hq

theorem turn (h : SemLedger tokens s) {p : Pend} {l : List Pend} (hf : s.frames c = p :: l)
    (hstep : s.turn c p l = some s') : SemLedger tokens s' := by
  have hp : p.Sound s.now := h.pends c p (by simp [hf])
  have hl : ∀ q ∈ l, q.Sound s.now := fun q hq => h.pends c q (by simp [hf, hq])
  have htaken := hp.taken
  obtain ⟨-, sem, k, q, hsem, hq, -, rfl⟩ | ⟨-, hpos, rfl⟩ | ⟨-, ⟨d, hpoint, hlate⟩, rfl⟩ :=
    SemRun.turn_cases hstep
  · exact h.wait hsem (sound_cons (hp.follow hq) hl)
  · refine h.finish ?_ ?_ hl
    · show s.sem.count - 1 + 1 = s.sem.count
      omega
    · show p.taken + 1 = 1
      omega
  · have hsound : SemReturn.Sound ⟨p.tmo, p.called, .timeout, p.taken, s.now⟩ := by
      refine ⟨htaken, fun _ => ?_⟩
      cases d with
      | none => exact absurd hlate (by simp [expired])
      | some x =>
        obtain ⟨hforever, hx⟩ := hp.deadline x .expiry hpoint
        have hpassed : x ≤ s.now := by simpa [expired] using hlate
        exact ⟨hforever, hx.trans hpassed⟩
    refine h.finish (p := p) ?_ hsound hl
    exact Nat.add_zero s.sem.count

theorem unpark (h : SemLedger tokens s) (hstep : semStep s (.unpark c) = some s') :
    SemLedger tokens s' := by
  simp only [semStep] at hstep
  split at hstep
  next tmo called d taken l hf =>
    obtain rfl := Option.some.inj hstep
    have hp : Pend.Sound s.now ⟨tmo, called, .waiting d .park, taken⟩ := h.pends c _ (by simp [hf])
    exact h.wait rfl (k := s.parking) (sound_cons (hp.follow (.inr ⟨d, .park, .check, rfl, rfl⟩))
      fun q hq => h.pends c q (by simp [hf, hq]))
  · exact absurd hstep (by simp)

theorem step (h : SemLedger tokens s) {a : SemStep Ctx} (ha : CountsRelease s a)
    (hstep : semStep s a = some s') : SemLedger tokens s' := by
  cases a with
  | pend c tmo =>
    simp only [semStep] at hstep
    split at hstep
    · obtain rfl := Option.some.inj hstep
      exact h.pend c tmo
    · exact absurd hstep (by simp)
  | release => exact h.release ha hstep
  | turn c =>
    simp only [semStep] at hstep
    split at hstep
    · exact absurd hstep (by simp)
    next p l hf => exact h.turn hf hstep
  | unpark c => exact h.unpark hstep
  | wake c =>
    obtain rfl := Option.some.inj hstep
    exact ⟨h.count, h.bound, h.returns, h.pends⟩
  | deliver c =>
    obtain ⟨k, -, rfl⟩ := Option.map_eq_some_iff.mp hstep
    exact ⟨h.count, h.bound, h.returns, h.pends⟩
  | advance ms =>
    obtain rfl := Option.some.inj hstep
    exact ⟨h.count, h.bound, h.returns, fun c p hp => (h.pends c p hp).later ms⟩

omit [DecidableEq Ctx] in
theorem start (tokens : UInt16) : SemLedger tokens (SemRun.start tokens : SemRun Ctx) :=
  ⟨rfl, tokens.toNat_lt, by simp [SemRun.start], by simp [SemRun.start]⟩

end SemLedger

/-- The tokens are conserved in a run exactly when each of its releases finds room in the
count. -/
theorem sem_tokens_conserved_iff (tokens : UInt16) (steps : List (SemStep Ctx)) :
    Always semStep (TokensConserved tokens) (SemRun.start tokens) steps ↔
      Meets semStep CountsRelease (SemRun.start tokens : SemRun Ctx) steps :=
  always_iff_meets (I := SemLedger tokens) (fun _ _ _ h hg hstep => h.step hg hstep)
    (fun _ h => h.conserved)
    (fun _ a _ h hstep hg => by
      cases a with
      | release => exact h.wraps hg hstep
      | _ => exact absurd trivial hg)
    (SemLedger.start tokens)

instance (r : SemReturn) : Decidable r.Sound := by
  unfold SemReturn.Sound
  split <;> infer_instance

instance [Fintype Ctx] (tokens : UInt16) (s : SemRun Ctx) : Decidable (TokensConserved tokens s) :=
  decidable_of_iff (bleNplSemGetCount s.sem + s.returns.countP (fun r => r.result = .ok) =
      tokens.toNat + s.released ∧ (∀ r ∈ s.returns, r.Sound) ∧
      ∀ c, ∀ p ∈ s.frames c, p.taken = 0)
    ⟨fun h => ⟨h.1, h.2.1, h.2.2⟩, fun h => ⟨h.1, h.2, h.3⟩⟩

/-- One release of a semaphore with 65535 tokens returns OK and leaves none. -/
theorem sem_loses_all_tokens :
    ¬ Always semStep (TokensConserved 65535) (SemRun.start 65535 : SemRun (Fin 1)) [.release] := by
  decide

end NimbleRs.Npl
