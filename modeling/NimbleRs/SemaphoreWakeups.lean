import NimbleRs.Semaphore
import Mathlib.Tactic

/-!
# Tokens and sleepers

The semaphore has one waker slot: a pend that registers overwrites the waker of another
one, and a release takes whatever waker is there. The steps below that can leave a token
to contexts that all sleep are the release that finds nobody awake and none of them in
the slot, and the pend that returns ahead of the tokens that are left.
-/
namespace NimbleRs.Npl
open TransitionSystem

variable {Ctx : Type*} [DecidableEq Ctx]

namespace SemRun

def Blocked (s : SemRun Ctx) (c : Ctx) : Prop := s.frames c ≠ []

/-- Parked, with no unpark pending and none being delivered. -/
def Asleep (s : SemRun Ctx) (c : Ctx) : Prop :=
  (∃ p ∈ (s.frames c).head?, p.parks = true) ∧ s.parking.Quiet c

instance (s : SemRun Ctx) (c : Ctx) : Decidable (s.Blocked c) :=
  inferInstanceAs (Decidable (¬ (s.frames c) = []))

instance (s : SemRun Ctx) (c : Ctx) : Decidable (s.Asleep c) :=
  inferInstanceAs (Decidable (_ ∧ _))

end SemRun

/-- When somebody is blocked and all who are blocked sleep, there is no token. -/
def NoTokenAsleep (s : SemRun Ctx) : Prop :=
  (∃ c, s.Blocked c) → (∀ c, s.Blocked c → s.Asleep c) → bleNplSemGetCount s.sem = 0

/-- A release finds one of the blocked contexts awake, or its waker in the slot, and a
pend that returns ahead of the tokens that are left finds another blocked context awake. -/
def LeavesAwake (s : SemRun Ctx) : SemStep Ctx → Prop
  | .release => (∃ d, s.Blocked d) → ∃ d, s.Blocked d ∧ (¬ s.Asleep d ∨ s.sem.waker = some d)
  | .turn c => ∀ p, s.frames c = [p] → ∀ left, p.returnsWith s.now s.sem.count = some left →
    0 < left → (∃ d, d ≠ c ∧ s.Blocked d) → ∃ d, d ≠ c ∧ s.Blocked d ∧ ¬ s.Asleep d
  | _ => True

/-- Below the innermost pend of a context, all poll the pump. -/
structure SemAttended (s : SemRun Ctx) : Prop where
  nested : ∀ c, ∀ p ∈ (s.frames c).tail, p.pumps = true
  tokens : NoTokenAsleep s

namespace SemAttended

variable {s s' : SemRun Ctx} {c : Ctx}

theorem parks_of_pumps {p : Pend} (h : p.pumps = true) : p.parks = false := by
  unfold Pend.pumps at h
  unfold Pend.parks
  split at h
  next hp => simp [hp]
  next => exact absurd h Bool.false_ne_true

theorem nested_setFrames (h : SemAttended s) {l : List Pend} (hl : ∀ p ∈ l.tail, p.pumps = true) :
    ∀ d, ∀ p ∈ ((s.setFrames c l).frames d).tail, p.pumps = true :=
  forall_tail_update h.nested hl

/-- A context that goes on to a point where it is awake will look at the tokens again. -/
theorem goOn (h : SemAttended s) {sem : Sem Ctx} {k : Parking Ctx} {p : Pend} {l : List Pend}
    (hp : p.parks = false) (hl : ∀ q ∈ l, q.pumps = true) :
    SemAttended ({ s with sem := sem, parking := k }.setFrames c (p :: l)) := by
  refine ⟨h.nested_setFrames hl, fun _ hall => ?_⟩
  obtain ⟨⟨q, hq, hparks⟩, -⟩ := hall c (by simp [SemRun.Blocked])
  obtain rfl : p = q := by simpa using hq
  rw [hp] at hparks
  exact absurd hparks Bool.false_ne_true

omit [DecidableEq Ctx] in
/-- Nobody falls asleep, and no token is added. -/
theorem same (h : SemAttended s) (hframes : s'.frames = s.frames)
    (hparking : s'.parking = s.parking) (hcount : s'.sem.count ≤ s.sem.count) :
    SemAttended s' := by
  constructor
  · rw [hframes]
    exact h.nested
  · intro hblocked hall
    simp only [SemRun.Blocked, SemRun.Asleep, hframes, hparking] at hblocked hall
    have hzero : s.sem.count = 0 := h.tokens hblocked hall
    show s'.sem.count = 0
    omega

omit [DecidableEq Ctx] in
theorem frames_pump (h : SemAttended s) (hcalls : s.Calls c) :
    ∀ p ∈ s.frames c, p.pumps = true :=
  forall_mem_of_head?_tail hcalls (h.nested c)

theorem pend (h : SemAttended s) (hcalls : s.Calls c) (tmo : ℕ) :
    SemAttended (bleNplSemPend s c tmo) := by
  unfold bleNplSemPend
  obtain ⟨hpos, htake⟩ | ⟨hzero, htake⟩ := tryTake_cases s.sem
  · simp only [htake, if_true]
    exact h.same (Function.update_eq_self c s.frames) rfl (Nat.sub_le s.sem.count 1)
  · simp only [htake, Bool.false_eq_true, if_false]
    by_cases htmo : tmo = 0
    · rw [if_pos htmo]
      exact h.same (Function.update_eq_self c s.frames) rfl le_rfl
    · rw [if_neg htmo]
      exact h.goOn rfl (h.frames_pump hcalls) (k := s.parking)

theorem release (h : SemAttended s) (hawake : LeavesAwake s .release)
    (hstep : semStep s .release = some s') : SemAttended s' := by
  obtain rfl := Option.some.inj hstep
  refine ⟨h.nested, fun hblocked hall => ?_⟩
  obtain ⟨d, hd, hdawake⟩ := hawake hblocked
  obtain ⟨hpark, hquiet⟩ := hall d hd
  have hquiet' : (s.sem.waker.elim s.parking s.parking.wake).Quiet d := hquiet
  obtain hdawake | hwaker := hdawake
  · refine absurd ⟨hpark, ?_⟩ hdawake
    cases hw : s.sem.waker with
    | none => simpa [hw] using hquiet'
    | some e =>
      rw [hw] at hquiet'
      exact hquiet'.of_wake
  · rw [hwaker] at hquiet'
    exact absurd (List.mem_cons_self) hquiet'.2

/-- The pend of a context that is not nested returns, with these tokens left. -/
theorem returned (h : SemAttended s) {p : Pend} (hf : s.frames c = [p]) {sem : Sem Ctx}
    (hret : p.returnsWith s.now s.sem.count = some sem.count) (hawake : LeavesAwake s (.turn c))
    (hframes : s'.frames = Function.update s.frames c []) (hparking : s'.parking = s.parking)
    (hsem : s'.sem = sem) : SemAttended s' := by
  constructor
  · rw [hframes]
    exact h.nested_setFrames (l := []) (by simp)
  · intro hblocked hall
    show s'.sem.count = 0
    rw [hsem]
    by_contra hne
    obtain ⟨d, hd⟩ := hblocked
    have hother : d ≠ c ∧ s.Blocked d := by
      simp only [SemRun.Blocked, hframes] at hd
      by_cases hdc : d = c
      · rw [hdc, Function.update_self] at hd
        exact absurd rfl hd
      · rw [Function.update_of_ne hdc] at hd
        exact ⟨hdc, hd⟩
    obtain ⟨e, hec, he, hwake⟩ := hawake p hf sem.count hret (by omega) ⟨d, hother⟩
    have hasleep := hall e (by simpa [SemRun.Blocked, hframes, hec] using he)
    refine hwake ?_
    simpa [SemRun.Asleep, hframes, hparking, hec] using hasleep

theorem turn (h : SemAttended s) {p : Pend} {l : List Pend} (hf : s.frames c = p :: l)
    (hawake : LeavesAwake s (.turn c)) (hstep : s.turn c p l = some s') : SemAttended s' := by
  have hl : ∀ q ∈ l, q.pumps = true := by
    have hnested := h.nested c
    rw [hf] at hnested
    exact hnested
  have hleft : ∀ (sem : Sem Ctx) {t : SemRun Ctx},
      p.returnsWith s.now s.sem.count = some sem.count →
      t.frames = Function.update s.frames c l → t.parking = s.parking → t.sem = sem →
      SemAttended t := by
    intro sem t hret hframes hparking hsem
    cases l with
    | nil => exact h.returned hf hret hawake hframes hparking hsem
    | cons q l =>
      -- the frame below polls the pump
      have hgo : SemAttended ({ s with sem := sem }.setFrames c (q :: l)) :=
        h.goOn (k := s.parking) (parks_of_pumps (hl q List.mem_cons_self))
          (fun r hr => hl r (List.mem_cons_of_mem q hr))
      exact hgo.same hframes hparking (by rw [hsem]; exact le_rfl)
  obtain ⟨-, sem, k, q, hsem, hq, hparks, rfl⟩ | ⟨hret, hpos, rfl⟩ | ⟨hret, -, rfl⟩ :=
    SemRun.turn_cases hstep
  · cases hqp : q.parks with
    | false => exact h.goOn hqp hl
    | true =>
      have hzero : sem.count = 0 := by rw [hsem, hparks hqp]
      exact ⟨h.nested_setFrames hl, fun _ _ => hzero⟩
  · exact hleft { s.sem with count := s.sem.count - 1 } hret rfl rfl rfl
  · exact hleft s.sem hret rfl rfl rfl

theorem unpark (h : SemAttended s) (hstep : semStep s (.unpark c) = some s') :
    SemAttended s' := by
  simp only [semStep] at hstep
  split at hstep
  next tmo called d taken l hf =>
    obtain rfl := Option.some.inj hstep
    have hnested := h.nested c
    rw [hf] at hnested
    exact h.goOn rfl hnested (k := s.parking)
  · exact absurd hstep (by simp)

omit [DecidableEq Ctx] in
theorem wake (h : SemAttended s) (c : Ctx) :
    SemAttended { s with parking := s.parking.wake c } :=
  ⟨h.nested, fun hblocked hall =>
    h.tokens hblocked (fun d hd => ⟨(hall d hd).1, (hall d hd).2.of_wake⟩)⟩

theorem deliver (h : SemAttended s) {k : Parking Ctx} (hk : s.parking.deliver c = some k) :
    SemAttended { s with parking := k } := by
  refine ⟨h.nested, fun hblocked hall => h.tokens hblocked (fun d hd => ?_)⟩
  obtain ⟨hpark, hquiet⟩ := hall d hd
  exact ⟨hpark, hquiet.of_deliver hk⟩

theorem step (h : SemAttended s) {a : SemStep Ctx} (hawake : LeavesAwake s a)
    (hstep : semStep s a = some s') : SemAttended s' := by
  cases a with
  | pend c tmo =>
    simp only [semStep] at hstep
    split at hstep
    next hcalls =>
      obtain rfl := Option.some.inj hstep
      exact h.pend hcalls tmo
    · exact absurd hstep (by simp)
  | release => exact h.release hawake hstep
  | turn c =>
    simp only [semStep] at hstep
    split at hstep
    · exact absurd hstep (by simp)
    next p l hf => exact h.turn hf hawake hstep
  | unpark c => exact h.unpark hstep
  | wake c =>
    obtain rfl := Option.some.inj hstep
    exact h.wake c
  | deliver c =>
    obtain ⟨k, hk, rfl⟩ := Option.map_eq_some_iff.mp hstep
    exact h.deliver hk
  | advance ms =>
    obtain rfl := Option.some.inj hstep
    exact ⟨h.nested, h.tokens⟩

/-- A release that finds everybody asleep, and none of them in the slot, wakes nobody. -/
theorem release_asleep (h : SemAttended s) (hawake : ¬ LeavesAwake s .release)
    (hstep : semStep s .release = some s') : ¬ NoTokenAsleep s' := by
  simp only [LeavesAwake] at hawake
  push Not at hawake
  obtain ⟨hblocked, hasleep⟩ := hawake
  have hzero : s.sem.count = 0 := h.tokens hblocked (fun d hd => (hasleep d hd).1)
  obtain rfl := Option.some.inj hstep
  intro hnone
  have hcount := hnone hblocked (fun d hd => ?_)
  · have hone : (s.sem.count + 1) % 2 ^ 16 = 0 := hcount
    omega
  · obtain ⟨⟨hpark, hquiet⟩, hwaker⟩ := hasleep d hd
    refine ⟨hpark, ?_⟩
    show (s.sem.waker.elim s.parking s.parking.wake).Quiet d
    cases hw : s.sem.waker with
    | none => exact hquiet
    | some e =>
      refine ⟨hquiet.1, fun hmem => ?_⟩
      obtain rfl | hmem := List.mem_cons.mp hmem
      · exact hwaker hw
      · exact hquiet.2 hmem

/-- A pend that returns ahead of tokens leaves them to contexts that all sleep. -/
theorem turn_asleep (hawake : ¬ LeavesAwake s (.turn c))
    (hstep : semStep s (.turn c) = some s') : ¬ NoTokenAsleep s' := by
  simp only [LeavesAwake] at hawake
  push Not at hawake
  obtain ⟨p, hf, left, hret, hleft, ⟨d, hdc, hd⟩, hasleep⟩ := hawake
  have hturn : s.turn c p [] = some s' := by simpa [semStep, hf] using hstep
  have hlost : s'.frames = Function.update s.frames c [] → s'.parking = s.parking →
      s'.sem.count = left → ¬ NoTokenAsleep s' := by
    intro hframes hparking hcount hnone
    have hblocked : ∀ e, s'.Blocked e → e ≠ c ∧ s.Blocked e := by
      intro e he
      simp only [SemRun.Blocked, hframes] at he
      by_cases hec : e = c
      · rw [hec, Function.update_self] at he
        exact absurd rfl he
      · rw [Function.update_of_ne hec] at he
        exact ⟨hec, he⟩
    have hzero : s'.sem.count = 0 := by
      refine hnone ⟨d, ?_⟩ (fun e he => ?_)
      · simpa [SemRun.Blocked, hframes, hdc] using hd
      · obtain ⟨hec, he⟩ := hblocked e he
        simpa [SemRun.Asleep, hframes, hparking, hec] using hasleep e hec he
    omega
  obtain ⟨hnot, -⟩ | ⟨hret', -, rfl⟩ | ⟨hret', -, rfl⟩ := SemRun.turn_cases hturn
  · rw [hnot] at hret
    exact absurd hret (by simp)
  · rw [hret'] at hret
    exact hlost rfl rfl (Option.some.inj hret)
  · rw [hret'] at hret
    exact hlost rfl rfl (Option.some.inj hret)

omit [DecidableEq Ctx] in
theorem start (tokens : UInt16) : SemAttended (SemRun.start tokens : SemRun Ctx) :=
  ⟨by simp [SemRun.start], fun hblocked => by simp [SemRun.start, SemRun.Blocked] at hblocked⟩

end SemAttended

/-- No token is left to contexts that all sleep in a run whose releases and returns leave
somebody awake for it, and in no other run. -/
theorem sem_no_token_asleep_iff (tokens : UInt16) (steps : List (SemStep Ctx)) :
    Always semStep NoTokenAsleep (SemRun.start tokens) steps ↔
      Meets semStep LeavesAwake (SemRun.start tokens : SemRun Ctx) steps :=
  always_iff_meets (I := SemAttended) (fun _ _ _ h hg hstep => h.step hg hstep)
    (fun _ h => h.tokens)
    (fun _ a _ h hstep hg => by
      cases a with
      | release => exact h.release_asleep hg hstep
      | turn c => exact SemAttended.turn_asleep hg hstep
      | _ => exact absurd trivial hg)
    (SemAttended.start tokens)

instance [Fintype Ctx] (s : SemRun Ctx) : Decidable (NoTokenAsleep s) :=
  inferInstanceAs (Decidable ((∃ c, s.Blocked c) → (∀ c, s.Blocked c → s.Asleep c) →
    bleNplSemGetCount s.sem = 0))

/-- Two contexts pend one after the other until they park, and two tokens are released:
the second waker has overwritten the first one, so that only its context is woken. -/
theorem token_left_to_sleeper :
    let waits : Fin 2 → List (SemStep (Fin 2)) := fun c =>
      .pend c forever :: List.replicate 7 (.turn c)
    ¬ Always semStep NoTokenAsleep (SemRun.start 0)
      (waits 0 ++ waits 1 ++ [.release, .release, .deliver 1, .turn 1, .turn 1]) := by
  decide

end NimbleRs.Npl
