import NimbleRs.Mutex
import NimbleRs.TransitionSystem
import Mathlib.Tactic

/-!
# NPL critical sections

`ble_npl_hw_enter_critical`, `ble_npl_hw_exit_critical` and `ble_npl_hw_is_in_critical` on the
static `CS_STATE`, any number of contexts, one statement at a time. Of `critical_section` only
this is taken: a context waits in `acquire` while another one is in a section. The owner is
read outside of any section, so that a context can see every half-done enter and exit of
another one. A restore state stands for the `acquire` that returned it.
-/
namespace NimbleRs.Npl
open TransitionSystem

structure CsState where
  owner : ℕ
  depth : ℕ
  restore : Option ℕ

theorem CsState.setDepth_owner (cs : CsState) (depth : ℕ) :
    { cs with depth := depth }.owner = cs.owner := rfl

theorem CsState.setDepth_depth (cs : CsState) (depth : ℕ) :
    { cs with depth := depth }.depth = depth := rfl

/-- The statement that a context executes next; `restore` is the local variable. -/
inductive CsPoint
  | idle
  | nest
  | acquire
  | setOwner (restore : ℕ)
  | setDepth (restore : ℕ)
  | setRestore (restore : ℕ)
  | decDepth
  | testDepth
  | clearOwner
  | take
  | release (restore : ℕ)
  deriving DecidableEq

inductive CsEvent (Ctx : Type*)
  | acquire (c : Ctx) (restore : ℕ)
  | release (c : Ctx) (restore : ℕ)

structure Critical (Ctx : Type*) where
  cs : CsState
  /-- The sections that were acquired and not released, the innermost one first. -/
  sections : List (Ctx × ℕ)
  acquired : ℕ
  log : List (CsEvent Ctx)
  point : Ctx → CsPoint
  /-- The enters of each context that have returned, less its exits that have. -/
  opened : Ctx → ℕ

/-- A call is made, or a context executes its next statement. -/
inductive CsStep (Ctx : Type*)
  | enter (c : Ctx)
  | exit (c : Ctx)
  | turn (c : Ctx)

variable {Ctx : Type*} [DecidableEq Ctx]

namespace Critical

omit [DecidableEq Ctx] in
def start : Critical Ctx := ⟨⟨0, 0, none⟩, [], 0, [], fun _ => .idle, fun _ => 0⟩

def goTo (s : Critical Ctx) (c : Ctx) (p : CsPoint) : Critical Ctx :=
  { s with point := Function.update s.point c p }

def enterReturns (s : Critical Ctx) (c : Ctx) : Critical Ctx :=
  { s with opened := Function.update s.opened c (s.opened c + 1) }.goTo c .idle

def exitReturns (s : Critical Ctx) (c : Ctx) : Critical Ctx :=
  { s with opened := Function.update s.opened c (s.opened c - 1) }.goTo c .idle

/-- `critical_section::acquire`, with the restore state `s.acquired`. -/
def acquireSection (s : Critical Ctx) (c : Ctx) : Critical Ctx :=
  { s with
    sections := (c, s.acquired) :: s.sections
    acquired := s.acquired + 1
    log := s.log ++ [.acquire c s.acquired] }

/-- `critical_section::release` -/
def releaseSection (s : Critical Ctx) (c : Ctx) (restore : ℕ) : Critical Ctx :=
  { s with
    sections := s.sections.erase (c, restore)
    log := s.log ++ [.release c restore] }

/-- The next statement of the context. -/
def turn (s : Critical Ctx) (me : ℕ) (c : Ctx) : Option (Critical Ctx) :=
  match s.point c with
  | .idle => none
  | .nest =>
    some ({ s with cs := { s.cs with depth := (s.cs.depth + 1) % 2 ^ 32 } }.enterReturns c)
  | .acquire =>
    if ∀ e ∈ s.sections, e.1 = c then
      some ((s.acquireSection c).goTo c (.setOwner s.acquired))
    else none
  | .setOwner restore =>
    some ({ s with cs := { s.cs with owner := me } }.goTo c (.setDepth restore))
  | .setDepth restore =>
    some ({ s with cs := { s.cs with depth := 1 } }.goTo c (.setRestore restore))
  | .setRestore restore =>
    some ({ s with cs := { s.cs with restore := some restore } }.enterReturns c)
  | .decDepth =>
    some ({ s with cs := { s.cs with depth := (s.cs.depth + 2 ^ 32 - 1) % 2 ^ 32 } }.goTo c
      .testDepth)
  | .testDepth => some (if s.cs.depth = 0 then s.goTo c .clearOwner else s.exitReturns c)
  | .clearOwner => some ({ s with cs := { s.cs with owner := 0 } }.goTo c .take)
  | .take =>
    match s.cs.restore with
    | none => some (s.exitReturns c)
    | some restore =>
      some ({ s with cs := { s.cs with restore := none } }.goTo c (.release restore))
  | .release restore => some ((s.releaseSection c restore).exitReturns c)

end Critical

/-- A context exits only what it has entered. -/
def csStep (ids : CtxIds Ctx) (s : Critical Ctx) : CsStep Ctx → Option (Critical Ctx)
  | .enter c =>
    if s.point c = .idle then
      some (s.goTo c (if s.cs.owner = ids.ctxId c then .nest else .acquire))
    else none
  | .exit c => if s.point c = .idle ∧ 0 < s.opened c then some (s.goTo c .decDepth) else none
  | .turn c => s.turn (ids.ctxId c) c

def bleNplHwIsInCritical (ids : CtxIds Ctx) (cs : CsState) (c : Ctx) : Bool :=
  cs.owner = ids.ctxId c

/-- An enter nests less than 2^32 deep. -/
def NestsShallow (s : Critical Ctx) : CsStep Ctx → Prop
  | .enter c => s.opened c + 1 < 2 ^ 32
  | _ => True

/-- Every acquire is followed by the release of its restore state by the same context, and no
restore state is given out twice; `held` is the section that is not released yet. -/
inductive Alternates : List (CsEvent Ctx) → ℕ → Option (Ctx × ℕ) → Prop
  | nil : Alternates [] 0 none
  | acquire {log : List (CsEvent Ctx)} {n : ℕ} (h : Alternates log n none) (c : Ctx) :
    Alternates (log ++ [.acquire c n]) (n + 1) (some (c, n))
  | release {log : List (CsEvent Ctx)} {n : ℕ} {c : Ctx} {r : ℕ}
    (h : Alternates log n (some (c, r))) : Alternates (log ++ [.release c r]) n none

namespace Critical

/-- The context has entered or has acquired the section, and has not left it. -/
def Inside (s : Critical Ctx) (c : Ctx) : Prop :=
  0 < s.opened c ∨ s.point c ≠ .idle ∧ s.point c ≠ .acquire

/-- The context is not inside, but may be on its way to the section. -/
def Outside (s : Critical Ctx) (c : Ctx) : Prop :=
  s.opened c = 0 ∧ (s.point c = .idle ∨ s.point c = .acquire)

end Critical

def CsEvent.releases (r : ℕ) : CsEvent Ctx → Bool
  | .acquire _ _ => false
  | .release _ r' => r' = r

/-- What the callers of the critical sections rely on, between and during their calls. -/
structure Exclusive (ids : CtxIds Ctx) (s : Critical Ctx) : Prop where
  one : ∀ c d, s.Inside c → s.Inside d → c = d
  depth : ∀ c, s.point c = .idle → 0 < s.opened c → s.cs.depth = s.opened c
  holder : ∀ c, s.Inside c ↔ ∃ r, s.sections = [(c, r)]
  alternates : Alternates s.log s.acquired s.sections.head?
  released : ∀ r, s.log.countP (CsEvent.releases r) =
    if r < s.acquired ∧ ∀ e ∈ s.sections, e.2 ≠ r then 1 else 0
  outermost : ∀ c r, s.point c = .release r → s.opened c = 1
  isInCritical : ∀ c, s.point c = .idle → (bleNplHwIsInCritical ids s.cs c = true ↔ s.Inside c)
  /-- The assertion of `ble_npl_hw_exit_critical`. -/
  asserted : ∀ c, s.point c = .decDepth → s.cs.owner = ids.ctxId c ∧ 0 < s.cs.depth

/-- Where the context stands that holds the section with the restore state `r`. -/
def Phase (me r : ℕ) (cs : CsState) (opened : ℕ) : CsPoint → Prop
  | .acquire => False
  | .setOwner r' => r' = r ∧ cs.owner = 0 ∧ cs.restore = none ∧ opened = 0
  | .setDepth r' => r' = r ∧ cs.owner = me ∧ cs.restore = none ∧ opened = 0
  | .setRestore r' => r' = r ∧ cs.owner = me ∧ cs.depth = 1 ∧ cs.restore = none ∧ opened = 0
  | .idle | .decDepth =>
    cs.owner = me ∧ cs.depth = opened ∧ 0 < opened ∧ opened < 2 ^ 32 ∧ cs.restore = some r
  | .nest => cs.owner = me ∧ cs.depth = opened ∧ opened + 1 < 2 ^ 32 ∧ cs.restore = some r
  | .testDepth =>
    cs.owner = me ∧ cs.depth + 1 = opened ∧ opened < 2 ^ 32 ∧ cs.restore = some r
  | .clearOwner => cs.owner = me ∧ opened = 1 ∧ cs.restore = some r
  | .take => cs.owner = 0 ∧ opened = 1 ∧ cs.restore = some r
  | .release r' => r' = r ∧ cs.owner = 0 ∧ cs.restore = none ∧ opened = 1

/-- Nobody has the section. -/
structure Vacant (s : Critical Ctx) : Prop where
  owner : s.cs.owner = 0
  restore : s.cs.restore = none
  sections : s.sections = []
  log : Alternates s.log s.acquired none
  outside : ∀ c, s.Outside c

/-- The context has the section with the restore state `r`, and is the only one that does. -/
structure Holder (ids : CtxIds Ctx) (s : Critical Ctx) (c : Ctx) (r : ℕ) : Prop where
  sections : s.sections = [(c, r)]
  log : Alternates s.log s.acquired (some (c, r))
  phase : Phase (ids.ctxId c) r s.cs (s.opened c) (s.point c)
  others : ∀ d, d ≠ c → s.Outside d

def CsInv (ids : CtxIds Ctx) (s : Critical Ctx) : Prop := Vacant s ∨ ∃ c r, Holder ids s c r

/-- A step of a context changes nothing about the section and the other contexts. -/
structure Kept (c : Ctx) (s s' : Critical Ctx) : Prop where
  sections : s'.sections = s.sections
  log : s'.log = s.log
  acquired : s'.acquired = s.acquired
  point : ∀ d, d ≠ c → s'.point d = s.point d
  opened : ∀ d, d ≠ c → s'.opened d = s.opened d

namespace Critical

@[simp] theorem goTo_point (s : Critical Ctx) (c : Ctx) (p : CsPoint) : (s.goTo c p).point c = p :=
  Function.update_self ..

@[simp] theorem enterReturns_point (s : Critical Ctx) (c : Ctx) :
    (s.enterReturns c).point c = .idle := goTo_point ..

@[simp] theorem exitReturns_point (s : Critical Ctx) (c : Ctx) :
    (s.exitReturns c).point c = .idle := goTo_point ..

@[simp] theorem enterReturns_opened (s : Critical Ctx) (c : Ctx) :
    (s.enterReturns c).opened c = s.opened c + 1 := Function.update_self ..

@[simp] theorem exitReturns_opened (s : Critical Ctx) (c : Ctx) :
    (s.exitReturns c).opened c = s.opened c - 1 := Function.update_self ..

theorem kept_goTo (s : Critical Ctx) (cs : CsState) (c : Ctx) (p : CsPoint) :
    Kept c s ({ s with cs := cs }.goTo c p) :=
  ⟨rfl, rfl, rfl, fun _ hd => Function.update_of_ne hd _ s.point, fun _ _ => rfl⟩

theorem kept_enterReturns (s : Critical Ctx) (cs : CsState) (c : Ctx) :
    Kept c s ({ s with cs := cs }.enterReturns c) :=
  ⟨rfl, rfl, rfl, fun _ hd => Function.update_of_ne hd _ s.point,
    fun _ hd => Function.update_of_ne hd _ s.opened⟩

theorem kept_exitReturns (s : Critical Ctx) (c : Ctx) : Kept c s (s.exitReturns c) :=
  ⟨rfl, rfl, rfl, fun _ hd => Function.update_of_ne hd _ s.point,
    fun _ hd => Function.update_of_ne hd _ s.opened⟩

end Critical

section Invariant
variable {ids : CtxIds Ctx} {s s' : Critical Ctx} {c d : Ctx} {r : ℕ}

omit [DecidableEq Ctx] in
theorem Kept.outside (h : Kept c s s') (hd : d ≠ c) (hout : s.Outside d) : s'.Outside d := by
  unfold Critical.Outside
  rw [h.opened d hd, h.point d hd]
  exact hout

omit [DecidableEq Ctx] in
theorem Phase.owner {me opened : ℕ} {cs : CsState} {p : CsPoint} (h : Phase me r cs opened p) :
    cs.owner = 0 ∨ cs.owner = me := by
  cases p <;> simp only [Phase] at h <;> tauto

omit [DecidableEq Ctx] in
theorem Phase.decDepth {me opened : ℕ} {cs : CsState} (h : Phase me r cs opened .decDepth) :
    Phase me r { cs with depth := (cs.depth + 2 ^ 32 - 1) % 2 ^ 32 } opened .testDepth := by
  obtain ⟨howner, hdepth, hpos, hlt, hrestore⟩ := h
  have hless : (cs.depth + 2 ^ 32 - 1) % 2 ^ 32 + 1 = opened := by omega
  generalize (cs.depth + 2 ^ 32 - 1) % 2 ^ 32 = depth at hless
  exact ⟨howner, hless, hlt, hrestore⟩

/-- A context that is not the owner does not take itself for it. -/
theorem enter_of_ne (hidle : s.point d = .idle) (howner : s.cs.owner ≠ ids.ctxId d)
    (hstep : csStep ids s (.enter d) = some s') : s' = s.goTo d .acquire := by
  simp only [csStep, hidle, if_true, if_neg howner, Option.some.injEq] at hstep
  exact hstep.symm

/-- What a context does that is outside: it enters, up to the `acquire`, or it gets the section. -/
theorem outside_step (hout : s.Outside d) (howner : s.cs.owner ≠ ids.ctxId d) {a : CsStep Ctx}
    (ha : a = .enter d ∨ a = .exit d ∨ a = .turn d) (hstep : csStep ids s a = some s') :
    s' = s.goTo d .acquire ∨ s.point d = .acquire ∧ (∀ e ∈ s.sections, e.1 = d) ∧
      s' = (s.acquireSection d).goTo d (.setOwner s.acquired) := by
  obtain ⟨hopened, hpoint⟩ := hout
  rcases ha with rfl | rfl | rfl
  · left
    rcases hpoint with hidle | hacquire
    · exact enter_of_ne hidle howner hstep
    · simp [csStep, hacquire] at hstep
  · simp [csStep, hopened] at hstep
  · right
    rcases hpoint with hidle | hacquire
    · simp [csStep, Critical.turn, hidle] at hstep
    · simp only [csStep, Critical.turn, hacquire] at hstep
      by_cases hall : ∀ e ∈ s.sections, e.1 = d
      · rw [if_pos hall] at hstep
        exact ⟨hacquire, hall, (Option.some.inj hstep).symm⟩
      · rw [if_neg hall] at hstep
        exact absurd hstep (by simp)

theorem outside_goTo_acquire (hout : s.Outside c) (d : Ctx) (hd : s.opened d = 0) :
    (s.goTo d .acquire).Outside c := by
  by_cases hcd : c = d
  · subst hcd
    exact ⟨hd, .inr (Critical.goTo_point ..)⟩
  · exact (Critical.kept_goTo s s.cs d .acquire).outside hcd hout

end Invariant

namespace Holder
variable {ids : CtxIds Ctx} {s s' : Critical Ctx} {c d : Ctx} {r : ℕ}

omit [DecidableEq Ctx] in
theorem of_kept (h : Holder ids s c r) (hkept : Kept c s s')
    (hphase : Phase (ids.ctxId c) r s'.cs (s'.opened c) (s'.point c)) : Holder ids s' c r := by
  constructor
  case sections => rw [hkept.sections, h.sections]
  case log =>
    rw [hkept.log, hkept.acquired]
    exact h.log
  case phase => exact hphase
  case others => exact fun d hd => hkept.outside hd (h.others d hd)

theorem enter (h : Holder ids s c r) (hnests : NestsShallow s (.enter c))
    (hstep : csStep ids s (.enter c) = some s') : Holder ids s' c r := by
  have hphase := h.phase
  simp only [csStep] at hstep
  split at hstep
  · next hidle =>
    rw [hidle] at hphase
    obtain ⟨howner, hdepth, -, -, hrestore⟩ := hphase
    rw [if_pos howner] at hstep
    obtain rfl := Option.some.inj hstep
    apply h.of_kept (Critical.kept_goTo s s.cs c .nest)
    rw [Critical.goTo_point]
    exact ⟨howner, hdepth, hnests, hrestore⟩
  · exact absurd hstep (by simp)

theorem exit (h : Holder ids s c r) (hstep : csStep ids s (.exit c) = some s') :
    Holder ids s' c r := by
  have hphase := h.phase
  simp only [csStep] at hstep
  split at hstep
  · next hcalls =>
    rw [hcalls.1] at hphase
    obtain rfl := Option.some.inj hstep
    apply h.of_kept (Critical.kept_goTo s s.cs c .decDepth)
    rw [Critical.goTo_point]
    exact hphase
  · exact absurd hstep (by simp)

/-- The last statement of the outermost exit. -/
theorem released (h : Holder ids s c r) (hrelease : s.point c = .release r) :
    Vacant ((s.releaseSection c r).exitReturns c) := by
  have hphase := h.phase
  rw [hrelease] at hphase
  obtain ⟨-, howner, hrestore, hopened⟩ := hphase
  constructor
  case owner => exact howner
  case restore => exact hrestore
  case sections =>
    show s.sections.erase (c, r) = []
    rw [h.sections]
    simp
  case log => exact h.log.release
  case outside =>
    intro d
    by_cases hd : d = c
    · subst hd
      refine ⟨?_, .inl (Critical.exitReturns_point ..)⟩
      rw [Critical.exitReturns_opened]
      show s.opened d - 1 = 0
      omega
    · exact (Critical.kept_exitReturns (s.releaseSection c r) c).outside hd (h.others d hd)

/-- The holder goes on by one statement, through all points of its enters and exits. -/
theorem turn (h : Holder ids s c r) (hstep : csStep ids s (.turn c) = some s') : CsInv ids s' := by
  have hphase := h.phase
  have hkeep {t : Critical Ctx} (hkept : Kept c s t)
      (ht : Phase (ids.ctxId c) r t.cs (t.opened c) (t.point c)) : CsInv ids t :=
    .inr ⟨c, r, h.of_kept hkept ht⟩
  change s.turn (ids.ctxId c) c = some s' at hstep
  unfold Critical.turn at hstep
  cases hp : s.point c with
  | idle => simp [hp] at hstep
  | acquire =>
    rw [hp] at hphase
    exact absurd hphase id
  | nest =>
    rw [hp] at hphase hstep
    obtain ⟨howner, hdepth, hlt, hrestore⟩ := hphase
    obtain rfl := Option.some.inj hstep
    apply hkeep (Critical.kept_enterReturns s _ c)
    rw [Critical.enterReturns_point, Critical.enterReturns_opened]
    have hmore : (s.cs.depth + 1) % 2 ^ 32 = s.opened c + 1 := by
      rw [hdepth, Nat.mod_eq_of_lt hlt]
    exact ⟨howner, hmore, Nat.succ_pos _, hlt, hrestore⟩
  | setOwner r' =>
    rw [hp] at hphase hstep
    obtain ⟨rfl, -, hrestore, hopened⟩ := hphase
    obtain rfl := Option.some.inj hstep
    apply hkeep (Critical.kept_goTo s _ c _)
    rw [Critical.goTo_point]
    exact ⟨rfl, rfl, hrestore, hopened⟩
  | setDepth r' =>
    rw [hp] at hphase hstep
    obtain ⟨rfl, howner, hrestore, hopened⟩ := hphase
    obtain rfl := Option.some.inj hstep
    apply hkeep (Critical.kept_goTo s _ c _)
    rw [Critical.goTo_point]
    exact ⟨rfl, howner, rfl, hrestore, hopened⟩
  | setRestore r' =>
    rw [hp] at hphase hstep
    obtain ⟨rfl, howner, hdepth, -, hopened⟩ := hphase
    obtain rfl := Option.some.inj hstep
    apply hkeep (Critical.kept_enterReturns s _ c)
    rw [Critical.enterReturns_point, Critical.enterReturns_opened]
    simp only [hopened]
    exact ⟨howner, hdepth, by norm_num, by norm_num, rfl⟩
  | decDepth =>
    rw [hp] at hphase hstep
    obtain rfl := Option.some.inj hstep
    apply hkeep (Critical.kept_goTo s _ c _)
    rw [Critical.goTo_point]
    exact hphase.decDepth
  | testDepth =>
    rw [hp] at hphase hstep
    obtain ⟨howner, hdepth, hlt, hrestore⟩ := hphase
    obtain rfl := Option.some.inj hstep
    by_cases hzero : s.cs.depth = 0
    · rw [if_pos hzero]
      apply hkeep (Critical.kept_goTo s s.cs c .clearOwner)
      rw [Critical.goTo_point]
      have hone : s.opened c = 1 := by omega
      exact ⟨howner, hone, hrestore⟩
    · rw [if_neg hzero]
      apply hkeep (Critical.kept_exitReturns s c)
      rw [Critical.exitReturns_point, Critical.exitReturns_opened]
      have hless : s.cs.depth = s.opened c - 1 := by omega
      exact ⟨howner, hless, by omega, by omega, hrestore⟩
  | clearOwner =>
    rw [hp] at hphase hstep
    obtain ⟨-, hopened, hrestore⟩ := hphase
    obtain rfl := Option.some.inj hstep
    apply hkeep (Critical.kept_goTo s _ c _)
    rw [Critical.goTo_point]
    exact ⟨rfl, hopened, hrestore⟩
  | take =>
    rw [hp] at hphase hstep
    obtain ⟨howner, hopened, hrestore⟩ := hphase
    simp only [hrestore, Option.some.injEq] at hstep
    subst hstep
    apply hkeep (Critical.kept_goTo s _ c _)
    rw [Critical.goTo_point]
    exact ⟨rfl, howner, rfl, hopened⟩
  | release r' =>
    rw [hp] at hphase hstep
    obtain ⟨rfl, -, -, -⟩ := hphase
    obtain rfl := Option.some.inj hstep
    exact .inl (h.released hp)

/-- A context that is outside gets no further than the `acquire` while another one holds the
section: it reads an owner that is not itself, whatever the holder has done so far. -/
theorem other (h : Holder ids s c r) (hd : d ≠ c) {a : CsStep Ctx}
    (ha : a = .enter d ∨ a = .exit d ∨ a = .turn d) (hstep : csStep ids s a = some s') :
    Holder ids s' c r := by
  have hout := h.others d hd
  have hne : s.cs.owner ≠ ids.ctxId d := by
    rcases h.phase.owner with hzero | hholder
    · rw [hzero]
      exact (ids.ne_zero d).symm
    · rw [hholder]
      exact fun heq => hd (ids.injective heq).symm
  rcases outside_step hout hne ha hstep with rfl | ⟨-, hall, -⟩
  · constructor
    case sections => exact h.sections
    case log => exact h.log
    case phase =>
      have hpoint : (s.goTo d .acquire).point c = s.point c :=
        Function.update_of_ne (Ne.symm hd) _ s.point
      rw [hpoint]
      exact h.phase
    case others => exact fun e he => outside_goTo_acquire (h.others e he) d hout.1
  · have hmem : (c, r) ∈ s.sections := by simp [h.sections]
    exact absurd (hall _ hmem).symm hd

theorem step (h : Holder ids s c r) {a : CsStep Ctx} (hnests : NestsShallow s a)
    (ha : a = .enter d ∨ a = .exit d ∨ a = .turn d) (hstep : csStep ids s a = some s') :
    CsInv ids s' := by
  by_cases hd : d = c
  · subst hd
    rcases ha with rfl | rfl | rfl
    · exact .inr ⟨d, r, h.enter hnests hstep⟩
    · exact .inr ⟨d, r, h.exit hstep⟩
    · exact h.turn hstep
  · exact .inr ⟨c, r, h.other hd ha hstep⟩

end Holder

section Steps
variable {ids : CtxIds Ctx} {s s' : Critical Ctx} {c d : Ctx} {r : ℕ}

theorem Vacant.step (h : Vacant s) {a : CsStep Ctx}
    (ha : a = .enter d ∨ a = .exit d ∨ a = .turn d) (hstep : csStep ids s a = some s') :
    CsInv ids s' := by
  have hne : s.cs.owner ≠ ids.ctxId d := by
    rw [h.owner]
    exact (ids.ne_zero d).symm
  have hout := h.outside d
  rcases outside_step hout hne ha hstep with rfl | ⟨-, -, rfl⟩
  · left
    exact ⟨h.owner, h.restore, h.sections, h.log,
      fun c => outside_goTo_acquire (h.outside c) d hout.1⟩
  · right
    refine ⟨d, s.acquired, ?_⟩
    constructor
    case sections =>
      show (d, s.acquired) :: s.sections = _
      rw [h.sections]
    case log => exact h.log.acquire d
    case phase =>
      rw [Critical.goTo_point]
      exact ⟨rfl, h.owner, h.restore, hout.1⟩
    case others =>
      intro c hc
      exact (Critical.kept_goTo (s.acquireSection d) s.cs d _).outside hc (h.outside c)

theorem CsInv.step (h : CsInv ids s) {a : CsStep Ctx} (hnests : NestsShallow s a)
    (hstep : csStep ids s a = some s') : CsInv ids s' := by
  obtain ⟨d, ha⟩ : ∃ d, a = .enter d ∨ a = .exit d ∨ a = .turn d := by
    cases a <;> simp
  rcases h with h | ⟨c, r, h⟩
  · exact h.step ha hstep
  · exact h.step hnests ha hstep

omit [DecidableEq Ctx] in
theorem csInv_start (ids : CtxIds Ctx) : CsInv ids Critical.start :=
  .inl ⟨rfl, rfl, rfl, .nil, fun _ => ⟨rfl, .inl rfl⟩⟩

omit [DecidableEq Ctx] in
theorem Critical.Outside.not_inside (h : s.Outside c) : ¬ s.Inside c := by
  obtain ⟨hopened, hpoint⟩ := h
  rintro (hpos | ⟨hidle, hacquire⟩)
  · omega
  · exact hpoint.elim hidle hacquire

omit [DecidableEq Ctx] in
theorem Phase.inside {me : ℕ} (h : Phase me r s.cs (s.opened c) (s.point c)) : s.Inside c := by
  by_cases hidle : s.point c = .idle
  · rw [hidle] at h
    exact .inl h.2.2.1
  · refine .inr ⟨hidle, fun hacquire => ?_⟩
    rw [hacquire] at h
    exact h

omit [DecidableEq Ctx] in
theorem Alternates.held_lt {log : List (CsEvent Ctx)} {n : ℕ} {held : Option (Ctx × ℕ)}
    (h : Alternates log n held) : ∀ e ∈ held, e.2 + 1 = n := by
  cases h with
  | nil => simp
  | acquire h c => simp
  | release h => simp

omit [DecidableEq Ctx] in
/-- A restore state that was given out has been released once, unless it is the one held. -/
theorem Alternates.released {log : List (CsEvent Ctx)} {n : ℕ} {held : Option (Ctx × ℕ)}
    (h : Alternates log n held) (r : ℕ) :
    log.countP (CsEvent.releases r) = if r < n ∧ ∀ e ∈ held, e.2 ≠ r then 1 else 0 := by
  induction h with
  | nil => simp
  | @acquire log n h c ih =>
    rw [List.countP_append, ih]
    have hnone : [CsEvent.acquire c n].countP (CsEvent.releases r) = 0 := rfl
    rw [hnone]
    have hiff : (r < n + 1 ∧ ∀ e ∈ some (c, n), e.2 ≠ r) ↔ r < n ∧ ∀ e ∈ (none : Option (Ctx × ℕ)),
        e.2 ≠ r := by
      simp
      omega
    simp only [hiff, Nat.add_zero]
  | @release log n c r' h ih =>
    rw [List.countP_append, ih]
    have hlast : r' + 1 = n := h.held_lt _ rfl
    by_cases heq : r' = r
    · have hone : [CsEvent.release c r'].countP (CsEvent.releases r) = 1 := by
        simp [CsEvent.releases, heq]
      rw [hone, if_neg (by simp [heq]), if_pos (by simp; omega)]
    · have hnone : [CsEvent.release c r'].countP (CsEvent.releases r) = 0 := by
        simp [CsEvent.releases, heq]
      simp [hnone, heq]

omit [DecidableEq Ctx] in
theorem Vacant.exclusive (h : Vacant s) : Exclusive ids s := by
  have hpoint (c : Ctx) : s.point c = .idle ∨ s.point c = .acquire := (h.outside c).2
  have hnot (c : Ctx) : ¬ s.Inside c := (h.outside c).not_inside
  constructor
  case one => exact fun c _ hc => absurd hc (hnot c)
  case depth => exact fun c _ hpos => absurd (h.outside c).1 hpos.ne'
  case holder =>
    intro c
    simp [hnot c, h.sections]
  case alternates =>
    rw [h.sections]
    exact h.log
  case released =>
    intro r
    rw [h.log.released r, h.sections]
    simp
  case outermost =>
    intro c r hrelease
    have := hpoint c
    simp [hrelease] at this
  case isInCritical =>
    intro c _
    simp [bleNplHwIsInCritical, h.owner, (ids.ne_zero c).symm, hnot c]
  case asserted =>
    intro c hdec
    have := hpoint c
    simp [hdec] at this

theorem Holder.exclusive (h : Holder ids s c r) : Exclusive ids s := by
  have hphase := h.phase
  have hholder (d : Ctx) (hd : s.Inside d) : d = c := by
    by_contra hne
    exact (h.others d hne).not_inside hd
  have hpast (d : Ctx) (hidle : s.point d ≠ .idle) (hacquire : s.point d ≠ .acquire) : d = c :=
    hholder d (.inr ⟨hidle, hacquire⟩)
  constructor
  case one => exact fun d e hd he => (hholder d hd).trans (hholder e he).symm
  case depth =>
    intro d hidle hpos
    obtain rfl := hholder d (.inl hpos)
    rw [hidle] at hphase
    exact hphase.2.1
  case holder =>
    intro d
    constructor
    · intro hd
      obtain rfl := hholder d hd
      exact ⟨r, h.sections⟩
    · rintro ⟨r', hr'⟩
      obtain ⟨rfl, -⟩ : c = d ∧ r = r' := by simpa [h.sections] using hr'
      exact hphase.inside
  case alternates =>
    rw [h.sections]
    exact h.log
  case released =>
    intro r'
    rw [h.log.released r', h.sections]
    simp
  case outermost =>
    intro d r' hrelease
    obtain rfl := hpast d (by simp [hrelease]) (by simp [hrelease])
    rw [hrelease] at hphase
    exact hphase.2.2.2
  case isInCritical =>
    intro d hidle
    simp only [bleNplHwIsInCritical, decide_eq_true_eq]
    constructor
    · intro howner
      by_contra hout
      have hne : d ≠ c := fun hd => hout (hd ▸ hphase.inside)
      rcases hphase.owner with hzero | hme
      · exact ids.ne_zero d (howner.symm.trans hzero)
      · exact hne (ids.injective (howner.symm.trans hme))
    · intro hd
      obtain rfl := hholder d hd
      rw [hidle] at hphase
      exact hphase.1
  case asserted =>
    intro d hdec
    obtain rfl := hpast d (by simp [hdec]) (by simp [hdec])
    rw [hdec] at hphase
    obtain ⟨howner, hdepth, hpos, -, -⟩ := hphase
    exact ⟨howner, hdepth ▸ hpos⟩

theorem CsInv.exclusive (h : CsInv ids s) : Exclusive ids s := by
  rcases h with h | ⟨c, r, h⟩
  · exact h.exclusive
  · exact h.exclusive

end Steps

section Runs
variable {ids : CtxIds Ctx} {s : Critical Ctx} {c : Ctx} {r : ℕ}

/-- The enter of a context that is not inside, with nobody in its way. -/
def outermostEnter (c : Ctx) : List (CsStep Ctx) :=
  [.enter c, .turn c, .turn c, .turn c, .turn c]

def nestedEnters (c : Ctx) : ℕ → List (CsStep Ctx)
  | 0 => []
  | n + 1 => .enter c :: .turn c :: nestedEnters c n

theorem csStep_enter_nested (hidle : s.point c = .idle) (howner : s.cs.owner = ids.ctxId c) :
    csStep ids s (.enter c) = some (s.goTo c .nest) := by
  simp [csStep, hidle, howner]

theorem csStep_turn_nest (hnest : s.point c = .nest) :
    ∃ cs, csStep ids s (.turn c) = some ({ s with cs := cs }.enterReturns c) ∧
      cs.owner = s.cs.owner ∧ cs.depth = (s.cs.depth + 1) % 2 ^ 32 := by
  refine ⟨{ s.cs with depth := (s.cs.depth + 1) % 2 ^ 32 }, ?_,
    CsState.setDepth_owner .., CsState.setDepth_depth ..⟩
  simp only [csStep, Critical.turn, hnest]

theorem nestedEnters_run (hidle : s.point c = .idle) (howner : s.cs.owner = ids.ctxId c)
    (hdepth : s.cs.depth < 2 ^ 32) (n : ℕ) :
    ∃ t, run (csStep ids) s (nestedEnters c n) = some t ∧ t.point c = .idle ∧
      t.opened c = s.opened c + n ∧ t.cs.depth = (s.cs.depth + n) % 2 ^ 32 := by
  induction n generalizing s with
  | zero => exact ⟨s, rfl, hidle, rfl, (Nat.mod_eq_of_lt hdepth).symm⟩
  | succ n ih =>
    obtain ⟨cs, hturn, hkeeps, hwraps⟩ :=
      csStep_turn_nest (Critical.goTo_point s c .nest)
    have hless : cs.depth < 2 ^ 32 := by
      rw [hwraps]
      exact Nat.mod_lt _ (by norm_num)
    obtain ⟨t, ht, hpoint, hopened, hdepth'⟩ :=
      ih (s := { s.goTo c .nest with cs := cs }.enterReturns c) (Critical.enterReturns_point ..)
        (hkeeps.trans howner) hless
    refine ⟨t, ?_, hpoint, ?_, ?_⟩
    · apply run_cons_eq_some.mpr
      exact ⟨_, csStep_enter_nested hidle howner, run_cons_eq_some.mpr ⟨_, hturn, ht⟩⟩
    · rw [hopened, Critical.enterReturns_opened, Nat.add_assoc, Nat.add_comm 1 n]
      rfl
    · have hnext : t.cs.depth = (cs.depth + n) % 2 ^ 32 := hdepth'
      rw [hnext, hwraps, Nat.mod_add_mod, Nat.add_assoc, Nat.add_comm 1 n]
      rfl

theorem csStep_turn_acquire (hacquire : s.point c = .acquire) (hfree : s.sections = []) :
    csStep ids s (.turn c) = some ((s.acquireSection c).goTo c (.setOwner s.acquired)) := by
  simp [csStep, Critical.turn, hacquire, hfree]

theorem csStep_turn_setOwner (hset : s.point c = .setOwner r) : csStep ids s (.turn c) =
    some ({ s with cs := { s.cs with owner := ids.ctxId c } }.goTo c (.setDepth r)) := by
  simp only [csStep, Critical.turn, hset]

theorem csStep_turn_setDepth (hset : s.point c = .setDepth r) : csStep ids s (.turn c) =
    some ({ s with cs := { s.cs with depth := 1 } }.goTo c (.setRestore r)) := by
  simp only [csStep, Critical.turn, hset]

theorem csStep_turn_setRestore (hset : s.point c = .setRestore r) : csStep ids s (.turn c) =
    some ({ s with cs := { s.cs with restore := some r } }.enterReturns c) := by
  simp only [csStep, Critical.turn, hset]

theorem outermostEnter_run (hidle : s.point c = .idle) (howner : s.cs.owner ≠ ids.ctxId c)
    (hfree : s.sections = []) :
    ∃ t, run (csStep ids) s (outermostEnter c) = some t ∧ t.point c = .idle ∧
      t.cs.owner = ids.ctxId c ∧ t.opened c = s.opened c + 1 ∧ t.cs.depth = 1 := by
  have henter : csStep ids s (.enter c) = some (s.goTo c .acquire) := by
    simp [csStep, hidle, howner]
  refine ⟨_, run_cons_eq_some.mpr ⟨_, henter, run_cons_eq_some.mpr ⟨_, csStep_turn_acquire
    (Critical.goTo_point ..) hfree, run_cons_eq_some.mpr ⟨_, csStep_turn_setOwner
    (Critical.goTo_point ..), run_cons_eq_some.mpr ⟨_, csStep_turn_setDepth
    (Critical.goTo_point ..), run_cons_eq_some.mpr ⟨_, csStep_turn_setRestore
    (Critical.goTo_point ..), rfl⟩⟩⟩⟩⟩, Critical.enterReturns_point .., rfl, ?_, rfl⟩
  rw [Critical.enterReturns_opened]
  rfl

end Runs

instance (s : Critical Ctx) (a : CsStep Ctx) : Decidable (NestsShallow s a) :=
  match a with
  | .enter c => inferInstanceAs (Decidable (s.opened c + 1 < 2 ^ 32))
  | .exit _ => .isTrue trivial
  | .turn _ => .isTrue trivial

/-- The contexts take their steps in any order. -/
theorem critical_sections_exclude (ids : CtxIds Ctx) (steps : List (CsStep Ctx))
    (hnests : Meets (csStep ids) NestsShallow Critical.start steps) :
    Always (csStep ids) (Exclusive ids) Critical.start steps :=
  always_of_meets (fun _ _ _ hs hn hstep => hs.step hn hstep) (fun _ hs => hs.exclusive)
    (csInv_start ids) hnests

/-- One context nests twice, the other one waits for it, and then enters. -/
theorem critical_sections_exclude_contender :
    let ids : CtxIds (Fin 2) := ⟨fun c => c + 1, by decide, by decide⟩
    let steps : List (CsStep (Fin 2)) :=
      [.enter 0, .turn 0, .turn 0, .turn 0, .turn 0, .enter 0, .turn 0, .enter 1,
        .exit 0, .turn 0, .turn 0, .exit 0, .turn 0, .turn 0, .turn 0, .turn 0, .turn 0,
        .turn 1, .turn 1, .turn 1, .turn 1]
    (run (csStep ids) Critical.start steps).isSome ∧
      Always (csStep ids) (Exclusive ids) Critical.start steps := by
  intro ids steps
  exact ⟨by decide +kernel, critical_sections_exclude ids steps (by decide +kernel)⟩

/-- The depth of 2^32 enters is 0. -/
theorem depth_wraps (ids : CtxIds Ctx) (c : Ctx) {n : ℕ} (hn : n + 1 = 2 ^ 32) :
    ¬ Always (csStep ids) (Exclusive ids) Critical.start
        (outermostEnter c ++ nestedEnters c n) := by
  intro hall
  obtain ⟨s, hs, hidle, howner, hopened, hdepth⟩ :=
    outermostEnter_run (s := Critical.start) (c := c) rfl (ids.ne_zero c).symm rfl
  obtain ⟨t, ht, hidle', hopened', hdepth'⟩ := nestedEnters_run hidle howner (by omega) n
  have hrun : run (csStep ids) Critical.start (outermostEnter c ++ nestedEnters c n) = some t := by
    rw [run_append, hs]
    exact ht
  have hexclusive := (always_iff_forall_run _ _).mp hall _ t List.prefix_rfl hrun
  have heq := hexclusive.depth c hidle' (by omega)
  omega

theorem enters_wrap_depth :
    let ids : CtxIds Unit := ⟨fun _ => 1, fun _ _ _ => rfl, by simp⟩
    ¬ Always (csStep ids) (Exclusive ids) Critical.start
      (outermostEnter () ++ nestedEnters () (2 ^ 32 - 1)) :=
  depth_wraps _ _ (by norm_num)

end NimbleRs.Npl
