import NimbleRs.DriverLifecycle
import Mathlib.Tactic

/-!
# What construction and teardown make of the C stack

The parts of the stack that the functions of the port bring up and take down again, and what
each of them can be built on. Constructors and drops bring a part up on top of what it needs and
take it down before that, wherever they fail and however they are interleaved, and they make
their calls while all slots are empty: a constructor fills none, and a drop empties them first.
A second precondition follows the slots and the stack through the programs, next to the one that
says who owns the statics.
-/
namespace NimbleRs.Ble
open FlagGuard TransitionSystem

/-- The buffers of the pools; an allocation that fails can have come by some of them. -/
inductive Pools
  | down
  | partly
  | up
  deriving DecidableEq

structure Stack where
  pools : Pools
  transport : Bool
  eventq : Bool
  msys : Bool
  host : Bool
  ll : Bool
  deriving DecidableEq

inductive Part
  | pools
  | transport
  | eventq
  | msys
  | host
  | ll
  deriving DecidableEq

instance : Fintype Part where
  elems := {.pools, .transport, .eventq, .msys, .host, .ll}
  complete p := by cases p <;> decide

/-- The order of the comment at `port::init`. -/
def Part.rise : Part → ℕ
  | pools => 0
  | transport => 1
  | eventq => 2
  | msys => 3
  | host => 4
  | ll => 5

/-- The order of `port::deinit`; the blocks of `msys` go with the pools. -/
def Part.fall : Part → ℕ
  | eventq => 0
  | host => 1
  | ll => 2
  | transport => 3
  | msys => 4
  | pools => 5

/-- `p` can be built on `q`: it comes up after it and goes down before it. -/
def Part.On (p q : Part) : Prop := q.rise < p.rise ∧ p.fall < q.fall

instance (p q : Part) : Decidable (p.On q) := inferInstanceAs (Decidable (_ ∧ _))

namespace Stack

def down : Stack := ⟨.down, false, false, false, false, false⟩

def up : Stack := ⟨.up, true, true, true, true, true⟩

def Has (s : Stack) : Part → Prop
  | .pools => s.pools = .up
  | .transport => s.transport = true
  | .eventq => s.eventq = true
  | .msys => s.msys = true
  | .host => s.host = true
  | .ll => s.ll = true

instance (s : Stack) (p : Part) : Decidable (s.Has p) := by
  cases p <;> simp only [Has] <;> infer_instance

/-- What a call makes of the stack. -/
def next (s : Stack) (rc : ℤ) : CFn → Stack
  | .bleBufAlloc => { s with pools := if rc = 0 then .up else .partly }
  | .bleBufFree => { s with pools := .down, msys := false }
  | .bleTransportInit => { s with transport := true }
  | .bleNplEventqInit => { s with eventq := true }
  | .osMsysInit => { s with msys := true }
  | .bleTransportHsInit => { s with host := true }
  | .bleTransportLlInit => { s with ll := true }
  | .bleNplEventqDeinit => { s with eventq := false }
  | .bleHsDeinit => { s with host := false }
  | .bleTransportLlDeinit => { s with ll := false }
  | .bleTransportDeinit => { s with transport := false }
  | .osMempoolModuleInit | .bleSvcGapInit | .bleSvcGattInit | .bleStoreRamInit
  | .bleGattsCountCfg | .bleGattsAddSvcs => s

section Order
variable (needs : Part → Part → Prop)

/-- A part comes up once, and on all that it needs. -/
def CanRise (s : Stack) (p : Part) : Prop := ¬ s.Has p ∧ ∀ q, needs p q → s.Has q

/-- A part goes down before all that it needs. -/
def CanFall (s : Stack) (p : Part) : Prop := ∀ q, needs q p → ¬ s.Has q

/-- When a function can be called, the parts needing each other as `needs` says. The module of
the pools forgets all that there is, and services are added to a host that is up. Nothing takes
`msys` down but the freeing of the pools. -/
def InTurn (s : Stack) : CFn → Prop
  | .osMempoolModuleInit => s = down
  | .bleBufAlloc => s.pools = .down
  | .bleBufFree => s.pools ≠ .down ∧ ∀ q, needs q .pools → q ≠ .msys → ¬ s.Has q
  | .bleTransportInit => s.CanRise needs .transport
  | .bleNplEventqInit => s.CanRise needs .eventq
  | .osMsysInit => s.CanRise needs .msys
  | .bleTransportHsInit => s.CanRise needs .host
  | .bleTransportLlInit => s.CanRise needs .ll
  | .bleSvcGapInit | .bleSvcGattInit | .bleStoreRamInit | .bleGattsCountCfg
  | .bleGattsAddSvcs => s.Has .host
  | .bleNplEventqDeinit => s.Has .eventq ∧ s.CanFall needs .eventq
  | .bleHsDeinit => s.Has .host ∧ s.CanFall needs .host
  | .bleTransportLlDeinit => s.Has .ll ∧ s.CanFall needs .ll
  | .bleTransportDeinit => s.Has .transport ∧ s.CanFall needs .transport

end Order

instance (s : Stack) (fn : CFn) : Decidable (s.InTurn Part.On fn) := by
  cases fn <;> simp only [InTurn, CanRise, CanFall] <;> infer_instance

section Order
variable {needs needs' : Part → Part → Prop} {s : Stack} {p : Part} {fn : CFn}

theorem CanRise.mono (h : s.CanRise needs' p) (hsub : ∀ p q, needs p q → needs' p q) :
    s.CanRise needs p := ⟨h.1, fun q hq => h.2 q (hsub p q hq)⟩

theorem CanFall.mono (h : s.CanFall needs' p) (hsub : ∀ p q, needs p q → needs' p q) :
    s.CanFall needs p := fun q hq => h q (hsub q p hq)

/-- Parts that need less of each other can be called for whenever the others can. -/
theorem InTurn.mono (h : s.InTurn needs' fn) (hsub : ∀ p q, needs p q → needs' p q) :
    s.InTurn needs fn := by
  cases fn with
  | bleBufFree => exact ⟨h.1, fun q hq => h.2 q (hsub q _ hq)⟩
  | bleTransportInit | bleNplEventqInit | osMsysInit | bleTransportHsInit | bleTransportLlInit =>
    exact CanRise.mono h hsub
  | bleNplEventqDeinit | bleHsDeinit | bleTransportLlDeinit | bleTransportDeinit =>
    exact ⟨h.1, h.2.mono hsub⟩
  | _ => exact h

end Order

end Stack

def Statics.Bare (st : Statics) : Prop := ∀ s, st.slot s = none

/-- From the statics `st` and the stack `k` on, each C function is called in its turn and with
the slots empty, and then `Q` holds; the flag is given back with the stack down. Nothing is
known of what belongs to others. -/
def callsInOrder {α : Type} : DriverProg α → (α → Statics → Stack → Prop) → Statics → Stack → Prop
  | .pure a, Q, st, k => Q a st k
  | .swap true next, Q, _, _ =>
    (∀ st k, callsInOrder (next true) Q st k) ∧ callsInOrder (next false) Q Statics.new .down
  | .swap false next, Q, _, k => k = .down ∧ ∀ old st k, callsInOrder (next old) Q st k
  | .write w next, Q, st, k => callsInOrder next Q (w.apply st) k
  | .call fn next, Q, st, k =>
    st.Bare ∧ k.InTurn Part.On fn ∧ ∀ rc, callsInOrder (next rc) Q st (k.next rc fn)

section Rules
variable {α β : Type} {f : Features} {i : ℕ} {st : Statics} {k : Stack}
  {Q : β → Statics → Stack → Prop}

@[simp] theorem callsInOrder_pure {b : β} : callsInOrder (pure b) Q st k ↔ Q b st k := Iff.rfl

@[simp] theorem callsInOrder_bind {p : DriverProg α} {g : α → DriverProg β} :
    callsInOrder (p >>= g) Q st k ↔
      callsInOrder p (fun a st k => callsInOrder (g a) Q st k) st k := by
  show callsInOrder (p.bind g) Q st k ↔ _
  induction p generalizing st k with
  | pure a => exact Iff.rfl
  | swap new next ih =>
    cases new with
    | true => exact and_congr (forall_congr' fun _ => forall_congr' fun _ => ih true) (ih false)
    | false =>
      exact and_congr_right fun _ =>
        forall_congr' fun old => forall_congr' fun _ => forall_congr' fun _ => ih old
  | write w next ih => exact ih
  | call c next ih =>
    exact and_congr_right fun _ => and_congr_right fun _ => forall_congr' fun rc => ih rc

@[simp] theorem callsInOrder_write {w : Write} {Q : Unit → Statics → Stack → Prop} :
    callsInOrder (write w) Q st k ↔ Q () (w.apply st) k := Iff.rfl

@[simp] theorem callsInOrder_callC {fn : CFn} {Q : ℤ → Statics → Stack → Prop} :
    callsInOrder (callC fn) Q st k ↔
      st.Bare ∧ k.InTurn Part.On fn ∧ ∀ rc, Q rc st (k.next rc fn) := Iff.rfl

@[simp] theorem callsInOrder_takenSwap_true {Q : Bool → Statics → Stack → Prop} :
    callsInOrder (takenSwap true) Q st k ↔ (∀ st k, Q true st k) ∧ Q false Statics.new .down :=
  Iff.rfl

@[simp] theorem callsInOrder_takenSwap_false {Q : Bool → Statics → Stack → Prop} :
    callsInOrder (takenSwap false) Q st k ↔ k = .down ∧ ∀ old st k, Q old st k := Iff.rfl

theorem callsInOrder_cfg {c : Bool} {p : DriverProg Unit} {Q : Unit → Statics → Stack → Prop}
    (hon : c = true → callsInOrder p Q st k) (hoff : c = false → Q () st k) :
    callsInOrder (cfg c p) Q st k := by
  cases c with
  | false => exact hoff rfl
  | true => exact hon rfl

/-- A call that leaves the stack as it makes it whatever it returns. -/
theorem callsInOrder_callC_of {fn : CFn} {Q : ℤ → Statics → Stack → Prop} {k' : Stack}
    (hst : st.Bare) (hturn : k.InTurn Part.On fn) (hnext : ∀ rc, k.next rc fn = k')
    (h : ∀ rc, Q rc st k') : callsInOrder (callC fn) Q st k :=
  ⟨hst, hturn, fun rc => (hnext rc).symm ▸ h rc⟩

/-- `port::init` brings the whole stack up, or leaves nothing of it. -/
theorem callsInOrder_portInit {Q : Except Unit Unit → Statics → Stack → Prop} (hst : st.Bare)
    (herr : Q (.error ()) st .down) (hok : Q (.ok ()) st .up) :
    callsInOrder portInit Q st .down := by
  simp only [portInit, callsInOrder_bind]
  refine callsInOrder_callC_of hst (by decide) (fun _ => rfl) fun _ => ?_
  refine callsInOrder_callC.mpr ⟨hst, by decide, fun rc => ?_⟩
  by_cases hrc : rc = 0
  · simp only [hrc, ne_eq, not_true_eq_false, if_false, callsInOrder_bind]
    refine callsInOrder_callC_of hst (by decide) (fun _ => rfl) fun _ => ?_
    refine callsInOrder_callC_of hst (by decide) (fun _ => rfl) fun _ => ?_
    refine callsInOrder_callC_of hst (by decide) (fun _ => rfl) fun _ => ?_
    refine callsInOrder_callC_of hst (by decide) (fun _ => rfl) fun _ => ?_
    refine callsInOrder_callC_of hst (by decide) (fun _ => rfl) fun _ => ?_
    exact hok
  · have hpartly : ∀ s : Stack, s.next rc .bleBufAlloc = { s with pools := .partly } := by
      simp [Stack.next, hrc]
    simp only [hpartly, hrc, ne_eq, not_false_eq_true, if_true, callsInOrder_bind]
    exact callsInOrder_callC_of hst (by decide) (fun _ => rfl) fun _ => herr

theorem callsInOrder_portDeinit {Q : Unit → Statics → Stack → Prop} (hst : st.Bare)
    (h : Q () st .down) : callsInOrder portDeinit Q st .up := by
  simp only [portDeinit, callsInOrder_bind]
  refine callsInOrder_callC_of hst (by decide) (fun _ => rfl) fun _ => ?_
  refine callsInOrder_callC_of hst (by decide) (fun _ => rfl) fun _ => ?_
  refine callsInOrder_callC_of hst (by decide) (fun _ => rfl) fun _ => ?_
  refine callsInOrder_callC_of hst (by decide) (fun _ => rfl) fun _ => ?_
  exact callsInOrder_callC_of hst (by decide) (fun _ => rfl) fun _ => h

theorem Statics.bare_new : Statics.new.Bare := fun _ => rfl

/-- `Ble::init` leaves the slots empty. -/
theorem callsInOrder_init {Q : Except BleError Unit → Statics → Stack → Prop}
    (herr : ∀ err st k, Q (.error err) st k) (hok : Q (.ok ()) Statics.initialized .up) :
    callsInOrder (init f) Q st k := by
  have hbare : Statics.initialized.Bare := fun _ => rfl
  have hstore : callsInOrder (callC .bleStoreRamInit >>= fun _ => return .ok ()) Q
      Statics.initialized .up := by
    rw [callsInOrder_bind]
    exact callsInOrder_callC_of hbare (by decide) (fun _ => rfl) fun _ => hok
  simp only [init, callsInOrder_bind, callsInOrder_takenSwap_true, if_true, callsInOrder_pure]
  refine ⟨fun st k => herr _ st k, ?_⟩
  simp only [Bool.false_eq_true, if_false, callsInOrder_bind]
  apply callsInOrder_portInit Statics.bare_new
  · simp only [callsInOrder_bind, callsInOrder_takenSwap_false, callsInOrder_pure]
    exact ⟨trivial, fun _ st k => herr _ st k⟩
  · simp only [callsInOrder_bind, callsInOrder_write]
    apply callsInOrder_cfg
    · intro _
      simp only [callsInOrder_bind]
      refine callsInOrder_callC_of hbare (by decide) (fun _ => rfl) fun _ => ?_
      exact callsInOrder_callC_of hbare (by decide) (fun _ => rfl) fun _ => hstore
    · exact fun _ => hstore

/-- A feature that is off has nothing to clear. -/
theorem callsInOrder_cfg_write {c : Bool} {w : Write} {Q : Unit → Statics → Stack → Prop}
    (hoff : c = false → w.apply st = st) (h : Q () (w.apply st) k) :
    callsInOrder (cfg c (write w)) Q st k := by
  apply callsInOrder_cfg
  · exact fun _ => h
  · intro hc
    rwa [← hoff hc]

/-- `Drop` empties the slots before it calls anything. -/
theorem callsInOrder_dropBle (hst : st.Featured f) {Q : Unit → Statics → Stack → Prop}
    (h : ∀ st k, Q () st k) : callsInOrder (dropBle f) Q st .up := by
  simp only [dropBle, callsInOrder_bind, callsInOrder_write]
  apply callsInOrder_cfg_write
  · intro hf
    have hreg := hst.gattsRegisterCb hf
    simp [Write.apply, hreg]
  apply callsInOrder_cfg_write
  · intro hf
    have hslot := hst.slot .gatts hf
    simp [Write.apply, hslot]
  apply callsInOrder_cfg_write
  · intro hf
    have hslot := hst.slot .gattc hf
    simp [Write.apply, hslot]
  apply callsInOrder_cfg_write
  · intro hf
    have hslot := hst.slot .l2cap hf
    simp [Write.apply, hslot]
  apply callsInOrder_portDeinit
  · intro s
    cases s <;> rfl
  · exact ⟨rfl, fun _ st k => h st k⟩

theorem callsInOrder_newBle {Q : Except BleError Unit → Statics → Stack → Prop}
    (herr : ∀ err st k, Q (.error err) st k) (hok : Q (.ok ()) Statics.initialized .up) :
    callsInOrder (newBle f) Q st k := by
  rw [newBle, callsInOrder_bind]
  exact callsInOrder_init (fun err st k => herr err st k) hok

/-- Services that cannot be added have the driver dropped, with the slots still empty. -/
theorem callsInOrder_newWithServices (hf : f.peripheral = true)
    {Q : Except BleError Unit → Statics → Stack → Prop} (herr : ∀ err st k, Q (.error err) st k)
    (hok : Q (.ok ()) { Statics.initialized with gattsRegisterCb := true } .up) :
    callsInOrder (newWithServices f) Q st k := by
  have hbare : { Statics.initialized with gattsRegisterCb := true }.Bare := fun _ => rfl
  have hfeatured : { Statics.initialized with gattsRegisterCb := true }.Featured f :=
    ⟨fun _ _ => rfl, by simp [hf]⟩
  have hdrop : ∀ err, callsInOrder (dropBle f >>= fun _ => return .error err) Q
      { Statics.initialized with gattsRegisterCb := true } .up := by
    intro err
    rw [callsInOrder_bind]
    exact callsInOrder_dropBle hfeatured (herr err)
  rw [newWithServices, callsInOrder_bind]
  refine callsInOrder_init (fun err st k => herr err st k) ?_
  simp only [callsInOrder_bind, callsInOrder_write, addServices]
  refine callsInOrder_callC_of hbare (by decide) (fun _ => rfl) fun rc => ?_
  by_cases hrc : rc = 0
  · simp only [BleError.check, hrc, if_true, callsInOrder_bind]
    refine callsInOrder_callC_of hbare (by decide) (fun _ => rfl) fun rc => ?_
    by_cases hrc : rc = 0
    · simp only [hrc, if_true]
      exact hok
    · simp only [hrc, if_false]
      exact hdrop (.host rc)
  · simp only [BleError.check, hrc, if_false]
    exact hdrop (.host rc)

/-- A driver that was created has the whole stack up. -/
def Outcome.Built (outcome : Outcome) (_ : Statics) (k : Stack) : Prop :=
  outcome = .created → k = .up

theorem Ctor.callsInOrder_run (f : Features) (i : ℕ) {c : Ctor} (hc : c.compiled f = true) :
    callsInOrder (c.run f i) Outcome.Built st k := by
  have herr : ∀ err st k, Outcome.Built (.failed err) st k := by simp [Outcome.Built]
  rw [Ctor.run, callsInOrder_bind]
  cases c with
  | new => exact callsInOrder_newBle herr fun _ => rfl
  | newWithParker parker =>
    rw [Ctor.prog, Ble.newWithParker, callsInOrder_bind]
    exact callsInOrder_newBle herr fun _ => rfl
  | newWithServices => exact callsInOrder_newWithServices hc herr fun _ => rfl
  | newWithServicesAndParker parker =>
    rw [Ctor.prog, Ble.newWithServicesAndParker, callsInOrder_bind]
    exact callsInOrder_newWithServices hc herr fun _ => rfl

theorem callsInOrder_dropRun (hst : st.Featured f) :
    callsInOrder (dropRun f) Outcome.Built st .up := by
  rw [dropRun, callsInOrder_bind]
  exact callsInOrder_dropBle hst fun _ _ => by simp [Outcome.Built]

/-- A program that does not own the statics does not care what they and the stack are. -/
theorem callsInOrder_of_not_owner {p : DriverProg Outcome} {st' : Statics} {k' : Stack}
    (hwp : driverWp i p (Outcome.Leaves f) none) (h : callsInOrder p Outcome.Built st k) :
    callsInOrder p Outcome.Built st' k' := by
  cases p with
  | pure outcome =>
    rintro rfl
    obtain ⟨t, ht, -⟩ := hwp
    exact absurd ht (by simp)
  | swap new next =>
    cases new with
    | true => exact h
    | false => exact absurd hwp.1 (by simp)
  | write w next =>
    obtain ⟨-, t, ht, -⟩ := hwp
    exact absurd ht (by simp)
  | call c next => exact absurd hwp.1 (by simp)

end Rules

/-- The C function that the next step of the program calls. -/
def calledBy {α : Type} : DriverProg α → Option CFn
  | .call fn _ => some fn
  | _ => none

/-- The C function that a constructor or a drop has come to. -/
def Process.calling (s : Process) (i : ℕ) : Option CFn :=
  match s.call i with
  | some ⟨.running p, _, _⟩ => calledBy p
  | _ => none

def Stack.after (k : Stack) (rc : ℤ) (fn : Option CFn) : Stack := (fn.map (k.next rc)).getD k

def Process.stackAfter (s : Process) (k : Stack) : ProcessStep → Stack
  | .step i rc => k.after rc (s.calling i)
  | _ => k

/-- The process next to the C stack that its calls have made. -/
structure Port where
  process : Process
  stack : Stack

def Port.start : Port := ⟨Process.start, .down⟩

def portStep (f : Features) (s : Port) (a : ProcessStep) : Option Port :=
  (processStep f s.process a).map fun process => ⟨process, s.process.stackAfter s.stack a⟩

/-- One constructor or drop at a time calls C functions, each in its turn and with the slots
empty; a driver that lives has the whole stack up, and without a call that holds the flag the
stack is down. -/
structure PortOrdered (needs : Part → Part → Prop) (s : Port) : Prop where
  alone : ∀ i j fn fn', s.process.calling i = some fn → s.process.calling j = some fn' → i = j
  calls : ∀ i fn, s.process.calling i = some fn →
    s.process.statics.Bare ∧ s.stack.InTurn needs fn
  alive : ∀ i, s.process.alive i = true → s.stack = .up
  clear : (∀ i, ¬ s.process.Holds i) → s.stack = .down

/-- Every call that has not returned makes its C calls in order. -/
structure Process.Ordered (s : Process) (k : Stack) : Prop where
  running : ∀ i p found changed, s.call i = some ⟨.running p, found, changed⟩ →
    callsInOrder p Outcome.Built s.statics k
  alive : ∀ i, s.alive i = true → k = .up
  clear : s.taken = false → k = .down

section Step
variable {f : Features} {s s' : Process} {i : ℕ} {owner : Option ℕ} {k : Stack}

theorem Process.calling_eq_some {fn : CFn} (h : s.calling i = some fn) :
    ∃ next found changed, s.call i = some ⟨.running (.call fn next), found, changed⟩ := by
  unfold calling at h
  split at h
  next p found changed hc =>
    cases p with
    | call c next =>
      obtain rfl := Option.some.inj h
      exact ⟨next, found, changed, hc⟩
    | _ => exact absurd h (by simp [calledBy])
  next => exact absurd h (by simp)

/-- A constructor or a drop that is in a C function owns the statics. -/
theorem Owned.of_calling (h : Owned f s owner) {fn : CFn} (hfn : s.calling i = some fn) :
    owner = some i := by
  obtain ⟨next, found, changed, hc⟩ := Process.calling_eq_some hfn
  have hkept : driverWp i (.call fn next) (Outcome.Leaves f) (view owner s.statics i) :=
    h.kept i _ hc
  obtain ⟨st, hst⟩ := Option.isSome_iff_exists.mp hkept.1
  exact (view_eq_some.mp hst).1

namespace Process.Ordered

theorem start : Process.start.Ordered .down where
  running := by simp [Process.start]
  alive := by simp [Process.start, Process.alive]
  clear := fun _ => rfl

/-- The slots and the stack can change under a program that does not own them. -/
theorem other (h : s.Ordered k) (howned : Owned f s owner) {j : ℕ} {p : DriverProg Outcome}
    {found : Option Bool} {changed : Bool} (hp : s.call j = some ⟨.running p, found, changed⟩)
    (hj : owner ≠ some j) (st : Statics) (k' : Stack) : callsInOrder p Outcome.Built st k' := by
  have hkept : driverWp j p (Outcome.Leaves f) (view owner s.statics j) := howned.kept j _ hp
  rw [view_eq_none.mpr hj] at hkept
  exact callsInOrder_of_not_owner hkept (h.running j p found changed hp)

/-- One call gets on, and only the owner of the statics has changed them or the stack. -/
theorem update (h : s.Ordered k) (howned : Owned f s owner) {taken : Bool} {st : Statics}
    {k' : Stack} {c : Call} (hst : st = s.statics ∧ k' = k ∨ owner = some i)
    (hc : ∀ p, c.phase = .running p → callsInOrder p Outcome.Built st k')
    (halive : c.phase = .alive → k' = .up) (hclear : taken = false → k' = .down) :
    Process.Ordered ⟨taken, st, Function.update s.call i (some c)⟩ k' where
  clear := hclear
  running := by
    intro j p found changed hp
    by_cases hj : j = i
    · subst hj
      obtain rfl := Option.some.inj ((Function.update_self j _ s.call).symm.trans hp)
      exact hc p rfl
    · have hp' : s.call j = some ⟨.running p, found, changed⟩ := by simpa [hj] using hp
      obtain ⟨rfl, rfl⟩ | rfl := hst
      · exact h.running j p found changed hp'
      · exact h.other howned hp' (fun he => hj (Option.some.inj he).symm) st k'
  alive := by
    intro j hlives
    obtain ⟨d, hd, hphase⟩ := Owned.alive_iff.mp hlives
    by_cases hj : j = i
    · subst hj
      obtain rfl := Option.some.inj ((Function.update_self j _ s.call).symm.trans hd)
      exact halive hphase
    · have hd' : s.call j = some d := by simpa [hj] using hd
      have hbefore : s.alive j = true := Owned.alive_iff.mpr ⟨d, hd', hphase⟩
      obtain ⟨-, rfl⟩ | rfl := hst
      · exact h.alive j hbefore
      · exact absurd (Option.some.inj (howned.of_alive hbefore).1).symm hj

/-- A live driver fills or empties a slot, which no running call owns. -/
theorem setSlot (h : s.Ordered k) (howned : Owned f s owner) (halive : s.alive i = true)
    (st : Statics) : Process.Ordered { s with statics := st } k where
  clear := h.clear
  alive := h.alive
  running := by
    obtain ⟨rfl, -⟩ := howned.of_alive halive
    obtain ⟨c, hc, hphase⟩ := Owned.alive_iff.mp halive
    intro j p found changed hp
    refine h.other howned hp ?_ st k
    rintro he
    obtain rfl := Option.some.inj he
    obtain rfl := Option.some.inj (hc.symm.trans hp)
    exact absurd hphase (by simp)

/-- The next access of a program that is in order. -/
theorem step_prog (h : s.Ordered k) (howned : Owned f s owner) {p : DriverProg Outcome} {rc : ℤ}
    {r : Prog.After Write CFn Outcome Statics}
    (hwp : driverWp i p (Outcome.Leaves f) (view owner s.statics i))
    (hp : callsInOrder p Outcome.Built s.statics k)
    (hstep : p.step Write.apply s.taken s.statics rc = some r) :
    callsInOrder r.prog Outcome.Built r.state (k.after rc (calledBy p)) ∧
      (r.state = s.statics ∧ k.after rc (calledBy p) = k ∨ owner = some i) ∧
      (r.flag = false → k.after rc (calledBy p) = .down) := by
  have hflag : s.taken = owner.isSome := howned.guards.flag_eq
  cases p with
  | pure a => simp [Prog.step] at hstep
  | swap new next =>
    obtain rfl := Option.some.inj hstep
    cases new with
    | false => exact ⟨hp.2 _ _ _, .inl ⟨rfl, rfl⟩, fun _ => hp.1⟩
    | true =>
      refine ⟨?_, .inl ⟨rfl, rfl⟩, by simp⟩
      cases htaken : s.taken with
      | true => exact hp.1 _ _
      | false =>
        -- a flag that is clear has no owner, so that all is as at the start
        have howner : owner = none := by simpa [htaken] using hflag
        have hstatics : s.statics = Statics.new := howned.guards.clear_of_none howner
        obtain rfl := h.clear htaken
        rw [hstatics]
        exact hp.2
  | write w next =>
    obtain rfl := Option.some.inj hstep
    obtain ⟨-, t, ht, -⟩ := hwp
    exact ⟨hp, .inr (view_eq_some.mp ht).1, h.clear⟩
  | call c next =>
    obtain rfl := Option.some.inj hstep
    obtain ⟨t, ht⟩ := Option.isSome_iff_exists.mp hwp.1
    obtain ⟨rfl, -⟩ := view_eq_some.mp ht
    exact ⟨hp.2.2 rc, .inr rfl, fun hfree => absurd (hfree.symm.trans hflag) (by simp)⟩

theorem step (h : s.Ordered k) (howned : Owned f s owner) {a : ProcessStep}
    (hstep : processStep f s a = some s') : s'.Ordered (s.stackAfter k a) := by
  cases a with
  | construct i c =>
    simp only [processStep, Option.ite_none_right_eq_some, Bool.and_eq_true,
      Option.some.injEq] at hstep
    obtain ⟨⟨-, hc⟩, rfl⟩ := hstep
    refine h.update howned (.inl ⟨rfl, rfl⟩) (fun p hp => ?_) (by simp) h.clear
    obtain rfl := Phase.running.inj hp
    exact c.callsInOrder_run f i hc
  | step i rc =>
    simp only [processStep] at hstep
    split at hstep
    next p found changed hc =>
      have hcalling : s.calling i = calledBy p := by simp [Process.calling, hc]
      have hp := h.running i p _ _ hc
      rw [Process.stackAfter, hcalling]
      obtain ⟨outcome, rfl, rfl⟩ | ⟨r, hr, rfl⟩ := Process.advance_cases hstep
      · refine h.update howned (.inl ⟨rfl, rfl⟩) (fun q hq => ?_) (fun hphase => ?_) h.clear
        · cases outcome <;> exact absurd hq (by simp [Outcome.phase])
        · cases outcome with
          | created => exact hp rfl
          | _ => exact absurd hphase (by simp [Outcome.phase])
      · obtain ⟨hnext, hst, hclear⟩ := h.step_prog howned (howned.kept i _ hc) hp hr
        refine h.update howned hst (fun q hq => ?_) (by simp) hclear
        obtain rfl := Phase.running.inj hq
        exact hnext
    next => simp at hstep
  | subscribe i sl callback =>
    simp only [processStep, Option.ite_none_right_eq_some, Bool.and_eq_true,
      Option.some.injEq] at hstep
    obtain ⟨⟨halive, -⟩, rfl⟩ := hstep
    exact h.setSlot howned halive _
  | unsubscribe i sl =>
    simp only [processStep, Option.ite_none_right_eq_some, Bool.and_eq_true,
      Option.some.injEq] at hstep
    obtain ⟨⟨⟨halive, -⟩, -⟩, rfl⟩ := hstep
    exact h.setSlot howned halive _
  | drop i =>
    simp only [processStep] at hstep
    split at hstep
    next found changed hc =>
      obtain rfl := Option.some.inj hstep
      have halive : s.alive i = true := Owned.alive_iff.mpr ⟨_, hc, rfl⟩
      obtain rfl := h.alive i halive
      refine h.update howned (.inl ⟨rfl, rfl⟩) (fun p hp => ?_) (by simp) h.clear
      obtain rfl := Phase.running.inj hp
      exact callsInOrder_dropRun (howned.of_alive halive).2
    next => simp at hstep

theorem calls (h : s.Ordered k) {fn : CFn} (hfn : s.calling i = some fn) :
    s.statics.Bare ∧ k.InTurn Part.On fn := by
  obtain ⟨next, found, changed, hc⟩ := Process.calling_eq_some hfn
  obtain ⟨hbare, hturn, -⟩ := h.running i _ _ _ hc
  exact ⟨hbare, hturn⟩

theorem portOrdered (h : s.Ordered k) (howned : Owned f s owner) {needs : Part → Part → Prop}
    (hneeds : ∀ p q, needs p q → p.On q) : PortOrdered needs ⟨s, k⟩ where
  alone := fun _ _ _ _ hi hj =>
    Option.some.inj ((howned.of_calling hi).symm.trans (howned.of_calling hj))
  calls := fun _ _ hfn => ⟨(h.calls hfn).1, (h.calls hfn).2.mono hneeds⟩
  alive := h.alive
  clear := fun hnone => h.clear (howned.hygienic.clear hnone).1

end Process.Ordered

end Step

/-- However constructors and drops get in between each other and wherever they fail, the C
stack is brought up in order, taken down once and left down. What its parts need of each other
can be anything that the order of `port::init` and that of `port::deinit` agree on. -/
theorem port_lifecycle_ordered (f : Features) {needs : Part → Part → Prop}
    (hneeds : ∀ p q, needs p q → p.On q) (steps : List ProcessStep) :
    Always (portStep f) (PortOrdered needs) Port.start steps := by
  have hstep : ∀ s a s', (∃ owner, Owned f s.process owner ∧ s.process.Ordered s.stack) →
      portStep f s a = some s' →
      ∃ owner, Owned f s'.process owner ∧ s'.process.Ordered s'.stack := by
    rintro s a s' ⟨owner, howned, hordered⟩ ha
    obtain ⟨p, hp, rfl⟩ := Option.map_eq_some_iff.mp ha
    obtain ⟨owner', howned'⟩ := howned.step hp
    exact ⟨owner', howned', hordered.step howned hp⟩
  refine always_of_step hstep ?_ steps ⟨none, Owned.start f, .start⟩
  rintro s ⟨owner, howned, hordered⟩
  exact hordered.portOrdered howned hneeds

/-- A constructor that runs out of memory, and one that has its services refused, where the host
needs the transport and its buffers, and the bridge the transport. -/
theorem port_lifecycle_ordered_of_refusal :
    let steps : List ProcessStep :=
      .construct 0 .new :: [.step 0 0, .step 0 0, .step 0 1, .step 0 0, .step 0 0, .step 0 0] ++
        .construct 1 .newWithServices :: List.replicate 14 (.step 1 0) ++ .step 1 5 ::
        List.replicate 11 (.step 1 0)
    (run (portStep ⟨true, true, true⟩) Port.start steps).map (fun s => (s.process.taken, s.stack)) =
        some (true, { Stack.up with eventq := false, host := false }) ∧
      Always (portStep ⟨true, true, true⟩) (PortOrdered fun p q =>
        (p, q) ∈ [(Part.host, Part.transport), (.host, .msys), (.ll, .transport),
          (.transport, .pools), (.msys, .pools)]) Port.start steps :=
  ⟨by decide, port_lifecycle_ordered _ (by decide) _⟩

end NimbleRs.Ble
