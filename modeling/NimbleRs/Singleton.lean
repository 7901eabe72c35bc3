import NimbleRs.FlagGuard
import NimbleRs.TransitionSystem
import Mathlib.Tactic

/-!
# The driver singleton and its slots

The constructors of `Ble` and its `Drop` as programs on the process-wide statics: the
`TAKEN` flag, the callback slots, the three callbacks of `ble_hs_cfg` and the active
parker. A borrow is told apart by the constructor call whose driver it belongs to. The
C functions that they call leave these statics alone.
-/
namespace NimbleRs.Ble
open FlagGuard TransitionSystem

structure Features where
  peripheral : Bool
  central : Bool
  l2cap : Bool

inductive Slot
  | host
  | gap
  | gatts
  | gattc
  | l2cap
  deriving DecidableEq

/-- The features that a slot is compiled with. -/
def Slot.compiled (f : Features) : Slot → Bool
  | .host | .gap => true
  | .gatts => f.peripheral
  | .gattc => f.central
  | .l2cap => f.l2cap

/-- A promoted `&'d` of a callback or a parker. -/
structure Borrow where
  driver : ℕ
  target : ℕ

@[ext] structure Statics where
  slot : Slot → Option Borrow
  syncCb : Bool
  resetCb : Bool
  gattsRegisterCb : Bool
  /-- `none` is the default parker. -/
  active : Option Borrow

def Statics.new : Statics := ⟨fun _ => none, false, false, false, none⟩

inductive Write
  | slot (s : Slot) (callback : Option Borrow)
  | syncCb (on : Bool)
  | resetCb (on : Bool)
  | gattsRegisterCb (on : Bool)
  | setActive (parker : Option Borrow)

def Write.apply : Write → Statics → Statics
  | .slot s callback, st => { st with slot := Function.update st.slot s callback }
  | .syncCb on, st => { st with syncCb := on }
  | .resetCb on, st => { st with resetCb := on }
  | .gattsRegisterCb on, st => { st with gattsRegisterCb := on }
  | .setActive parker, st => { st with active := parker }

/-- The C functions that construction and teardown call. -/
inductive CFn
  | osMempoolModuleInit
  | bleBufAlloc
  | bleBufFree
  | bleTransportInit
  | bleNplEventqInit
  | osMsysInit
  | bleTransportHsInit
  | bleTransportLlInit
  | bleSvcGapInit
  | bleSvcGattInit
  | bleStoreRamInit
  | bleGattsCountCfg
  | bleGattsAddSvcs
  | bleNplEventqDeinit
  | bleHsDeinit
  | bleTransportLlDeinit
  | bleTransportDeinit

abbrev DriverProg := Prog Write CFn

/-- `taken_swap` -/
def takenSwap (new : Bool) : DriverProg Bool := .swap new .pure

def write (w : Write) : DriverProg Unit := .write w (.pure ())

def callC (fn : CFn) : DriverProg ℤ := .call fn .pure

/-- Statements that are compiled only with a feature. -/
def cfg (feature : Bool) (p : DriverProg Unit) : DriverProg Unit :=
  if feature then p else return ()

inductive BleError
  | ealready
  | enomem
  /-- What a host function returned. -/
  | host (code : ℤ)

/-- `BleError::check` -/
def BleError.check (code : ℤ) : Except BleError Unit :=
  if code = 0 then .ok () else .error (.host code)

/-- `port::init` -/
def portInit : DriverProg (Except Unit Unit) := do
  let _ ← callC .osMempoolModuleInit
  let rc ← callC .bleBufAlloc
  if rc ≠ 0 then
    let _ ← callC .bleBufFree
    return .error ()
  let _ ← callC .bleTransportInit
  let _ ← callC .bleNplEventqInit
  let _ ← callC .osMsysInit
  let _ ← callC .bleTransportHsInit
  let _ ← callC .bleTransportLlInit
  return .ok ()

/-- `port::deinit` -/
def portDeinit : DriverProg Unit := do
  let _ ← callC .bleNplEventqDeinit
  let _ ← callC .bleHsDeinit
  let _ ← callC .bleTransportLlDeinit
  let _ ← callC .bleTransportDeinit
  let _ ← callC .bleBufFree

/-- `Ble::init` -/
def init (f : Features) : DriverProg (Except BleError Unit) := do
  if ← takenSwap true then return .error .ealready
  match ← portInit with
  | .error _ =>
    let _ ← takenSwap false
    return .error .enomem
  | .ok _ =>
    write (.syncCb true)
    write (.resetCb true)
    cfg f.peripheral do
      let _ ← callC .bleSvcGapInit
      let _ ← callC .bleSvcGattInit
    let _ ← callC .bleStoreRamInit
    return .ok ()

/-- `Drop for Ble` -/
def dropBle (f : Features) : DriverProg Unit := do
  write (.syncCb false)
  write (.resetCb false)
  cfg f.peripheral (write (.gattsRegisterCb false))
  write (.setActive none)
  write (.slot .host none)
  write (.slot .gap none)
  cfg f.peripheral (write (.slot .gatts none))
  cfg f.central (write (.slot .gattc none))
  cfg f.l2cap (write (.slot .l2cap none))
  portDeinit
  let _ ← takenSwap false

def newBle (f : Features) : DriverProg (Except BleError Unit) := do
  match ← init f with
  | .error err => return .error err
  | .ok _ => return .ok ()

def newWithParker (f : Features) (parker : Borrow) : DriverProg (Except BleError Unit) := do
  match ← newBle f with
  | .error err => return .error err
  | .ok _ =>
    write (.setActive (some parker))
    return .ok ()

/-- The two calls that count and add the services. -/
def addServices : DriverProg (Except BleError Unit) := do
  let rc ← callC .bleGattsCountCfg
  match BleError.check rc with
  | .error err => return .error err
  | .ok _ =>
    let rc ← callC .bleGattsAddSvcs
    return BleError.check rc

def newWithServices (f : Features) : DriverProg (Except BleError Unit) := do
  match ← init f with
  | .error err => return .error err
  | .ok _ =>
    write (.gattsRegisterCb true)
    match ← addServices with
    | .error err =>
      -- deinit through the common path
      dropBle f
      return .error err
    | .ok _ => return .ok ()

def newWithServicesAndParker (f : Features) (parker : Borrow) :
    DriverProg (Except BleError Unit) := do
  match ← newWithServices f with
  | .error err => return .error err
  | .ok _ =>
    write (.setActive (some parker))
    return .ok ()

/-- A driver stores only borrows of its own. -/
def Write.mine (i : ℕ) : Write → Prop
  | .slot _ borrow | .setActive borrow => ∀ b ∈ borrow, b.driver = i
  | _ => True

namespace Statics

/-- A callback slot or the parker slot holds the borrow. -/
def Stores (st : Statics) (b : Borrow) : Prop :=
  st.active = some b ∨ ∃ s, st.slot s = some b

def Own (i : ℕ) (st : Statics) : Prop := ∀ b, st.Stores b → b.driver = i

/-- What no feature brings is as it was at the start. -/
structure Featured (f : Features) (st : Statics) : Prop where
  slot : ∀ s : Slot, s.compiled f = false → st.slot s = none
  gattsRegisterCb : f.peripheral = false → st.gattsRegisterCb = false

theorem own_new (i : ℕ) : Own i new := by
  rintro b (hb | ⟨s, hb⟩)
  · simp [new] at hb
  · simp [new] at hb

theorem Own.apply {i : ℕ} {st : Statics} (h : Own i st) {w : Write} (hmine : w.mine i) :
    Own i (w.apply st) := by
  intro b hb
  cases w with
  | slot s callback =>
    obtain hb | ⟨r, hb⟩ := hb
    · exact h b (.inl hb)
    · simp only [Write.apply, Function.update_apply] at hb
      split_ifs at hb with hr
      · exact hmine b hb
      · exact h b (.inr ⟨r, hb⟩)
  | setActive parker =>
    obtain hb | hb := hb
    · exact hmine b hb
    · exact h b (.inr hb)
  | _ => exact h b hb

end Statics

section Rules
variable {f : Features} {i : ℕ} {α : Type} {st : Statics} {o : Option Statics}

/-- The weakest precondition of a program of driver `i`. -/
abbrev driverWp (i : ℕ) (p : DriverProg α) (Q : α → Option Statics → Prop)
    (o : Option Statics) : Prop :=
  wp Write.apply (Write.mine i) Statics.new p Q o

@[simp] theorem wp_write {w : Write} {Q : Unit → Option Statics → Prop} :
    driverWp i (write w) Q (some st) ↔ w.mine i ∧ Q () (some (w.apply st)) := by
  simp [write, wp]

@[simp] theorem wp_callC {fn : CFn} {Q : ℤ → Option Statics → Prop} :
    driverWp i (callC fn) Q (some st) ↔ ∀ rc, Q rc (some st) := by
  simp [callC, wp]

@[simp] theorem wp_taken_swap_true {Q : Bool → Option Statics → Prop} :
    driverWp i (takenSwap true) Q none ↔ Q true none ∧ Q false (some Statics.new) := by
  simp [takenSwap, wp]

@[simp] theorem wp_taken_swap_false {Q : Bool → Option Statics → Prop} :
    driverWp i (takenSwap false) Q o ↔ o = some Statics.new ∧ Q true none := by
  simp [takenSwap, wp]

theorem wp_cfg {c : Bool} {p : DriverProg Unit} {Q : Unit → Option Statics → Prop}
    (hon : c = true → driverWp i p Q o) (hoff : c = false → Q () o) :
    driverWp i (cfg c p) Q o := by
  cases c with
  | false => exact hoff rfl
  | true => exact hon rfl

theorem wp_portInit {Q : Except Unit Unit → Option Statics → Prop}
    (herr : Q (.error ()) (some st)) (hok : Q (.ok ()) (some st)) :
    driverWp i portInit Q (some st) := by
  simp only [portInit, wp_bind, wp_callC]
  intro _ rc
  by_cases hrc : rc = 0
  · simpa [hrc] using hok
  · simpa [hrc] using herr

theorem wp_portDeinit {Q : Unit → Option Statics → Prop} (h : Q () (some st)) :
    driverWp i portDeinit Q (some st) := by
  simp only [portDeinit, wp_bind, wp_callC]
  exact fun _ _ _ _ _ => h

def Statics.initialized : Statics := { Statics.new with syncCb := true, resetCb := true }

/-- `Ble::init` comes back empty-handed or with the host callbacks installed. -/
theorem wp_init {Q : Except BleError Unit → Option Statics → Prop}
    (hbusy : Q (.error .ealready) none) (hmem : Q (.error .enomem) none)
    (hok : Q (.ok ()) (some Statics.initialized)) : driverWp i (init f) Q none := by
  simp only [init, wp_bind, wp_taken_swap_true, if_true, wp_pure]
  refine ⟨hbusy, ?_⟩
  simp only [Bool.false_eq_true, if_false, wp_bind]
  apply wp_portInit
  · simp only [wp_bind, wp_taken_swap_false, wp_pure]
    exact ⟨trivial, hmem⟩
  · simp only [wp_bind, wp_write]
    refine ⟨trivial, trivial, ?_⟩
    apply wp_cfg
    · intro _
      simp only [wp_bind, wp_callC, wp_pure]
      exact fun _ _ _ => hok
    · intro _
      simp only [wp_callC, wp_pure]
      exact fun _ => hok

/-- A feature that is off has nothing to clear. -/
theorem wp_cfg_write {c : Bool} {w : Write} {Q : Unit → Option Statics → Prop}
    (hmine : w.mine i) (hoff : c = false → w.apply st = st) (h : Q () (some (w.apply st))) :
    driverWp i (cfg c (write w)) Q (some st) := by
  apply wp_cfg
  · exact fun _ => wp_write.mpr ⟨hmine, h⟩
  · intro hc
    rwa [← hoff hc]

/-- `Drop` clears all that a driver can have set and releases the flag. -/
theorem wp_dropBle (hst : st.Featured f) {Q : Unit → Option Statics → Prop} (h : Q () none) :
    driverWp i (dropBle f) Q (some st) := by
  simp only [dropBle, wp_bind, wp_write]
  refine ⟨trivial, trivial, wp_cfg_write trivial ?_ ?_⟩
  · intro hf
    have hreg := hst.gattsRegisterCb hf
    simp [Write.apply, hreg]
  simp only [wp_write]
  refine ⟨by simp [Write.mine], by simp [Write.mine], by simp [Write.mine],
    wp_cfg_write (by simp [Write.mine]) ?_ (wp_cfg_write (by simp [Write.mine]) ?_
      (wp_cfg_write (by simp [Write.mine]) ?_ (wp_portDeinit ?_)))⟩
  · intro hf
    have hslot := hst.slot .gatts hf
    simp [Write.apply, hslot]
  · intro hf
    have hslot := hst.slot .gattc hf
    simp [Write.apply, hslot]
  · intro hf
    have hslot := hst.slot .l2cap hf
    simp [Write.apply, hslot]
  · simp only [wp_taken_swap_false, wp_pure]
    refine ⟨congrArg some ?_, h⟩
    ext s : 2
    · cases s <;> rfl
    all_goals rfl

theorem wp_newBle {Q : Except BleError Unit → Option Statics → Prop}
    (herr : ∀ err, Q (.error err) none) (hok : Q (.ok ()) (some Statics.initialized)) :
    driverWp i (newBle f) Q none := by
  rw [newBle, driverWp, wp_bind]
  apply wp_init
  · exact herr _
  · exact herr _
  · exact hok

theorem wp_newWithParker {parker : Borrow} (hparker : parker.driver = i)
    {Q : Except BleError Unit → Option Statics → Prop} (herr : ∀ err, Q (.error err) none)
    (hok : Q (.ok ()) (some { Statics.initialized with active := some parker })) :
    driverWp i (newWithParker f parker) Q none := by
  rw [newWithParker, driverWp, wp_bind]
  apply wp_newBle
  · exact herr
  · simp only [wp_bind, wp_write]
    exact ⟨by simpa [Write.mine] using hparker, hok⟩

/-- Counting or adding services that fails has the driver dropped again. -/
theorem wp_newWithServices (hf : f.peripheral = true)
    {Q : Except BleError Unit → Option Statics → Prop} (herr : ∀ err, Q (.error err) none)
    (hok : Q (.ok ()) (some { Statics.initialized with gattsRegisterCb := true })) :
    driverWp i (newWithServices f) Q none := by
  have hfeatured : { Statics.initialized with gattsRegisterCb := true }.Featured f :=
    ⟨fun _ _ => rfl, by simp [hf]⟩
  have hdrop : ∀ err, driverWp i (dropBle f >>= fun _ => return .error err) Q
      (some { Statics.initialized with gattsRegisterCb := true }) := by
    intro err
    rw [driverWp, wp_bind]
    exact wp_dropBle hfeatured (herr err)
  rw [newWithServices, driverWp, wp_bind]
  apply wp_init
  · exact herr _
  · exact herr _
  simp only [wp_bind, wp_write, addServices, wp_callC]
  refine ⟨trivial, fun rc => ?_⟩
  by_cases hrc : rc = 0
  · simp only [BleError.check, hrc, if_true, wp_bind, wp_callC, wp_pure]
    intro rc
    by_cases hrc : rc = 0
    · simp only [hrc, if_true]
      exact hok
    · simp only [hrc, if_false]
      exact hdrop (.host rc)
  · simp only [BleError.check, hrc, if_false]
    exact hdrop (.host rc)

theorem wp_newWithServicesAndParker (hf : f.peripheral = true) {parker : Borrow}
    (hparker : parker.driver = i) {Q : Except BleError Unit → Option Statics → Prop}
    (herr : ∀ err, Q (.error err) none)
    (hok : Q (.ok ()) (some { Statics.initialized with
      gattsRegisterCb := true, active := some parker })) :
    driverWp i (newWithServicesAndParker f parker) Q none := by
  rw [newWithServicesAndParker, driverWp, wp_bind]
  apply wp_newWithServices hf
  · exact herr
  · simp only [wp_bind, wp_write]
    exact ⟨by simpa [Write.mine] using hparker, hok⟩

end Rules

end NimbleRs.Ble
