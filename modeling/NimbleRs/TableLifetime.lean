import NimbleRs.GattTable
import NimbleRs.OwnedHeap
import NimbleRs.Singleton
import Mathlib.Tactic

/-!
# How long a service table lives

`CSlice` on the C heap, `BleGattServices::new` with its four allocations, and the driver that
keeps the table while the C host refers to it. Each step that can fail gives back what came
before it. The host may refer to the table from `ble_gatts_add_svcs` until the stack is
deinitialized.
-/
namespace NimbleRs.TableLifetime
open OwnedHeap TransitionSystem
open Ble (BleError)
open Gatt (BleGattService)

variable {R : Type}

inductive Table
  | chars
  | svcUuids
  | chrDefs
  | svcDefs
  deriving DecidableEq

inductive CFn
  /-- `Ble::init` -/
  | init
  | gattsCountCfg
  | gattsAddSvcs

abbrev TableProg (R : Type) := Prog Table CFn R

/-- A slice of length zero has no allocation. -/
structure CSlice (R : Type) where
  table : Table
  ptr : Option R

namespace CSlice

def newZeroed (table : Table) (len : ℕ) : TableProg R (Except BleError (CSlice R)) := do
  if len = 0 then return .ok ⟨table, none⟩
  else
    match ← .new table with
    | none => return .error .enomem
    | some ptr => return .ok ⟨table, some ptr⟩

/-- A write to an element. -/
def write (s : CSlice R) : TableProg R Unit :=
  match s.ptr with
  | none => return ()
  | some ptr => .touch ptr

def drop (s : CSlice R) : TableProg R Unit :=
  match s.ptr with
  | none => return ()
  | some ptr => .release s.table ptr

/-- The C host keeps a pointer into the slice. -/
def refer (s : CSlice R) : TableProg R Unit :=
  match s.ptr with
  | none => return ()
  | some ptr => .share ptr

def cells (lent : Bool) (s : CSlice R) : List (R × Holding Table) :=
  match s.ptr with
  | none => []
  | some ptr => [(ptr, .owned s.table lent)]

end CSlice

def dropAll : List (CSlice R) → TableProg R Unit
  | [] => return ()
  | s :: ss => do
    s.drop
    dropAll ss

def referAll : List (CSlice R) → TableProg R Unit
  | [] => return ()
  | s :: ss => do
    s.refer
    referAll ss

structure BleGattServices (R : Type) where
  chars : CSlice R
  svcUuids : CSlice R
  chrDefs : CSlice R
  svcDefs : CSlice R

namespace BleGattServices

def slices (b : BleGattServices R) : List (CSlice R) := [b.chars, b.svcUuids, b.chrDefs, b.svcDefs]

def addChrs (b : BleGattServices R) : ℕ → TableProg R Unit
  | 0 => return ()
  | n + 1 => do
    b.chars.write
    b.chrDefs.write
    addChrs b n

def addSvcs (b : BleGattServices R) : List BleGattService → TableProg R Unit
  | [] => return ()
  | service :: services => do
    b.svcUuids.write
    b.svcDefs.write
    addChrs b service.characteristics.length
    addSvcs b services

/-- An early return drops the slices that are there, the youngest first. -/
def new (services : List BleGattService) : TableProg R (Except BleError (BleGattServices R)) := do
  let totalChars := (services.map fun s => s.characteristics.length).sum
  match ← CSlice.newZeroed .chars totalChars with
  | .error err => return .error err
  | .ok chars =>
    match ← CSlice.newZeroed .svcUuids services.length with
    | .error err =>
      dropAll [chars]
      return .error err
    | .ok svcUuids =>
      match ← CSlice.newZeroed .chrDefs (totalChars + services.length) with
      | .error err =>
        dropAll [svcUuids, chars]
        return .error err
      | .ok chrDefs =>
        match ← CSlice.newZeroed .svcDefs (services.length + 1) with
        | .error err =>
          dropAll [chrDefs, svcUuids, chars]
          return .error err
        | .ok svcDefs =>
          let b := ⟨chars, svcUuids, chrDefs, svcDefs⟩
          addSvcs b services
          return .ok b

/-- The fields go in the order of their declaration. -/
def drop (b : BleGattServices R) : TableProg R Unit := dropAll b.slices

end BleGattServices

/-- `port::deinit`, after which the C host refers to no table any more. -/
def portDeinit : TableProg R Unit := .unshare

/-- `Drop for Ble`, and then of its field. -/
def dropBle (services : BleGattServices R) : TableProg R Unit := do
  portDeinit
  services.drop

/-- The table is the constructor's own, so that its early returns drop it. -/
def newWithServices (services : BleGattServices R) : TableProg R (Except BleError Unit) := do
  match BleError.check (← .ask .init) with
  | .error err =>
    services.drop
    return .error err
  | .ok _ =>
    match BleError.check (← .ask .gattsCountCfg) with
    | .error err =>
      portDeinit
      services.drop
      return .error err
    | .ok _ =>
      -- also a call that fails may leave the host with pointers
      referAll services.slices
      match BleError.check (← .ask .gattsAddSvcs) with
      | .error err =>
        portDeinit
        services.drop
        return .error err
      | .ok _ => return .ok ()

/-- The application builds a table and a driver with it, which in the end it drops or forgets. -/
structure Driver where
  services : List BleGattService
  forgotten : Bool

inductive Ended
  | failed (err : BleError)
  | dropped
  | forgotten

def Driver.prog (d : Driver) : TableProg R Ended := do
  match ← BleGattServices.new d.services with
  | .error err => return .failed err
  | .ok services =>
    match ← newWithServices services with
    | .error err => return .failed err
    | .ok _ =>
      if d.forgotten then return .forgotten
      else
        dropBle services
        return .dropped

def api : Api Table CFn R Driver Ended := ⟨Driver.prog, fun _ => [], fun _ _ taken => taken⟩

section Spec
variable [DecidableEq R] {takes : CFn → ℤ → Bool → Bool} {l : List (R × Holding Table)}
  {v : R → Holding Table} {s : CSlice R} {ss : List (CSlice R)}

theorem CSlice.wp_newZeroed {table : Table} {len : ℕ}
    {Q : Except BleError (CSlice R) → (R → Holding Table) → Prop}
    (hv : Holds (ss.flatMap (CSlice.cells false)) v) (herr : Q (.error .enomem) v)
    (hok : ∀ s v, Holds ((s :: ss).flatMap (CSlice.cells false)) v → Q (.ok s) v) :
    wp takes (CSlice.newZeroed table len) Q v := by
  simp only [List.flatMap_cons] at hok
  unfold CSlice.newZeroed
  split_ifs with hlen
  · exact hok ⟨table, none⟩ v hv
  · simp only [wp_bind, wp_new]
    exact ⟨herr, fun r hr => hok ⟨table, some r⟩ _ (hv.cons hr (by simp))⟩

theorem CSlice.wp_write {Q : Unit → (R → Holding Table) → Prop}
    (hv : Holds (ss.flatMap (CSlice.cells false)) v) (hs : s ∈ ss) (hQ : Q () v) :
    wp takes s.write Q v := by
  obtain ⟨table, _ | ptr⟩ := s
  · exact hQ
  · have hcell := hv.eq (ptr, .owned table false)
      (List.mem_flatMap_of_mem hs (by simp [CSlice.cells]))
    exact wp_touch.mpr ⟨by simp [hcell], hQ⟩

theorem CSlice.wp_drop {Q : Unit → (R → Holding Table) → Prop}
    (hv : Holds (s.cells false ++ l) v) (hQ : ∀ v, Holds l v → Q () v) :
    wp takes s.drop Q v := by
  obtain ⟨table, _ | ptr⟩ := s
  · exact hQ v hv
  · exact wp_release.mpr ⟨hv.eq (ptr, .owned table false) (by simp [CSlice.cells]), hQ _ hv.tail⟩

theorem CSlice.wp_refer {Q : Unit → (R → Holding Table) → Prop}
    (hv : Holds (s.cells false ++ l) v) (hQ : ∀ v, Holds (s.cells true ++ l) v → Q () v) :
    wp takes s.refer Q v := by
  obtain ⟨table, _ | ptr⟩ := s
  · exact hQ v hv
  · exact wp_share.mpr ⟨table, hv.eq (ptr, .owned table false) (by simp [CSlice.cells]),
      hQ _ (hv.set (by simp))⟩

/-- Dropping all slices that there are leaves nothing. -/
theorem wp_dropAll {Q : Unit → (R → Holding Table) → Prop}
    (hv : Holds (ss.flatMap (CSlice.cells false)) v) (hQ : Q () fun _ => .nothing) :
    wp takes (dropAll ss) Q v := by
  induction ss generalizing v with
  | nil =>
    rw [hv.eq_nothing]
    exact hQ
  | cons s ss ih =>
    rw [dropAll, wp_bind]
    exact CSlice.wp_drop hv fun v hv => ih hv

/-- The slices that are referred to already come behind the others. -/
theorem wp_referAll {Q : Unit → (R → Holding Table) → Prop}
    (hv : Holds (ss.flatMap (CSlice.cells false) ++ l) v)
    (hQ : ∀ v, Holds (ss.flatMap (CSlice.cells true) ++ l) v → Q () v) :
    wp takes (referAll ss) Q v := by
  induction ss generalizing l v with
  | nil => exact hQ v hv
  | cons s ss ih =>
    rw [referAll, wp_bind]
    rw [List.flatMap_cons, List.append_assoc] at hv
    refine CSlice.wp_refer hv fun v hv => ?_
    have hperm : (s.cells true ++ (ss.flatMap (CSlice.cells false) ++ l)).Perm
        (ss.flatMap (CSlice.cells false) ++ (s.cells true ++ l)) :=
      List.perm_append_comm_assoc ..
    refine ih (hv.perm hperm) fun v hv => hQ v (hv.perm ?_)
    rw [List.flatMap_cons, List.append_assoc]
    exact List.perm_append_comm_assoc ..

namespace BleGattServices
variable {b : BleGattServices R} {Q : Unit → (R → Holding Table) → Prop}

theorem wp_addChrs (hv : Holds (b.slices.flatMap (CSlice.cells false)) v) {n : ℕ} (hQ : Q () v) :
    wp takes (b.addChrs n) Q v := by
  induction n with
  | zero => exact hQ
  | succ n ih =>
    simp only [addChrs, wp_bind]
    refine CSlice.wp_write hv (by simp [slices]) ?_
    exact CSlice.wp_write hv (by simp [slices]) ih

/-- The loops write to slices that are there. -/
theorem wp_addSvcs (hv : Holds (b.slices.flatMap (CSlice.cells false)) v)
    {services : List BleGattService} (hQ : Q () v) : wp takes (b.addSvcs services) Q v := by
  induction services with
  | nil => exact hQ
  | cons service services ih =>
    simp only [addSvcs, wp_bind]
    refine CSlice.wp_write hv (by simp [slices]) ?_
    refine CSlice.wp_write hv (by simp [slices]) ?_
    exact wp_addChrs hv ih

/-- A table that could not be built leaves nothing, and one that was built owns its slices. -/
theorem wp_new {services : List BleGattService}
    {Q : Except BleError (BleGattServices R) → (R → Holding Table) → Prop}
    (herr : ∀ err, Q (.error err) fun _ => .nothing)
    (hok : ∀ b v, Holds (slices b |>.flatMap (CSlice.cells false)) v → Q (.ok b) v) :
    wp takes (new services) Q fun _ => .nothing := by
  have hnil : Holds (([] : List (CSlice R)).flatMap (CSlice.cells false)) fun _ => .nothing := .nil
  simp only [new, wp_bind]
  refine CSlice.wp_newZeroed hnil (herr .enomem) fun chars v hv => ?_
  simp only [wp_bind]
  refine CSlice.wp_newZeroed hv ?_ fun svcUuids v hv => ?_
  · rw [wp_bind]
    exact wp_dropAll hv (herr .enomem)
  simp only [wp_bind]
  refine CSlice.wp_newZeroed hv ?_ fun chrDefs v hv => ?_
  · rw [wp_bind]
    exact wp_dropAll hv (herr .enomem)
  simp only [wp_bind]
  refine CSlice.wp_newZeroed hv ?_ fun svcDefs v hv => ?_
  · rw [wp_bind]
    exact wp_dropAll hv (herr .enomem)
  have hperm := (List.reverse_perm [svcDefs, chrDefs, svcUuids, chars]).symm
  have hslices :
      Holds ((slices ⟨chars, svcUuids, chrDefs, svcDefs⟩).flatMap (CSlice.cells false)) v :=
    hv.perm (hperm.flatMap_right _)
  simp only [wp_bind]
  exact wp_addSvcs hslices (hok _ _ hslices)

theorem wp_drop (hv : Holds (b.slices.flatMap (CSlice.cells false)) v)
    (hQ : Q () fun _ => .nothing) : wp takes b.drop Q v :=
  wp_dropAll hv hQ

end BleGattServices

/-- The references of the C host are gone. -/
theorem wp_portDeinit {lent : Bool} {Q : Unit → (R → Holding Table) → Prop}
    (hv : Holds (ss.flatMap (CSlice.cells lent)) v)
    (hQ : ∀ v, Holds (ss.flatMap (CSlice.cells false)) v → Q () v) :
    wp takes portDeinit Q v := by
  refine wp_unshare.mpr (hQ _ ?_)
  have hunlent := hv.unlent
  rw [List.map_flatMap] at hunlent
  convert hunlent using 3 with s
  obtain ⟨table, _ | ptr⟩ := s <;> rfl

theorem wp_dropBle {b : BleGattServices R} {Q : Unit → (R → Holding Table) → Prop}
    (hv : Holds (b.slices.flatMap (CSlice.cells true)) v) (hQ : Q () fun _ => .nothing) :
    wp takes (dropBle b) Q v := by
  rw [dropBle, wp_bind]
  exact wp_portDeinit hv fun v hv => b.wp_drop hv hQ

/-- A constructor that fails has dropped the table, after the host was done with it. -/
theorem wp_newWithServices {b : BleGattServices R}
    {Q : Except BleError Unit → (R → Holding Table) → Prop}
    (hv : Holds (b.slices.flatMap (CSlice.cells false)) v)
    (herr : ∀ err, Q (.error err) fun _ => .nothing)
    (hok : ∀ v, Holds (b.slices.flatMap (CSlice.cells true)) v → Q (.ok ()) v) :
    wp takes (newWithServices b) Q v := by
  simp only [newWithServices, wp_bind, wp_ask]
  intro rc
  cases BleError.check rc with
  | error err =>
    rw [wp_bind]
    exact b.wp_drop hv (herr err)
  | ok _ =>
    simp only [wp_bind, wp_ask]
    intro rc
    cases BleError.check rc with
    | error err =>
      simp only [wp_bind]
      exact wp_portDeinit hv fun v hv => b.wp_drop hv (herr err)
    | ok _ =>
      simp only [wp_bind, wp_ask]
      refine wp_referAll (l := []) (by simpa using hv) fun v hv rc => ?_
      rw [List.append_nil] at hv
      cases BleError.check rc with
      | error err =>
        simp only [wp_bind]
        exact wp_portDeinit hv fun v hv => b.wp_drop hv (herr err)
      | ok _ => exact hok v hv

/-- A forgotten driver keeps its table. -/
def Keeps (_ : Driver) : Ended → Prop
  | .forgotten => True
  | _ => False

theorem Driver.prog_leaves (d : Driver) :
    wp takes (d.prog (R := R)) (Leaves Keeps d) fun _ => .nothing := by
  have hnothing : ∀ a, Leaves Keeps d a fun _ : R => (.nothing : Holding Table) :=
    fun a r hr => absurd rfl hr
  simp only [Driver.prog, wp_bind]
  refine BleGattServices.wp_new (fun err => hnothing _) fun b v hv => ?_
  simp only [wp_bind]
  refine wp_newWithServices hv (fun err => hnothing _) fun v hv => ?_
  dsimp only
  split_ifs with hforgotten
  · exact fun r _ => .inr trivial
  · simp only [wp_bind]
    exact wp_dropBle hv (hnothing _)

end Spec

variable {ι : Type*} [DecidableEq R] [DecidableEq ι]

/-- Whatever drivers come and go at once: no table is freed while the host may refer to it,
none is written to or freed when it is gone, and those of the drivers that have ended are
gone, unless a driver was forgotten. -/
theorem tables_outlive_references (as : List (Label Table R ι Driver)) :
    Always (machineStep (api (R := R)))
      (fun s : State Table CFn R ι Driver Ended =>
        ∀ i, (s.thread i).Safe Keeps (view s.heap i)) .start as :=
  always_safe (fun d => d.prog_leaves) as

end NimbleRs.TableLifetime
