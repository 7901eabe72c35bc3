import NimbleRs.TransitionSystem
import Mathlib.Tactic

/-!
# Programs that own what they have allocated

Threads run programs that allocate resources, use them, free them, give them to foreign code
or lend them to it. Only an owner that has not lent a resource may free it or give it away.
`wp` is the weakest precondition of a program that keeps to this, told only what the thread
itself holds. The machine interleaves any number of programs with a foreign side that allocates
and frees its own and hands it over. Where each program meets its `wp`, no program ever comes
to a step that it is not permitted, and those that have ended hold only what they may keep.
-/
namespace NimbleRs.OwnedHeap
open TransitionSystem

universe u

inductive Prog (K C R : Type*) (α : Type*)
  | pure (a : α)
  /-- Allocates a resource of a kind, or fails to. -/
  | alloc (k : K) (next : Option R → Prog K C R α)
  | use (r : R) (next : Prog K C R α)
  /-- Frees a resource as one of this kind. -/
  | free (k : K) (r : R) (next : Prog K C R α)
  /-- Passes a resource to a foreign function, which may take it, and goes on with its result. -/
  | give (c : C) (r : R) (next : ℤ → Prog K C R α)
  | call (c : C) (next : ℤ → Prog K C R α)
  /-- Lets the foreign code keep a reference. -/
  | lend (r : R) (next : Prog K C R α)
  /-- The foreign code drops the references that this thread has let it keep. -/
  | unlend (next : Prog K C R α)

variable {K C R ι E : Type*} {α β : Type u}

namespace Prog

def bind : Prog K C R α → (α → Prog K C R β) → Prog K C R β
  | .pure a, f => f a
  | .alloc k next, f => .alloc k fun r => (next r).bind f
  | .use r next, f => .use r (next.bind f)
  | .free k r next, f => .free k r (next.bind f)
  | .give c r next, f => .give c r fun rc => (next rc).bind f
  | .call c next, f => .call c fun rc => (next rc).bind f
  | .lend r next, f => .lend r (next.bind f)
  | .unlend next, f => .unlend (next.bind f)

instance : Monad (Prog K C R) where
  pure := .pure
  bind := bind

def new (k : K) : Prog K C R (Option R) := .alloc k .pure

def touch (r : R) : Prog K C R Unit := .use r (.pure ())

def release (k : K) (r : R) : Prog K C R Unit := .free k r (.pure ())

def pass (c : C) (r : R) : Prog K C R ℤ := .give c r .pure

def ask (c : C) : Prog K C R ℤ := .call c .pure

def share (r : R) : Prog K C R Unit := .lend r (.pure ())

def unshare : Prog K C R Unit := .unlend (.pure ())

end Prog

/-- A resource of a thread, which the foreign code may have a reference to, or one of the
foreign code, which a thread may have borrowed. -/
inductive Cell (ι K : Type*)
  | owned (k : K) (i : ι) (lent : Bool)
  | foreign (k : K) (borrower : Option ι)
  deriving DecidableEq

/-- What a thread holds of a resource. -/
inductive Holding (K : Type*)
  | nothing
  | owned (k : K) (lent : Bool)
  | borrowed
  deriving DecidableEq

/-- The holdings of a thread that holds just `r`. -/
def only [DecidableEq R] (r : R) (h : Holding K) : R → Holding K :=
  Function.update (fun _ => .nothing) r h

/-- What a thread holds that has been handed this. -/
def handed [DecidableEq R] (rhs : List (R × Holding K)) : R → Holding K :=
  rhs.foldl (fun v rh => Function.update v rh.1 rh.2) fun _ => .nothing

section Only
variable [DecidableEq R] {r : R} {h h' : Holding K}

@[simp] theorem only_self : only r h r = h := Function.update_self ..

@[simp] theorem update_only : Function.update (only r h) r h' = only r h' :=
  Function.update_idem ..

@[simp] theorem only_nothing : only r (.nothing : Holding K) = fun _ => .nothing :=
  Function.update_eq_self ..

@[simp] theorem update_nothing : Function.update (fun _ => .nothing) r h = only r h := rfl

@[simp] theorem handed_nil : handed ([] : List (R × Holding K)) = fun _ => .nothing := rfl

@[simp] theorem handed_singleton : handed [(r, h)] = only r h := rfl

end Only

def Holding.unlent : Holding K → Holding K
  | .owned k _ => .owned k false
  | h => h

theorem Holding.unlent_ne_nothing {h : Holding K} (hne : h ≠ .nothing) : h.unlent ≠ .nothing := by
  cases h <;> simp_all [unlent]

/-- What is left when the loans have been given back. -/
def Holding.kept : Holding K → Holding K
  | .borrowed => .nothing
  | h => h

theorem Holding.kept_ne_nothing {h : Holding K} :
    h.kept ≠ .nothing ↔ h ≠ .nothing ∧ h ≠ .borrowed := by
  cases h <;> simp [kept]

/-- The thread holds exactly what the list says. -/
structure Holds (l : List (R × Holding K)) (v : R → Holding K) : Prop where
  eq : ∀ x ∈ l, v x.1 = x.2
  nothing : ∀ r, r ∉ l.map Prod.fst → v r = .nothing
  held : ∀ x ∈ l, x.2 ≠ .nothing
  nodup : (l.map Prod.fst).Nodup

namespace Holds
variable {l l' : List (R × Holding K)} {v : R → Holding K} {r : R} {h h' : Holding K}

theorem nil : Holds ([] : List (R × Holding K)) fun _ => .nothing :=
  ⟨by simp, fun _ _ => rfl, by simp, List.nodup_nil⟩

theorem eq_nothing (hv : Holds [] v) : v = fun _ => .nothing :=
  funext fun r => hv.nothing r (by simp)

theorem perm (hv : Holds l v) (hl : l.Perm l') : Holds l' v where
  eq x hx := hv.eq x (hl.mem_iff.mpr hx)
  nothing r hr := hv.nothing r fun hmem => hr ((hl.map _).mem_iff.mp hmem)
  held x hx := hv.held x (hl.mem_iff.mpr hx)
  nodup := (hl.map _).nodup_iff.mp hv.nodup

theorem unlent (hv : Holds l v) :
    Holds (l.map fun x => (x.1, x.2.unlent)) fun r => (v r).unlent := by
  have hkeys : (l.map fun x => (x.1, x.2.unlent)).map Prod.fst = l.map Prod.fst := by
    rw [List.map_map]
    rfl
  constructor
  case eq =>
    intro y hy
    obtain ⟨x, hx, rfl⟩ := List.mem_map.mp hy
    exact congrArg Holding.unlent (hv.eq x hx)
  case nothing =>
    intro r hr
    rw [hkeys] at hr
    rw [hv.nothing r hr]
    rfl
  case held =>
    intro y hy
    obtain ⟨x, hx, rfl⟩ := List.mem_map.mp hy
    exact Holding.unlent_ne_nothing (hv.held x hx)
  case nodup => rw [hkeys]; exact hv.nodup

variable [DecidableEq R]

theorem cons (hv : Holds l v) (hr : v r = .nothing) (hne : h ≠ .nothing) :
    Holds ((r, h) :: l) (Function.update v r h) := by
  have hnot : r ∉ l.map Prod.fst := by
    intro hmem
    obtain ⟨x, hx, rfl⟩ := List.mem_map.mp hmem
    exact hv.held x hx ((hv.eq x hx).symm.trans hr)
  have hkey : ∀ x ∈ l, x.1 ≠ r := fun x hx heq => hnot (List.mem_map.mpr ⟨x, hx, heq⟩)
  constructor
  case eq =>
    intro x hx
    rcases List.mem_cons.mp hx with rfl | hx
    · exact Function.update_self ..
    · rw [Function.update_of_ne (hkey x hx), hv.eq x hx]
  case nothing =>
    intro r' hr'
    rw [List.map_cons, List.mem_cons, not_or] at hr'
    rw [Function.update_of_ne hr'.1, hv.nothing r' hr'.2]
  case held =>
    intro x hx
    rcases List.mem_cons.mp hx with rfl | hx
    · exact hne
    · exact hv.held x hx
  case nodup => exact List.nodup_cons.mpr ⟨hnot, hv.nodup⟩

theorem tail (hv : Holds ((r, h) :: l) v) : Holds l (Function.update v r .nothing) := by
  obtain ⟨hnot, hnodup⟩ := List.nodup_cons.mp hv.nodup
  have hkey : ∀ x ∈ l, x.1 ≠ r := fun x hx heq => hnot (List.mem_map.mpr ⟨x, hx, heq⟩)
  constructor
  case eq =>
    intro x hx
    rw [Function.update_of_ne (hkey x hx), hv.eq x (List.mem_cons_of_mem _ hx)]
  case nothing =>
    intro r' hr'
    by_cases heq : r' = r
    · rw [heq, Function.update_self]
    · rw [Function.update_of_ne heq]
      exact hv.nothing r' (by simp [heq, hr'])
  case held => exact fun x hx => hv.held x (List.mem_cons_of_mem _ hx)
  case nodup => exact hnodup

theorem set (hv : Holds ((r, h) :: l) v) (hne : h' ≠ .nothing) :
    Holds ((r, h') :: l) (Function.update v r h') := by
  have hset := hv.tail.cons (Function.update_self ..) hne
  rwa [Function.update_idem] at hset

end Holds

section Wp
variable [DecidableEq R]

/-- The weakest precondition of `Q` on what the thread holds. `takes c rc taken` says whether a
foreign function that returns `rc` may have taken what it was passed. -/
def wp (takes : C → ℤ → Bool → Bool) :
    Prog K C R α → (α → (R → Holding K) → Prop) → (R → Holding K) → Prop
  | .pure a, Q, v => Q a v
  | .alloc k next, Q, v => wp takes (next none) Q v ∧
      ∀ r, v r = .nothing → wp takes (next (some r)) Q (Function.update v r (.owned k false))
  | .use r next, Q, v => v r ≠ .nothing ∧ wp takes next Q v
  | .free k r next, Q, v =>
      v r = .owned k false ∧ wp takes next Q (Function.update v r .nothing)
  | .give c r next, Q, v => (∃ k, v r = .owned k false) ∧ ∀ rc taken, takes c rc taken = true →
      wp takes (next rc) Q (if taken then Function.update v r .nothing else v)
  | .call _ next, Q, v => ∀ rc, wp takes (next rc) Q v
  | .lend r next, Q, v =>
      ∃ k, v r = .owned k false ∧ wp takes next Q (Function.update v r (.owned k true))
  | .unlend next, Q, v => wp takes next Q fun r => (v r).unlent

variable {takes : C → ℤ → Bool → Bool} {Q : β → (R → Holding K) → Prop} {v : R → Holding K}

@[simp] theorem wp_pure {b : β} : wp takes (pure b : Prog K C R β) Q v ↔ Q b v := Iff.rfl

@[simp] theorem wp_bind {p : Prog K C R α} {f : α → Prog K C R β} :
    wp takes (p >>= f) Q v ↔ wp takes p (fun a v => wp takes (f a) Q v) v := by
  show wp takes (p.bind f) Q v ↔ _
  induction p generalizing v with
  | pure a => exact Iff.rfl
  | alloc k next ih =>
    exact and_congr (ih none) (forall_congr' fun r => forall_congr' fun _ => ih (some r))
  | use r next ih => exact and_congr_right fun _ => ih
  | free k r next ih => exact and_congr_right fun _ => ih
  | give c r next ih =>
    exact and_congr_right fun _ => forall_congr' fun rc => forall_congr' fun _ =>
      forall_congr' fun _ => ih rc
  | call c next ih => exact forall_congr' fun rc => ih rc
  | lend r next ih => exact exists_congr fun k => and_congr_right fun _ => ih
  | unlend next ih => exact ih

section Rules
variable {k : K} {c : C} {r : R}

@[simp] theorem wp_new {Q : Option R → (R → Holding K) → Prop} :
    wp takes (.new k : Prog K C R _) Q v ↔
      Q none v ∧ ∀ r, v r = .nothing → Q (some r) (Function.update v r (.owned k false)) := Iff.rfl

@[simp] theorem wp_touch {Q : Unit → (R → Holding K) → Prop} :
    wp takes (.touch r : Prog K C R _) Q v ↔ v r ≠ .nothing ∧ Q () v := Iff.rfl

@[simp] theorem wp_release {Q : Unit → (R → Holding K) → Prop} :
    wp takes (.release k r : Prog K C R _) Q v ↔
      v r = .owned k false ∧ Q () (Function.update v r .nothing) := Iff.rfl

@[simp] theorem wp_pass {Q : ℤ → (R → Holding K) → Prop} :
    wp takes (.pass c r : Prog K C R _) Q v ↔
      (∃ k, v r = .owned k false) ∧ ∀ rc taken, takes c rc taken = true →
        Q rc (if taken then Function.update v r .nothing else v) := Iff.rfl

@[simp] theorem wp_ask {Q : ℤ → (R → Holding K) → Prop} :
    wp takes (.ask c : Prog K C R _) Q v ↔ ∀ rc, Q rc v := Iff.rfl

@[simp] theorem wp_share {Q : Unit → (R → Holding K) → Prop} :
    wp takes (.share r : Prog K C R _) Q v ↔
      ∃ k, v r = .owned k false ∧ Q () (Function.update v r (.owned k true)) := Iff.rfl

@[simp] theorem wp_unshare {Q : Unit → (R → Holding K) → Prop} :
    wp takes (.unshare : Prog K C R _) Q v ↔ Q () fun r => (v r).unlent := Iff.rfl

end Rules

/-- A weaker postcondition holds too. -/
theorem wp_mono {p : Prog K C R β} {Q' : β → (R → Holding K) → Prop} (h : wp takes p Q v)
    (hQ : ∀ b v, Q b v → Q' b v) : wp takes p Q' v := by
  induction p generalizing v with
  | pure a => exact hQ a v h
  | alloc k next ih => exact ⟨ih none h.1, fun r hr => ih (some r) (h.2 r hr)⟩
  | use r next ih => exact ⟨h.1, ih h.2⟩
  | free k r next ih => exact ⟨h.1, ih h.2⟩
  | give c r next ih => exact ⟨h.1, fun rc taken ht => ih rc (h.2 rc taken ht)⟩
  | call c next ih => exact fun rc => ih rc (h rc)
  | lend r next ih =>
    obtain ⟨k, hk, hnext⟩ := h
    exact ⟨k, hk, ih hnext⟩
  | unlend next ih => exact ih h

end Wp

/-- What a program is permitted to do next, by what its thread holds. -/
def Prog.Permitted (v : R → Holding K) : Prog K C R α → Prop
  | .use r _ => v r ≠ .nothing
  | .free k r _ => v r = .owned k false
  | .give _ r _ | .lend r _ => ∃ k, v r = .owned k false
  | _ => True

theorem permitted_of_wp [DecidableEq R] {takes : C → ℤ → Bool → Bool} {p : Prog K C R α}
    {Q : α → (R → Holding K) → Prop} {v : R → Holding K} (h : wp takes p Q v) : p.Permitted v := by
  cases p with
  | use r next => exact h.1
  | free k r next => exact h.1
  | give c r next => exact h.1
  | lend r next =>
    obtain ⟨k, hk, -⟩ := h
    exact ⟨k, hk⟩
  | _ => trivial

section Heap
variable [DecidableEq ι]

/-- The resources that exist. -/
abbrev Heap (R ι K : Type*) := R → Option (Cell ι K)

def holding (i : ι) : Option (Cell ι K) → Holding K
  | some (.owned k j lent) => if j = i then .owned k lent else .nothing
  | some (.foreign _ (some j)) => if j = i then .borrowed else .nothing
  | _ => .nothing

/-- What thread `i` holds of each resource. -/
def view (heap : Heap R ι K) (i : ι) : R → Holding K := fun r => holding i (heap r)

/-- The foreign code no longer refers to what thread `i` owns. -/
def Cell.unlend (i : ι) : Cell ι K → Cell ι K
  | .owned k j lent => .owned k j (if j = i then false else lent)
  | c => c

/-- What thread `i` has borrowed goes back. -/
def Cell.giveBack (i : ι) : Cell ι K → Cell ι K
  | .foreign k (some j) => .foreign k (if j = i then none else some j)
  | c => c

variable {heap : Heap R ι K} {i j : ι} {r : R} {k : K}

theorem view_eq_owned {lent : Bool} :
    view heap i r = .owned k lent ↔ heap r = some (.owned k i lent) := by
  unfold view
  rcases heap r with _ | ⟨k', j, lent'⟩ | ⟨k', _ | j⟩
  · simp [holding]
  · by_cases hj : j = i <;> simp [holding, hj]
  · simp [holding]
  · by_cases hj : j = i <;> simp [holding, hj]

theorem view_of_owned {lent : Bool} (h : heap r = some (.owned k i lent)) (hji : j ≠ i) :
    view heap j r = .nothing := by
  simp [view, holding, h, hji.symm]

theorem holding_unlend (c : Option (Cell ι K)) :
    holding i (c.map (Cell.unlend i)) = (holding i c).unlent := by
  rcases c with _ | ⟨k, j, lent⟩ | ⟨k, _ | j⟩
  · rfl
  · by_cases hj : j = i <;> simp [Cell.unlend, holding, Holding.unlent, hj]
  · rfl
  · by_cases hj : j = i <;> simp [Cell.unlend, holding, Holding.unlent, hj]

theorem holding_unlend_of_ne (hji : j ≠ i) (c : Option (Cell ι K)) :
    holding j (c.map (Cell.unlend i)) = holding j c := by
  rcases c with _ | ⟨k, l, lent⟩ | ⟨k, _ | l⟩
  · rfl
  · by_cases hl : l = j
    · subst hl
      simp [Cell.unlend, holding, hji]
    · simp [Cell.unlend, holding, hl]
  · rfl
  · rfl

theorem holding_giveBack (c : Option (Cell ι K)) :
    holding i (c.map (Cell.giveBack i)) = (holding i c).kept := by
  rcases c with _ | ⟨k, j, lent⟩ | ⟨k, _ | j⟩
  · rfl
  · by_cases hj : j = i <;> simp [Cell.giveBack, holding, Holding.kept, hj]
  · rfl
  · by_cases hj : j = i <;> simp [Cell.giveBack, holding, Holding.kept, hj]

theorem holding_giveBack_of_ne (hji : j ≠ i) (c : Option (Cell ι K)) :
    holding j (c.map (Cell.giveBack i)) = holding j c := by
  rcases c with _ | ⟨k, l, lent⟩ | ⟨k, _ | l⟩
  · rfl
  · rfl
  · rfl
  · by_cases hl : l = i
    · subst hl
      simp [Cell.giveBack, holding, hji.symm]
    · simp [Cell.giveBack, hl]

/-- A resource that no thread holds is the foreign code's. -/
theorem foreign_of_nothing {c : Cell ι K} (hr : heap r = some c)
    (h : ∀ i, view heap i r = .nothing) : ∃ k, c = .foreign k none := by
  cases c with
  | owned k i lent =>
    have hi := h i
    simp [view, holding, hr] at hi
  | foreign k borrower =>
    cases borrower with
    | none => exact ⟨k, rfl⟩
    | some i =>
      have hi := h i
      simp [view, holding, hr] at hi

variable [DecidableEq R]

theorem view_update (heap : Heap R ι K) (i : ι) (r : R) (c : Option (Cell ι K)) :
    view (Function.update heap r c) i = Function.update (view heap i) r (holding i c) := by
  funext r'
  by_cases hr : r' = r
  · subst hr
    simp [view]
  · simp [view, hr]

/-- Writing a resource that another thread holds nothing of, before and after. -/
theorem view_update_of_nothing {c : Option (Cell ι K)} (hbefore : view heap j r = .nothing)
    (hafter : holding j c = .nothing) : view (Function.update heap r c) j = view heap j := by
  rw [view_update, hafter, ← hbefore, Function.update_eq_self]

end Heap

section Machine
variable [DecidableEq R] [DecidableEq ι] [DecidableEq K]

/-- One step of thread `i`, with what the others choose: the resource that an allocation
yields, what a foreign function returns and whether it takes what it was passed. A step that
is not permitted has no result. -/
def Prog.step (takes : C → ℤ → Bool → Bool) (i : ι) (heap : Heap R ι K) (fresh : Option R)
    (rc : ℤ) (taken : Bool) : Prog K C R α → Option (Prog K C R α × Heap R ι K)
  | .pure _ => none
  | .alloc k next =>
    match fresh with
    | none => some (next none, heap)
    | some r =>
      if heap r = none then
        some (next (some r), Function.update heap r (some (.owned k i false)))
      else none
  | .use r next => if view heap i r ≠ .nothing then some (next, heap) else none
  | .free k r next =>
    if view heap i r = .owned k false then some (next, Function.update heap r none) else none
  | .give c r next =>
    match view heap i r with
    | .owned k false =>
      if takes c rc taken then
        some (next rc, if taken then Function.update heap r (some (.foreign k none)) else heap)
      else none
    | _ => none
  | .call _ next => some (next rc, heap)
  | .lend r next =>
    match view heap i r with
    | .owned k false => some (next, Function.update heap r (some (.owned k i true)))
    | _ => none
  | .unlend next => some (next, fun r => (heap r).map (Cell.unlend i))

section Step
variable {takes : C → ℤ → Bool → Bool} {i : ι} {heap heap' : Heap R ι K} {fresh : Option R}
  {rc : ℤ} {taken : Bool} {p p' : Prog K C R α} {Q : α → (R → Holding K) → Prop}

/-- A step of thread `i` keeps what `wp` says of its program, and the other threads hold what
they held. By cases on the step: each one writes at most a resource that thread `i` holds or
that is free. -/
theorem wp_step (hwp : wp takes p Q (view heap i))
    (hstep : p.step takes i heap fresh rc taken = some (p', heap')) :
    wp takes p' Q (view heap' i) ∧ ∀ j, j ≠ i → view heap' j = view heap j := by
  cases p with
  | pure a => simp [Prog.step] at hstep
  | alloc k next =>
    cases fresh with
    | none =>
      simp only [Prog.step, Option.some.injEq, Prod.mk.injEq] at hstep
      obtain ⟨rfl, rfl⟩ := hstep
      exact ⟨hwp.1, fun j hj => rfl⟩
    | some r =>
      simp only [Prog.step, Option.ite_none_right_eq_some, Option.some.injEq,
        Prod.mk.injEq] at hstep
      obtain ⟨hfree, rfl, rfl⟩ := hstep
      have hnothing : ∀ j, view heap j r = .nothing := fun j => by simp [view, holding, hfree]
      refine ⟨?_, fun j hj => ?_⟩
      · simpa [view_update, holding] using hwp.2 r (hnothing i)
      · exact view_update_of_nothing (hnothing j) (by simp [holding, hj.symm])
  | use r next =>
    simp only [Prog.step, Option.ite_none_right_eq_some, Option.some.injEq,
      Prod.mk.injEq] at hstep
    obtain ⟨-, rfl, rfl⟩ := hstep
    exact ⟨hwp.2, fun j hj => rfl⟩
  | free k r next =>
    obtain ⟨hheld, hnext⟩ := hwp
    simp only [Prog.step, hheld, if_true, Option.some.injEq, Prod.mk.injEq] at hstep
    obtain ⟨rfl, rfl⟩ := hstep
    refine ⟨by simpa [view_update, holding] using hnext, fun j hj => ?_⟩
    exact view_update_of_nothing (view_of_owned (view_eq_owned.mp hheld) hj) rfl
  | give c r next =>
    obtain ⟨⟨k, hheld⟩, hnext⟩ := hwp
    simp only [Prog.step, hheld, Option.ite_none_right_eq_some, Option.some.injEq,
      Prod.mk.injEq] at hstep
    obtain ⟨htakes, rfl, rfl⟩ := hstep
    cases taken with
    | false => exact ⟨hnext rc false htakes, fun j hj => rfl⟩
    | true =>
      refine ⟨by simpa [view_update, holding] using hnext rc true htakes, fun j hj => ?_⟩
      exact view_update_of_nothing (view_of_owned (view_eq_owned.mp hheld) hj) rfl
  | call c next =>
    simp only [Prog.step, Option.some.injEq, Prod.mk.injEq] at hstep
    obtain ⟨rfl, rfl⟩ := hstep
    exact ⟨hwp rc, fun j hj => rfl⟩
  | lend r next =>
    obtain ⟨k, hheld, hnext⟩ := hwp
    simp only [Prog.step, hheld, Option.some.injEq, Prod.mk.injEq] at hstep
    obtain ⟨rfl, rfl⟩ := hstep
    refine ⟨by simpa [view_update, holding] using hnext, fun j hj => ?_⟩
    exact view_update_of_nothing (view_of_owned (view_eq_owned.mp hheld) hj)
      (by simp [holding, hj.symm])
  | unlend next =>
    simp only [Prog.step, Option.some.injEq, Prod.mk.injEq] at hstep
    obtain ⟨rfl, rfl⟩ := hstep
    refine ⟨?_, fun j hj => funext fun r => holding_unlend_of_ne hj (heap r)⟩
    have hview : view (fun r => (heap r).map (Cell.unlend i)) i =
        fun r => (view heap i r).unlent := funext fun r => holding_unlend (heap r)
    rw [hview]
    exact hwp

end Step

inductive Thread (K C R E : Type*) (α : Type*)
  | unused
  | running (e : E) (p : Prog K C R α)
  | done (e : E) (a : α)

structure State (K C R ι E : Type*) (α : Type*) where
  heap : Heap R ι K
  thread : ι → Thread K C R E α

inductive Label (K R ι E : Type*)
  /-- A program is started, and handed what it is to hold. -/
  | start (i : ι) (e : E)
  | step (i : ι) (fresh : Option R) (rc : ℤ) (taken : Bool)
  /-- A program returns, and gives back what it has borrowed. -/
  | finish (i : ι)
  | foreignAlloc (r : R) (k : K)
  | foreignFree (r : R)

/-- The programs that are run, and what each is handed. -/
structure Api (K C R E : Type*) (α : Type*) where
  prog : E → Prog K C R α
  hands : E → List (R × Holding K)
  takes : C → ℤ → Bool → Bool

/-- Hands thread `i` one resource of the foreign code, for good or as a loan. -/
def hand (i : ι) (heap : Heap R ι K) (rh : R × Holding K) : Option (Heap R ι K) :=
  match heap rh.1, rh.2 with
  | some (.foreign k none), .owned k' false =>
    if k = k' then some (Function.update heap rh.1 (some (.owned k i false))) else none
  | some (.foreign k none), .borrowed =>
    some (Function.update heap rh.1 (some (.foreign k (some i))))
  | _, _ => none

def machineStep (api : Api K C R E α) (s : State K C R ι E α) :
    Label K R ι E → Option (State K C R ι E α)
  | .start i e =>
    match s.thread i with
    | .unused =>
      ((api.hands e).foldlM (hand i) s.heap).map fun heap =>
        ⟨heap, Function.update s.thread i (.running e (api.prog e))⟩
    | _ => none
  | .step i fresh rc taken =>
    match s.thread i with
    | .running e p =>
      (p.step api.takes i s.heap fresh rc taken).map fun r =>
        ⟨r.2, Function.update s.thread i (.running e r.1)⟩
    | _ => none
  | .finish i =>
    match s.thread i with
    | .running e (.pure a) =>
      some ⟨fun r => (s.heap r).map (Cell.giveBack i), Function.update s.thread i (.done e a)⟩
    | _ => none
  | .foreignAlloc r k =>
    if s.heap r = none then
      some { s with heap := Function.update s.heap r (some (.foreign k none)) }
    else none
  | .foreignFree r =>
    match s.heap r with
    | some (.foreign _ none) => some { s with heap := Function.update s.heap r none }
    | _ => none

def State.start : State K C R ι E α := ⟨fun _ => none, fun _ => .unused⟩

/-- A program ends holding only loans and what it may keep. -/
def Leaves (keeps : E → α → Prop) (e : E) (a : α) (v : R → Holding K) : Prop :=
  ∀ r, v r ≠ .nothing → v r = .borrowed ∨ keeps e a

/-- What thread `i` may be found to hold. -/
def Thread.Accounts (takes : C → ℤ → Bool → Bool) (keeps : E → α → Prop) (v : R → Holding K) :
    Thread K C R E α → Prop
  | .unused => ∀ r, v r = .nothing
  | .running e p => wp takes p (Leaves keeps e) v
  | .done e a => ∀ r, v r ≠ .nothing → keeps e a

/-- No running program is about to do what it is not permitted, and the threads that are not
running hold nothing but what they may keep. -/
def Thread.Safe (keeps : E → α → Prop) (v : R → Holding K) : Thread K C R E α → Prop
  | .unused => ∀ r, v r = .nothing
  | .running _ p => p.Permitted v
  | .done e a => ∀ r, v r ≠ .nothing → keeps e a

variable {api : Api K C R E α} {keeps : E → α → Prop} {s t : State K C R ι E α} {i j : ι}
  {heap heap' : Heap R ι K}

theorem hand_view {rh : R × Holding K} (h : hand i heap rh = some heap') :
    view heap' i = Function.update (view heap i) rh.1 rh.2 ∧
      ∀ j, j ≠ i → view heap' j = view heap j := by
  obtain ⟨r, given⟩ := rh
  unfold hand at h
  have hnothing : ∀ k, heap r = some (.foreign k none) → ∀ j, view heap j r = .nothing :=
    fun k hr j => by simp [view, holding, hr]
  split at h
  · rename_i k k' hcell hgiven
    simp only [Option.ite_none_right_eq_some, Option.some.injEq] at h
    obtain ⟨rfl, rfl⟩ := h
    dsimp only at hcell hgiven
    refine ⟨by rw [view_update, hgiven]; simp [holding], fun j hj => ?_⟩
    exact view_update_of_nothing (hnothing k hcell j) (by simp [holding, hj.symm])
  · rename_i k hcell hgiven
    obtain rfl := Option.some.inj h
    dsimp only at hcell hgiven
    refine ⟨by rw [view_update, hgiven]; simp [holding], fun j hj => ?_⟩
    exact view_update_of_nothing (hnothing k hcell j) (by simp [holding, hj.symm])
  · simp at h

theorem hands_view {rhs : List (R × Holding K)} (h : rhs.foldlM (hand i) heap = some heap') :
    view heap' i = rhs.foldl (fun v rh => Function.update v rh.1 rh.2) (view heap i) ∧
      ∀ j, j ≠ i → view heap' j = view heap j := by
  induction rhs generalizing heap with
  | nil =>
    obtain rfl := Option.some.inj h
    exact ⟨rfl, fun _ _ => rfl⟩
  | cons rh rhs ih =>
    obtain ⟨heap₁, hhand, hrest⟩ := Option.bind_eq_some_iff.mp h
    obtain ⟨hself, hothers⟩ := hand_view hhand
    obtain ⟨hself', hothers'⟩ := ih hrest
    exact ⟨by rw [hself', hself]; rfl, fun j hj => (hothers' j hj).trans (hothers j hj)⟩

/-- Each thread holds what its place in its program accounts for. -/
def State.Accounted (api : Api K C R E α) (keeps : E → α → Prop) (s : State K C R ι E α) : Prop :=
  ∀ i, (s.thread i).Accounts api.takes keeps (view s.heap i)

omit [DecidableEq K] in
/-- Only thread `i` and what it holds have changed. -/
theorem State.Accounted.update (h : s.Accounted api keeps) {th : Thread K C R E α}
    (hself : th.Accounts api.takes keeps (view heap i))
    (hothers : ∀ j, j ≠ i → view heap j = view s.heap j) :
    State.Accounted api keeps ⟨heap, Function.update s.thread i th⟩ := by
  intro j
  by_cases hj : j = i
  · subst hj
    simpa using hself
  · simpa [hj, hothers j hj] using h j

omit [DecidableEq K] in
theorem State.Accounted.withHeap (h : s.Accounted api keeps)
    (hviews : ∀ j, view heap j = view s.heap j) :
    State.Accounted api keeps { s with heap := heap } := by
  intro j
  dsimp only
  rw [hviews j]
  exact h j

/-- One step of the machine keeps the account. -/
theorem State.Accounted.step (hprog : ∀ e, wp api.takes (api.prog e) (Leaves keeps e)
      (handed (api.hands e)))
    (h : s.Accounted api keeps) {a : Label K R ι E} (hstep : machineStep api s a = some t) :
    t.Accounted api keeps := by
  cases a with
  | start i e =>
    simp only [machineStep] at hstep
    split at hstep
    · rename_i hunused
      obtain ⟨heap, hhands, rfl⟩ := Option.map_eq_some_iff.mp hstep
      obtain ⟨hself, hothers⟩ := hands_view hhands
      have hi := h i
      rw [hunused] at hi
      have hview : view heap i = handed (api.hands e) := by
        rw [hself, show view s.heap i = fun _ => .nothing from funext hi]
        rfl
      refine h.update ?_ hothers
      rw [hview]
      exact hprog e
    · simp at hstep
  | step i fresh rc taken =>
    simp only [machineStep] at hstep
    split at hstep
    · rename_i e p hrunning
      obtain ⟨⟨p', heap⟩, hprogStep, rfl⟩ := Option.map_eq_some_iff.mp hstep
      have hi := h i
      rw [hrunning] at hi
      obtain ⟨hwp, hothers⟩ := wp_step hi hprogStep
      exact h.update hwp hothers
    · simp at hstep
  | finish i =>
    simp only [machineStep] at hstep
    split at hstep
    · rename_i e a hrunning
      obtain rfl := Option.some.inj hstep
      have hi := h i
      rw [hrunning] at hi
      refine h.update (fun r hr => ?_) fun j hj => funext fun r =>
        holding_giveBack_of_ne hj (s.heap r)
      simp only [view, holding_giveBack, Holding.kept_ne_nothing] at hr
      exact (hi r hr.1).resolve_left hr.2
    · simp at hstep
  | foreignAlloc r k =>
    simp only [machineStep, Option.ite_none_right_eq_some, Option.some.injEq] at hstep
    obtain ⟨hfree, rfl⟩ := hstep
    refine h.withHeap fun j => view_update_of_nothing ?_ rfl
    simp [view, holding, hfree]
  | foreignFree r =>
    simp only [machineStep] at hstep
    split at hstep
    · rename_i k hcell
      obtain rfl := Option.some.inj hstep
      refine h.withHeap fun j => view_update_of_nothing ?_ rfl
      simp [view, holding, hcell]
    · simp at hstep

omit [DecidableEq K] in
theorem Thread.Accounts.safe {takes : C → ℤ → Bool → Bool} {v : R → Holding K}
    {th : Thread K C R E α} (h : th.Accounts takes keeps v) : th.Safe keeps v := by
  cases th with
  | unused => exact h
  | running e p => exact permitted_of_wp h
  | done e a => exact h

/-- The run rule: where each program meets its `wp` from what it is handed, every state of
every run is safe. -/
theorem always_safe (hprog : ∀ e, wp api.takes (api.prog e) (Leaves keeps e)
      (handed (api.hands e))) (as : List (Label K R ι E)) :
    Always (machineStep api)
      (fun s : State K C R ι E α => ∀ i, (s.thread i).Safe keeps (view s.heap i)) .start as :=
  always_of_step (I := State.Accounted api keeps)
    (fun _ _ _ h hstep => h.step hprog hstep) (fun _ h i => (h i).safe) as fun _ _ => rfl

end Machine

end NimbleRs.OwnedHeap
