import Mathlib.Tactic

/-!
# State behind a flag that is taken by a swap

Threads run programs of atomic steps: a swap of the flag, a write to the shared state, a
call of code that leaves both alone. Whoever turns the flag on owns the state until it
turns it off. `wp` is the weakest precondition of a program that keeps to this: it is told
the state while it owns it and nothing otherwise, and it gives the state back as it first
was. One step of a thread then keeps what `wp` says of the program, and no other thread
sees a change.
-/
namespace NimbleRs.FlagGuard

universe u

inductive Prog (W C : Type*) (α : Type*)
  | pure (a : α)
  /-- Sets the flag and goes on with its previous value. -/
  | swap (new : Bool) (next : Bool → Prog W C α)
  | write (w : W) (next : Prog W C α)
  | call (c : C) (next : ℤ → Prog W C α)

variable {W C ι σ : Type*} {α β : Type u}

namespace Prog

def bind : Prog W C α → (α → Prog W C β) → Prog W C β
  | .pure a, f => f a
  | .swap new next, f => .swap new fun old => (next old).bind f
  | .write w next, f => .write w (next.bind f)
  | .call c next, f => .call c fun rc => (next rc).bind f

instance : Monad (Prog W C) where
  pure := .pure
  bind := bind

/-- What is left of the program, the flag and the state. -/
structure After (W C : Type*) (α σ : Type*) where
  prog : Prog W C α
  flag : Bool
  state : σ

/-- One step; `rc` is what a called function returns. -/
def step (apply : W → σ → σ) (flag : Bool) (s : σ) (rc : ℤ) : Prog W C α → Option (After W C α σ)
  | .pure _ => none
  | .swap new next => some ⟨next flag, new, s⟩
  | .write w next => some ⟨next, flag, apply w s⟩
  | .call _ next => some ⟨next rc, flag, s⟩

/-- Whether the next step does more than look at the flag. -/
def changes (flag : Bool) : Prog W C α → Bool
  | .pure _ => false
  | .swap new _ => new != flag
  | .write .. | .call .. => true

/-- What a swap that is to take the flag finds there. -/
def finds (flag : Bool) : Prog W C α → Option Bool
  | .swap true _ => some flag
  | _ => none

/-- What a program that has come to its end returns. -/
def result : Prog W C α → Option α
  | .pure a => some a
  | _ => none

theorem result_eq_some {p : Prog W C α} {a : α} (h : p.result = some a) : p = .pure a := by
  cases p with
  | pure b => exact congrArg Prog.pure (Option.some.inj h)
  | _ => simp [result] at h

theorem step_of_not_changes {apply : W → σ → σ} {flag : Bool} {s : σ} {rc : ℤ}
    {p : Prog W C α} {r : After W C α σ} (h : p.step apply flag s rc = some r)
    (hchanges : p.changes flag = false) : r.flag = flag ∧ r.state = s := by
  cases p with
  | pure a => simp [step] at h
  | swap new next =>
    obtain rfl := Option.some.inj h
    simp only [changes, bne_eq_false_iff_eq] at hchanges
    exact ⟨hchanges, rfl⟩
  | write w next => simp [changes] at hchanges
  | call c next => simp [changes] at hchanges

end Prog

section Wp
variable (apply : W → σ → σ) (mine : W → Prop) (clear : σ)

/-- The weakest precondition of `Q` for a thread that owns the state (`some s`) or not. Only
writes that are `mine` are allowed. -/
def wp : Prog W C α → (α → Option σ → Prop) → Option σ → Prop
  | .pure a, Q, o => Q a o
  | .swap true next, Q, o => o = none ∧ wp (next true) Q none ∧ wp (next false) Q (some clear)
  | .swap false next, Q, o => o = some clear ∧ wp (next true) Q none
  | .write w next, Q, o => mine w ∧ ∃ s, o = some s ∧ wp next Q (some (apply w s))
  | .call _ next, Q, o => o.isSome = true ∧ ∀ rc, wp (next rc) Q o

variable {apply mine clear} {Q : β → Option σ → Prop} {o : Option σ} {s : σ}

@[simp] theorem wp_pure {b : β} :
    wp apply mine clear (pure b : Prog W C β) Q o ↔ Q b o := Iff.rfl

@[simp] theorem wp_bind {p : Prog W C α} {f : α → Prog W C β} :
    wp apply mine clear (p >>= f) Q o ↔
      wp apply mine clear p (fun a o => wp apply mine clear (f a) Q o) o := by
  show wp apply mine clear (p.bind f) Q o ↔ _
  induction p generalizing o with
  | pure a => exact Iff.rfl
  | swap new next ih =>
    cases new with
    | true => exact and_congr_right fun _ => and_congr (ih true) (ih false)
    | false => exact and_congr_right fun _ => ih true
  | write w next ih =>
    exact and_congr_right fun _ => exists_congr fun s => and_congr_right fun _ => ih
  | call c next ih => exact and_congr_right fun _ => forall_congr' fun rc => ih rc

end Wp

/-- The flag says whether some thread owns the state. A state without an owner is clear,
and the state of an owner is one that `own` lets it have. -/
structure Guards (clear : σ) (own : ι → σ → Prop) (flag : Bool) (s : σ) (owner : Option ι) :
    Prop where
  flag_eq : flag = owner.isSome
  clear_of_none : owner = none → s = clear
  owned : ∀ i, owner = some i → own i s

/-- The state as far as thread `i` owns it. -/
def view [DecidableEq ι] (owner : Option ι) (s : σ) (i : ι) : Option σ :=
  if owner = some i then some s else none

section Step
variable [DecidableEq ι] {owner : Option ι} {s t : σ} {i j : ι}

@[simp] theorem view_self : view (some i) s i = some s := if_pos rfl

theorem view_eq_some : view owner s i = some t ↔ owner = some i ∧ s = t := by
  unfold view
  split_ifs with h
  · simp [h]
  · simp [h]

theorem view_eq_none : view owner s i = none ↔ owner ≠ some i := by
  unfold view
  split_ifs with h
  · simp [h]
  · simp [h]

variable {apply : W → σ → σ} {mine : ι → W → Prop} {clear : σ} {own : ι → σ → Prop} {flag : Bool}
  {Q : α → Option σ → Prop} {p : Prog W C α} {rc : ℤ} {r : Prog.After W C α σ}

/-- A step of thread `i` keeps the guard and what `wp` says of the program, and the other
threads own what they owned. By cases on the step: only a swap changes the owner. -/
theorem wp_step (hclear : ∀ i, own i clear)
    (hwrite : ∀ i w s, mine i w → own i s → own i (apply w s))
    (hguards : Guards clear own flag s owner)
    (hwp : wp apply (mine i) clear p Q (view owner s i))
    (hstep : p.step apply flag s rc = some r) :
    ∃ owner', Guards clear own r.flag r.state owner' ∧
      wp apply (mine i) clear r.prog Q (view owner' r.state i) ∧
      ∀ j, j ≠ i → view owner' r.state j = view owner s j := by
  cases p with
  | pure a => simp [Prog.step] at hstep
  | swap new next =>
    obtain rfl := Option.some.inj hstep
    cases new with
    | true =>
      obtain ⟨hnot, htaken, hfree⟩ := hwp
      cases owner with
      | none =>
        obtain rfl := hguards.clear_of_none rfl
        have hflag : flag = false := hguards.flag_eq
        refine ⟨some i, ⟨rfl, by simp, ?_⟩, ?_, fun j hj => ?_⟩
        · intro j hj
          exact hclear j
        · simpa [hflag] using hfree
        · simp [view, hj.symm]
      | some k =>
        have hflag : flag = true := hguards.flag_eq
        refine ⟨some k, ⟨rfl, by simp, hguards.owned⟩, ?_, fun j hj => rfl⟩
        rw [hnot]
        simpa [hflag] using htaken
    | false =>
      obtain ⟨hsome, hnext⟩ := hwp
      obtain ⟨rfl, rfl⟩ := view_eq_some.mp hsome
      have hflag : flag = true := hguards.flag_eq
      refine ⟨none, ⟨rfl, fun _ => rfl, by simp⟩, ?_, fun j hj => ?_⟩
      · simpa [hflag, view] using hnext
      · simp [view, hj.symm]
  | write w next =>
    obtain rfl := Option.some.inj hstep
    obtain ⟨hmine, t, hsome, hnext⟩ := hwp
    obtain ⟨rfl, rfl⟩ := view_eq_some.mp hsome
    refine ⟨some i, ⟨hguards.flag_eq, by simp, ?_⟩, by simpa using hnext, fun j hj => ?_⟩
    · intro j hj
      obtain rfl := Option.some.inj hj
      exact hwrite i w s hmine (hguards.owned i rfl)
    · simp [view, hj.symm]
  | call c next =>
    obtain rfl := Option.some.inj hstep
    exact ⟨owner, hguards, hwp.2 rc, fun j hj => rfl⟩

end Step

end NimbleRs.FlagGuard
