import NimbleRs.Callout
import Mathlib.Tactic

/-!
# The remaining time of a callout

The deadline of a callout is kept as a 64-bit instant. C sees times as `ble_npl_time_t`, which
counts milliseconds in 32 bits, and so do the functions here that answer it.
-/
namespace NimbleRs.Npl

variable {Co Ev Evq Wk : Type*}

/-- `u32::saturating_sub` -/
def saturatingSub (a b : UInt32) : UInt32 := if a ≤ b then 0 else a - b

theorem toNat_saturatingSub (a b : UInt32) : (saturatingSub a b).toNat = a.toNat - b.toNat := by
  unfold saturatingSub
  by_cases h : a ≤ b
  · have hle : a.toNat ≤ b.toNat := UInt32.le_iff_toNat_le.mp h
    simp only [h, if_true, UInt32.toNat_zero]
    omega
  · have hle : b ≤ a := by
      rw [UInt32.le_iff_toNat_le] at h ⊢
      omega
    rw [if_neg h, UInt32.toNat_sub_of_le a b hle]

def bleNplTimeGet (now : Instant) : UInt32 := UInt32.ofNat now

def bleNplCalloutRemainingTicks (n : State Co Ev Evq Wk) (co : Co) (now : UInt32) : UInt32 :=
  let deadline := UInt32.ofNat (n.callout co).deadline
  saturatingSub deadline now

theorem toNat_remainingTicks (n : State Co Ev Evq Wk) (co : Co) (now : Instant) :
    (bleNplCalloutRemainingTicks n co (bleNplTimeGet now)).toNat =
      (n.callout co).deadline % 2 ^ 32 - now % 2 ^ 32 := by
  simp [bleNplCalloutRemainingTicks, bleNplTimeGet, toNat_saturatingSub]

/-- Two counts less than half a period apart, both taken modulo the period, differ by their
true difference exactly when they are in the same period. -/
theorem mod_sub_mod_eq_iff {d n : ℕ} (hd : d < n + 2 ^ 31) (hn : n < d + 2 ^ 31) :
    d % 2 ^ 32 - n % 2 ^ 32 = d - n ↔ d / 2 ^ 32 = n / 2 ^ 32 := by
  have hdd := Nat.div_add_mod d (2 ^ 32)
  have hnn := Nat.div_add_mod n (2 ^ 32)
  have hdm : d % 2 ^ 32 < 2 ^ 32 := Nat.mod_lt d (by norm_num)
  have hnm : n % 2 ^ 32 < 2 ^ 32 := Nat.mod_lt n (by norm_num)
  constructor
  · intro h
    -- one period up the truncated deadline is the smaller one, one period down the larger one
    by_contra hne
    omega
  · intro h
    omega

/-- The remaining time is the time from now to the deadline, and nothing after it, exactly when
no multiple of 2 ^ 32 milliseconds is between the two. -/
theorem remaining_ticks_iff (n : State Co Ev Evq Wk) (co : Co) (now : Instant)
    (hdeadline : (n.callout co).deadline < now + 2 ^ 31)
    (hnow : now < (n.callout co).deadline + 2 ^ 31) :
    (bleNplCalloutRemainingTicks n co (bleNplTimeGet now)).toNat = (n.callout co).deadline - now ↔
      (n.callout co).deadline / 2 ^ 32 = now / 2 ^ 32 := by
  rw [toNat_remainingTicks]
  exact mod_sub_mod_eq_iff hdeadline hnow

/-- A callout at the end of the second period, asked about before and after its deadline. -/
theorem remaining_ticks_iff_in_period :
    let n : State (Fin 1) (Fin 1) (Fin 1) (Fin 1) :=
      { State.ofMem Mem.zeroed with callout := fun _ => ⟨none, 2 ^ 33 - 5, true, none⟩ }
    (bleNplCalloutRemainingTicks n 0 (bleNplTimeGet (2 ^ 33 - 12))).toNat = 7 ∧
      (bleNplCalloutRemainingTicks n 0 (bleNplTimeGet (2 ^ 33 - 2))).toNat = 0 := by
  intro n
  have hbefore := (remaining_ticks_iff n 0 (2 ^ 33 - 12) (by norm_num [n]) (by norm_num [n])).mpr
    (by norm_num [n])
  have hafter := (remaining_ticks_iff n 0 (2 ^ 33 - 2) (by norm_num [n]) (by norm_num [n])).mpr
    (by norm_num [n])
  have hdeadline : (n.callout 0).deadline = 2 ^ 33 - 5 := rfl
  rw [hdeadline] at hbefore hafter
  exact ⟨hbefore.trans (by norm_num), hafter.trans (by norm_num)⟩

/-- Shortly before the count wraps, a callout that was just reset to ten milliseconds has none
left; one that expired before the wrap has more than 49 days left after it. -/
theorem remaining_ticks_at_wrap :
    let n : State (Fin 1) (Fin 1) (Fin 1) (Fin 1) := State.ofMem Mem.zeroed
    let armed := (bleNplCalloutReset n 0 10 (2 ^ 32 - 5)).map Prod.fst
    let expired := (bleNplCalloutReset n 0 2 (2 ^ 32 - 5)).map Prod.fst
    (armed.map fun n => ((n.callout 0).deadline - (2 ^ 32 - 5),
      bleNplCalloutRemainingTicks n 0 (bleNplTimeGet (2 ^ 32 - 5)))) = some (10, 0) ∧
    (expired.map fun n => ((n.callout 0).deadline - (2 ^ 32 + 1),
      bleNplCalloutRemainingTicks n 0 (bleNplTimeGet (2 ^ 32 + 1)))) =
        some (0, 4294967292) := by
  decide

end NimbleRs.Npl
