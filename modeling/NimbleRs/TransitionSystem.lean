import Mathlib.Data.List.Basic
import Mathlib.Data.List.Infix
import Mathlib.Tactic

/-!
# Runs of labelled machines

A machine is a partial step function on states and labels: `none` says that the
label is not enabled. A run executes a list of labels. `Always` speaks about
every state a run visits and `Meets` about every step it takes. The rules below
are the induction and invariant rules that the machines of the other modules
instantiate; nothing here depends on a particular machine.
-/
namespace NimbleRs.TransitionSystem

variable {σ τ ℓ ρ : Type*}

/-- Executes the labels in order; `none` once a label is not enabled. -/
def run (step : σ → ℓ → Option σ) : σ → List ℓ → Option σ
  | s, [] => some s
  | s, a :: as => (step s a).bind (fun t => run step t as)

/-- `P` holds of every state that the run visits, the first one included. -/
def Always (step : σ → ℓ → Option σ) (P : σ → Prop) : σ → List ℓ → Prop
  | s, [] => P s
  | s, a :: as => P s ∧ ∀ t, step s a = some t → Always step P t as

/-- Every step that the run takes is taken in a state where `G` allows it. -/
def Meets (step : σ → ℓ → Option σ) (G : σ → ℓ → Prop) : σ → List ℓ → Prop
  | _, [] => True
  | s, a :: as => ∀ t, step s a = some t → G s a ∧ Meets step G t as

/-- The caller keeps the contract `G` at every call, for as long as calls return. -/
def Keeps (step : σ → ℓ → Option σ) (G : σ → ℓ → Prop) : σ → List ℓ → Prop
  | _, [] => True
  | s, a :: as => G s a ∧ ∀ t, step s a = some t → Keeps step G t as

variable {step : σ → ℓ → Option σ} {P I : σ → Prop} {G H : σ → ℓ → Prop}

theorem run_cons_eq_some {s t : σ} {a : ℓ} {as : List ℓ} :
    run step s (a :: as) = some t ↔ ∃ u, step s a = some u ∧ run step u as = some t := by
  simp [run, Option.bind_eq_some_iff]

theorem run_append (s : σ) (as bs : List ℓ) :
    run step s (as ++ bs) = (run step s as).bind (fun t => run step t bs) := by
  induction as generalizing s with
  | nil => rfl
  | cons a as ih => simp [run, ih, Option.bind_assoc]

theorem Always.head {s : σ} {as : List ℓ} (h : Always step P s as) : P s := by
  cases as with
  | nil => exact h
  | cons a as => exact h.1

theorem Always.imp {Q : σ → Prop} {s : σ} {as : List ℓ} (h : Always step P s as)
    (hPQ : ∀ s, P s → Q s) : Always step Q s as := by
  induction as generalizing s with
  | nil => exact hPQ s h
  | cons a as ih => exact ⟨hPQ s h.1, fun t ht => ih (h.2 t ht)⟩

/-- `Always` is a statement about the states reached by the prefixes of a run. -/
theorem always_iff_forall_run (s : σ) (as : List ℓ) :
    Always step P s as ↔ ∀ bs t, bs <+: as → run step s bs = some t → P t := by
  induction as generalizing s with
  | nil =>
    constructor
    · rintro h bs t hbs hrun
      rw [List.prefix_nil.mp hbs] at hrun
      exact Option.some.inj hrun ▸ h
    · exact fun h => h [] s List.prefix_rfl rfl
  | cons a as ih =>
    constructor
    · rintro ⟨hs, hnext⟩ bs t hbs hrun
      cases bs with
      | nil => simpa [← Option.some.inj hrun] using hs
      | cons b bs =>
        obtain ⟨rfl, hpre⟩ := List.cons_prefix_cons.mp hbs
        obtain ⟨u, hu, hrun⟩ := run_cons_eq_some.mp hrun
        exact (ih u).mp (hnext u hu) bs t hpre hrun
    · intro h
      refine ⟨h [] s List.nil_prefix rfl, fun u hu => (ih u).mpr ?_⟩
      intro bs t hbs hrun
      exact h (a :: bs) t (List.cons_prefix_cons.mpr ⟨rfl, hbs⟩)
        (run_cons_eq_some.mpr ⟨u, hu, hrun⟩)

theorem Meets.and {s : σ} {as : List ℓ} (hG : Meets step G s as) (hH : Meets step H s as) :
    Meets step (fun s a => G s a ∧ H s a) s as := by
  induction as generalizing s with
  | nil => trivial
  | cons a as ih =>
    intro t ht
    exact ⟨⟨(hG t ht).1, (hH t ht).1⟩, ih (hG t ht).2 (hH t ht).2⟩

theorem meets_true (s : σ) (as : List ℓ) : Meets step (fun _ _ => True) s as := by
  induction as generalizing s with
  | nil => trivial
  | cons a as ih => exact fun t _ => ⟨trivial, ih t⟩

theorem always_of_meets
    (hstep : ∀ s a t, I s → G s a → step s a = some t → I t) (hsafe : ∀ s, I s → P s)
    {s : σ} {as : List ℓ} (hI : I s) (hG : Meets step G s as) : Always step P s as := by
  induction as generalizing s with
  | nil => exact hsafe s hI
  | cons a as ih =>
    exact ⟨hsafe s hI, fun t ht => ih (hstep s a t hI (hG t ht).1 ht) (hG t ht).2⟩

/-- The invariant rule for every state of every run. -/
theorem always_of_step (hstep : ∀ s a t, I s → step s a = some t → I t) (hsafe : ∀ s, I s → P s)
    {s : σ} (as : List ℓ) (hI : I s) : Always step P s as := by
  induction as generalizing s with
  | nil => exact hsafe s hI
  | cons a as ih => exact ⟨hsafe s hI, fun t ht => ih (hstep s a t hI ht)⟩

/-- A step condition is exact when keeping it keeps the invariant and breaking it
lands outside `P` at once. -/
theorem always_iff_meets
    (hstep : ∀ s a t, I s → G s a → step s a = some t → I t) (hsafe : ∀ s, I s → P s)
    (hbreak : ∀ s a t, I s → step s a = some t → ¬ G s a → ¬ P t)
    {s : σ} {as : List ℓ} (hI : I s) : Always step P s as ↔ Meets step G s as := by
  refine ⟨fun h => ?_, always_of_meets hstep hsafe hI⟩
  induction as generalizing s with
  | nil => trivial
  | cons a as ih =>
    intro t ht
    have hg : G s a := by
      by_contra hg
      exact hbreak s a t hI ht hg (h.2 t ht).head
    exact ⟨hg, ih (hstep s a t hI hg ht) (h.2 t ht)⟩

/-- A condition on the steps follows from an invariant of the states. -/
theorem meets_of_invariant
    (hstep : ∀ s a t, I s → G s a → step s a = some t → I t)
    (hH : ∀ s a t, I s → G s a → step s a = some t → H s a)
    {s : σ} {as : List ℓ} (hI : I s) (hG : Meets step G s as) : Meets step H s as := by
  induction as generalizing s with
  | nil => trivial
  | cons a as ih =>
    intro t ht
    obtain ⟨hg, hG⟩ := hG t ht
    exact ⟨hH s a t hI hg ht, ih (hstep s a t hI hg ht) hG⟩

theorem Keeps.meets {s : σ} {as : List ℓ} (h : Keeps step G s as) : Meets step G s as := by
  induction as generalizing s with
  | nil => trivial
  | cons a as ih => exact fun t ht => ⟨h.1, ih (h.2 t ht)⟩

/-- What an invariant and the contract say of a call, whether it returns or not. -/
theorem keeps_of_invariant (hstep : ∀ s a t, I s → G s a → step s a = some t → I t)
    (hH : ∀ s a, I s → G s a → H s a) {s : σ} {as : List ℓ} (hI : I s)
    (hG : Keeps step G s as) : Keeps step H s as := by
  induction as generalizing s with
  | nil => trivial
  | cons a as ih =>
    exact ⟨hH s a hI hG.1, fun t ht => ih (hstep s a t hI hG.1 ht) (hG.2 t ht)⟩

theorem keeps_append {s t : σ} {as bs : List ℓ} (h : Keeps step G s (as ++ bs))
    (hrun : run step s as = some t) : Keeps step G s as ∧ Keeps step G t bs := by
  induction as generalizing s with
  | nil =>
    obtain rfl := Option.some.inj hrun
    exact ⟨trivial, h⟩
  | cons a as ih =>
    obtain ⟨u, hu, hrun⟩ := run_cons_eq_some.mp hrun
    obtain ⟨hg, hnext⟩ := h
    refine ⟨⟨hg, fun v hv => ?_⟩, (ih (hnext u hu) hrun).2⟩
    obtain rfl : u = v := Option.some.inj (hu.symm.trans hv)
    exact (ih (hnext u hu) hrun).1

/-- The ranking rule: a rank that no step raises and that each counted step lowers is
used up by as many counted steps. -/
theorem rank_le_of_run (rank : σ → ℕ) (counted : ℓ → Bool)
    (hstep : ∀ s a t, I s → G s a → step s a = some t →
      I t ∧ rank t ≤ rank s - if counted a = true then 1 else 0)
    {s t : σ} {as : List ℓ} (hI : I s) (hG : Keeps step G s as) (hrun : run step s as = some t) :
    I t ∧ rank t ≤ rank s - as.countP counted := by
  induction as generalizing s with
  | nil =>
    obtain rfl := Option.some.inj hrun
    exact ⟨hI, le_rfl⟩
  | cons a as ih =>
    obtain ⟨u, hu, hrun⟩ := run_cons_eq_some.mp hrun
    obtain ⟨hIu, hle⟩ := hstep s a u hI hG.1 hu
    obtain ⟨hIt, hrest⟩ := ih hIu (hG.2 u hu) hrun
    refine ⟨hIt, ?_⟩
    rw [List.countP_cons]
    omega

/-- Two conditions that agree as long as the first one was kept are kept by the same runs. -/
theorem meets_iff_meets (hiff : ∀ s a t, I s → step s a = some t → (G s a ↔ H s a))
    (hstep : ∀ s a t, I s → G s a → step s a = some t → I t)
    {s : σ} (as : List ℓ) (hI : I s) : Meets step G s as ↔ Meets step H s as := by
  induction as generalizing s with
  | nil => exact Iff.rfl
  | cons a as ih =>
    refine forall_congr' (fun t => forall_congr' (fun ht => ?_))
    rw [← hiff s a t hI ht]
    exact and_congr_right (fun hg => ih (hstep s a t hI hg ht))

/-- What holds after the one possible outcome of a step, checked by taking the step. -/
instance decidableNext (o : Option σ) (P : σ → Prop) [DecidablePred P] :
    Decidable (∀ t, o = some t → P t) :=
  match o with
  | none => .isTrue (by simp)
  | some t => decidable_of_iff (P t) (by simp)

instance decidableAlways [DecidablePred P] : ∀ s as, Decidable (Always step P s as)
  | s, [] => inferInstanceAs (Decidable (P s))
  | s, a :: as =>
    have : DecidablePred fun t => Always step P t as := fun t => decidableAlways t as
    inferInstanceAs (Decidable (P s ∧ ∀ t, step s a = some t → Always step P t as))

instance decidableMeets [∀ s a, Decidable (G s a)] : ∀ s as, Decidable (Meets step G s as)
  | _, [] => .isTrue trivial
  | s, a :: as =>
    have : DecidablePred fun t => G s a ∧ Meets step G t as :=
      fun t => have := decidableMeets t as; inferInstance
    inferInstanceAs (Decidable (∀ t, step s a = some t → G s a ∧ Meets step G t as))

instance decidableKeeps [∀ s a, Decidable (G s a)] : ∀ s as, Decidable (Keeps step G s as)
  | _, [] => .isTrue trivial
  | s, a :: as =>
    have : DecidablePred fun t => Keeps step G t as := fun t => decidableKeeps t as
    inferInstanceAs (Decidable (G s a ∧ ∀ t, step s a = some t → Keeps step G t as))

/-- Executes the labels in order and collects what each step returns. -/
def trace (step : σ → ℓ → Option (σ × ρ)) : σ → List ℓ → Option (σ × List ρ)
  | s, [] => some (s, [])
  | s, a :: as =>
    (step s a).bind fun r => (trace step r.1 as).map fun q => (q.1, r.2 :: q.2)

/-- The steps of a machine with results, the results left out. -/
def silent (step : σ → ℓ → Option (σ × ρ)) (s : σ) (a : ℓ) : Option σ :=
  (step s a).map Prod.fst

theorem silent_eq_some {step : σ → ℓ → Option (σ × ρ)} {s t : σ} {a : ℓ} :
    silent step s a = some t ↔ ∃ r, step s a = some (t, r) := by
  simp [silent]

theorem run_of_trace {step : σ → ℓ → Option (σ × ρ)} {s t : σ} {as : List ℓ} {rs : List ρ}
    (h : trace step s as = some (t, rs)) : run (silent step) s as = some t := by
  induction as generalizing s rs with
  | nil => exact congrArg (Option.map Prod.fst) h
  | cons a as ih =>
    simp only [trace, Option.bind_eq_some_iff, Option.map_eq_some_iff, Prod.mk.injEq] at h
    obtain ⟨⟨u, r⟩, hu, ⟨v, qs⟩, hv, rfl, rfl⟩ := h
    exact run_cons_eq_some.mpr ⟨u, silent_eq_some.mpr ⟨r, hu⟩, ih hv⟩

/-- Sums a count over the steps of a run. -/
def total (step : σ → ℓ → Option (σ × ρ)) (count : σ → ℓ → ρ → ℕ) : σ → List ℓ → ℕ
  | _, [] => 0
  | s, a :: as =>
    match step s a with
    | none => 0
    | some r => count s a r.2 + total step count r.1 as

/-- The conservation rule: a stock that each step changes by what it adds less what
it takes is, after a run, the first stock with all additions less all takings. -/
theorem total_balance {step : σ → ℓ → Option (σ × ρ)} {G : σ → ℓ → Prop} (stock : σ → ℕ)
    (add take : σ → ℓ → ρ → ℕ)
    (hstep : ∀ s a t r, G s a → step s a = some (t, r) →
      stock s + add s a r = stock t + take s a r)
    {s t : σ} {as : List ℓ} {rs : List ρ} (hG : Keeps (silent step) G s as)
    (h : trace step s as = some (t, rs)) :
    stock s + total step add s as = stock t + total step take s as := by
  induction as generalizing s rs with
  | nil => simp_all [trace, total]
  | cons a as ih =>
    simp only [trace, Option.bind_eq_some_iff, Option.map_eq_some_iff, Prod.mk.injEq] at h
    obtain ⟨⟨u, r⟩, hu, ⟨v, qs⟩, hv, rfl, rfl⟩ := h
    have hbal := hstep s a u r hG.1 hu
    have hrest := ih (hG.2 u (silent_eq_some.mpr ⟨r, hu⟩)) hv
    simp only [total, hu]
    dsimp only at hrest
    omega

/-- Conservation with order: a sequence that each step shortens at the front by what
it hands out is, after a run, all that was handed out and then what is left. -/
theorem trace_conserves {β : Type*} {step : σ → ℓ → Option (σ × ρ)} (stock : σ → List β)
    (take : ρ → List β)
    (hstep : ∀ s a, I s → G s a →
      ∃ t r, step s a = some (t, r) ∧ I t ∧ take r ++ stock t = stock s)
    {s : σ} {as : List ℓ} (hI : I s) (hG : Keeps (silent step) G s as) :
    ∃ t rs, trace step s as = some (t, rs) ∧ I t ∧ rs.flatMap take ++ stock t = stock s := by
  induction as generalizing s with
  | nil => exact ⟨s, [], rfl, hI, rfl⟩
  | cons a as ih =>
    obtain ⟨u, r, hu, hIu, hfirst⟩ := hstep s a hI hG.1
    obtain ⟨t, rs, ht, hIt, hrest⟩ := ih hIu (hG.2 u (silent_eq_some.mpr ⟨r, hu⟩))
    refine ⟨t, r :: rs, by simp [trace, hu, ht], hIt, ?_⟩
    rw [List.flatMap_cons, List.append_assoc, hrest, hfirst]

section Simulation
variable {step : σ → ℓ → Option (σ × ρ)} {spec : τ → ℓ → Option (τ × ρ)}
  {G : σ → ℓ → Prop} {H : τ → ℓ → Prop} {R : σ → τ → Prop}

/-- Forward simulation with equal results, lifted from steps to runs: `R` relates
the implementing state to the abstract one and `G` is what the caller promises. -/
theorem trace_simulates
    (hsim : ∀ s u a, R s u → G s a →
      ∃ s' u' r, step s a = some (s', r) ∧ spec u a = some (u', r) ∧ R s' u')
    {s : σ} {u : τ} {as : List ℓ} (hR : R s u) (hG : Keeps (silent step) G s as) :
    ∃ s' u' rs, trace step s as = some (s', rs) ∧ trace spec u as = some (u', rs) ∧ R s' u' := by
  induction as generalizing s u with
  | nil => exact ⟨s, u, [], rfl, rfl, hR⟩
  | cons a as ih =>
    obtain ⟨s₁, u₁, r, hs, hu, hR₁⟩ := hsim s u a hR hG.1
    obtain ⟨s', u', rs, hs', hu', hR'⟩ := ih hR₁ (hG.2 s₁ (silent_eq_some.mpr ⟨r, hs⟩))
    exact ⟨s', u', r :: rs, by simp [trace, hs, hs'], by simp [trace, hu, hu'], hR'⟩

/-- The same when the contract is stated on the abstract machine. -/
theorem trace_simulates_spec
    (hsim : ∀ s u a, R s u → H u a →
      ∃ s' u' r, step s a = some (s', r) ∧ spec u a = some (u', r) ∧ R s' u')
    {s : σ} {u : τ} {as : List ℓ} (hR : R s u) (hH : Keeps (silent spec) H u as) :
    ∃ s' u' rs, trace step s as = some (s', rs) ∧ trace spec u as = some (u', rs) ∧ R s' u' := by
  induction as generalizing s u with
  | nil => exact ⟨s, u, [], rfl, rfl, hR⟩
  | cons a as ih =>
    obtain ⟨s₁, u₁, r, hs, hu, hR₁⟩ := hsim s u a hR hH.1
    obtain ⟨s', u', rs, hs', hu', hR'⟩ := ih hR₁ (hH.2 u₁ (silent_eq_some.mpr ⟨r, hu⟩))
    exact ⟨s', u', r :: rs, by simp [trace, hs, hs'], by simp [trace, hu, hu'], hR'⟩

/-- A contract that related states agree on is kept in both machines. -/
theorem keeps_simulates
    (hsim : ∀ s u a, R s u → G s a →
      ∃ s' u' r, step s a = some (s', r) ∧ spec u a = some (u', r) ∧ R s' u')
    (hGH : ∀ s u a, R s u → G s a → H u a)
    {s : σ} {u : τ} {as : List ℓ} (hR : R s u) (hG : Keeps (silent step) G s as) :
    Keeps (silent spec) H u as := by
  induction as generalizing s u with
  | nil => trivial
  | cons a as ih =>
    refine ⟨hGH s u a hR hG.1, fun u' hu' => ?_⟩
    obtain ⟨s₁, u₁, r, hs, hu, hR₁⟩ := hsim s u a hR hG.1
    obtain rfl : u₁ = u' := Option.some.inj ((silent_eq_some.mpr ⟨r, hu⟩).symm.trans hu')
    exact ih hR₁ (hG.2 s₁ (silent_eq_some.mpr ⟨r, hs⟩))

/-- A relational specification allows the labels with these results. -/
def Explains (spec : τ → ℓ → ρ → τ → Prop) : τ → List ℓ → List ρ → τ → Prop
  | t, [], [], t' => t = t'
  | t, a :: as, r :: rs, t' => ∃ u, spec t a r u ∧ Explains spec u as rs t'
  | _, _, _, _ => False

/-- Forward simulation into a relational specification: every run is executed to its
end, and its results are such that the specification allows. -/
theorem trace_explained {spec : τ → ℓ → ρ → τ → Prop}
    (hsim : ∀ s u a, R s u → G s a →
      ∃ s' r u', step s a = some (s', r) ∧ spec u a r u' ∧ R s' u')
    {s : σ} {u : τ} {as : List ℓ} (hR : R s u) (hG : Keeps (silent step) G s as) :
    ∃ s' rs u', trace step s as = some (s', rs) ∧ Explains spec u as rs u' ∧ R s' u' := by
  induction as generalizing s u with
  | nil => exact ⟨s, [], u, rfl, rfl, hR⟩
  | cons a as ih =>
    obtain ⟨s₁, r, u₁, hs, hu, hR₁⟩ := hsim s u a hR hG.1
    obtain ⟨s', rs, u', hs', hu', hR'⟩ := ih hR₁ (hG.2 s₁ (silent_eq_some.mpr ⟨r, hs⟩))
    exact ⟨s', r :: rs, u', by simp [trace, hs, hs'], ⟨u₁, hu, hu'⟩, hR'⟩

end Simulation

end NimbleRs.TransitionSystem
