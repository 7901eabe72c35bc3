import NimbleRs.Prebuilt
import Mathlib.Order.Bounds.Basic
import Mathlib.Tactic

/-!
# Features of several crates together

Cargo unifies the features that the crates of a build ask for. Which setting each knob then has:
the tables are ordered so that of two features the later one in the table wins, the test suite's
settings win over these, and in a numeric family the largest value does.
-/
namespace NimbleRs.Sys

section Choice
variable {α : Type*} {features features' : List String} {knob : String}

/-- What comes last in a union comes last in one of its parts. -/
theorem getLast?_filter_or (p q : α → Bool) (l : List α) :
    (l.filter fun a => p a || q a).getLast? = (l.filter p).getLast? ∨
      (l.filter fun a => p a || q a).getLast? = (l.filter q).getLast? := by
  induction l using List.reverseRecOn with
  | nil => exact .inl rfl
  | append_singleton l a ih =>
    cases hp : p a with
    | true => exact .inl (by simp [List.filter_append, hp])
    | false =>
      cases hq : q a with
      | true => exact .inr (by simp [List.filter_append, hq])
      | false => simpa [List.filter_append, hp, hq] using ih

theorem chosen_append : chosen (features ++ features') knob = chosen features knob ∨
    chosen (features ++ features') knob = chosen features' knob := by
  have hunion : (fun f : String × String => decide (f.1 ∈ features ++ features')) =
      fun f => decide (f.1 ∈ features) || decide (f.1 ∈ features') := by
    funext f
    simp
  unfold chosen
  rw [hunion]
  rcases getLast?_filter_or (fun f => decide (f.1 ∈ features))
    (fun f => decide (f.1 ∈ features')) (setBy knob) with h | h
  · exact .inl (by rw [h])
  · exact .inr (by rw [h])

/-- The setting that the test suite makes of a knob. -/
def overlay (features : List String) (knob : String) : Option String :=
  if "UPSTREAM_TEST" ∈ features then upstreamTestVals.lookup knob else none

theorem baseVals_eq : baseVals features knob = (overlay features knob).or
    ((chosen features knob).or (insertAll (fun _ => none) valUniverse knob)) := by
  have hnodup : ∀ f ∈ featureVals, (f.2.map Prod.fst).Nodup := by decide
  have hupstream : (upstreamTestVals.map Prod.fst).Nodup := by decide
  unfold baseVals overlay
  split_ifs with h
  · rw [insertAll_eq_lookup hupstream, foldl_overrides_eq hnodup]
    rfl
  · rw [foldl_overrides_eq hnodup]
    rfl

theorem baseVals_append : baseVals (features ++ features') knob = baseVals features knob ∨
    baseVals (features ++ features') knob = baseVals features' knob := by
  have hchoice : chosen (features ++ features') knob = chosen features knob ∨
      chosen (features ++ features') knob = chosen features' knob := chosen_append
  simp only [baseVals_eq, overlay, List.mem_append]
  by_cases h : "UPSTREAM_TEST" ∈ features
  · by_cases h' : "UPSTREAM_TEST" ∈ features'
    · simp only [h, h', or_true, if_true]
      exact hchoice.imp (fun heq => by rw [heq]) fun heq => by rw [heq]
    · cases hlookup : upstreamTestVals.lookup knob with
      | none => exact hchoice.imp (fun heq => by simp [heq]) fun heq => by simp [heq]
      | some value => exact .inl (by simp [h])
  · by_cases h' : "UPSTREAM_TEST" ∈ features'
    · cases hlookup : upstreamTestVals.lookup knob with
      | none => exact hchoice.imp (fun heq => by simp [heq]) fun heq => by simp [heq]
      | some value => exact .inr (by simp [h'])
    · simp only [h, h', or_false, if_false, Option.none_or]
      exact hchoice.imp (fun heq => by rw [heq]) fun heq => by rw [heq]

end Choice

section Families
variable {features features' : List String} {family : String × String}

/-- The test suite's value of a family's knob is at least the reset value. -/
theorem overlay_family (hfamily : family ∈ numericFamilies) :
    ∃ n, upstreamTestVals.lookup family.2 = some (toString n) ∧
      parseU32 (toString n).toList = some n ∧ resetValue family.2 ≤ n := by
  simp only [numericFamilies, List.mem_cons, List.not_mem_nil, or_false] at hfamily
  rcases hfamily with rfl | rfl | rfl
  · exact ⟨2, by decide, by decide, by decide⟩
  · exact ⟨8, by decide, by decide, by decide⟩
  · exact ⟨100, by decide, by decide, by decide⟩

/-- The largest enabled value, but at least what the knob is set to without the family. -/
theorem exists_family_value (hfamily : family ∈ numericFamilies) :
    ∃ n, resetValue family.2 ≤ n ∧ ∀ features, valSettingsFor features family.2 = some (toString
      (max ((enabledValues features family.1).max?.getD 0)
        (if "UPSTREAM_TEST" ∈ features then n else resetValue family.2))) := by
  obtain ⟨n, hlookup, hparse, hle⟩ := overlay_family hfamily
  refine ⟨n, hle, fun features => ?_⟩
  by_cases h : "UPSTREAM_TEST" ∈ features
  · have hbase : baseVals features family.2 = some (toString n) := by
      rw [baseVals_eq, overlay, if_pos h, hlookup, Option.some_or]
    have hvalue : knobValue (baseVals features) family.2 = n := by
      rw [knobValue, hbase, Option.bind_some, hparse, Option.getD_some]
    rw [if_pos h]
    exact foldl_applyFamily families_nodup hfamily hbase hvalue
  · rw [if_neg h]
    exact valSettingsFor_family h hfamily

theorem max?_getD_append (l l' : List ℕ) :
    (l ++ l').max?.getD 0 = max (l.max?.getD 0) (l'.max?.getD 0) := by
  refine le_antisymm ?_ (max_le ?_ ?_)
  · rw [max?_getD_le]
    intro n hn
    rcases List.mem_append.mp hn with hn | hn
    · exact le_max_of_le_left (max?_getD_le.mp le_rfl n hn)
    · exact le_max_of_le_right (max?_getD_le.mp le_rfl n hn)
  · exact max?_getD_le.mpr fun n hn =>
      max?_getD_le.mp le_rfl n (List.mem_append_left l' hn)
  · exact max?_getD_le.mpr fun n hn =>
      max?_getD_le.mp le_rfl n (List.mem_append_right l hn)

theorem family_append (hfamily : family ∈ numericFamilies) :
    valSettingsFor (features ++ features') family.2 = valSettingsFor features family.2 ∨
      valSettingsFor (features ++ features') family.2 = valSettingsFor features' family.2 := by
  obtain ⟨n, hle, hvalue⟩ := exists_family_value hfamily
  simp only [hvalue, enabledValues_append, max?_getD_append, List.mem_append]
  generalize (enabledValues features family.1).max?.getD 0 = a
  generalize (enabledValues features' family.1).max?.getD 0 = b
  have hcases : ∀ x y z : ℕ, x = y ∨ x = z →
      some (toString x) = some (toString y) ∨ some (toString x) = some (toString z) :=
    fun x y z h => h.imp (fun heq => by rw [heq]) fun heq => by rw [heq]
  apply hcases
  by_cases h : "UPSTREAM_TEST" ∈ features <;> by_cases h' : "UPSTREAM_TEST" ∈ features' <;>
    simp only [h, h', or_true, or_false, or_self, if_true, if_false] <;> omega

end Families

section Levels
variable {features : List String}

/-- The numbers of the enabled log levels, the most verbose one being 0. -/
def enabledLevels (features : List String) : List ℕ :=
  [("LOG_LEVEL_ERROR", 3), ("LOG_LEVEL_WARN", 2), ("LOG_LEVEL_INFO", 1),
    ("LOG_LEVEL_DEBUG", 0)].filterMap fun f => if f.1 ∈ features then some f.2 else none

theorem valSettingsFor_of_not_family {knob : String} (hknob : knob ∉ numericFamilies.map Prod.snd) :
    valSettingsFor features knob = baseVals features knob :=
  foldl_applyFamily_of_not_mem hknob _

/-- The most verbose of the enabled levels, 255 if there is none. -/
theorem level_eq : valSettingsFor features "LOG_LEVEL" =
    some (toString ((enabledLevels features).min?.getD 255)) := by
  have hknob : "LOG_LEVEL" ∉ numericFamilies.map Prod.snd := by decide
  have hlookup : upstreamTestVals.lookup "LOG_LEVEL" = none := by decide
  have hreset : insertAll (fun _ => none) valUniverse "LOG_LEVEL" = some "255" := by decide
  rw [valSettingsFor_of_not_family hknob, baseVals_eq, overlay, hlookup, ite_self,
    Option.none_or, hreset]
  unfold chosen enabledLevels
  rw [SelectsPrebuilt.levels]
  by_cases herror : "LOG_LEVEL_ERROR" ∈ features <;>
    by_cases hwarn : "LOG_LEVEL_WARN" ∈ features <;>
    by_cases hinfo : "LOG_LEVEL_INFO" ∈ features <;>
    by_cases hdebug : "LOG_LEVEL_DEBUG" ∈ features <;>
    simp only [List.filter_cons, List.filter_nil, List.filterMap_cons, List.filterMap_nil, herror,
      hwarn, hinfo, hdebug, decide_true, decide_false, if_true, if_false, Bool.false_eq_true] <;>
    decide

theorem mem_enabledLevels {n : ℕ} : n ∈ enabledLevels features ↔
    ∃ f ∈ [("LOG_LEVEL_ERROR", 3), ("LOG_LEVEL_WARN", 2), ("LOG_LEVEL_INFO", 1),
      ("LOG_LEVEL_DEBUG", 0)], f.1 ∈ features ∧ f.2 = n := by
  simp only [enabledLevels, List.mem_filterMap, Option.ite_none_right_eq_some, Option.some.injEq]

theorem le_level {n : ℕ} : n ≤ (enabledLevels features).min?.getD 255 ↔
    n ≤ 255 ∧ ∀ m ∈ enabledLevels features, n ≤ m := by
  have hnumbers : ∀ f ∈ [("LOG_LEVEL_ERROR", 3), ("LOG_LEVEL_WARN", 2), ("LOG_LEVEL_INFO", 1),
      ("LOG_LEVEL_DEBUG", 0)], f.2 ≤ 255 := by
    decide
  have hle : ∀ m ∈ enabledLevels features, m ≤ 255 := by
    intro m hm
    obtain ⟨f, hf, -, rfl⟩ := mem_enabledLevels.mp hm
    exact hnumbers f hf
  cases hmin : (enabledLevels features).min? with
  | none => simp [List.min?_eq_none_iff.mp hmin]
  | some m =>
    obtain ⟨hmem, hleast⟩ := List.min?_eq_some_iff.mp hmin
    constructor
    · exact fun hn => ⟨le_trans hn (hle m hmem), fun k hk => le_trans hn (hleast k hk)⟩
    · exact fun h => h.2 m hmem

theorem level_append (features features' : List String) :
    (enabledLevels (features ++ features')).min?.getD 255 =
      min ((enabledLevels features).min?.getD 255) ((enabledLevels features').min?.getD 255) := by
  refine eq_of_forall_le_iff fun n => ?_
  have hmem : ∀ m, m ∈ enabledLevels (features ++ features') ↔
      m ∈ enabledLevels features ∨ m ∈ enabledLevels features' := by
    intro m
    simp only [mem_enabledLevels, List.mem_append, or_and_right, and_or_left, exists_or]
  rw [le_min_iff, le_level, le_level, le_level]
  simp only [hmem, or_imp, forall_and]
  tauto

/-- `sm` wins over `sm-sc-only`. -/
theorem sm_wins (h : "SM" ∈ features) : valSettingsFor features "BLE_SM_LEGACY" = some "1" ∧
    valSettingsFor features "BLE_SM_SC_ONLY" = some "0" := by
  have hlegacy : setBy "BLE_SM_LEGACY" = [("SM_SC_ONLY", "0")] ++ [("SM", "1")] := by decide
  have honly : setBy "BLE_SM_SC_ONLY" = [("SM_SC_ONLY", "1")] ++ [("SM", "0")] := by decide
  have hlookup : upstreamTestVals.lookup "BLE_SM_LEGACY" = some "1" := by decide
  have hnone : upstreamTestVals.lookup "BLE_SM_SC_ONLY" = none := by decide
  rw [valSettingsFor_of_not_family (by decide), valSettingsFor_of_not_family (by decide),
    baseVals_eq, baseVals_eq, chosen_of_last hlegacy h, chosen_of_last honly h, overlay, overlay,
    hlookup, hnone, ite_self]
  split_ifs <;> simp

end Levels

/-- In a build that asks for two sets of features every knob has the setting that it has in one of
them; of the log levels the most verbose one is set, and `sm` wins over `sm-sc-only`. -/
theorem unified_settings (features features' : List String) :
    (∀ knob, valSettingsFor (features ++ features') knob = valSettingsFor features knob ∨
      valSettingsFor (features ++ features') knob = valSettingsFor features' knob) ∧
    valSettingsFor (features ++ features') "LOG_LEVEL" = some (toString (min
      ((enabledLevels features).min?.getD 255) ((enabledLevels features').min?.getD 255))) ∧
    ("SM" ∈ features ∨ "SM" ∈ features' →
      valSettingsFor (features ++ features') "BLE_SM_LEGACY" = some "1" ∧
        valSettingsFor (features ++ features') "BLE_SM_SC_ONLY" = some "0") := by
  refine ⟨fun knob => ?_, ?_, fun h => sm_wins (List.mem_append.mpr h)⟩
  · by_cases hknob : knob ∈ numericFamilies.map Prod.snd
    · obtain ⟨family, hfamily, rfl⟩ := List.mem_map.mp hknob
      exact family_append hfamily
    · simp only [valSettingsFor_of_not_family hknob]
      exact baseVals_append
  · rw [level_eq, level_append]

theorem unified_settings_of_two_crates :
    valSettingsFor (["SM_SC_ONLY", "LOG_LEVEL_DEBUG"] ++ ["SM", "LOG_LEVEL_WARN"])
        "BLE_SM_SC_ONLY" = some "0" ∧
      valSettingsFor (["SM_SC_ONLY", "LOG_LEVEL_DEBUG"] ++ ["SM", "LOG_LEVEL_WARN"])
        "LOG_LEVEL" = some (toString (min 0 2)) := by
  have hunified := unified_settings ["SM_SC_ONLY", "LOG_LEVEL_DEBUG"] ["SM", "LOG_LEVEL_WARN"]
  exact ⟨(hunified.2.2 (by decide)).2, hunified.2.1⟩

end NimbleRs.Sys
