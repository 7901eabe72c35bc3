import NimbleRs.Features
import Mathlib.Data.List.Sort
import Mathlib.Tactic

/-!
# When the prebuilt libraries are used

`prebuilt_validity` compares the settings of the enabled features with those of the reference
profile, and `NimbleBuilder::defines` is what a build on the fly would compile with. What the
committed libraries were compiled with is a parameter: they are made by a run of the build
script elsewhere. A `BTreeMap` is iterated in the order of its keys.
-/
namespace NimbleRs.Sys

/-- `PREBUILT_FEATURES` -/
def prebuiltFeatures : List String := ["PERIPHERAL", "BROADCASTER", "CENTRAL", "OBSERVER", "SM"]

def extraDefines : List (String × String) :=
  [ ("CONFIG_BT_NIMBLE_GAP_SERVICE", "1"), ("CONFIG_BT_NIMBLE_ENABLED", "1"),
    ("g_msys_pool_list", "nimble_rs_msys_pool_list")]

def upstreamTestExtraDefines : List (String × String) :=
  [("TaskHandle_t", "void *"), ("xTaskGetCurrentTaskHandle()", "ble_npl_get_current_task_id()")]

/-- The names that are ever inserted, in their order. -/
def knobNames : List String :=
  ((valUniverse ++ upstreamTestVals).map Prod.fst).dedup.mergeSort fun a b => decide (a ≤ b)

def entries (vals : Vals) : List (String × String) :=
  knobNames.filterMap fun name => (vals name).map fun value => (name, value)

/-- `NimbleBuilder::defines` -/
def defines (features : List String) : List (String × String) :=
  (entries (valSettingsFor features)).map (fun s => ("MYNEWT_VAL_" ++ s.1, s.2)) ++ extraDefines ++
    if "UPSTREAM_TEST" ∈ features then upstreamTestExtraDefines else []

inductive Delta
  | changed (name reference value : String)
  | removed (name reference : String)
  | added (name value : String)
  deriving DecidableEq

namespace Delta

def text : Delta → String
  | changed name reference value => "~" ++ name ++ "=" ++ reference ++ "->" ++ value
  | removed name reference => "-" ++ name ++ "=" ++ reference
  | added name value => "+" ++ name ++ "=" ++ value

def name : Delta → String
  | changed name _ _ | removed name _ | added name _ => name

def apply (vals : Vals) : Delta → Vals
  | changed name _ value | added name value => insert vals name value
  | removed name _ => Function.update vals name none

end Delta

/-- What the first loop says of an entry of the reference. -/
def deltaOf (active : Vals) (s : String × String) : Option Delta :=
  match active s.1 with
  | some value => if value = s.2 then none else some (.changed s.1 s.2 value)
  | none => some (.removed s.1 s.2)

/-- What the second loop says of an active entry. -/
def addedOf (reference : Vals) (s : String × String) : Option Delta :=
  if reference s.1 = none then some (.added s.1 s.2) else none

def delta (reference active : Vals) : List Delta :=
  (entries reference).filterMap (deltaOf active) ++ (entries active).filterMap (addedOf reference)

def prebuiltValidity (features : List String) : Except String Unit :=
  let delta := delta (valSettingsFor prebuiltFeatures) (valSettingsFor features)
  if delta = [] then .ok () else .error (", ".intercalate (delta.map Delta.text))

section Maps
variable {vals reference active : Vals} {name : String}

/-- The map has no entries besides those that are listed. -/
def Known (vals : Vals) : Prop := ∀ name, vals name ≠ none → name ∈ knobNames

theorem mem_knobNames : name ∈ knobNames ↔
    name ∈ valUniverse.map Prod.fst ∨ name ∈ upstreamTestVals.map Prod.fst := by
  simp only [knobNames, List.mem_mergeSort, List.mem_dedup, List.map_append, List.mem_append]

theorem nodup_knobNames : knobNames.Nodup :=
  (List.mergeSort_perm _ _).nodup_iff.mpr (List.nodup_dedup _)

theorem mem_entries (h : Known vals) {s : String × String} :
    s ∈ entries vals ↔ vals s.1 = some s.2 := by
  simp only [entries, List.mem_filterMap, Option.map_eq_some_iff]
  constructor
  · rintro ⟨name, -, value, hvalue, rfl⟩
    exact hvalue
  · intro hs
    exact ⟨s.1, h s.1 (by simp [hs]), s.2, hs, rfl⟩

theorem entries_inj (h : Known vals) (h' : Known active) (heq : entries vals = entries active) :
    vals = active := by
  funext name
  apply Option.ext
  intro value
  have hmem := mem_entries h (s := (name, value))
  rw [heq, mem_entries h'] at hmem
  exact hmem.symm

theorem apply_of_mem_delta (h : Known reference) (h' : Known active) {d : Delta}
    (hd : d ∈ delta reference active) :
    reference d.name ≠ active d.name ∧
      ∀ vals, d.apply vals = Function.update vals d.name (active d.name) := by
  simp only [delta, List.mem_append, List.mem_filterMap] at hd
  rcases hd with ⟨⟨name, old⟩, hmem, hd⟩ | ⟨⟨name, value⟩, hmem, hd⟩
  · rw [mem_entries h] at hmem
    dsimp only [deltaOf] at hmem hd
    split at hd
    · rename_i value hvalue
      simp only [Option.ite_none_left_eq_some, Option.some.injEq] at hd
      obtain ⟨hne, rfl⟩ := hd
      refine ⟨?_, fun vals => by rw [Delta.name, hvalue]; rfl⟩
      rw [Delta.name, hmem, hvalue]
      simpa using fun heq => hne heq.symm
    · rename_i hnone
      obtain rfl := Option.some.inj hd
      exact ⟨by simp [Delta.name, hmem, hnone], fun vals => by rw [Delta.name, hnone]; rfl⟩
  · rw [mem_entries h'] at hmem
    simp only [addedOf, Option.ite_none_right_eq_some, Option.some.injEq] at hd hmem
    obtain ⟨hnone, rfl⟩ := hd
    exact ⟨by simp [Delta.name, hmem, hnone], fun vals => by rw [Delta.name, hmem]; rfl⟩

theorem exists_mem_delta (h : Known reference) (h' : Known active)
    (hne : reference name ≠ active name) : ∃ d ∈ delta reference active, d.name = name := by
  simp only [delta, List.mem_append, List.mem_filterMap]
  cases hold : reference name with
  | none =>
    obtain ⟨value, hvalue⟩ := Option.ne_none_iff_exists'.mp fun hnone => hne (hold.trans hnone.symm)
    exact ⟨.added name value, .inr ⟨(name, value), (mem_entries h').mpr hvalue,
      by simp [addedOf, hold]⟩, rfl⟩
  | some old =>
    have hmem : (name, old) ∈ entries reference := (mem_entries h).mpr hold
    cases hvalue : active name with
    | none => exact ⟨.removed name old, .inl ⟨(name, old), hmem, by simp [deltaOf, hvalue]⟩, rfl⟩
    | some value =>
      have hchanged : value ≠ old := by
        rintro rfl
        exact hne (hold.trans hvalue.symm)
      exact ⟨.changed name old value, .inl ⟨(name, old), hmem,
        by simp [deltaOf, hvalue, hchanged]⟩, rfl⟩

theorem nodup_entries (vals : Vals) : ((entries vals).map Prod.fst).Nodup := by
  refine nodup_knobNames.sublist ?_
  unfold entries
  induction knobNames with
  | nil => exact List.nil_sublist _
  | cons name names ih =>
    cases hname : vals name with
    | none => simpa [hname] using ih.cons name
    | some value => simpa [hname] using ih.cons_cons name

theorem map_name_sublist {f : String × String → Option Delta}
    (hf : ∀ s d, f s = some d → d.name = s.1) (l : List (String × String)) :
    List.Sublist ((l.filterMap f).map Delta.name) (l.map Prod.fst) := by
  induction l with
  | nil => exact List.nil_sublist _
  | cons s l ih =>
    cases hs : f s with
    | none => simpa [hs] using ih.cons s.1
    | some d => simpa [hs, hf s d hs] using ih.cons_cons s.1

theorem name_of_deltaOf {s : String × String} {d : Delta} (h : deltaOf active s = some d) :
    d.name = s.1 := by
  unfold deltaOf at h
  split at h
  · simp only [Option.ite_none_left_eq_some, Option.some.injEq] at h
    exact h.2 ▸ rfl
  · exact Option.some.inj h ▸ rfl

theorem of_addedOf {s : String × String} {d : Delta} (h : addedOf reference s = some d) :
    reference s.1 = none ∧ d.name = s.1 := by
  simp only [addedOf, Option.ite_none_right_eq_some, Option.some.injEq] at h
  exact ⟨h.1, h.2 ▸ rfl⟩

/-- No knob is named twice: the second loop leaves out what the reference has. -/
theorem nodup_delta (h : Known reference) : ((delta reference active).map Delta.name).Nodup := by
  have hfirst := map_name_sublist (fun s d => @name_of_deltaOf active s d) (entries reference)
  have hsecond := map_name_sublist (fun s d hd => (@of_addedOf reference s d hd).2) (entries active)
  rw [delta, List.map_append]
  refine List.Nodup.append ((nodup_entries _).sublist hfirst) ((nodup_entries _).sublist hsecond) ?_
  intro name hname hadded
  obtain ⟨⟨_, value⟩, hmem, rfl⟩ := List.mem_map.mp (hfirst.subset hname)
  rw [mem_entries h] at hmem
  obtain ⟨d, hd, hdname⟩ := List.mem_map.mp hadded
  obtain ⟨s, -, hs⟩ := List.mem_filterMap.mp hd
  obtain ⟨hnone, hsname⟩ := of_addedOf hs
  dsimp only at hmem hdname
  rw [← hdname, hsname, hnone] at hmem
  simp at hmem

/-- Applies the differences one by one. -/
def patch (vals : Vals) (ds : List Delta) : Vals := ds.foldl Delta.apply vals

/-- Differences that each set their knob to the active value set just these knobs. -/
theorem patch_eq {ds : List Delta}
    (hds : ∀ d ∈ ds, ∀ vals, d.apply vals = Function.update vals d.name (active d.name))
    (vals : Vals) (name : String) : patch vals ds name =
      if name ∈ ds.map Delta.name then active name else vals name := by
  induction ds generalizing vals with
  | nil => rfl
  | cons d ds ih =>
    have htail := ih (fun e he => hds e (List.mem_cons_of_mem _ he)) (d.apply vals)
    rw [patch, List.foldl_cons, ← patch, htail, hds d List.mem_cons_self]
    by_cases hname : name = d.name
    · simp [hname]
    · simp [hname]

/-- The reference with the differences applied is what is active. -/
theorem patch_delta (h : Known reference) (h' : Known active) :
    patch reference (delta reference active) = active := by
  have happly : ∀ d ∈ delta reference active, ∀ vals,
      d.apply vals = Function.update vals d.name (active d.name) :=
    fun d hd => (apply_of_mem_delta h h' hd).2
  funext name
  rw [patch_eq happly]
  split_ifs with hmem
  · rfl
  · by_contra hne
    obtain ⟨d, hd, hname⟩ := exists_mem_delta h h' hne
    exact hmem (List.mem_map.mpr ⟨d, hd, hname⟩)

theorem delta_eq_nil (h : Known reference) (h' : Known active) :
    delta reference active = [] ↔ reference = active := by
  constructor
  · intro hnil
    have hpatch := patch_delta h h'
    rwa [hnil] at hpatch
  · rintro rfl
    refine List.eq_nil_iff_forall_not_mem.mpr fun d hd => ?_
    exact (apply_of_mem_delta h h' hd).1 rfl

theorem knob_of_insertAll {settings : List (String × String)}
    (h : insertAll vals settings name ≠ none) :
    name ∈ settings.map Prod.fst ∨ vals name ≠ none := by
  by_contra hnot
  rw [not_or, not_not] at hnot
  exact h ((insertAll_of_not_mem hnot.1 vals).trans hnot.2)

theorem known_insertAll {settings : List (String × String)} (h : Known vals)
    (hsettings : ∀ name ∈ settings.map Prod.fst, name ∈ knobNames) :
    Known (insertAll vals settings) := fun name hname =>
  (knob_of_insertAll hname).elim (hsettings name) (h name)

theorem known_foldl {table : List (String × List (String × String))} (h : Known vals)
    (htable : ∀ f ∈ table, ∀ name ∈ f.2.map Prod.fst, name ∈ knobNames) (features : List String) :
    Known
      (table.foldl (fun vals f => if f.1 ∈ features then insertAll vals f.2 else vals) vals) := by
  induction table generalizing vals with
  | nil => exact h
  | cons f table ih =>
    rw [List.foldl_cons]
    refine ih ?_ fun g hg => htable g (List.mem_cons_of_mem _ hg)
    split_ifs
    · exact known_insertAll h (htable f List.mem_cons_self)
    · exact h

theorem known_applyFamily {family : String × String} (h : Known vals) (hknob : family.2 ∈ knobNames)
    (features : List String) : Known (applyFamily features vals family) := by
  intro name hname
  by_cases heq : name = family.2
  · exact heq ▸ hknob
  · rw [applyFamily_of_ne heq] at hname
    exact h name hname

theorem featureVals_known : ∀ f ∈ featureVals, ∀ name ∈ f.2.map Prod.fst,
    name ∈ valUniverse.map Prod.fst := by
  decide

theorem families_known : ∀ family ∈ numericFamilies, family.2 ∈ valUniverse.map Prod.fst := by
  decide

/-- Nothing but the knobs of the universe and of the test suite is ever set. -/
theorem known_valSettingsFor (features : List String) : Known (valSettingsFor features) := by
  have huniverse : Known (insertAll (fun _ => none) valUniverse) :=
    known_insertAll (fun name hname => absurd rfl hname) fun name hname =>
      mem_knobNames.mpr (.inl hname)
  have hbase : Known (baseVals features) := by
    have hfold := known_foldl huniverse
      (fun f hf name hname => mem_knobNames.mpr (.inl (featureVals_known f hf name hname))) features
    unfold baseVals
    dsimp only
    split_ifs
    · exact known_insertAll hfold fun name hname => mem_knobNames.mpr (.inr hname)
    · exact hfold
  have hfamilies : ∀ families ⊆ numericFamilies, ∀ vals, Known vals →
      Known (families.foldl (applyFamily features) vals) := by
    intro families
    induction families with
    | nil => exact fun _ _ h => h
    | cons family families ih =>
      intro hsub vals h
      obtain ⟨hfamily, hsub⟩ := List.cons_subset.mp hsub
      exact ih hsub _ (known_applyFamily h
        (mem_knobNames.mpr (.inl (families_known family hfamily))) features)
  exact hfamilies numericFamilies (List.Subset.refl _) _ hbase

end Maps

theorem insertAll_head {settings : List (String × String)} {name value : String}
    (h : name ∉ settings.map Prod.fst) (vals : Vals) :
    insertAll vals ((name, value) :: settings) name = some value := by
  rw [insertAll, List.foldl_cons, ← insertAll, insertAll_of_not_mem h, insert,
    Function.update_self]

section Validity
variable {features : List String}

theorem prebuiltValidity_eq_ok : prebuiltValidity features = .ok () ↔
    valSettingsFor features = valSettingsFor prebuiltFeatures := by
  have hnil := delta_eq_nil (known_valSettingsFor prebuiltFeatures) (known_valSettingsFor features)
  unfold prebuiltValidity
  dsimp only
  rw [eq_comm (a := valSettingsFor features), ← hnil]
  split_ifs with h <;> simp [h]

/-- `SELFTEST` is a knob of the test suite only. -/
theorem valSettingsFor_selftest :
    valSettingsFor features "SELFTEST" = if "UPSTREAM_TEST" ∈ features then some "1" else none := by
  have hfamilies : "SELFTEST" ∉ numericFamilies.map Prod.snd := by decide
  have htable : ∀ f ∈ featureVals, "SELFTEST" ∉ f.2.map Prod.fst := by decide
  have huniverse : insertAll (fun _ => none) valUniverse "SELFTEST" = none := by decide
  have htail : "SELFTEST" ∉ upstreamTestVals.tail.map Prod.fst := by decide
  rw [valSettingsFor, foldl_applyFamily_of_not_mem hfamilies, baseVals]
  split_ifs with h
  · have hvals : upstreamTestVals = ("SELFTEST", "1") :: upstreamTestVals.tail := rfl
    rw [hvals, insertAll_head htail]
  · rw [foldl_overrides htable, huniverse]

/-- The libraries are valid only without the test suite's settings. -/
theorem upstream_of_valid (h : valSettingsFor features = valSettingsFor prebuiltFeatures) :
    "UPSTREAM_TEST" ∉ features := by
  have hselftest := congrFun h "SELFTEST"
  have hprebuilt : "UPSTREAM_TEST" ∉ prebuiltFeatures := by decide
  rw [valSettingsFor_selftest, valSettingsFor_selftest, if_neg hprebuilt] at hselftest
  intro hmem
  simp [hmem] at hselftest

theorem selftest_mem_defines :
    ("MYNEWT_VAL_SELFTEST", "1") ∈ defines features ↔ "UPSTREAM_TEST" ∈ features := by
  have hextra : ("MYNEWT_VAL_SELFTEST", "1") ∉ extraDefines ++
      if "UPSTREAM_TEST" ∈ features then upstreamTestExtraDefines else [] := by
    split_ifs <;> decide
  have hknob : ("MYNEWT_VAL_SELFTEST", "1") ∈
      (entries (valSettingsFor features)).map (fun s => ("MYNEWT_VAL_" ++ s.1, s.2)) ↔
        valSettingsFor features "SELFTEST" = some "1" := by
    have hname : "MYNEWT_VAL_SELFTEST" = "MYNEWT_VAL_" ++ "SELFTEST" := by decide
    simp only [List.mem_map, hname, Prod.mk.injEq, String.append_right_inj]
    rw [← mem_entries (s := ("SELFTEST", "1")) (known_valSettingsFor features)]
    constructor
    · rintro ⟨⟨name, value⟩, hs, rfl, rfl⟩
      exact hs
    · exact fun hs => ⟨_, hs, rfl, rfl⟩
  rw [defines, List.append_assoc, List.mem_append, or_iff_left hextra, hknob,
    valSettingsFor_selftest]
  split_ifs with h <;> simp [h]

theorem upstream_not_mem_prebuilt : "UPSTREAM_TEST" ∉ prebuiltFeatures := by decide

/-- The same settings are the same compilation. -/
theorem defines_eq_iff : defines features = defines prebuiltFeatures ↔
    valSettingsFor features = valSettingsFor prebuiltFeatures := by
  constructor
  · intro h
    have hupstream : "UPSTREAM_TEST" ∉ features := by
      rw [← selftest_mem_defines, h, selftest_mem_defines]
      exact upstream_not_mem_prebuilt
    rw [defines, defines, if_neg hupstream, if_neg upstream_not_mem_prebuilt] at h
    have hprefix : Function.Injective fun s : String × String => ("MYNEWT_VAL_" ++ s.1, s.2) := by
      rintro ⟨a, b⟩ ⟨c, d⟩ heq
      simpa [String.append_right_inj] using heq
    have hentries := hprefix.list_map (List.append_cancel_right (List.append_cancel_right h))
    exact entries_inj (known_valSettingsFor _) (known_valSettingsFor _) hentries
  · intro h
    rw [defines, defines, h, if_neg (upstream_of_valid h), if_neg upstream_not_mem_prebuilt]

end Validity

section Features
variable {features : List String} {knob : String}

/-- The features that set a knob, with its value, in the order of the table. -/
def setBy (knob : String) : List (String × String) :=
  featureVals.filterMap fun f => (f.2.lookup knob).map fun value => (f.1, value)

/-- The last of the enabled features that set a knob has its way. -/
def chosen (features : List String) (knob : String) : Option String :=
  ((setBy knob).filter fun f => decide (f.1 ∈ features)).getLast?.map Prod.snd

theorem insertAll_eq_lookup {settings : List (String × String)}
    (h : (settings.map Prod.fst).Nodup) (vals : Vals) :
    insertAll vals settings knob = (settings.lookup knob).or (vals knob) := by
  induction settings generalizing vals with
  | nil => rfl
  | cons s settings ih =>
    obtain ⟨hnot, hnodup⟩ := List.nodup_cons.mp h
    rw [insertAll, List.foldl_cons, ← insertAll]
    by_cases hs : knob = s.1
    · subst hs
      rw [insertAll_of_not_mem hnot, insert, Function.update_self, List.lookup_cons_self]
      rfl
    · have hbeq : (knob == s.1) = false := by simpa using hs
      rw [ih hnodup, insert, Function.update_of_ne hs, List.lookup_cons, hbeq]

theorem foldl_overrides_eq {table : List (String × List (String × String))}
    (h : ∀ f ∈ table, (f.2.map Prod.fst).Nodup) (vals : Vals) :
    table.foldl (fun vals f => if f.1 ∈ features then insertAll vals f.2 else vals) vals knob =
      ((((table.filterMap fun f => (f.2.lookup knob).map fun value => (f.1, value)).filter
        fun f => decide (f.1 ∈ features)).getLast?).map Prod.snd).or (vals knob) := by
  induction table generalizing vals with
  | nil => rfl
  | cons f table ih =>
    rw [List.foldl_cons, ih fun g hg => h g (List.mem_cons_of_mem _ hg)]
    by_cases hf : f.1 ∈ features
    · rw [if_pos hf, insertAll_eq_lookup (h f List.mem_cons_self)]
      cases hlookup : f.2.lookup knob with
      | none => simp [hlookup]
      | some value =>
        simp only [List.filterMap_cons, hlookup, Option.map_some, List.filter_cons, hf,
          decide_true, if_true, List.getLast?_cons, Option.some_or]
        generalize List.getLast? _ = last
        cases last <;> rfl
    · rw [if_neg hf]
      cases hlookup : f.2.lookup knob with
      | none => simp [hlookup]
      | some value => simp [hlookup, hf]

theorem valSettingsFor_eq_chosen (h : "UPSTREAM_TEST" ∉ features)
    (hknob : knob ∉ numericFamilies.map Prod.snd) : valSettingsFor features knob =
      (chosen features knob).or (insertAll (fun _ => none) valUniverse knob) := by
  have hnodup : ∀ f ∈ featureVals, (f.2.map Prod.fst).Nodup := by decide
  rw [valSettingsFor, foldl_applyFamily_of_not_mem hknob, baseVals, if_neg h,
    foldl_overrides_eq hnodup]
  rfl

/-- Both feature lists leave a knob at one value. -/
def Agree (features : List String) (knob : String) : Prop :=
  valSettingsFor features knob = valSettingsFor prebuiltFeatures knob

theorem agree_of_setBy (h : "UPSTREAM_TEST" ∉ features)
    (hknob : knob ∉ numericFamilies.map Prod.snd) (hset : setBy knob = []) :
    Agree features knob := by
  have hchosen : ∀ features, chosen features knob = none := fun features => by
    simp [chosen, hset]
  rw [Agree, valSettingsFor_eq_chosen h hknob,
    valSettingsFor_eq_chosen upstream_not_mem_prebuilt hknob, hchosen, hchosen]

theorem setBy_eq_nil (h : ∀ f ∈ featureVals, knob ∉ f.2.map Prod.fst) : setBy knob = [] := by
  refine List.filterMap_eq_nil_iff.mpr fun f hf => ?_
  rw [Option.map_eq_none_iff, List.lookup_eq_none_iff]
  intro s hs
  simpa using fun heq => h f hf (List.mem_map.mpr ⟨s, hs, heq.symm⟩)

theorem chosen_eq_none : chosen features knob = none ↔ ∀ f ∈ setBy knob, f.1 ∉ features := by
  simp [chosen]

theorem chosen_of_last {l : List (String × String)} {feature value : String}
    (hset : setBy knob = l ++ [(feature, value)]) (hfeature : feature ∈ features) :
    chosen features knob = some value := by
  simp [chosen, hset, hfeature]

/-- A knob that no feature of the libraries sets keeps its value as long as none of the others
is enabled. -/
theorem agree_of_unset (h : "UPSTREAM_TEST" ∉ features)
    (hknob : knob ∉ numericFamilies.map Prod.snd)
    (hprebuilt : ∀ f ∈ setBy knob, f.1 ∉ prebuiltFeatures)
    (hvalue : ∀ f ∈ setBy knob, some f.2 ≠ insertAll (fun _ => none) valUniverse knob) :
    Agree features knob ↔ ∀ f ∈ setBy knob, f.1 ∉ features := by
  rw [Agree, valSettingsFor_eq_chosen h hknob,
    valSettingsFor_eq_chosen upstream_not_mem_prebuilt hknob, chosen_eq_none.mpr hprebuilt,
    ← chosen_eq_none]
  cases hchosen : chosen features knob with
  | none => simp
  | some value =>
    simp only [Option.some_or, Option.none_or, reduceCtorEq, iff_false]
    obtain ⟨f, hlast, rfl⟩ := Option.map_eq_some_iff.mp hchosen
    exact hvalue f (List.mem_of_mem_filter (List.mem_of_getLast? hlast))

/-- A knob that the libraries have from the last feature that sets it. -/
theorem agree_of_last (h : "UPSTREAM_TEST" ∉ features)
    (hknob : knob ∉ numericFamilies.map Prod.snd) {l : List (String × String)}
    {feature value : String} (hset : setBy knob = l ++ [(feature, value)])
    (hprebuilt : feature ∈ prebuiltFeatures) (hfeature : feature ∈ features) :
    Agree features knob := by
  rw [Agree, valSettingsFor_eq_chosen h hknob,
    valSettingsFor_eq_chosen upstream_not_mem_prebuilt hknob, chosen_of_last hset hfeature,
    chosen_of_last hset hprebuilt]

/-- Without that feature the knob has another value, when none of the others gives it this one. -/
theorem mem_of_agree (h : "UPSTREAM_TEST" ∉ features)
    (hknob : knob ∉ numericFamilies.map Prod.snd) {l : List (String × String)}
    {feature value : String} (hset : setBy knob = l ++ [(feature, value)])
    (hprebuilt : feature ∈ prebuiltFeatures) (hvalues : ∀ f ∈ l, f.2 ≠ value)
    (hreset : insertAll (fun _ => none) valUniverse knob ≠ some value)
    (hagree : Agree features knob) : feature ∈ features := by
  rw [Agree, valSettingsFor_eq_chosen h hknob,
    valSettingsFor_eq_chosen upstream_not_mem_prebuilt hknob, chosen_of_last hset hprebuilt,
    Option.some_or] at hagree
  by_contra hfeature
  cases hchosen : chosen features knob with
  | none =>
    rw [hchosen, Option.none_or] at hagree
    exact hreset hagree
  | some v =>
    rw [hchosen, Option.some_or] at hagree
    obtain ⟨f, hlast, hf⟩ := Option.map_eq_some_iff.mp hchosen
    have hmem := List.mem_filter.mp (List.mem_of_getLast? hlast)
    rw [hset, List.mem_append, List.mem_singleton] at hmem
    obtain ⟨hmem | rfl, henabled⟩ := hmem
    · exact hvalues f hmem (hf.trans (Option.some.inj hagree))
    · exact hfeature (of_decide_eq_true henabled)

theorem max?_getD_le {l : List ℕ} {r : ℕ} : l.max?.getD 0 ≤ r ↔ ∀ n ∈ l, n ≤ r := by
  cases hmax : l.max? with
  | none => simp [List.max?_eq_none_iff.mp hmax]
  | some m =>
    obtain ⟨hmem, hle⟩ := List.max?_eq_some_iff.mp hmax
    exact ⟨fun hm n hn => (hle n hn).trans hm, fun hall => hall m hmem⟩

theorem agree_family (h : "UPSTREAM_TEST" ∉ features) {family : String × String}
    (hfamily : family ∈ numericFamilies) : Agree features family.2 ↔
      ∀ n ∈ enabledValues features family.1, n ≤ resetValue family.2 := by
  have hprebuilt : ∀ family ∈ numericFamilies, enabledValues prebuiltFeatures family.1 = [] := by
    decide
  rw [Agree, valSettingsFor_family h hfamily,
    valSettingsFor_family upstream_not_mem_prebuilt hfamily, hprebuilt family hfamily,
    Option.some.injEq, ← max?_getD_le]
  constructor
  · intro heq
    have hmax := toString_nat_inj heq
    simp only [List.max?_nil, Option.getD_none, Nat.zero_max] at hmax
    exact max_eq_right_iff.mp hmax
  · intro hle
    rw [max_eq_right hle]
    rfl

end Features

/-- What the enabled features have to be for the committed libraries to be the right ones. -/
structure SelectsPrebuilt (features : List String) : Prop where
  production : "UPSTREAM_TEST" ∉ features
  roles : ∀ f ∈ prebuiltFeatures, f ∈ features
  extAdv : "EXT_ADV" ∉ features
  quiet : ∀ f ∈ ["LOG_LEVEL_ERROR", "LOG_LEVEL_WARN", "LOG_LEVEL_INFO", "LOG_LEVEL_DEBUG"],
    f ∉ features
  channels : ∀ n ∈ enabledValues features "L2CAP_COC_", n = 0
  connections : ∀ n ∈ enabledValues features "MAX_CONNECTIONS_", n ≤ 4
  blocks : ∀ n ∈ enabledValues features "MSYS_COUNT_", n ≤ 20

namespace SelectsPrebuilt
variable {features : List String}

theorem roles_of_agree (h : "UPSTREAM_TEST" ∉ features) (hagree : ∀ knob, Agree features knob) :
    ∀ f ∈ prebuiltFeatures, f ∈ features := by
  have hrole : ∀ knob feature, setBy knob = [(feature, "1")] →
      insertAll (fun _ => none) valUniverse knob = some "0" → feature ∈ prebuiltFeatures →
      knob ∉ numericFamilies.map Prod.snd → feature ∈ features :=
    fun knob feature hset hreset hprebuilt hknob =>
      mem_of_agree (l := []) h hknob hset hprebuilt (by simp) (by simp [hreset]) (hagree knob)
  have hperipheral := hrole "BLE_GATTS" "PERIPHERAL" (by decide) (by decide) (by decide) (by decide)
  have hbroadcaster := hrole "BLE_ROLE_BROADCASTER" "BROADCASTER" (by decide) (by decide)
    (by decide) (by decide)
  have hcentral := hrole "BLE_GATTC" "CENTRAL" (by decide) (by decide) (by decide) (by decide)
  have hobserver := hrole "BLE_ROLE_OBSERVER" "OBSERVER" (by decide) (by decide) (by decide)
    (by decide)
  have hlegacy : setBy "BLE_SM_LEGACY" = [("SM_SC_ONLY", "0")] ++ [("SM", "1")] := by decide
  have hsm := mem_of_agree h (by decide) hlegacy (by decide) (by decide) (by decide) (hagree _)
  simpa [prebuiltFeatures] using ⟨hperipheral, hbroadcaster, hcentral, hobserver, hsm⟩

theorem levels : setBy "LOG_LEVEL" = [("LOG_LEVEL_ERROR", "3"), ("LOG_LEVEL_WARN", "2"),
    ("LOG_LEVEL_INFO", "1"), ("LOG_LEVEL_DEBUG", "0")] := by
  decide

theorem agree_extAdv (h : "UPSTREAM_TEST" ∉ features) :
    Agree features "BLE_EXT_ADV" ↔ "EXT_ADV" ∉ features := by
  have hset : setBy "BLE_EXT_ADV" = [("EXT_ADV", "1")] := by decide
  rw [agree_of_unset h (by decide) (by decide) (by decide), hset]
  simp

theorem agree_level (h : "UPSTREAM_TEST" ∉ features) : Agree features "LOG_LEVEL" ↔
    ∀ f ∈ ["LOG_LEVEL_ERROR", "LOG_LEVEL_WARN", "LOG_LEVEL_INFO", "LOG_LEVEL_DEBUG"],
      f ∉ features := by
  rw [agree_of_unset h (by decide) (by decide) (by decide), levels]
  simp

theorem agree_channels (h : "UPSTREAM_TEST" ∉ features) : Agree features "BLE_L2CAP_COC_MAX_NUM" ↔
    ∀ n ∈ enabledValues features "L2CAP_COC_", n = 0 := by
  have hreset : resetValue "BLE_L2CAP_COC_MAX_NUM" = 0 := by decide
  have hfamily : ("L2CAP_COC_", "BLE_L2CAP_COC_MAX_NUM") ∈ numericFamilies := by decide
  simpa only [hreset, Nat.le_zero] using agree_family h hfamily

theorem agree_connections (h : "UPSTREAM_TEST" ∉ features) :
    Agree features "BLE_MAX_CONNECTIONS" ↔
      ∀ n ∈ enabledValues features "MAX_CONNECTIONS_", n ≤ 4 := by
  have hreset : resetValue "BLE_MAX_CONNECTIONS" = 4 := by decide
  have hfamily : ("MAX_CONNECTIONS_", "BLE_MAX_CONNECTIONS") ∈ numericFamilies := by decide
  simpa only [hreset] using agree_family h hfamily

theorem agree_blocks (h : "UPSTREAM_TEST" ∉ features) : Agree features "MSYS_1_BLOCK_COUNT" ↔
    ∀ n ∈ enabledValues features "MSYS_COUNT_", n ≤ 20 := by
  have hreset : resetValue "MSYS_1_BLOCK_COUNT" = 20 := by decide
  have hfamily : ("MSYS_COUNT_", "MSYS_1_BLOCK_COUNT") ∈ numericFamilies := by decide
  simpa only [hreset] using agree_family h hfamily

theorem of_agree (h : "UPSTREAM_TEST" ∉ features) (hagree : ∀ knob, Agree features knob) :
    SelectsPrebuilt features :=
  ⟨h, roles_of_agree h hagree, (agree_extAdv h).mp (hagree _), (agree_level h).mp (hagree _),
    (agree_channels h).mp (hagree _), (agree_connections h).mp (hagree _),
    (agree_blocks h).mp (hagree _)⟩

/-- The knobs that some feature sets. -/
def featureKnobs : List String :=
  [ "BLE_ROLE_PERIPHERAL", "BLE_GATTS", "BLE_ROLE_BROADCASTER", "BLE_ROLE_CENTRAL", "BLE_GATTC",
    "BLE_ROLE_OBSERVER", "BLE_EXT_ADV", "LOG_LEVEL", "BLE_SM_LEGACY", "BLE_SM_SC",
    "BLE_SM_SC_ONLY"]

theorem mem_featureKnobs : ∀ f ∈ featureVals, ∀ name ∈ f.2.map Prod.fst, name ∈ featureKnobs := by
  decide

theorem agree (h : SelectsPrebuilt features) (knob : String) : Agree features knob := by
  have hup := h.production
  by_cases hfamily : knob ∈ numericFamilies.map Prod.snd
  · simp only [numericFamilies, List.map_cons, List.map_nil, List.mem_cons, List.not_mem_nil,
      or_false] at hfamily
    rcases hfamily with rfl | rfl | rfl
    · exact (agree_channels hup).mpr h.channels
    · exact (agree_connections hup).mpr h.connections
    · exact (agree_blocks hup).mpr h.blocks
  by_cases hknob : knob ∈ featureKnobs
  · have hlast : ∀ l feature value, setBy knob = l ++ [(feature, value)] →
        feature ∈ prebuiltFeatures → Agree features knob := fun l feature value hset hprebuilt =>
      agree_of_last hup hfamily hset hprebuilt (h.roles feature hprebuilt)
    simp only [featureKnobs, List.mem_cons, List.not_mem_nil, or_false] at hknob
    rcases hknob with rfl | rfl | rfl | rfl | rfl | rfl | rfl | rfl | rfl | rfl | rfl
    · exact hlast [] "PERIPHERAL" "1" (by decide) (by decide)
    · exact hlast [] "PERIPHERAL" "1" (by decide) (by decide)
    · exact hlast [] "BROADCASTER" "1" (by decide) (by decide)
    · exact hlast [] "CENTRAL" "1" (by decide) (by decide)
    · exact hlast [] "CENTRAL" "1" (by decide) (by decide)
    · exact hlast [] "OBSERVER" "1" (by decide) (by decide)
    · exact (agree_extAdv hup).mpr h.extAdv
    · exact (agree_level hup).mpr h.quiet
    · exact hlast [("SM_SC_ONLY", "0")] "SM" "1" (by decide) (by decide)
    · exact hlast [("SM_SC_ONLY", "1")] "SM" "1" (by decide) (by decide)
    · exact hlast [("SM_SC_ONLY", "1")] "SM" "0" (by decide) (by decide)
  · exact agree_of_setBy hup hfamily
      (setBy_eq_nil fun f hf hmem => hknob (mem_featureKnobs f hf knob hmem))

end SelectsPrebuilt

theorem selectsPrebuilt_iff {features : List String} :
    valSettingsFor features = valSettingsFor prebuiltFeatures ↔ SelectsPrebuilt features :=
  ⟨fun heq => .of_agree (upstream_of_valid heq) (congrFun heq), fun h => funext h.agree⟩

/-- What the build script links. -/
inductive Build
  | panicked (delta : String)
  | pregenerated
  | onTheFly (defines : List (String × String))

/-- The guard against a reference profile that has drifted. -/
def desync (features : List String) : Option String :=
  if "PREBUILT" ∈ features then
    match prebuiltValidity features with
    | .ok _ => none
    | .error delta => some delta
  else none

/-- `main` of the build script. It looks for the bindings of the target, and takes the libraries
from the directory next to them. -/
def build (pregenBindingsRsFileExists : Bool) (features : List String) : Build :=
  match desync features with
  | some delta => .panicked delta
  | none =>
    if "FORCE_GENERATE_BINDINGS" ∉ features ∧ pregenBindingsRsFileExists ∧
        (prebuiltValidity features).isOk then
      .pregenerated
    else .onTheFly (defines features)

/-- What the linked libraries were compiled with; `committed` is what the committed ones were. -/
def Build.compiled (committed : List (String × String)) : Build → Option (List (String × String))
  | panicked _ => none
  | pregenerated => some committed
  | onTheFly defines => some defines

/-- The committed libraries come from a build on the fly with the `prebuilt` profile active. -/
def Committed (committed : List (String × String)) : Prop :=
  ∃ pregenBindingsRsFileExists features, "PREBUILT" ∈ features ∧
    build pregenBindingsRsFileExists features = .onTheFly committed

section Build
variable {features : List String}

theorem prebuiltValidity_isOk :
    (prebuiltValidity features).isOk = true ↔ SelectsPrebuilt features := by
  rw [← selectsPrebuilt_iff, ← prebuiltValidity_eq_ok]
  cases prebuiltValidity features <;> simp [Except.isOk, Except.toBool]

theorem desync_eq_none : desync features = none ↔
    ("PREBUILT" ∈ features → SelectsPrebuilt features) := by
  rw [← prebuiltValidity_isOk, desync]
  by_cases h : "PREBUILT" ∈ features
  · cases hvalid : prebuiltValidity features <;> simp [h, Except.isOk, Except.toBool]
  · simp [h]

/-- The guard sees to it that the profile which the libraries are committed under selects the
reference, whatever else is enabled. -/
theorem Committed.eq {committed : List (String × String)} (h : Committed committed) :
    committed = defines prebuiltFeatures := by
  obtain ⟨pregenExists, features, hprofile, hbuild⟩ := h
  unfold build at hbuild
  split at hbuild
  next => exact absurd hbuild (by simp)
  next hdesync =>
    have hselects := desync_eq_none.mp hdesync hprofile
    split at hbuild
    next => exact absurd hbuild (by simp)
    next =>
      rw [← Build.onTheFly.inj hbuild]
      exact defines_eq_iff.mpr (selectsPrebuilt_iff.mpr hselects)

end Build

/-- Whatever is linked was compiled with the definitions that the enabled features select, if the
committed libraries were built under the `prebuilt` profile: they are taken exactly when that
selects the same, and the build fails only when a profile that calls itself the reference does
not. -/
theorem build_compiles_selection {committed : List (String × String)}
    (pregenBindingsRsFileExists : Bool) (features : List String)
    (hcommitted : pregenBindingsRsFileExists = true → Committed committed) :
    (∀ d, (build pregenBindingsRsFileExists features).compiled committed = some d →
      d = defines features) ∧
    (build pregenBindingsRsFileExists features = .pregenerated ↔
      "FORCE_GENERATE_BINDINGS" ∉ features ∧ pregenBindingsRsFileExists = true ∧
        SelectsPrebuilt features) ∧
    ((build pregenBindingsRsFileExists features).compiled committed = none ↔
      "PREBUILT" ∈ features ∧ ¬ SelectsPrebuilt features) := by
  have hdefines : SelectsPrebuilt features → defines prebuiltFeatures = defines features :=
    fun h => (defines_eq_iff.mpr (selectsPrebuilt_iff.mpr h)).symm
  unfold build
  cases hdesync : desync features with
  | some delta =>
    have hdrifted : "PREBUILT" ∈ features ∧ ¬ SelectsPrebuilt features := by
      have hnot : ¬ desync features = none := by simp [hdesync]
      rwa [desync_eq_none, Classical.not_imp] at hnot
    simp [Build.compiled, hdrifted]
  | none =>
    have hguard := desync_eq_none.mp hdesync
    dsimp only
    rw [← prebuiltValidity_isOk] at hdefines hguard
    simp only [← prebuiltValidity_isOk]
    split_ifs with htaken
    · have heq : committed = defines features :=
        (hcommitted htaken.2.1).eq.trans (hdefines htaken.2.2)
      simp [Build.compiled, heq, htaken]
    · simpa [Build.compiled] using And.intro htaken hguard

/-- A numeric feature below its reset value, with libraries that were forced to be built. -/
theorem build_compiles_selection_of_fewer_connections :
    let profile := "PREBUILT" :: "FORCE_GENERATE_BINDINGS" :: prebuiltFeatures
    let features := "MAX_CONNECTIONS_2" :: prebuiltFeatures
    build true features = .pregenerated ∧
      (build true features).compiled (defines profile) = some (defines features) := by
  intro profile features
  have hprofile : SelectsPrebuilt profile :=
    ⟨by decide, by decide, by decide, by decide, by decide, by decide, by decide⟩
  have hfeatures : SelectsPrebuilt features :=
    ⟨by decide, by decide, by decide, by decide, by decide, by decide, by decide⟩
  have hcommitted : Committed (defines profile) := by
    refine ⟨true, profile, List.mem_cons_self, ?_⟩
    have hdesync : desync profile = none := desync_eq_none.mpr fun _ => hprofile
    simp [build, hdesync, profile]
  obtain ⟨hcompiled, htaken, -⟩ := build_compiles_selection true features fun _ => hcommitted
  have hbuild : build true features = .pregenerated := htaken.mpr ⟨by decide, rfl, hfeatures⟩
  have hlinked : (build true features).compiled (defines profile) = some (defines profile) := by
    rw [hbuild]
    rfl
  exact ⟨hbuild, hlinked.trans (congrArg some (hcompiled _ hlinked))⟩

/-- The differences that are reported name each knob that differs, once, and none that does not,
and turn the settings of the libraries into the ones that are active. -/
theorem delta_complete (features : List String) :
    patch (valSettingsFor prebuiltFeatures)
        (delta (valSettingsFor prebuiltFeatures) (valSettingsFor features)) =
      valSettingsFor features ∧
    ((delta (valSettingsFor prebuiltFeatures) (valSettingsFor features)).map Delta.name).Nodup ∧
    ∀ name, name ∈ (delta (valSettingsFor prebuiltFeatures) (valSettingsFor features)).map
      Delta.name ↔ valSettingsFor prebuiltFeatures name ≠ valSettingsFor features name := by
  have h := known_valSettingsFor prebuiltFeatures
  have h' := known_valSettingsFor features
  refine ⟨patch_delta h h', nodup_delta h, fun name => ⟨?_, fun hne => ?_⟩⟩
  · intro hmem
    obtain ⟨d, hd, rfl⟩ := List.mem_map.mp hmem
    exact (apply_of_mem_delta h h' hd).1
  · obtain ⟨d, hd, hname⟩ := exists_mem_delta h h' hne
    exact List.mem_map.mpr ⟨d, hd, hname⟩

end NimbleRs.Sys
