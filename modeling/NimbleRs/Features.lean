import Mathlib.Tactic

/-!
# The configuration of the host

`val_settings_for` of the build script: from the Cargo features that are enabled to the values
of the `MYNEWT_VAL_*` knobs. The tables are those of the source, comments aside.
-/
namespace NimbleRs.Sys

/-- Every knob with its reset value. -/
def valUniverse : List (String × String) :=
  [ ("BLE_ROLE_BROADCASTER", "0"), ("BLE_ROLE_CENTRAL", "0"), ("BLE_ROLE_OBSERVER", "0"),
    ("BLE_ROLE_PERIPHERAL", "0"), ("LOG_LEVEL", "255"), ("BLE_GATTS", "0"), ("BLE_GATTC", "0"),
    ("BLE_GATT_CACHING", "0"), ("BLE_GATT_CSFC_SIZE", "1"), ("BLE_STORE_MAX_CSFCS", "3"),
    ("BLE_EXT_ADV", "0"), ("BLE_PERIODIC_ADV", "0"), ("BLE_SM_LEGACY", "0"), ("BLE_SM_SC", "0"),
    ("BLE_SM_SC_ONLY", "0"), ("BLE_HS_PVCY", "1"), ("BLE_SM_SIGN_CNT", "1"),
    ("BLE_L2CAP_COC_MAX_NUM", "0"), ("BLE_MAX_CONNECTIONS", "4"), ("MSYS_1_BLOCK_COUNT", "20"),
    ("BLE_HS_DEBUG", "0"), ("BLE_ISO", "0"), ("BLE_MESH", "0"), ("BLE_EATT_CHAN_NUM", "0"),
    ("BLE_HS_FLOW_CTRL", "0"), ("BLE_GATT_BLOB_TRANSFER", "0"), ("BLE_QUEUE_CONG_CHECK", "0"),
    ("BLE_CRYPTO_STACK_MBEDTLS", "0"), ("BLE_STATIC_TO_DYNAMIC", "0"), ("MP_RUNTIME_ALLOC", "0"),
    ("BLE_TRANSPORT_HS__cdc", "0"), ("BLE_TRANSPORT_HS__custom", "0"),
    ("BLE_TRANSPORT_HS__dialog_cmac", "0"), ("BLE_TRANSPORT_HS__native", "1"),
    ("BLE_TRANSPORT_HS__nrf5340", "0"), ("BLE_TRANSPORT_HS__uart", "0"),
    ("BLE_TRANSPORT_HS__usb", "0"), ("BLE_TRANSPORT_LL__apollo3", "0"),
    ("BLE_TRANSPORT_LL__custom", "1"), ("BLE_TRANSPORT_LL__dialog_cmac", "0"),
    ("BLE_TRANSPORT_LL__emspi", "0"), ("BLE_TRANSPORT_LL__native", "0"),
    ("BLE_TRANSPORT_LL__nrf5340", "0"), ("BLE_TRANSPORT_LL__socket", "0")]

/-- The overrides of each feature; where two of them set a knob, the later one wins. -/
def featureVals : List (String × List (String × String)) :=
  [ ("PERIPHERAL", [("BLE_ROLE_PERIPHERAL", "1"), ("BLE_GATTS", "1")]),
    ("BROADCASTER", [("BLE_ROLE_BROADCASTER", "1")]),
    ("CENTRAL", [("BLE_ROLE_CENTRAL", "1"), ("BLE_GATTC", "1")]),
    ("OBSERVER", [("BLE_ROLE_OBSERVER", "1")]),
    ("EXT_ADV", [("BLE_EXT_ADV", "1")]),
    ("LOG_LEVEL_ERROR", [("LOG_LEVEL", "3")]),
    ("LOG_LEVEL_WARN", [("LOG_LEVEL", "2")]),
    ("LOG_LEVEL_INFO", [("LOG_LEVEL", "1")]),
    ("LOG_LEVEL_DEBUG", [("LOG_LEVEL", "0")]),
    ("SM_SC_ONLY", [("BLE_SM_LEGACY", "0"), ("BLE_SM_SC", "1"), ("BLE_SM_SC_ONLY", "1")]),
    ("SM", [("BLE_SM_LEGACY", "1"), ("BLE_SM_SC", "1"), ("BLE_SM_SC_ONLY", "0")])]

def upstreamTestVals : List (String × String) :=
  [ ("SELFTEST", "1"), ("BLE_HS_PHONY_HCI_ACKS", "1"), ("BLE_HS_REQUIRE_OS", "0"),
    ("BLE_MAX_CONNECTIONS", "8"), ("BLE_GATT_MAX_PROCS", "16"), ("BLE_SM", "1"),
    ("BLE_SM_LEGACY", "1"), ("BLE_SM_SC", "1"), ("MSYS_1_BLOCK_COUNT", "100"),
    ("BLE_L2CAP_COC_MAX_NUM", "2"), ("BLE_VERSION", "52"), ("BLE_L2CAP_ENHANCED_COC", "1"),
    ("BLE_GATTS", "1"), ("BLE_GATTC", "1"), ("BLE_HS_DEBUG", "1")]

/-- The prefix of a family and the knob it sets. -/
def numericFamilies : List (String × String) :=
  [ ("L2CAP_COC_", "BLE_L2CAP_COC_MAX_NUM"), ("MAX_CONNECTIONS_", "BLE_MAX_CONNECTIONS"),
    ("MSYS_COUNT_", "MSYS_1_BLOCK_COUNT")]

/-- The map that is built up; a knob that is not in it has no value. -/
abbrev Vals := String → Option String

def insert (vals : Vals) (name value : String) : Vals := Function.update vals name (some value)

def insertAll (vals : Vals) (settings : List (String × String)) : Vals :=
  settings.foldl (fun vals s => insert vals s.1 s.2) vals

/-- `str::strip_prefix` -/
def stripPrefix (family feature : String) : Option (List Char) :=
  if family.toList <+: feature.toList then some (feature.toList.drop family.toList.length) else none

/-- One digit of `u32::from_str`, which gives up on an overflow. -/
def pushDigit (n : ℕ) (c : Char) : Option ℕ :=
  if c.isDigit && decide (10 * n + (c.toNat - 48) < 2 ^ 32) then some (10 * n + (c.toNat - 48))
  else none

/-- `str::parse::<u32>`, which takes a leading plus sign. -/
def parseU32 (s : List Char) : Option ℕ :=
  let digits := if s.head? = some '+' then s.tail else s
  if digits = [] then none else digits.foldlM pushDigit 0

/-- The values of the features of a family, in the order of the features. -/
def enabledValues (features : List String) (family : String) : List ℕ :=
  (features.filterMap (stripPrefix family)).filterMap parseU32

def knobValue (vals : Vals) (knob : String) : ℕ :=
  ((vals knob).bind (fun value => parseU32 value.toList)).getD 0

/-- One turn of the last loop. -/
def applyFamily (features : List String) (vals : Vals) (family : String × String) : Vals :=
  match (enabledValues features family.1).max? with
  | none => vals
  | some largest =>
    insert vals family.2 (toString (max largest (knobValue vals family.2)))

/-- The map before the last loop. -/
def baseVals (features : List String) : Vals :=
  let vals := insertAll (fun _ => none) valUniverse
  let vals := featureVals.foldl
    (fun vals f => if f.1 ∈ features then insertAll vals f.2 else vals) vals
  if "UPSTREAM_TEST" ∈ features then insertAll vals upstreamTestVals else vals

def valSettingsFor (features : List String) : Vals :=
  numericFamilies.foldl (applyFamily features) (baseVals features)

def resetValue (knob : String) : ℕ := knobValue (insertAll (fun _ => none) valUniverse) knob

section Tables

theorem insertAll_of_not_mem {settings : List (String × String)} {knob : String}
    (h : knob ∉ settings.map Prod.fst) (vals : Vals) :
    insertAll vals settings knob = vals knob := by
  induction settings generalizing vals with
  | nil => rfl
  | cons s settings ih =>
    simp only [List.map_cons, List.mem_cons, not_or] at h
    have hrest := ih h.2 (insert vals s.1 s.2)
    rw [insert, Function.update_of_ne h.1] at hrest
    exact hrest

theorem universe_family : ∀ family ∈ numericFamilies,
    insertAll (fun _ => none) valUniverse family.2 = some (toString (resetValue family.2)) := by
  decide

theorem featureVals_family : ∀ family ∈ numericFamilies, ∀ f ∈ featureVals,
    family.2 ∉ f.2.map Prod.fst := by
  decide

theorem families_nodup : (numericFamilies.map Prod.snd).Nodup := by
  decide

theorem foldl_overrides {table : List (String × List (String × String))} {knob : String}
    (h : ∀ f ∈ table, knob ∉ f.2.map Prod.fst) (features : List String) (vals : Vals) :
    table.foldl (fun vals f => if f.1 ∈ features then insertAll vals f.2 else vals) vals knob =
      vals knob := by
  induction table generalizing vals with
  | nil => rfl
  | cons f table ih =>
    rw [List.foldl_cons, ih (fun g hg => h g (List.mem_cons_of_mem f hg))]
    by_cases hf : f.1 ∈ features
    · rw [if_pos hf]
      exact insertAll_of_not_mem (h f (by simp)) vals
    · rw [if_neg hf]

/-- No feature outside of its family sets the knob of a numeric family. -/
theorem baseVals_family {features : List String} (h : "UPSTREAM_TEST" ∉ features)
    {family : String × String} (hfamily : family ∈ numericFamilies) :
    baseVals features family.2 = some (toString (resetValue family.2)) := by
  unfold baseVals
  rw [if_neg h, foldl_overrides (featureVals_family family hfamily)]
  exact universe_family family hfamily

end Tables

section Families
variable {features features' : List String} {vals vals' : Vals} {family : String × String}

theorem knobValue_congr {knob : String} (h : vals knob = vals' knob) :
    knobValue vals knob = knobValue vals' knob := by
  unfold knobValue
  rw [h]

theorem applyFamily_of_ne {knob : String} (h : knob ≠ family.2) :
    applyFamily features vals family knob = vals knob := by
  unfold applyFamily
  cases (enabledValues features family.1).max? with
  | none => rfl
  | some largest => exact Function.update_of_ne h _ _

theorem foldl_applyFamily_of_not_mem {families : List (String × String)} {knob : String}
    (h : knob ∉ families.map Prod.snd) (vals : Vals) :
    families.foldl (applyFamily features) vals knob = vals knob := by
  induction families generalizing vals with
  | nil => rfl
  | cons g families ih =>
    simp only [List.map_cons, List.mem_cons, not_or] at h
    rw [List.foldl_cons, ih h.2, applyFamily_of_ne h.1]

/-- The largest enabled value, but at least the value that the knob has. -/
theorem applyFamily_self {n : ℕ} (hvals : vals family.2 = some (toString n))
    (hn : knobValue vals family.2 = n) : applyFamily features vals family family.2 =
      some (toString (max ((enabledValues features family.1).max?.getD 0) n)) := by
  unfold applyFamily
  cases hmax : (enabledValues features family.1).max? with
  | none => simpa using hvals
  | some largest => simp [insert, hn]

/-- Each family has its own knob, so that the others do not matter for it. -/
theorem foldl_applyFamily {families : List (String × String)}
    (hnodup : (families.map Prod.snd).Nodup)
    (hfamily : family ∈ families) {n : ℕ} (hvals : vals family.2 = some (toString n))
    (hn : knobValue vals family.2 = n) :
    families.foldl (applyFamily features) vals family.2 =
      some (toString (max ((enabledValues features family.1).max?.getD 0) n)) := by
  induction families generalizing vals with
  | nil => exact absurd hfamily (by simp)
  | cons g families ih =>
    simp only [List.map_cons, List.nodup_cons] at hnodup
    rw [List.foldl_cons]
    by_cases hg : family = g
    · subst hg
      rw [← applyFamily_self hvals hn]
      exact foldl_applyFamily_of_not_mem hnodup.1 _
    · have hmem : family ∈ families := (List.mem_cons.mp hfamily).resolve_left hg
      have hne : family.2 ≠ g.2 := fun heq =>
        hnodup.1 (heq ▸ List.mem_map_of_mem hmem)
      have hsame : applyFamily features vals g family.2 = vals family.2 := applyFamily_of_ne hne
      exact ih hnodup.2 hmem (hsame.trans hvals) ((knobValue_congr hsame).trans hn)

theorem valSettingsFor_family (h : "UPSTREAM_TEST" ∉ features)
    (hfamily : family ∈ numericFamilies) :
    valSettingsFor features family.2 = some (toString
      (max ((enabledValues features family.1).max?.getD 0) (resetValue family.2))) := by
  have hbase := baseVals_family h hfamily
  have hreset := universe_family family hfamily
  exact foldl_applyFamily families_nodup hfamily hbase (knobValue_congr (hbase.trans hreset.symm))

theorem toString_nat_inj {a b : ℕ} (h : toString a = toString b) : a = b := by
  have hdigits : Nat.toDigits 10 a = Nat.toDigits 10 b := by
    have hlist := congrArg String.toList h
    simpa using hlist
  rw [← Nat.ofDigitChars_toDigits (by norm_num) le_rfl (n := a), hdigits,
    Nat.ofDigitChars_toDigits (by norm_num) le_rfl]

/-- The documented rule: the largest enabled value wins, the reset value if there is none. -/
def LargestWins (features : List String) (family : String × String) : Prop :=
  valSettingsFor features family.2 =
    some (toString ((enabledValues features family.1).max?.getD (resetValue family.2)))

theorem largestWins_iff (h : "UPSTREAM_TEST" ∉ features) (hfamily : family ∈ numericFamilies) :
    LargestWins features family ↔
      ∀ largest ∈ (enabledValues features family.1).max?, resetValue family.2 ≤ largest := by
  unfold LargestWins
  rw [valSettingsFor_family h hfamily]
  cases (enabledValues features family.1).max? with
  | none => simp
  | some largest =>
    simp only [Option.getD_some, Option.some.injEq, Option.mem_def, forall_eq']
    constructor
    · intro heq
      exact max_eq_left_iff.mp (toString_nat_inj heq)
    · intro hle
      rw [max_eq_left hle]

theorem mem_enabledValues {pre : String} {n : ℕ} : n ∈ enabledValues features pre ↔
    ∃ f ∈ features, ∃ suffix, stripPrefix pre f = some suffix ∧ parseU32 suffix = some n := by
  simp only [enabledValues, List.mem_filterMap]
  constructor
  · rintro ⟨suffix, ⟨f, hf, hsuffix⟩, hn⟩
    exact ⟨f, hf, suffix, hsuffix, hn⟩
  · rintro ⟨f, hf, suffix, hsuffix, hn⟩
    exact ⟨suffix, ⟨f, hf, hsuffix⟩, hn⟩

/-- The largest element depends on the elements only. -/
theorem max?_congr {l l' : List ℕ} (h : ∀ n, n ∈ l ↔ n ∈ l') : l.max? = l'.max? := by
  cases hl : l.max? with
  | none =>
    have hnil : l = [] := List.max?_eq_none_iff.mp hl
    have hnil' : l' = [] := List.eq_nil_iff_forall_not_mem.mpr (fun n hn => by
      simpa [hnil] using (h n).mpr hn)
    rw [hnil', List.max?_nil]
  | some n =>
    obtain ⟨hmem, hle⟩ := List.max?_eq_some_iff.mp hl
    exact (List.max?_eq_some_iff.mpr ⟨(h n).mp hmem, fun b hb => hle b ((h b).mpr hb)⟩).symm

theorem valSettingsFor_congr (h : ∀ f, f ∈ features ↔ f ∈ features') :
    valSettingsFor features = valSettingsFor features' := by
  have hmax : ∀ pre, (enabledValues features pre).max? = (enabledValues features' pre).max? := by
    intro pre
    apply max?_congr
    intro n
    simp only [mem_enabledValues, h]
  have hbase : baseVals features = baseVals features' := by
    simp only [baseVals, h]
  have happly : applyFamily features = applyFamily features' := by
    funext vals family
    simp only [applyFamily, hmax]
  unfold valSettingsFor
  rw [hbase, happly]

theorem max?_append_eq {l l' : List ℕ} {a b : ℕ} (h : l.max? = some a) (h' : l'.max? = some b) :
    (l ++ l').max? = some (max a b) := by
  obtain ⟨hmem, hle⟩ := List.max?_eq_some_iff.mp h
  obtain ⟨hmem', hle'⟩ := List.max?_eq_some_iff.mp h'
  refine List.max?_eq_some_iff.mpr ⟨?_, fun n hn => ?_⟩
  · rcases max_choice a b with hmax | hmax
    · rw [hmax]
      exact List.mem_append_left l' hmem
    · rw [hmax]
      exact List.mem_append_right l hmem'
  · rcases List.mem_append.mp hn with hn | hn
    · exact le_trans (hle n hn) (le_max_left a b)
    · exact le_trans (hle' n hn) (le_max_right a b)

theorem enabledValues_append (pre : String) : enabledValues (features ++ features') pre =
    enabledValues features pre ++ enabledValues features' pre := by
  simp [enabledValues]

/-- Feature sets are unified to the larger one of their knobs. -/
theorem valSettingsFor_append (h : "UPSTREAM_TEST" ∉ features) (h' : "UPSTREAM_TEST" ∉ features')
    (hfamily : family ∈ numericFamilies) (hne : enabledValues features family.1 ≠ [])
    (hne' : enabledValues features' family.1 ≠ []) :
    ∃ a b : ℕ, valSettingsFor features family.2 = some (toString a) ∧
      valSettingsFor features' family.2 = some (toString b) ∧
      valSettingsFor (features ++ features') family.2 = some (toString (max a b)) := by
  obtain ⟨m, hm⟩ := Option.ne_none_iff_exists'.mp (mt List.max?_eq_none_iff.mp hne)
  obtain ⟨m', hm'⟩ := Option.ne_none_iff_exists'.mp (mt List.max?_eq_none_iff.mp hne')
  have hunion : "UPSTREAM_TEST" ∉ features ++ features' := by simp [h, h']
  refine ⟨max m (resetValue family.2), max m' (resetValue family.2), ?_, ?_, ?_⟩
  · rw [valSettingsFor_family h hfamily, hm, Option.getD_some]
  · rw [valSettingsFor_family h' hfamily, hm', Option.getD_some]
  · rw [valSettingsFor_family hunion hfamily, enabledValues_append, max?_append_eq hm hm',
      Option.getD_some]
    congr 2
    omega

end Families

/-- The largest enabled value of a family wins exactly when it is not below the reset value. The
settings depend on the set of the features in any case, and the union of two sets that both enable
a family has the larger one of their knobs. -/
theorem val_settings_for_iff {features : List String} (h : "UPSTREAM_TEST" ∉ features) :
    ((∀ family ∈ numericFamilies, LargestWins features family) ↔
      ∀ family ∈ numericFamilies, ∀ largest ∈ (enabledValues features family.1).max?,
        resetValue family.2 ≤ largest) ∧
    (∀ features', (∀ f, f ∈ features' ↔ f ∈ features) →
      valSettingsFor features' = valSettingsFor features) ∧
    ∀ features', "UPSTREAM_TEST" ∉ features' → ∀ family ∈ numericFamilies,
      enabledValues features family.1 ≠ [] → enabledValues features' family.1 ≠ [] →
      ∃ a b : ℕ, valSettingsFor features family.2 = some (toString a) ∧
        valSettingsFor features' family.2 = some (toString b) ∧
        valSettingsFor (features ++ features') family.2 = some (toString (max a b)) := by
  refine ⟨?_, fun features' hsame => valSettingsFor_congr hsame,
    fun features' h' family hfamily hne hne' => valSettingsFor_append h h' hfamily hne hne'⟩
  exact forall₂_congr (fun family hfamily => largestWins_iff h hfamily)

theorem largest_wins_of_mixed_features :
    let features :=
      ["MAX_CONNECTIONS_8", "SM", "MAX_CONNECTIONS_2", "L2CAP_COC_2", "MAX_CONNECTIONS_ALL"]
    "UPSTREAM_TEST" ∉ features ∧ ∀ family ∈ numericFamilies, LargestWins features family := by
  intro features
  have htest : "UPSTREAM_TEST" ∉ features := by decide
  exact ⟨htest, (val_settings_for_iff htest).1.mpr (by decide)⟩

/-- The two features for fewer connections and the one for fewer blocks have no effect. -/
theorem values_below_reset_ignored :
    valSettingsFor ["MAX_CONNECTIONS_1", "MAX_CONNECTIONS_2"] "BLE_MAX_CONNECTIONS" = some "4" ∧
      valSettingsFor ["MSYS_COUNT_12"] "MSYS_1_BLOCK_COUNT" = some "20" ∧
      ¬ LargestWins ["MAX_CONNECTIONS_1", "MAX_CONNECTIONS_2"]
        ("MAX_CONNECTIONS_", "BLE_MAX_CONNECTIONS") := by
  have hconnections :
      valSettingsFor ["MAX_CONNECTIONS_1", "MAX_CONNECTIONS_2"] "BLE_MAX_CONNECTIONS" =
        some "4" := by
    decide
  refine ⟨hconnections, by decide, ?_⟩
  unfold LargestWins
  rw [hconnections]
  decide

end NimbleRs.Sys
