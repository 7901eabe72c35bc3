import NimbleRs.Clog
import Mathlib.Order.Bounds.Basic
import Mathlib.Tactic

/-!
# The levels of log lines

A line is to be emitted with the greatest of the levels of its bytes, the newline that ends it
included. The buffer takes the level of a byte in before it knows to which line the byte
belongs, which matters where a long line is split.
-/
namespace NimbleRs.Clog
open LineAssembly TransitionSystem

/-- The lines of the stream that the calls complete. -/
def closedLines (calls : List LogCall) : List (Closed (UInt8 × ℤ)) :=
  (feed ends lineMax .empty (stream calls)).2

/-- The levels of the bytes of a line, the newline among them. -/
def levels (c : Closed (UInt8 × ℤ)) : List ℤ :=
  c.items.map Prod.snd ++ if ends c.closer then [c.closer.2] else []

/-- Some byte of the line has a level that is not negative, a byte for which there was no room
has no greater level than the line, and one that was carried over into the line has no greater
level than what else counts for it. -/
structure LevelKept (c : Closed (UInt8 × ℤ)) : Prop where
  nonneg : ∃ n ∈ levels c, 0 ≤ n
  closer : ends c.closer = false → ∃ n ∈ levels c, c.closer.2 ≤ n
  first : c.carried = true → ∀ b ∈ c.items.head?,
    b.2 ≤ 0 ∨ b.2 ≤ c.closer.2 ∨ ∃ n ∈ c.items.tail.map Prod.snd, b.2 ≤ n

/-- What was emitted for a line are its bytes with the greatest level among them. -/
def EmittedRight (e : Emitted) (c : Closed (UInt8 × ℤ)) : Prop :=
  e.line = c.items.map Prod.fst ∧ IsGreatest {n | n ∈ levels c} e.level

section Greatest

theorem foldl_max_le_iff {l : List ℤ} {m n : ℤ} :
    l.foldl max m ≤ n ↔ m ≤ n ∧ ∀ a ∈ l, a ≤ n := by
  induction l generalizing m with
  | nil => simp
  | cons a l ih => simp only [List.foldl_cons, ih, max_le_iff, List.forall_mem_cons, and_assoc]

theorem foldl_max_mem (l : List ℤ) (m : ℤ) : l.foldl max m = m ∨ l.foldl max m ∈ l := by
  induction l generalizing m with
  | nil => exact .inl rfl
  | cons a l ih =>
    rw [List.foldl_cons]
    rcases ih (max m a) with h | h
    · rw [h]
      rcases max_choice m a with hm | ha
      · exact .inl hm
      · rw [ha]
        exact .inr (List.mem_cons_self ..)
    · exact .inr (List.mem_cons_of_mem a h)

variable {c : Closed (UInt8 × ℤ)}

theorem outOf_level_ge {n : ℤ} (h : n = 0 ∨ n ∈ counted c.items c.carried ∨ n = c.closer.2) :
    n ≤ (outOf c).level := by
  obtain ⟨hzero, hall⟩ := foldl_max_le_iff.mp (le_refl (outOf c).level)
  rcases h with rfl | h | rfl
  · exact hzero
  · exact hall n (List.mem_append_left _ h)
  · exact hall _ (by simp)

theorem outOf_level_cases (c : Closed (UInt8 × ℤ)) : (outOf c).level = 0 ∨
    (outOf c).level ∈ counted c.items c.carried ∨ (outOf c).level = c.closer.2 := by
  rcases foldl_max_mem (counted c.items c.carried ++ [c.closer.2]) 0 with h | h
  · exact .inl h
  · rcases List.mem_append.mp h with h | h
    · exact .inr (.inl h)
    · exact .inr (.inr (List.mem_singleton.mp h))

theorem counted_subset {n : ℤ} (h : n ∈ counted c.items c.carried) : n ∈ levels c := by
  apply List.mem_append_left
  unfold counted at h
  split at h
  · rw [List.map_tail] at h
    exact List.mem_of_mem_tail h
  · exact h

/-- The levels of a line that do not count are those of a carried byte. -/
theorem levels_cases {n : ℤ} (h : n ∈ levels c) : n ∈ counted c.items c.carried ∨
    n = c.closer.2 ∨ c.carried = true ∧ ∃ b ∈ c.items.head?, n = b.2 := by
  rcases List.mem_append.mp h with h | h
  · cases hc : c.carried with
    | false =>
      left
      simpa [counted] using h
    | true =>
      cases hitems : c.items with
      | nil => simp [hitems] at h
      | cons b l =>
        rw [hitems, List.map_cons, List.mem_cons] at h
        rcases h with rfl | h
        · exact .inr (.inr ⟨rfl, b, by simp, rfl⟩)
        · exact .inl (by simpa [counted] using h)
  · split at h
    · exact .inr (.inl (List.mem_singleton.mp h))
    · exact absurd h (by simp)

theorem level_isGreatest_iff (c : Closed (UInt8 × ℤ)) :
    IsGreatest {n | n ∈ levels c} (outOf c).level ↔ LevelKept c := by
  constructor
  · rintro ⟨hmem, hub⟩
    constructor
    case nonneg => exact ⟨_, hmem, outOf_level_ge (.inl rfl)⟩
    case closer => exact fun _ => ⟨_, hmem, outOf_level_ge (.inr (.inr rfl))⟩
    case first =>
      intro hcarried b hb
      have hlevel : b.2 ∈ levels c :=
        List.mem_append_left _ (List.mem_map_of_mem (List.mem_of_mem_head? hb))
      have hle : b.2 ≤ (outOf c).level := hub hlevel
      rcases outOf_level_cases c with h | h | h
      · exact .inl (h ▸ hle)
      · exact .inr (.inr ⟨_, by simpa [counted, hcarried] using h, hle⟩)
      · exact .inr (.inl (h ▸ hle))
  · intro hkept
    have hub : ∀ n ∈ levels c, n ≤ (outOf c).level := by
      intro n hn
      rcases levels_cases hn with h | h | ⟨hcarried, b, hb, rfl⟩
      · exact outOf_level_ge (.inr (.inl h))
      · exact outOf_level_ge (.inr (.inr h))
      · rcases hkept.first hcarried b hb with h | h | ⟨m, hm, h⟩
        · exact le_trans h (outOf_level_ge (.inl rfl))
        · exact le_trans h (outOf_level_ge (.inr (.inr rfl)))
        · exact le_trans h (outOf_level_ge (.inr (.inl (by simpa [counted, hcarried] using hm))))
    have hmem : ∀ n ∈ levels c, (outOf c).level ≤ n → (outOf c).level ∈ levels c := by
      intro n hn hle
      rwa [le_antisymm hle (hub n hn)]
    refine ⟨?_, hub⟩
    rcases outOf_level_cases c with h | h | h
    · obtain ⟨n, hn, hle⟩ := hkept.nonneg
      exact hmem n hn (h ▸ hle)
    · exact counted_subset h
    · cases hends : ends c.closer with
      | true =>
        rw [h]
        exact List.mem_append_right _ (by simp [hends])
      | false =>
        obtain ⟨n, hn, hle⟩ := hkept.closer hends
        exact hmem n hn (h ▸ hle)

end Greatest

/-- What is emitted has the greatest level of its own bytes exactly when some byte of each line
has a level that is not negative and, where a line is split, the level of the byte that has no room
is not greater than those of the line before and does not matter for the line after. -/
theorem log_levels_iff (calls : List LogCall) :
    ∃ line outs, trace nimbleRsLog LineBuf.new calls = some (line, outs) ∧
      (List.Forall₂ EmittedRight outs.flatten (closedLines calls) ↔
        ∀ c ∈ closedLines calls, LevelKept c) := by
  obtain ⟨line, outs, hrun, houts, -⟩ := trace_nimbleRsLog calls
  refine ⟨line, outs, hrun, ?_⟩
  have hlines : outs.flatten = (closedLines calls).map outOf := houts
  rw [hlines, List.forall₂_map_left_iff, List.forall₂_same]
  refine forall₂_congr (fun c _ => ?_)
  rw [← level_isGreatest_iff]
  exact and_iff_right rfl

/-- A line of 256 bytes of level 0, then one byte of level 3: the line is emitted with the level
of the byte, and the byte with level 0. -/
theorem split_line_swaps_levels :
    let calls : List LogCall :=
      [⟨0, some (List.replicate 256 65)⟩, ⟨3, some [66]⟩, ⟨0, some [newline]⟩]
    ∃ line outs, trace nimbleRsLog LineBuf.new calls = some (line, outs) ∧
      outs.flatten = [⟨3, List.replicate 256 65⟩, ⟨0, [66]⟩] ∧
      ¬ List.Forall₂ EmittedRight outs.flatten (closedLines calls) := by
  intro calls
  let full : List (UInt8 × ℤ) := List.replicate 256 (65, 0)
  have hfeed : closedLines calls =
      [⟨full, false, (66, 3)⟩, ⟨[(66, 3)], true, (newline, 0)⟩] := by
    have hstream : stream calls = full ++ [(66, 3), (newline, 0)] := by
      simp [calls, full, stream, -List.reduceReplicate]
    have hroom : feed ends lineMax .empty full = (⟨full, false⟩, []) :=
      feed_room (by decide +kernel) (by decide +kernel)
    have hfull : (⟨full, false⟩ : Pending (UInt8 × ℤ)).items.length = lineMax := by
      simp [full, lineMax, -List.reduceReplicate]
    have hbyte : ends (66, 3) = false := by decide
    have hend : ends (newline, 0) = true := by decide
    rw [closedLines, hstream, feed_append, hroom]
    simp only [feed, push_full hbyte hfull, push_stop hend]
    rfl
  obtain ⟨line, outs, hrun, houts, -⟩ := trace_nimbleRsLog calls
  have hlines : outs.flatten = (closedLines calls).map outOf := houts
  have hflat : outs.flatten = [⟨3, List.replicate 256 65⟩, ⟨0, [66]⟩] := by
    have hlevel : (full.map Prod.snd ++ [3]).foldl max 0 = (3 : ℤ) := by decide +kernel
    have hbytes : full.map Prod.fst = List.replicate 256 65 := by
      simp [full, -List.reduceReplicate]
    rw [hlines, hfeed, List.map_cons, outOf, hbytes]
    simp only [counted, Bool.false_eq_true, if_false, hlevel]
    rfl
  refine ⟨line, outs, hrun, hflat, fun h => ?_⟩
  rw [hflat, hfeed] at h
  cases h with
  | cons _ h =>
    cases h with
    | cons h _ =>
      have hle : (3 : ℤ) ≤ 0 := h.2.2 (by decide)
      exact absurd hle (by decide)

end NimbleRs.Clog
