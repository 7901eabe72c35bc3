import Mathlib.Data.List.Basic
import Mathlib.Tactic

/-!
# Lines of bounded length

A stream of elements, some of which end a line, is put together into lines of at most `max`
elements. An element for which the pending line has no room closes it and opens the next one.
`feed_cut` says which lines come out: those of the whole stream, cut into pieces. Nothing here
depends on what the elements are.
-/
namespace NimbleRs.LineAssembly

variable {α β : Type*}

/-- The line that is being put together; `carried` says that the line before had no room for
its first element. -/
structure Pending (α : Type*) where
  items : List α
  carried : Bool

/-- A line with the element that closed it. -/
structure Closed (α : Type*) where
  items : List α
  carried : Bool
  closer : α

def Pending.empty : Pending α := ⟨[], false⟩

def push (stop : α → Bool) (max : ℕ) (p : Pending α) (a : α) : Pending α × Option (Closed α) :=
  if stop a then (.empty, some ⟨p.items, p.carried, a⟩)
  else if p.items.length = max then (⟨[a], true⟩, some ⟨p.items, p.carried, a⟩)
  else (⟨p.items ++ [a], p.carried⟩, none)

def feed (stop : α → Bool) (max : ℕ) : Pending α → List α → Pending α × List (Closed α)
  | p, [] => (p, [])
  | p, a :: l =>
    let r := push stop max p a
    let t := feed stop max r.1 l
    (t.1, r.2.toList ++ t.2)

/-- Consecutive pieces of `max` elements, the last one of what is left. -/
def pieces (max : ℕ) (l : List α) : List (List α) :=
  if l.length ≤ max ∨ max = 0 then [l] else l.take max :: pieces max (l.drop max)
termination_by l.length
decreasing_by
  simp only [List.length_drop]
  omega

variable {stop : α → Bool} {max : ℕ} {p : Pending α}

theorem push_stop {a : α} (ha : stop a = true) :
    push stop max p a = (.empty, some ⟨p.items, p.carried, a⟩) := by
  simp [push, ha]

theorem push_full {a : α} (ha : stop a = false) (hlen : p.items.length = max) :
    push stop max p a = (⟨[a], true⟩, some ⟨p.items, p.carried, a⟩) := by
  simp [push, ha, hlen]

theorem push_room {a : α} (ha : stop a = false) (hlen : p.items.length ≠ max) :
    push stop max p a = (⟨p.items ++ [a], p.carried⟩, none) := by
  simp [push, ha, hlen]

/-- Where the stream is cut into parts does not matter. -/
theorem feed_append (p : Pending α) (l₁ l₂ : List α) :
    feed stop max p (l₁ ++ l₂) = ((feed stop max (feed stop max p l₁).1 l₂).1,
      (feed stop max p l₁).2 ++ (feed stop max (feed stop max p l₁).1 l₂).2) := by
  induction l₁ generalizing p with
  | nil => rfl
  | cons a l₁ ih => simp only [List.cons_append, feed, ih, List.append_assoc]

/-- Elements that do not stop are kept while there is room. -/
theorem feed_room {l : List α} (hl : ∀ a ∈ l, stop a = false)
    (hroom : p.items.length + l.length ≤ max) :
    feed stop max p l = (⟨p.items ++ l, p.carried⟩, []) := by
  induction l generalizing p with
  | nil => simp [feed]
  | cons a l ih =>
    rw [List.length_cons] at hroom
    have hrest := ih (p := ⟨p.items ++ [a], p.carried⟩)
      (fun b hb => hl b (List.mem_cons_of_mem a hb))
      (by rw [List.length_append, List.length_singleton]; omega)
    simp only [feed, push_room (hl a (by simp)) (show p.items.length ≠ max by omega), hrest]
    simp

section Pieces

theorem pieces_of_length_le {l : List α} (h : l.length ≤ max) : pieces max l = [l] := by
  rw [pieces, if_pos (.inl h)]

/-- A full piece in front of more elements. -/
theorem pieces_append {l₁ l₂ : List α} (hmax : 0 < max) (h₁ : l₁.length = max) (h₂ : l₂ ≠ []) :
    pieces max (l₁ ++ l₂) = l₁ :: pieces max l₂ := by
  have hpos : 0 < l₂.length := List.length_pos_of_ne_nil h₂
  have hlong : ¬ ((l₁ ++ l₂).length ≤ max ∨ max = 0) := by
    rw [List.length_append]
    omega
  rw [pieces, if_neg hlong, ← h₁, List.take_left, List.drop_left]

theorem pieces_map (f : α → β) (l : List α) :
    pieces max (l.map f) = (pieces max l).map (·.map f) := by
  fun_induction pieces max l with
  | case1 l h => rw [pieces, List.length_map, if_pos h, List.map_singleton]
  | case2 l h ih =>
    rw [pieces, List.length_map, if_neg h, ← List.map_take, ← List.map_drop, ih, List.map_cons]

/-- Elements that do not stop extend the first run. -/
theorem splitOnP_append {l₁ : List α} (h : ∀ a ∈ l₁, stop a = false) (l₂ : List α) :
    (l₁ ++ l₂).splitOnP stop = (l₂.splitOnP stop).modifyHead (l₁ ++ ·) := by
  induction l₁ with
  | nil =>
    rw [List.nil_append]
    cases l₂.splitOnP stop <;> rfl
  | cons a l₁ ih =>
    rw [List.cons_append, List.splitOnP_cons_eq_if_modifyHead, h a (by simp),
      ih (fun b hb => h b (List.mem_cons_of_mem a hb)), List.modifyHead_modifyHead]
    rfl

end Pieces

/-- The lines that come out, with the pending one, are the runs between the stops, each of them
cut into pieces. Induction on the stream: a stop splits the runs there, and an element without
room starts the next piece of its run. -/
theorem feed_cut (hmax : 0 < max) (hp : ∀ a ∈ p.items, stop a = false)
    (hlen : p.items.length ≤ max) (l : List α) :
    (feed stop max p l).2.map (·.items) ++ [(feed stop max p l).1.items] =
      ((p.items ++ l).splitOnP stop).flatMap (pieces max) := by
  induction l generalizing p with
  | nil =>
    rw [List.append_nil, List.splitOnP_eq_singleton hp]
    simp [feed, pieces_of_length_le hlen]
  | cons a l ih =>
    cases ha : stop a with
    | true =>
      have hrest := ih (p := .empty) (by simp [Pending.empty]) (Nat.zero_le max)
      rw [List.splitOnP_append_cons_of_forall_mem hp a ha, List.flatMap_cons,
        pieces_of_length_le hlen]
      simp only [feed, push_stop ha]
      simpa [Pending.empty] using hrest
    | false =>
      by_cases hfull : p.items.length = max
      · have hrest := ih (p := ⟨[a], true⟩) (by simpa using ha) hmax
        obtain ⟨r, rs, hruns⟩ := List.exists_cons_of_ne_nil (List.splitOnP_ne_nil stop l)
        have hnext : (a :: l).splitOnP stop = (a :: r) :: rs := by
          rw [List.splitOnP_cons_eq_if_modifyHead, ha, hruns]
          rfl
        rw [splitOnP_append hp, hnext, List.modifyHead_cons, List.flatMap_cons,
          pieces_append hmax hfull (by simp), List.cons_append, ← List.flatMap_cons, ← hnext]
        simp only [feed, push_full ha hfull]
        simpa using hrest
      · have hitems : ∀ b ∈ p.items ++ [a], stop b = false := by
          intro b hb
          rcases List.mem_append.mp hb with hb | hb
          · exact hp b hb
          · rw [List.mem_singleton.mp hb, ha]
        have hroom : (p.items ++ [a]).length ≤ max := by
          rw [List.length_append, List.length_singleton]
          omega
        have hrest := ih (p := ⟨p.items ++ [a], p.carried⟩) hitems hroom
        simp only [feed, push_room ha hfull]
        simpa using hrest

end NimbleRs.LineAssembly
