import Mathlib.Data.Fintype.Card
import Mathlib.Data.List.Nodup
import Mathlib.Data.List.TakeWhile
import Mathlib.Tactic

/-!
# Null-terminated chains of nodes

An intrusive singly linked list is a table `next` of successor pointers together
with a head pointer; `none` is the null pointer. `Segment next p l q` says that
following `next` from `p` passes exactly the nodes `l` and arrives at `q`, and
`Visits next p l` that it ends in null, so that a chain which visits a finite
list has no cycle. `walk` is the search loop with a trailing `prev` pointer.
-/
namespace NimbleRs.PointerChain

variable {α : Type*}

def Segment (next : α → Option α) : Option α → List α → Option α → Prop
  | p, [], q => p = q
  | p, a :: l, q => p = some a ∧ Segment next (next a) l q

abbrev Visits (next : α → Option α) (p : Option α) (l : List α) : Prop := Segment next p l none

variable {next next' : α → Option α} {p q p' q' prev : Option α} {l l₁ l₂ : List α} {a : α}

@[simp] theorem segment_nil : Segment next p [] q ↔ p = q := Iff.rfl

@[simp] theorem segment_cons :
    Segment next p (a :: l) q ↔ p = some a ∧ Segment next (next a) l q := Iff.rfl

theorem segment_append :
    Segment next p (l₁ ++ l₂) q ↔ ∃ r, Segment next p l₁ r ∧ Segment next r l₂ q := by
  induction l₁ generalizing p with
  | nil => simp
  | cons a l₁ ih => simp [ih, and_assoc]

/-- Only the successors of the visited nodes matter. -/
theorem Segment.congr (h : Segment next p l q) (hnext : ∀ b ∈ l, next' b = next b) :
    Segment next' p l q := by
  induction l generalizing p with
  | nil => exact h
  | cons a l ih =>
    refine ⟨h.1, ?_⟩
    rw [hnext a (by simp)]
    exact ih h.2 (fun b hb => hnext b (by simp [hb]))

theorem visits_head (h : Visits next p l) : p = l.head? := by
  cases l with
  | nil => exact h
  | cons a l => exact h.1

theorem visits_none_iff (h : Visits next p l) : p = none ↔ l = [] := by
  rw [visits_head h, List.head?_eq_none_iff]

theorem visits_unique (h₁ : Visits next p l₁) (h₂ : Visits next p l₂) : l₁ = l₂ := by
  induction l₁ generalizing p l₂ with
  | nil => exact ((visits_none_iff h₂).mp h₁).symm
  | cons a l₁ ih =>
    cases l₂ with
    | nil => exact absurd (h₁.1.symm.trans h₂) (by simp)
    | cons b l₂ =>
      obtain rfl : a = b := Option.some.inj (h₁.1.symm.trans h₂.1)
      rw [ih h₁.2 h₂.2]

/-- A chain that ends in null passes no node twice. -/
theorem visits_nodup (h : Visits next p l) : l.Nodup := by
  induction l generalizing p with
  | nil => exact List.nodup_nil
  | cons a l ih =>
    refine List.nodup_cons.mpr ⟨fun ha => ?_, ih h.2⟩
    -- a second visit of `a` would make the rest of the chain equal to its own tail
    obtain ⟨l₁, l₂, rfl⟩ := List.append_of_mem ha
    obtain ⟨r, -, htail⟩ := segment_append.mp h.2
    have hlen := congrArg List.length (visits_unique h.2 htail.2)
    simp only [List.length_append, List.length_cons] at hlen
    omega

theorem visits_length_le [Fintype α] (h : Visits next p l) : l.length ≤ Fintype.card α :=
  (visits_nodup h).length_le_card

/-- Writing `q'` where the last node of a segment points (or into the head, when
the segment is empty) makes the segment arrive at `q'`. -/
theorem Segment.redirect [DecidableEq α] (h : Segment next p l q) (hl : l.Nodup)
    (hhead : p' = if l = [] then q' else p)
    (hnext : ∀ b ∈ l, next' b = if l.getLast? = some b then q' else next b) :
    Segment next' p' l q' := by
  induction l generalizing p p' with
  | nil => simpa using hhead
  | cons a l ih =>
    refine ⟨by simpa [h.1] using hhead, ?_⟩
    cases l with
    | nil => simpa using hnext a (by simp)
    | cons b l =>
      have hab : (b :: l).getLast? ≠ some a := fun he =>
        (List.nodup_cons.mp hl).1 (List.mem_of_getLast? he)
      rw [hnext a (by simp), List.getLast?_cons_cons, if_neg hab]
      refine ih h.2 (List.nodup_cons.mp hl).2 (by simp) (fun c hc => ?_)
      rw [hnext c (by simp [List.mem_cons.mp hc]), List.getLast?_cons_cons]

/-- Unlinking a node: its predecessor (or the head) takes over its successor. -/
theorem visits_unlink [DecidableEq α] (h : Visits next p (l₁ ++ a :: l₂))
    (hhead : p' = if l₁ = [] then next a else p)
    (hnext : ∀ b ∈ l₁ ++ l₂, next' b = if l₁.getLast? = some b then next a else next b) :
    Visits next' p' (l₁ ++ l₂) := by
  have hnodup := visits_nodup h
  obtain ⟨r, h₁, -, h₂⟩ := segment_append.mp h
  have hdisj := (List.nodup_append.mp hnodup).2.2
  refine segment_append.mpr ⟨next a, ?_, ?_⟩
  · exact h₁.redirect (List.nodup_append.mp hnodup).1 hhead
      (fun b hb => hnext b (List.mem_append_left _ hb))
  · refine h₂.congr (fun b hb => ?_)
    rw [hnext b (List.mem_append_right _ hb), if_neg]
    intro he
    exact hdisj b (List.mem_of_getLast? he) b (List.mem_cons_of_mem a hb) rfl

/-- Linking a fresh node in between two parts of a chain. -/
theorem visits_link [DecidableEq α] (h : Visits next p (l₁ ++ l₂))
    (hhead : p' = if l₁ = [] then some a else p) (hself : next' a = l₂.head?)
    (hnext : ∀ b ∈ l₁ ++ l₂, next' b = if l₁.getLast? = some b then some a else next b) :
    Visits next' p' (l₁ ++ a :: l₂) := by
  have hnodup := visits_nodup h
  obtain ⟨r, h₁, h₂⟩ := segment_append.mp h
  have hdisj := (List.nodup_append.mp hnodup).2.2
  refine segment_append.mpr ⟨some a, ?_, rfl, ?_⟩
  · exact h₁.redirect (List.nodup_append.mp hnodup).1 hhead
      (fun b hb => hnext b (List.mem_append_left _ hb))
  · rw [hself, ← visits_head h₂]
    refine h₂.congr (fun b hb => ?_)
    rw [hnext b (List.mem_append_right _ hb), if_neg]
    intro he
    exact hdisj b (List.mem_of_getLast? he) b hb rfl

/-- The loop `while !cur.is_null() && !stop(cur) { prev = cur; cur = cur.next }`,
with the `prev` and `cur` it ends with; `none` when `fuel` turns do not end it. -/
def walk (next : α → Option α) (stop : α → Bool) :
    ℕ → Option α → Option α → Option (Option α × Option α)
  | 0, _, _ => none
  | _ + 1, prev, none => some (prev, none)
  | fuel + 1, prev, some c =>
    if stop c then some (prev, some c) else walk next stop fuel (some c) (next c)

/-- On a chain, the loop ends at the first node to stop at, or at null. -/
theorem walk_of_visits (stop : α → Bool) {fuel : ℕ} (h : Visits next p l)
    (hfuel : l.length < fuel) :
    walk next stop fuel prev p =
      some ((l.takeWhile (fun c => !stop c)).getLast?.or prev,
        (l.dropWhile (fun c => !stop c)).head?) := by
  induction l generalizing p prev fuel with
  | nil =>
    obtain ⟨fuel, rfl⟩ : ∃ n, fuel = n + 1 := ⟨fuel - 1, by simp at hfuel; omega⟩
    obtain rfl : p = none := h
    simp [walk]
  | cons a l ih =>
    obtain ⟨fuel, rfl⟩ : ∃ n, fuel = n + 1 := ⟨fuel - 1, by omega⟩
    obtain rfl : p = some a := h.1
    by_cases hs : stop a
    · simp [walk, hs]
    · rw [walk, if_neg hs, ih h.2 (by simpa using hfuel)]
      simp [hs, List.getLast?_cons]

/-- Enough turns for every chain over a finite set of nodes. -/
theorem walk_of_visits_card [Fintype α] (stop : α → Bool) (h : Visits next p l) :
    walk next stop (Fintype.card α + 1) none p =
      some ((l.takeWhile (fun c => !stop c)).getLast?, (l.dropWhile (fun c => !stop c)).head?) := by
  have hfuel := Nat.lt_succ_of_le (visits_length_le h)
  rw [walk_of_visits stop h hfuel, Option.or_none]

/-- A walk that comes to null has passed a chain. -/
theorem visits_of_walk {fuel : ℕ} (h : (walk next (fun _ => false) fuel prev p).isSome = true) :
    ∃ l, Visits next p l := by
  induction fuel generalizing prev p with
  | zero => simp [walk] at h
  | succ fuel ih =>
    cases p with
    | none => exact ⟨[], rfl⟩
    | some a =>
      simp only [walk, Bool.false_eq_true, if_false] at h
      obtain ⟨l, hl⟩ := ih h
      exact ⟨a :: l, rfl, hl⟩

/-- Whether a chain ends in null can be told by walking it. -/
theorem exists_visits_iff [Fintype α] (next : α → Option α) (p : Option α) :
    (∃ l, Visits next p l) ↔
      (walk next (fun _ => false) (Fintype.card α + 1) none p).isSome = true := by
  constructor
  · rintro ⟨l, hl⟩
    rw [walk_of_visits_card _ hl]
    rfl
  · exact visits_of_walk

/-- The search for a node that the chain passes. -/
theorem walk_to_mem [Fintype α] [DecidableEq α] (h : Visits next p (l₁ ++ a :: l₂)) :
    walk next (· == a) (Fintype.card α + 1) none p = some (l₁.getLast?, some a) := by
  have hnot : ∀ b ∈ l₁, b ≠ a := fun b hb =>
    (List.nodup_append.mp (visits_nodup h)).2.2 b hb a (by simp)
  have htake : (l₁ ++ a :: l₂).takeWhile (fun c => !(c == a)) = l₁ := by
    rw [List.takeWhile_append_of_pos (by simpa using hnot)]
    simp
  have hdrop : (l₁ ++ a :: l₂).dropWhile (fun c => !(c == a)) = a :: l₂ := by
    rw [List.dropWhile_append_of_pos (by simpa using hnot)]
    simp
  rw [walk_of_visits_card _ h, htake, hdrop, List.head?_cons]

/-- The search for a node that the chain does not pass. -/
theorem walk_to_not_mem [Fintype α] [DecidableEq α] (h : Visits next p l) (ha : a ∉ l) :
    walk next (· == a) (Fintype.card α + 1) none p = some (l.getLast?, none) := by
  have hnot : ∀ b ∈ l, (!(b == a)) = true := by
    intro b hb
    simpa using fun heq : b = a => ha (heq ▸ hb)
  rw [walk_of_visits_card _ h, List.takeWhile_eq_self_iff.mpr hnot,
    List.dropWhile_eq_nil_iff.mpr hnot, List.head?_nil]

/-- A search of enough turns finds the node exactly if the chain passes it. -/
theorem walk_search [DecidableEq α] {fuel : ℕ} (h : Visits next p l) (hfuel : l.length < fuel)
    (a : α) :
    ∃ r, walk next (· == a) fuel none p = some r ∧ r.2 = if a ∈ l then some a else none := by
  refine ⟨_, walk_of_visits _ h hfuel, ?_⟩
  by_cases ha : a ∈ l
  · obtain ⟨l₁, l₂, rfl⟩ := List.append_of_mem ha
    have hnot : ∀ b ∈ l₁, b ≠ a := fun b hb =>
      (List.nodup_append.mp (visits_nodup h)).2.2 b hb a (by simp)
    rw [if_pos ha, List.dropWhile_append_of_pos (by simpa using hnot)]
    simp
  · have hnot : ∀ b ∈ l, (!(b == a)) = true := by
      intro b hb
      simpa using fun heq : b = a => ha (heq ▸ hb)
    rw [if_neg ha, List.dropWhile_eq_nil_iff.mpr hnot, List.head?_nil]

/-- The link of a node that a chain passes leads to the node behind it. -/
theorem next_of_visits [DecidableEq α] (h : Visits next p l) (ha : a ∈ l) :
    next a = l[l.idxOf a + 1]? := by
  obtain ⟨l₁, l₂, rfl⟩ := List.append_of_mem ha
  have hnot : a ∉ l₁ := fun hm =>
    (List.nodup_append.mp (visits_nodup h)).2.2 a hm a (by simp) rfl
  obtain ⟨r, -, -, h₂⟩ := segment_append.mp h
  have hbehind : (l₁ ++ a :: l₂)[l₁.length + 1]? = l₂.head? := by
    simp [List.getElem?_append_right, List.head?_eq_getElem?]
  rw [visits_head h₂, List.idxOf_append_of_notMem hnot, List.idxOf_cons_self, Nat.add_zero, hbehind]

/-- Whether the search for `a` along the chain from `p` finds it. -/
def passes [Fintype α] [DecidableEq α] (next : α → Option α) (p : Option α) (a : α) : Bool :=
  (walk next (· == a) (Fintype.card α + 1) none p).any fun r => r.2.isSome

theorem passes_iff [Fintype α] [DecidableEq α] (h : Visits next p l) :
    passes next p a = true ↔ a ∈ l := by
  by_cases ha : a ∈ l
  · obtain ⟨l₁, l₂, rfl⟩ := List.append_of_mem ha
    simp [passes, walk_to_mem h]
  · simp [passes, walk_to_not_mem h ha, ha]

/-- The nodes along the chain from `p`. -/
def collect (next : α → Option α) : ℕ → Option α → List α
  | 0, _ => []
  | _ + 1, none => []
  | fuel + 1, some a => a :: collect next fuel (next a)

theorem collect_of_visits {fuel : ℕ} (h : Visits next p l) (hfuel : l.length ≤ fuel) :
    collect next fuel p = l := by
  induction l generalizing p fuel with
  | nil =>
    rw [segment_nil.mp h]
    cases fuel <;> rfl
  | cons a l ih =>
    obtain ⟨fuel, rfl⟩ : ∃ k, fuel = k + 1 := ⟨fuel - 1, by simp at hfuel; omega⟩
    rw [h.1, collect, ih h.2 (by simpa using hfuel)]

theorem collect_card [Fintype α] (h : Visits next p l) :
    collect next (Fintype.card α) p = l := collect_of_visits h (visits_length_le h)

end NimbleRs.PointerChain
