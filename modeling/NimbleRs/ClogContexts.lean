import NimbleRs.Clog
import Mathlib.Tactic

/-!
# Log lines of several contexts

`log_vprintf` of the C side in front of `nimble_rs_log`, in any number of contexts at once. A
byte is one critical section, and the line that it closes is passed to `emit` outside of it,
so that the other contexts get in between two bytes and between a line and its emission. An
empty line is passed to `emit` too, which skips it.
-/
namespace NimbleRs.Clog
open LineAssembly TransitionSystem

def logBufSize : ℕ := 128

/-- `npf_vsnprintf`, on the formatted text: the buffer up to the terminator, and the length
that the text would have. -/
def npfVsnprintf (bufsz : ℕ) (text : List UInt8) : List UInt8 × ℕ :=
  (text.take (bufsz - 1) ++ [0], text.length)

/-- `log_vprintf`, which both entry points call: the bytes that `nimble_rs_log` is handed. -/
def logVprintf (level : ℤ) (text : List UInt8) : List (UInt8 × ℤ) :=
  let (buf, n) := npfVsnprintf logBufSize text
  if 0 < n then
    (buf.take (if n < logBufSize - 1 then n else logBufSize - 1)).map fun byte => (byte, level)
  else []

theorem logVprintf_eq (level : ℤ) (text : List UInt8) :
    logVprintf level text = (text.take (logBufSize - 1)).map fun byte => (byte, level) := by
  have htake : (text.take (logBufSize - 1) ++ [0]).take
      (if text.length < logBufSize - 1 then text.length else logBufSize - 1) =
        text.take (logBufSize - 1) := by
    split
    next hlt => rw [List.take_of_length_le hlt.le, List.take_left]
    next hle =>
      have hlen : (text.take (logBufSize - 1)).length = logBufSize - 1 := by
        rw [List.length_take]
        omega
      exact List.take_left' hlen
  unfold logVprintf npfVsnprintf
  dsimp only
  rw [htake]
  split
  · rfl
  next hnil =>
    have hempty : text = [] := List.length_eq_zero_iff.mp (Nat.eq_zero_of_not_pos hnil)
    rw [hempty]
    rfl

/-- A context in `nimble_rs_log`: the bytes of the loop that are left, and the line that it has
taken out of the critical section. -/
structure LogCtx where
  todo : List (UInt8 × ℤ)
  out : Option Emitted

structure Logging (Ctx : Type*) where
  line : LineBuf
  ctx : Ctx → LogCtx
  /-- The texts that a context has printed, with their levels. -/
  printed : Ctx → List (ℤ × List UInt8)
  /-- The bytes in the order of their critical sections. -/
  taken : List (Ctx × (UInt8 × ℤ))
  closed : List (Ctx × Emitted)
  emitted : List (Ctx × Emitted)

inductive LogStep (Ctx : Type*)
  | printf (c : Ctx) (level : ℤ) (text : List UInt8)
  | byte (c : Ctx)
  | emit (c : Ctx)

variable {Ctx : Type*} [DecidableEq Ctx]

def Logging.start : Logging Ctx := ⟨LineBuf.new, fun _ => ⟨[], none⟩, fun _ => [], [], [], []⟩

def logStep (s : Logging Ctx) : LogStep Ctx → Option (Logging Ctx)
  | .printf c level text =>
    match s.ctx c with
    | ⟨[], none⟩ => some { s with
        ctx := Function.update s.ctx c ⟨logVprintf level text, none⟩
        printed := Function.update s.printed c (s.printed c ++ [(level, text)]) }
    | _ => none
  | .byte c =>
    match s.ctx c with
    | ⟨b :: todo, none⟩ => (logByte s.line b).map fun r => { s with
        line := r.1
        ctx := Function.update s.ctx c ⟨todo, r.2.head?⟩
        taken := s.taken ++ [(c, b)]
        closed := s.closed ++ r.2.map fun e => (c, e) }
    | _ => none
  | .emit c =>
    match s.ctx c with
    | ⟨todo, some e⟩ => some { s with
        ctx := Function.update s.ctx c ⟨todo, none⟩
        emitted := s.emitted ++ [(c, e)] }
    | _ => none

/-- The bytes of the texts, each of them cut to what fits the buffer of the C side. -/
def cutTexts (texts : List (ℤ × List UInt8)) : List (UInt8 × ℤ) :=
  texts.flatMap fun t => (t.2.take (logBufSize - 1)).map fun byte => (byte, t.1)

/-- What is a context's own, in its order. -/
def own {α : Type*} (c : Ctx) (l : List (Ctx × α)) : List α :=
  (l.filter fun e => e.1 = c).map Prod.snd

/-- The lines are those of one stream, in which each context's bytes come in the order in which
it printed them; each line is emitted once, by the context that closed it and in its order;
and no byte is stored past the end of the buffer. -/
structure Merged (s : Logging Ctx) : Prop where
  bytes : ∀ c, own c s.taken ++ (s.ctx c).todo = cutTexts (s.printed c)
  lines : s.closed.map (·.2.line) ++ [s.line.buf.toList.take s.line.len] =
    ((s.taken.map fun b => b.2.1).splitOnP (· == newline)).flatMap (pieces lineMax)
  emits : ∀ c, own c s.emitted ++ (s.ctx c).out.toList = own c s.closed
  inBounds : ∀ b, (logByte s.line b).isSome = true

section Own
variable {α : Type*} {c d : Ctx}

@[simp] theorem own_append (l m : List (Ctx × α)) : own c (l ++ m) = own c l ++ own c m := by
  simp [own]

@[simp] theorem own_self (l : List α) : own c (l.map fun a => (c, a)) = l := by
  simp [own, List.filter_map, Function.comp_def]

theorem own_of_ne (h : d ≠ c) (l : List α) : own c (l.map fun a => (d, a)) = [] := by
  simp [own, List.filter_map, Function.comp_def, h]

@[simp] theorem own_singleton (a : α) : own c [(c, a)] = [a] := own_self [a]

theorem own_singleton_of_ne (h : d ≠ c) (a : α) : own c [(d, a)] = [] := own_of_ne h [a]

end Own

theorem feed_snoc {α : Type*} (stop : α → Bool) (max : ℕ) (p : Pending α) (l : List α) (a : α) :
    feed stop max p (l ++ [a]) = ((push stop max (feed stop max p l).1 a).1,
      (feed stop max p l).2 ++ (push stop max (feed stop max p l).1 a).2.toList) := by
  rw [feed_append]
  simp [feed]

/-- The lines of the bytes that were taken, however they are called for. -/
theorem cut_of_bytes (bytes : List (UInt8 × ℤ)) {line : LineBuf}
    (h : Holds line (feed ends lineMax .empty bytes).1) :
    ((feed ends lineMax .empty bytes).2.map outOf).map (·.line) ++
        [line.buf.toList.take line.len] =
      ((bytes.map Prod.fst).splitOnP (· == newline)).flatMap (pieces lineMax) := by
  have hcalls : stream (bytes.map fun b => ⟨b.2, some [b.1]⟩) = bytes := by
    simp [stream, List.flatMap_map]
  have hbytes : bytesOf (bytes.map fun b => ⟨b.2, some [b.1]⟩) = bytes.map Prod.fst := by
    simp only [bytesOf, List.flatMap_map, Option.getD_some]
    exact List.map_eq_flatMap.symm
  have hcut : (feed ends lineMax .empty bytes).2.map (·.items) ++
      [(feed ends lineMax .empty bytes).1.items] =
        (bytes.splitOnP ends).flatMap (pieces lineMax) :=
    feed_cut (p := .empty) (by decide) (by simp [Pending.empty]) (Nat.zero_le lineMax) _
  have hmap := congrArg (List.map (List.map Prod.fst)) hcut
  have hsplit := map_splitOnP_stream (bytes.map fun b => ⟨b.2, some [b.1]⟩)
  rw [hcalls, hbytes] at hsplit
  rw [← hsplit, List.flatMap_map, h.bytes]
  simp only [pieces_map]
  rw [← List.map_flatMap, ← hmap]
  simp [outOf, Function.comp_def]

/-- The buffer holds the pending line of the merged stream, whose lines have been closed. -/
structure LogInvariant (s : Logging Ctx) : Prop where
  bytes : ∀ c, own c s.taken ++ (s.ctx c).todo = cutTexts (s.printed c)
  holds : Holds s.line (feed ends lineMax .empty (s.taken.map Prod.snd)).1
  closed : s.closed.map Prod.snd =
    (feed ends lineMax .empty (s.taken.map Prod.snd)).2.map outOf
  emits : ∀ c, own c s.emitted ++ (s.ctx c).out.toList = own c s.closed

namespace LogInvariant

variable {s s' : Logging Ctx} {c : Ctx}

theorem merged (h : LogInvariant s) : Merged s where
  bytes := h.bytes
  emits := h.emits
  lines := by
    have hcut := cut_of_bytes _ h.holds
    rw [← h.closed] at hcut
    simpa [Function.comp_def] using hcut
  inBounds := fun b => by
    obtain ⟨line, hbyte, -⟩ := h.holds.logByte b
    rw [hbyte]
    rfl

theorem start : LogInvariant (Logging.start : Logging Ctx) where
  bytes := fun _ => rfl
  holds := holds_new
  closed := rfl
  emits := fun _ => rfl

theorem printf (h : LogInvariant s) (hctx : s.ctx c = ⟨[], none⟩) (level : ℤ)
    (text : List UInt8) : LogInvariant { s with
      ctx := Function.update s.ctx c ⟨logVprintf level text, none⟩
      printed := Function.update s.printed c (s.printed c ++ [(level, text)]) } := by
  refine ⟨fun d => ?_, h.holds, h.closed, fun d => ?_⟩
  · have hbytes := h.bytes d
    by_cases hd : d = c
    · subst hd
      rw [hctx, List.append_nil] at hbytes
      simp [hbytes, cutTexts, logVprintf_eq]
    · simpa [hd] using hbytes
  · have hemits := h.emits d
    by_cases hd : d = c
    · subst hd
      rw [hctx] at hemits
      simpa using hemits
    · simpa [hd] using hemits

/-- A byte goes to the end of the merged stream. -/
theorem byte (h : LogInvariant s) {b : UInt8 × ℤ} {todo : List (UInt8 × ℤ)}
    (hctx : s.ctx c = ⟨b :: todo, none⟩) {r : LineBuf × List Emitted}
    (hbyte : logByte s.line b = some r) :
    LogInvariant { s with
      line := r.1
      ctx := Function.update s.ctx c ⟨todo, r.2.head?⟩
      taken := s.taken ++ [(c, b)]
      closed := s.closed ++ r.2.map fun e => (c, e) } := by
  have hfeed := feed_snoc ends lineMax .empty (s.taken.map Prod.snd) b
  have htaken : (s.taken ++ [(c, b)]).map Prod.snd = s.taken.map Prod.snd ++ [b] := by simp
  obtain ⟨line', hline, hholds⟩ := h.holds.logByte b
  obtain rfl := Option.some.inj (hbyte.symm.trans hline)
  refine ⟨fun d => ?_, ?_, ?_, fun d => ?_⟩
  · have hbytes := h.bytes d
    by_cases hd : d = c
    · subst hd
      rw [hctx] at hbytes
      simpa using hbytes
    · simpa [hd, own_singleton_of_ne (Ne.symm hd)] using hbytes
  · rw [htaken, hfeed]
    exact hholds
  · rw [htaken, hfeed, List.map_append, List.map_append, h.closed]
    cases (push ends lineMax (feed ends lineMax .empty (s.taken.map Prod.snd)).1 b).2 <;> simp
  · have hemits := h.emits d
    by_cases hd : d = c
    · subst hd
      rw [hctx] at hemits
      rw [own_append, own_self, ← hemits]
      cases (push ends lineMax (feed ends lineMax .empty (s.taken.map Prod.snd)).1 b).2 <;> simp
    · simpa [hd, own_of_ne (Ne.symm hd)] using hemits

theorem emit (h : LogInvariant s) {todo : List (UInt8 × ℤ)} {e : Emitted}
    (hctx : s.ctx c = ⟨todo, some e⟩) :
    LogInvariant { s with
      ctx := Function.update s.ctx c ⟨todo, none⟩
      emitted := s.emitted ++ [(c, e)] } := by
  refine ⟨fun d => ?_, h.holds, h.closed, fun d => ?_⟩
  · have hbytes := h.bytes d
    by_cases hd : d = c
    · subst hd
      rw [hctx] at hbytes
      simpa using hbytes
    · simpa [hd] using hbytes
  · have hemits := h.emits d
    by_cases hd : d = c
    · subst hd
      rw [hctx] at hemits
      simpa using hemits
    · simpa [hd, own_singleton_of_ne (Ne.symm hd)] using hemits

theorem step (h : LogInvariant s) {a : LogStep Ctx} (hstep : logStep s a = some s') :
    LogInvariant s' := by
  cases a with
  | printf c level text =>
    simp only [logStep] at hstep
    split at hstep
    next hctx => exact Option.some.inj hstep ▸ h.printf hctx level text
    next => exact absurd hstep (by simp)
  | byte c =>
    simp only [logStep] at hstep
    split at hstep
    next b todo hctx =>
      obtain ⟨r, hbyte, rfl⟩ := Option.map_eq_some_iff.mp hstep
      exact h.byte hctx hbyte
    next => exact absurd hstep (by simp)
  | emit c =>
    simp only [logStep] at hstep
    split at hstep
    next todo e hctx => exact Option.some.inj hstep ▸ h.emit hctx
    next => exact absurd hstep (by simp)

end LogInvariant

/-- However the contexts get in between each other, their bytes are merged into one stream and
its lines are emitted. -/
theorem log_lines_merged (steps : List (LogStep Ctx)) :
    Always logStep Merged (Logging.start : Logging Ctx) steps :=
  always_of_step (I := LogInvariant) (fun _ _ _ h hstep => h.step hstep)
    (fun _ h => h.merged) steps LogInvariant.start

end NimbleRs.Clog
