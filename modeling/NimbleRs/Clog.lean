import NimbleRs.LineAssembly
import NimbleRs.TransitionSystem
import Mathlib.Tactic

/-!
# Log lines of the C host

`nimble_rs_log`, which gets a line of the C host in several fragments. Each byte of a fragment
is one critical section on the static line buffer, and what is complete is emitted after it.
Indexing past the end of the buffer has no result. The buffer is tied to the assembly of lines
from the stream of all bytes, each with the level of its fragment.
-/
namespace NimbleRs.Clog
open LineAssembly TransitionSystem

def lineMax : ℕ := 256

structure LineBuf where
  buf : Vector UInt8 lineMax
  len : ℕ
  level : ℤ

/-- The static as it is initialized. -/
def LineBuf.new : LineBuf := ⟨.replicate lineMax 0, 0, 0⟩

/-- `line.buf[at] = byte; line.len += 1` -/
def LineBuf.store (line : LineBuf) (byte : UInt8) : Option LineBuf :=
  if h : line.len < lineMax then
    some { line with buf := line.buf.set line.len byte h, len := line.len + 1 }
  else none

def newline : UInt8 := 0x0a

/-- The critical section of one byte, and what it leaves to be emitted. -/
def assemble (line : LineBuf) (level : ℤ) (byte : UInt8) :
    Option (LineBuf × Option (ℤ × Vector UInt8 lineMax × ℕ)) :=
  let line := { line with level := max line.level level }
  if byte = newline ∨ line.len = lineMax then
    let out := (line.level, line.buf, line.len)
    let line := { line with len := 0, level := 0 }
    if byte ≠ newline then (line.store byte).map fun line => (line, some out)
    else some (line, some out)
  else (line.store byte).map fun line => (line, none)

/-- What `emit` is called with. -/
structure Emitted where
  level : ℤ
  line : List UInt8

/-- `emit(level, &buf[..len])` -/
def emitted (out : ℤ × Vector UInt8 lineMax × ℕ) : Option Emitted :=
  if out.2.2 ≤ lineMax then some ⟨out.1, out.2.1.toList.take out.2.2⟩ else none

/-- One turn of the loop; a byte comes with the level of its fragment. -/
def logByte (line : LineBuf) (b : UInt8 × ℤ) : Option (LineBuf × List Emitted) :=
  (assemble line b.2 b.1).bind fun r =>
    match r.2 with
    | none => some (r.1, [])
    | some out => (emitted out).map fun e => (r.1, [e])

def logBytes : LineBuf → List (UInt8 × ℤ) → Option (LineBuf × List Emitted)
  | line, [] => some (line, [])
  | line, b :: bytes =>
    (logByte line b).bind fun r => (logBytes r.1 bytes).map fun t => (t.1, r.2 ++ t.2)

/-- A call; `msg` can be null. -/
structure LogCall where
  level : ℤ
  msg : Option (List UInt8)

def nimbleRsLog (line : LineBuf) (call : LogCall) : Option (LineBuf × List Emitted) :=
  match call.msg with
  | none => some (line, [])
  | some bytes => logBytes line (bytes.map fun byte => (byte, call.level))

/-- All bytes of the calls with their levels, however they are cut into fragments. -/
def stream (calls : List LogCall) : List (UInt8 × ℤ) :=
  calls.flatMap fun call => (call.msg.getD []).map fun byte => (byte, call.level)

/-- All bytes of the calls. -/
def bytesOf (calls : List LogCall) : List UInt8 := calls.flatMap fun call => call.msg.getD []

def ends (b : UInt8 × ℤ) : Bool := b.1 == newline

/-- The levels that count for a line: all but that of a byte that was carried over into it. -/
def counted (items : List (UInt8 × ℤ)) (carried : Bool) : List ℤ :=
  (if carried then items.tail else items).map Prod.snd

def pendingLevel (p : Pending (UInt8 × ℤ)) : ℤ := (counted p.items p.carried).foldl max 0

/-- What is emitted for a line; the byte that closed it counts whether it is part of it or not. -/
def outOf (c : Closed (UInt8 × ℤ)) : Emitted :=
  ⟨(counted c.items c.carried ++ [c.closer.2]).foldl max 0, c.items.map Prod.fst⟩

/-- The buffer holds the pending line. -/
structure Holds (line : LineBuf) (p : Pending (UInt8 × ℤ)) : Prop where
  bytes : line.buf.toList.take line.len = p.items.map Prod.fst
  len : line.len = p.items.length
  fits : line.len ≤ lineMax
  level : line.level = pendingLevel p
  opened : p.carried = true → p.items ≠ []

theorem holds_new : Holds LineBuf.new .empty where
  bytes := rfl
  len := rfl
  fits := Nat.zero_le lineMax
  level := rfl
  opened := by simp [Pending.empty]

section Step
variable {line line' : LineBuf} {p : Pending (UInt8 × ℤ)}

theorem store_of_lt (line : LineBuf) (byte : UInt8) (h : line.len < lineMax) :
    ∃ line', line.store byte = some line' ∧ line'.len = line.len + 1 ∧
      line'.level = line.level ∧
      line'.buf.toList.take line'.len = line.buf.toList.take line.len ++ [byte] := by
  refine ⟨_, dif_pos h, rfl, rfl, ?_⟩
  have hlen : line.len < line.buf.toList.length := by simpa using h
  simp only [Vector.toList_set]
  rw [List.take_add_one, List.take_set_of_le le_rfl, List.getElem?_set_self hlen]
  rfl

theorem counted_append {items : List (UInt8 × ℤ)} {carried : Bool}
    (h : carried = true → items ≠ []) (b : UInt8 × ℤ) :
    counted (items ++ [b]) carried = counted items carried ++ [b.2] := by
  cases carried with
  | false => simp [counted]
  | true => simp [counted, List.tail_append_of_ne_nil (h rfl)]

theorem foldl_max_append (l : List ℤ) (n : ℤ) :
    (l ++ [n]).foldl max 0 = max (l.foldl max 0) n := by
  rw [List.foldl_append, List.foldl_cons, List.foldl_nil]

theorem emitted_of_holds (h : Holds line p) (level : ℤ) (b : UInt8 × ℤ)
    (hlevel : level = max line.level b.2) :
    emitted (level, line.buf, line.len) = some (outOf ⟨p.items, p.carried, b⟩) := by
  have hmax : level = (counted p.items p.carried ++ [b.2]).foldl max 0 := by
    rw [hlevel, h.level, foldl_max_append]
    rfl
  simp only [emitted, if_pos h.fits, outOf, h.bytes, hmax]

/-- One byte takes the buffer to the pending line with the byte, and the line that this closes
is emitted. -/
theorem Holds.logByte (h : Holds line p) (b : UInt8 × ℤ) :
    ∃ line', logByte line b = some (line', ((push ends lineMax p b).2.map outOf).toList) ∧
      Holds line' (push ends lineMax p b).1 := by
  have hpos : 0 < lineMax := by decide
  have hemit := emitted_of_holds h (max line.level b.2) b rfl
  by_cases hb : b.1 = newline
  · have hends : ends b = true := by simp [ends, hb]
    rw [push_stop hends]
    refine ⟨⟨line.buf, 0, 0⟩, ?_, rfl, rfl, Nat.zero_le lineMax, rfl, by simp [Pending.empty]⟩
    simp [Clog.logByte, assemble, hb, hemit]
  · have hends : ends b = false := by simpa [ends] using hb
    by_cases hfull : line.len = lineMax
    · rw [push_full hends (h.len ▸ hfull)]
      obtain ⟨line', hstore, hlen, hlevel, hbytes⟩ :=
        store_of_lt ⟨line.buf, 0, 0⟩ b.1 hpos
      refine ⟨line', ?_, by simpa using hbytes, hlen, by rw [hlen]; exact hpos, hlevel, by simp⟩
      rw [hfull] at hemit
      simp [Clog.logByte, assemble, hb, hfull, hstore, hemit]
    · rw [push_room hends (fun heq => hfull (h.len.trans heq))]
      have hlt : line.len < lineMax := lt_of_le_of_ne h.fits hfull
      obtain ⟨line', hstore, hlen, hlevel, hbytes⟩ :=
        store_of_lt { line with level := max line.level b.2 } b.1 hlt
      refine ⟨line', ?_, ?_, ?_, ?_, ?_, by simp⟩
      · simp [Clog.logByte, assemble, hb, hfull, hstore]
      · rw [hbytes]
        simpa using h.bytes
      · rw [hlen, List.length_append, List.length_singleton, h.len]
      · rw [hlen]
        exact hlt
      · rw [hlevel, pendingLevel, counted_append h.opened, foldl_max_append, h.level]
        rfl

theorem Holds.logBytes (h : Holds line p) (bytes : List (UInt8 × ℤ)) :
    ∃ line', logBytes line bytes = some (line', (feed ends lineMax p bytes).2.map outOf) ∧
      Holds line' (feed ends lineMax p bytes).1 := by
  induction bytes generalizing line p with
  | nil => exact ⟨line, rfl, h⟩
  | cons b bytes ih =>
    obtain ⟨line₁, hbyte, h₁⟩ := h.logByte b
    obtain ⟨line₂, hrest, h₂⟩ := ih h₁
    refine ⟨line₂, ?_, h₂⟩
    simp only [Clog.logBytes, hbyte, Option.bind_some, hrest, Option.map_some, feed,
      List.map_append]
    cases (push ends lineMax p b).2 <;> rfl

end Step

section Calls

theorem logBytes_append (line : LineBuf) (b₁ b₂ : List (UInt8 × ℤ)) :
    logBytes line (b₁ ++ b₂) = (logBytes line b₁).bind fun r =>
      (logBytes r.1 b₂).map fun t => (t.1, r.2 ++ t.2) := by
  induction b₁ generalizing line with
  | nil =>
    cases h : logBytes line b₂ <;> simp [logBytes, h]
  | cons b b₁ ih =>
    simp only [List.cons_append, logBytes]
    cases hb : logByte line b with
    | none => rfl
    | some r =>
      simp only [Option.bind_some, ih]
      cases h₁ : logBytes r.1 b₁ with
      | none => rfl
      | some r₁ => cases h₂ : logBytes r₁.1 b₂ <;> simp [h₂]

/-- A run of calls is a run over the stream of their bytes. -/
theorem trace_logBytes (line : LineBuf) (calls : List LogCall) :
    (trace nimbleRsLog line calls).map (fun r => (r.1, r.2.flatten)) =
      logBytes line (stream calls) := by
  induction calls generalizing line with
  | nil => rfl
  | cons call calls ih =>
    have hcall : nimbleRsLog line call =
        logBytes line ((call.msg.getD []).map fun byte => (byte, call.level)) := by
      cases hmsg : call.msg <;> simp [nimbleRsLog, hmsg, logBytes]
    have hstream : stream (call :: calls) =
        ((call.msg.getD []).map fun byte => (byte, call.level)) ++ stream calls := by
      simp [stream]
    rw [hstream, logBytes_append, ← hcall]
    simp only [trace]
    cases nimbleRsLog line call with
    | none => rfl
    | some r =>
      simp only [Option.bind_some, ← ih]
      cases trace nimbleRsLog r.1 calls <;> simp

/-- Whatever is called, the buffer comes to hold the pending line of the stream and the lines
of the stream have been emitted. -/
theorem trace_nimbleRsLog (calls : List LogCall) :
    ∃ line outs, trace nimbleRsLog LineBuf.new calls = some (line, outs) ∧
      outs.flatten = (feed ends lineMax .empty (stream calls)).2.map outOf ∧
      Holds line (feed ends lineMax .empty (stream calls)).1 := by
  obtain ⟨line, hrun, hline⟩ := holds_new.logBytes (stream calls)
  have htrace := trace_logBytes LineBuf.new calls
  rw [hrun] at htrace
  obtain ⟨⟨line', outs⟩, houts, heq⟩ := Option.map_eq_some_iff.mp htrace
  simp only [Prod.mk.injEq] at heq
  obtain ⟨rfl, hflat⟩ := heq
  exact ⟨line', outs, houts, hflat, hline⟩

end Calls

theorem map_splitOnP_stream (calls : List LogCall) :
    ((stream calls).splitOnP ends).map (·.map Prod.fst) =
      (bytesOf calls).splitOnP (· == newline) := by
  have hbytes : bytesOf calls = (stream calls).map Prod.fst := by
    simp [bytesOf, stream, List.map_flatMap, Function.comp_def]
  rw [hbytes]
  generalize stream calls = l
  induction l with
  | nil => simp
  | cons b l ih =>
    rw [List.map_cons, List.splitOnP_cons_eq_if_modifyHead,
      List.splitOnP_cons_eq_if_modifyHead, ← ih]
    have hends : ends b = (b.1 == newline) := rfl
    rw [hends]
    cases hb : b.1 == newline with
    | true => simp
    | false =>
      obtain ⟨r, rs, hruns⟩ := List.exists_cons_of_ne_nil (List.splitOnP_ne_nil ends l)
      rw [hruns]
      simp

theorem len_le_lineMax (bytes : List (UInt8 × ℤ)) :
    Always (silent logByte) (fun line => line.len ≤ lineMax) LineBuf.new bytes := by
  apply always_of_step (I := fun line => ∃ p, Holds line p)
  · rintro line b line' ⟨p, hline⟩ hstep
    obtain ⟨out, hout⟩ := silent_eq_some.mp hstep
    obtain ⟨line₁, hbyte, h₁⟩ := hline.logByte b
    obtain rfl : line₁ = line' := congrArg Prod.fst (Option.some.inj (hbyte.symm.trans hout))
    exact ⟨_, h₁⟩
  · rintro line ⟨p, hline⟩
    exact hline.fits
  · exact ⟨_, holds_new⟩

/-- The calls never index past the buffer. The lines that they emit, with the one that stays in
the buffer, are the bytes of all fragments split at newlines and then into pieces of the size of
the buffer, and what becomes of the bytes does not depend on the fragments that they came in. -/
theorem log_lines_reassembled (calls : List LogCall) :
    ∃ line outs, trace nimbleRsLog LineBuf.new calls = some (line, outs) ∧
      outs.flatten.map (·.line) ++ [line.buf.toList.take line.len] =
        ((bytesOf calls).splitOnP (· == newline)).flatMap (pieces lineMax) ∧
      Always (silent logByte) (fun line => line.len ≤ lineMax) LineBuf.new (stream calls) ∧
      ∀ calls', stream calls' = stream calls →
        (trace nimbleRsLog LineBuf.new calls').map (fun r => (r.1, r.2.flatten)) =
          some (line, outs.flatten) := by
  obtain ⟨line, outs, hrun, houts, hline⟩ := trace_nimbleRsLog calls
  refine ⟨line, outs, hrun, ?_, len_le_lineMax _, fun calls' hsame => ?_⟩
  · have hcut : (feed ends lineMax .empty (stream calls)).2.map (·.items) ++
        [(feed ends lineMax .empty (stream calls)).1.items] =
          ((stream calls).splitOnP ends).flatMap (pieces lineMax) :=
      feed_cut (p := .empty) (by decide) (by simp [Pending.empty]) (Nat.zero_le lineMax) _
    have hmap := congrArg (List.map (List.map Prod.fst)) hcut
    rw [← map_splitOnP_stream, List.flatMap_map, houts, hline.bytes]
    simp only [pieces_map]
    rw [← List.map_flatMap, ← hmap]
    simp [outOf, Function.comp_def]
  · rw [trace_logBytes, hsame, ← trace_logBytes, hrun]
    rfl

end NimbleRs.Clog
