import Clausal.Output.Writer
import Clausal.Proofs.Resolution.Stopping
import Clausal.Proofs.Search.Trail
import Mathlib.Data.List.Induction

/-!
# Lines that a limited room cuts short

The state of a writer can be told from its room and from the bytes that were sent to it, whether
they were stored or not: it has stored as many of them as the room holds, the first ones, and it has
failed if there were more. `Writer.after` is this state. It does not remember how the bytes were cut
into pieces, so a line that is given up in its middle leaves the writer as if all of it had been
tried.

The main statement: of the lines that are sent to a console, the beginning is stored that fits into
the room, and a line is warned about if and only if its line break lies beyond the room. A run that
is traced to the console goes as it does without a trace.
-/

set_option autoImplicit false

namespace Clausal.Output

/-- Some of the bytes lie beyond the room. -/
def overflows (room : Option Nat) (bytes : List UInt8) : Bool := room.any (· < bytes.length)

/-- The beginning of the bytes that the room holds. -/
def within (room : Option Nat) (bytes : List UInt8) : List UInt8 :=
  bytes.take (room.getD bytes.length)

section
variable {room : Option Nat} {xs ys : List UInt8}

theorem overflows_some_iff {n : Nat} : overflows (some n) xs = true ↔ n < xs.length := by
  simp [overflows]

theorem within_eq_self (h : overflows room xs = false) : within room xs = xs := by
  cases room with
  | none => exact List.take_length
  | some n =>
    have hle : xs.length ≤ n := by simpa [overflows] using h
    exact List.take_of_length_le hle

theorem overflows_append (h : overflows room xs = true) (ys : List UInt8) :
    overflows room (xs ++ ys) = true := by
  cases room with
  | none => cases h
  | some n =>
    rw [overflows_some_iff] at h ⊢
    rw [List.length_append]
    exact Nat.lt_add_right _ h

/-- Bytes that are sent once the room is used up are lost. -/
theorem within_append {n : Nat} (h : n ≤ xs.length) (ys : List UInt8) :
    within (some n) (xs ++ ys) = within (some n) xs :=
  List.take_append_of_le_length h

end

namespace Writer

/-- A writer of the room after the bytes were sent to it. -/
def after (room : Option Nat) (sent : List UInt8) : Writer where
  room := room.map (· - sent.length)
  stored := (within room sent).toArray
  failed := overflows room sent

theorem after_nil (room : Option Nat) : after room [] = ofRoom room := by
  cases room <;> simp [after, ofRoom, within, overflows]

/-- The bytes that a room cannot hold make the writer fail and are lost. -/
theorem fail_after {n : Nat} {sent piece : List UInt8} (hfull : n ≤ sent.length)
    (hpiece : piece ≠ []) :
    { after (some n) sent with failed := true } = after (some n) (sent ++ piece) := by
  have hlt : n < (sent ++ piece).length := by
    rw [List.length_append]
    exact Nat.lt_of_le_of_lt hfull (Nat.lt_add_of_pos_right (List.length_pos_iff.mpr hpiece))
  have hroom : n - sent.length = n - (sent ++ piece).length := by omega
  simp only [after, Option.map_some, hroom, within_append hfull, overflows_some_iff.mpr hlt]

/-- The bytes that the room holds are stored. -/
theorem store_after {room : Option Nat} {sent bytes : List UInt8}
    (h : overflows room (sent ++ bytes) = false) :
    (after room sent).store bytes = after room (sent ++ bytes) := by
  have hsent : overflows room sent = false := by
    rw [← Bool.not_eq_true] at h ⊢
    exact fun hsent => h (overflows_append hsent bytes)
  simp only [store, after, within_eq_self h, within_eq_self hsent, h, hsent, Option.map_map,
    List.length_append, List.toArray_appendList, Writer.mk.injEq, and_true]
  congr 1
  funext n
  exact Nat.sub_sub n _ _

theorem exists_full_of_fits_eq_zero {room : Option Nat} {sent piece : List UInt8}
    (hpiece : piece ≠ []) (h : (after room sent).fits piece = 0) :
    ∃ n, room = some n ∧ n ≤ sent.length := by
  have hpos := List.length_pos_iff.mpr hpiece
  cases room with
  | none => exact absurd h (Nat.ne_of_gt hpos)
  | some n =>
    have hmin : min (n - sent.length) piece.length = 0 := h
    exact ⟨n, rfl, by omega⟩

theorem overflows_take_fits {room : Option Nat} {sent piece : List UInt8}
    (h : (after room sent).fits piece ≠ 0) :
    overflows room (sent ++ piece.take ((after room sent).fits piece)) = false := by
  cases room with
  | none => rfl
  | some n =>
    have hmin : (after (some n) sent).fits piece = min (n - sent.length) piece.length := rfl
    rw [← Bool.not_eq_true, overflows_some_iff, List.length_append, List.length_take]
    omega

/-- A write stores a part of the piece, and less than all only if the room does not hold it. -/
theorem write_after {piece : List UInt8} (hpiece : piece ≠ []) (room : Option Nat)
    (sent : List UInt8) :
    (∃ n, 0 < n ∧ (after room sent).write piece = (some n, after room (sent ++ piece.take n)) ∧
      (piece.drop n = [] → overflows room (sent ++ piece) = false)) ∨
    ((after room sent).write piece = (none, after room (sent ++ piece)) ∧
      overflows room (sent ++ piece) = true) := by
  have htake : (after room sent).fits piece ≠ 0 →
      overflows room (sent ++ piece.take ((after room sent).fits piece)) = false :=
    overflows_take_fits
  rw [write]
  generalize hn : (after room sent).fits piece = n at htake ⊢
  by_cases hzero : n = 0
  · obtain ⟨k, rfl, hfull⟩ := exists_full_of_fits_eq_zero hpiece (hn.trans hzero)
    have hfail := fail_after hfull hpiece
    refine .inr ⟨?_, ?_⟩
    · simp only [hzero, hpiece, ne_eq, not_false_eq_true, and_self, if_true, hfail]
    · exact congrArg failed hfail.symm
  · refine .inl ⟨n, Nat.pos_of_ne_zero hzero, ?_, ?_⟩
    · simp only [hzero, false_and, if_false, store_after (htake hzero)]
    · intro hdrop
      rw [← List.take_append_drop n piece, hdrop, List.append_nil]
      exact htake hzero

theorem writeAll_of_write_eq_none {w v : Writer} {piece : List UInt8} (hpiece : piece ≠ [])
    (h : w.write piece = (none, v)) : w.writeAll piece = (false, v) := by
  rw [writeAll, dif_neg hpiece]
  split
  · next hnone =>
    rw [h] at hnone
    cases hnone
    rfl
  · next hsome => simp [h] at hsome

theorem writeAll_of_write_eq_some {w v : Writer} {piece : List UInt8} {n : Nat}
    (hpiece : piece ≠ []) (h : w.write piece = (some n, v)) :
    w.writeAll piece = v.writeAll (piece.drop n) := by
  rw [writeAll, dif_neg hpiece]
  split
  · next hnone => simp [h] at hnone
  · next hsome =>
    rw [h] at hsome
    cases hsome
    rfl

/-- All of the piece is written unless a part of it lies beyond the room. The induction is on what
is left of the piece. -/
theorem writeAll_after (room : Option Nat) (sent piece : List UInt8) :
    (after room sent).writeAll piece =
      (piece.isEmpty || !overflows room (sent ++ piece), after room (sent ++ piece)) := by
  by_cases hpiece : piece = []
  · simp [hpiece, writeAll]
  · rw [List.isEmpty_eq_false_iff.mpr hpiece, Bool.false_or]
    rcases write_after hpiece room sent with ⟨n, hpos, hwrite, hall⟩ | ⟨hwrite, hover⟩
    · have hlt : (piece.drop n).length < piece.length := by
        have := List.length_pos_iff.mpr hpiece
        rw [List.length_drop]
        omega
      rw [writeAll_of_write_eq_some hpiece hwrite,
        writeAll_after room (sent ++ piece.take n) (piece.drop n), List.append_assoc,
        List.take_append_drop]
      cases hdrop : (piece.drop n).isEmpty with
      | true => rw [hall (List.isEmpty_iff.mp hdrop), Bool.true_or, Bool.not_false]
      | false => rw [Bool.false_or]
    · rw [writeAll_of_write_eq_none hpiece hwrite, hover, Bool.not_true]
termination_by piece.length

/-- Once some bytes have been lost, further ones change nothing. -/
theorem after_append_of_overflows {room : Option Nat} {sent : List UInt8}
    (h : overflows room sent = true) (more : List UInt8) :
    after room (sent ++ more) = after room sent := by
  cases room with
  | none => cases h
  | some n =>
    have hfull : n ≤ sent.length := Nat.le_of_lt (overflows_some_iff.mp h)
    have hroom : n - (sent ++ more).length = n - sent.length := by
      rw [List.length_append]
      omega
    simp only [after, Option.map_some, hroom, within_append hfull, overflows_append h, h]

/-- The bytes of a line in UTF-8 and of the line break after it. -/
def lineBytes (line : String) : List UInt8 := line.toUTF8.toList ++ [10]

theorem lineBytes_eq (line : String) : lineBytes line = bytes line ++ bytes "\n" := by
  have hbreak : bytes "\n" = [10] := by decide +kernel
  rw [hbreak]
  rfl

/-- A line counts as written if the room holds it with its line break. -/
theorem emit_after (room : Option Nat) (sent : List UInt8) (line : String) :
    (after room sent).emit line =
      (!overflows room (sent ++ lineBytes line), after room (sent ++ lineBytes line)) := by
  have hbreak : (bytes "\n").isEmpty = false := by decide +kernel
  unfold emit
  rw [lineBytes_eq, writeAll_after, ← List.append_assoc]
  cases hover : overflows room (sent ++ bytes line) with
  | false => simp only [Bool.not_false, Bool.or_true, writeAll_after, hbreak, Bool.false_or]
  | true =>
    rw [Bool.not_true, Bool.or_false]
    cases hline : (bytes line).isEmpty with
    | true => simp only [writeAll_after, hbreak, Bool.false_or]
    | false =>
      simp only [overflows_append hover, after_append_of_overflows hover, Bool.not_true]

end Writer

open Writer (lineBytes)

/-- The bytes of the lines, each with its line break. -/
def textBytes (lines : List String) : List UInt8 := lines.flatMap lineBytes

/-- The places of the lines whose line break lies beyond the room. -/
def lost (room : Option Nat) (lines : List String) : List Nat :=
  (List.range lines.length).filter fun i => overflows room (textBytes (lines.take (i + 1)))

theorem textBytes_append (lines more : List String) :
    textBytes (lines ++ more) = textBytes lines ++ textBytes more := List.flatMap_append

theorem lost_concat (room : Option Nat) (lines : List String) (line : String) :
    lost room (lines ++ [line]) =
      lost room lines ++
        if overflows room (textBytes (lines ++ [line])) then [lines.length] else [] := by
  have hbefore : ∀ i ∈ List.range lines.length,
      overflows room (textBytes ((lines ++ [line]).take (i + 1))) =
        overflows room (textBytes (lines.take (i + 1))) := by
    intro i hi
    rw [List.take_append_of_le_length (List.mem_range.mp hi)]
  have hlast : (lines ++ [line]).take (lines.length + 1) = lines ++ [line] :=
    List.take_of_length_le (by simp)
  rw [lost, List.length_append, List.length_singleton, List.range_succ, List.filter_append,
    List.filter_congr hbefore, List.filter_singleton, hlast, Bool.cond_eq_ite]
  rfl

/-- The last line is lost if any is. -/
theorem lost_eq_nil_iff (room : Option Nat) (lines : List String) :
    lost room lines = [] ↔ overflows room (textBytes lines) = false := by
  induction lines using List.reverseRecOn with
  | nil => cases room <;> simp [lost, textBytes, overflows]
  | append_singleton lines line ih =>
    rw [lost_concat, List.append_eq_nil_iff, ih]
    cases hover : overflows room (textBytes (lines ++ [line])) with
    | true => simp
    | false =>
      rw [← Bool.not_eq_true, textBytes_append] at hover
      have hbefore : overflows room (textBytes lines) = false := by
        rw [← Bool.not_eq_true]
        exact fun h => hover (overflows_append h _)
      simp [hbefore]

namespace Console

/-- Sends the lines to a console with an empty log. -/
def emitAll (room : Option Nat) (lines : List String) : Console :=
  lines.foldl emit (.ofRoom room)

/-- Shows what an event makes known. -/
def watch {ε : Type} (notices : ε → List Notice) (e : ε) (c : Console) : Console :=
  c.noteAll (notices e)

section
variable {room : Option Nat}

theorem writer_emit {c : Console} {sent : List UInt8} (h : c.writer = .after room sent)
    (line : String) : (c.emit line).writer = .after room (sent ++ lineBytes line) := by
  unfold emit
  rw [h, Writer.emit_after]
  split
  · next w heq => exact (congrArg Prod.snd heq).symm
  · next w heq => exact (congrArg Prod.snd heq).symm

theorem log_emit {c : Console} {sent : List UInt8} (h : c.writer = .after room sent)
    (line : String) : (c.emit line).log.toList = c.log.toList ++
      if overflows room (sent ++ lineBytes line) then [unwritten] else [] := by
  unfold emit
  rw [h, Writer.emit_after]
  cases overflows room (sent ++ lineBytes line) <;> simp

/-- Records pass the writer by. -/
theorem writer_noteAll (ns : List Notice) {c : Console} {sent : List UInt8}
    (h : c.writer = .after room sent) :
    (c.noteAll ns).writer = .after room (sent ++ textBytes (Notice.lines ns)) := by
  induction ns generalizing c sent with
  | nil => simpa [noteAll, textBytes, Notice.lines] using h
  | cons n ns ih =>
    cases n with
    | line text =>
      have hrest := ih (writer_emit h text)
      rwa [List.append_assoc] at hrest
    | record r =>
      have hrecord : (c.note (.record r)).writer = .after room sent := h
      exact ih hrecord

theorem writer_ofRoom (room : Option Nat) : (ofRoom room).writer = .after room [] :=
  (Writer.after_nil room).symm

theorem writer_emitAll (room : Option Nat) (lines : List String) :
    (emitAll room lines).writer = .after room (textBytes lines) := by
  have hlines : Notice.lines (lines.map .line) = lines := by
    simp [Notice.lines, Notice.line?, List.filterMap_map, Function.comp_def]
  have hall : emitAll room lines = (ofRoom room).noteAll (lines.map .line) := by
    rw [emitAll, noteAll, List.foldl_map]
    rfl
  rw [hall, writer_noteAll _ (writer_ofRoom room), hlines, List.nil_append]

theorem log_emitAll_concat (room : Option Nat) (lines : List String) (line : String) :
    (emitAll room (lines ++ [line])).log.toList = (emitAll room lines).log.toList ++
      if overflows room (textBytes (lines ++ [line])) then [unwritten] else [] := by
  have hstep : emitAll room (lines ++ [line]) = (emitAll room lines).emit line := by
    simp [emitAll]
  have hbytes : textBytes (lines ++ [line]) = textBytes lines ++ lineBytes line := by
    simp [textBytes]
  rw [hstep, hbytes]
  exact log_emit (writer_emitAll room lines) line

theorem log_emitAll (room : Option Nat) (lines : List String) :
    (emitAll room lines).log.toList = (lost room lines).map fun _ => unwritten := by
  induction lines using List.reverseRecOn with
  | nil => rfl
  | append_singleton lines line ih =>
    rw [log_emitAll_concat, ih, lost_concat, List.map_append]
    split <;> rfl

theorem stored_close {c : Console} {sent : List UInt8} (h : c.writer = .after room sent) :
    c.close.writer.stored.toList = within room sent := by
  have hclose : c.close.writer = c.writer := by
    unfold close
    split <;> rfl
  rw [hclose, h]
  rfl

theorem log_close_emitAll (room : Option Nat) (lines : List String) :
    (emitAll room lines).close.log.toList = (lost room lines).map (fun _ => unwritten) ++
      if lost room lines = [] then [] else [unflushed] := by
  have hflushes : (emitAll room lines).writer.flushes = !overflows room (textBytes lines) := by
    rw [writer_emitAll]
    rfl
  rw [close, hflushes]
  simp only [lost_eq_nil_iff]
  cases overflows room (textBytes lines) <;> simp [log_emitAll]

end

section
variable {σ : Type} (room : Option Nat) (stops : Interrupts) (F : Formula)

theorem writer_solve (mode : Search.Mode) :
    (Search.solve (watch (Search.Event.notices true)) stops mode F (ofRoom room)).seen.writer =
      .after room (textBytes (Search.traceLines stops mode F)) := by
  have hnotices : Search.observeAll (watch (Search.Event.notices true))
      (Search.history stops mode F) (ofRoom room) =
        (ofRoom room).noteAll (Search.heard true stops mode F).seen := by
    rw [Search.seen_heard, noteAll, List.foldl_flatMap]
    rfl
  have hlines : Notice.lines (Search.heard true stops mode F).seen = _ :=
    Search.heardLines_eq stops mode F
  rw [Search.solve_eq_keep, hnotices, writer_noteAll _ (writer_ofRoom room), hlines,
    List.nil_append]

theorem writer_refute :
    (Resolution.refute (watch (Resolution.Event.notices true)) stops F (ofRoom room)).seen.writer =
      .after room (textBytes (Resolution.traceLines stops F)) := by
  have hnotices : (Resolution.refute keep stops F []).seen.foldl
      (fun seen e => watch (Resolution.Event.notices true) e seen) (ofRoom room) =
        (ofRoom room).noteAll (Resolution.heard true stops F).seen := by
    rw [Resolution.seen_heard, noteAll, List.foldl_flatMap]
    rfl
  have hlines : Notice.lines (Resolution.heard true stops F).seen = _ :=
    Resolution.heardLines_eq stops F
  rw [Resolution.refute_eq_keep, hnotices, writer_noteAll _ (writer_ofRoom room), hlines,
    List.nil_append]

end

/-- The room ends inside the letter of the second line; the empty line after it is tried as well. -/
example :
    let c := (emitAll (some 3) ["a", "é", ""]).close
    c.writer.stored.toList.map UInt8.toNat = [97, 10, 195] ∧
      c.log.toList = [unwritten, unwritten, unflushed] := by
  decide +kernel

end Console
end Clausal.Output
