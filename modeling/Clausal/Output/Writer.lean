import Clausal.Notice

/-!
# Writers with limited room

A writer takes the bytes of the lines that are sent to it until its room is used up. A line and
the line break after it are written one after the other, so the room may end before, within or
after either of them. What could not be written is reported to the log, and later lines are tried
all the same.

`write` stores as much as fits and fails only if nothing of a nonempty piece fits; `writeAll`
writes the rest of a piece that was stored in part. Once a write has failed, flushing fails.
-/

set_option autoImplicit false

namespace Clausal.Output

structure Writer where
  /-- The number of bytes that still fit; without a number there is no limit. -/
  room : Option Nat
  stored : Array UInt8
  failed : Bool

namespace Writer

def ofRoom (room : Option Nat) : Writer := ⟨room, #[], false⟩

/-- The number of bytes of the piece that fit. -/
def fits (w : Writer) (piece : List UInt8) : Nat :=
  match w.room with
  | none => piece.length
  | some n => min n piece.length

def store (w : Writer) (bytes : List UInt8) : Writer :=
  { w with room := w.room.map (· - bytes.length), stored := w.stored ++ bytes }

/-- The number of bytes that were stored, none at all being a failure. -/
def write (w : Writer) (piece : List UInt8) : Option Nat × Writer :=
  let n := w.fits piece
  if n = 0 ∧ piece ≠ [] then (none, { w with failed := true })
  else (some n, w.store (piece.take n))

theorem write_pos {w v : Writer} {piece : List UInt8} {n : Nat} (hp : piece ≠ [])
    (h : w.write piece = (some n, v)) : 0 < n := by
  simp only [write] at h
  split at h
  · simp at h
  · next hn =>
    simp only [Prod.mk.injEq, Option.some.injEq] at h
    rw [← h.1]
    exact Nat.pos_of_ne_zero fun h0 => hn ⟨h0, hp⟩

def writeAll (w : Writer) (piece : List UInt8) : Bool × Writer :=
  if _hp : piece = [] then (true, w)
  else
    match _h : w.write piece with
    | (none, v) => (false, v)
    | (some n, v) => v.writeAll (piece.drop n)
termination_by piece.length
decreasing_by
  have := write_pos _hp _h
  have := List.length_pos_iff.mpr _hp
  simp only [List.length_drop]
  omega

def bytes (text : String) : List UInt8 := text.toUTF8.toList

/-- Whether the line was written with its line break, which is not tried after a failure. -/
def emit (w : Writer) (line : String) : Bool × Writer :=
  match w.writeAll (bytes line) with
  | (true, v) => v.writeAll (bytes "\n")
  | (false, v) => (false, v)

def flushes (w : Writer) : Bool := !w.failed

/-- The longest text that the first bytes encode, at most `n` of them. -/
def textWithin (all : ByteArray) : Nat → String
  | 0 => ""
  | n + 1 => (String.fromUTF8? (all.extract 0 (n + 1))).getD (textWithin all n)

/-- The text that was stored. Of a last character that is stored in part there is a mark only. -/
def text (w : Writer) : String :=
  let all : ByteArray := ⟨w.stored⟩
  let whole := textWithin all all.size
  if whole.utf8ByteSize = all.size then whole else whole.push '\ufffd'

end Writer

/-- A writer with the log of the run that writes to it. -/
structure Console where
  writer : Writer
  log : Array Record

namespace Console

def ofRoom (room : Option Nat) : Console := ⟨.ofRoom room, #[]⟩

def unwritten : Record := ⟨.warn, "failed to write output line: no room"⟩

def unflushed : Record := ⟨.warn, "failed to flush output: cannot flush"⟩

def emit (c : Console) (line : String) : Console :=
  match c.writer.emit line with
  | (true, w) => { c with writer := w }
  | (false, w) => ⟨w, c.log.push unwritten⟩

def note (c : Console) : Notice → Console
  | .line text => c.emit text
  | .record r => { c with log := c.log.push r }

def noteAll (c : Console) (ns : List Notice) : Console := ns.foldl note c

def close (c : Console) : Console :=
  if c.writer.flushes then c else { c with log := c.log.push unflushed }

end Console
end Clausal.Output
