import Linkage.Bytes

/-! A cursor over bytes whose first overrun sticks, and steps over it that stop at an overrun. -/
namespace Linkage

/-- A read that asked for more bytes than were left, or for a negative number of them. -/
structure Truncation where
  need : Int
  offset : Nat
  available : Nat
deriving Repr, DecidableEq

namespace Truncation

def message (t : Truncation) : String :=
  s!"classfile: truncated data: need {t.need} bytes at offset {t.offset}, have {t.available}"

end Truncation

/-- A position in a byte string; after a failed read it stays where it is. -/
structure Cursor where
  pos : Nat
  rest : Bytes
  fault : Option Truncation
deriving Repr, DecidableEq

namespace Cursor

def ofBytes (data : Bytes) : Cursor := ⟨0, data, none⟩

/-- The next `n` bytes; none after a fault. -/
def bytes (n : Int) (c : Cursor) : Bytes × Cursor :=
  match c.fault with
  | some _ => ([], c)
  | none =>
    let taken := c.rest.take n.toNat
    if 0 ≤ n ∧ taken.length = n.toNat then
      (taken, { c with pos := c.pos + n.toNat, rest := c.rest.drop n.toNat })
    else
      ([], { c with fault := some ⟨n, c.pos, c.rest.length⟩ })

/-- The big-endian number in the next `width` bytes; zero after a fault. -/
def number (width : Nat) (c : Cursor) : Nat × Cursor :=
  let (bs, c) := c.bytes width
  (bs.toNat, c)

def u1 : Cursor → Nat × Cursor := number 1
def u2 : Cursor → Nat × Cursor := number 2
def u4 : Cursor → Nat × Cursor := number 4

end Cursor

/-- Steps over a cursor that fail at the first fault. -/
abbrev Scan (ε : Type) := StateT Cursor (Except ε)

/-- Errors among which a truncation has a place. -/
class OfTruncation (ε : Type) where
  ofTruncation : Truncation → ε

namespace Scan

variable {ε : Type} [OfTruncation ε]

/-- Turns a sticky read into a step that fails. -/
def ofRead {α : Type} (read : Cursor → α × Cursor) : Scan ε α := fun c =>
  let (a, c) := read c
  match c.fault with
  | some t => .error (OfTruncation.ofTruncation t)
  | none => .ok (a, c)

def u1 : Scan ε Nat := ofRead Cursor.u1
def u2 : Scan ε Nat := ofRead Cursor.u2
def u4 : Scan ε Nat := ofRead Cursor.u4
def bytes (n : Nat) : Scan ε Bytes := ofRead (Cursor.bytes n)

omit [OfTruncation ε] in
/-- Runs `step` for `n` numbers from `i` on. -/
def timesFrom {α : Type} (step : Nat → Scan ε α) : Nat → Nat → Scan ε (List α)
  | _, 0 => pure []
  | i, n + 1 => do
    let a ← step i
    return a :: (← timesFrom step (i + 1) n)

omit [OfTruncation ε] in
/-- Runs `step` for `0`, …, `n - 1`. -/
def times {α : Type} (n : Nat) (step : Nat → Scan ε α) : Scan ε (List α) := timesFrom step 0 n

omit [OfTruncation ε] in
/-- Changes the error of a step. -/
def mapError {α δ : Type} (f : ε → δ) (step : Scan ε α) : Scan δ α := fun c =>
  (step c).mapError f

end Scan

end Linkage
