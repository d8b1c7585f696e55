import Linkage.Text.Utf8

/-! The number of changes that lead from one text to another. -/
namespace Linkage
namespace Distance

/-- The distances behind the first of one more row: `left` is the distance before, and the row above starts with that
of the diagonal. -/
def rowFrom (b : UInt8) : List UInt8 → Nat → List Nat → List Nat
  | a :: rest, left, diagonal :: above :: row =>
    let d := if a = b then diagonal else min (min left above) diagonal + 1
    d :: rowFrom b rest d (above :: row)
  | _, _, _ => []

/-- The distances of the starts of a text from a text that is longer by one byte than that of the row above. -/
def nextRow (text : Bytes) (row : List Nat) (b : UInt8) : List Nat :=
  let first := row.headD 0 + 1
  first :: rowFrom b text first row

/-- The least number of bytes to insert, to take away or to replace that makes one text of the other. -/
def between (s t : Bytes) : Nat := (t.foldl (nextRow s) (List.range (s.length + 1))).getLastD 0

end Distance

end Linkage
