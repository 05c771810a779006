import WeightedAutomata.Text.Blank

namespace WeightedAutomata.Text

-- A carriage return stays, since it is a blank and blanks only separate columns.
abbrev Line := Option String

def lineBytes (bytes : ByteArray) : List (List UInt8) :=
  let parts := pieces (· == 10) bytes.toList
  if parts.getLast?.all List.isEmpty then parts.dropLast else parts

def lines (bytes : ByteArray) : List Line :=
  (lineBytes bytes).map fun line => String.fromUTF8? ⟨line.toArray⟩

end WeightedAutomata.Text
