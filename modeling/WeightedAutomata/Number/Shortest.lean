import WeightedAutomata.Text.Integer

namespace WeightedAutomata.Shortest
open Text

-- A size stands for all numbers that round to it: the interval that ends halfway to its
-- neighbours, the ends included when the significand is even. Below a power of two the
-- neighbour is half as far as above.
structure Size where
  significand : Nat
  exponent : Int
  narrow : Bool

namespace Size

def quarterSteps (size : Size) (grid : Int) : Nat × Nat :=
  let quarter := size.exponent - 2
  (Nat.pow 2 quarter.toNat * Nat.pow 10 (-grid).toNat,
    Nat.pow 2 (-quarter).toNat * Nat.pow 10 grid.toNat)

def contains (size : Size) (grid : Int) (digits : Nat) : Bool :=
  let (quarter, step) := size.quarterSteps grid
  let low := (4 * size.significand - if size.narrow then 1 else 2) * quarter
  let high := (4 * size.significand + 2) * quarter
  let point := digits * step
  if size.significand % 2 = 0 then low ≤ point && point ≤ high else low < point && point < high

def nearest? (size : Size) (grid : Int) : Option Nat :=
  let (quarter, step) := size.quarterSteps grid
  let value := 4 * size.significand * quarter
  let below := value / step
  match size.contains grid below, size.contains grid (below + 1) with
  | true, true => some (if 2 * value < (2 * below + 1) * step then below else below + 1)
  | true, false => some below
  | false, true => some (below + 1)
  | false, false => none

def scale (size : Size) : Int :=
  Int.fdiv ((size.significand.log2 + 1 + size.exponent) * 30103) 100000 + 1

def exact (size : Size) : Nat × Int :=
  if 0 ≤ size.exponent then (size.significand * Nat.pow 2 size.exponent.toNat, 0)
  else (size.significand * Nat.pow 5 (-size.exponent).toNat, size.exponent)

def decimal (size : Size) : Nat × Int :=
  let found := (List.range 20).findSome? fun finer =>
    let grid := size.scale - (finer : Nat)
    (size.nearest? grid).map fun digits => (digits, grid)
  found.getD size.exact

end Size

def positional (digits : Nat) (exponent : Int) : List Char :=
  let text := naturalText digits
  let places := (-exponent).toNat
  if 0 ≤ exponent then text ++ List.replicate exponent.toNat '0'
  else if places < text.length then
    text.take (text.length - places) ++ '.' :: text.drop (text.length - places)
  else ['0', '.'] ++ List.replicate (places - text.length) '0' ++ text

end WeightedAutomata.Shortest
