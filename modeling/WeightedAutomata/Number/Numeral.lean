import WeightedAutomata.Text.Integer

namespace WeightedAutomata

inductive Numeral where
  | finite (negative : Bool) (digits : Nat) (exponent : Int)
  | infinity (negative : Bool)
  | nan (negative : Bool)
deriving DecidableEq, Repr

namespace Numeral
open Text

def exponent? : List Char → Option Int
  | [] => some 0
  | mark :: text => if mark = 'e' ∨ mark = 'E' then integer? text else none

def splitFraction : List Char → List Char × List Char
  | '.' :: text => text.span Char.isDigit
  | text => ([], text)

def decimal? (negative : Bool) (text : List Char) : Option Numeral := do
  let (whole, afterWhole) := text.span Char.isDigit
  let (fraction, afterFraction) := splitFraction afterWhole
  if whole.isEmpty && fraction.isEmpty then none
  let exponent ← exponent? afterFraction
  some (.finite negative (digitsValue (whole ++ fraction)) (exponent - fraction.length))

def unsigned? (negative : Bool) (text : List Char) : Option Numeral :=
  let word := text.map Char.toLower
  if word = ['i', 'n', 'f'] ∨ word = ['i', 'n', 'f', 'i', 'n', 'i', 't', 'y'] then
    some (.infinity negative)
  else if word = ['n', 'a', 'n'] then some (.nan negative)
  else decimal? negative text

def read? : List Char → Option Numeral
  | '-' :: text => unsigned? true text
  | '+' :: text => unsigned? false text
  | text => unsigned? false text

end Numeral
end WeightedAutomata
