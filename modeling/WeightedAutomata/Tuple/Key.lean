import WeightedAutomata.Text.Integer

namespace WeightedAutomata

inductive Width where
  | bits8
  | bits16
  | bits32
  | bits64
deriving DecidableEq, Repr

namespace Width

def bits : Width → Nat
  | bits8 => 8
  | bits16 => 16
  | bits32 => 32
  | bits64 => 64

def bound (width : Width) : Nat :=
  Nat.pow 2 (width.bits - 1)

def suffix : Width → String
  | bits8 => "_8"
  | bits16 => "_16"
  | bits32 => ""
  | bits64 => "_64"

end Width

structure Key (width : Width) where
  value : Int
  lower : -(width.bound : Int) ≤ value
  upper : value < width.bound
deriving DecidableEq

namespace Key
variable {width : Width}

def ofInt? (value : Int) : Option (Key width) :=
  if h : -(width.bound : Int) ≤ value ∧ value < width.bound then some ⟨value, h.1, h.2⟩ else none

def read? (text : List Char) : Option (Key width) :=
  (Text.integer? text).bind ofInt?

def text (key : Key width) : List Char :=
  Text.integerText key.value

end Key
end WeightedAutomata
