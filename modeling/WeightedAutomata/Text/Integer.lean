namespace WeightedAutomata.Text

def digitsValue (digits : List Char) : Nat :=
  digits.foldl (fun value digit => 10 * value + (digit.toNat - '0'.toNat)) 0

def digits? (text : List Char) : Option Nat :=
  if text.isEmpty || !text.all Char.isDigit then none else some (digitsValue text)

def natural? (limit : Nat) (text : List Char) : Option Nat := do
  let value ← match text with
    | '+' :: digits => digits? digits
    | digits => digits? digits
  if value < limit then some value else none

def integer? : List Char → Option Int
  | '-' :: digits => (digits? digits).map fun size => -(size : Int)
  | '+' :: digits => (digits? digits).map Int.ofNat
  | digits => (digits? digits).map Int.ofNat

def naturalText (n : Nat) : List Char :=
  Nat.toDigits 10 n

def integerText : Int → List Char
  | .ofNat n => naturalText n
  | .negSucc n => '-' :: naturalText (n + 1)

end WeightedAutomata.Text
