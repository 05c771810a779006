import WeightedAutomata.Text.Blank
import WeightedAutomata.Tuple.Basic

namespace WeightedAutomata.SparseTuple
open Text
variable {W : Type} {width : Width}

def writeElement (text : List Char) : List Char :=
  if ',' ∈ text then '(' :: text ++ [')'] else text

def joinElements (elements : List (List Char)) : List Char :=
  [','].intercalate (elements.map writeElement)

-- The first piece stands apart. There are none if a parenthesis closes what is not open at
-- this depth or one stays open.
def splitTop : Nat → List Char → Option (List Char × List (List Char))
  | 0, [] => some ([], [])
  | _ + 1, [] => none
  | depth, '(' :: text => (splitTop (depth + 1) text).map fun (first, rest) => ('(' :: first, rest)
  | 0, ')' :: _ => none
  | depth + 1, ')' :: text => (splitTop depth text).map fun (first, rest) => (')' :: first, rest)
  | 0, ',' :: text => (splitTop 0 text).map fun (first, rest) => ([], first :: rest)
  | depth, c :: text => (splitTop depth text).map fun (first, rest) => (c :: first, rest)

def readElement (text : List Char) : List Char :=
  match trim text with
  | '(' :: inner => if inner.getLast? = some ')' then inner.dropLast else '(' :: inner
  | other => other

def splitElements (text : List Char) : Option (List Char × List (List Char)) :=
  (splitTop 0 text).map fun (first, rest) => (readElement first, rest.map readElement)

def insertPairs [BEq W] [WeightText W] (t : SparseTuple W width) :
    List (List Char) → Except ParseError (SparseTuple W width)
  | keyText :: valueText :: rest =>
    match Key.read? keyText with
    | none => .error (.invalid "sparse_tuple key" (String.ofList keyText))
    | some key => do
      let value ← WeightText.parse (String.ofList valueText)
      insertPairs (t.insert key value) rest
  | _ => .ok t

def print [WeightText W] (t : SparseTuple W width) : String :=
  let element (value : W) := (WeightText.print value).toList
  String.ofList (joinElements
    (element t.background :: t.entries.flatMap fun e => [e.1.text, element e.2]))

def parse [BEq W] [WeightText W] (text : String) : Except ParseError (SparseTuple W width) :=
  match splitElements text.toList with
  | none => .error (.malformed "sparse_tuple" text .unbalancedParentheses)
  | some (background, rest) =>
    if rest.length % 2 = 1 then .error (.malformed "sparse_tuple" text .keyWithoutValue)
    else do
      let value ← WeightText.parse (String.ofList background)
      insertPairs (uniform value) rest

instance [BEq W] [WeightText W] : WeightText (SparseTuple W width) where
  print := print
  parse := parse

end WeightedAutomata.SparseTuple
