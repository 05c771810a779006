import WeightedAutomata.Text.Blank

namespace WeightedAutomata.Path

-- An empty part and a lone dot stay where they are, except that a dot at the front is a
-- part of its own. An absolute path begins with an empty part.
def parts (path : String) : List String :=
  (Text.pieces (· == '/') path.toList).map String.ofList

def isIdle (part : String) : Bool :=
  part == "" || part == "."

def isDash (path : String) : Bool :=
  match parts path with
  | first :: rest => first == "-" && rest.all isIdle
  | [] => false

def dropIdle (parts : List String) : List String :=
  (parts.reverse.dropWhile isIdle).reverse

def parent (path : String) : String :=
  match parts path with
  | [] => "."
  | first :: rest =>
    match dropIdle rest with
    | [] => "."
    | names => match first :: dropIdle names.dropLast with
      | [""] => "/"
      | kept => "/".intercalate kept

end WeightedAutomata.Path
