namespace WeightedAutomata.Text

-- The Unicode property White_Space.
def isBlank (c : Char) : Bool :=
  let code := c.toNat
  (9 ≤ code && code ≤ 13) || code == 0x20 || code == 0x85 || code == 0xa0 || code == 0x1680 ||
    (0x2000 ≤ code && code ≤ 0x200a) || code == 0x2028 || code == 0x2029 || code == 0x202f ||
    code == 0x205f || code == 0x3000

def pieces {α : Type} (cut : α → Bool) (xs : List α) : List (List α) :=
  let put x := fun (piece, others) =>
    if cut x then ([], piece :: others) else (x :: piece, others)
  let (first, rest) := xs.foldr put ([], [])
  first :: rest

@[simp] theorem pieces_nil {α : Type} (cut : α → Bool) : pieces cut [] = [[]] := rfl

theorem pieces_cons_cut {α : Type} {cut : α → Bool} (x : α) (xs : List α) (h : cut x = true) :
    pieces cut (x :: xs) = [] :: pieces cut xs := by
  simp [pieces, h]

theorem pieces_cons_keep {α : Type} {cut : α → Bool} (x : α) (xs : List α) (h : cut x = false) :
    pieces cut (x :: xs) =
      (x :: (pieces cut xs).head (by simp [pieces])) :: (pieces cut xs).tail := by
  simp [pieces, h]

def trim (text : List Char) : List Char :=
  ((text.dropWhile isBlank).reverse.dropWhile isBlank).reverse

def columns (text : List Char) : List (List Char) :=
  (pieces isBlank text).filter fun column => !column.isEmpty

end WeightedAutomata.Text
