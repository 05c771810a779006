import WeightedAutomata.Proofs.Automaton.Line

namespace WeightedAutomata

structure Flag where
  holds : Bool
deriving DecidableEq

namespace Flag

instance : Weight Flag where
  zero := ⟨false⟩
  one := ⟨true⟩
  noWeight := ⟨false⟩
  plus a b := ⟨a.holds || b.holds⟩
  times a b := ⟨a.holds && b.holds⟩
  divide _ a _ := a
  isMember _ := true
  properties := Properties.semiring
  typeName := "flag"

instance : WeightText Flag where
  print a := if a.holds then "T" else "F"
  parse text :=
    if text = "T" then .ok ⟨true⟩ else if text = "F" then .ok ⟨false⟩
    else .error (.invalid "flag" text)

instance : Weight.Tested (fun _ : Flag => True) where
  isZero_iff _ := beq_iff_eq
  isOne_iff _ := beq_iff_eq

end Flag

instance : Spelled Flag where
  column weight := by
    rcases weight with ⟨holds⟩
    cases holds <;> simp [Text.Column, WeightText.print, Text.isBlank]
  parse_print weight := by
    rcases weight with ⟨holds⟩
    cases holds <;> rfl

end WeightedAutomata
