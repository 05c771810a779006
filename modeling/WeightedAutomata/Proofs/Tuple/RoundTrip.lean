import WeightedAutomata.Proofs.Tuple.Reread
import WeightedAutomata.Proofs.Weight.Flag

namespace WeightedAutomata

-- Weights whose texts stand in a tuple as they are and are read as the same weight.
class PlainTexts {W : Type} [WeightText W] (P : W → Prop) : Prop where
  plain : ∀ {weight}, P weight → SparseTuple.Plain (WeightText.print weight).toList
  parse_print : ∀ {weight}, P weight → WeightText.parse (WeightText.print weight) = .ok weight

class Readable {W : Type} [WeightText W] (P : W → Prop) : Prop where
  element : ∀ {weight}, P weight → SparseTuple.Element (WeightText.print weight).toList
  parse_print : ∀ {weight}, P weight → WeightText.parse (WeightText.print weight) = .ok weight

section Base
variable {W : Type} [WeightText W] {P : W → Prop}

instance [PlainTexts P] : Readable P where
  element member := (PlainTexts.plain member).element
  parse_print := PlainTexts.parse_print

theorem Readable.print_injective [Readable P] {a b : W} (first : P a) (second : P b)
    (same : WeightText.print a = WeightText.print b) : a = b := by
  have read : (.ok a : Except ParseError W) = .ok b :=
    calc
      _ = WeightText.parse (WeightText.print a) := (Readable.parse_print first).symm
      _ = WeightText.parse (WeightText.print b) := by rw [same]
      _ = .ok b := Readable.parse_print second
  exact Except.ok.inj read

theorem Readable.rereads [Readable P] : Rereads P id :=
  ⟨Readable.element, Readable.parse_print⟩

end Base

namespace SparseTuple
variable {W : Type} [BEq W] {P : W → Prop} {width : Width} {t : SparseTuple W width}

theorem mapValues_id (canonical : t.Canonical) : mapValues id t = t := by
  have kept : t.entries.filter (fun e => !(e.2 == t.background)) = t.entries :=
    List.filter_eq_self.mpr fun e stored => by simp [canonical.sparse e stored]
  have entries : t.entries.map (fun e => (e.1, id e.2)) = t.entries := List.map_id _
  rw [mapValues, entries]
  exact congrArg (SparseTuple.mk t.background) kept

theorem rereads_id [WeightText W] [Readable P] :
    Rereads (Over P : SparseTuple W width → Prop) (mapValues id) :=
  Readable.rereads.power

instance [WeightText W] [Readable P] : Readable (Over P : SparseTuple W width → Prop) where
  element := rereads_id.element
  parse_print := by
    intro t member
    rw [rereads_id.parse_print member, mapValues_id member.canonical]

end SparseTuple

instance : PlainTexts (fun _ : Flag => True) where
  plain := by
    rintro ⟨holds⟩ -
    cases holds <;> constructor <;> decide
  parse_print := by
    rintro ⟨holds⟩ -
    cases holds <;> rfl

namespace Nested
variable {W : Type} [Weight W] [WeightText W] {P : W → Prop}

instance readable [PlainTexts P] : (widths : List Width) → Readable (Over P widths)
  | [] => inferInstanceAs (Readable P)
  | width :: widths =>
    have := readable widths
    inferInstanceAs (Readable (SparseTuple.Over (Over P widths) :
      SparseTuple (Nested W widths) width → Prop))

-- Whatever the tuples store at whatever depth, their texts are read back and tell them
-- apart.
theorem parse_print_nested [PlainTexts P] (widths : List Width) {t : Nested W widths}
    (member : Over P widths t) :
    WeightText.parse (WeightText.print t) = .ok t ∧
      ∀ u, Over P widths u → u ≠ t → WeightText.print u ≠ WeightText.print t :=
  ⟨Readable.parse_print member, fun _ other different same =>
    different (Readable.print_injective other member same)⟩

def flagged : Nested Flag [.bits64, .bits16, .bits8] :=
  let single : SparseTuple Flag .bits8 := ⟨⟨true⟩, [(⟨3, by decide, by decide⟩, ⟨false⟩)]⟩
  let none : SparseTuple Flag .bits8 := .uniform ⟨false⟩
  let background : SparseTuple (SparseTuple Flag .bits8) .bits16 := .uniform single
  (⟨background, [(⟨-5, by decide, by decide⟩, .uniform none)]⟩ :
    SparseTuple (SparseTuple (SparseTuple Flag .bits8) .bits16) .bits64)

theorem flagged_parse_print :
    PlainTexts (fun _ : Flag => True) ∧
      Over (fun _ : Flag => True) [.bits64, .bits16, .bits8] flagged ∧
      WeightText.print flagged = "((T,3,F)),-5,F" ∧
      WeightText.parse "((T,3,F)),-5,F" = .ok flagged ∧
      ∀ u, Over (fun _ : Flag => True) [.bits64, .bits16, .bits8] u → u ≠ flagged →
        WeightText.print u ≠ "((T,3,F)),-5,F" := by
  have texts : PlainTexts (fun _ : Flag => True) := inferInstance
  have member : Over (fun _ : Flag => True) [.bits64, .bits16, .bits8] flagged := by decide
  have printed : WeightText.print flagged = "((T,3,F)),-5,F" := by decide
  refine ⟨texts, member, printed, ?_⟩
  rw [← printed]
  exact parse_print_nested [.bits64, .bits16, .bits8] member

end Nested
end WeightedAutomata
