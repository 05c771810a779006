import WeightedAutomata.Number.Exponential
import WeightedAutomata.Proofs.Refusal
import WeightedAutomata.Proofs.Tuple.Reread
import WeightedAutomata.Weight.Log

namespace WeightedAutomata
open Weight

-- The last character of a power's name. No two widths share it.
def Width.mark : Width → Char
  | bits8 => '8'
  | bits16 => '6'
  | bits32 => 'n'
  | bits64 => '4'

theorem Width.mark_injective {v w : Width} (same : v.mark = w.mark) : v = w := by
  cases v <;> cases w <;> simp_all [mark]

-- A name that does not end as a power's does.
def Unmarked (name : String) : Prop :=
  ∀ width : Width, name.toList.getLast? ≠ some width.mark

namespace Nested
variable {W V : Type} [Weight W] [Weight V] {v w : List Width}

theorem typeName_power (W : Type) [Weight W] (width : Width) (widths : List Width) :
    typeName (Nested W (width :: widths)) =
      typeName (Nested W widths) ++ ("_^n" ++ width.suffix) :=
  String.append_assoc

example : typeName (Nested (Tropical Binary64) [.bits16, .bits32]) = "tropical_^n_^n_16" := by
  decide

theorem getLast?_typeName (W : Type) [Weight W] (width : Width) (widths : List Width) :
    (typeName (Nested W (width :: widths))).toList.getLast? = some width.mark := by
  rw [typeName_power]
  cases width <;> simp [Width.suffix, Width.mark]

-- From its beginning a name reads in several ways for a while, as the 32-bit suffix begins
-- every other one. From its end each character tells the outermost width that is left.
theorem typeName_inj (leftBase : Unmarked (typeName W)) (rightBase : Unmarked (typeName V))
    (same : typeName (Nested W v) = typeName (Nested V w)) : typeName W = typeName V ∧ v = w := by
  induction v generalizing w with
  | nil =>
    cases w with
    | nil => exact ⟨same, rfl⟩
    | cons other others =>
      have last := getLast?_typeName V other others
      rw [← same] at last
      exact absurd last (leftBase other)
  | cons width widths ih =>
    have last := getLast?_typeName W width widths
    rw [same] at last
    cases w with
    | nil => exact absurd last (rightBase width)
    | cons other others =>
      rw [getLast?_typeName] at last
      obtain rfl : other = width := Width.mark_injective (Option.some.inj last)
      rw [typeName_power, typeName_power, String.append_left_inj] at same
      obtain ⟨base, rfl⟩ := ih same
      exact ⟨base, rfl⟩

end Nested

inductive Scalar where
  | tropical
  | log
deriving DecidableEq

namespace Scalar

def Carrier : Scalar → Type
  | tropical => Tropical Binary64
  | log => Log Binary64

instance weight : (s : Scalar) → Weight s.Carrier
  | tropical => inferInstanceAs (Weight (Tropical Binary64))
  | log => inferInstanceAs (Weight (Log Binary64))

instance text : (s : Scalar) → WeightText s.Carrier
  | tropical => inferInstanceAs (WeightText (Tropical Binary64))
  | log => inferInstanceAs (WeightText (Log Binary64))

theorem unmarked (s : Scalar) : Unmarked (typeName s.Carrier) := by
  intro width
  cases s <;> cases width <;> decide

theorem typeName_injective {s t : Scalar} (same : typeName s.Carrier = typeName t.Carrier) :
    s = t := by
  have different : typeName tropical.Carrier ≠ typeName log.Carrier := by decide
  cases s <;> cases t
  · rfl
  · exact absurd same different
  · exact absurd same.symm different
  · rfl

end Scalar

structure Construction where
  scalar : Scalar
  widths : List Width
deriving DecidableEq

namespace Construction
variable {c d : Construction} {requested file : String} {content : ByteArray}

abbrev Carrier (c : Construction) : Type :=
  Nested c.scalar.Carrier c.widths

def name (c : Construction) : String :=
  typeName c.Carrier

theorem name_inj : c.name = d.name ↔ c = d := by
  constructor
  · intro same
    obtain ⟨base, widths⟩ := Nested.typeName_inj c.scalar.unmarked d.scalar.unmarked same
    cases c
    cases d
    cases Scalar.typeName_injective base
    cases widths
    rfl
  · rintro rfl
    rfl

def readPotentials (c : Construction) (requested file : String) (content : ByteArray) :
    Except ReadError (Array c.Carrier) :=
  Potential.read requested file content

def Accepts (c : Construction) (requested file : String) (content : ByteArray) : Prop :=
  ∀ name other actual,
    c.readPotentials requested file content ≠ .error (.weightTypeMismatch name other actual)

-- What goes wrong later is about a line.
theorem accepts_name (c : Construction) (file : String) (content : ByteArray) :
    c.Accepts c.name file content := by
  intro name other actual refused
  obtain ⟨_, _, _, defect, -, -, -, impossible⟩ := LineFile.read_error Potential.read_lines
    (fun _ _ _ => Potential.Entry.ofColumns_eq_error_iff) refused
  cases defect <;> cases impossible

theorem read_misnamed (other : requested ≠ c.name) : c.readPotentials requested file content =
    .error (.weightTypeMismatch file requested c.name) :=
  if_pos other

theorem accepts_iff : c.Accepts requested file content ↔ requested = c.name := by
  constructor
  · intro accepts
    exact Decidable.of_not_not fun other => accepts _ _ _ (read_misnamed other)
  · rintro rfl
    exact c.accepts_name file content

theorem refused_iff : c.readPotentials requested file content =
    .error (.weightTypeMismatch file requested c.name) ↔ requested ≠ c.name := by
  constructor
  · rintro refused rfl
    exact c.accepts_name file content _ _ _ refused
  · exact read_misnamed

theorem name_identifies (c d : Construction) (requested file : String) (content : ByteArray) :
    (c.name = d.name ↔ c = d) ∧
      (c.Accepts requested file content ↔ requested = c.name) ∧
      (c.Accepts requested file content ∧ requested = d.name ↔ requested = c.name ∧ c = d) ∧
      (c.readPotentials requested file content =
        .error (.weightTypeMismatch file requested c.name) ↔ requested ≠ c.name) := by
  refine ⟨name_inj, accepts_iff, ?_, refused_iff⟩
  rw [accepts_iff]
  constructor
  · rintro ⟨rfl, same⟩
    exact ⟨rfl, name_inj.mp same⟩
  · rintro ⟨rfl, rfl⟩
    exact ⟨rfl, rfl⟩

end Construction
end WeightedAutomata
