import Nocter.Library.TwosComplement

/-!
# Integer operations of the language

The result of an operation on integers of one type and the cases in which it traps. Results
are integers of the type.
-/

namespace Nocter.Arm64

open TwosComplement

inductive IntegerOperation where
  | add
  | subtract
  | multiply
  | divide
  | remainder
  | shiftLeft
  | shiftRight
  deriving DecidableEq

def exactly (bits : ℕ) (signed : Bool) (v : ℤ) : Option ℤ := if InRange bits signed v then some v else none

/-- Minimum by minus one is an overflow of the division family. -/
def DivisionFits (bits : ℕ) (signed : Bool) (a b : ℤ) : Prop :=
  b ≠ 0 ∧ ¬ (signed = true ∧ a = minimum bits true ∧ b = -1)

instance (bits : ℕ) (signed : Bool) (a b : ℤ) : Decidable (DivisionFits bits signed a b) :=
  inferInstanceAs (Decidable (_ ∧ _))

/-- The counts that a shift of so many bits allows. -/
def CountFits (bits : ℕ) (b : ℤ) : Prop := 0 ≤ b ∧ b < bits

instance (bits : ℕ) (b : ℤ) : Decidable (CountFits bits b) := inferInstanceAs (Decidable (_ ∧ _))

/-- The result of an operation where it does not trap. -/
def evaluate (bits : ℕ) (signed : Bool) (operation : IntegerOperation) (a b : ℤ) : Option ℤ :=
  match operation with
  | .add => exactly bits signed (a + b)
  | .subtract => exactly bits signed (a - b)
  | .multiply => exactly bits signed (a * b)
  | .divide => if DivisionFits bits signed a b then some (a.tdiv b) else none
  | .remainder => if DivisionFits bits signed a b then some (a.tmod b) else none
  | .shiftLeft => if CountFits bits b then some (wrap bits signed (a * 2 ^ b.toNat)) else none
  | .shiftRight => if CountFits bits b then some (a / 2 ^ b.toNat) else none

end Nocter.Arm64
