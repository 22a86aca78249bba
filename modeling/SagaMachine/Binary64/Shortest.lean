import SagaMachine.Binary64.Basic
import SagaMachine.Decimal

/-!
# Shortest decimals

The decimal with the fewest digits that rounds to a given binary64 number, and of
several such the one closest to the number (`Binary64.toDecimal`). The search goes from
the power of ten of the leading digit downwards; on each power it tries the two
neighbours of the number among the multiples of that power.
-/

namespace SagaMachine.Binary64

/-- Whether the number with these units is the one nearest to `digits * 10 ^ exponent`. -/
def readsBack (units digits : Nat) (exponent : Int) : Bool :=
  nearest (digits * Nat.pow 10 exponent.toNat * one) (Nat.pow 10 (-exponent).toNat) == units

/-- The two neighbours of a quotient among the natural numbers, the closer one first. -/
def neighbours (num den : Nat) : List Nat :=
  let low := num / den
  if roundDiv num den = low then [low, low + 1] else [low + 1, low]

/-- The multiples of `10 ^ exponent` on both sides of the number, the closer one first. -/
def candidates (units : Nat) (exponent : Int) : List Nat :=
  neighbours (units * Nat.pow 10 (-exponent).toNat) (one * Nat.pow 10 exponent.toNat)

/-- The power of ten of the leading digit. -/
def leadingExponent (units : Nat) : Int :=
  if one ≤ units then ((Nat.toDigits 10 (units / one)).length : Int) - 1
  else -((Nat.toDigits 10 ((one - 1) / units)).length : Int)

/--
The first decimal that reads back, on `10 ^ exponent` or on one of the next `fuel`
finer powers; on the finest power the closest decimal is taken unseen.
-/
def search (units : Nat) : Nat → Int → Nat × Int
  | 0, exponent => ((candidates units exponent).headD 0, exponent)
  | fuel + 1, exponent =>
    match (candidates units exponent).find? (readsBack units · exponent) with
    | some digits => (digits, exponent)
    | none => search units fuel (exponent - 1)

/-- The shortest decimal that rounds to the number; seventeen digits are always enough. -/
def toDecimal (x : Binary64) : Decimal :=
  if x.units = 0 then ⟨x.negative, 0, 0⟩
  else
    let found := search x.units 16 (leadingExponent x.units)
    Decimal.normalize ⟨x.negative, found.1, found.2⟩

/-- The text of a number. -/
def toText (x : Binary64) : String := x.toDecimal.toText

end SagaMachine.Binary64
