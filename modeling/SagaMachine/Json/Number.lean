import SagaMachine.Binary64.Shortest

/-!
# Numbers of JSON

A JSON number is an integer or a binary64 number, and the two kinds never compare
equal: `1` is not `1.0`. Integers are those written without a fraction or an exponent
that fit the 64-bit ranges `Number.minInt` to `Number.maxInt`; every other number is
kept as binary64, also an integer outside those ranges.
-/

namespace SagaMachine

/-- A number of a JSON text. -/
inductive Number where
  | int (n : Int)
  | real (x : Binary64)
deriving DecidableEq, Repr

namespace Number

/-- The least integer that is kept as an integer. -/
def minInt : Int := -9223372036854775808

/-- The greatest integer that is kept as an integer. -/
def maxInt : Int := 18446744073709551615

/-- The greatest integer that counts as a signed one. -/
def maxSigned : Int := 9223372036854775807

/-- The number as a signed 64-bit integer. -/
def toSigned? : Number → Option Int
  | int n => if minInt ≤ n ∧ n ≤ maxSigned then some n else none
  | real _ => none

/-- Equality of numbers; the kinds are never mixed. -/
def sameAs : Number → Number → Bool
  | int a, int b => a == b
  | real a, real b => a.sameAs b
  | _, _ => false

/-- The text of a number. -/
def toText : Number → String
  | int n => toString n
  | real x => x.toText

end Number

end SagaMachine
