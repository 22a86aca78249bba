/-!
# Decimals

Decimal fractions and their texts. `Decimal.toText` writes a decimal positionally
near the point and with a signed exponent away from it.
-/

namespace SagaMachine

/-- The decimal fraction `digits * 10 ^ exponent`, negated if `negative`. -/
structure Decimal where
  negative : Bool
  digits : Nat
  exponent : Int
deriving DecidableEq, Repr

namespace Decimal

/-- Drop trailing zeros of the digits, at most `fuel` of them. -/
def stripZeros : Nat → Nat → Int → Nat × Int
  | 0, digits, exponent => (digits, exponent)
  | fuel + 1, digits, exponent =>
    if digits ≠ 0 ∧ digits % 10 = 0 then stripZeros fuel (digits / 10) (exponent + 1)
    else (digits, exponent)

/-- The one representation of a decimal without trailing zeros; zero has exponent 0. -/
def normalize (d : Decimal) : Decimal :=
  if d.digits = 0 then ⟨d.negative, 0, 0⟩
  else
    let s := stripZeros (Nat.log2 d.digits + 1) d.digits d.exponent
    ⟨d.negative, s.1, s.2⟩

/-- An exponent with its sign. -/
def exponentText (n : Int) : String :=
  if n < 0 then toString n else "+" ++ toString n

/--
The text of a decimal: positional while the point stands within sixteen places
after the first digit or five zeros before it, with an exponent beyond that.
-/
def toText (d : Decimal) : String :=
  let digits := toString d.digits
  let length : Int := digits.length
  let point := length + d.exponent
  let body :=
    if d.digits = 0 then "0.0"
    else if 0 ≤ d.exponent ∧ point ≤ 16 then
      digits ++ String.ofList (List.replicate d.exponent.toNat '0') ++ ".0"
    else if 0 < point ∧ point ≤ 16 then
      String.ofList (digits.toList.take point.toNat) ++ "." ++
        String.ofList (digits.toList.drop point.toNat)
    else if -5 < point ∧ point ≤ 0 then
      "0." ++ String.ofList (List.replicate (-point).toNat '0') ++ digits
    else
      let lead := String.ofList (digits.toList.take 1)
      let rest := String.ofList (digits.toList.drop 1)
      let mantissa := if rest.isEmpty then lead else lead ++ "." ++ rest
      mantissa ++ "e" ++ exponentText (point - 1)
  if d.negative then "-" ++ body else body

end Decimal

end SagaMachine
