/-!
# Binary64 numbers

The finite numbers of the 64-bit binary floating-point format. Each of them is an
integer multiple of the least positive one, `2 ^ -1074`, and is kept as that multiple,
so a number has one representation and equality is equality of the fields. The
multiples with at most 53 significant bits are the ones the format has; `nearest`
rounds an exact quotient to them, and products and quotients are rounded once each.

A decimal text is read by `ofScaled?` in up to three roundings: of its significand, of
the power of ten, and of their product or quotient. The result can therefore be a
neighbour of the number closest to the text.
-/

namespace SagaMachine

/-- The number `units * 2 ^ -1074`, negated if `negative`. -/
structure Binary64 where
  negative : Bool
  units : Nat
deriving DecidableEq, Repr

namespace Binary64

/-! ## Rounding -/

/-- The quotient rounded to the nearest natural number, a half to the even one. -/
def roundDiv (num den : Nat) : Nat :=
  let low := num / den
  let rest := num % den
  if 2 * rest < den then low
  else if den < 2 * rest then low + 1
  else low + low % 2

/-- The multiple nearest to a quotient among those with at most 53 significant bits. -/
def nearest (num den : Nat) : Nat :=
  let grid := Nat.pow 2 (Nat.log2 (num / den) - 52)
  roundDiv num (den * grid) * grid

/-- The units of the number one. -/
def one : Nat := Nat.pow 2 1074

/-- The units of the first power of two beyond the finite numbers. -/
def limit : Nat := Nat.pow 2 2098

/-! ## Arithmetic on units -/

/-- The units of a natural number. -/
def ofNat (n : Nat) : Nat := nearest (n * one) 1

/-- The units of a product. -/
def product (a b : Nat) : Nat := nearest (a * b) one

/-- The units of a quotient. -/
def quotient (a b : Nat) : Nat := nearest (a * one) b

/-! ## Reading a decimal -/

/-- The greatest power of ten that is finite. -/
def mostTens : Nat := 308

/-- The units of a power of ten. -/
def tens (n : Nat) : Nat := ofNat (Nat.pow 10 n)

/-- Move the decimal point to the left, at most `mostTens` places in a step. -/
def shrink (units places : Nat) : Nat :=
  if places ≤ mostTens then quotient units (tens places)
  else if units = 0 then 0
  else shrink (quotient units (tens mostTens)) (places - mostTens)
termination_by places
decreasing_by simp only [mostTens] at *; omega

/-- The number written as `significand * 10 ^ exponent`, if it is finite. -/
def ofScaled? (negative : Bool) (significand : Nat) (exponent : Int) : Option Binary64 :=
  let units := ofNat significand
  if units = 0 then some ⟨negative, 0⟩
  else if exponent < 0 then some ⟨negative, shrink units exponent.natAbs⟩
  else if (mostTens : Int) < exponent then none
  else
    let scaled := product units (tens exponent.natAbs)
    if scaled < limit then some ⟨negative, scaled⟩ else none

/-! ## Comparison -/

/-- The two zeros are the same number. -/
def sameAs (a b : Binary64) : Bool :=
  (a.units == 0 && b.units == 0) || a == b

end Binary64

end SagaMachine
