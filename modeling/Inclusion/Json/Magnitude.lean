/-!
# Which numbers a double can hold

A number is read as a whole number of at most 64 bits and a power of ten. Both are rounded to
doubles and multiplied; the number is out of range when the product is.

* `nearestDouble_of_lt`: small numbers are doubles as they stand.
* `fits_zero`: zero fits whatever its power.
-/
namespace Inclusion.Json

/-- The natural number with at most 53 significant bits that is nearest to `n`; of two such the one
with the even last bit. -/
def nearestDouble (n : Nat) : Nat :=
  if n < 1 <<< 53 then n
  else
    let unit := 1 <<< (n.log2 - 52)
    let low := n / unit
    let rest := n % unit
    let roundUp := unit < 2 * rest || (2 * rest == unit && low % 2 == 1)
    (if roundUp then low + 1 else low) * unit

/-- The least number that rounds to no finite double. -/
def doubleLimit : Nat := 1 <<< 1024 - 1 <<< 970

/-- The digits of a number as they are taken up: those that fit 64 bits make the whole number, the
place of the others goes into the power of ten. -/
structure Decimal where
  digits : Nat := 0
  power : Int := 0
  full : Bool := false

/-- Takes up a digit before the point. -/
def Decimal.whole (d : Decimal) (digit : Nat) : Decimal :=
  if d.full || 1 <<< 64 ≤ d.digits * 10 + digit then { d with power := d.power + 1, full := true }
  else { d with digits := d.digits * 10 + digit }

/-- Takes up a digit after the point. -/
def Decimal.fraction (d : Decimal) (digit : Nat) : Decimal :=
  if d.full || 1 <<< 64 ≤ d.digits * 10 + digit then { d with full := true }
  else { d with digits := d.digits * 10 + digit, power := d.power - 1 }

/-- The decimal with a further power of ten. -/
def Decimal.scale (d : Decimal) (power : Int) : Decimal := { d with power := d.power + power }

/-- Whether the value is a finite double. -/
def Decimal.fits (d : Decimal) : Bool :=
  d.digits == 0 || d.power < 0
    || (d.power ≤ 308
      && nearestDouble d.digits * nearestDouble (Nat.pow 10 d.power.toNat) < doubleLimit)

theorem nearestDouble_of_lt {n : Nat} (h : n < 1 <<< 53) : nearestDouble n = n := if_pos h

theorem fits_zero (power : Int) (full : Bool) : (Decimal.mk 0 power full).fits = true := rfl

end Inclusion.Json
