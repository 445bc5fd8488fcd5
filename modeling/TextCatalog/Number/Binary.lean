/-!
# Binary floating-point numbers

A double-precision number is kept as the integer mantissa and the binary exponent that it stands
for. Reading a decimal goes to the nearest such number in exact integer arithmetic, a tie to the
even mantissa.
-/

namespace TextCatalog

/-- A double-precision number. `finite negative m e` stands for `±m · 2^e`. -/
inductive Binary64 where
  | finite (negative : Bool) (m : Nat) (e : Int)
  | infinite (negative : Bool)
  | nan
  deriving DecidableEq, Repr

namespace Binary64

def minExponent : Int := -1074

def maxExponent : Int := 971

/-- The integer nearest to `n / d`; of two, the even one. -/
def nearestQuotient (n d : Nat) : Nat :=
  let q := n / d
  let r := n % d
  if d < 2 * r ∨ (2 * r = d ∧ q % 2 = 1) then q + 1 else q

/-- Numerator and denominator of `n / d / b^e`. -/
def unscale (b n d : Nat) (e : Int) : Nat × Nat :=
  if 0 ≤ e then (n, d * Nat.pow b e.toNat) else (n * Nat.pow b (-e).toNat, d)

/-- The mantissa and exponent nearest to `n / d`, if it is in range. -/
def nearest? (n d : Nat) : Option (Nat × Int) :=
  if n = 0 then some (0, minExponent)
  else
    let guess := max ((n.log2 : Int) - d.log2 - 52) minExponent
    let (n₁, d₁) := unscale 2 n d guess
    let e := if n₁ < d₁ * Nat.pow 2 52 ∧ minExponent < guess then guess - 1 else guess
    let (n₂, d₂) := unscale 2 n d e
    let m := nearestQuotient n₂ d₂
    let (m, e) := if m = Nat.pow 2 53 then (Nat.pow 2 52, e + 1) else (m, e)
    if maxExponent < e then none else some (m, e)

/-- How many decimal digits `n` has; zero has one. -/
def digitCount (n : Nat) : Nat :=
  (Nat.toDigits 10 n).length

/-- The number nearest to `±digits · 10^e`. Far outside the range the answer is known without
computing the power. -/
def ofDecimal (negative : Bool) (digits : Nat) (e : Int) : Binary64 :=
  let size := (digitCount digits : Int) + e
  if digits = 0 ∨ size < -400 then finite negative 0 minExponent
  else if 400 < size then infinite negative
  else
    let (n, d) := unscale 10 digits 1 (-e)
    match nearest? n d with
    | some (m, e) => finite negative m e
    | none => infinite negative

end Binary64

end TextCatalog
