import TextCatalog.Number.Binary
/-!
# Shortest decimals

The decimal with the fewest digits among those that read back as a given double-precision number,
and among these the one nearest to it. The search is by number of digits: for each one, only the two
neighbours of the number on the decimal grid can be the answer.
-/

namespace TextCatalog.Binary64

structure Decimal where
  digits : Nat
  exponent : Int
  deriving DecidableEq, Repr

/-- The exponent `k` with `10^k ≤ n / d < 10^(k+1)`, for positive `n` and `d`. -/
def decimalExponent (n d : Nat) : Int :=
  let k := (digitCount n : Int) - digitCount d
  let (n₁, d₁) := unscale 10 n d k
  if d₁ ≤ n₁ then k else k - 1

/-- The fewest digits that always read back. -/
def maxDigits : Nat := 17

/-- The shortest decimal that reads back as `m · 2^e`, for positive `m`. In units of a quarter of the
last place the number is `4 m`, and what rounds to it reaches from 2 below (1 below at a power of
two) to 2 above; the ends count when `m` is even. -/
def shortest (m : Nat) (e : Int) : Decimal :=
  let below := if m = Nat.pow 2 52 ∧ minExponent < e then 1 else 2
  let fits (c : Nat) (k : Int) : Bool :=
    -- `c · 10^k` against `q · 2^(e - 2)`, cross-multiplied
    let (cn, cd) := unscale 10 c 1 (-k)
    let (qn, qd) := unscale 2 1 1 (2 - e)
    let point := cn * qd
    let unit := qn * cd
    if m % 2 = 0 then (4 * m - below) * unit ≤ point && point ≤ (4 * m + 2) * unit
    else (4 * m - below) * unit < point && point < (4 * m + 2) * unit
  let (n, d) := unscale 2 m 1 (-e)
  let top := decimalExponent n d
  let rec search : Nat → Decimal
    | 0 => ⟨0, 0⟩
    | left + 1 =>
      let k := top - (maxDigits - (left + 1))
      let (n₁, d₁) := unscale 10 n d k
      let low := n₁ / d₁
      let r := n₁ % d₁
      let lowFits := fits low k
      let highFits := fits (low + 1) k
      if lowFits && highFits then
        if 2 * r < d₁ ∨ (2 * r = d₁ ∧ low % 2 = 0) then ⟨low, k⟩ else ⟨low + 1, k⟩
      else if lowFits then ⟨low, k⟩
      else if highFits then ⟨low + 1, k⟩
      else search left
  search maxDigits

/-- The digits of a decimal without trailing zeros, and the exponent of its first digit. -/
def Decimal.normal (x : Decimal) : List Char × Int :=
  let digits := Nat.toDigits 10 x.digits
  let kept := (digits.reverse.dropWhile (· == '0')).reverse
  (if kept.isEmpty then ['0'] else kept, x.exponent + digits.length - 1)

/-- Digits with a point after place `first` of the number, padded with zeros; a whole number ends in
`.0` if `point` asks for it. -/
def positional (digits : List Char) (first : Int) (point : Bool) : List Char :=
  if first < 0 then
    '0' :: '.' :: List.replicate (-first - 1).toNat '0' ++ digits
  else
    let whole := first.toNat + 1
    if whole < digits.length then digits.take whole ++ '.' :: digits.drop whole
    else digits ++ List.replicate (whole - digits.length) '0' ++ (if point then ['.', '0'] else [])

/-- One digit before the point, the others after it, and the exponent after an `e`, with a sign
always written when `plus` asks for it. -/
def scientific (digits : List Char) (first : Int) (plus : Bool) : List Char :=
  let fraction := digits.drop 1
  digits.take 1 ++ (if fraction.isEmpty then [] else '.' :: fraction) ++ ['e'] ++
    (if first < 0 then ['-'] else if plus then ['+'] else []) ++ Nat.toDigits 10 first.natAbs

/-- Digits and first place of a finite number; zero has one digit. -/
def shortestDigits (m : Nat) (e : Int) : List Char × Int :=
  if m = 0 then (['0'], 0) else (shortest m e).normal

/-- The places that data writes out: a number whose first digit stands in one of them is written
positionally, any other with an exponent. -/
def isPlainPlace (first : Int) : Bool :=
  -5 ≤ first && first ≤ 15

/-- A finite number as data: the fewest digits that read back, with a point or an exponent. -/
def dataText : Binary64 → String
  | finite negative m e =>
    let (digits, first) := shortestDigits m e
    let body :=
      if isPlainPlace first then positional digits first true else scientific digits first true
    String.ofList (if negative then '-' :: body else body)
  | _ => "null"

/-- A number in a message: the fewest digits that read back, always written out. -/
def messageText : Binary64 → String
  | finite negative m e =>
    let (digits, first) := shortestDigits m e
    let body := positional digits first true
    String.ofList (if negative then '-' :: body else body)
  | infinite true => "-inf"
  | infinite false => "inf"
  | nan => "NaN"

example : dataText (ofDecimal false 1 3) = "1000.0" := by decide +kernel
example : dataText (ofDecimal false 1 (-7)) = "1e-7" := by decide +kernel
example : dataText (ofDecimal true 0 0) = "-0.0" := by decide +kernel
example : dataText (ofDecimal false 18446744073709551616 0) = "1.8446744073709552e+19" := by
  decide +kernel
example : dataText (ofDecimal false 3 (-1)) = "0.3" := by decide +kernel
example : dataText (ofDecimal false 5 (-324)) = "5e-324" := by decide +kernel

end TextCatalog.Binary64
