import TextCatalog.Text.Basic
import TextCatalog.Toml.Basic
import TextCatalog.Json.Parse
/-!
# TOML numbers and moments

The values that are written without quotes or brackets: booleans, integers, floating-point numbers,
dates and times. How great a number may be is left to those who use it.
-/

namespace TextCatalog.Toml

/-- The digits of a number, of the class `isDigit`, without the single underscores that may stand
between two of them. -/
def digits? (isDigit : Char → Bool) : List Char → Option (List Char)
  | [] => none
  | [c] => if isDigit c then some [c] else none
  | c :: '_' :: rest => if isDigit c then (digits? isDigit rest).map (c :: ·) else none
  | c :: rest => if isDigit c then (digits? isDigit rest).map (c :: ·) else none

/-- The digits of a decimal number that starts with a zero only if it is zero. -/
def wholeDigits? (cs : List Char) : Option (List Char) := do
  let digits ← digits? Char.isDigit cs
  if digits.head? = some '0' ∧ digits.length ≠ 1 then none
  return digits

def natOfBase (base : Nat) (digits : List Char) : Nat :=
  digits.foldl (fun n c => n * base + (Json.hexValue? c).getD 0) 0

/-- The input without a sign at its start, and whether the sign is a minus. -/
def cutSign : List Char → Bool × List Char
  | '+' :: rest => (false, rest)
  | '-' :: rest => (true, rest)
  | cs => (false, cs)

def integer? : List Char → Option Int
  | '0' :: 'x' :: rest =>
    (digits? (fun c => (Json.hexValue? c).isSome) rest).map fun ds => natOfBase 16 ds
  | '0' :: 'o' :: rest => (digits? (fun c => '0' ≤ c && c ≤ '7') rest).map fun ds => natOfBase 8 ds
  | '0' :: 'b' :: rest => (digits? (fun c => c == '0' || c == '1') rest).map fun ds => natOfBase 2 ds
  | cs =>
    let (negative, rest) := cutSign cs
    (wholeDigits? rest).map fun ds =>
      let n : Int := natOfBase 10 ds
      if negative then -n else n

/-- The parts of a number before and after its first `e` or `E`. -/
def cutExponent (cs : List Char) : List Char × Option (List Char) :=
  let mantissa := cs.takeWhile fun c => c != 'e' && c != 'E'
  (mantissa, if mantissa.length < cs.length then some (cs.drop (mantissa.length + 1)) else none)

def float? (cs : List Char) : Option Value := do
  let (negative, rest) := cutSign cs
  if rest = ['i', 'n', 'f'] then return .float (.infinite negative)
  if rest = ['n', 'a', 'n'] then return .float .nan
  let (mantissa, exponent) := cutExponent rest
  let (whole, fraction) := match Text.cutAt? '.' mantissa with
    | some (whole, fraction) => (whole, some fraction)
    | none => (mantissa, none)
  if exponent.isNone ∧ fraction.isNone then none
  let whole ← wholeDigits? whole
  let fraction ← match fraction with
    | some cs => digits? Char.isDigit cs
    | none => some []
  let power : Int ← match exponent with
    | some cs => do
      let (negative, rest) := cutSign cs
      let n : Int := natOfBase 10 (← digits? Char.isDigit rest)
      some (if negative then -n else n)
    | none => some 0
  match Binary64.ofDecimal negative (natOfBase 10 (whole ++ fraction)) (power - fraction.length) with
  | .infinite _ => return .overflow
  | x => return .float x

/-- The number written by two decimal digits, if it is at most `limit`. -/
def pair? (limit : Nat) (a b : Char) : Option Nat :=
  let n := natOfBase 10 [a, b]
  if a.isDigit ∧ b.isDigit ∧ n ≤ limit then some n else none

def daysIn (year month : Nat) : Nat :=
  if month = 2 then
    if year % 4 = 0 ∧ (year % 100 ≠ 0 ∨ year % 400 = 0) then 29 else 28
  else if month = 4 ∨ month = 6 ∨ month = 9 ∨ month = 11 then 30
  else 31

def isDate : List Char → Bool
  | [a, b, c, d, '-', e, f, '-', g, h] =>
    match pair? 99 a b, pair? 99 c d, pair? 12 e f, pair? 31 g h with
    | some century, some year, some month, some day =>
      1 ≤ month && 1 ≤ day && day ≤ daysIn (century * 100 + year) month
    | _, _, _, _ => false
  | _ => false

/-- Whether the input is a time of day. The seconds may be missing, and may have a fraction. -/
def isTime : List Char → Bool
  | a :: b :: ':' :: c :: d :: rest =>
    (pair? 23 a b).isSome && (pair? 59 c d).isSome &&
      match rest with
      | [] => true
      | ':' :: e :: f :: rest =>
        (pair? 60 e f).isSome &&
          match rest with
          | [] => true
          | '.' :: fraction => !fraction.isEmpty && fraction.all Char.isDigit
          | _ => false
      | _ => false
  | _ => false

/-- Whether the input is empty or the offset of a time from the universal one. -/
def isOffset : List Char → Bool
  | [] | ['Z'] | ['z'] => true
  | [sign, a, b, ':', c, d] =>
    (sign == '+' || sign == '-') && (pair? 23 a b).isSome && (pair? 59 c d).isSome
  | _ => false

/-- Whether a character ends a time of day and starts an offset. -/
def startsOffset (c : Char) : Bool :=
  c == 'Z' || c == 'z' || c == '+' || c == '-'

/-- Whether the input is a date, a time of day, or a date and a time with or without an offset. -/
def isMoment (cs : List Char) : Bool :=
  isDate cs || isTime cs ||
    isDate (cs.take 10) &&
      match cs.drop 10 with
      | c :: rest =>
        (c == 'T' || c == 't' || c == ' ') && isTime (rest.takeWhile fun c => !startsOffset c) &&
          isOffset (rest.dropWhile fun c => !startsOffset c)
      | [] => false

def isScalarChar (c : Char) : Bool :=
  c.isAlphanum || c == '_' || c == '+' || c == '-' || c == '.' || c == ':'

/-- The characters of a value without quotes or brackets, and what follows it. One blank may stand
between a date and a time. -/
def cutScalar (cs : List Char) : List Char × List Char :=
  let lead := cs.takeWhile isScalarChar
  let rest := cs.dropWhile isScalarChar
  match rest with
  | ' ' :: c :: tail =>
    if isDate lead ∧ c.isDigit then
      (lead ++ ' ' :: (c :: tail).takeWhile isScalarChar, (c :: tail).dropWhile isScalarChar)
    else (lead, rest)
  | _ => (lead, rest)

def scalar? (cs : List Char) : Option Value :=
  if cs = ['t', 'r', 'u', 'e'] then some (.boolean true)
  else if cs = ['f', 'a', 'l', 's', 'e'] then some (.boolean false)
  else if isMoment cs then some (.moment cs)
  else
    match integer? cs with
    | some n => some (.integer n)
    | none => float? cs

end TextCatalog.Toml
