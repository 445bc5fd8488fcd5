import TextCatalog.Json.Basic
/-!
# Reading JSON

A reader for whole documents. A number written without a point or an exponent is an integer if it
fits in 64 bits, signed or not, and every other one is the nearest double-precision number. Of two
fields with one name both are kept, in order.
-/

namespace TextCatalog.Json

def skipSpace (cs : List Char) : List Char :=
  cs.dropWhile fun c => c == ' ' || c == '\t' || c == '\n' || c == '\r'

def hexValue? (c : Char) : Option Nat :=
  if '0' ≤ c ∧ c ≤ '9' then some (c.toNat - 48)
  else if 'a' ≤ c ∧ c ≤ 'f' then some (c.toNat - 87)
  else if 'A' ≤ c ∧ c ≤ 'F' then some (c.toNat - 55)
  else none

def hex4? (a b c d : Char) : Option Nat := do
  return (((← hexValue? a) * 16 + (← hexValue? b)) * 16 + (← hexValue? c)) * 16 + (← hexValue? d)

/-- The character that a one-letter escape stands for. -/
def simpleEscape? : Char → Option Char
  | '"' => some '"'
  | '\\' => some '\\'
  | '/' => some '/'
  | 'b' => some '\x08'
  | 'f' => some '\x0c'
  | 'n' => some '\n'
  | 'r' => some '\r'
  | 't' => some '\t'
  | _ => none

def charOfCode? (n : Nat) : Option Char :=
  if n.isValidChar then some (Char.ofNat n) else none

/-- The rest of a string after its opening quote: its characters, collected in reverse in `acc`, and
what follows the closing quote. -/
def stringBody (acc : List Char) : List Char → Option (List Char × List Char)
  | '"' :: rest => some (acc.reverse, rest)
  | '\\' :: 'u' :: a :: b :: c :: d :: '\\' :: 'u' :: e :: f :: g :: h :: rest => do
    let high ← hex4? a b c d
    if 0xD800 ≤ high ∧ high < 0xDC00 then
      let low ← hex4? e f g h
      if 0xDC00 ≤ low ∧ low < 0xE000 then
        let joined ← charOfCode? (0x10000 + (high - 0xD800) * 0x400 + (low - 0xDC00))
        stringBody (joined :: acc) rest
      else none
    else
      let single ← charOfCode? high
      stringBody (single :: acc) ('\\' :: 'u' :: e :: f :: g :: h :: rest)
  | '\\' :: 'u' :: a :: b :: c :: d :: rest => do
    let single ← charOfCode? (← hex4? a b c d)
    stringBody (single :: acc) rest
  | '\\' :: c :: rest => do
    let single ← simpleEscape? c
    stringBody (single :: acc) rest
  | c :: rest => if c.toNat < 0x20 then none else stringBody (c :: acc) rest
  | [] => none
termination_by cs => cs.length

def natOfDigits (ds : List Char) : Nat :=
  ds.foldl (fun n d => n * 10 + (d.toNat - 48)) 0

/-- A signed exponent, if the input has one after `e` or `E`. -/
def exponentPart : List Char → Option (Int × List Char)
  | c :: rest =>
    let (negative, rest) := match c, rest with
      | '-', _ => (true, rest)
      | '+', _ => (false, rest)
      | _, _ => (false, c :: rest)
    let digits := rest.takeWhile Char.isDigit
    if digits.isEmpty then none
    else
      let n : Int := natOfDigits digits
      some (if negative then -n else n, rest.dropWhile Char.isDigit)
  | [] => none

/-- Whether a number after its sign fits in 64 bits, signed or not. Minus zero is no integer. -/
def fitsWord (negative : Bool) (n : Nat) : Bool :=
  if negative then n ≠ 0 && n ≤ Nat.pow 2 63 else n < Nat.pow 2 64

def unsignedNumber (negative : Bool) (cs : List Char) : Option (Json × List Char) := do
  let whole := cs.takeWhile Char.isDigit
  let rest := cs.dropWhile Char.isDigit
  if whole.isEmpty || (whole.head? == some '0' && whole.length != 1) then none
  let (fraction, rest) ← match rest with
    | '.' :: after =>
      let digits := after.takeWhile Char.isDigit
      if digits.isEmpty then none else some (some digits, after.dropWhile Char.isDigit)
    | _ => some (none, rest)
  let (exponent, rest) ← match rest with
    | c :: after =>
      if c = 'e' ∨ c = 'E' then (exponentPart after).map fun r => (some r.1, r.2)
      else some (none, rest)
    | [] => some (none, rest)
  let n := natOfDigits (whole ++ fraction.getD [])
  if fraction.isNone && exponent.isNone && fitsWord negative n then
    return (integer (if negative then -(n : Int) else n), rest)
  else
    match Binary64.ofDecimal negative n (exponent.getD 0 - (fraction.getD []).length) with
    | .infinite _ => none
    | x => return (number x, rest)

mutual

/-- A value at the start of the input, and what follows it. Each step down takes one from `fuel`. -/
def value : Nat → List Char → Option (Json × List Char)
  | 0, _ => none
  | fuel + 1, cs =>
    match skipSpace cs with
    | '"' :: rest => (stringBody [] rest).map fun r => (string (String.ofList r.1), r.2)
    | '[' :: rest =>
      match skipSpace rest with
      | ']' :: rest => some (array [], rest)
      | rest => (items fuel [] rest).map fun r => (array r.1, r.2)
    | '{' :: rest =>
      match skipSpace rest with
      | '}' :: rest => some (object [], rest)
      | rest => (fields fuel [] rest).map fun r => (object r.1, r.2)
    | 't' :: 'r' :: 'u' :: 'e' :: rest => some (bool true, rest)
    | 'f' :: 'a' :: 'l' :: 's' :: 'e' :: rest => some (bool false, rest)
    | 'n' :: 'u' :: 'l' :: 'l' :: rest => some (null, rest)
    | '-' :: rest => unsignedNumber true rest
    | rest => unsignedNumber false rest

/-- The items of an array up to its closing bracket, after those in `acc`. -/
def items : Nat → List Json → List Char → Option (List Json × List Char)
  | 0, _, _ => none
  | fuel + 1, acc, cs =>
    match value fuel cs with
    | none => none
    | some (item, rest) =>
      match skipSpace rest with
      | ',' :: rest => items fuel (item :: acc) rest
      | ']' :: rest => some ((item :: acc).reverse, rest)
      | _ => none

def fields : Nat → List (String × Json) → List Char → Option (List (String × Json) × List Char)
  | 0, _, _ => none
  | fuel + 1, acc, cs =>
    match skipSpace cs with
    | '"' :: rest =>
      match stringBody [] rest with
      | none => none
      | some (key, rest) =>
        match skipSpace rest with
        | ':' :: rest =>
          match value fuel rest with
          | none => none
          | some (v, rest) =>
            let acc := (String.ofList key, v) :: acc
            match skipSpace rest with
            | ',' :: rest => fields fuel acc rest
            | '}' :: rest => some (acc.reverse, rest)
            | _ => none
        | _ => none
    | _ => none

end

/-- The document that a text holds. A value, an item and a field each take a character of the text,
so the steps down are at most twice its length. -/
def parse? (s : String) : Option Json :=
  let cs := s.toList
  match value (2 * cs.length + 2) cs with
  | some (v, rest) => if (skipSpace rest).isEmpty then some v else none
  | none => none

end TextCatalog.Json
