import Mutability.Json.Basic
import Mutability.Json.Magnitude

/-!
# The leaves of JSON text

Gaps, words, string literals and numbers at the front of a character list. Each scanner returns
what it read with the characters after it, or `none` where the text is not JSON.
-/

namespace Mutability.Json

def isGap (c : Char) : Bool := c = ' ' || c = '\n' || c = '\t' || c = '\r'

def skipGap (cs : List Char) : List Char := cs.dropWhile isGap

/-- Removes a fixed word from the front. -/
def scanWord : List Char → List Char → Option (List Char)
  | [], cs => some cs
  | w :: word, c :: cs => if w = c then scanWord word cs else none
  | _ :: _, [] => none

/-! ## String literals -/

def hexDigit? (c : Char) : Option Nat :=
  if '0' ≤ c ∧ c ≤ '9' then some (c.toNat - 48)
  else if 'a' ≤ c ∧ c ≤ 'f' then some (c.toNat - 87)
  else if 'A' ≤ c ∧ c ≤ 'F' then some (c.toNat - 55)
  else none

def hexUnit? (a b c d : Char) : Option Nat := do
  return (← hexDigit? a) * 4096 + (← hexDigit? b) * 256 + (← hexDigit? c) * 16 + (← hexDigit? d)

def isHighSurrogate (unit : Nat) : Bool := 0xD800 ≤ unit && unit < 0xDC00

def isLowSurrogate (unit : Nat) : Bool := 0xDC00 ≤ unit && unit < 0xE000

def joinSurrogates (high low : Nat) : Char :=
  Char.ofNat (0x10000 + (high - 0xD800) * 0x400 + (low - 0xDC00))

/-- The character a backslash and one letter stand for. -/
def escaped? : Char → Option Char
  | '"' => some '"'
  | '\\' => some '\\'
  | '/' => some '/'
  | 'b' => some '\x08'
  | 'f' => some '\x0c'
  | 'n' => some '\n'
  | 'r' => some '\r'
  | 't' => some '\t'
  | _ => none

/-- The text of a string literal whose opening quote is already read. Control characters have to
be escaped, and a surrogate is only read as half of a pair. -/
def scanString : List Char → Option (List Char × List Char)
  | [] => none
  | '"' :: rest => some ([], rest)
  | '\\' :: 'u' :: a :: b :: c :: d :: rest =>
    match hexUnit? a b c d with
    | none => none
    | some unit =>
      if isHighSurrogate unit then
        match rest with
        | '\\' :: 'u' :: e :: f :: g :: h :: rest =>
          match hexUnit? e f g h with
          | none => none
          | some low =>
            if isLowSurrogate low then
              (scanString rest).map fun (text, after) => (joinSurrogates unit low :: text, after)
            else none
        | _ => none
      else if isLowSurrogate unit then none
      else (scanString rest).map fun (text, after) => (Char.ofNat unit :: text, after)
  | '\\' :: letter :: rest =>
    match escaped? letter with
    | none => none
    | some c => (scanString rest).map fun (text, after) => (c :: text, after)
  | c :: rest =>
    if c.toNat < 0x20 then none
    else (scanString rest).map fun (text, after) => (c :: text, after)

/-! ## Numbers -/

def isDigit (c : Char) : Bool := '0' ≤ c && c ≤ '9'

def digitsValue (digits : List Char) : Nat :=
  digits.foldl (fun value c => value * 10 + digitValue c) 0

/-- One digit or more. -/
def scanDigits (cs : List Char) : Option (List Char × List Char) :=
  if (cs.takeWhile isDigit).isEmpty then none
  else some (cs.takeWhile isDigit, cs.dropWhile isDigit)

/-- The digits before the point: a leading zero stands alone. -/
def scanWhole (cs : List Char) : Option (List Char × List Char) := do
  let (digits, rest) ← scanDigits cs
  if digits.head? = some '0' && digits.length > 1 then none
  return (digits, rest)

/-- The digits after the point, none if there is no point. -/
def scanFraction : List Char → Option (List Char × List Char)
  | '.' :: rest => scanDigits rest
  | rest => some ([], rest)

/-- The exponent, absent if no `e` follows. -/
def scanExponent : List Char → Option (Option Int × List Char)
  | 'e' :: rest => signed rest
  | 'E' :: rest => signed rest
  | rest => some (none, rest)
where
  signed : List Char → Option (Option Int × List Char)
  | '-' :: rest => (scanDigits rest).map fun (digits, after) => (some (-digitsValue digits), after)
  | '+' :: rest => (scanDigits rest).map fun (digits, after) => (some (digitsValue digits), after)
  | rest => (scanDigits rest).map fun (digits, after) => (some (digitsValue digits), after)

/-- A written number as a value. Integers stay integers within 64 bits, signed below zero and
unsigned above; a negative zero and everything else is a decimal, which has to be in range. -/
def numberValue (negative : Bool) (whole fraction : List Char) (exponent : Option Int)
    (literal : List Char) : Option Json :=
  let n := digitsValue whole
  if fraction.isEmpty && exponent.isNone && !negative && n < UInt64.size then some (int n)
  else if fraction.isEmpty && exponent.isNone && negative && n ≠ 0 &&
      Int64.minValue.toInt ≤ -(n : Int) then
    some (int (-(n : Int)))
  else if (Magnitude.ofDigits whole fraction (exponent.getD 0)).outOfRange then none
  else some (decimal (String.ofList literal))

def scanUnsigned (negative : Bool) (cs : List Char) : Option (Json × List Char) := do
  let (whole, afterWhole) ← scanWhole cs
  let (fraction, afterFraction) ← scanFraction afterWhole
  let (exponent, rest) ← scanExponent afterFraction
  let literal := cs.take (cs.length - rest.length)
  let value ← numberValue negative whole fraction exponent
    (if negative then '-' :: literal else literal)
  return (value, rest)

def scanNumber : List Char → Option (Json × List Char)
  | '-' :: rest => scanUnsigned true rest
  | cs => scanUnsigned false cs

end Mutability.Json
