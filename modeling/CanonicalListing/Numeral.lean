import CanonicalListing.Text.Blank
import CanonicalListing.Numeral.Rounding

/-!
# Numeric literals

A literal is a decimal number with an optional sign, fraction and exponent, the word
`Infinity` with an optional sign, or an unsigned whole number in base 16, 8 or 2
behind `0x`, `0o` or `0b`. Blanks around it do not count and a blank text is zero.
A finite literal is kept exactly, as a coefficient and a power of ten; rounding
happens only when it is read as a count.
-/

namespace CanonicalListing

inductive Numeral where
  | infinity (negative : Bool)
  | scientific (negative : Bool) (coefficient : Nat) (exponent : Int)
  deriving DecidableEq, Repr

namespace Numeral

/-- Letters continue the digits in either case. -/
def digit? (base : Nat) (c : Char) : Option Nat :=
  let value? :=
    if '0' ≤ c ∧ c ≤ '9' then some (c.toNat - '0'.toNat)
    else if 'a' ≤ c ∧ c ≤ 'z' then some (c.toNat - 'a'.toNat + 10)
    else if 'A' ≤ c ∧ c ≤ 'Z' then some (c.toNat - 'A'.toNat + 10)
    else none
  value?.filter (· < base)

/-- The value of a run of digits; no digits at all are worth zero. -/
def digits? (base : Nat) (cs : List Char) : Option Nat :=
  cs.foldlM (fun n c => (digit? base c).map (base * n + ·)) 0

def natural? (base : Nat) (cs : List Char) : Option Nat :=
  if cs.isEmpty then none else digits? base cs

def radix? (c : Char) : Option Nat :=
  if c = 'x' ∨ c = 'X' then some 16
  else if c = 'o' ∨ c = 'O' then some 8
  else if c = 'b' ∨ c = 'B' then some 2
  else none

/-- The sign in front, if any, and what follows it. -/
def takeSign : List Char → Bool × List Char
  | '+' :: rest => (false, rest)
  | '-' :: rest => (true, rest)
  | rest => (false, rest)

/-- Nothing at all, or the letter, an optional sign and at least one digit. -/
def exponent? : List Char → Option Int
  | [] => some 0
  | _ :: rest =>
    let (negative, ds) := takeSign rest
    (natural? 10 ds).map fun n => if negative then -(n : Int) else n

/-- All digits as one coefficient, and how many of them stand after the point. -/
def coefficient? (cs : List Char) : Option (Nat × Nat) :=
  let (whole, rest) := cs.span (· ≠ '.')
  let fraction := rest.drop 1
  if whole.isEmpty && fraction.isEmpty then none
  else (digits? 10 (whole ++ fraction)).map fun n => (n, fraction.length)

def isExponentLetter (c : Char) : Bool := c == 'e' || c == 'E'

def decimal? (negative : Bool) (cs : List Char) : Option Numeral :=
  if cs = "Infinity".toList then some (infinity negative)
  else
    let (body, tail) := cs.span fun c => !isExponentLetter c
    match coefficient? body, exponent? tail with
    | some (n, places), some e => some (scientific negative n (e - places))
    | _, _ => none

def ofTrimmed? : List Char → Option Numeral
  | [] => some (scientific false 0 0)
  | '0' :: c :: ds =>
    match radix? c with
    | some base => (natural? base ds).map fun n => scientific false n 0
    | none => decimal? false ('0' :: c :: ds)
  | cs =>
    let (negative, rest) := takeSign cs
    decimal? negative rest

/-- No literal gives `none`. -/
def read? (text : String) : Option Numeral := ofTrimmed? (Text.trimChars text.toList)

/-- The whole part of the number rounded to 53 bits, if the rounded number lies between 1 and
`high`. Extreme exponents decide without a power being computed: one above the bit length of
`high` puts every coefficient but zero beyond it, and dividing a coefficient of `k` bits by more
than `10 ^ k` leaves far less than one. -/
def count? (high : Nat) : Numeral → Option Nat
  | scientific false n e =>
    if e > high.log2 + 1 ∨ -e > n.log2 + 1 then none
    else
      let x := BinaryFraction.ofRatio (n * Nat.pow 10 e.toNat) (Nat.pow 10 (-e).toNat)
      if x.between 1 high then some x.whole else none
  | _ => none

end Numeral
end CanonicalListing
