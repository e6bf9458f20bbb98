/-!
# Decimal numbers

A decimal is a sign, digits and a place for the point. It denotes one rational,
and equality only looks at this: `2.0` equals the integer `2`, `-0.0` equals
`0.0`, and zeros at the end make no difference. Sign and point do show in its
text, which has digits on both sides of the point and drops the zeros behind
them; a very large or very small number is written with an exponent instead.
Infinities and what is no number at all are no decimals, so nothing here is
about values of these kinds.
-/

namespace FormalGrammar

/-- The number `digits / 10 ^ places`, or its negation. -/
structure Decimal where
  /-- Whether there is a minus sign, which zero can have too. -/
  negative : Bool
  /-- The number that all digits make, the fraction included. -/
  digits : Nat
  /-- How many of the digits stand behind the point. -/
  places : Nat
  deriving DecidableEq, Repr

namespace Decimal

/-- The power of ten that moves the point behind all digits. -/
def scale (x : Decimal) : Nat := Nat.pow 10 x.places

/-- The size of the rational that a decimal denotes. -/
def size (x : Decimal) : Rat := mkRat x.digits x.scale

/-- The rational that a decimal denotes. -/
def toRat (x : Decimal) : Rat := if x.negative then -x.size else x.size

/-- The exponent of the leading digit. -/
def magnitude (x : Decimal) : Int :=
  (Nat.toDigits 10 x.digits).length - (x.places + 1 : Nat)

/-- Where a text turns from plain to exponential, by the exponent of the leading digit. -/
structure Layout where
  /-- The least exponent with a plain text. -/
  plainFrom : Int
  /-- The least exponent past those with a plain text. -/
  plainBelow : Int
  /-- The least number of digits of an exponent. -/
  exponentWidth : Nat
  deriving DecidableEq, Repr

/-- Decimals are plain from `0.0001` on and below `10 ^ 16`, and exponents have two digits. -/
def layout : Layout := ⟨-4, 16, 2⟩

/-- Digits without the zeros at the end. -/
def trimmed (digits : List Char) : List Char := (digits.toArray.popWhile (· == '0')).toList

/-- The digits before the point. -/
def whole (x : Decimal) : Nat := x.digits / x.scale

/-- All digits behind the point. -/
def fraction (x : Decimal) : List Char :=
  (Nat.toDigits 10 (x.digits % x.scale)).leftpad x.places '0'

/-- The text without sign and exponent, with at least one digit on either side of the point. -/
def plainText (x : Decimal) : List Char :=
  let behind := trimmed x.fraction
  Nat.toDigits 10 x.whole ++ '.' :: if behind.isEmpty then ['0'] else behind

/-- The text of an exponent with its sign. -/
def exponentText (width : Nat) (exponent : Int) : List Char :=
  'e' :: (if exponent < 0 then '-' else '+') ::
    (Nat.toDigits 10 exponent.natAbs).leftpad width '0'

/-- The text without sign as one digit, a fraction if there is any, and an exponent. -/
def exponentialText (width : Nat) (x : Decimal) : List Char :=
  let all := Nat.toDigits 10 x.digits
  let behind := trimmed (all.drop 1)
  all.take 1 ++ (if behind.isEmpty then [] else '.' :: behind) ++ exponentText width x.magnitude

/-- Whether the layout gives a decimal a plain text. Zero always has one. -/
def isPlain (layout : Layout) (x : Decimal) : Bool :=
  x.digits == 0 || (layout.plainFrom ≤ x.magnitude && x.magnitude < layout.plainBelow)

/-- The text of a decimal. -/
def text (x : Decimal) : String :=
  let sign := if x.negative then ['-'] else []
  let unsigned :=
    if x.isPlain layout then x.plainText else x.exponentialText layout.exponentWidth
  String.ofList (sign ++ unsigned)

end Decimal

end FormalGrammar
