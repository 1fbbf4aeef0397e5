import TitanX.Lib.Binary64

/-!
# Prices as numbers and as text

The conversions of `titanx/model/Order.hpp` between fixed-point prices, doubles and text. A
finite double is the number it denotes (`Lib.Binary64`).

`std::stod` is `strtod` of the C library: it reads the longest number at the start of a text,
decimal or hexadecimal, rounds it correctly and ignores what follows; it also reads the
spellings of infinity and of what is not a number. It throws if there is no number at all, if
the number is too large for a double, and if it is so small that it cannot be rounded to 53
bits. `snprintf` prints the exact value of a double, rounded to two places, ties to even.

A conversion to `int64_t` that is out of range has no defined result in the source; here it is
the one of the x86-64 instruction, which is the least number.
-/

namespace TitanX

/-- `PRICE_SCALE`, converted to a double where it meets one. -/
def priceScale : ℚ := 100000000

/-- `static_cast<int64_t>`. -/
def toInt64 (x : ℚ) : Int :=
  if -9223372036854775808 ≤ Binary64.truncate x ∧ Binary64.truncate x < 9223372036854775808 then
    Binary64.truncate x
  else -9223372036854775808

/-- `price_to_fixed(double)`, of a finite one. -/
def priceToFixed (price : ℚ) : Int :=
  toInt64 (Binary64.nearest (Binary64.nearest (price * priceScale) + 1 / 2))

def fixedToPrice (fixed : Int) : ℚ := Binary64.nearest (Binary64.nearest fixed / priceScale)

/-! ## Reading -/

/-- `isspace` in the C locale. -/
def isSpace (c : Char) : Bool := c = ' ' || (9 ≤ c.toNat && c.toNat ≤ 13)

/-- An optional sign: whether it is a minus, and what follows. -/
def takeSign : List Char → Bool × List Char
  | '-' :: cs => (true, cs)
  | '+' :: cs => (false, cs)
  | cs => (false, cs)

/-- The digits after a decimal point, if there is one, and what follows. -/
def takeFraction (isDigit : Char → Bool) : List Char → List Char × List Char
  | '.' :: cs => cs.span isDigit
  | cs => ([], cs)

/-- The exponent at the start of a text, after the letter `mark`; 0 if there is none, or no
digit in it. -/
def readExponent (mark : Char) : List Char → Int
  | [] => 0
  | c :: cs =>
      if c.toLower = mark then
        let (negative, cs) := takeSign cs
        let magnitude : Int := Nat.ofDigitChars 10 (cs.takeWhile Char.isDigit) 0
        if negative then -magnitude else magnitude
      else 0

/-- A way to write numbers: the digits with their value, and the letter and the base of the
exponent. -/
structure Radix where
  base : Nat
  isDigit : Char → Bool
  value : List Char → Nat
  mark : Char
  exponentBase : ℚ

def decimal10 : Radix := ⟨10, Char.isDigit, (Nat.ofDigitChars 10 · 0), 'e', 10⟩

/-- Whether a character is a hexadecimal digit, and which. -/
def isHexDigit (c : Char) : Bool := c.isDigit || ('a' ≤ c.toLower && c.toLower ≤ 'f')

def hexDigit (c : Char) : Nat := if c.isDigit then c.toNat - 48 else c.toLower.toNat - 87

def hexadecimal : Radix :=
  ⟨16, isHexDigit, fun cs => cs.foldl (fun n c => 16 * n + hexDigit c) 0, 'p', 2⟩

/-- The number without a sign at the start of a text; nothing if there is no digit. -/
def Radix.read (r : Radix) (cs : List Char) : Option ℚ :=
  let (whole, cs) := cs.span r.isDigit
  let (fraction, cs) := takeFraction r.isDigit cs
  if whole ++ fraction = [] then none
  else
    some ((r.value (whole ++ fraction) : ℚ) / r.base ^ fraction.length
      * r.exponentBase ^ readExponent r.mark cs)

/-- A number with or without the `0x` of a hexadecimal one. After a `0x` without digits only the
zero is read. -/
def readMagnitude : List Char → Option ℚ
  | c :: x :: cs =>
      if c = '0' && x.toLower = 'x' then (hexadecimal.read cs).or (decimal10.read (c :: x :: cs))
      else decimal10.read (c :: x :: cs)
  | cs => decimal10.read cs

/-- What a text can denote. -/
inductive Number where
  | finite (value : ℚ)
  | infinite (negative : Bool)
  | nan
  deriving DecidableEq

/-- The number at the start of a text. -/
def readNumber (text : String) : Option Number :=
  let (negative, cs) := takeSign (text.toList.dropWhile isSpace)
  let word := (cs.take 3).map Char.toLower
  if word = ['i', 'n', 'f'] then some (.infinite negative)
  else if word = ['n', 'a', 'n'] then some .nan
  else (readMagnitude cs).map fun magnitude => .finite (if negative then -magnitude else magnitude)

/-- `std::stod`, with the text of what it throws for no number and for one out of range. -/
def stod (text : String) : Except String Number :=
  match readNumber text with
  | none => .error "stod"
  | some (.finite value) =>
      if Binary64.overflows value || Binary64.underflows value then .error "stod"
      else .ok (.finite (Binary64.nearest value))
  | some other => .ok other

/-- `price_to_fixed(double)`. -/
def Number.toFixed : Number → Int
  | .finite value => priceToFixed value
  | _ => -9223372036854775808

/-- `price_to_fixed(const std::string&)`. -/
def priceToFixedOfString (text : String) : Except String Int := (stod text).map Number.toFixed

/-! ## Printing -/

/-- A number of hundredths with its two decimal places. -/
def hundredths (n : Nat) : String :=
  toString (n / 100) ++ "." ++ String.ofList [Nat.digitChar (n / 10 % 10), Nat.digitChar (n % 10)]

/-- `%.2f`. -/
def formatTwoPlaces (price : ℚ) : String :=
  (if price < 0 then "-" else "") ++ hundredths (Binary64.roundEven (|price| * 100)).toNat

def priceToString (fixed : Int) : String := formatTwoPlaces (fixedToPrice fixed)

end TitanX
