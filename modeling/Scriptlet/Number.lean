/-! Numbers as text and back, and their remainders. Writing takes the fewest digits that read back,
without an exponent; what stands for an infinity is left to the caller. Reading takes the digits before
and after a point. -/
namespace Scriptlet

/-! Decimals written out in full: a whole number of digits times a power of ten. A positive power
appends zeros, a negative one places the point. -/

/-- The number `digits * 10 ^ exponent`. -/
structure Decimal where
  digits : Nat
  exponent : Int
deriving DecidableEq, Repr

namespace Decimal

/-- Puts a point before the last `places` digits, with zeros in front so that at least one digit
stands before the point. -/
def pointed (places : Nat) (digits : List Char) : List Char :=
  let padded := List.replicate (places + 1 - digits.length) '0' ++ digits
  let whole := padded.length - places
  padded.take whole ++ '.' :: padded.drop whole

def chars (d : Decimal) : List Char :=
  match d.exponent with
  | .ofNat zeros => Nat.toDigits 10 d.digits ++ List.replicate zeros '0'
  | .negSucc n => pointed (n + 1) (Nat.toDigits 10 d.digits)

def text (d : Decimal) : String :=
  String.ofList d.chars

/-- The exact value of `mantissa * 2 ^ exponent`: a power of two below one is as many powers of five
over the same power of ten. -/
def exact (mantissa : Nat) (exponent : Int) : Decimal :=
  match exponent with
  | .ofNat n => ⟨mantissa * Nat.pow 2 n, 0⟩
  | .negSucc n => ⟨mantissa * Nat.pow 5 (n + 1), .negSucc n⟩

end Decimal

/-! The shortest decimal of a double. All reals between the midpoints to the two neighbouring doubles
round to the double itself, the midpoints included when its mantissa is even. Ever finer powers of ten
are tried, and the first one with a multiple in that range gives the digits. -/

/-- The reals that round to one double, as fractions over `unit`. -/
structure RoundingSpan where
  low : Nat
  value : Nat
  high : Nat
  unit : Nat
  closed : Bool

namespace RoundingSpan

/-- The span of `mantissa * 2 ^ exponent`, counted in quarters of its last bit. Below the least
mantissa the doubles lie twice as close, unless that mantissa has the least exponent. -/
def of (mantissa : Nat) (exponent : Int) : RoundingSpan :=
  let below := if mantissa = Nat.pow 2 52 ∧ -1074 < exponent then 1 else 2
  let scale := Nat.pow 2 (exponent - 2).toNat
  { low := (4 * mantissa - below) * scale
    value := 4 * mantissa * scale
    high := (4 * mantissa + 2) * scale
    unit := Nat.pow 2 (2 - exponent).toNat
    closed := mantissa % 2 = 0 }

/-- The same span measured in units of `10 ^ power`. -/
def measured (s : RoundingSpan) (power : Int) : RoundingSpan :=
  let finer := Nat.pow 10 (-power).toNat
  { s with
    low := s.low * finer
    value := s.value * finer
    high := s.high * finer
    unit := s.unit * Nat.pow 10 power.toNat }

def holds (s : RoundingSpan) (n : Nat) : Bool :=
  if s.closed then s.low ≤ n * s.unit && n * s.unit ≤ s.high
  else s.low < n * s.unit && n * s.unit < s.high

/-- The whole number of units in the span that is nearest to its value; of two equally near ones the
larger. -/
def nearest? (s : RoundingSpan) : Option Nat :=
  let floor := s.value / s.unit
  match s.holds floor, s.holds (floor + 1) with
  | true, true => some (if 2 * (s.value % s.unit) < s.unit then floor else floor + 1)
  | true, false => some floor
  | false, true => some (floor + 1)
  | false, false => none

end RoundingSpan

namespace Decimal

/-- A power of ten that is not below the leading digit of `mantissa * 2 ^ exponent`: `0.30103` is the
logarithm of two. -/
def leadingPower (mantissa : Nat) (exponent : Int) : Int :=
  (mantissa.log2 + exponent + 1) * 30103 / 100000 + 1

/-- Seventeen digits tell any two doubles apart, so twenty powers from the leading one suffice. -/
def shortest (mantissa : Nat) (exponent : Int) : Decimal :=
  let span := RoundingSpan.of mantissa exponent
  let top := leadingPower mantissa exponent
  let tried := (List.range 20).findSome? fun (i : Nat) =>
    (span.measured (top - i)).nearest?.map (Decimal.mk · (top - i))
  tried.getD (exact mantissa exponent)

end Decimal

namespace Number
open Float.Model

def signText : UnpackedFloat.Sign → String
  | .negative => "-"
  | .positive => ""

def text (infinity : String) (x : Float) : String :=
  match x.toModel.unpack with
  | .notANumber => "NaN"
  | .infinity sign => signText sign ++ infinity
  | .zero sign => signText sign ++ "0"
  | .finite sign m e _ => signText sign ++ (Decimal.shortest m e).text

def digitsValue (digits : List Char) : Nat :=
  digits.foldl (fun n c => 10 * n + (c.toNat - '0'.toNat)) 0

/-- The double nearest to the decimal with these digits before and after its point; past the largest
double it is infinite. -/
def read (whole fraction : List Char) : Float :=
  Float.ofScientific (digitsValue (whole ++ fraction)) true fraction.length

/-! The remainder of a division of doubles. It is exact: both operands are whole multiples of the
smaller of their two units in the last place, so the remainder of the multiples is again a multiple
with fewer bits than the divisor. -/

def notANumber : Float :=
  .ofModel (.pack .notANumber)

/-- `x` less the multiple of `y` next to it on the side of zero. The sign is that of `x`. An infinite
divisor leaves a finite `x` alone, and there is no remainder by zero or of an infinity. -/
def remainder (x y : Float) : Float :=
  match x.toModel.unpack, y.toModel.unpack with
  | .finite sign m e _, .finite _ n f _ =>
    let unit := min e f
    let left := (m <<< (e - unit).toNat) % (n <<< (f - unit).toNat)
    .ofModel (.pack (.round .binary64 sign left unit))
  | .zero _, .finite .. => x
  | .zero _, .infinity _ => x
  | .finite .., .infinity _ => x
  | _, _ => notANumber

end Number
end Scriptlet
