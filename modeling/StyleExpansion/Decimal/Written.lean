import StyleExpansion.Decimal.Numeral

/-! # Numbers as text

A text denotes a number if it is an optional sign, then the name of infinity or of what is not a
number in any letter case, or decimal digits with an optional point and an optional exponent.
-/
namespace StyleExpansion.Decimal

inductive Written
  | infinity
  | undefined
  | decimal (digits : Nat) (exponent : Int)
deriving Repr,DecidableEq

namespace Written

def unsigned : List Char → List Char
  | c :: r => if c = '+' || c = '-' then r else c :: r
  | [] => []

def digitsOf (s : List Char) : List Nat := s.map fun c => c.toNat - 48

def isDigitRun (s : List Char) : Bool := !s.isEmpty && s.all Char.isDigit

/-- Digits and an exponent of minus the number of places of `whole.fraction`, if both are digits and
not both are empty. -/
def ofParts (whole fraction : List Char) : Option Written :=
  if isDigitRun (whole ++ fraction) then
    some (.decimal (Numeral.ofDigits (digitsOf (whole ++ fraction))) (-(fraction.length : Int)))
  else none

def readMantissa (s : List Char) : Option Written :=
  ofParts (s.takeWhile (· ≠ '.')) ((s.dropWhile (· ≠ '.')).drop 1)

def readExponent (s : List Char) : Option Int :=
  if isDigitRun (unsigned s) then
    let n : Int := Numeral.ofDigits (digitsOf (unsigned s))
    some (if s.head? = some '-' then -n else n)
  else none

def scale (e : Int) : Written → Written
  | decimal n k => decimal n (k + e)
  | w => w

def isExponentMark (c : Char) : Bool := c = 'e' || c = 'E'

def readUnsigned (s : List Char) : Option Written :=
  let lower := s.map Char.toLower
  if lower = ['i','n','f'] || lower = ['i','n','f','i','n','i','t','y'] then some infinity
  else if lower = ['n','a','n'] then some undefined
  else match s.dropWhile (!isExponentMark ·) with
    | [] => readMantissa s
    | _ :: e => do
      let w ← readMantissa (s.takeWhile (!isExponentMark ·))
      let k ← readExponent e
      return w.scale k

def read? (s : String) : Option Written := readUnsigned (unsigned s.toList)

/-- The number is zero in double precision: it is at most half of the smallest magnitude. -/
def isZero : Written → Bool
  | decimal n e =>
    let top := (Nat.toDigits 10 n).length + e
    n == 0 || top < -323 || (top == -323 && n * Nat.pow 2 1075 ≤ Nat.pow 10 (-e).toNat)
  | _ => false

end Written

end StyleExpansion.Decimal
