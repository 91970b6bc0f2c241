import StyleExpansion.Decimal.Shortest

/-! # Numerals

A numeral as written: sign, digits, fraction and exponent. Its text in a value is the integer
itself, kept to 32 bits, if the numeral has neither fraction nor exponent; otherwise its magnitude in
single precision to six places. A sign that was written stays, and a zero is never negative.
-/
namespace StyleExpansion.Decimal

structure Numeral where
  signed : Bool
  negative : Bool
  whole : List Nat
  fraction : List Nat
  exponent : Option Int
deriving Repr,DecidableEq

namespace Numeral

def isInteger (x : Numeral) : Bool := x.fraction.isEmpty && x.exponent.isNone

def ofDigits (ds : List Nat) : Nat := ds.foldl (fun n d => 10 * n + d) 0

def wholePart (ds : List Nat) : Magnitude :=
  ds.foldl (fun x d => Format.double.add
    (Format.double.mul x (.finite (.ofNat 10))) (.finite (.ofNat d))) (.finite (.ofNat 0))

/-- Digits after the point, each times a power of a tenth that is itself rounded. -/
def fractionPart (ds : List Nat) : Magnitude :=
  let tenth := Format.double.round ⟨1,10⟩
  (ds.foldl (fun (p : Magnitude × Magnitude) d =>
    (Format.double.add p.1 (Format.double.mul (.finite (.ofNat d)) p.2),Format.double.mul p.2 tenth))
    (.finite (.ofNat 0),tenth)).1

def magnitude (x : Numeral) : Magnitude :=
  let m := Format.double.add (wholePart x.whole) (fractionPart x.fraction)
  match x.exponent with
  | none => m
  | some e => Format.double.mul m (Format.double.tenPow e)

/-- The magnitude of a percentage: a hundredth in single precision, times a hundred. -/
def percentMagnitude (x : Numeral) : Magnitude :=
  Format.single.mul (Format.single.renew (Format.double.divNat x.magnitude 100))
    (.finite (.ofNat 100))

def millionths : Magnitude → Magnitude
  | .finite b => Format.double.round ⟨b.nearestUp,1000000⟩
  | m => m

def toPlaces (a : Ratio) : Magnitude := millionths (Format.double.round (a.mul (.ofNat 1000000)))

def plusText (signed : Bool) : List Char := if signed then ['+'] else []

def signText (signed negative : Bool) : List Char := if negative then ['-'] else plusText signed

/-- The text of a magnitude to six places with its sign. A negative magnitude that only its places make
zero has no sign. -/
def placesText (signed negative wasZero : Bool) : Magnitude → List Char
  | .finite b =>
    if b.isZero then (if negative && !wasZero then [] else plusText signed) ++ ['0']
    else signText signed negative ++ (Scaled.shortest Format.double b).positional
  | _ => signText signed negative ++ ['i','n','f']

def fractionalText (signed negative : Bool) : Magnitude → List Char
  | .undefined => ['N','a','N']
  | .infinite => signText signed negative ++ ['i','n','f']
  | .finite a => placesText signed negative a.isZero (toPlaces a)

def integerLimit (negative : Bool) : Nat := if negative then 2147483648 else 2147483647

def integerText (x : Numeral) : List Char :=
  let n := min (ofDigits x.whole) (integerLimit x.negative)
  signText x.signed (x.negative && n != 0) ++ Nat.toDigits 10 n

def text (x : Numeral) : String :=
  String.ofList <| if x.isInteger then x.integerText
    else fractionalText x.signed x.negative (Format.single.renew x.magnitude)

def percentText (x : Numeral) : String :=
  String.ofList <| if x.isInteger then x.integerText
    else fractionalText x.signed x.negative x.percentMagnitude

end Numeral

end StyleExpansion.Decimal
