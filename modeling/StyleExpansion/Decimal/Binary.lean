/-! # Binary formats

Magnitudes held to a fixed number of significant bits. Every operation is exact on ratios of
natural numbers and is then rounded once to the nearest magnitude of the format, a tie going to the
even neighbour. A result at or beyond the limit is infinite, and infinity times zero is undefined.
-/
namespace StyleExpansion.Decimal

structure Ratio where
  num : Nat
  den : Nat
deriving Repr,DecidableEq

namespace Ratio

def ofNat (n : Nat) : Ratio := ⟨n,1⟩

def mul (a b : Ratio) : Ratio := ⟨a.num * b.num,a.den * b.den⟩

def add (a b : Ratio) : Ratio := ⟨a.num * b.den + b.num * a.den,a.den * b.den⟩

def div (a b : Ratio) : Ratio := ⟨a.num * b.den,a.den * b.num⟩

def twoPow : Int → Ratio
  | .ofNat k => ⟨Nat.pow 2 k,1⟩
  | .negSucc k => ⟨1,Nat.pow 2 (k + 1)⟩

def tenPow : Int → Ratio
  | .ofNat k => ⟨Nat.pow 10 k,1⟩
  | .negSucc k => ⟨1,Nat.pow 10 (k + 1)⟩

def isZero (a : Ratio) : Bool := a.num == 0

def same (a b : Ratio) : Bool := a.num * b.den == b.num * a.den

def le (a b : Ratio) : Bool := a.num * b.den ≤ b.num * a.den

def nearestEven (a : Ratio) : Nat :=
  let q := a.num / a.den
  let r := a.num % a.den
  if 2 * r < a.den then q else if a.den < 2 * r then q + 1 else if q % 2 = 0 then q else q + 1

def nearestUp (a : Ratio) : Nat := (2 * a.num + a.den) / (2 * a.den)

def exponent (a : Ratio) : Int :=
  let e : Int := a.num.log2 - a.den.log2
  if (twoPow e).le a then e else e - 1

end Ratio

/-- A magnitude as arithmetic of a bounded format gives it. -/
inductive Magnitude
  | undefined
  | infinite
  | finite (size : Ratio)
deriving Repr,DecidableEq

/-- A format: its significant bits, the exponent `-least` of its smallest positive magnitude, and
the exponent of the power of two from which on a magnitude is infinite. -/
structure Format where
  bits : Nat
  least : Nat
  limit : Nat

namespace Format

def single : Format := ⟨24,149,128⟩

def double : Format := ⟨53,1074,1024⟩

def round (f : Format) (a : Ratio) : Magnitude :=
  if a.isZero then .finite (.ofNat 0)
  else
    let unit := Ratio.twoPow (max (a.exponent - (f.bits - 1 : Nat)) (-(f.least : Int)))
    let r := (Ratio.ofNat (a.div unit).nearestEven).mul unit
    if (Ratio.ofNat (Nat.pow 2 f.limit)).le r then .infinite else .finite r

def renew (f : Format) : Magnitude → Magnitude
  | .finite a => f.round a
  | m => m

def add (f : Format) : Magnitude → Magnitude → Magnitude
  | .finite a,.finite b => f.round (a.add b)
  | .undefined,_ => .undefined
  | _,.undefined => .undefined
  | _,_ => .infinite

def mul (f : Format) : Magnitude → Magnitude → Magnitude
  | .finite a,.finite b => f.round (a.mul b)
  | .infinite,.finite a => if a.isZero then .undefined else .infinite
  | .finite a,.infinite => if a.isZero then .undefined else .infinite
  | .infinite,.infinite => .infinite
  | _,_ => .undefined

def divNat (f : Format) (m : Magnitude) (n : Nat) : Magnitude :=
  match m with
  | .finite a => f.round (a.div (.ofNat n))
  | m => m

def tenPow (f : Format) (e : Int) : Magnitude :=
  if f.limit ≤ e then .infinite
  else if e ≤ -(f.least : Int) then .finite (.ofNat 0)
  else f.round (.tenPow e)

end Format

end StyleExpansion.Decimal
