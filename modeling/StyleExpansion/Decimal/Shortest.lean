import StyleExpansion.Decimal.Binary

/-! # Shortest decimals

The decimal with the fewest digits that rounds back to a given magnitude of a format, and of two
such decimals the nearer one; written positionally, without an exponent.
-/
namespace StyleExpansion.Decimal

structure Scaled where
  digits : Nat
  exponent : Int
deriving Repr,DecidableEq

namespace Scaled

def ratio (d : Scaled) : Ratio := (Ratio.ofNat d.digits).mul (.tenPow d.exponent)

def distance (a b : Ratio) : Ratio :=
  ⟨(a.num * b.den - b.num * a.den) + (b.num * a.den - a.num * b.den),a.den * b.den⟩

/-- The least `k` with the ratio below `10 ^ k`, for a ratio that is not zero. -/
def width (a : Ratio) : Int :=
  let k : Int := (Nat.toDigits 10 a.num).length - (Nat.toDigits 10 a.den).length
  if (Ratio.tenPow k).le a then k + 1 else k

def ofMultiple (n : Nat) (e : Int) : Scaled := if n % 10 = 0 then ⟨n / 10,e + 1⟩ else ⟨n,e⟩

/-- The two neighbours of a ratio among the multiples of `10 ^ e` that read back as the ratio, the
nearer one first. -/
def readBack (f : Format) (a : Ratio) (e : Int) : List Scaled :=
  let scaled := a.div (.tenPow e)
  let low := ofMultiple (scaled.num / scaled.den) e
  let high := ofMultiple (scaled.num / scaled.den + 1) e
  let both := if (distance a low.ratio).le (distance a high.ratio) then [low,high] else [high,low]
  both.filter fun d => match f.round d.ratio with
    | .finite r => r.same a
    | _ => false

/-- Digit counts that suffice for every magnitude of a format of at most 53 bits. -/
def digitCounts : List Nat := [1,2,3,4,5,6,7,8,9,10,11,12,13,14,15,16,17]

def shortest (f : Format) (a : Ratio) : Scaled :=
  let k := width a
  match digitCounts.findSome? fun (n : Nat) => (readBack f a (k - n)).head? with
  | some d => d
  | none => ⟨a.num / a.den,0⟩

def positional (d : Scaled) : List Char :=
  let ds := Nat.toDigits 10 d.digits
  match d.exponent with
  | .ofNat k => ds ++ List.replicate k '0'
  | .negSucc k =>
    let places := k + 1
    if places < ds.length then
      ds.take (ds.length - places) ++ '.' :: ds.drop (ds.length - places)
    else '0' :: '.' :: List.replicate (places - ds.length) '0' ++ ds

end Scaled

end StyleExpansion.Decimal
