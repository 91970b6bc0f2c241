/-! # Letter case

Names of style text are compared without regard to the case of the letters A to Z.
-/
namespace StyleExpansion.Text

def lowerBytes (s : String) : List UInt8 :=
  s.toByteArray.data.toList.map fun b => if 65 ≤ b && b ≤ 90 then b + 32 else b

def sameName (a b : String) : Bool := lowerBytes a == lowerBytes b

/-- The name is one of the given names. -/
def isOneOf (names : List String) (a : String) : Bool := names.any (sameName a)

theorem sameName_refl (a : String) : sameName a a = true := beq_self_eq_true _

end StyleExpansion.Text
