import StyleExpansion.Edge
import StyleExpansion.Matching
import StyleExpansion.Value.Equality

/-! # Shorthands

A shorthand has a name, the properties that it sets, and the way in which its value is assigned to
them: one value for each, whatever the value of the shorthand is.
-/
namespace StyleExpansion

structure Longhand where
  property : String
  value : Value
deriving Repr,DecidableEq

structure Shorthand where
  name : String
  longhands : List String
  assign : Value → Vector Value longhands.length

namespace Shorthand

/-- The properties that the shorthand sets, each with its value. -/
def expand (s : Shorthand) (v : Value) : List Longhand :=
  s.longhands.zipWith Longhand.mk (s.assign v).toList

theorem expand_property (s : Shorthand) (v : Value) :
    (s.expand v).map Longhand.property = s.longhands := by
  have h : ∀ (names : List String) (vs : List Value), names.length = vs.length →
      (names.zipWith Longhand.mk vs).map Longhand.property = names := by
    intro names
    induction names with
    | nil => intro vs _; rfl
    | cons n ns ih =>
      intro vs hl
      cases vs with
      | nil => cases hl
      | cons w ws => simpa using ih ws (by simpa using hl)
  exact h _ _ (by simp)

end Shorthand

namespace Value

def soleKeyword (v : Value) : Option String :=
  match v.flatten with
  | [ident name] => some name.toLower
  | _ => none

def presentOr (vs : List Value) (i : Nat) (default : Value) : Value :=
  (vs[i]?.filter fun v => !v.isEmpty).getD default

def ofNodesOr (vs : List Value) (default : Value) : Value :=
  if vs.isEmpty then default else ofNodes vs

end Value

end StyleExpansion
