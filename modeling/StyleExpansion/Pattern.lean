/-! # Patterns

Patterns of values as the value definition notation gives them: terms, and the ways in which terms
are combined and repeated.
-/
namespace StyleExpansion

inductive Pattern
  | keyword (word : String)
  | type (name : String)
  | property (name : String)
  | literal (symbol : String)
  | function (name : String) (body : Pattern)
  | sequence (items : List Pattern)
  | allOf (items : List Pattern)
  | anyOf (items : List Pattern)
  | oneOf (items : List Pattern)
  | repeated (item : Pattern) (least : Nat) (most : Option Nat) (byComma : Bool)
  | nonEmpty (item : Pattern)
deriving Repr,Inhabited

namespace Pattern

def nothing : Pattern := oneOf []

def words (names : List String) : Pattern := oneOf (names.map keyword)

def optional (p : Pattern) : Pattern := repeated p 0 (some 1) false

def many (p : Pattern) : Pattern := repeated p 1 none false

def listed (p : Pattern) : Pattern := repeated p 1 none true

def upTo (most : Nat) (p : Pattern) : Pattern := repeated p 1 (some most) false

def combine (wrap : List Pattern → Pattern) : List Pattern → Pattern
  | [p] => p
  | ps => wrap ps

end Pattern

end StyleExpansion
