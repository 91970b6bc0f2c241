import StyleExpansion.Component
import StyleExpansion.Text.Place
import StyleExpansion.Value

/-! # Reading values

A text is a value if every one of its components can stand in a value. Semicolons, colons, curly
blocks, comparisons, at-keywords, unmatched closing brackets and bad strings and urls cannot; the
first of them is reported with the place right after it.
-/
namespace StyleExpansion

/-- A token that cannot stand in a value, and how many characters of the text follow it. -/
structure Misplaced where
  token : Token
  left : Nat
deriving Repr,DecidableEq

namespace Misplaced

def within (m : Misplaced) (more : Nat) : Misplaced := {m with left := m.left + more}

end Misplaced

namespace Value

def ofToken? : Token → Option Value
  | .ident name => some (ident name)
  | .number n => some (number n.text)
  | .percentage n => some (percentage n.percentText)
  | .dimension n unit => some (dimension n.text unit)
  | .quoted text => some (string text)
  | .url text => some (url text)
  | .hash name _ => some (hash name)
  | .delim mark => some (operator (String.singleton mark))
  | .comma => some (operator ",")
  | _ => none

def ofCall (name : String) (arguments : List Value) : Value :=
  match arguments with
  | [string text] => if Text.sameName name "url" then url text else function name arguments
  | _ => function name arguments

mutual
def readComponent : Component → Except Misplaced (Option Value)
  | .plain t _ =>
    if t.isSkipped then .ok none
    else match ofToken? t with
      | some v => .ok (some v)
      | none => .error ⟨t,0⟩
  | .block kind _ contents closed =>
    let after := (Component.endText kind closed).length
    match kind with
    | .bracket .curly => .error ⟨.opening kind,(Component.textOf contents).length + after⟩
    | .bracket .round => ((readComponents contents).mapError (·.within after)).map (some ∘ parens)
    | .bracket .square =>
      ((readComponents contents).mapError (·.within after)).map (some ∘ brackets)
    | .function name =>
      ((readComponents contents).mapError (·.within after)).map (some ∘ ofCall name)
def readComponents : List Component → Except Misplaced (List Value)
  | [] => .ok []
  | c :: cs =>
    match readComponent c with
    | .error m => .error (m.within (Component.textOf cs).length)
    | .ok none => readComponents cs
    | .ok (some v) => (readComponents cs).map (v :: ·)
end

def read (s : String) : Except Misplaced Value :=
  (readComponents (Component.ofText s)).map list

end Value

end StyleExpansion
