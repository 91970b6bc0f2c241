import StyleExpansion.Recogniser.Attribute
import StyleExpansion.Recogniser.Pseudo

/-! # The form of selectors

Selectors are read token by token. A selector is one or more compounds with combinators between them;
a compound is at most one type, then classes, identifiers, attributes, pseudo-classes and
pseudo-elements. What follows a known pseudo-element is restricted, and no combinator is allowed
there.
-/
namespace StyleExpansion.Selector

/-- What was read last. A compound begins at the start of a selector, after a leading combinator, and
after a combinator between two compounds. -/
inductive Stage
  | index (formula : Formula) (hasSelectors : Bool)
  | start
  | led
  | joined
  | nesting
  | typeName
  | bar
  | dot
  | colon
  | colons
  | compound
  | space
  | closing
deriving Repr,DecidableEq

namespace Stage

def objection? (scope : Scope) : Stage → Option Cause
  | index f _ => if f.isWhole then none else some .unfinished
  | start => some (if scope.relative then .unfinished else .emptySelector)
  | led => some .emptySelector
  | joined => some .danglingCombinator
  | bar => some .unfinished
  | dot => some .unfinished
  | colon => some .unfinished
  | colons => some .unfinished
  | _ => none

end Stage

/-- The stage of a selector, and the known pseudo-element that it has come to. -/
structure Reading where
  stage : Stage
  element : Option Element
deriving Repr,DecidableEq

namespace Reading

def start : Reading := ⟨.start,none⟩

def move (r : Reading) (s : Stage) : Except Cause Reading := .ok {r with stage := s}

def isCombinator : Token → Bool
  | .delim '>' => true
  | .delim '+' => true
  | .delim '~' => true
  | _ => false

def isWord (word : String) : Token → Bool
  | .ident name => Text.sameName name word
  | _ => false

def part? (r : Reading) (t : Token) : Option (Except Cause Reading) :=
  let plain := fun s => if r.element.isSome then .error (.afterPseudoElement t) else r.move s
  match t with
  | .delim '.' => some (plain .dot)
  | .delim '&' => some (plain .compound)
  | .hash _ true => some (plain .compound)
  | .opening (.bracket .square) => some (plain .compound)
  | .colon => some (r.move .colon)
  | _ => none

def type? (r : Reading) (t : Token) : Option (Except Cause Reading) :=
  let plain := fun s => if r.element.isSome then .error (.afterPseudoElement t) else r.move s
  match t with
  | .ident _ => some (plain .typeName)
  | .delim '*' => some (plain .typeName)
  | .delim '|' => some (plain .bar)
  | _ => none

def begin (r : Reading) (scope : Scope) (t : Token) : Except Cause Reading :=
  if t = .space then .ok r
  else if t = .delim '&' then r.move .nesting
  else if r.stage = .start && scope.relative && isCombinator t then r.move .led
  else match r.type? t <|> r.part? t with
    | some result => result
    | none => .error (if r.stage = .joined then .danglingCombinator else .emptySelector)

def follow (r : Reading) (scope : Scope) (t : Token) : Except Cause Reading :=
  match r.part? t with
  | some result => result
  | none =>
    if t = .space then r.move (if r.element.isSome then .closing else .space)
    else if isCombinator t && r.element.isNone then
      if scope.combinators then r.move .joined else .error .selectorState
    else .error (.unexpected t)

def resume (r : Reading) (scope : Scope) (t : Token) : Except Cause Reading :=
  if t = .space then .ok r
  else if !scope.combinators then .error .selectorState
  else if isCombinator t then r.move .joined
  else begin {r with stage := .joined} scope t

def pseudoElement (r : Reading) (scope : Scope) (e : Option Element) : Except Cause Reading :=
  if scope.elements && Element.allowsElement r.element then .ok ⟨.compound,e <|> r.element⟩
  else .error .selectorState

def pseudoClass (r : Reading) (scope : Scope) (name : String) : Except Cause Reading :=
  if Text.isOneOf oneColonElements name then r.pseudoElement scope (Element.ofName? name)
  else match Element.objection? r.element name with
    | some cause => .error cause
    | none => r.move .compound

/-- A function after one colon. After a pseudo-element only those of other selectors are allowed. -/
def pseudoCall (r : Reading) (scope : Scope) (name : String) : Except Cause Reading :=
  if Text.isOneOf oneColonElements name then r.pseudoElement scope none
  else if r.element.isNone || Text.isOneOf ("not" :: Arguments.forgiving) name then r.move .compound
  else .error .selectorState

def next (r : Reading) (scope : Scope) (t : Token) : Except Cause Reading :=
  match r.stage,t with
  | .index f hasSelectors,t =>
    if f.isWhole && hasSelectors && isWord "of" t then r.move .start
    else match f.next? t with
      | some g => r.move (.index g hasSelectors)
      | none => .error (.unexpected t)
  | .bar,.ident _ => r.move .compound
  | .bar,.delim '*' => r.move .compound
  | .bar,t => .error (.unexpected t)
  | .dot,.ident _ => r.move .compound
  | .dot,t => .error (.className t)
  | .colon,.colon => r.move .colons
  | .colon,.ident name => r.pseudoClass scope name
  | .colon,.opening (.function name) => r.pseudoCall scope name
  | .colons,.ident name => r.pseudoElement scope (Element.ofName? name)
  | .colons,.opening (.function name) => r.pseudoElement scope (Element.ofCall? name)
  | .colon,t => .error (.pseudoName t)
  | .colons,t => .error (.pseudoName t)
  | .nesting,t => (r.type? t).getD (r.follow scope t)
  | .typeName,t => if t = .delim '|' then r.move .bar else r.follow scope t
  | .compound,t => r.follow scope t
  | .space,t => r.resume scope t
  | .closing,t => if t = .space then .ok r else .error (.unexpected t)
  | _,t => r.begin scope t

/-- A comma: a selector ends here and another one begins. -/
def comma (r : Reading) (scope : Scope) : Except Cause Reading :=
  match r.stage.objection? scope with
  | some cause => .error cause
  | none => if scope.several then .ok start else .error (.unexpected .comma)

def argumentsOf (r : Reading) (name : String) : Arguments :=
  if r.stage = .colons then .ofElement name else .ofClass name

def fault (scope : Scope) (r : Reading) : List Component → Option Fault
  | [] => (r.stage.objection? scope).map (⟨·,0⟩)
  | .plain t source :: cs =>
    if t = .comment then fault scope r cs
    else match if t = .comma then r.comma scope else r.next scope t with
      | .error cause => some (Component.faultAt cause (.plain t source :: cs))
      | .ok u => fault scope u cs
  | .block kind source contents closed :: cs =>
    match r.next scope (.opening kind) with
    | .error cause => some (Component.faultAt cause (.block kind source contents closed :: cs))
    | .ok u =>
      let inside := match kind with
        | .bracket _ => attributeFault contents
        | .function name =>
          match r.argumentsOf name with
          | .selectors inner => fault inner ⟨.start,r.element⟩ contents
          | .index hasSelectors => fault .inner ⟨.index .start hasSelectors,none⟩ contents
          | other => other.fault contents
      match inside with
      | some f => some (f.within (Component.extentAfter kind closed cs))
      | none => fault scope u cs

end Reading

def listFault (relative : Bool) (prelude : List Component) : Option Fault :=
  Reading.start.fault (.rule relative) prelude

end StyleExpansion.Selector
