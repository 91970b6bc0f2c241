import StyleExpansion.Pattern
import StyleExpansion.Pattern.Sign

/-! # Reading patterns

Juxtaposition binds tighter than `&&`, that tighter than `||`, and that tighter than `|`. Signs are
taken one by one onto a stack of levels, one for every open group or function; a multiplier applies
to the last term of its level.
-/
namespace StyleExpansion.Pattern

/-- What encloses a level. -/
inductive Enclosure
  | whole
  | group
  | call (name : String)
deriving Repr,DecidableEq

/-- A level of nesting as read so far. Each list has its last pattern first: complete alternatives,
complete members of the current alternative, of the current member, and of the current sequence. -/
structure Level where
  enclosure : Enclosure
  alternatives : List Pattern
  anys : List Pattern
  alls : List Pattern
  terms : List Pattern
deriving Repr

namespace Level

def start (e : Enclosure) : Level := ⟨e,[],[],[],[]⟩

def addTerm (l : Level) (p : Pattern) : Level := {l with terms := p :: l.terms}

def endSequence (l : Level) : Option Level :=
  if l.terms.isEmpty then none
  else some {l with alls := combine sequence l.terms.reverse :: l.alls,terms := []}

def endAll (l : Level) : Option Level :=
  l.endSequence.map fun m => {m with anys := combine allOf m.alls.reverse :: m.anys,alls := []}

def endAny (l : Level) : Option Level :=
  l.endAll.map fun m =>
    {m with alternatives := combine anyOf m.anys.reverse :: m.alternatives,anys := []}

def finish (l : Level) : Option Pattern :=
  l.endAny.map fun m => combine oneOf m.alternatives.reverse

def multiply (l : Level) (least : Nat) (most : Option Nat) (byComma : Bool) : Option Level :=
  match l.terms with
  | [] => none
  | p :: ps => some {l with terms := repeated p least most byComma :: ps}

end Level

/-- The open levels, the innermost first; the outermost one is the whole pattern. -/
structure Levels where
  innermost : Level
  outer : List Level
deriving Repr

namespace Levels

def start : Levels := ⟨.start .whole,[]⟩

/-- Completes the innermost level and adds what `wrap` makes of its pattern to the one around it. -/
def close (ls : Levels) (wrap : Enclosure → Pattern → Option Pattern) : Option Levels :=
  match ls.outer with
  | [] => none
  | l :: rest => do
    let p ← ls.innermost.finish
    let q ← wrap ls.innermost.enclosure p
    return ⟨l.addTerm q,rest⟩

def wrapGroup (required : Bool) (e : Enclosure) (p : Pattern) : Option Pattern :=
  match e with
  | .group => some (if required then nonEmpty p else p)
  | _ => none

def wrapCall (e : Enclosure) (p : Pattern) : Option Pattern :=
  match e with
  | .call name => some (function name p)
  | _ => none

def multiply (ls : Levels) (least : Nat) (most : Option Nat) (byComma : Bool) : Option Levels :=
  (ls.innermost.multiply least most byComma).map fun l => {ls with innermost := l}

def addTerm (ls : Levels) (p : Pattern) : Levels := {ls with innermost := ls.innermost.addTerm p}

def enter (ls : Levels) (e : Enclosure) : Levels := ⟨.start e,ls.innermost :: ls.outer⟩

def within (ls : Levels) (f : Level → Option Level) : Option Levels :=
  (f ls.innermost).map fun l => {ls with innermost := l}

def push (ls : Levels) : Sign → Option Levels
  | .keyword word => some (ls.addTerm (keyword word))
  | .type name => some (ls.addTerm (type name))
  | .property name => some (ls.addTerm (property name))
  | .literal symbol => some (ls.addTerm (literal symbol))
  | .function name => some (ls.enter (.call name))
  | .groupOpen => some (ls.enter .group)
  | .groupClose required => ls.close (wrapGroup required)
  | .callClose => ls.close wrapCall
  | .bar => ls.within Level.endAny
  | .doubleBar => ls.within Level.endAll
  | .doubleAmpersand => ls.within Level.endSequence
  | .question => ls.multiply 0 (some 1) false
  | .star => ls.multiply 0 none false
  | .plus => ls.multiply 1 none false
  | .hash => ls.multiply 1 none true
  | .range least most => ls.multiply least most false

/-- Takes in all signs. A range right after a hash counts what the hash separates. -/
def pushAll : Levels → List Sign → Option Levels
  | ls,[] => some ls
  | ls,.hash :: .range least most :: xs => do
    pushAll (← ls.multiply least most true) xs
  | ls,x :: xs => do
    pushAll (← ls.push x) xs

def finish (ls : Levels) : Option Pattern :=
  if ls.outer.isEmpty then ls.innermost.finish else none

end Levels

def ofSigns? (xs : List Sign) : Option Pattern := do
  (← Levels.start.pushAll xs).finish

/-- The pattern that a text is. -/
def parse? (s : String) : Option Pattern := do
  ofSigns? (← Sign.read s.toList)

/-- The pattern of a text; a text that is none of the notation matches nothing. -/
def ofText (s : String) : Pattern := (parse? s).getD nothing

end StyleExpansion.Pattern
