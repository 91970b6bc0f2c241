import StyleExpansion.Pattern.Mask
import StyleExpansion.Pattern.Properties
import StyleExpansion.Pattern.Types
import StyleExpansion.Value.Types

/-! # Spans of a pattern

A pattern takes a span of nodes from the start of a list, in general in several ways; its spans are
given by their lengths, in increasing order. Patterns nest within each other, by way of the
dictionary too, to a fixed depth, below which nothing matches.
-/
namespace StyleExpansion

def insertAscending (n : Nat) : List Nat → List Nat
  | [] => [n]
  | m :: ms => if n < m then n :: m :: ms else if n = m then m :: ms else m :: insertAscending n ms

def ascending (ns : List Nat) : List Nat := ns.foldr insertAscending []

namespace Pattern

/-- A way to take spans: the lengths that may be taken from the start of a list of nodes. -/
abbrev Taker := List Value → List Nat

def takeOne (test : Value → Bool) : Taker
  | [] => []
  | v :: _ => if test v then [1] else []

/-- The lengths reached by taking a further span after each of the given lengths. -/
def advance (take : Taker) (vs : List Value) (starts : List Nat) : List Nat :=
  ascending (starts.flatMap fun i => (take (vs.drop i)).map (i + ·))

def takeSequence (take : Pattern → Taker) (ps : List Pattern) : Taker := fun vs =>
  ps.foldl (fun starts p => advance (take p) vs starts) [0]

/-- The items used make up a span of a group: all of them are needed, or at least one. -/
def enough (all : Bool) (items : List Pattern) (used : Mask) : Bool :=
  if all then used.size == items.length else used != 0

/-- Takes spans of the items of a group in any order, each item at most once. Unless all of them are
needed, none may be empty. -/
def takeAnyOrder (take : Pattern → Taker) (all : Bool) (items : List Pattern) : Nat → Mask → Taker
  | 0,used,_ => if enough all items used then [0] else []
  | n + 1,used,vs =>
    (if enough all items used then [0] else []) ++
      if used.size = items.length then []
      else items.zipIdx.flatMap fun x =>
        if used.has x.2 then []
        else (take x.1 vs).flatMap fun k =>
          if k = 0 && !all then []
          else (takeAnyOrder take all items n (used.put x.2) (vs.drop k)).map (k + ·)

/-- Takes one more repetition, after a comma if one is asked for. A repetition is never empty. -/
def takeNext (take : Taker) (comma : Bool) : Taker := fun vs =>
  if comma then
    match vs with
    | v :: rest =>
      if v.isOperator "," then ((take rest).filter (· ≠ 0)).map (1 + ·) else []
    | [] => []
  else (take vs).filter (· ≠ 0)

/-- Takes up to so many more repetitions after `count` of them, from each of the lengths reached. -/
def takeRounds (take : Taker) (byComma : Bool) (least : Nat) (vs : List Value) :
    Nat → Nat → List Nat → List Nat
  | 0,_,_ => []
  | n + 1,count,starts =>
    let reached := advance (takeNext take (byComma && count != 0)) vs starts
    (if least ≤ count + 1 then reached else []) ++
      takeRounds take byComma least vs n (count + 1) reached

def roundLimit (most : Option Nat) (size : Nat) : Nat :=
  match most with
  | some m => min m (size + 1)
  | none => size + 1

def takeRepeated (take : Taker) (least : Nat) (most : Option Nat) (byComma : Bool) : Taker := fun vs =>
  (if least = 0 then [0] else []) ++
    takeRounds take byComma least vs (roundLimit most vs.length) 0 [0]

def takeType (take : Pattern → Taker) (name : String) : Taker
  | [] => []
  | v :: vs =>
    if v.isSubstitution then [1]
    else if name = "any-value" then (List.range (vs.length + 1)).map (· + 1)
    else match Value.basicTypes.lookup name with
      | some test => if test v then [1] else []
      | none =>
        match ofType? name with
        | some p => take p (v :: vs)
        | none => []

def takeProperty (take : Pattern → Taker) (name : String) : Taker := fun vs =>
  if vs.head?.any Value.isSubstitution then [1]
  else match ofProperty? name with
    | some p => take p vs
    | none => []

/-- Takes a function of the given name whose arguments are all taken by a pattern. -/
def takeCall (take : Taker) (name : String) : Taker
  | .function found args :: _ =>
    if Text.sameName found name && (take args).contains args.length then [1] else []
  | _ => []

/-- The lengths of the spans that a pattern takes, within so many levels of nesting. -/
def spansWithin : Nat → Pattern → Taker
  | 0,_,_ => []
  | n + 1,p,vs => ascending <|
    match p with
    | keyword word => takeOne (·.isIdent word) vs
    | literal symbol => takeOne (·.isOperator symbol) vs
    | type name => takeType (spansWithin n) name vs
    | property name => takeProperty (spansWithin n) name vs
    | function name body => takeCall (spansWithin n body) name vs
    | sequence items => takeSequence (spansWithin n) items vs
    | allOf items => takeAnyOrder (spansWithin n) true items items.length 0 vs
    | anyOf items => takeAnyOrder (spansWithin n) false items items.length 0 vs
    | oneOf items => items.flatMap fun item => spansWithin n item vs
    | repeated item least most byComma => takeRepeated (spansWithin n item) least most byComma vs
    | nonEmpty item => (spansWithin n item vs).filter (· ≠ 0)

/-- The levels of nesting within which patterns match. -/
def levels : Nat := 49

/-- The lengths of the spans that the pattern takes from the start of a list of nodes. -/
def spans (p : Pattern) : Taker := spansWithin levels p

/-- The pattern takes all nodes of a list. -/
def accepts (p : Pattern) (vs : List Value) : Bool := (p.spans vs).contains vs.length

/-- The nodes are a value of the property: a keyword that every property takes, or what its pattern
accepts. A property that the dictionary does not hold has no values. -/
def isValueOf (property : String) (vs : List Value) : Bool :=
  match ofProperty? property.toLower with
  | none => false
  | some p => (vs.length == 1 && vs.all Value.isWide) || p.accepts vs

end Pattern

end StyleExpansion
