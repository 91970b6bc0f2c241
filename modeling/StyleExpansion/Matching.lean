import StyleExpansion.Pattern.Spans
import StyleExpansion.Value.Segments

/-! # Matching a value against alternatives

A value is shared out among alternatives in any order: again and again the first alternative, in the
order of declaration, that has no share yet and takes a span of the nodes left takes its longest one.
What no alternative takes is the remainder. A layered value is read layer by layer between commas.
-/
namespace StyleExpansion

/-- The length of the longest non-empty span from the start of the nodes that passes a test. -/
def longestSpan (test : List Value → Bool) (vs : List Value) : Option Nat :=
  (((List.range vs.length).map (· + 1)).filter fun k => test (vs.take k)).getLast?

/-- The shares of the alternatives, in the order of declaration, and the nodes left over. -/
structure Shares where
  found : List (Option Value)
  left : List Value
deriving Repr

namespace Shares

/-- The first alternative without a share that takes a span, and the length of its longest one. -/
def nextShare (tests : List (List Value → Bool)) (s : Shares) : Option (Nat × Nat) :=
  ((tests.zip s.found).zipIdx).findSome? fun x =>
    if x.1.2.isSome then none else (longestSpan x.1.1 s.left).map fun k => (x.2,k)

def give (s : Shares) (i k : Nat) : Shares :=
  ⟨s.found.set i (some (.ofNodes (s.left.take k))),s.left.drop k⟩

def handOut (tests : List (List Value → Bool)) : Nat → Shares → Shares
  | 0,s => s
  | n + 1,s =>
    match s.nextShare tests with
    | some (i,k) => handOut tests n (s.give i k)
    | none => s

def get (s : Shares) (i : Nat) (default : Value) : Value := (s.found[i]?.join).getD default

def get? (s : Shares) (i : Nat) : Option Value := s.found[i]?.join

end Shares

namespace Value

/-- Shares a value out among tests of spans, of which each takes at most one span. -/
def shareBy (tests : List (List Value → Bool)) (v : Value) : Shares :=
  .handOut tests tests.length ⟨tests.map fun _ => none,v.flatten⟩

/-- Shares a value out among patterns. -/
def share (alternatives : List Pattern) (v : Value) : Shares :=
  v.shareBy (alternatives.map Pattern.accepts)

/-- The comma-separated layers of a value that are not empty. -/
def layers (v : Value) : List Value := v.segments ","

def layered (read : Value → Vector Value n) (v : Value) : Vector Value n :=
  let rows := v.layers.map read
  .ofFn fun i => join "," (rows.map fun row => row[i])

end Value

end StyleExpansion
