import StyleExpansion.Token.Lexer

/-! # Components

Style text as a forest: a token that neither opens nor closes a block, or a block with its contents.
A closing bracket ends the innermost open block only if it is that block's own; any other one is a
token like the rest. A block still open at the end of the text is complete but not closed.
-/
namespace StyleExpansion

inductive Component
  | plain (token : Token) (source : List Char)
  | block (kind : Opening) (source : List Char) (contents : List Component) (closed : Bool)

namespace Component

def closingText : Bracket → List Char
  | .round => [')']
  | .square => [']']
  | .curly => ['\x7d']

def endText (kind : Opening) (closed : Bool) : List Char :=
  if closed then closingText kind.closer else []

mutual
def text : Component → List Char
  | plain _ source => source
  | block kind source contents closed => source ++ textOf contents ++ endText kind closed
def textOf : List Component → List Char
  | [] => []
  | c :: cs => c.text ++ textOf cs
end

theorem textOf_append (a b : List Component) : textOf (a ++ b) = textOf a ++ textOf b := by
  induction a with
  | nil => rfl
  | cons c cs ih => simp [textOf,ih]

def isSkipped : Component → Bool
  | plain t _ => t.isSkipped
  | block .. => false

def isComment : Component → Bool
  | plain .comment _ => true
  | _ => false

/-- The component is a plain token of the given kind. -/
def isToken (t : Token) : Component → Bool
  | plain u _ => u == t
  | block .. => false

def isSemicolon : Component → Bool := isToken .semicolon

def isComma : Component → Bool := isToken .comma

def head : Component → Token
  | plain t _ => t
  | block kind .. => .opening kind

/-- The text of the token of a plain component, or of the one that opens the block. -/
def headText : Component → List Char
  | plain _ source => source
  | block _ source _ _ => source

def allSkipped (cs : List Component) : Bool := cs.all isSkipped

def meaningful (cs : List Component) : List Component := cs.filter fun c => !c.isSkipped

def isSole (p : Component → Bool) (cs : List Component) : Bool :=
  match meaningful cs with
  | [c] => p c
  | _ => false

/-- An identifier that passes a test. -/
def isIdent (p : String → Bool) : Component → Bool
  | plain (.ident name) _ => p name
  | _ => false

def isName : Component → Bool := isIdent fun _ => true

def isQuoted : Component → Bool
  | plain (.quoted _) _ => true
  | _ => false

end Component

/-- A block being read: how it was opened, and its components so far, the last one first. -/
structure Frame where
  kind : Opening
  source : List Char
  contents : List Component

/-- The components read so far, innermost open block first. -/
structure Nesting where
  frames : List Frame
  outermost : List Component

namespace Nesting

def empty : Nesting := ⟨[],[]⟩

def add (n : Nesting) (c : Component) : Nesting :=
  match n.frames with
  | [] => ⟨[],c :: n.outermost⟩
  | f :: fs => ⟨{f with contents := c :: f.contents} :: fs,n.outermost⟩

def close (n : Nesting) (closed : Bool) : Nesting :=
  match n.frames with
  | [] => n
  | f :: fs => add ⟨fs,n.outermost⟩ (.block f.kind f.source f.contents.reverse closed)

def endsInnermost (n : Nesting) (b : Bracket) : Bool :=
  match n.frames with
  | [] => false
  | f :: _ => f.kind.closer == b

def push (n : Nesting) (x : Lexeme) : Nesting :=
  match x.token with
  | .opening kind => ⟨⟨kind,x.source,[]⟩ :: n.frames,n.outermost⟩
  | .closing b => if n.endsInnermost b then n.close true else n.add (.plain x.token x.source)
  | _ => n.add (.plain x.token x.source)

/-- The components of the text as it stands, with the blocks that are still open. -/
def components (n : Nesting) : List Component :=
  (n.frames.foldl (fun m _ => m.close false) n).outermost.reverse

end Nesting

namespace Component

def ofLexemes (xs : List Lexeme) : List Component := (xs.foldl Nesting.push .empty).components

def parse (s : List Char) : List Component := ofLexemes (lexemes s)

def ofText (s : String) : List Component := parse s.toList

end Component

end StyleExpansion
