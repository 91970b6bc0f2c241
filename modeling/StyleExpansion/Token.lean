import StyleExpansion.Decimal.Numeral
import StyleExpansion.Text.Quoted

/-! # Tokens of style text

The tokens that style text is made of, white space and comments included, and the label by which a
message names a token.
-/
namespace StyleExpansion

inductive Bracket
  | round
  | square
  | curly
deriving Repr,DecidableEq

/-- What opens a block: a bracket, or a function name with its round bracket. -/
inductive Opening
  | function (name : String)
  | bracket (kind : Bracket)
deriving Repr,DecidableEq

namespace Opening

def closer : Opening → Bracket
  | .function _ => .round
  | .bracket b => b

end Opening

/-- The two-character comparisons: a mark followed by an equals sign. -/
inductive Comparison
  | includes
  | dash
  | start
  | ending
  | substring
deriving Repr,DecidableEq

inductive Token
  | space
  | comment
  | ident (name : String)
  | atKeyword (name : String)
  | hash (name : String) (isIdent : Bool)
  | quoted (text : String)
  | badString (text : String)
  | url (text : String)
  | badUrl (text : String)
  | number (value : Decimal.Numeral)
  | percentage (value : Decimal.Numeral)
  | dimension (value : Decimal.Numeral) (unit : String)
  | delim (mark : Char)
  | comparison (kind : Comparison)
  | colon
  | semicolon
  | comma
  | markupOpen
  | markupClose
  | opening (block : Opening)
  | closing (kind : Bracket)
deriving Repr,DecidableEq

namespace Token

def isSkipped : Token → Bool
  | space => true
  | comment => true
  | _ => false

def labelled (name text : String) : String := name ++ "(" ++ Text.shown text ++ ")"

def bracketLabel : Bracket → String
  | .round => "ParenthesisBlock"
  | .square => "SquareBracketBlock"
  | .curly => "CurlyBracketBlock"

def closingLabel : Bracket → String
  | .round => "CloseParenthesis"
  | .square => "CloseSquareBracket"
  | .curly => "CloseCurlyBracket"

def comparisonLabel : Comparison → String
  | .includes => "IncludeMatch"
  | .dash => "DashMatch"
  | .start => "PrefixMatch"
  | .ending => "SuffixMatch"
  | .substring => "SubstringMatch"

def label : Token → String
  | space => "WhiteSpace"
  | comment => "Comment"
  | ident name => labelled "Ident" name
  | atKeyword name => labelled "AtKeyword" name
  | hash name true => labelled "IDHash" name
  | hash name false => labelled "Hash" name
  | quoted text => labelled "QuotedString" text
  | badString text => labelled "BadString" text
  | url text => labelled "UnquotedUrl" text
  | badUrl text => labelled "BadUrl" text
  | number value => "Number(" ++ value.text ++ ")"
  | percentage value => "Percentage(" ++ value.percentText ++ ")"
  | dimension value unit => "Dimension(" ++ value.text ++ unit ++ ")"
  | delim mark => "Delim(\x27" ++ String.ofList (Text.visible mark) ++ "\x27)"
  | comparison kind => comparisonLabel kind
  | colon => "Colon"
  | semicolon => "Semicolon"
  | comma => "Comma"
  | markupOpen => "CDO"
  | markupClose => "CDC"
  | opening (.function name) => labelled "Function" name
  | opening (.bracket kind) => bracketLabel kind
  | closing kind => closingLabel kind

end Token

/-- A token with the text it was read from. -/
structure Lexeme where
  token : Token
  source : List Char
deriving Repr,DecidableEq

end StyleExpansion
