import StyleExpansion.Value.Reader
import StyleExpansion.Value.Writer

/-! # Errors

The ways in which an operation fails, and the message of each.
-/
namespace StyleExpansion

/-- Why a log file cannot be created. -/
inductive FileFault
  | missing
  | directory
deriving Repr,DecidableEq

namespace FileFault

def message : FileFault → String
  | missing => "No such file or directory (os error 2)"
  | directory => "Is a directory (os error 21)"

end FileFault

inductive Error
  | unreadable (token : Token) (place : Text.Place) (text : String)
  | unwritable (cause : Unwritable)
  | emptyLogPath
  | file (fault : FileFault)
deriving Repr,DecidableEq

namespace Error

def ofMisplaced (text : String) (m : Misplaced) : Error :=
  unreadable m.token (.before text.toList m.left) text

def message : Error → String
  | unreadable token place text =>
    "value parse error: Basic(UnexpectedToken(" ++ token.label ++ ")) at line " ++
      toString place.line ++ " column " ++ toString place.column ++ " in " ++ Text.shown text
  | unwritable cause => "value cannot be serialized: " ++ cause.message
  | emptyLogPath => "invalid configuration: debug log path must not be empty"
  | file fault => "io error: " ++ fault.message

end Error

namespace Value

def parse (text : String) : Except Error Value := (read text).mapError (.ofMisplaced text)

def generate (v : Value) : Except Error String := v.render.mapError .unwritable

end Value

end StyleExpansion
