import StyleExpansion.Text.Blank

/-! # Property names

The forms of a property name: in lower case without the blanks around it, without a vendor's mark, and
in camel case. A custom property, whose name begins with two hyphens, has one form only.
-/
namespace StyleExpansion.PropertyName

def isCustom (name : List Char) : Bool := ['-','-'].isPrefixOf name

def plain (name : List Char) : List Char := (Text.trim name).map Char.toLower

def aliases : List (String × String) :=
  [("tap-highlight-color","-webkit-tap-highlight-color"),
   ("font-smoothing","-webkit-font-smoothing")]

def resolve (name : List Char) : List Char :=
  match aliases.find? fun a => a.1.toList == name with
  | some a => a.2.toList
  | none => name

def marked : List String :=
  ["-webkit-font-smoothing","-moz-osx-font-smoothing","-webkit-tap-highlight-color",
   "-webkit-text-stroke","-webkit-text-stroke-width","-webkit-text-stroke-color",
   "-webkit-text-fill-color","-webkit-line-clamp","-webkit-box-orient","-webkit-box-reflect",
   "-webkit-touch-callout","-webkit-user-drag","-webkit-overflow-scrolling",
   "-webkit-mask-box-image"]

def vendorMarks : List String := ["-webkit-","-moz-","-ms-","-o-"]

def dropMark (name : List Char) : List Char :=
  match vendorMarks.find? fun m => m.toList.isPrefixOf name with
  | some m => name.drop m.length
  | none => name

def unprefixedChars (name : List Char) : List Char :=
  if isCustom name then name
  else
    let resolved := resolve (plain name)
    if marked.any fun m => m.toList == resolved then resolved else dropMark resolved

/-- The name without its hyphens, each letter after one in upper case, and the first letter too if it
follows one. -/
def joinWords : Bool → List Char → List Char
  | _,[] => []
  | follows,c :: r =>
    if c = '-' then joinWords true r
    else (if follows then c.toUpper else c) :: joinWords false r

/-- The camel case of a plain name. The mark of one vendor begins in lower case. -/
def joined (name : List Char) : List Char :=
  if "-ms-".toList.isPrefixOf name then joinWords false (name.drop 1) else joinWords false name

def camelCaseChars (name : List Char) : List Char :=
  if isCustom name then name else joined (resolve (plain name))

def lowered (name : String) : String :=
  String.ofList (if isCustom name.toList then name.toList else plain name.toList)

/-- The lowered name without a vendor's mark, unless the mark is a part of the name. -/
def unprefixed (name : String) : String := String.ofList (unprefixedChars name.toList)

def camelCase (name : String) : String := String.ofList (camelCaseChars name.toList)

end StyleExpansion.PropertyName
