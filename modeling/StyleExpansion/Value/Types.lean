import StyleExpansion.Decimal.Written
import StyleExpansion.Value

/-! # Basic types

The types that a single node has or has not: lengths, numbers, colors, images, identifiers. A
mathematical function is a length, a percentage, a number, a time and an angle alike.
-/
namespace StyleExpansion.Value

def wideKeywords : List String :=
  ["inherit","initial","unset","revert","revert-layer"]

def mathFunctions : List String :=
  ["calc","min","max","clamp","round","mod","rem","abs","sign","sin","cos","tan","asin","acos",
   "atan","atan2","pow","sqrt","hypot","log"]

def lengthUnits : List String :=
  ["px","em","rem","ex","rex","ch","rch","cap","rcap","ic","ric","lh","rlh","vw","vh","vi","vb",
   "vmin","vmax","svw","svh","svi","svb","svmin","svmax","lvw","lvh","lvi","lvb","dvw","dvh",
   "dvi","dvb","cqw","cqh","cqi","cqb","cqmin","cqmax","cm","mm","q","in","pt","pc","lvmin",
   "lvmax"]

def colorFunctions : List String :=
  ["rgb","rgba","hsl","hsla","hwb","lab","lch","oklab","oklch","color","color-mix","light-dark",
   "device-cmyk"]

def colorKeywords : List String :=
  ["currentcolor","transparent","accentcolor"]

def systemColors : List String :=
  ["accentcolortext","activetext","buttonborder","buttonface","buttontext","canvas","canvastext",
   "field","fieldtext","graytext","highlight","highlighttext","linktext","mark","marktext",
   "selecteditem","selecteditemtext","visitedtext","windowtext"]

def namedColors : List String :=
  ["aliceblue","antiquewhite","aqua","aquamarine","azure","beige","bisque","black",
   "blanchedalmond","blue","blueviolet","brown","burlywood","cadetblue","chartreuse","chocolate",
   "coral","cornflowerblue","cornsilk","crimson","cyan","darkblue","darkcyan","darkgoldenrod",
   "darkgray","darkgreen","darkgrey","darkkhaki","darkmagenta","darkolivegreen","darkorange",
   "darkorchid","darkred","darksalmon","darkseagreen","darkslateblue","darkslategray",
   "darkslategrey","darkturquoise","darkviolet","deeppink","deepskyblue","dimgray","dimgrey",
   "dodgerblue","firebrick","floralwhite","forestgreen","fuchsia","gainsboro","ghostwhite","gold",
   "goldenrod","gray","green","greenyellow","grey","honeydew","hotpink","indianred","indigo",
   "ivory","khaki","lavender","lavenderblush","lawngreen","lemonchiffon","lightblue","lightcoral",
   "lightcyan","lightgoldenrodyellow","lightgray","lightgreen","lightgrey","lightpink",
   "lightsalmon","lightseagreen","lightskyblue","lightslategray","lightslategrey",
   "lightsteelblue","lightyellow","lime","limegreen","linen","magenta","maroon",
   "mediumaquamarine","mediumblue","mediumorchid","mediumpurple","mediumseagreen",
   "mediumslateblue","mediumspringgreen","mediumturquoise","mediumvioletred","midnightblue",
   "mintcream","mistyrose","moccasin","navajowhite","navy","oldlace","olive","olivedrab","orange",
   "orangered","orchid","palegoldenrod","palegreen","paleturquoise","palevioletred","papayawhip",
   "peachpuff","peru","pink","plum","powderblue","purple","rebeccapurple","red","rosybrown",
   "royalblue","saddlebrown","salmon","sandybrown","seagreen","seashell","sienna","silver",
   "skyblue","slateblue","slategray","slategrey","snow","springgreen","steelblue","tan","teal",
   "thistle","tomato","turquoise","violet","wheat","white","whitesmoke","yellow","yellowgreen"]

def imageFunctions : List String :=
  ["linear-gradient","radial-gradient","conic-gradient","repeating-linear-gradient",
   "repeating-radial-gradient","repeating-conic-gradient","image","image-set","-webkit-image-set",
   "cross-fade","element","paint","-webkit-gradient","-webkit-linear-gradient"]

/-- A reference that stands for any one node until its value is known. -/
def isSubstitution (v : Value) : Bool := v.isCallOf ["var","env"]

def isMath (v : Value) : Bool := v.isCallOf mathFunctions

def hasUnit (units : List String) : Value → Bool
  | dimension _ unit => Text.isOneOf units unit
  | _ => false

def isZero : Value → Bool
  | number text =>
    match Decimal.Written.read? text with
    | some w => w.isZero
    | none => false
  | _ => false

def isLength (v : Value) : Bool := v.hasUnit lengthUnits || v.isZero || v.isMath

def isPercentage : Value → Bool
  | percentage _ => true
  | v => v.isMath

def isNumber : Value → Bool
  | number _ => true
  | v => v.isMath

def isInteger : Value → Bool
  | number text => text.toList.all fun c => c ≠ '.' && c ≠ 'e' && c ≠ 'E'
  | v => v.isMath

def isTime (v : Value) : Bool := v.hasUnit ["s","ms"] || v.isMath

def isAngle (v : Value) : Bool := v.hasUnit ["deg","rad","grad","turn"] || v.isZero || v.isMath

def isResolution (v : Value) : Bool := v.hasUnit ["dpi","dpcm","dppx","x"]

def isFlex (v : Value) : Bool := v.hasUnit ["fr"]

def isUrl : Value → Bool
  | url _ => true
  | v => v.isCallOf ["url","src"]

/-- The value is one of the keywords that every property takes. -/
def isWide : Value → Bool
  | ident name => Text.isOneOf wideKeywords name
  | _ => false

def isName : Value → Bool
  | ident _ => true
  | _ => false

def isCustomName (v : Value) : Bool := v.isName && !v.isWide && !v.isIdent "default"

def isDashedName : Value → Bool
  | ident name => ['-','-'].isPrefixOf name.toList
  | _ => false

def isHexDigit (c : Char) : Bool :=
  c.isDigit || ('a' ≤ c && c ≤ 'f') || ('A' ≤ c && c ≤ 'F')

def isHexColor : Value → Bool
  | hash text => [3,4,6,8].contains text.length && text.toList.all isHexDigit
  | _ => false

def isColor (v : Value) : Bool :=
  match v with
  | ident name =>
    Text.isOneOf colorKeywords name || Text.isOneOf namedColors name || Text.isOneOf systemColors name
  | function name _ => Text.isOneOf colorFunctions name
  | _ => v.isHexColor

def isImage (v : Value) : Bool := v.isUrl || v.isCallOf imageFunctions

def basicTypes : List (String × (Value → Bool)) :=
  [("length",isLength),
   ("percentage",isPercentage),
   ("length-percentage",fun v => v.isLength || v.isPercentage),
   ("number",isNumber),
   ("integer",isInteger),
   ("time",isTime),
   ("angle",isAngle),
   ("resolution",isResolution),
   ("flex",isFlex),
   ("string",isString),
   ("url",isUrl),
   ("color",isColor),
   ("hex-color",isHexColor),
   ("image",isImage),
   ("ident",isName),
   ("custom-ident",isCustomName),
   ("dashed-ident",isDashedName)]

end StyleExpansion.Value
