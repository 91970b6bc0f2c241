import StyleExpansion.Shorthand

/-! # Shorthands of text

White space, wrapping, decoration and emphasis, list markers, the caret, and fallbacks of positions.
-/
namespace StyleExpansion.Shorthand
open Value

def collapseKeywords : List String :=
  ["collapse","discard","preserve","preserve-breaks","preserve-spaces","break-spaces"]

/-- The keywords that stand for a way of collapsing and a way of wrapping together. -/
def whiteSpaceKeywords : List (String × Value × Value) :=
  [("normal",ident "collapse",ident "wrap"),
   ("pre",ident "preserve",ident "nowrap"),
   ("pre-wrap",ident "preserve",ident "wrap"),
   ("pre-line",ident "preserve-breaks",ident "wrap")]

def isSole (names : List String) : List Value → Bool
  | [ident name] => Text.isOneOf names name
  | _ => false

def whiteSpace : Shorthand :=
  ⟨"white-space",["white-space-collapse","text-wrap-mode"],fun v =>
    let preset := v.soleKeyword.bind fun keyword =>
      whiteSpaceKeywords.find? fun e => e.1 == keyword
    let s := v.shareBy [isSole collapseKeywords,isSole ["wrap","nowrap"]]
    #v[(preset.map (·.2.1)).getD (s.get 0 (ident "collapse")),
      (preset.map (·.2.2)).getD (s.get 1 (ident "wrap"))]⟩

def textWrap : Shorthand :=
  ⟨"text-wrap",["text-wrap-mode","text-wrap-style"],fun v =>
    let s := v.share [.property "text-wrap-mode",.property "text-wrap-style"]
    #v[s.get 0 (ident "wrap"),s.get 1 (ident "auto")]⟩

def textDecoration : Shorthand :=
  ⟨"text-decoration",
    ["text-decoration-line","text-decoration-style","text-decoration-color",
     "text-decoration-thickness"],fun v =>
    let s := v.share [.property "text-decoration-line",.property "text-decoration-style",
      .property "text-decoration-color",.property "text-decoration-thickness"]
    #v[s.get 0 (ident "none"),s.get 1 (ident "solid"),s.get 2 (ident "currentcolor"),
      s.get 3 (ident "auto")]⟩

def textEmphasis : Shorthand :=
  ⟨"text-emphasis",["text-emphasis-style","text-emphasis-color"],fun v =>
    let s := v.share [.property "text-emphasis-style",.property "text-emphasis-color"]
    #v[s.get 0 (ident "none"),s.get 1 (ident "currentcolor")]⟩

/-- Without an image the marker has no default type either. -/
def listStyle : Shorthand :=
  ⟨"list-style",["list-style-position","list-style-image","list-style-type"],fun v =>
    let s := v.share [.property "list-style-position",.property "list-style-image",
      .property "list-style-type"]
    let noImage := (s.get? 1).any (isIdent "none")
    #v[s.get 0 (ident "outside"),s.get 1 (ident "none"),
      s.get 2 (if noImage then ident "none" else ident "disc")]⟩

def caret : Shorthand :=
  ⟨"caret",["caret-color","caret-animation","caret-shape"],fun v =>
    let s := v.share [.property "caret-color",.property "caret-animation",.property "caret-shape"]
    #v[s.get 0 (ident "auto"),s.get 1 (ident "auto"),s.get 2 (ident "auto")]⟩

def positionTry : Shorthand :=
  ⟨"position-try",["position-try-order","position-try-fallbacks"],fun v =>
    let vs := v.flatten
    let isOrdered := vs.head?.any fun first =>
      (Pattern.property "position-try-order").accepts first.flatten
    #v[if isOrdered then vs.getD 0 empty else ident "normal",
      ofNodesOr (if isOrdered then vs.drop 1 else vs) (ident "none")]⟩

end StyleExpansion.Shorthand
