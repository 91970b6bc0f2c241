import StyleExpansion.Shorthand

/-! # Shorthands of fonts

The font with its size, line height and family, which follow the other parts in this order, and the
variants and the synthesis of a font.
-/
namespace StyleExpansion.Shorthand
open Value

def systemFonts : List String :=
  ["caption","icon","menu","message-box","small-caption","status-bar"]

def systemFont (v : Value) : Option Value :=
  match v.flatten with
  | [ident name] => if Text.isOneOf systemFonts name then some (ident name) else none
  | _ => none

def sizeNotation : Pattern :=
  .sequence [.property "font-size",.literal "/",.property "line-height"]

/-- What follows the other parts of a font: its size, its line height if there is one, its family. -/
structure FontEnd where
  size : Value
  lineHeight : Value
  family : Value

def fontEnd (vs : List Value) : FontEnd :=
  if (vs.take 3).length == 3 && sizeNotation.accepts (vs.take 3) then
    ⟨vs.getD 0 empty,vs.getD 2 empty,ofNodesOr (vs.drop 3) (ident "initial")⟩
  else ⟨vs.getD 0 (ident "initial"),ident "normal",ofNodesOr (vs.drop 1) (ident "initial")⟩

def font : Shorthand :=
  ⟨"font",
    ["font-style","font-variant-caps","font-weight","font-stretch","font-size","line-height",
     "font-family"],fun v =>
    let initial := ident "initial"
    match systemFont v with
    | some family => #v[initial,initial,initial,initial,initial,initial,family]
    | none =>
      let s := v.share [.property "font-style",.words ["normal","small-caps"],
        .property "font-weight",.type "font-stretch-css3"]
      let e := fontEnd s.left
      #v[s.get 0 initial,s.get 1 initial,s.get 2 initial,s.get 3 initial,e.size,e.lineHeight,
        e.family]⟩

def fontSynthesis : Shorthand :=
  ⟨"font-synthesis",
    ["font-synthesis-weight","font-synthesis-style","font-synthesis-small-caps",
     "font-synthesis-position"],fun v =>
    let isNone := v.soleKeyword == some "none"
    let s := v.share [.keyword "weight",.keyword "style",.keyword "small-caps",.keyword "position"]
    let flag := fun (i : Nat) =>
      if (s.get? i).isSome && !isNone then ident "auto" else ident "none"
    #v[flag 0,flag 1,flag 2,flag 3]⟩

def capsKeywords : List String :=
  ["small-caps","all-small-caps","petite-caps","all-petite-caps","unicase","titling-caps"]

def fontVariant : Shorthand :=
  ⟨"font-variant",
    ["font-variant-ligatures","font-variant-caps","font-variant-alternates","font-variant-numeric",
     "font-variant-east-asian","font-variant-position","font-variant-emoji"],fun v =>
    let normal := ident "normal"
    if v.soleKeyword == some "normal" then #v[normal,normal,normal,normal,normal,normal,normal]
    else if v.soleKeyword == some "none" then
      #v[ident "none",normal,normal,normal,normal,normal,normal]
    else
      let s := v.share [.type "ligatures-list",.words capsKeywords,.type "alternates-list",
        .type "numeric-list",.type "east-asian-list",.words ["sub","super"],
        .words ["text","emoji","unicode"]]
      #v[s.get 0 normal,s.get 1 normal,s.get 2 normal,s.get 3 normal,s.get 4 normal,
        s.get 5 normal,s.get 6 normal]⟩

end StyleExpansion.Shorthand
