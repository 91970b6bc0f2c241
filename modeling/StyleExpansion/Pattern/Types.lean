import StyleExpansion.Pattern

/-! # Named types

The types of the dictionary that are defined by a pattern.
-/
namespace StyleExpansion.Pattern

def typeTable : List (String × Pattern) :=
  [("line-width",.oneOf [.type "length",.keyword "thin",.keyword "medium",.keyword "thick"]),
   ("line-style",
      .words ["none","hidden","dotted","dashed","solid","double","groove","ridge","inset",
        "outset"]),
   ("outline-line-style",
      .words ["none","dotted","dashed","solid","double","groove","ridge","inset","outset"]),
   ("position",
      .oneOf [.oneOf [.keyword "left",.keyword "center",.keyword "right",.keyword "top",
        .keyword "bottom",.type "length-percentage"],.allOf [.words ["left","center","right"],
        .words ["top","center","bottom"]],.sequence [.oneOf [.keyword "left",.keyword "center",
        .keyword "right",.type "length-percentage"],.oneOf [.keyword "top",.keyword "center",
        .keyword "bottom",.type "length-percentage"]],.allOf [.sequence [.words ["left","right"],
        .type "length-percentage"],.sequence [.words ["top","bottom"],.type "length-percentage"]]]),
   ("bg-position",
      .oneOf [.oneOf [.keyword "left",.keyword "center",.keyword "right",.keyword "top",
        .keyword "bottom",.type "length-percentage"],.sequence [.oneOf [.keyword "left",
        .keyword "center",.keyword "right",.type "length-percentage"],.oneOf [.keyword "top",
        .keyword "center",.keyword "bottom",.type "length-percentage"]],
        .allOf [.oneOf [.keyword "center",.sequence [.words ["left","right"],
        .optional (.type "length-percentage")]],.oneOf [.keyword "center",
        .sequence [.words ["top","bottom"],.optional (.type "length-percentage")]]]]),
   ("bg-size",
      .oneOf [.upTo 2 (.oneOf [.type "length-percentage",.keyword "auto"]),.keyword "cover",
        .keyword "contain"]),
   ("bg-image",.oneOf [.type "image",.keyword "none"]),
   ("bg-clip",.oneOf [.type "visual-box",.keyword "border-area",.keyword "text"]),
   ("repeat-style",
      .oneOf [.keyword "repeat-x",.keyword "repeat-y",.upTo 2 (.words ["repeat","space","round",
        "no-repeat"])]),
   ("attachment",.words ["scroll","fixed","local"]),
   ("box",.words ["border-box","padding-box","content-box"]),
   ("visual-box",.words ["border-box","padding-box","content-box"]),
   ("shape-box",.oneOf [.type "visual-box",.keyword "margin-box"]),
   ("geometry-box",
      .oneOf [.type "shape-box",.keyword "fill-box",.keyword "stroke-box",.keyword "view-box"]),
   ("coord-box",
      .words ["content-box","padding-box","border-box","fill-box","stroke-box","view-box"]),
   ("mask-reference",.oneOf [.keyword "none",.type "image"]),
   ("compositing-operator",.words ["add","subtract","intersect","exclude"]),
   ("masking-mode",.words ["alpha","luminance","match-source"]),
   ("easing-function",
      .oneOf [.keyword "linear",.function "linear" (.type "linear-stop-list"),.keyword "ease",
        .keyword "ease-in",.keyword "ease-out",.keyword "ease-in-out",
        .function "cubic-bezier" (.sequence [.type "number",.literal ",",.type "number",
        .literal ",",.type "number",.literal ",",.type "number"]),.keyword "step-start",
        .keyword "step-end",.function "steps" (.sequence [.type "integer",
        .optional (.sequence [.literal ",",.type "step-position"])])]),
   ("linear-stop-list",
      .listed (.allOf [.type "number",.repeated (.type "percentage") 0 (some 2) false])),
   ("step-position",.words ["jump-start","jump-end","jump-none","jump-both","start","end"]),
   ("single-animation-iteration-count",.oneOf [.keyword "infinite",.type "number"]),
   ("single-animation-direction",.words ["normal","reverse","alternate","alternate-reverse"]),
   ("single-animation-fill-mode",.words ["none","forwards","backwards","both"]),
   ("single-animation-play-state",.words ["running","paused"]),
   ("keyframes-name",.oneOf [.type "custom-ident",.type "string"]),
   ("single-transition-property",.oneOf [.keyword "all",.type "custom-ident"]),
   ("transition-behavior-value",.words ["normal","allow-discrete"]),
   ("timeline-range-name",
      .words ["cover","contain","entry","exit","entry-crossing","exit-crossing","scroll","view"]),
   ("absolute-size",
      .words ["xx-small","x-small","small","medium","large","x-large","xx-large","xxx-large"]),
   ("relative-size",.words ["larger","smaller"]),
   ("font-weight-absolute",.oneOf [.keyword "normal",.keyword "bold",.type "number"]),
   ("font-stretch-css3",
      .words ["normal","ultra-condensed","extra-condensed","condensed","semi-condensed",
        "semi-expanded","expanded","extra-expanded","ultra-expanded"]),
   ("generic-family",
      .words ["serif","sans-serif","cursive","fantasy","monospace","system-ui","emoji","math",
        "fangsong","ui-serif","ui-sans-serif","ui-monospace","ui-rounded"]),
   ("family-name",.oneOf [.type "string",.many (.type "custom-ident")]),
   ("common-lig-values",.words ["common-ligatures","no-common-ligatures"]),
   ("discretionary-lig-values",.words ["discretionary-ligatures","no-discretionary-ligatures"]),
   ("historical-lig-values",.words ["historical-ligatures","no-historical-ligatures"]),
   ("contextual-alt-values",.words ["contextual","no-contextual"]),
   ("numeric-figure-values",.words ["lining-nums","oldstyle-nums"]),
   ("numeric-spacing-values",.words ["proportional-nums","tabular-nums"]),
   ("numeric-fraction-values",.words ["diagonal-fractions","stacked-fractions"]),
   ("east-asian-variant-values",
      .words ["jis78","jis83","jis90","jis04","simplified","traditional"]),
   ("east-asian-width-values",.words ["full-width","proportional-width"]),
   ("feature-value-name",.type "custom-ident"),
   ("ligatures-list",
      .anyOf [.type "common-lig-values",.type "discretionary-lig-values",
        .type "historical-lig-values",.type "contextual-alt-values"]),
   ("alternates-list",
      .anyOf [.function "stylistic" (.type "feature-value-name"),.keyword "historical-forms",
        .function "styleset" (.listed (.type "feature-value-name")),
        .function "character-variant" (.listed (.type "feature-value-name")),
        .function "swash" (.type "feature-value-name"),
        .function "ornaments" (.type "feature-value-name"),
        .function "annotation" (.type "feature-value-name")]),
   ("numeric-list",
      .anyOf [.type "numeric-figure-values",.type "numeric-spacing-values",
        .type "numeric-fraction-values",.keyword "ordinal",.keyword "slashed-zero"]),
   ("east-asian-list",
      .anyOf [.type "east-asian-variant-values",.type "east-asian-width-values",.keyword "ruby"]),
   ("basic-shape",
      .oneOf [.function "inset" (.type "any-value"),
        .function "circle" (.optional (.type "any-value")),
        .function "ellipse" (.optional (.type "any-value")),
        .function "polygon" (.type "any-value"),.function "path" (.type "any-value"),
        .function "rect" (.type "any-value"),.function "xywh" (.type "any-value"),
        .function "shape" (.type "any-value")]),
   ("ray-function",.function "ray" (.type "any-value")),
   ("counter-style",.oneOf [.type "custom-ident",.function "symbols" (.type "any-value")]),
   ("content-position",.words ["center","start","end","flex-start","flex-end"]),
   ("content-distribution",.words ["space-between","space-around","space-evenly","stretch"]),
   ("overflow-position",.words ["unsafe","safe"]),
   ("self-position",
      .words ["center","start","end","self-start","self-end","flex-start","flex-end"]),
   ("baseline-position",.sequence [.optional (.words ["first","last"]),.keyword "baseline"]),
   ("try-tactic",.anyOf [.keyword "flip-block",.keyword "flip-inline",.keyword "flip-start"]),
   ("grid-line",
      .oneOf [.keyword "auto",.type "custom-ident",.allOf [.type "integer",
        .optional (.type "custom-ident")],.allOf [.keyword "span",.anyOf [.type "integer",
        .type "custom-ident"]]]),
   ("overflow-keyword",.words ["visible","hidden","clip","scroll","auto"]),
   ("overscroll-keyword",.words ["contain","none","auto"])]

def ofType? (name : String) : Option Pattern := typeTable.lookup name

end StyleExpansion.Pattern
