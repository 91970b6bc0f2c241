import StyleExpansion.Pattern

/-! # Properties

The longhand properties of the dictionary with the patterns of their values. The properties that
exist once for every edge of a box are made from the edges.
-/
namespace StyleExpansion.Pattern

/-- The edges of a box, the physical ones before those relative to the direction of writing. -/
def edgeNames : List String :=
  ["top","right","bottom","left","inline-start","inline-end","block-start","block-end"]

def lengthOrAuto : Pattern := .oneOf [.keyword "auto",.type "length-percentage"]

def propertiesOfEdge (edge : String) : List (String × Pattern) :=
  [("border-" ++ edge ++ "-width",.type "line-width"),
   ("border-" ++ edge ++ "-style",.type "line-style"),
   ("border-" ++ edge ++ "-color",.type "color"),
   ("margin-" ++ edge,.oneOf [.type "length-percentage",.keyword "auto"]),
   ("padding-" ++ edge,.type "length-percentage"),
   ("scroll-margin-" ++ edge,.type "length"),
   ("scroll-padding-" ++ edge,lengthOrAuto),
   ("inset-" ++ edge,lengthOrAuto)]

def insetTable : List (String × Pattern) :=
  [("top",lengthOrAuto),("right",lengthOrAuto),("bottom",lengthOrAuto),("left",lengthOrAuto)]

def otherTable : List (String × Pattern) :=
  [("color",.type "color"),
   ("opacity",.oneOf [.type "number",.type "percentage"]),
   ("outline-width",.type "line-width"),
   ("column-rule-width",.type "line-width"),
   ("outline-style",.oneOf [.keyword "auto",.type "outline-line-style"]),
   ("outline-color",.oneOf [.keyword "auto",.type "color"]),
   ("column-rule-style",.type "line-style"),
   ("column-rule-color",.type "color"),
   ("outline-offset",.type "length"),
   ("border-image-source",.oneOf [.keyword "none",.type "image"]),
   ("mask-border-source",.oneOf [.keyword "none",.type "image"]),
   ("border-image-slice",
      .allOf [.upTo 4 (.oneOf [.type "number",.type "percentage"]),.optional (.keyword "fill")]),
   ("mask-border-slice",
      .allOf [.upTo 4 (.oneOf [.type "number",.type "percentage"]),.optional (.keyword "fill")]),
   ("border-image-width",
      .upTo 4 (.oneOf [.type "length-percentage",.type "number",.keyword "auto"])),
   ("mask-border-width",
      .upTo 4 (.oneOf [.type "length-percentage",.type "number",.keyword "auto"])),
   ("border-image-outset",.upTo 4 (.oneOf [.type "length",.type "number"])),
   ("mask-border-outset",.upTo 4 (.oneOf [.type "length",.type "number"])),
   ("border-image-repeat",.upTo 2 (.words ["stretch","repeat","round","space"])),
   ("mask-border-repeat",.upTo 2 (.words ["stretch","repeat","round","space"])),
   ("mask-border-mode",.words ["luminance","alpha"]),
   ("border-top-left-radius",.upTo 2 (.type "length-percentage")),
   ("border-top-right-radius",.upTo 2 (.type "length-percentage")),
   ("border-bottom-right-radius",.upTo 2 (.type "length-percentage")),
   ("border-bottom-left-radius",.upTo 2 (.type "length-percentage")),
   ("border-start-start-radius",.upTo 2 (.type "length-percentage")),
   ("border-start-end-radius",.upTo 2 (.type "length-percentage")),
   ("border-end-start-radius",.upTo 2 (.type "length-percentage")),
   ("border-end-end-radius",.upTo 2 (.type "length-percentage")),
   ("font-style",
      .oneOf [.keyword "normal",.keyword "italic",.sequence [.keyword "oblique",
        .optional (.type "angle")]]),
   ("font-variant-caps",
      .words ["normal","small-caps","all-small-caps","petite-caps","all-petite-caps","unicase",
        "titling-caps"]),
   ("font-weight",.oneOf [.type "font-weight-absolute",.keyword "bolder",.keyword "lighter"]),
   ("font-stretch",.oneOf [.type "font-stretch-css3",.type "percentage"]),
   ("font-width",.oneOf [.type "font-stretch-css3",.type "percentage"]),
   ("font-size",
      .oneOf [.type "absolute-size",.type "relative-size",.type "length-percentage",
        .keyword "math"]),
   ("line-height",.oneOf [.keyword "normal",.type "number",.type "length-percentage"]),
   ("font-family",.listed (.oneOf [.type "family-name",.type "generic-family"])),
   ("font-variant-ligatures",.oneOf [.keyword "normal",.keyword "none",.type "ligatures-list"]),
   ("font-variant-alternates",.oneOf [.keyword "normal",.type "alternates-list"]),
   ("font-variant-numeric",.oneOf [.keyword "normal",.type "numeric-list"]),
   ("font-variant-east-asian",.oneOf [.keyword "normal",.type "east-asian-list"]),
   ("font-variant-position",.words ["normal","sub","super"]),
   ("font-variant-emoji",.words ["normal","text","emoji","unicode"]),
   ("font-synthesis-weight",.words ["auto","none"]),
   ("font-synthesis-style",.words ["auto","none"]),
   ("font-synthesis-small-caps",.words ["auto","none"]),
   ("font-synthesis-position",.words ["auto","none"]),
   ("flex-grow",.type "number"),
   ("flex-shrink",.type "number"),
   ("flex-basis",.oneOf [.keyword "content",.property "width"]),
   ("flex-direction",.words ["row","row-reverse","column","column-reverse"]),
   ("flex-wrap",.words ["nowrap","wrap","wrap-reverse"]),
   ("width",
      .oneOf [.keyword "auto",.type "length-percentage",.keyword "min-content",
        .keyword "max-content",.function "fit-content" (.type "length-percentage"),
        .keyword "fit-content",.keyword "stretch"]),
   ("height",
      .oneOf [.keyword "auto",.type "length-percentage",.keyword "min-content",
        .keyword "max-content",.function "fit-content" (.type "length-percentage"),
        .keyword "fit-content",.keyword "stretch"]),
   ("min-width",
      .oneOf [.keyword "auto",.type "length-percentage",.keyword "min-content",
        .keyword "max-content",.function "fit-content" (.type "length-percentage"),
        .keyword "fit-content",.keyword "stretch"]),
   ("min-height",
      .oneOf [.keyword "auto",.type "length-percentage",.keyword "min-content",
        .keyword "max-content",.function "fit-content" (.type "length-percentage"),
        .keyword "fit-content",.keyword "stretch"]),
   ("inline-size",
      .oneOf [.keyword "auto",.type "length-percentage",.keyword "min-content",
        .keyword "max-content",.function "fit-content" (.type "length-percentage"),
        .keyword "fit-content",.keyword "stretch"]),
   ("block-size",
      .oneOf [.keyword "auto",.type "length-percentage",.keyword "min-content",
        .keyword "max-content",.function "fit-content" (.type "length-percentage"),
        .keyword "fit-content",.keyword "stretch"]),
   ("max-width",
      .oneOf [.keyword "none",.type "length-percentage",.keyword "min-content",
        .keyword "max-content",.function "fit-content" (.type "length-percentage"),
        .keyword "fit-content",.keyword "stretch"]),
   ("max-height",
      .oneOf [.keyword "none",.type "length-percentage",.keyword "min-content",
        .keyword "max-content",.function "fit-content" (.type "length-percentage"),
        .keyword "fit-content",.keyword "stretch"]),
   ("animation-name",.listed (.oneOf [.keyword "none",.type "keyframes-name"])),
   ("animation-duration",.listed (.oneOf [.keyword "auto",.type "time"])),
   ("animation-timing-function",.listed (.type "easing-function")),
   ("transition-timing-function",.listed (.type "easing-function")),
   ("animation-delay",.listed (.type "time")),
   ("transition-duration",.listed (.type "time")),
   ("transition-delay",.listed (.type "time")),
   ("animation-iteration-count",.listed (.type "single-animation-iteration-count")),
   ("animation-direction",.listed (.type "single-animation-direction")),
   ("animation-fill-mode",.listed (.type "single-animation-fill-mode")),
   ("animation-play-state",.listed (.type "single-animation-play-state")),
   ("animation-timeline",
      .listed (.oneOf [.keyword "auto",.keyword "none",.type "dashed-ident",
        .function "scroll" (.optional (.type "any-value")),
        .function "view" (.optional (.type "any-value"))])),
   ("animation-range-start",
      .listed (.oneOf [.keyword "normal",.type "length-percentage",
        .sequence [.type "timeline-range-name",.optional (.type "length-percentage")]])),
   ("animation-range-end",
      .listed (.oneOf [.keyword "normal",.type "length-percentage",
        .sequence [.type "timeline-range-name",.optional (.type "length-percentage")]])),
   ("transition-property",.oneOf [.keyword "none",.listed (.type "single-transition-property")]),
   ("transition-behavior",.listed (.type "transition-behavior-value")),
   ("mask-image",.listed (.type "mask-reference")),
   ("mask-position",.listed (.type "position")),
   ("mask-size",.listed (.type "bg-size")),
   ("background-size",.listed (.type "bg-size")),
   ("mask-repeat",.listed (.type "repeat-style")),
   ("background-repeat",.listed (.type "repeat-style")),
   ("mask-origin",.listed (.type "geometry-box")),
   ("mask-clip",.listed (.oneOf [.type "geometry-box",.keyword "no-clip"])),
   ("mask-composite",.listed (.type "compositing-operator")),
   ("mask-mode",.listed (.type "masking-mode")),
   ("offset-position",.oneOf [.keyword "normal",.keyword "auto",.type "position"]),
   ("offset-path",
      .oneOf [.keyword "none",.anyOf [.oneOf [.type "ray-function",.type "url",
        .type "basic-shape"],.type "coord-box"]]),
   ("offset-distance",.type "length-percentage"),
   ("offset-rotate",.anyOf [.words ["auto","reverse"],.type "angle"]),
   ("offset-anchor",.oneOf [.keyword "auto",.type "position"]),
   ("scroll-timeline-name",.listed (.oneOf [.keyword "none",.type "dashed-ident"])),
   ("view-timeline-name",.listed (.oneOf [.keyword "none",.type "dashed-ident"])),
   ("scroll-timeline-axis",.listed (.words ["block","inline","x","y"])),
   ("view-timeline-axis",.listed (.words ["block","inline","x","y"])),
   ("view-timeline-inset",.listed (.upTo 2 (.oneOf [.keyword "auto",.type "length-percentage"]))),
   ("grid-template-areas",.oneOf [.keyword "none",.many (.type "string")]),
   ("grid-auto-flow",.anyOf [.words ["row","column"],.keyword "dense"]),
   ("grid-row-start",.type "grid-line"),
   ("grid-row-end",.type "grid-line"),
   ("grid-column-start",.type "grid-line"),
   ("grid-column-end",.type "grid-line"),
   ("white-space-collapse",
      .words ["collapse","discard","preserve","preserve-breaks","preserve-spaces",
        "break-spaces"]),
   ("text-wrap-mode",.words ["wrap","nowrap"]),
   ("text-wrap-style",.words ["auto","balance","stable","pretty"]),
   ("background-color",.type "color"),
   ("background-image",.listed (.type "bg-image")),
   ("background-attachment",.listed (.type "attachment")),
   ("background-origin",.listed (.type "visual-box")),
   ("background-clip",.listed (.type "bg-clip")),
   ("background-position",.listed (.type "bg-position")),
   ("background-position-x",
      .listed (.oneOf [.keyword "center",.nonEmpty (.sequence [.optional (.words ["left",
        "right","x-start","x-end"]),.optional (.type "length-percentage")])])),
   ("background-position-y",
      .listed (.oneOf [.keyword "center",.nonEmpty (.sequence [.optional (.words ["top",
        "bottom","y-start","y-end"]),.optional (.type "length-percentage")])])),
   ("text-decoration-line",
      .oneOf [.keyword "none",.anyOf [.keyword "underline",.keyword "overline",
        .keyword "line-through",.keyword "blink"],.keyword "spelling-error",
        .keyword "grammar-error"]),
   ("text-decoration-style",.words ["solid","double","dotted","dashed","wavy"]),
   ("text-decoration-color",.type "color"),
   ("text-emphasis-color",.type "color"),
   ("text-decoration-thickness",
      .oneOf [.keyword "auto",.keyword "from-font",.type "length-percentage"]),
   ("text-emphasis-style",
      .oneOf [.keyword "none",.anyOf [.words ["filled","open"],.words ["dot","circle",
        "double-circle","triangle","sesame"]],.type "string"]),
   ("column-width",.oneOf [.keyword "auto",.type "length"]),
   ("column-count",.oneOf [.keyword "auto",.type "integer"]),
   ("row-gap",.oneOf [.keyword "normal",.type "length-percentage"]),
   ("column-gap",.oneOf [.keyword "normal",.type "length-percentage"]),
   ("list-style-position",.words ["inside","outside"]),
   ("list-style-image",.oneOf [.type "image",.keyword "none"]),
   ("list-style-type",.oneOf [.type "counter-style",.type "string",.keyword "none"]),
   ("overflow-x",.type "overflow-keyword"),
   ("overflow-y",.type "overflow-keyword"),
   ("overflow-inline",.type "overflow-keyword"),
   ("overflow-block",.type "overflow-keyword"),
   ("overscroll-behavior-x",.type "overscroll-keyword"),
   ("overscroll-behavior-y",.type "overscroll-keyword"),
   ("overscroll-behavior-inline",.type "overscroll-keyword"),
   ("overscroll-behavior-block",.type "overscroll-keyword"),
   ("container-name",.oneOf [.keyword "none",.many (.type "custom-ident")]),
   ("container-type",
      .oneOf [.keyword "normal",.anyOf [.words ["size","inline-size"],.keyword "scroll-state"]]),
   ("contain-intrinsic-width",
      .sequence [.optional (.keyword "auto"),.oneOf [.keyword "none",.type "length"]]),
   ("contain-intrinsic-height",
      .sequence [.optional (.keyword "auto"),.oneOf [.keyword "none",.type "length"]]),
   ("caret-color",.oneOf [.keyword "auto",.type "color"]),
   ("caret-animation",.words ["auto","manual"]),
   ("caret-shape",.words ["auto","bar","block","underscore"]),
   ("position-try-order",
      .words ["normal","most-width","most-height","most-block-size","most-inline-size"]),
   ("position-try-fallbacks",
      .oneOf [.keyword "none",.listed (.anyOf [.type "dashed-ident",.type "try-tactic"])]),
   ("align-content",
      .oneOf [.keyword "normal",.type "baseline-position",.type "content-distribution",
        .sequence [.optional (.type "overflow-position"),.type "content-position"]]),
   ("justify-content",
      .oneOf [.keyword "normal",.type "content-distribution",
        .sequence [.optional (.type "overflow-position"),.oneOf [.type "content-position",
        .keyword "left",.keyword "right"]]]),
   ("align-items",
      .oneOf [.keyword "normal",.keyword "stretch",.type "baseline-position",
        .sequence [.optional (.type "overflow-position"),.type "self-position"],
        .keyword "anchor-center"]),
   ("justify-items",
      .oneOf [.keyword "normal",.keyword "stretch",.type "baseline-position",
        .sequence [.optional (.type "overflow-position"),.oneOf [.type "self-position",
        .keyword "left",.keyword "right"]],.keyword "legacy",.allOf [.keyword "legacy",
        .words ["left","right","center"]],.keyword "anchor-center"]),
   ("align-self",
      .oneOf [.keyword "auto",.keyword "normal",.keyword "stretch",.type "baseline-position",
        .sequence [.optional (.type "overflow-position"),.type "self-position"],
        .keyword "anchor-center"]),
   ("justify-self",
      .oneOf [.keyword "auto",.keyword "normal",.keyword "stretch",.type "baseline-position",
        .sequence [.optional (.type "overflow-position"),.oneOf [.type "self-position",
        .keyword "left",.keyword "right"]],.keyword "anchor-center"])]

def propertyTable : List (String × Pattern) :=
  edgeNames.flatMap propertiesOfEdge ++ insetTable ++ otherTable

def ofProperty? (name : String) : Option Pattern := propertyTable.lookup name

end StyleExpansion.Pattern
