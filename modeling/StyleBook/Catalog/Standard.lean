import StyleBook.Catalog.Build
import StyleBook.Color
import StyleBook.Text.Quoted

namespace StyleBook

/-!
# The standard catalog

The categories, functions and properties of style sheets that are known from the start. Every
property that is not listed is written at the default.

* `Standard.categories`, `Standard.functions`, `Standard.properties` — the tables;
* `Catalog.standard` — the catalog of all three; `build_standard` says that it passes the checks
  of every catalog.
-/

namespace Standard

/-! ### Categories -/

/-- The text of a shadow that is drawn inside; nothing for any other value than `true`. -/
def insetFlag : Value → Except Error String
  | .bool true => .ok "inset"
  | _ => .ok ""

/-- The fields of a shadow. -/
def shadowFields : List Field :=
  [⟨"inset", .own insetFlag, none⟩, .ofCategory "x" .length, .ofCategory "y" .length,
   .ofCategory "blur" .length, .ofCategory "spread" .length, .ofCategory "color" .color]

/-- One track of a grid, or the names of a line in brackets. -/
def gridItem : Recipe := .choice Value.isList (.enclosed "[" "]" .plain) (.category .length)

/-- How values of each category are written. -/
def categories : List (Category × Recipe) :=
  [(.number, .numeric .number),
   (.length, .numeric .length),
   (.percent, .numeric .percent),
   (.angle, .numeric .angle),
   (.time, .numeric .time),
   (.resolution, .numeric .resolution),
   (.frequency, .numeric .frequency),
   (.color, .numbers Color.text),
   (.colorSeparation, .numbers Color.channel),
   (.alpha, .numbers Color.alphaText),
   (.position, .category .length),
   (.atPosition, .leading "at " (.category .length)),
   (.borderRadius,
     .choice Value.startsWithList (.each (.category .length) " / ") (.category .length)),
   (.gridTrack, .category .length),
   (.gridTrackList, .each gridItem " "),
   (.boxShadow,
     .shaped { item := some (.category .length), ofRecord := some (shadowFields, " ") }),
   (.quoted, .shaped { ofText := some StyleBook.quoted })]

/-! ### Functions -/

/-- One stop of a gradient: a colour, or a colour and the places it is at. -/
def gradientStop : Recipe :=
  .choice Value.isList (.headed (.category .color) (.category .length)) (.category .color)

/-- The stops of a gradient. -/
def gradientStops : Field := ⟨"stops", .each gradientStop ",", none⟩

/-- Filter functions of one percentage. -/
def filters : List Descriptor :=
  ["brightness", "contrast", "grayscale", "invert", "opacity", "saturate", "sepia"].map
    fun name => .ofParams name "," [.ofCategory "amount" .percent]

/-- The functions. -/
def functions : List Descriptor :=
  [.ofParams "rgb" " "
     [.ofCategory "r" .colorSeparation, .ofCategory "g" .colorSeparation,
      .ofCategory "b" .colorSeparation, (Field.ofCategory "a" .alpha).after "/"],
   .ofParams "hsl" " "
     [.ofCategory "h" .angle, .ofCategory "s" .percent, .ofCategory "l" .percent,
      (Field.ofCategory "a" .alpha).after "/"]]
  ++ filters ++
  [.ofParams "translate" "," [.ofCategory "x" .length, .ofCategory "y" .length],
   .ofParams "translate3d" ","
     [.ofCategory "x" .length, .ofCategory "y" .length, .ofCategory "z" .length],
   .ofParams "scale" "," [.ofCategory "sx" .number, .ofCategory "sy" .number],
   .ofParams "rotate" "," [.ofCategory "angle" .angle],
   .ofParams "skew" "," [.ofCategory "ax" .angle, .ofCategory "ay" .angle],
   .ofWhole "matrix" (.each (.category .number) ","),
   .ofParams "inset" " "
     [.ofCategory "offset" .length, (Field.ofCategory "round" .borderRadius).after " round "],
   .ofParams "circle" " "
     [.ofCategory "radius" .length, (Field.ofCategory "position" .position).after " at "],
   .ofParams "ellipse" " "
     [.ofCategory "rx" .length, .ofCategory "ry" .length,
      (Field.ofCategory "position" .position).after " at "],
   (Descriptor.ofWhole "polygon"
     (.labelled "fill" "points" (.each (.category .length) ","))).withShape ["fill", "points"],
   (Descriptor.ofParams "linear-gradient" ","
     [.ofCategory "angle" .angle, gradientStops]).withRepeating,
   (Descriptor.ofParams "radial-gradient" ","
     [.plain "shape", (Field.ofCategory "size" .length).after " ",
      (Field.ofCategory "position" .position).after " at ", gradientStops]).withRepeating,
   .ofParams "cubic-bezier" ","
     [.ofCategory "x1" .number, .ofCategory "y1" .number, .ofCategory "x2" .number,
      .ofCategory "y2" .number],
   .ofParams "steps" "," [.ofCategory "count" .number, .plain "jump"],
   .ofParams "drop-shadow" " "
     [.ofCategory "x" .length, .ofCategory "y" .length, .ofCategory "blur" .length,
      .ofCategory "color" .color],
   .ofParams "blur" "," [.ofCategory "radius" .length],
   .ofParams "hue-rotate" "," [.ofCategory "angle" .angle],
   .ofParams "repeat" "," [.plain "count", .ofCategory "tracks" .gridTrackList],
   .ofParams "minmax" "," [.ofCategory "min" .gridTrack, .ofCategory "max" .gridTrack],
   .ofParams "fit-content" "," [.ofCategory "size" .length],
   .ofWhole "url" .plain,
   .ofParams "counter" "," [.plain "name", .plain "style"],
   .ofParams "counters" "," [.plain "name", .ofCategory "separator" .quoted, .plain "style"],
   .ofParams "attr" "," [.plain "name", .plain "fallback"]]

/-! ### Properties -/

/-- Properties of one kind. -/
def ofKind (kind : PropertyKind) (names : List String) : List (String × PropertyKind) :=
  names.map fun name => (name, kind)

/-- The kinds of properties. -/
def properties : List (String × PropertyKind) :=
  ofKind (.category .color)
    ["color", "background-color", "border-color", "border-top-color", "border-right-color",
     "border-bottom-color", "border-left-color", "outline-color", "caret-color",
     "column-rule-color", "text-decoration-color", "fill", "stroke", "stop-color",
     "flood-color", "lighting-color"]
  ++ ofKind (.category .length)
    ["width", "height", "min-width", "min-height", "max-width", "max-height", "margin",
     "margin-top", "margin-right", "margin-bottom", "margin-left", "padding", "padding-top",
     "padding-right", "padding-bottom", "padding-left", "top", "right", "bottom", "left",
     "inset", "gap", "row-gap", "column-gap", "font-size", "letter-spacing", "word-spacing",
     "text-indent", "border-width", "border-top-width", "border-right-width",
     "border-bottom-width", "border-left-width", "outline-width", "outline-offset",
     "flex-basis", "stroke-width", "perspective"]
  ++ ofKind (.category .number)
    ["opacity", "z-index", "flex-grow", "flex-shrink", "line-height", "font-weight", "order",
     "orphans", "widows", "fill-opacity", "stroke-opacity"]
  ++ ofKind (.joined (some .time) ",")
    ["transition-duration", "transition-delay", "animation-duration", "animation-delay"]
  ++ ofKind (.category .position)
    ["background-position", "object-position", "transform-origin", "perspective-origin"]
  ++ ofKind (.category .gridTrackList)
    ["grid-template-columns", "grid-template-rows", "grid-auto-columns", "grid-auto-rows"]
  ++ ofKind (.several none)
    ["transition", "animation", "background", "background-image", "mask-image", "will-change",
     "transition-property", "animation-name"]
  ++ [("border-radius", .category .borderRadius), ("box-shadow", .several (some .boxShadow)),
      ("text-shadow", .several (some .boxShadow)), ("font-family", .joined none ","),
      ("quotes", .joined (some .quoted) " "), ("transform", .joined none " "),
      ("filter", .joined none " ")]

end Standard

/-- The entries with the standard ones behind them. -/
def CatalogBuilder.addStandard (b : CatalogBuilder) : CatalogBuilder where
  categories := Standard.categories.foldl (fun d (c, recipe) => d.insert c recipe) b.categories
  functions := b.functions ++ Standard.functions
  properties := b.properties ++ Standard.properties

/-- The standard catalog. -/
def Catalog.standard : Catalog :=
  ⟨Standard.categories, Standard.functions.map fun d => (d.name, d), Standard.properties⟩

set_option maxRecDepth 100000 in
/-- The standard entries pass the checks, and no two of them have one name. -/
theorem build_standard : CatalogBuilder.empty.addStandard.build = .ok Catalog.standard := rfl

end StyleBook
