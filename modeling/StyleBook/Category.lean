namespace StyleBook

/-!
# Value categories

The kinds of values that many properties and functions share. A catalog says how each is
written.
-/

/-- A category of values. -/
inductive Category
  | number | length | percent | angle | time | resolution | frequency
  | color | colorSeparation | alpha
  | position | atPosition | borderRadius | gridTrack | gridTrackList | boxShadow | quoted
  deriving DecidableEq, Repr

namespace Category

/-- Every category. -/
def all : List Category :=
  [.number, .length, .percent, .angle, .time, .resolution, .frequency,
   .color, .colorSeparation, .alpha,
   .position, .atPosition, .borderRadius, .gridTrack, .gridTrackList, .boxShadow, .quoted]

/-- The name of a category, as messages spell it. -/
def name : Category → String
  | .number => "Number"
  | .length => "Length"
  | .percent => "Percent"
  | .angle => "Angle"
  | .time => "Time"
  | .resolution => "Resolution"
  | .frequency => "Frequency"
  | .color => "Color"
  | .colorSeparation => "ColorSeparation"
  | .alpha => "Alpha"
  | .position => "Position"
  | .atPosition => "AtPosition"
  | .borderRadius => "BorderRadius"
  | .gridTrack => "GridTrack"
  | .gridTrackList => "GridTrackList"
  | .boxShadow => "BoxShadow"
  | .quoted => "Quoted"

/-- No category is missing from the list. -/
theorem mem_all (c : Category) : c ∈ all := by cases c <;> decide

end Category

end StyleBook
