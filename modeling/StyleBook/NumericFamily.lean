import StyleBook.Category
import StyleBook.Dict
import StyleBook.Number.Text

namespace StyleBook

/-!
# Numeric families

Numbers with a unit: one unit behind integers, another behind numbers with a fraction. The units
of a family can be changed while values that use it are kept, so they stand in a table beside
the family.

* `NumericFamily` — a family, with the units it starts with;
* `UnitTable` — the units that were changed;
* `NumericFamily.write` — a number with its unit.
-/

/-- The units of a numeric family. -/
structure Units where
  /-- Behind integers. -/
  int : String
  /-- Behind numbers with a fraction. -/
  fraction : String
  deriving DecidableEq, Repr

/-- A family of numbers. -/
structure NumericFamily where
  /-- Tells families apart, also those with the same name. -/
  id : Nat
  /-- The name of the family. -/
  name : String
  /-- The category the family is meant for. -/
  category : Category
  /-- The units it starts with. -/
  units : Units
  /-- Whether numbers with a fraction are written as hundredths. -/
  hundredths : Bool
  deriving DecidableEq, Repr

/-- The units that were changed, by family. -/
abbrev UnitTable := Dict Nat Units

namespace NumericFamily

/-- Numbers without a unit. -/
def number : NumericFamily := ⟨0, "number", .number, ⟨"", ""⟩, false⟩

/-- Lengths: pixels, or ems with a fraction. -/
def length : NumericFamily := ⟨1, "length", .length, ⟨"px", "em"⟩, false⟩

/-- Percentages: a fraction counts hundredths. -/
def percent : NumericFamily := ⟨2, "percent", .percent, ⟨"%", "%"⟩, true⟩

/-- Angles: degrees, or turns with a fraction. -/
def angle : NumericFamily := ⟨3, "angle", .angle, ⟨"deg", "turn"⟩, false⟩

/-- Times: milliseconds, or seconds with a fraction. -/
def time : NumericFamily := ⟨4, "time", .time, ⟨"ms", "s"⟩, false⟩

/-- Resolutions: dots per inch, or per pixel with a fraction. -/
def resolution : NumericFamily := ⟨5, "resolution", .resolution, ⟨"dpi", "x"⟩, false⟩

/-- Frequencies: hertz, or kilohertz with a fraction. -/
def frequency : NumericFamily := ⟨6, "frequency", .frequency, ⟨"Hz", "kHz"⟩, false⟩

/-- The standard families, by id. -/
def standard : List NumericFamily :=
  [number, length, percent, angle, time, resolution, frequency]

/-- The first id that no standard family has. -/
def firstFreeId : Nat := standard.length

/-- The units in force. -/
def activeUnits (table : UnitTable) (family : NumericFamily) : Units :=
  (table.get? family.id).getD family.units

/-- A number in hundredths, to six places. -/
def toHundredths (x : Number) : Number :=
  (((x.scale 100).scale 1000000).nearest).scale (mkRat 1 1000000)

/-- A number with the unit in force. -/
def write (table : UnitTable) (family : NumericFamily) (x : Number) : String :=
  let units := family.activeUnits table
  if x.isInteger then x.css ++ units.int
  else if family.hundredths then (toHundredths x).css ++ units.fraction
  else x.css ++ units.fraction

end NumericFamily

end StyleBook
