namespace StyleBook

/-!
# Property names in dash-case

A property has one name, in dash-case, and several spellings: `backgroundColor` is
`background-color`. A vendor word in front of a capital gets a dash of its own:
`webkitTransition` is `-webkit-transition`. Custom properties (`--x`) and names without ASCII
capitals are in dash-case already.
-/

namespace DashCase

/-- Whether a character is an ASCII capital. -/
def isCapital (c : Char) : Bool := 'A' ≤ c && c ≤ 'Z'

/-- The words that stand for a vendor when a capital follows them. -/
def vendors : List (List Char) :=
    [['w', 'e', 'b', 'k', 'i', 't'], ['m', 'o', 'z'], ['m', 's'], ['o']]

/-- Whether the name starts with a vendor word and a capital. -/
def startsWithVendor (name : List Char) : Bool :=
  vendors.any fun word =>
    word.isPrefixOf name && ((name.drop word.length).head?.map isCapital).getD false

/-- Every capital as a dash and its small letter. -/
def lower : List Char → List Char
  | [] => []
  | c :: rest => if isCapital c then '-' :: c.toLower :: lower rest else c :: lower rest

/-- Whether the name is a custom property's. -/
def isCustom (name : List Char) : Bool := ['-', '-'].isPrefixOf name

/-- The characters of the dash-case name. -/
def ofChars (name : List Char) : List Char :=
  if isCustom name || !name.any isCapital then name
  else if startsWithVendor name then '-' :: lower name
  else lower name

end DashCase

/-- The dash-case name of a property. -/
def dashCase (name : String) : String := String.ofList (DashCase.ofChars name.toList)

end StyleBook
