namespace StyleBook

/-!
# Blank characters

The characters of the Unicode property `White_Space`, and a text without the blanks it starts
with.
-/

/-- Code points of the property `White_Space`, as inclusive ranges. -/
def blankRanges : List (Nat × Nat) :=
  [(0x09, 0x0D), (0x20, 0x20), (0x85, 0x85), (0xA0, 0xA0), (0x1680, 0x1680), (0x2000, 0x200A),
   (0x2028, 0x2029), (0x202F, 0x202F), (0x205F, 0x205F), (0x3000, 0x3000)]

/-- Whether a character is blank. -/
def isBlank (c : Char) : Bool :=
  blankRanges.any fun (low, high) => low ≤ c.toNat && c.toNat ≤ high

/-- The text without leading blanks. -/
def trimLeading (s : String) : String := String.ofList (s.toList.dropWhile isBlank)

end StyleBook
