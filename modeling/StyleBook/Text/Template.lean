namespace StyleBook

/-!
# Templates with numbered places

A template is a text in which `{0}`, `{1}`, … stand for operands. A place is an opening brace,
at least one ASCII digit and a closing brace, whose number counts an operand; all else is text.
One pass from left to right: operand text is not looked at again.
-/

namespace Template

/-- Whether a character is an ASCII digit. -/
def isDigit (c : Char) : Bool := '0' ≤ c && c ≤ '9'

/-- The number that digits denote. -/
def number (digits : List Char) : Nat :=
  digits.foldl (fun n c => 10 * n + (c.toNat - '0'.toNat)) 0

/-- The operand that digits count, if there are digits and such an operand. -/
def operand? (operands : List String) (digits : List Char) : Option String :=
  if digits.isEmpty then none else operands[number digits]?

/-- What follows a place, and the operand it stands for; the argument is what follows its
    opening brace. -/
def place? (operands : List String) (rest : List Char) : Option (String × List Char) :=
  match rest.dropWhile isDigit with
  | '}' :: after => (operand? operands (rest.takeWhile isDigit)).map (·, after)
  | _ => none

/-- A place ends behind its opening brace. -/
theorem length_of_place? {operands : List String} {rest after : List Char} {text : String}
    (h : place? operands rest = some (text, after)) : after.length < rest.length := by
  unfold place? at h
  have hle := (List.dropWhile_sublist isDigit (l := rest)).length_le
  split at h
  · rename_i tail heq
    simp only [Option.map_eq_some_iff, Prod.mk.injEq] at h
    obtain ⟨_, _, _, rfl⟩ := h
    simp only [heq, List.length_cons] at hle
    omega
  · simp at h

/-- The template with its places filled. -/
def fill (operands : List String) (template : List Char) : List Char :=
  match template with
  | [] => []
  | c :: rest =>
    if c = '{' then
      match _h : place? operands rest with
      | some (text, after) => text.toList ++ fill operands after
      | none => c :: fill operands rest
    else c :: fill operands rest
termination_by template.length
decreasing_by
  · have := length_of_place? _h
    simp; omega
  · simp
  · simp

end Template

/-- The template with the places of its operands filled. -/
def substitute (template : String) (operands : List String) : String :=
  String.ofList (Template.fill operands template.toList)

end StyleBook
