namespace StyleBook

/-!
# Quoted strings

A string between double quotes, in which a quote and a backslash are written behind a backslash.
-/

namespace Quoted

/-- The characters between the quotes. -/
def encode : List Char → List Char
  | [] => []
  | c :: rest => if c = '\\' || c = '"' then '\\' :: c :: encode rest else c :: encode rest

end Quoted

/-- The quoted text of a string. -/
def quoted (s : String) : String := String.ofList ('"' :: Quoted.encode s.toList ++ ['"'])

end StyleBook
