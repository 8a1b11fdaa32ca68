import StyleBook.Proofs.Conversion.Conversions

namespace StyleBook

/-!
# Quoted texts are read back

Who reads a quoted text goes from character to character and takes what stands behind a backslash as
it is; the first quote that is read in any other way ends the text. Whatever a string holds, what is
read is the string, and only the last quote ends it.

* `Quoted.escape`, `Quoted.encode_eq_escape` — backslashes in front of one character, wherever it
  stands. Quoting escapes backslashes first and quotes then, so that no backslash is
  taken for one that escapes;
* `Quoted.scan` — the reader. It does not look at what stands behind the end (`Quoted.scan_append`);
* `Quoted.scan_encode` — it reads back what is encoded;
* `Setting.quoted_read_back` — all of it, for the text of a string of the category.
-/

namespace Quoted

variable {text before behind : List Char}

/-! ### Escaping -/

/-- The text with a backslash in front of each `c`. -/
def escape (c : Char) (text : List Char) : List Char :=
  text.flatMap fun d => if d = c then ['\\', d] else [d]

/-- **Backslashes are escaped first, and quotes in what comes of it.** -/
theorem encode_eq_escape (text : List Char) : encode text = escape '"' (escape '\\' text) := by
  unfold escape
  rw [List.flatMap_assoc]
  induction text with
  | nil => rfl
  | cons c rest ih =>
    rw [encode, List.flatMap_cons, ← ih]
    -- A backslash becomes two, neither of them a quote; a quote is met by the second step only.
    by_cases hslash : c = '\\'
    · subst hslash
      rfl
    by_cases hquote : c = '"'
    · subst hquote
      rfl
    · simp [hslash, hquote]

/-! ### Reading -/

/-- **What is read behind an opening quote,** and what is left behind the closing one. A backslash
    stands for the character behind it. There is no result if the text ends before a quote does. -/
def scan : List Char → Option (List Char × List Char)
  | [] => none
  | '"' :: rest => some ([], rest)
  | ['\\'] => none
  | '\\' :: c :: rest => (scan rest).map fun (text, left) => (c :: text, left)
  | c :: rest => (scan rest).map fun (text, left) => (c :: text, left)

/-- A character behind a backslash is read as it is. -/
theorem scan_escaped (c : Char) (rest : List Char) :
    scan ('\\' :: c :: rest) = (scan rest).map fun (text, left) => (c :: text, left) := by
  rw [scan]

/-- Any other character is read, unless it is the closing quote. -/
theorem scan_plain {c : Char} (hslash : c ≠ '\\') (hquote : c ≠ '"') (rest : List Char) :
    scan (c :: rest) = (scan rest).map fun (text, left) => (c :: text, left) := by
  rw [scan]
  · exact hquote
  · exact fun h => absurd h hslash
  · exact fun _ _ h => absurd h hslash

/-- What stands behind the end does not matter. -/
theorem scan_append {left : List Char} (h : scan before = some (text, left)) (behind : List Char) :
    scan (before ++ behind) = some (text, left ++ behind) := by
  fun_induction scan before generalizing text with
  | case1 => cases h
  | case2 rest =>
    cases h
    rfl
  | case3 => cases h
  | case4 c rest ih =>
    obtain ⟨⟨text, _⟩, hrest, heq⟩ := Option.map_eq_some_iff.mp h
    cases heq
    rw [List.cons_append, List.cons_append, scan_escaped, ih hrest]
    rfl
  | case5 c rest hquote hlast hescape ih =>
    -- Backslashes are treated above, with a character behind them or none.
    have hslash : c ≠ '\\' := by
      rintro rfl
      cases rest with
      | nil => exact hlast rfl rfl
      | cons d rest => exact hescape d rest rfl rfl
    obtain ⟨⟨text, _⟩, hrest, heq⟩ := Option.map_eq_some_iff.mp h
    cases heq
    rw [List.cons_append, scan_plain hslash hquote, ih hrest]
    rfl

/-- **An encoded text is read back,** up to the quote behind it. -/
theorem scan_encode (text behind : List Char) :
    scan (encode text ++ '"' :: behind) = some (text, behind) := by
  induction text with
  | nil => rfl
  | cons c rest ih =>
    rw [encode]
    split
    · rw [List.cons_append, List.cons_append, scan_escaped, ih]
      rfl
    · next h =>
      obtain ⟨hslash, hquote⟩ : c ≠ '\\' ∧ c ≠ '"' := by simpa using h
      rw [List.cons_append, scan_plain hslash hquote, ih]
      rfl

/-- **No other quote ends it:** what stands in front of the last quote is not read to an end. -/
theorem scan_eq_none_of_append (h : before ++ behind = encode text ++ ['"']) (hne : behind ≠ []) :
    scan before = none := by
  refine Option.eq_none_iff_forall_ne_some.mpr fun (early, left) hearly => ?_
  -- Reading on would leave what stands behind, but the whole text leaves nothing.
  have hboth : some (early, left ++ behind) = some (text, []) :=
    calc some (early, left ++ behind)
      _ = scan (before ++ behind) := (scan_append hearly behind).symm
      _ = scan (encode text ++ ['"']) := by rw [h]
      _ = some (text, []) := scan_encode text []
  have hnone : left ++ behind = [] := (Prod.mk.inj (Option.some.inj hboth)).2
  exact hne (List.append_eq_nil_iff.mp hnone).2

end Quoted

/-! ### The category -/

/-- A string of the category is quoted, whatever else is known. -/
theorem Setting.category_quoted (names : Names) (s : String) :
    Setting.category ⟨.standard, names⟩ .quoted (.text s) = pure (quoted s) := by
  have hrecipe : Catalog.standard.categories.get? .quoted =
    some (.shaped { ofText := some quoted }) := rfl
  unfold Setting.category convert
  rw [Conversion.run_category_eq_shaped hrecipe rfl, Conversion.shaped]

/-- **Every string has a quoted text that is read as this string.** Behind the opening quote stands
    the string with its backslashes escaped, and then its quotes, and the closing quote. Reading it
    gives the string and leaves nothing, or what stands behind the text where it is part of another
    one. No part in front of the last character is read to an end, so no string ends
    its quoted text early. -/
theorem Setting.quoted_read_back (names : Names) (s : String) :
    ∃ body, Setting.category ⟨.standard, names⟩ .quoted (.text s) =
    pure (String.ofList ('"' :: body)) ∧
      body = Quoted.escape '"' (Quoted.escape '\\' s.toList) ++ ['"'] ∧
      Quoted.scan body = some (s.toList, []) ∧
      (∀ behind, Quoted.scan (body ++ behind) = some (s.toList, behind)) ∧
      ∀ before behind, before ++ behind = body → behind ≠ [] → Quoted.scan before = none := by
  refine ⟨Quoted.encode s.toList ++
    ['"'], category_quoted names s, ?_, Quoted.scan_encode s.toList [],
    fun behind => ?_, fun before behind => Quoted.scan_eq_none_of_append⟩
  · rw [Quoted.encode_eq_escape]
  · rw [List.append_assoc]
    exact Quoted.scan_encode s.toList behind

/-- Escaped the other way round, a quote would end the text. -/
example :
    Quoted.scan (Quoted.escape '"' (Quoted.escape '\\' ['"']) ++ ['"']) = some (['"'], []) ∧
      Quoted.scan (Quoted.escape '\\' (Quoted.escape '"' ['"']) ++ ['"']) = some (['\\'], ['"']) :=
      by
  decide

end StyleBook
