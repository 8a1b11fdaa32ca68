import Mathlib.Data.List.Basic
import Mathlib.Data.List.TakeWhile
import Mathlib.Tactic.IntervalCases
import Mathlib.Tactic.NormNum
import StyleBook.Text.Template

namespace StyleBook

/-!
# What a template becomes

`Template.fill` looks for the next place and goes on behind it. This module says what that makes of
the whole template, and that no other way to find the places makes anything else of it.

* `Template.FallsInto` — the template, from left to right, as literal characters and places of
  operands. It falls into pieces in one way (`FallsInto.exists_pieces`, `FallsInto.unique`), and
  `FallsInto.fill` puts an operand for each place, so that no operand is searched for places;
* `Template.FallsInto.fill_places` — operands that are the texts of their own places leave the
  template as it is;
* `Template.scan` — the search byte by byte, which cuts the text at numbers of bytes and reads
  numbers only up to a limit. A cut inside of a character has no result, and `Template.scan_bytes`
  has one for every template;
* `substitute_pieces` — all of it, for the text that `substitute` returns.
-/

namespace Template

variable {operands : List String} {digits after : List Char}

/-! ### Pieces -/

/-- A piece of a template. -/
inductive Piece
  /-- A character that stands for itself. -/
  | literal (c : Char)
  /-- A place, by the digits between its braces. -/
  | place (digits : List Char)

/-- **The digits count an operand:** there are some, and the number that they denote is below the
    number of operands. -/
structure Counts (operands : List String) (digits : List Char) : Prop where
  nonempty : digits ≠ []
  isDigit : ∀ c ∈ digits, isDigit c = true
  lt : number digits < operands.length

/-- What a piece looks like in the template. -/
def Piece.source : Piece → List Char
  | .literal c => [c]
  | .place digits => '{' :: (digits ++ ['}'])

/-- What a piece becomes: a place becomes its operand. -/
def Piece.filled (operands : List String) : Piece → List Char
  | .literal c => [c]
  | .place digits => (operands.getD (number digits) "").toList

/-- **The template falls into the pieces,** from left to right: a place wherever one begins, and
    elsewhere a character that stands for itself. -/
inductive FallsInto (operands : List String) : List Char → List Piece → Prop
  | nil : FallsInto operands [] []
  | place {digits rest pieces} (h : Counts operands digits)
      (hrest : FallsInto operands rest pieces) :
    FallsInto operands ('{' :: (digits ++ '}' :: rest)) (.place digits :: pieces)
  | literal {c rest pieces}
    (h : ∀ digits after, Counts operands digits → c :: rest ≠ '{' :: (digits ++ '}' :: after))
    (hrest : FallsInto operands rest pieces) : FallsInto operands (c :: rest) (.literal c :: pieces)

/-- Digits end at a brace. -/
theorem span_digits (h : ∀ c ∈ digits, isDigit c = true) (after : List Char) :
    (digits ++ '}' :: after).takeWhile isDigit = digits ∧
      (digits ++ '}' :: after).dropWhile isDigit = '}' :: after := by
  rw [List.takeWhile_append_of_pos h, List.dropWhile_append_of_pos h]
  exact ⟨List.append_nil _, rfl⟩

/-- **A place is found exactly if there is one.** -/
theorem place?_eq_some_iff {rest : List Char} {text : String} :
    place? operands rest = some (text, after) ↔
      ∃ digits, Counts operands digits ∧ rest = digits ++ '}' :: after ∧
        operands.getD (number digits) "" = text := by
  constructor
  · intro h
    unfold place? operand? at h
    -- The characters behind the digits are a closing brace, or there is no place.
    split at h
    · next tail hrest =>
      simp only [Option.map_eq_some_iff, Option.ite_none_left_eq_some, Prod.mk.injEq] at h
      obtain ⟨_, ⟨hne, hget⟩, rfl, rfl⟩ := h
      obtain ⟨hlt, rfl⟩ := List.getElem?_eq_some_iff.mp hget
      refine ⟨rest.takeWhile isDigit, ⟨by simpa using hne, fun c hc => ?_, hlt⟩, ?_, ?_⟩
      · exact List.mem_takeWhile_imp hc
      · rw [← hrest, List.takeWhile_append_dropWhile]
      · rw [List.getD_eq_getElem?_getD, hget, Option.getD_some]
    · cases h
  · rintro ⟨digits, hdigits, rfl, rfl⟩
    obtain ⟨htake, hdrop⟩ := span_digits hdigits.isDigit after
    -- A text splits into its digits and the rest in one way only.
    unfold place? operand?
    rw [hdrop, htake]
    simp only [List.isEmpty_iff, if_neg hdigits.nonempty, List.getElem?_eq_getElem hdigits.lt,
      List.getD_eq_getElem?_getD, Option.map_some, Option.getD_some]

/-- A brace is filled with its place, if it opens one. -/
theorem fill_open (rest : List Char) :
    fill operands ('{' :: rest) =
      match place? operands rest with
      | some (text, after) => text.toList ++ fill operands after
      | none => '{' :: fill operands rest := by
  rw [fill, if_pos rfl]
  split
  · next h => rw [h]
  · next h => rw [h]

/-- A place is filled. -/
theorem fill_place (h : Counts operands digits) (rest : List Char) :
    fill operands ('{' :: (digits ++ '}' :: rest)) =
      (operands.getD (number digits) "").toList ++ fill operands rest := by
  rw [fill_open, place?_eq_some_iff.mpr ⟨digits, h, rfl, rfl⟩]

/-- A character that begins no place is kept. -/
theorem fill_literal {c : Char} {rest : List Char}
    (h : ∀ digits after, Counts operands digits → c :: rest ≠ '{' :: (digits ++ '}' :: after)) :
    fill operands (c :: rest) = c :: fill operands rest := by
  by_cases hc : c = '{'
  · rw [hc, fill_open]
    split
    · next text after hplace =>
      obtain ⟨digits, hdigits, rfl, -⟩ := place?_eq_some_iff.mp hplace
      exact absurd (by rw [hc]) (h digits after hdigits)
    · rfl
  · rw [fill, if_neg hc]

/-- What stands in front of the first brace stays. -/
theorem fill_append {before : List Char} (h : '{' ∉ before) (rest : List Char) :
    fill operands (before ++ rest) = before ++ fill operands rest := by
  induction before with
  | nil => rfl
  | cons c before ih =>
    rw [List.mem_cons, not_or] at h
    rw [List.cons_append, fill_literal fun _ _ _ heq => h.1 (List.cons.inj heq).1.symm, ih h.2,
      List.cons_append]

namespace FallsInto

variable {template : List Char} {pieces pieces' : List Piece}

/-- A character stands for itself if no place begins with it. -/
theorem char {c : Char} {rest : List Char} (h : c = '{' → place? operands rest = none)
    (hrest : FallsInto operands rest pieces) :
    FallsInto operands (c :: rest) (.literal c :: pieces) := by
  refine .literal (fun digits after hdigits heq => ?_) hrest
  obtain ⟨hc, hplace⟩ := List.cons.inj heq
  rw [place?_eq_some_iff.mpr ⟨digits, hdigits, hplace, rfl⟩] at h
  cases h hc

/-- **Each template falls into pieces.** -/
theorem exists_pieces (operands : List String) (template : List Char) :
    ∃ pieces, FallsInto operands template pieces := by
  fun_induction Template.fill operands template with
  | case1 => exact ⟨[], .nil⟩
  | case2 rest text after hplace ih =>
    obtain ⟨digits, hdigits, rfl, -⟩ := place?_eq_some_iff.mp hplace
    obtain ⟨pieces, hpieces⟩ := ih
    exact ⟨_, .place hdigits hpieces⟩
  | case3 rest hplace ih =>
    obtain ⟨pieces, hpieces⟩ := ih
    exact ⟨_, hpieces.char fun _ => hplace⟩
  | case4 c rest hc ih =>
    obtain ⟨pieces, hpieces⟩ := ih
    exact ⟨_, hpieces.char fun h => absurd h hc⟩

/-- **It does so in one way only.** -/
theorem unique (h : FallsInto operands template pieces) (h' : FallsInto operands template pieces') :
    pieces = pieces' := by
  induction h generalizing pieces' with
  | nil =>
    cases h'
    rfl
  | @place digits rest pieces hdigits hrest ih =>
    generalize ht : '{' :: (digits ++ '}' :: rest) = template at h'
    cases h' with
    | nil => cases ht
    | @place digits' rest' pieces' hdigits' hrest' =>
      -- Digits end at the first character that is none, so both places are the same.
      have htail := (List.cons.inj ht).2
      have hspan := span_digits hdigits.isDigit rest
      have hspan' := span_digits hdigits'.isDigit rest'
      rw [htail] at hspan
      obtain rfl : digits' = digits := hspan'.1.symm.trans hspan.1
      obtain rfl : rest' = rest := (List.cons.inj (hspan'.2.symm.trans hspan.2)).2
      rw [ih hrest']
    | literal h _ => exact absurd ht.symm (h digits rest hdigits)
  | @literal c rest pieces hnone hrest ih =>
    cases h' with
    | place hdigits _ => exact absurd rfl (hnone _ _ hdigits)
    | literal _ hrest' => rw [ih hrest']

/-- The pieces make up the template. -/
theorem source (h : FallsInto operands template pieces) :
    pieces.flatMap Piece.source = template := by
  induction h with
  | nil => rfl
  | place _ _ ih => simp [Piece.source, ih]
  | literal _ _ ih => simp [Piece.source, ih]

/-- **What fills a template are its pieces,** with operands in its places. -/
theorem fill (h : FallsInto operands template pieces) :
    fill operands template = pieces.flatMap (Piece.filled operands) := by
  induction h with
  | nil => rw [Template.fill, List.flatMap_nil]
  | place hdigits _ ih => rw [fill_place hdigits, ih, List.flatMap_cons, Piece.filled]
  | literal hnone _ ih =>
      rw [fill_literal hnone, ih, List.flatMap_cons, Piece.filled, List.singleton_append]

/-- Places count operands. -/
theorem counts (h : FallsInto operands template pieces) (hmem : .place digits ∈ pieces) :
    Counts operands digits := by
  induction h with
  | nil => cases hmem
  | place hdigits _ ih =>
    rcases List.mem_cons.mp hmem with heq | hmem
    · cases heq
      exact hdigits
    · exact ih hmem
  | literal _ _ ih =>
    rcases List.mem_cons.mp hmem with heq | hmem
    · cases heq
    · exact ih hmem

end FallsInto

/-! ### Places that are filled with themselves -/

/-- The operands that are the texts of their own places. -/
def places (n : Nat) : List String := (List.range n).map fun i => "\x7b" ++ Nat.repr i ++ "\x7d"

/-- A digit, by its code. -/
theorem isDigit_iff {c : Char} : isDigit c = true ↔ 48 ≤ c.toNat ∧ c.toNat ≤ 57 := by
  unfold isDigit
  simp only [Bool.and_eq_true, decide_eq_true_eq, Char.le_def, UInt32.le_iff_toNat_le]
  exact Iff.rfl

/-- A digit is the digit of its value. -/
theorem toDigits_of_isDigit {c : Char} (h : isDigit c = true) :
    c.toNat - '0'.toNat < 10 ∧ Nat.toDigits 10 (c.toNat - '0'.toNat) = [c] := by
  obtain ⟨hlow, hhigh⟩ := isDigit_iff.mp h
  have hchar := Char.ofNat_toNat c
  generalize c.toNat = n at *
  subst hchar
  interval_cases n <;> exact ⟨by decide, rfl⟩

/-- Digits behind a number that is not zero. -/
theorem toDigits_foldl {n : Nat} (hn : 0 < n) (h : ∀ c ∈ digits, isDigit c = true) :
    Nat.toDigits 10 (digits.foldl (fun n c => 10 * n + (c.toNat - '0'.toNat)) n) =
      Nat.toDigits 10 n ++ digits := by
  induction digits generalizing n with
  | nil => exact (List.append_nil _).symm
  | cons c rest ih =>
    rw [List.forall_mem_cons] at h
    obtain ⟨hlt, hdigit⟩ := toDigits_of_isDigit h.1
    rw [List.foldl_cons, ih (by omega) h.2,
      ← Nat.toDigits_append_toDigits (by norm_num) hn hlt, hdigit,
      List.append_assoc, List.singleton_append]

/-- **Digits without leading zeros are those of their number.** -/
theorem toDigits_number (hne : digits ≠ []) (h : ∀ c ∈ digits, isDigit c = true)
    (hplain : digits.head? = some '0' → digits = ['0']) :
    Nat.toDigits 10 (number digits) = digits := by
  cases digits with
  | nil => exact absurd rfl hne
  | cons c rest =>
    rw [List.forall_mem_cons] at h
    -- The first digit is not zero, or it is the only one.
    by_cases hc : c = '0'
    · subst hc
      rw [hplain rfl]
      rfl
    · obtain ⟨-, hdigit⟩ := toDigits_of_isDigit h.1
      have hpos : 0 < c.toNat - '0'.toNat := by
        refine Nat.pos_of_ne_zero fun hzero => hc ?_
        rw [hzero] at hdigit
        exact (List.cons.inj hdigit).1.symm
      show Nat.toDigits 10 (rest.foldl _ (10 * 0 + (c.toNat - '0'.toNat))) = _
      rw [Nat.mul_zero, Nat.zero_add, toDigits_foldl hpos h.2, hdigit, List.singleton_append]

/-- Such a place is filled with itself. -/
theorem Piece.filled_places {n : Nat} (h : Counts (places n) digits)
    (hplain : digits.head? = some '0' → digits = ['0']) :
    (Piece.place digits).filled (places n) = (Piece.place digits).source := by
  have hlt : number digits < n := by simpa [places] using h.lt
  have hget : (places n).getD (number digits) "" = "\x7b" ++
    Nat.repr (number digits) ++ "\x7d" := by
    simp [places, List.getD_eq_getElem?_getD, hlt]
  rw [filled, hget, source]
  simp [Nat.toList_repr, toDigits_number h.nonempty h.isDigit hplain]

/-- **Places that are filled with themselves leave the template as it is,** if their numbers have no
    leading zeros. -/
theorem FallsInto.fill_places {n : Nat} {template : List Char} {pieces : List Piece}
    (h : FallsInto (places n) template pieces)
    (hplain : ∀ digits, .place digits ∈ pieces → digits.head? = some '0' → digits = ['0']) :
    Template.fill (places n) template = template := by
  conv_rhs => rw [← h.source]
  rw [h.fill]
  refine List.flatMap_congr fun piece hmem => ?_
  cases piece with
  | literal c => rfl
  | place digits => exact Piece.filled_places (h.counts hmem) (hplain digits hmem)

/-! ### The template as bytes -/

/-- The bytes of a text. -/
def bytes (cs : List Char) : List UInt8 := cs.flatMap String.utf8EncodeChar

/-- They are the UTF-8 encoding of the text. -/
theorem toUTF8_eq_bytes (text : String) : text.toUTF8.data.toList = bytes text.toList := by
  conv_lhs => rw [← String.ofList_toList (s := text), String.toUTF8, String.toByteArray_ofList]
  simp [List.utf8Encode, bytes]

/-- Whether a byte stands inside of a character, and not at its beginning. -/
def isInner (b : UInt8) : Bool := 128 ≤ b && b < 192

/-- A text cut in two behind a number of bytes, unless that is inside of a
    character or beyond the end. -/
def cut? (text : List UInt8) (n : Nat) : Option (List UInt8 × List UInt8) :=
  match text.drop n with
  | [] => if n = text.length then some (text, []) else none
  | b :: after => if isInner b then none else some (text.take n, b :: after)

/-- Whether a byte is an ASCII digit. -/
def isDigitByte (b : UInt8) : Bool := 48 ≤ b && b ≤ 57

/-- The number that digits denote, if there are any and it is below a limit. -/
def index? (limit : Nat) (digits : List UInt8) : Option Nat :=
  let n := digits.foldl (fun n b => 10 * n + (b.toNat - 48)) 0
  if !digits.isEmpty && n < limit then some n else none

/-- What is behind a cut is shorter. -/
theorem length_of_cut? {text before after : List UInt8} {n : Nat}
    (h : cut? text n = some (before, after)) :
    after.length + n = text.length := by
  unfold cut? at h
  have hlength := List.length_drop (l := text) (i := n)
  split at h
  · split at h
    · cases h
      simpa using by assumption
    · cases h
  · next hdrop =>
    split at h
    · cases h
    · cases h
      rw [hdrop, List.length_cons] at hlength
      simp only [List.length_cons]
      omega

/-- **One round of the scan:** over the text in front of an opening brace, over the digits behind
    it, and over a closing brace, if the digits count an operand; else on behind the opening brace.
    It gives the text to write and what is left, or nothing if a text is cut
    inside of a character. -/
def advance (limit : Nat) (operands : List String) (text : List UInt8) (opening : Nat) :
    Option (List UInt8 × List UInt8) := do
  let (before, _) ← cut? text opening
  let (_, after) ← cut? text (opening + 1)
  let count := (after.takeWhile isDigitByte).length
  let (digits, behind) ← cut? after count
  match (if behind.head? = some 125 then index? limit digits else none).bind (operands[·]?) with
  | some operand =>
    let (_, rest) ← cut? after (count + 1)
    some (before ++ bytes operand.toList, rest)
  | none => some (before ++ [123], after)

/-- Each round shortens what is left. -/
theorem length_of_advance {limit opening : Nat} {text out rest : List UInt8}
    (h : advance limit operands text opening = some (out, rest)) : rest.length < text.length := by
  unfold advance at h
  simp only [Option.bind_eq_bind, Option.bind_eq_some_iff, Prod.exists] at h
  obtain ⟨_, _, -, _, after, hafter, _, _, -, h⟩ := h
  have hlength := length_of_cut? hafter
  split at h
  · simp only [Option.bind_eq_some_iff, Prod.exists] at h
    obtain ⟨_, _, hrest, h⟩ := h
    have hlength' := length_of_cut? hrest
    cases h
    omega
  · cases h
    omega

/-- **The scan of a template, byte by byte,** from one opening brace to the next. -/
def scan (limit : Nat) (operands : List String) (text : List UInt8) : Option (List UInt8) :=
  match text.findIdx? (· == 123) with
  | none => some text
  | some opening =>
    match _h : advance limit operands text opening with
    | some (out, rest) => (scan limit operands rest).map (out ++ ·)
    | none => none
termination_by text.length
decreasing_by exact length_of_advance _h

/-- A round of the scan is followed by the others. -/
theorem scan_open {limit opening : Nat} {text out rest : List UInt8}
    (hopening : text.findIdx? (· == 123) = some opening)
    (hround : advance limit operands text opening = some (out, rest)) :
    scan limit operands text = (scan limit operands rest).map (out ++ ·) := by
  rw [scan, hopening]
  simp only
  split
  · next h =>
    rw [hround] at h
    cases h
    rfl
  · next h =>
    rw [hround] at h
    cases h

/-! ### Both scans agree -/

/-- Bytes of texts follow one another. -/
theorem bytes_append (cs cs' : List Char) : bytes (cs ++ cs') = bytes cs ++ bytes cs' :=
  List.flatMap_append

/-- A text begins with the bytes of its first character. -/
theorem bytes_cons (c : Char) (cs : List Char) : bytes
    (c :: cs) = String.utf8EncodeChar c ++ bytes cs :=
  List.flatMap_cons

/-- An ASCII character is one byte. -/
theorem utf8EncodeChar_ascii {c : Char} (h : c.toNat < 128) :
    String.utf8EncodeChar c = [UInt8.ofNat c.toNat] := by
  unfold String.utf8EncodeChar
  exact if_pos (Nat.lt_succ_iff.mp h)

/-- All bytes of other characters are above those of ASCII, and the first one is
    none of the inner ones. -/
theorem utf8EncodeChar_other {c : Char} (h : 128 ≤ c.toNat) :
    ∃ b rest, String.utf8EncodeChar c = b :: rest ∧ 192 ≤ b.toNat ∧ ∀ b ∈ rest, 128 ≤ b.toNat := by
  unfold String.utf8EncodeChar
  have hv : ¬ c.val.toNat ≤ 127 := Nat.not_le.mpr h
  simp only [if_neg hv]
  split
  · exact ⟨_, _, rfl, by simp; omega, by simp; omega⟩
  · split
    · exact ⟨_, _, rfl, by simp; omega, by simp; omega⟩
    · exact ⟨_, _, rfl, by simp; omega, by simp; omega⟩

/-- No text begins inside of a character. -/
theorem not_isInner_head {b : UInt8} {rest : List UInt8} {cs : List Char}
    (h : bytes cs = b :: rest) :
    isInner b = false := by
  cases cs with
  | nil => cases h
  | cons c cs =>
    rw [bytes_cons] at h
    unfold isInner
    simp only [Bool.and_eq_false_iff, decide_eq_false_iff_not, UInt8.le_iff_toNat_le,
      UInt8.lt_iff_toNat_lt]
    -- A character is one byte below 128, or begins with a byte from 192 on.
    rcases Nat.lt_or_ge c.toNat 128 with hc | hc
    · rw [utf8EncodeChar_ascii hc] at h
      cases h
      left
      simp
      omega
    · obtain ⟨b', rest', heq, hb, -⟩ := utf8EncodeChar_other hc
      rw [heq] at h
      cases h
      right
      simpa using hb

/-- **A text is cut in two between characters.** -/
theorem cut?_bytes (cs cs' : List Char) :
    cut? (bytes (cs ++ cs')) (bytes cs).length = some (bytes cs, bytes cs') := by
  unfold cut?
  rw [bytes_append, List.drop_left, List.take_left]
  split
  · next h => rw [if_pos (by simp [h]), h, List.append_nil]
  · next b after h => rw [not_isInner_head h, if_neg Bool.false_ne_true, h]

/-- It may also be cut behind an ASCII character. -/
theorem cut?_ascii (cs : List Char) {c : Char} (h : c.toNat < 128) (cs' : List Char) :
    cut? (bytes (cs ++ c :: cs')) ((bytes cs).length + 1) =
    some (bytes (cs ++ [c]), bytes cs') := by
  have hlength : (bytes (cs ++ [c])).length = (bytes cs).length + 1 := by
    rw [bytes_append, bytes_cons, utf8EncodeChar_ascii h, List.length_append]
    rfl
  rw [← hlength, List.append_cons]
  exact cut?_bytes (cs ++ [c]) cs'

/-- A code of ASCII fits into a byte. -/
theorem toNat_ofNat_ascii {n : Nat} (h : n < 128) : (UInt8.ofNat n).toNat = n :=
  UInt8.toNat_ofNat_of_lt' (Nat.lt_trans h (by decide))

/-- A byte of ASCII stands for its character only. -/
theorem mem_utf8EncodeChar {c d : Char} (hd : d.toNat < 128) :
    UInt8.ofNat d.toNat ∈ String.utf8EncodeChar c ↔ c = d := by
  constructor
  · intro h
    rcases Nat.lt_or_ge c.toNat 128 with hc | hc
    · rw [utf8EncodeChar_ascii hc, List.mem_singleton] at h
      have heq := congrArg UInt8.toNat h
      rw [toNat_ofNat_ascii hd, toNat_ofNat_ascii hc] at heq
      exact (Char.toNat_inj.mp heq).symm
    · -- All bytes of other characters are above those of ASCII.
      obtain ⟨b, rest, heq, hb, hrest⟩ := utf8EncodeChar_other hc
      have habove : ∀ b' ∈ b :: rest, 128 ≤ b'.toNat :=
        List.forall_mem_cons.mpr ⟨Nat.le_trans (by decide) hb, hrest⟩
      have := habove _ (heq ▸ h)
      rw [toNat_ofNat_ascii hd] at this
      exact absurd this (Nat.not_le.mpr hd)
  · rintro rfl
    rw [utf8EncodeChar_ascii hd]
    exact List.mem_singleton_self _

/-- A text has the byte of an ASCII character only with the character. -/
theorem mem_bytes {cs : List Char} {d : Char} (hd : d.toNat < 128) :
    UInt8.ofNat d.toNat ∈ bytes cs ↔ d ∈ cs := by
  simp only [bytes, List.mem_flatMap, mem_utf8EncodeChar hd, exists_eq_right]

/-- Without an opening brace, there is no byte of one. -/
theorem findIdx?_bytes {cs : List Char} (h : '{' ∉ cs) : (bytes cs).findIdx? (· == 123) = none := by
  refine List.findIdx?_eq_none_iff.mpr fun b hb => beq_eq_false_iff_ne.mpr ?_
  rintro rfl
  exact h ((mem_bytes (d := '{') (by decide)).mp hb)

/-- **An opening brace is found as a byte.** -/
theorem findIdx?_brace {before : List Char} (h : '{' ∉ before) (after : List Char) :
    (bytes (before ++ '{' :: after)).findIdx? (· == 123) = some (bytes before).length := by
  have hopen : bytes ('{' :: after) = 123 :: bytes after := bytes_cons _ _
  rw [bytes_append, hopen, List.findIdx?_append, findIdx?_bytes h]
  simp [List.findIdx?_cons]

/-- A byte is a digit by the number that it is. -/
theorem isDigitByte_iff {b : UInt8} : isDigitByte b = true ↔ 48 ≤ b.toNat ∧ b.toNat ≤ 57 := by
  unfold isDigitByte
  simp only [Bool.and_eq_true, decide_eq_true_eq, UInt8.le_iff_toNat_le]
  exact Iff.rfl

/-- A digit is one byte. -/
theorem utf8EncodeChar_digit {c : Char} (h : isDigit c = true) :
    String.utf8EncodeChar c = [UInt8.ofNat c.toNat] :=
  utf8EncodeChar_ascii (by have := isDigit_iff.mp h; omega)

/-- The first byte tells whether the character is a digit. -/
theorem isDigitByte_head {c : Char} {b : UInt8} {rest : List UInt8}
    (h : String.utf8EncodeChar c = b :: rest) : isDigitByte b = isDigit c := by
  rw [Bool.eq_iff_iff, isDigitByte_iff, isDigit_iff]
  rcases Nat.lt_or_ge c.toNat 128 with hc | hc
  · rw [utf8EncodeChar_ascii hc] at h
    cases h
    rw [toNat_ofNat_ascii hc]
  · obtain ⟨b', rest', heq, hb, -⟩ := utf8EncodeChar_other hc
    rw [heq] at h
    cases h
    omega

/-- The digits in front are as many bytes. -/
theorem takeWhile_bytes (cs : List Char) :
    (bytes cs).takeWhile isDigitByte = bytes (cs.takeWhile isDigit) := by
  induction cs with
  | nil => rfl
  | cons c cs ih =>
    by_cases hc : isDigit c = true
    · have henc := utf8EncodeChar_digit hc
      have hbyte := isDigitByte_head henc
      rw [List.takeWhile_cons_of_pos hc, bytes_cons, bytes_cons, henc, List.singleton_append,
        List.takeWhile_cons_of_pos (hbyte.trans hc), ih, List.singleton_append]
    · obtain ⟨b, rest, henc⟩ := List.exists_cons_of_ne_nil (String.utf8EncodeChar_ne_nil (c := c))
      have hbyte := isDigitByte_head henc
      rw [List.takeWhile_cons_of_neg hc, bytes_cons, henc, List.cons_append,
        List.takeWhile_cons_of_neg (by rw [hbyte]; exact hc)]
      rfl

/-- Digits are as many bytes. -/
theorem bytes_digits (h : ∀ c ∈ digits, isDigit c = true) :
    bytes digits = digits.map fun c => UInt8.ofNat c.toNat := by
  rw [List.map_eq_flatMap]
  exact List.flatMap_congr fun c hc => utf8EncodeChar_digit (h c hc)

/-- They denote the same number. -/
theorem index?_bytes {limit : Nat} (h : ∀ c ∈ digits, isDigit c = true) :
    index? limit (bytes digits) =
      if digits ≠ [] ∧ number digits < limit then some (number digits) else none := by
  have hvalue : (bytes digits).foldl (fun n b => 10 * n + (b.toNat - 48)) 0 = number digits := by
    rw [bytes_digits h, List.foldl_map]
    refine List.foldl_ext _ _ _ fun n c hc => ?_
    rw [toNat_ofNat_ascii (by have := isDigit_iff.mp (h c hc); omega)]
    rfl
  unfold index?
  rw [hvalue, bytes_digits h]
  simp

/-- A closing brace in front is seen by its byte. -/
theorem head?_bytes {cs : List Char} : (bytes cs).head? = some 125 ↔ cs.head? = some '}' := by
  cases cs with
  | nil => simp [bytes]
  | cons c cs =>
    constructor
    · obtain ⟨b, rest, henc⟩ := List.exists_cons_of_ne_nil (String.utf8EncodeChar_ne_nil (c := c))
      rw [bytes_cons, henc, List.cons_append, List.head?_cons, Option.some.injEq]
      rintro rfl
      have hclose : c = '}' := (mem_utf8EncodeChar (by decide)).mp (henc ▸ List.mem_cons_self)
      rw [hclose, List.head?_cons]
    · intro h
      cases h
      rfl

/-- **The operand behind a brace is found by bytes.** -/
theorem operand_bytes {limit : Nat} (hlimit : operands.length ≤ limit) (text : List Char) :
    (if (bytes (text.dropWhile isDigit)).head? = some 125
      then index? limit (bytes (text.takeWhile isDigit)) else none).bind (operands[·]?) =
        (place? operands text).map Prod.fst := by
  have hdigits : ∀ c ∈ text.takeWhile isDigit, isDigit c = true :=
    fun c hc => List.mem_takeWhile_imp hc
  simp only [head?_bytes, index?_bytes hdigits]
  unfold place? operand?
  -- The bytes behind the digits are those of a closing brace exactly if the character is one.
  split
  · next hclose =>
    obtain ⟨after, hdrop⟩ := List.head?_eq_some_iff.mp hclose
    rw [hdrop]
    -- A number is an index if it is below the limit, and the limit is no tighter than the operands.
    by_cases hlt : number (text.takeWhile isDigit) < limit
    · by_cases hne : text.takeWhile isDigit = []
      · simp [hne]
      · simp [hne, hlt, Function.comp_def]
    · have hnone : operands[number (text.takeWhile isDigit)]? = none :=
        List.getElem?_eq_none (Nat.le_trans hlimit (Nat.not_lt.mp hlt))
      simp [hlt, hnone]
  · next hother =>
    split
    · next hdrop =>
      rw [hdrop] at hother
      exact absurd rfl hother
    · rfl

/-- **A round of the scan cuts between characters,** and goes over a place, if there is one. -/
theorem advance_bytes {limit : Nat} (hlimit : operands.length ≤ limit) (before after : List Char) :
    advance limit operands (bytes (before ++ '{' :: after)) (bytes before).length =
      some (match place? operands after with
        | some (text, rest) => (bytes (before ++ text.toList), bytes rest)
        | none => (bytes (before ++ ['{']), bytes after)) := by
  have hdigits := cut?_bytes (after.takeWhile isDigit) (after.dropWhile isDigit)
  rw [List.takeWhile_append_dropWhile] at hdigits
  unfold advance
  simp only [Option.bind_eq_bind,
    cut?_bytes before ('{' :: after), cut?_ascii before (c := '{') (by decide),
    Option.bind_some, takeWhile_bytes, hdigits, operand_bytes hlimit]
  -- Without a place the brace is kept and the scan goes on behind it; else it goes on behind the
  -- place.
  cases hplace : place? operands after with
  | none =>
    rw [bytes_append]
    rfl
  | some found =>
    obtain ⟨text, rest⟩ := found
    obtain ⟨digits, hcounts, rfl, -⟩ := place?_eq_some_iff.mp hplace
    rw [(span_digits hcounts.isDigit rest).1, cut?_ascii digits (c := '}') (by decide)]
    simp only [Option.map_some, Option.bind_some, bytes_append]

/-- **The scan by bytes never cuts a character, and fills the template.** -/
theorem scan_bytes {limit : Nat} (hlimit : operands.length ≤ limit) (template : List Char) :
    scan limit operands (bytes template) = some (bytes (fill operands template)) := by
  -- A round may leave any tail of the template, so the induction is on the length.
  induction hn : template.length using Nat.strongRecOn generalizing template with
  | _ n ih =>
    by_cases hopen : '{' ∈ template
    · obtain ⟨before, after, rfl, hbefore⟩ := List.eq_append_cons_of_mem hopen
      rw [List.length_append, List.length_cons] at hn
      rw [scan_open (findIdx?_brace hbefore after) (advance_bytes hlimit before after),
        fill_append hbefore,
        fill_open]
      cases hplace : place? operands after with
      | none =>
        simp only [ih after.length (by omega) after rfl, Option.map_some, ← bytes_append,
          List.append_assoc,
          List.singleton_append]
      | some found =>
        obtain ⟨text, rest⟩ := found
        have hlength := length_of_place? hplace
        simp only [ih rest.length (by omega) rest rfl, Option.map_some, ← bytes_append,
          List.append_assoc]
    · rw [scan, findIdx?_bytes hopen, ← List.append_nil template,
        fill_append (by simpa using hopen)]
      simp [fill]

end Template

open Template

/-- **What a template becomes:** it falls, from left to right, into literal characters and places of
    operands, in one way only, and the result consists of the characters and of the operands,
    whatever texts these are. Operands that are the texts of their own places leave a template as it
    is, if it numbers its places without leading zeros. The scan byte by byte, for numbers up to any
    limit that is not below the number of operands, cuts no character in two
    and has the same result. -/
theorem substitute_pieces (template : String) (operands : List String) :
    (∃! pieces, FallsInto operands template.toList pieces) ∧
    (∀ pieces, FallsInto operands template.toList pieces →
      String.ofList (pieces.flatMap Piece.source) = template ∧
      substitute template operands = String.ofList (pieces.flatMap (Piece.filled operands)) ∧
      ∀ n, operands = places n →
        (∀ digits, .place digits ∈ pieces → digits.head? = some '0' → digits = ['0']) →
        substitute template operands = template) ∧
    ∀ limit, operands.length ≤ limit →
      scan limit operands template.toUTF8.data.toList =
        some (substitute template operands).toUTF8.data.toList := by
  refine ⟨?_, fun pieces h => ⟨?_, ?_, ?_⟩, fun limit hlimit => ?_⟩
  · obtain ⟨pieces, h⟩ := FallsInto.exists_pieces operands template.toList
    exact ⟨pieces, h, fun pieces' h' => h'.unique h⟩
  · rw [h.source, String.ofList_toList]
  · rw [substitute, h.fill]
  · rintro n rfl hplain
    rw [substitute, h.fill_places hplain, String.ofList_toList]
  · rw [toUTF8_eq_bytes, toUTF8_eq_bytes, scan_bytes hlimit, substitute, String.toList_ofList]

/-- An operand with the text of a place, and a brace in front of a place. -/
theorem substitute_pieces_of_nested :
    substitute "\x7b{1}ä{0}" ["{1}", "z"] = "\x7bzä{1}" ∧
    substitute "\x7b{1}ä{0}" (places 2) = "\x7b{1}ä{0}" ∧
      scan (2 ^ 64) ["{1}", "z"] "\x7b{1}ä{0}".toUTF8.data.toList =
      some "\x7bzä{1}".toUTF8.data.toList := by
  -- Both digits count, since there are two operands.
  have hcounts : ∀ operands : List String, operands.length = 2 →
      Counts operands ['0'] ∧ Counts operands ['1'] := by
    intro operands hlength
    have hzero : isDigit '0' = true := isDigit_iff.mpr (by decide)
    have hone : isDigit '1' = true := isDigit_iff.mpr (by decide)
    exact ⟨⟨List.cons_ne_nil _ _, List.forall_mem_singleton.mpr hzero, by rw [hlength]; decide⟩,
      ⟨List.cons_ne_nil _ _, List.forall_mem_singleton.mpr hone, by rw [hlength]; decide⟩⟩
  have hpieces : ∀ operands : List String, operands.length = 2 →
    FallsInto operands "\x7b{1}ä{0}".toList
      -- The first brace begins no place, because another one follows it.
      [.literal '{', .place ['1'], .literal 'ä', .place ['0']] := by
    intro operands hlength
    obtain ⟨hzero, hone⟩ := hcounts operands hlength
    exact .char (fun _ => rfl)
      (.place hone (.char (fun h => absurd h (by decide)) (.place hzero .nil)))
  obtain ⟨-, hfilled, hscan⟩ := substitute_pieces "\x7b{1}ä{0}" ["{1}", "z"]
  have hresult : substitute "\x7b{1}ä{0}" ["{1}", "z"] = "\x7bzä{1}" :=
    (hfilled _ (hpieces _ rfl)).2.1
  obtain ⟨-, hplaces, -⟩ := substitute_pieces "\x7b{1}ä{0}" (places 2)
  obtain ⟨-, -, hsame⟩ := hplaces _ (hpieces _ rfl)
  have hplain : ∀ digits,
    .place digits ∈ [Piece.literal '{', .place ['1'], .literal 'ä', .place ['0']] →
      digits.head? = some '0' → digits = ['0'] := by
    simp
  refine ⟨hresult, hsame 2 rfl hplain, ?_⟩
  rw [hscan (2 ^ 64) (by decide), hresult]

end StyleBook
