/-!
# Taking texts apart

Functions that cut a text at a given lead, tail or separator. A text is a list of characters, and
none of them loses any of it: what is given back, with what was cut at, is the text. Lines and words are
parts of a text between line breaks and blanks.
-/

namespace FormCompiler.Text

/-- The text after a given lead. -/
def after? : List Char → List Char → Option (List Char)
  | [], text => some text
  | _ :: _, [] => none
  | c :: lead, d :: text => if c = d then after? lead text else none

/-- The text before a given tail. -/
def before? (tail text : List Char) : Option (List Char) :=
  (after? tail.reverse text.reverse).map List.reverse

/-- The texts before and after the first occurrence of a separator. -/
def splitFirst? (sep : List Char) : List Char → Option (List Char × List Char)
  | [] => none
  | c :: text =>
    match after? sep (c :: text) with
    | some rest => some ([], rest)
    | none => (splitFirst? sep text).map fun (head, rest) => (c :: head, rest)

/-- The texts before and after the last occurrence of a separator. -/
def splitLast? (sep text : List Char) : Option (List Char × List Char) :=
  (splitFirst? sep.reverse text.reverse).map fun (tail, head) => (head.reverse, tail.reverse)

/-- The text inside a given lead and tail. -/
def between? (lead tail text : List Char) : Option (List Char) :=
  (after? lead text).bind (before? tail)

/-! ## Blanks and lines -/

/-- The ranges of code points of the characters that separate words. -/
def blankRanges : List (Nat × Nat) :=
  [ (0x09, 0x0d), (0x20, 0x20), (0x85, 0x85), (0xa0, 0xa0), (0x1680, 0x1680), (0x2000, 0x200a),
    (0x2028, 0x2029), (0x202f, 0x202f), (0x205f, 0x205f), (0x3000, 0x3000) ]

/-- Whether a character separates words. -/
def isBlank (c : Char) : Bool :=
  blankRanges.any fun (first, last) => first ≤ c.toNat && c.toNat ≤ last

/-- A text without the blanks at its start. -/
def trimStart (text : List Char) : List Char := text.dropWhile isBlank

/-- A text without the blanks at its end. -/
def trimEnd (text : List Char) : List Char := (trimStart text.reverse).reverse

/-- A text without the blanks around it. -/
def trim (text : List Char) : List Char := trimEnd (trimStart text)

/-- The parts of a text between the occurrences of a character; there is always at least one. -/
def splitOn (sep : Char) : List Char → List (List Char)
  | [] => [[]]
  | c :: text =>
    match splitOn sep text with
    | [] => [[c]]
    | part :: parts => if c = sep then [] :: part :: parts else (c :: part) :: parts

/-- The lines of a text; a line break at the end starts no further line. -/
def lines (text : List Char) : List (List Char) :=
  let parts := splitOn '\n' text
  if parts.getLast? = some [] then parts.dropLast else parts

/-- The words of a text: its longest parts without blanks. -/
def words : List Char → List (List Char)
  | [] => []
  | c :: text =>
    if isBlank c then words text
    else
      match text with
      | [] => [[c]]
      | d :: _ =>
        if isBlank d then [c] :: words text
        else
          match words text with
          | [] => [[c]]
          | word :: rest => (c :: word) :: rest

end FormCompiler.Text
