import FormCompiler.Word.Basic

/-!
# Spans and positions of source text

A `Span` is a half-open range of byte offsets into the UTF-8 source text of one unit.
Tokens, expressions, diagnostics and the instructions made from them carry one.

The functions on `List Char` below read a text by byte offset: `byteLength` is the size of
a text, and `dropBytes` and `takeBytes` cut it, which is possible only between two characters.

Offsets are reported as a line and a column, both counted from one; columns count bytes.
A `LineTable` holds the offset at which each line starts, so that many offsets of one text
can be looked up. `lineColumn?` answers a single lookup by scanning the text before the offset.
-/

namespace FormCompiler

/-- A half-open range of byte offsets into the source text of one unit. -/
structure Span where
  start : Nat
  stop : Nat
deriving DecidableEq, Repr, Inhabited

/-! ## Byte offsets into a list of characters -/

/-- The number of bytes a list of characters takes in UTF-8. -/
def byteLength (text : List Char) : Nat :=
  total (text.map Char.utf8Size)

/-- The text after the first `n` bytes, if these end between two characters. -/
def dropBytes : Nat → List Char → Option (List Char)
  | 0, text => some text
  | _ + 1, [] => none
  | n + 1, c :: text =>
    if c.utf8Size ≤ n + 1 then dropBytes (n + 1 - c.utf8Size) text else none

/-- The first `n` bytes of a text, if these end between two characters. -/
def takeBytes : Nat → List Char → Option (List Char)
  | 0, _ => some []
  | _ + 1, [] => none
  | n + 1, c :: text =>
    if c.utf8Size ≤ n + 1 then (takeBytes (n + 1 - c.utf8Size) text).map (c :: ·) else none

namespace Span

/-- The span that stands for "no position". -/
def nowhere : Span := ⟨0, 0⟩

/-- The empty span at an offset. -/
def point (offset : Nat) : Span := ⟨offset, offset⟩

/-- The number of bytes in a span. -/
def length (s : Span) : Nat := s.stop - s.start

/-- Whether a span covers no byte. -/
def isEmpty (s : Span) : Bool := s.start == s.stop

/-- Whether an offset lies inside a span; the end is outside. -/
def contains (s : Span) (offset : Nat) : Bool :=
  s.start ≤ offset && offset < s.stop

/-- The smallest span that covers both. -/
def merge (s t : Span) : Span :=
  ⟨min s.start t.start, max s.stop t.stop⟩

/-- Spans are ordered by their start, then by their end. -/
def before (s t : Span) : Bool :=
  s.start < t.start || (s.start == t.start && s.stop < t.stop)

/-- The text a span covers; empty if the span does not lie between characters of the text. -/
def slice (s : Span) (source : String) : String :=
  if s.start ≤ s.stop then
    match (dropBytes s.start source.toList).bind (takeBytes (s.stop - s.start)) with
    | some text => String.ofList text
    | none => ""
  else ""

/-- The written form of a span, `start..end`. -/
def text (s : Span) : String := s!"{s.start}..{s.stop}"

end Span

/-! ## Lines and columns -/

/-- A line and a column, both counted from one. -/
structure Position where
  line : Nat
  column : Nat
deriving DecidableEq, Repr, Inhabited

/-- The offsets just after each line break of a text that begins at `offset`. -/
def lineStartsFrom (offset : Nat) : List Char → List Nat
  | [] => []
  | c :: text =>
    let next := offset + c.utf8Size
    if c = '\n' then next :: lineStartsFrom next text else lineStartsFrom next text

/--
Looks for a number in an ascending list: the index at which it stands or, if it is not there, the
index at which it could be inserted.
-/
def searchAscending (values : List Nat) (value : Nat) : Except Nat Nat :=
  match values.idxOf? value with
  | some index => .ok index
  | none => .error (values.countP (· < value))

/-- The offset at which each line of a text starts, in ascending order. -/
structure LineTable where
  starts : List Nat
deriving DecidableEq, Repr, Inhabited

namespace LineTable

/-- The table of a source text; its first line starts at offset zero. -/
def ofSource (source : String) : LineTable :=
  ⟨0 :: lineStartsFrom 0 source.toList⟩

/-- The number of lines. -/
def count (t : LineTable) : Nat := t.starts.length

/-- The line that contains an offset: the last one that starts at or before it. -/
def lineAt (t : LineTable) (offset : Nat) : Nat :=
  match searchAscending t.starts offset with
  | .ok index => index + 1
  | .error index => index - 1 + 1

/-- The position of an offset. -/
def position (t : LineTable) (offset : Nat) : Position :=
  let line := t.lineAt offset
  ⟨line, offset - t.starts.getD (line - 1) 0 + 1⟩

end LineTable

/-- The number of bytes of a text up to and including its last line break. -/
def lastLineStart (text : List Char) : Nat :=
  (lineStartsFrom 0 text).getLastD 0

/--
The position of an offset, found by scanning the text before it. An offset past the end is
taken as the end; one inside a character scans the whole text, and then there is no column
when the text's last line starts after the offset.
-/
def lineColumn? (source : String) (offset : Nat) : Option Position :=
  let text := source.toList
  let stop := min offset (byteLength text)
  let before := (takeBytes stop text).getD text
  let start := lastLineStart before
  if start ≤ stop then some ⟨before.count '\n' + 1, stop - start + 1⟩ else none

end FormCompiler
