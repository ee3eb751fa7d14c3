import NameResolution.Diagnostic

/-! # Reports

    A report is a diagnostic, or an error in a configuration, with the text of
    the file it is about. Showing it is left to whoever prints it. -/

namespace NameResolution

/-- The text of a file and the path the user wrote for it. -/
structure SourceFile where
  location : String
  contents : String
  deriving DecidableEq, Repr

/-- Something to tell the user, with the file it is about. -/
structure Report (α : Type) where
  file : SourceFile
  content : α
  deriving DecidableEq, Repr

/-- Stands for bytes that are no whole character. -/
def replacementMark : Char := '\uFFFD'

/-- The characters between two byte positions, from a text that starts at `position`. Of a
    character that is cut at its start each byte left, and of one that is cut at its end all
    bytes together, turn into a mark. -/
def textBetween (start stop : Nat) : Nat → List Char → List Char
  | _, [] => []
  | position, c :: cs =>
    let next := position + c.utf8Size
    let shown :=
      if position < start then List.replicate (min next stop - start) replacementMark
      else if next ≤ stop then [c]
      else if position < stop then [replacementMark]
      else []
    shown ++ textBetween start stop next cs

/-- Whether a byte position lies inside a line end of two characters, in a text that starts at
    `position`. -/
def insideLineEnd (stop : Nat) : Nat → List Char → Bool
  | _, [] => false
  | position, '\r' :: '\n' :: cs => position + 1 == stop || insideLineEnd stop (position + 2) cs
  | position, c :: cs => insideLineEnd stop (position + c.utf8Size) cs

/-- Where the text shown for a span stops. A line end is shown whole, and a span of nothing at
    the very start shows what comes first. -/
def SourceFile.shownUpTo (file : SourceFile) (span : Span) : Nat :=
  let stop := max (span.offset + span.length) 1
  if insideLineEnd stop 0 file.contents.toList then stop + 1 else stop

/-- The text shown for a span, which has to start in the text or at its end. The span may reach
    one byte beyond the end: that byte is where the end itself is pointed at. -/
def SourceFile.textAt? (file : SourceFile) (span : Span) : Option String :=
  let size := file.contents.utf8ByteSize
  if span.offset ≤ size ∧ span.offset + span.length ≤ size + 1 then
    some (String.ofList
      (textBetween span.offset (file.shownUpTo span) 0 file.contents.toList))
  else none

/-- The text that a report points at. -/
def Report.primaryText? (report : Report Diagnostic) : Option String :=
  report.file.textAt? report.content.span

end NameResolution
