import Std.Data.TreeMap

/-! # Names, spans and paths

    The leaves of a syntax tree. A node carries a number that is its own within
    the program; every later table is keyed by it. A name carries the bytes of
    the text it was written at. A path is a list of segments, each a name or one
    of the three words `super`, `self` and `Self`. -/

namespace NameResolution

/-- The number of a syntax node, distinct within one program. -/
structure NodeId where
  index : Nat
  deriving DecidableEq, Repr

namespace NodeId

instance : Ord NodeId := ⟨compareOn index⟩

instance : Std.TransOrd NodeId := inferInstanceAs (Std.TransCmp (compareOn index))

instance : Std.LawfulEqOrd NodeId where
  eq_of_compare {a b} h := by
    cases a; cases b
    exact congrArg mk (Std.LawfulEqOrd.eq_of_compare h)

/-- How a node is written in messages. -/
def text (node : NodeId) : String := s!"node#{node.index}"

/-- The long form, for places that show whole values. -/
def longText (node : NodeId) : String := s!"NodeId({node.index})"

/-- The first `count` numbers in the order in which they are handed out. -/
def firstFresh (count : Nat) : List NodeId := (List.range count).map mk

end NodeId

/-- A stretch of source text, in bytes. -/
structure Span where
  offset : Nat
  length : Nat
  deriving DecidableEq, Repr

/-- A name with the place it is written at. -/
structure Ident where
  name : String
  span : Span
  deriving DecidableEq, Repr

/-- What a path segment is: a name, or a word that stands for a module or an item. -/
inductive SegmentKind where
  | name (text : String)
  /-- `super`, the module around the current one -/
  | super
  /-- `self`, the current module -/
  | selfModule
  /-- `Self`, the enclosing struct, enum, trait or impl -/
  | selfType
  deriving DecidableEq, Repr

/-- The segment as written. -/
def SegmentKind.text : SegmentKind → String
  | .name text => text
  | .super => "super"
  | .selfModule => "self"
  | .selfType => "Self"

/-- A path segment with the place it is written at. -/
structure Segment where
  kind : SegmentKind
  span : Span
  deriving DecidableEq, Repr

namespace Segment

/-- The segment of a plain name. -/
def ofIdent (ident : Ident) : Segment := ⟨.name ident.name, ident.span⟩

/-- The name a segment is, unless it is one of the three words. -/
def ident? (segment : Segment) : Option Ident :=
  match segment.kind with
  | .name text => some ⟨text, segment.span⟩
  | _ => none

@[simp] theorem ident?_ofIdent (ident : Ident) : (ofIdent ident).ident? = some ident := rfl

end Segment

/-- Segments joined by `::`, with another `::` in front of an absolute path. -/
def pathText (global : Bool) (segments : List Segment) : String :=
  (if global then "::" else "") ++ "::".intercalate (segments.map (·.kind.text))

/-- A path in an expression, a type or a pattern. Its generic arguments stand beside it in
    the tree: they never change what the path itself means. -/
structure Path where
  id : NodeId
  /-- Written with `::` in front: it starts at the root module -/
  global : Bool
  segments : List Segment
  /-- Some segment is written with generic arguments, be their list empty -/
  generic : Bool
  deriving DecidableEq, Repr

namespace Path

/-- The path of a name that stands alone. -/
def ofIdent (id : NodeId) (ident : Ident) : Path := ⟨id, false, [.ofIdent ident], false⟩

/-- The path as written, generic arguments left out. -/
def text (path : Path) : String := pathText path.global path.segments

/-- One segment and no `::` in front. -/
def isSingle (path : Path) : Bool := !path.global && path.segments.length == 1

/-- The name of a path that is that name and nothing else, generic arguments included. -/
def loneIdent? (path : Path) : Option Ident :=
  match path.segments with
  | [segment] => if path.global || path.generic then none else segment.ident?
  | _ => none

end Path

/-- A path without generic arguments, as `use` declarations are made of. -/
structure UsePath where
  global : Bool
  segments : List Segment
  deriving DecidableEq, Repr

/-- The path as written. -/
def UsePath.text (path : UsePath) : String := pathText path.global path.segments

end NameResolution
