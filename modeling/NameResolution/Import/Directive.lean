import NameResolution.Syntax.Tree
import NameResolution.Definition.Basic

/-! # Imports

    A `use` declaration is a tree. Each of its leaves imports one name, or every
    name of a module, and is an import of its own: its path is what stands on
    the way from the top of the tree down to the leaf. -/

namespace NameResolution

/-- How much an import brings in. -/
inductive ImportKind where
  /-- One name, bound under another one where it is given -/
  | single (rebind : Option Ident)
  /-- Every name of a module -/
  | glob
  deriving DecidableEq, Repr

/-- One imported name or glob. -/
structure Import where
  isPub : Bool
  node : NodeId
  span : Span
  path : UsePath
  kind : ImportKind
  deriving DecidableEq, Repr

/-- An import with the module it stands in. -/
structure Directive extends Import where
  module : ModuleId
  deriving DecidableEq, Repr

namespace UsePath

/-- The path of nothing. -/
def empty : UsePath := ⟨false, []⟩

/-- A path behind another one. Only what comes first can make the whole absolute. -/
def append (lead path : UsePath) : UsePath :=
  ⟨lead.global || (lead.segments.isEmpty && path.global), lead.segments ++ path.segments⟩

/-- The lead of a group or glob behind the leads around it. -/
def extend (lead : UsePath) (path : Option UsePath) : UsePath :=
  match path with
  | some path => lead.append path
  | none => lead

end UsePath

namespace UseTree

mutual

/-- The leaves of a tree from left to right, below the leads of the groups around it. -/
def importsBelow (isPub : Bool) (lead : UsePath) : UseTree → List Import
  | .path id span own rebind => [⟨isPub, id, span, lead.append own, .single rebind⟩]
  | .group inner trees => importsBelowAll isPub (lead.extend inner) trees
  | .glob id span inner => [⟨isPub, id, span, lead.extend inner, .glob⟩]

def importsBelowAll (isPub : Bool) (lead : UsePath) : List UseTree → List Import
  | [] => []
  | tree :: trees => importsBelow isPub lead tree ++ importsBelowAll isPub lead trees

end

/-- The imports of a `use` declaration. -/
def imports (isPub : Bool) (tree : UseTree) : List Import := tree.importsBelow isPub .empty

end UseTree

/-- What a single import binds and where it looks. -/
structure ImportTarget where
  /-- The name it binds -/
  name : Ident
  /-- The segments that lead to a module -/
  lead : List Segment
  /-- The name it looks for there -/
  last : Ident
  /-- Whether it is after the module of that name alone, as `use a::self` is -/
  typesOnly : Bool
  deriving DecidableEq, Repr

namespace Import

/-- Whether an import brings in every name of a module. -/
def isGlob (i : Import) : Bool := i.kind == .glob

/-- The path as written, with `*` for a glob. -/
def pathText (i : Import) : String :=
  match i.kind with
  | .single _ => i.path.text
  | .glob => i.path.text ++ (if i.path.segments.isEmpty then "*" else "::*")

/-- What a single import binds. A path that ends in `super` or `Self`, or in a `self` without a
    name in front, binds nothing. -/
def target? (i : Import) : Option ImportTarget :=
  match i.kind with
  | .glob => none
  | .single rebind =>
    match i.path.segments.reverse with
    | [] => none
    | last :: lead =>
      match last.kind, lead with
      | .name text, lead =>
        let ident : Ident := ⟨text, last.span⟩
        some ⟨rebind.getD ident, lead.reverse, ident, false⟩
      | .selfModule, owner :: lead =>
        owner.ident?.map fun ident => ⟨rebind.getD ident, lead.reverse, ident, true⟩
      | _, _ => none

/-- The name an import binds, or else its path. -/
def boundName (i : Import) : String :=
  match i.target? with
  | some target => target.name.name
  | none => i.pathText

end Import

end NameResolution
