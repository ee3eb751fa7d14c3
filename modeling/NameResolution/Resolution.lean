import NameResolution.Definition.Basic

/-! # Resolutions

    What a path, a lifetime, a `self` value, a shorthand field or a pattern name
    refers to. -/

namespace NameResolution

/-- What a node refers to. -/
inductive Resolution where
  | definition (id : DefId)
  /-- A local variable, known by the pattern node that binds it -/
  | localVar (node : NodeId)
  /-- The path names the type `base`; its last `unresolved` segments are left to type checking -/
  | typeRelative (base : DefId) (unresolved : Nat)
  /-- Nothing: an error was reported for the node -/
  | error
  deriving DecidableEq, Repr

namespace Resolution

/-- Whether the node refers to nothing. -/
def isError : Resolution → Bool
  | error => true
  | _ => false

/-- The definition, where the whole path names one. -/
def definition? : Resolution → Option DefId
  | definition id => some id
  | _ => none

/-- The long form, for places that show whole values. -/
def longText : Resolution → String
  | definition id => s!"Def({id.longText})"
  | localVar node => s!"Local({node.longText})"
  | typeRelative base unresolved =>
    s!"TypeRelative \x7b base: {base.longText}, unresolved: {unresolved} \x7d"
  | error => "Error"

end Resolution

end NameResolution
