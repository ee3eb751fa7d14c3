import NameResolution.Diagnostic
import NameResolution.Module.Tree

/-! # Names that are taken -/

namespace NameResolution

/-- The diagnostic for a name that already refers to `first`. A set of functions is shown by its
    first member. -/
def redefinition (defs : Definitions) (name : String) (span : Span) (first : Binding) :
    Except Fault Diagnostic := do
  match first with
  | .definition id | .imported id =>
    let definition ← defs.get id
    return .redefinition name span definition.ident.span definition.kind
  | .overloads id => return .redefinition name span (← defs.overloadSpan id) .func

end NameResolution
