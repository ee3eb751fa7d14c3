import NameResolution.Definition.Basic

/-! # Diagnostics

    Mistakes in the program that is read. They are collected, never stopped at:
    a name that cannot be resolved is reported and resolution goes on. All but
    the access to a private item are errors. -/

namespace NameResolution

/-- A mistake, with all that is said about it. -/
inductive Diagnostic where
  /-- A name was declared twice in one scope and namespace, or a function repeats a suffix -/
  | redefinition (name : String) (span previousSpan : Span) (previousKind : DefKind)
  | unresolvedName (name : String) (ns : Namespace) (span : Span) (alternatives : List String)
      (help : Option String)
  /-- A call's labels match none of the functions of that name -/
  | suffixMismatch (name suffix : String) (span : Span) (available : List String)
      (help : Option String)
  /-- One of several functions was named without labels -/
  | ambiguousOverload (name : String) (span : Span) (available : List String)
      (help : Option String)
  | importCycle (name : String) (span : Span) (cycle : String)
  | unresolvedImport (path : String) (span : Span) (reason : String)
  | selfOutsideItem (keyword : String) (span : Span)
  /-- An item that is not `pub` was reached from outside its module -/
  | privateAccess (name module : String) (span : Span)
  deriving DecidableEq, Repr

/-- Names in backticks, separated by commas. -/
def listNames (names : List String) : String :=
  ", ".intercalate (names.map fun name => s!"`{name}`")

/-- The names a cycle leads through. -/
def cycleText (names : List String) : String :=
  "cycle: " ++ " -> ".intercalate (names.map fun name => s!"`{name}`")

namespace Diagnostic

/-- Where the mistake is. -/
def span : Diagnostic → Span
  | redefinition _ span _ _ | unresolvedName _ _ span _ _ | suffixMismatch _ _ span _ _
  | ambiguousOverload _ span _ _ | importCycle _ span _ | unresolvedImport _ span _
  | selfOutsideItem _ span | privateAccess _ _ span => span

/-- Whether the program is good in spite of it. -/
def isWarning : Diagnostic → Bool
  | privateAccess .. => true
  | _ => false

/-- Whether later stages should not run. -/
def isError (diagnostic : Diagnostic) : Bool := !diagnostic.isWarning

/-- The kind of the diagnostic, in one word. -/
def kind : Diagnostic → String
  | redefinition .. => "Redefinition"
  | unresolvedName .. => "UnresolvedName"
  | suffixMismatch .. => "OverloadSuffixMismatch"
  | ambiguousOverload .. => "AmbiguousOverload"
  | importCycle .. => "ImportCycle"
  | unresolvedImport .. => "UnresolvedImport"
  | selfOutsideItem .. => "SelfOutsideItem"
  | privateAccess .. => "PrivateItemAccess"

/-- The stable code of the kind. -/
def code : Diagnostic → String
  | redefinition .. => "quill_resolve::redefinition"
  | unresolvedName .. => "quill_resolve::unresolved_name"
  | suffixMismatch .. => "quill_resolve::overload_suffix_mismatch"
  | ambiguousOverload .. => "quill_resolve::ambiguous_overload"
  | importCycle .. => "quill_resolve::import_cycle"
  | unresolvedImport .. => "quill_resolve::unresolved_import"
  | selfOutsideItem .. => "quill_resolve::self_outside_item"
  | privateAccess .. => "quill_resolve::private_item_access"

/-- The message, in one line. -/
def message : Diagnostic → String
  | redefinition name _ _ previousKind =>
    s!"Cannot redefine `{name}`: it is already defined as {previousKind.description}"
  | unresolvedName name ns _ _ _ => s!"Cannot find {ns.text} `{name}` in this scope"
  | suffixMismatch name suffix _ _ _ => s!"No overload `{name}{suffix}` exists"
  | ambiguousOverload name _ _ _ =>
    s!"`{name}` has several overloads and cannot be used without argument labels"
  | importCycle name _ _ => s!"Import cycle detected while resolving `{name}`"
  | unresolvedImport path _ _ => s!"Unresolved import `{path}`"
  | selfOutsideItem keyword _ =>
    s!"`{keyword}` is only available inside struct, enum, trait and impl items"
  | privateAccess name module _ => s!"`{name}` is private to module `{module}`"

/-- Advice, or the details of the cause. -/
def help : Diagnostic → Option String
  | unresolvedName _ _ _ _ help | suffixMismatch _ _ _ _ help | ambiguousOverload _ _ _ help => help
  | importCycle _ _ cycle => some cycle
  | unresolvedImport _ _ reason => some reason
  | redefinition .. | selfOutsideItem .. | privateAccess .. => none

/-- The places to point at, each with what to say there. The first is that of the mistake. -/
def labels : Diagnostic → List (String × Span)
  | redefinition _ span previousSpan _ =>
    [("redefined here", span), ("previous definition here", previousSpan)]
  | unresolvedName _ _ span _ _ => [("not found", span)]
  | suffixMismatch _ _ span _ _ => [("called here", span)]
  | ambiguousOverload _ span _ _ => [("ambiguous reference", span)]
  | importCycle _ span _ => [("this import depends on itself", span)]
  | unresolvedImport _ span _ => [("no such item", span)]
  | selfOutsideItem _ span => [("used here", span)]
  | privateAccess _ _ span => [("accessed here", span)]

end Diagnostic

/-- Whether any of the diagnostics is an error. -/
def hasErrors (diagnostics : List Diagnostic) : Bool := diagnostics.any (·.isError)

end NameResolution
