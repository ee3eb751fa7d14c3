import NameResolution.Syntax.Tree

/-! # Argument labels

    Functions of one name are told apart by the labels of their parameters. The
    labels of a declaration or a call are written as one suffix, each followed
    by a colon and all of them in parentheses: `(x:_:)`. -/

namespace NameResolution

/-- The label of a parameter or argument that has none. -/
def noLabel : String := "_"

/-- The suffix of a list of labels. -/
def labelsSuffix (labels : List String) : String :=
  "(" ++ String.join (labels.map (· ++ ":")) ++ ")"

namespace Param

/-- The label callers use: the one written, else the bound name, else none. -/
def labelName : Param → String
  | .mk (some label) _ _ _ => label.name
  | .mk none pat _ _ => (pat.asIdent.map (·.name)).getD noLabel

/-- The suffix a parameter list declares. -/
def suffix (params : List Param) : String := labelsSuffix (params.map labelName)

end Param

namespace Arg

/-- The label an argument is passed under. -/
def labelName : Arg → String
  | .mk label _ => (label.map (·.name)).getD noLabel

/-- The suffix a call asks for. -/
def suffix (args : List Arg) : String := labelsSuffix (args.map labelName)

end Arg

end NameResolution
