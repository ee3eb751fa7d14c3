/-! # The configuration of a session

    The options that the passes share. They change what is logged and what a
    diagnostic suggests or warns of, never what a name means. -/

namespace NameResolution

/-- The options with their defaults. -/
structure Config where
  /-- Log the module tree once it is built -/
  printModuleTree : Bool := false
  /-- Log the scopes at each path that is resolved -/
  traceScopes : Bool := false
  /-- Say where else an unresolved name is found -/
  suggestAlternatives : Bool := true
  /-- How many suggestions a diagnostic holds at most -/
  maxSuggestions : Nat := 5
  /-- Warn when a path reaches an item that is not `pub` from outside its module -/
  lintPrivateAccess : Bool := true
  deriving DecidableEq, Repr

/-- Why a configuration is refused. -/
inductive ConfigError where
  /-- Not in the format of a configuration, or a key or the type of a value is wrong -/
  | malformed
  /-- Suggestions are asked for, but none is allowed -/
  | noSuggestionsAllowed
  deriving DecidableEq, Repr

namespace ConfigError

/-- The stable code of the error. -/
def code : ConfigError → String
  | malformed => "CONFIG-001"
  | noSuggestionsAllowed => "CONFIG-002"

/-- Whether later stages should not run: never without a configuration. -/
def isError (_ : ConfigError) : Bool := true

/-- Advice. -/
def help : ConfigError → Option String
  | malformed => some "Check the configuration syntax and the spelling of every key"
  | noSuggestionsAllowed => none

/-- The key whose value is out of range. -/
def key? : ConfigError → Option String
  | malformed => none
  | noSuggestionsAllowed => some "max-suggestions"

/-- What is wrong with the value of that key. -/
def reason? : ConfigError → Option String
  | malformed => none
  | noSuggestionsAllowed =>
    some "must be at least 1 while `suggest-alternatives` is enabled"

/-- The message about a value out of range. A malformed text is described by its code and
    help alone. -/
def message? (error : ConfigError) : Option String := do
  let key ← error.key?
  let reason ← error.reason?
  return s!"Invalid value for `{key}`: {reason}"

end ConfigError

namespace Config

/-- The whole configuration, in the form the log shows it in. -/
def longText (config : Config) : String :=
  "SessionConfig \x7b " ++ ", ".intercalate [
    s!"print_module_tree: {config.printModuleTree}",
    s!"trace_ribs: {config.traceScopes}",
    s!"suggest_alternatives: {config.suggestAlternatives}",
    s!"max_suggestions: {config.maxSuggestions}",
    s!"lint_private_access: {config.lintPrivateAccess}"] ++ " \x7d"

/-- A configuration whose values go together. -/
def validate (config : Config) : Except ConfigError Config :=
  if config.maxSuggestions = 0 ∧ config.suggestAlternatives then .error .noSuggestionsAllowed
  else .ok config

end Config

end NameResolution
