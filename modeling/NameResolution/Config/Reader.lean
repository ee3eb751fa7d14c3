import NameResolution.Config.Basic

/-! # Reading a configuration

    A configuration is a text of lines `key = value`, with blank lines and
    comments between them. It is a small part of a larger format for settings:
    a key may be quoted, a number may be written in four bases and with
    underscores between digits. What belongs to the format but to no key here,
    such as tables, strings and dates, is refused as a whole. -/

namespace NameResolution

/-- The keys of a configuration. -/
inductive ConfigKey where
  | printModuleTree
  | traceScopes
  | suggestAlternatives
  | maxSuggestions
  | lintPrivateAccess
  deriving DecidableEq, Repr

namespace ConfigKey

/-- All keys. -/
def all : List ConfigKey :=
  [printModuleTree, traceScopes, suggestAlternatives, maxSuggestions, lintPrivateAccess]

/-- The key as written. -/
def text : ConfigKey → String
  | printModuleTree => "print-module-tree"
  | traceScopes => "trace-ribs"
  | suggestAlternatives => "suggest-alternatives"
  | maxSuggestions => "max-suggestions"
  | lintPrivateAccess => "lint-private-access"

/-- The key a word of `text` stands for. -/
def ofText? (word : String) : Option ConfigKey := all.find? (·.text == word)

@[simp] theorem ofText?_text (key : ConfigKey) : ofText? key.text = some key := by
  cases key <;> decide

end ConfigKey

/-- The values that some key takes. -/
inductive ConfigValue where
  | bool (value : Bool)
  | int (value : Int)
  deriving DecidableEq, Repr

namespace ConfigReader

/-! ## Characters -/

/-- Blanks may stand between any two parts of a line. -/
def isBlank (c : Char) : Bool := c == ' ' || c == '\t'

/-- Characters that may stand in a comment or a quoted key: no control characters but the tab. -/
def isPrintable (c : Char) : Bool := c == '\t' || (' ' ≤ c && c ≤ '~') || '\x80' ≤ c

/-- Characters of a key without quotes. -/
def isBareKeyChar (c : Char) : Bool := c.isAlphanum || c == '_' || c == '-'

/-- The value of a digit in a base of at most sixteen. Letters may be of either case. -/
def digit? (base : Nat) (c : Char) : Option Nat :=
  let value :=
    if '0' ≤ c && c ≤ '9' then c.toNat - '0'.toNat
    else if 'a' ≤ c && c ≤ 'f' then c.toNat - 'a'.toNat + 10
    else if 'A' ≤ c && c ≤ 'F' then c.toNat - 'A'.toNat + 10
    else base
  if value < base then some value else none

/-- Drops blanks in front. -/
def skipBlanks (cs : List Char) : List Char := cs.dropWhile isBlank

/-- Whether a line is at its end, a comment aside. -/
def isLineEnd (cs : List Char) : Bool :=
  match skipBlanks cs with
  | [] => true
  | '#' :: comment => comment.all isPrintable
  | _ => false

/-! ## Keys -/

/-- The character with the code given by hexadecimal digits. Surrogates have none. -/
def ofCode? (digits : List Char) : Option Char := do
  let code ← digits.foldlM (fun code c => (digit? 16 c).map (code * 16 + ·)) 0
  if code.isValidChar then some (Char.ofNat code) else none

/-- The character that a letter stands for behind a backslash. -/
def escaped? (c : Char) : Option Char :=
  match c with
  | 'b' => some '\x08'
  | 't' => some '\t'
  | 'n' => some '\n'
  | 'f' => some '\x0c'
  | 'r' => some '\r'
  | '"' => some '"'
  | '\\' => some '\\'
  | _ => none

/-- Reads up to the closing quote of a key in double quotes: what it says, and the rest. -/
def readQuoted : List Char → Option (List Char × List Char)
  | [] => none
  | '"' :: rest => some ([], rest)
  | '\\' :: 'u' :: a :: b :: c :: d :: rest => do
    let c ← ofCode? [a, b, c, d]
    let (key, rest) ← readQuoted rest
    return (c :: key, rest)
  | '\\' :: 'U' :: a :: b :: c :: d :: e :: f :: g :: h :: rest => do
    let c ← ofCode? [a, b, c, d, e, f, g, h]
    let (key, rest) ← readQuoted rest
    return (c :: key, rest)
  | '\\' :: c :: rest => do
    let c ← escaped? c
    let (key, rest) ← readQuoted rest
    return (c :: key, rest)
  | c :: rest => do
    guard (isPrintable c && c != '\\')
    let (key, rest) ← readQuoted rest
    return (c :: key, rest)

/-- Reads a key in double quotes, in single quotes, or bare. -/
def readKey (cs : List Char) : Option (String × List Char) :=
  match cs with
  | '"' :: rest => (readQuoted rest).map fun (key, rest) => (String.ofList key, rest)
  | '\x27' :: rest =>
    match rest.dropWhile (· != '\x27') with
    | _ :: after =>
      let key := rest.takeWhile (· != '\x27')
      if key.all isPrintable then some (String.ofList key, after) else none
    | [] => none
  | _ =>
    let key := cs.takeWhile isBareKeyChar
    if key.isEmpty then none else some (String.ofList key, cs.dropWhile isBareKeyChar)

/-! ## Values -/

/-- Reads digits up to the end. Underscores may only stand between two digits. -/
def readDigits (base : Nat) (afterDigit : Bool) (value : Nat) : List Char → Option Nat
  | [] => if afterDigit then some value else none
  | '_' :: cs => if afterDigit then readDigits base false value cs else none
  | c :: cs => do readDigits base true (value * base + (← digit? base c)) cs

/-- Reads a decimal number without leading zeros. -/
def readDecimal (cs : List Char) : Option Nat :=
  match cs with
  | '0' :: _ :: _ => none
  | _ => readDigits 10 false 0 cs

/-- Integers of 64 bits lie below this and not below its negation. -/
def integerLimit : Int := 9223372036854775808

/-- Reads an integer of 64 bits. Only decimal numbers have a sign. -/
def readInteger (cs : List Char) : Option Int := do
  let value : Int ← match cs with
    | '0' :: 'x' :: digits => (readDigits 16 false 0 digits).map Int.ofNat
    | '0' :: 'o' :: digits => (readDigits 8 false 0 digits).map Int.ofNat
    | '0' :: 'b' :: digits => (readDigits 2 false 0 digits).map Int.ofNat
    | '-' :: digits => (readDecimal digits).map fun n => -(n : Int)
    | '+' :: digits => (readDecimal digits).map Int.ofNat
    | digits => (readDecimal digits).map Int.ofNat
  if -integerLimit ≤ value ∧ value < integerLimit then some value else none

/-- Reads a value that stands alone. -/
def readValue (cs : List Char) : Option ConfigValue :=
  if cs = ['t', 'r', 'u', 'e'] then some (.bool true)
  else if cs = ['f', 'a', 'l', 's', 'e'] then some (.bool false)
  else (readInteger cs).map .int

/-! ## Lines -/

/-- Reads a line: a key and its value, or nothing on a line that is blank but for a comment. -/
def readLine (cs : List Char) : Option (Option (ConfigKey × ConfigValue)) :=
  if isLineEnd cs then some none
  else do
    let (word, rest) ← readKey (skipBlanks cs)
    let key ← ConfigKey.ofText? word
    match skipBlanks rest with
    | '=' :: rest =>
      let rest := skipBlanks rest
      let inValue := fun c => !isBlank c && c != '#'
      let value ← readValue (rest.takeWhile inValue)
      guard (isLineEnd (rest.dropWhile inValue))
      return some (key, value)
    | _ => none

/-- The lines of a text without their ends. A carriage return belongs to the line feed behind
    it. -/
def splitLines : List Char → List (List Char)
  | [] => [[]]
  | '\n' :: cs => [] :: splitLines cs
  | '\r' :: '\n' :: cs => [] :: splitLines cs
  | c :: cs =>
    match splitLines cs with
    | [] => [[c]]
    | line :: lines => (c :: line) :: lines

/-- The text behind a byte order mark. -/
def skipMark (cs : List Char) : List Char :=
  match cs with
  | '\uFEFF' :: cs => cs
  | cs => cs

/-- The settings of a text in order, none of them twice. -/
def readSettings (text : String) : Option (List (ConfigKey × ConfigValue)) := do
  let lines ← (splitLines (skipMark text.toList)).mapM readLine
  let settings := lines.filterMap id
  guard (settings.map (·.1)).Nodup
  return settings

end ConfigReader

namespace Config

/-- Sets what a key stands for, where the value is of its type. -/
def set? (config : Config) : ConfigKey × ConfigValue → Option Config
  | (.printModuleTree, .bool value) => some { config with printModuleTree := value }
  | (.traceScopes, .bool value) => some { config with traceScopes := value }
  | (.suggestAlternatives, .bool value) => some { config with suggestAlternatives := value }
  | (.maxSuggestions, .int (.ofNat value)) => some { config with maxSuggestions := value }
  | (.lintPrivateAccess, .bool value) => some { config with lintPrivateAccess := value }
  | _ => none

/-- Reads a configuration. Keys that are left out have their defaults. -/
def parse (text : String) : Except ConfigError Config :=
  match (ConfigReader.readSettings text).bind (·.foldlM set? {}) with
  | some config => config.validate
  | none => .error .malformed

end Config

end NameResolution
