import Excerpt.Json.Value

/-!
# Writing JSON

* `Quoted.encode` — a string between quotes, with its escapes;
* `Value.compact` — a value without blanks;
* `Value.pretty` — a value with one entry or element a line, indented by two blanks a level;
* `Style` — which of the two.
-/

namespace Excerpt.Json

namespace Quoted

/-- The lower-case hexadecimal digit of a number below sixteen. -/
def hexDigit (n : Nat) : Char :=
  if n < 10 then Char.ofNat ('0'.toNat + n) else Char.ofNat ('a'.toNat + (n - 10))

/-- What a character is written as: quotes, backslashes and control characters are escaped. -/
def escape (c : Char) : List Char :=
  match c with
  | '"' => ['\\', '"']
  | '\\' => ['\\', '\\']
  | '\x08' => ['\\', 'b']
  | '\x0c' => ['\\', 'f']
  | '\n' => ['\\', 'n']
  | '\r' => ['\\', 'r']
  | '\t' => ['\\', 't']
  | c =>
    if c < ' ' then ['\\', 'u', '0', '0', hexDigit (c.toNat / 16), hexDigit (c.toNat % 16)]
    else [c]

def encode (s : String) : String := "\"" ++ String.ofList (s.toList.flatMap escape) ++ "\""

end Quoted

namespace Value

mutual

/-- A value without blanks. -/
def compact : Value → String
  | .null => "null"
  | .bool b => if b then "true" else "false"
  | .num n => n.render
  | .str s => Quoted.encode s
  | .arr items => "[" ++ ",".intercalate (compactL items) ++ "]"
  | .obj entries => "\x7b" ++ ",".intercalate (compactE entries) ++ "\x7d"

def compactL : List Value → List String
  | [] => []
  | v :: vs => compact v :: compactL vs

def compactE : List (String × Value) → List String
  | [] => []
  | (k, v) :: es => (Quoted.encode k ++ ":" ++ compact v) :: compactE es

end

/-- The start of a line at a level of nesting. -/
def indent (level : Nat) : String := String.ofList (List.replicate (2 * level) ' ')

/-- The text of a container: its parts, one a line, between brackets. -/
def block (opening closing : String) (level : Nat) (parts : List String) : String :=
  match parts with
  | [] => opening ++ closing
  | parts =>
    opening ++ "\n" ++ ",\n".intercalate parts ++ "\n" ++ indent level ++ closing

mutual

/-- A value at a level of nesting, one part of a container a line. -/
def prettyAt (level : Nat) : Value → String
  | .null => "null"
  | .bool b => if b then "true" else "false"
  | .num n => n.render
  | .str s => Quoted.encode s
  | .arr items => block "[" "]" level (prettyL (level + 1) items)
  | .obj entries => block "\x7b" "\x7d" level (prettyE (level + 1) entries)

def prettyL (level : Nat) : List Value → List String
  | [] => []
  | v :: vs => (indent level ++ prettyAt level v) :: prettyL level vs

def prettyE (level : Nat) : List (String × Value) → List String
  | [] => []
  | (k, v) :: es =>
    (indent level ++ Quoted.encode k ++ ": " ++ prettyAt level v) :: prettyE level es

end

/-- A value with one part of a container a line. -/
def pretty (v : Value) : String := prettyAt 0 v

end Value

inductive Style where
  | compact
  | pretty
  deriving DecidableEq, Repr

def Value.render (v : Value) : Style → String
  | .compact => v.compact
  | .pretty => v.pretty

end Excerpt.Json
