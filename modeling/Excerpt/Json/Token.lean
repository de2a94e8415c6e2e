import Excerpt.Json.Number

/-!
# Tokens of JSON

* `Token` — a bracket, a separator, or a scalar;
* `Lexer` — the state of reading tokens character by character;
* `Lexer.step`, `Lexer.finish` — the tokens that a character, and the end of the text, complete.

Two scalars never stand side by side in a value, so a run of characters that are neither blank nor
bracket nor separator nor quote is one word.
-/

namespace Excerpt.Json

inductive Token where
  | openArr
  | closeArr
  /-- The character that opens an object. -/
  | openObj
  /-- The character that closes an object. -/
  | closeObj
  | comma
  | colon
  | null
  | bool (b : Bool)
  | num (n : Number)
  | str (s : String)
  deriving DecidableEq

/-! ### Strings -/

namespace Quoted

/-- The character of a one-letter escape. -/
def shortEscape? : Char → Option Char
  | '"' => some '"'
  | '\\' => some '\\'
  | '/' => some '/'
  | 'b' => some '\x08'
  | 'f' => some '\x0c'
  | 'n' => some '\n'
  | 'r' => some '\r'
  | 't' => some '\t'
  | _ => none

/-- The 16-bit unit of four hexadecimal digits. -/
def unit? (a b c d : Char) : Option Nat := Text.Numeral.ofDigits? 16 [a, b, c, d]

def isLeading (u : Nat) : Bool := 0xD800 ≤ u && u < 0xDC00

def isTrailing (u : Nat) : Bool := 0xDC00 ≤ u && u < 0xE000

def pair (u v : Nat) : Char := Char.ofNat (0x10000 + (u - 0xD800) * 0x400 + (v - 0xDC00))

/-- Put the characters that the inside of a string stands for onto `done`, in reverse. Escaped units
outside the plane of the first 65536 characters come in pairs, and no control character stands for
itself. -/
def decodeOnto? (done : List Char) : List Char → Option (List Char)
  | [] => some done
  | '\\' :: 'u' :: a :: b :: c :: d :: cs =>
    match unit? a b c d with
    | none => none
    | some u =>
      if isLeading u then
        match cs with
        | '\\' :: 'u' :: a :: b :: c :: d :: cs =>
          match unit? a b c d with
          | none => none
          | some v => if isTrailing v then decodeOnto? (pair u v :: done) cs else none
        | _ => none
      else if isTrailing u then none
      else decodeOnto? (Char.ofNat u :: done) cs
  | '\\' :: e :: cs =>
    match shortEscape? e with
    | none => none
    | some c => decodeOnto? (c :: done) cs
  | c :: cs => if c = '\\' ∨ c < ' ' then none else decodeOnto? (c :: done) cs

/-- The characters that the inside of a string stands for. -/
def decode? (cs : List Char) : Option (List Char) := (decodeOnto? [] cs).map List.reverse

end Quoted

/-! ### Words and marks -/

namespace Token

/-- The token of a character that is a token of its own. -/
def ofMark? : Char → Option Token
  | '[' => some .openArr
  | ']' => some .closeArr
  | '\x7b' => some .openObj
  | '\x7d' => some .closeObj
  | ',' => some .comma
  | ':' => some .colon
  | _ => none

def ofWord? (word : List Char) : Option Token :=
  if word = "null".toList then some .null
  else if word = "true".toList then some (.bool true)
  else if word = "false".toList then some (.bool false)
  else (Number.ofWord? word).map .num

end Token

/-- Whether a character may stand between tokens. -/
def isSpace (c : Char) : Bool := c = ' ' || c = '\n' || c = '\r' || c = '\t'

/-- The state of reading tokens; what has been read of a word or a string is kept in reverse. -/
inductive Lexer where
  | between
  /-- Inside a word. -/
  | word (read : List Char)
  /-- Inside a string. -/
  | text (read : List Char)
  /-- Inside a string, behind a backslash. -/
  | escape (read : List Char)
  deriving DecidableEq

namespace Lexer

/-- The first character of a token, or a blank. -/
def begin (c : Char) : List Token × Lexer :=
  if isSpace c then ([], .between)
  else if c = '"' then ([], .text [])
  else
    match Token.ofMark? c with
    | some t => ([t], .between)
    | none => ([], .word [c])

/-- Read one character: the tokens that it completes, and the next state. -/
def step (state : Lexer) (c : Char) : Option (List Token × Lexer) :=
  match state with
  | .between => some (begin c)
  | .word read =>
    if isSpace c || c = '"' || (Token.ofMark? c).isSome then
      (Token.ofWord? read.reverse).map fun t => (t :: (begin c).1, (begin c).2)
    else some ([], .word (c :: read))
  | .text read =>
    if c = '"' then (Quoted.decode? read.reverse).map fun s => ([.str (String.ofList s)], .between)
    else if c = '\\' then some ([], .escape (c :: read))
    else some ([], .text (c :: read))
  | .escape read => some ([], .text (c :: read))

def finish : Lexer → Option (List Token)
  | .between => some []
  | .word read => (Token.ofWord? read.reverse).map ([·])
  | .text _ | .escape _ => none

end Lexer

end Excerpt.Json
