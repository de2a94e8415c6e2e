import Excerpt.Text.Numeral

/-!
# The smallest parts of TOML

* `Scan` — a reader of the beginning of a text, which returns the rest;
* `skipBlanks`, `skipFiller`, `lineEnd?` — what may stand between other parts;
* `string?` — strings, in double or single quotes, on one line or over several;
* `key?` — keys joined by dots.
-/

namespace Excerpt.Toml

/-- A reader of the beginning of a text: what it has read, and the rest. -/
abbrev Scan (α : Type) := List Char → Option (α × List Char)

/-! ### Blanks, comments and the ends of lines -/

/-- Whether a character may stand between the parts of a line. -/
def isBlank (c : Char) : Bool := c = ' ' || c = '\t'

def isCommentChar (c : Char) : Bool := c = '\t' || (' ' ≤ c && c ≤ '~') || 0x80 ≤ c.toNat

def skipBlanks (cs : List Char) : List Char := cs.dropWhile isBlank

def newline? : List Char → Option (List Char)
  | '\n' :: cs => some cs
  | '\r' :: '\n' :: cs => some cs
  | _ => none

def skipComment : List Char → List Char
  | '#' :: cs => cs.dropWhile isCommentChar
  | cs => cs

/-- The rest behind the end of a line, which may have blanks and a comment before it. -/
def lineEnd? (cs : List Char) : Option (List Char) :=
  match skipComment (skipBlanks cs) with
  | [] => some []
  | cs => newline? cs

/-- The rest behind blanks, line breaks and comments, each of which ends with its line. -/
def skipFiller (inComment : Bool) : List Char → Option (List Char)
  | [] => if inComment then none else some []
  | '\n' :: cs => skipFiller false cs
  | '\r' :: '\n' :: cs => skipFiller false cs
  | c :: cs =>
    if inComment then if isCommentChar c then skipFiller true cs else none
    else if isBlank c then skipFiller false cs
    else if c = '#' then skipFiller true cs
    else if c = '\r' then none
    else some (c :: cs)

/-! ### Strings -/

/-- Whether a character may stand in a string: no control character but the tab. -/
def isStringChar (c : Char) : Bool := isCommentChar c

/-- The character of a one-letter escape. -/
def shortEscape? : Char → Option Char
  | 'b' => some '\x08'
  | 't' => some '\t'
  | 'n' => some '\n'
  | 'f' => some '\x0c'
  | 'r' => some '\r'
  | '"' => some '"'
  | '\\' => some '\\'
  | _ => none

def charOfHex? (digits : List Char) : Option Char :=
  (Text.Numeral.ofDigits? 16 digits).bind fun n =>
    if n.isValidChar then some (Char.ofNat n) else none

/-- The inside of a string in double quotes, put onto `done` in reverse, up to its end. -/
def basicBody? (done : List Char) : Scan (List Char)
  | [] => none
  | '"' :: cs => some (done, cs)
  | '\\' :: 'u' :: a :: b :: c :: d :: cs =>
    match charOfHex? [a, b, c, d] with
    | some x => basicBody? (x :: done) cs
    | none => none
  | '\\' :: 'U' :: a :: b :: c :: d :: e :: f :: g :: h :: cs =>
    match charOfHex? [a, b, c, d, e, f, g, h] with
    | some x => basicBody? (x :: done) cs
    | none => none
  | '\\' :: e :: cs =>
    match shortEscape? e with
    | some x => basicBody? (x :: done) cs
    | none => none
  | c :: cs => if isStringChar c && c ≠ '\\' then basicBody? (c :: done) cs else none

/-- Where a reader of a string over several lines stands. -/
inductive LineState where
  /-- Inside the string; blanks and line breaks are skipped if `swallows`. -/
  | inside (swallows : Bool)
  /-- Behind a backslash. -/
  | escaped
  /-- Behind a backslash and blanks, where a line break must come. -/
  | trailing
  deriving DecidableEq, Repr

/-- The inside of a string in three double quotes, put onto `done` in reverse, up to its end. Up to
two quotes before the end belong to the string, and a backslash at the end of a line takes away
all blanks and line breaks behind it. -/
def basicLines? (state : LineState) (done : List Char) (cs : List Char) :
    Option (List Char × List Char) :=
  match state, cs with
  | _, [] => none
  | .inside _, '"' :: '"' :: '"' :: '"' :: '"' :: cs => some ('"' :: '"' :: done, cs)
  | .inside _, '"' :: '"' :: '"' :: '"' :: cs => some ('"' :: done, cs)
  | .inside _, '"' :: '"' :: '"' :: cs => some (done, cs)
  | .inside _, '\\' :: cs => basicLines? .escaped done cs
  | .inside swallows, '\r' :: '\n' :: cs =>
    basicLines? (.inside swallows) (if swallows then done else '\n' :: done) cs
  | .inside swallows, c :: cs =>
    if c = '\n' || isBlank c then
      basicLines? (.inside swallows) (if swallows then done else c :: done) cs
    else if isStringChar c then basicLines? (.inside false) (c :: done) cs
    else none
  | .escaped, 'u' :: a :: b :: c :: d :: cs =>
    match charOfHex? [a, b, c, d] with
    | some x => basicLines? (.inside false) (x :: done) cs
    | none => none
  | .escaped, 'U' :: a :: b :: c :: d :: e :: f :: g :: h :: cs =>
    match charOfHex? [a, b, c, d, e, f, g, h] with
    | some x => basicLines? (.inside false) (x :: done) cs
    | none => none
  | .escaped, '\r' :: '\n' :: cs => basicLines? (.inside true) done cs
  | .escaped, c :: cs =>
    if c = '\n' then basicLines? (.inside true) done cs
    else if isBlank c then basicLines? .trailing done cs
    else
      match shortEscape? c with
      | some x => basicLines? (.inside false) (x :: done) cs
      | none => none
  | .trailing, '\r' :: '\n' :: cs => basicLines? (.inside true) done cs
  | .trailing, c :: cs =>
    if c = '\n' then basicLines? (.inside true) done cs
    else if isBlank c then basicLines? .trailing done cs
    else none

def literalBody? (cs : List Char) : Option (List Char × List Char) :=
  let body := cs.takeWhile fun c => isStringChar c && c ≠ '\''
  match cs.drop body.length with
  | '\'' :: rest => some (body, rest)
  | _ => none

/-- The inside of a string in three single quotes, put onto `done` in reverse, up to its end. -/
def literalLines? (done : List Char) : Scan (List Char)
  | [] => none
  | '\'' :: '\'' :: '\'' :: '\'' :: '\'' :: cs => some ('\'' :: '\'' :: done, cs)
  | '\'' :: '\'' :: '\'' :: '\'' :: cs => some ('\'' :: done, cs)
  | '\'' :: '\'' :: '\'' :: cs => some (done, cs)
  | '\r' :: '\n' :: cs => literalLines? ('\n' :: done) cs
  | c :: cs => if c = '\n' || isStringChar c then literalLines? (c :: done) cs else none

/-- The rest behind the line break with which a string over several lines may begin. -/
def skipFirstBreak (cs : List Char) : List Char := (newline? cs).getD cs

def ofReversed (r : List Char × List Char) : String × List Char := (String.ofList r.1.reverse, r.2)

def lineString? : Scan String
  | '"' :: cs => (basicBody? [] cs).map ofReversed
  | '\'' :: cs => (literalBody? cs).map fun r => (String.ofList r.1, r.2)
  | _ => none

def string? : Scan String
  | '"' :: '"' :: '"' :: cs => (basicLines? (.inside false) [] (skipFirstBreak cs)).map ofReversed
  | '\'' :: '\'' :: '\'' :: cs => (literalLines? [] (skipFirstBreak cs)).map ofReversed
  | cs => lineString? cs

/-! ### Keys -/

/-- Whether a character may stand in a key without quotes. -/
def isBareKeyChar (c : Char) : Bool := c.isAlphanum || c = '_' || c = '-'

def keyPart? (cs : List Char) : Option (String × List Char) :=
  let bare := cs.takeWhile isBareKeyChar
  if bare.isEmpty then lineString? cs
  else some (String.ofList bare, cs.drop bare.length)

/-- At most `limit` parts of a key, joined by dots, with blanks around them. -/
def keyWithin? : (limit : Nat) → Scan (List String)
  | 0, _ => none
  | limit + 1, cs =>
    (keyPart? (skipBlanks cs)).bind fun (part, rest) =>
      match skipBlanks rest with
      | '.' :: rest => (keyWithin? limit rest).map fun (parts, rest) => (part :: parts, rest)
      | rest => some ([part], rest)

/-- The greatest number of parts of a key, and of containers around a value. -/
def maxNesting : Nat := 79

/-- A key: the tables on the way, and the last part. -/
def key? (cs : List Char) : Option ((List String × String) × List Char) :=
  (keyWithin? maxNesting cs).bind fun (parts, rest) =>
    parts.getLast?.map fun last => ((parts.dropLast, last), rest)

end Excerpt.Toml
