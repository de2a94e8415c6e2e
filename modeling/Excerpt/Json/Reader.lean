import Excerpt.Json.Token
import Excerpt.Json.Value

/-!
# Reading JSON

* `Frame`, `Expecting`, `Builder` — the state of building a value from tokens: the containers that
  are open, and what may come next;
* `Builder.step` — one token, refused if it may not come next or opens a container too many;
* `Reader` — a lexer that feeds a builder;
* `Value.ofText?` — the value of a text, with entries in the order of the text;
* `Document.ofText?` — the document of a text.
-/

namespace Excerpt.Json

/-- An open container, with what it holds in reverse. -/
inductive Frame where
  | arr (done : List Value)
  | obj (done : List (String × Value))
  /-- An object, inside the entry of a key. -/
  | field (done : List (String × Value)) (key : String)

/-- What may come next. -/
inductive Expecting where
  | value
  /-- The first element of an array, or its end. -/
  | firstItem
  /-- The first key of an object, or its end. -/
  | firstKey
  | key
  | colon
  /-- A comma, or the end of a container. -/
  | separator
  /-- Nothing more: the value is complete. -/
  | done (v : Value)

structure Builder where
  /-- The open containers, innermost first. -/
  frames : List Frame
  expecting : Expecting

namespace Builder

/-- Nothing has been read. -/
def start : Builder := ⟨[], .value⟩

/-- Put a complete value into the innermost open container. -/
def deliver (v : Value) : List Frame → Option Builder
  | [] => some ⟨[], .done v⟩
  | .arr items :: fs => some ⟨.arr (v :: items) :: fs, .separator⟩
  | .field entries key :: fs => some ⟨.obj ((key, v) :: entries) :: fs, .separator⟩
  | .obj _ :: _ => none

def openContainer (limit : Nat) (frame : Frame) (expecting : Expecting) (frames : List Frame) :
    Option Builder :=
  if frames.length < limit then some ⟨frame :: frames, expecting⟩ else none

def beginValue (limit : Nat) (frames : List Frame) : Token → Option Builder
  | .null => deliver .null frames
  | .bool b => deliver (.bool b) frames
  | .num n => deliver (.num n) frames
  | .str s => deliver (.str s) frames
  | .openArr => openContainer limit (.arr []) .firstItem frames
  | .openObj => openContainer limit (.obj []) .firstKey frames
  | _ => none

def afterKey (key : String) : List Frame → Option Builder
  | .obj entries :: fs => some ⟨.field entries key :: fs, .colon⟩
  | _ => none

def closeArr : List Frame → Option Builder
  | .arr items :: fs => deliver (.arr items.reverse) fs
  | _ => none

def closeObj : List Frame → Option Builder
  | .obj entries :: fs => deliver (.obj entries.reverse) fs
  | _ => none

def afterComma : List Frame → Option Builder
  | .arr items :: fs => some ⟨.arr items :: fs, .value⟩
  | .obj entries :: fs => some ⟨.obj entries :: fs, .key⟩
  | _ => none

def step (limit : Nat) (b : Builder) (t : Token) : Option Builder :=
  match b.expecting, t with
  | .value, t => beginValue limit b.frames t
  | .firstItem, .closeArr => closeArr b.frames
  | .firstItem, t => beginValue limit b.frames t
  | .firstKey, .closeObj => closeObj b.frames
  | .firstKey, .str key | .key, .str key => afterKey key b.frames
  | .colon, .colon => some ⟨b.frames, .value⟩
  | .separator, .comma => afterComma b.frames
  | .separator, .closeArr => closeArr b.frames
  | .separator, .closeObj => closeObj b.frames
  | _, _ => none

/-- The value, if it is complete. -/
def result? (b : Builder) : Option Value :=
  match b.expecting with
  | .done v => some v
  | _ => none

end Builder

structure Reader where
  lexer : Lexer
  builder : Builder

namespace Reader

/-- Nothing has been read. -/
def start : Reader := ⟨.between, .start⟩

/-- Read one character, with at most `limit` containers open. -/
def step (limit : Nat) (r : Reader) (c : Char) : Option Reader :=
  (r.lexer.step c).bind fun (tokens, lexer) =>
    (tokens.foldlM (Builder.step limit) r.builder).map (⟨lexer, ·⟩)

/-- The value that is complete at the end of the text. -/
def finish (limit : Nat) (r : Reader) : Option Value :=
  r.lexer.finish.bind fun tokens =>
    (tokens.foldlM (Builder.step limit) r.builder).bind Builder.result?

end Reader

namespace Value

/-- The greatest nesting of containers that is read. -/
def maxNesting : Nat := 127

/-- The value of a text, with at most `limit` containers around any place, and entries in the order
of the text. -/
def ofTextWithin? (limit : Nat) (text : String) : Option Value :=
  (text.toList.foldlM (Reader.step limit) .start).bind (Reader.finish limit)

/-- The value of a text, entries in the order of the text. -/
def ofText? (text : String) : Option Value := ofTextWithin? maxNesting text

end Value

def Document.ofText? (text : String) : Option Document := (Value.ofText? text).map .ofValue

end Excerpt.Json
