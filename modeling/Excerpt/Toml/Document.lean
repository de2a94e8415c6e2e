import Excerpt.Toml.Scalar
import Excerpt.Toml.Table

/-!
# Documents of TOML

* `value?` — a value: a scalar, a string, an array or a table in braces;
* `Line` — a header, or a key with a value;
* `lines?` — the lines of a text;
* `Section` — a header with the keys below it;
* `document?` — the table of a text.
-/

namespace Excerpt.Toml

/-! ### Values -/

structure Assignment where
  way : List String
  key : String
  value : Value

/-- A key, a sign of equality and a value, with blanks around the value. -/
def assignment? (value? : Scan Value) : Scan Assignment := fun cs =>
  (key? cs).bind fun ((way, key), rest) =>
    match rest with
    | '=' :: rest =>
      (value? (skipBlanks rest)).map fun (value, rest) => (⟨way, key, value⟩, skipBlanks rest)
    | _ => none

/-- The entries of keys with values in a table. -/
def assignAll? (entries : Entries Item) (assignments : List Assignment) : Option (Entries Item) :=
  assignments.foldlM (fun entries a => Item.assign? a.value a.way a.key entries) entries

/-- The elements of an array up to its end. A comma may follow the last one. -/
def items? (value? : Scan Value) : (fuel : Nat) → Scan (List Value)
  | 0, _ => none
  | fuel + 1, cs =>
    match skipFiller false cs with
    | some (']' :: rest) => some ([], rest)
    | some cs =>
      (value? cs).bind fun (v, rest) =>
        match skipFiller false rest with
        | some (',' :: rest) => (items? value? fuel rest).map fun (vs, rest) => (v :: vs, rest)
        | some (']' :: rest) => some ([v], rest)
        | _ => none
    | none => none

/-- The keys and values of a table in braces, from the first one to the end. -/
def fields? (value? : Scan Value) : (fuel : Nat) → Scan (List Assignment)
  | 0, _ => none
  | fuel + 1, cs =>
    (assignment? value? cs).bind fun (a, rest) =>
      match rest with
      | ',' :: rest => (fields? value? fuel rest).map fun (as, rest) => (a :: as, rest)
      | '\x7d' :: rest => some ([a], rest)
      | _ => none

/-- A table in braces, behind the opening one. -/
def inlineTable? (value? : Scan Value) : Scan Value := fun cs =>
  let assignments? : Option (List Assignment × List Char) :=
    match skipBlanks cs with
    | '\x7d' :: rest => some ([], rest)
    | cs => fields? value? (cs.length + 1) cs
  assignments?.bind fun (assignments, rest) =>
    (assignAll? [] assignments).map fun entries => (.table (Item.toValueE entries), rest)

/-- A value with at most `depth` containers around any place of it. -/
def value? : (depth : Nat) → Scan Value
  | depth, cs =>
    match cs with
    | '"' :: _ | '\'' :: _ => (string? cs).map fun (s, rest) => (.str s, rest)
    | 't' :: 'r' :: 'u' :: 'e' :: rest => some (.bool true, rest)
    | 'f' :: 'a' :: 'l' :: 's' :: 'e' :: rest => some (.bool false, rest)
    | '[' :: rest =>
      match depth with
      | 0 => none
      | depth + 1 =>
        (items? (value? depth) (rest.length + 1) rest).map fun (vs, rest) => (.arr vs, rest)
    | '\x7b' :: rest =>
      match depth with
      | 0 => none
      | depth + 1 => inlineTable? (value? depth) rest
    | cs => scalar? cs

/-! ### Lines -/

/-- A line of a document that says something. -/
inductive Line where
  | assign (a : Assignment)
  | header (way : List String) (key : String)
  /-- The header of a further table of an array. -/
  | arrayHeader (way : List String) (key : String)

/-- The first line, and the rest behind its end. -/
def line? : Scan Line
  | '[' :: '[' :: cs =>
    (key? cs).bind fun ((way, key), rest) =>
      match rest with
      | ']' :: ']' :: rest => (lineEnd? rest).map fun rest => (.arrayHeader way key, rest)
      | _ => none
  | '[' :: cs =>
    (key? cs).bind fun ((way, key), rest) =>
      match rest with
      | ']' :: rest => (lineEnd? rest).map fun rest => (.header way key, rest)
      | _ => none
  | cs =>
    (assignment? (value? maxNesting) cs).bind fun (a, rest) =>
      (lineEnd? rest).map fun rest => (.assign a, rest)

/-- The lines of a text that say something; the others hold blanks and comments. -/
def linesWithin? : (fuel : Nat) → List Char → Option (List Line)
  | 0, _ => none
  | fuel + 1, cs =>
    match skipBlanks cs with
    | [] => some []
    | '#' :: cs => (lineEnd? ('#' :: cs)).bind (linesWithin? fuel)
    | '\n' :: cs => linesWithin? fuel cs
    | '\r' :: '\n' :: cs => linesWithin? fuel cs
    | cs =>
      (line? cs).bind fun (line, rest) => (linesWithin? fuel rest).map (line :: ·)

/-- The lines of a text. Each takes a character, so there are no more lines than characters. -/
def lines? (cs : List Char) : Option (List Line) := linesWithin? (cs.length + 1) cs

/-! ### Sections -/

structure Section where
  /-- Whether the header begins a further table of an array. -/
  ofArray : Bool
  way : List String
  key : String
  assignments : List Assignment

/-- The keys above the first header, and the sections. -/
def sections : List Line → List Assignment × List Section
  | [] => ([], [])
  | .assign a :: ls =>
    let (as, ss) := sections ls
    (a :: as, ss)
  | .header way key :: ls =>
    let (as, ss) := sections ls
    ([], ⟨false, way, key, as⟩ :: ss)
  | .arrayHeader way key :: ls =>
    let (as, ss) := sections ls
    ([], ⟨true, way, key, as⟩ :: ss)

/-- Put the table of a section into the table that holds it. -/
def Section.place? (s : Section) (entries : Entries Item) : Option (Entries Item) :=
  match s.ofArray, Entries.get? s.key entries with
  | false, none =>
    (assignAll? [] s.assignments).map fun sub => Entries.put s.key (.table .header sub) entries
  | false, some (.table .implied sub) =>
    (assignAll? sub s.assignments).map fun sub => Entries.put s.key (.table .header sub) entries
  | true, none =>
    (assignAll? [] s.assignments).map fun sub => Entries.put s.key (.tables sub []) entries
  | true, some (.tables last earlier) =>
    (assignAll? [] s.assignments).map fun sub =>
      Entries.put s.key (.tables sub (last :: earlier)) entries
  | _, _ => none

def Section.add? (entries : Entries Item) (s : Section) : Option (Entries Item) :=
  Item.open? s.place? s.way entries

def tableOf? (lines : List Line) : Option (List (String × Value)) :=
  let (assignments, rest) := sections lines
  (assignAll? [] assignments).bind fun entries =>
    (rest.foldlM Section.add? entries).map Item.toValueE

/-- The rest behind the mark that may begin a text. -/
def skipMark : List Char → List Char
  | '\uFEFF' :: cs => cs
  | cs => cs

def document? (text : String) : Option (List (String × Value)) :=
  (lines? (skipMark text.toList)).bind tableOf?

end Excerpt.Toml
