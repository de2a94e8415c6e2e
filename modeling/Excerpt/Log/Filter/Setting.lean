import Excerpt.Log.Filter
import Excerpt.Log.Filter.Pattern
import Excerpt.Text.Blank

/-!
# Filters as they are written

A setting is a list of directives joined by commas, each a level, a target, or a target with a level
behind `=`; behind a target, brackets may hold the name of a span and a field in braces.

* `Threshold.ofWord?` — a level as it is written;
* `Draft`, `Draft.step` — reading a directive character by character;
* `Directive.ofText` — a directive, or why there is none;
* `Filter.ofText`, `Filter.ofSetting` — the filter of a text, and of a setting that may be absent.

The places at which a directive is cut into parts are counted behind its leading blanks, and the
parts are cut out of the directive with these blanks. So blanks at the start shift every part; a
part that would begin or end inside a character tears the setting.
-/

namespace Excerpt.Log

inductive Unfit where
  /-- It does not have the form of a filter. -/
  | malformed
  /-- A part would begin or end inside a character. -/
  | torn
  deriving DecidableEq, Repr

namespace Threshold

/-- Whether two words are equal up to the case of ASCII letters. -/
def sameWord (a b : String) : Bool := a.toList.map Char.toLower = b.toList.map Char.toLower

/-- A threshold as it is written: the name of a level in any case, `off`, or a number from zero. -/
def ofWord? (word : String) : Option Threshold :=
  if sameWord word "off" then some none
  else
    match Level.all.find? fun l => sameWord word l.name with
    | some l => some (some l)
    | none =>
      match Text.Numeral.ofUnsigned? word with
      | some 0 => some none
      | some n => (Level.ofRank? n).map some
      | none => none

end Threshold

/-! ### Fields -/

/-- Whether the characters behind a plus sign are a number: a word for infinity or no number, or
digits with or without a point and an exponent. -/
def isPlainNumber (cs : List Char) : Bool :=
  let isExponent : List Char → Bool
    | [] => true
    | c :: cs =>
      let digits := match cs with
        | '+' :: ds | '-' :: ds => ds
        | ds => ds
      (c = 'e' || c = 'E') && !digits.isEmpty && digits.all Text.Numeral.isDigit
  let whole := cs.takeWhile Text.Numeral.isDigit
  let rest := cs.drop whole.length
  let (fraction, rest) := match rest with
    | '.' :: ds => (ds.takeWhile Text.Numeral.isDigit, ds.dropWhile Text.Numeral.isDigit)
    | rest => ([], rest)
  ["inf", "infinity", "nan"].contains (String.ofList (cs.map Char.toLower)) ||
    (!(whole ++ fraction).isEmpty && isExponent rest)

/-- Whether characters may be the value of a field: a number, or a pattern. -/
def isFieldValue (cs : List Char) : Bool :=
  Pattern.isWellFormed cs ||
    match cs with
    | '+' :: cs => isPlainNumber cs
    | _ => false

structure FieldTest where
  name : String
  hasValue : Bool
  deriving DecidableEq, Repr

/-- A field as it is written: its name, and perhaps a sign of equality and a value. -/
def FieldTest.ofText? (text : String) : Option FieldTest :=
  if text.isEmpty then none
  else
    match text.splitOn "=" with
    | name :: value :: _ => if isFieldValue value.toList then some ⟨name, true⟩ else none
    | _ => some ⟨text, false⟩

/-! ### Directives -/

/-- Which part of a directive is being read, and the place of its first character. -/
inductive Part where
  /-- Nothing has been read. -/
  | start
  | word (first : Nat)
  | span (first : Nat)
  | field (first : Nat)
  /-- The end of the fields has been read. -/
  | behindField
  /-- The end of the brackets has been read. -/
  | behindBracket
  | level (first : Nat)
  deriving DecidableEq, Repr

structure Draft where
  part : Part := .start
  target : Option String := none
  namesSpan : Bool := false
  field : Option FieldTest := none
  deriving DecidableEq, Repr

namespace Draft

def cut (raw : List Char) (first last : Nat) : Except Unfit String :=
  match Text.slice? raw first last with
  | some cs => .ok (String.ofList cs)
  | none => .error .torn

def mayBegin (c : Char) : Bool := Text.isAlphanumeric c || c = '-' || c = ':' || c = '_'

/-- Read the character `c` at place `i` of the directive `raw`. -/
def step (raw : List Char) (d : Draft) (i : Nat) (c : Char) : Except Unfit Draft :=
  match d.part, c with
  | .start, '[' => .ok { d with part := .span (i + 1) }
  | .start, c => if mayBegin c then .ok { d with part := .word i } else .error .malformed
  | .word first, '=' => do
    return { d with target := some (← cut raw first i), part := .level (i + 1) }
  | .word first, '[' => do
    return { d with target := some (← cut raw first i), part := .span (i + 1) }
  | .word _, _ => .ok d
  | .span first, ']' => do
    let _ ← cut raw first i
    return { d with namesSpan := true, part := .behindBracket }
  | .span first, '\x7b' => do
    return { d with namesSpan := !(← cut raw first i).isEmpty, part := .field (i + 1) }
  | .span _, _ => .ok d
  | .field first, '\x7d' => do
    match FieldTest.ofText? (← cut raw first i) with
    | some field => return { d with field := some field, part := .behindField }
    | none => .error .malformed
  | .field _, _ => .ok d
  | .behindField, ']' => .ok { d with part := .behindBracket }
  | .behindBracket, '=' => .ok { d with part := .level (i + 1) }
  | .level _, _ => .ok d
  | .behindField, _ | .behindBracket, _ => .error .malformed

/-- Read characters, the first of which stands at place `i`. -/
def steps (raw : List Char) (d : Draft) (i : Nat) : List Char → Except Unfit Draft
  | [] => .ok d
  | c :: cs => do (← d.step raw i c).steps raw (i + c.utf8Size) cs

/-- The directive that has been read, with its level. There are no spans, and values of fields
matter for spans alone, so a directive about either concerns no record. -/
def withThreshold (d : Draft) (threshold : Threshold) : Option Directive :=
  if d.namesSpan || d.field.any FieldTest.hasValue then none
  else some { target := d.target, field := d.field.map FieldTest.name, threshold }

/-- The directive at the end of the text. Where no level is given everything passes. -/
def finish (raw : List Char) (d : Draft) : Except Unfit (Option Directive) :=
  match d.part with
  | .word first => do
    let word ← cut raw first (Text.byteSize raw)
    match Threshold.ofWord? word with
    | some threshold => return d.withThreshold threshold
    | none => return { d with target := some word }.withThreshold (some .trace)
  | .level first => do
    let word ← cut raw first (Text.byteSize raw)
    if word.isEmpty then return d.withThreshold (some .trace)
    match Threshold.ofWord? word with
    | some threshold => return d.withThreshold threshold
    | none => .error .malformed
  | .behindBracket => .ok (d.withThreshold (some .trace))
  | .start | .span _ | .field _ | .behindField => .error .malformed

end Draft

/-- A directive as it is written, if it may concern a record. -/
def Directive.ofText (text : String) : Except Unfit (Option Directive) := do
  let raw := text.toList
  let inner := (raw.dropWhile Text.isBlank).reverse.dropWhile Text.isBlank |>.reverse
  (← ({} : Draft).steps raw 0 inner).finish raw

namespace Filter

/-- A filter as it is written; empty directives are left out. -/
def ofText (text : String) : Except Unfit Filter := do
  let parts := (text.splitOn ",").filter fun s => !s.isEmpty
  return (← parts.mapM Directive.ofText).filterMap id

/-- The environment variable that holds the setting of a filter. -/
def environmentVariable : String := "RUST_LOG"

/-- The filter of a setting: the usual one if there is none or a malformed one, and none for a
setting that is torn. -/
def ofSetting : (setting : Option String) → Option Filter
  | none => some usual
  | some text =>
    match ofText text with
    | .ok filter => some filter
    | .error .malformed => some usual
    | .error .torn => none

end Filter

end Excerpt.Log
