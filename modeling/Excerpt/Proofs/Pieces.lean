import Excerpt.Json.Reader
import Excerpt.Json.Writer

/-!
# Pieces of a text of JSON

A text is read as the tokens of its pieces, one piece after another.

* `Lexer.tokens?` — the tokens of a text;
* `Lexes` — a piece of text stands for tokens, whatever follows it that does not lengthen a word;
* `Lexes.space`, `Lexes.mark`, `Lexes.append`, `Lexes.string`, `lexes_word` — how pieces are put
  together;
* `Quoted.decode?_flatMap_escape` — a string is read as it was before it was escaped;
* `Number.numeric_render` — the text of a number is a word.
-/

namespace Excerpt.Json

namespace Lexer

/-- The tokens of a text, from a state on. -/
def tokens? (state : Lexer) : List Char → Option (List Token)
  | [] => state.finish
  | c :: cs => (state.step c).bind fun (ts, next) => (next.tokens? cs).map (ts ++ ·)

end Lexer

def endsWord (c : Char) : Bool := isSpace c || c = '"' || (Token.ofMark? c).isSome

/-- A word before this text ends there. -/
def EndsWord (rest : List Char) : Prop := ∀ c ∈ rest.head?, endsWord c = true

/-- A piece of text stands for tokens, whatever follows it. -/
def Lexes (chars : List Char) (ts : List Token) : Prop :=
  ∀ rest, EndsWord rest →
    Lexer.between.tokens? (chars ++ rest) = (Lexer.between.tokens? rest).map (ts ++ ·)

section Pieces

variable {c : Char} {chars rest : List Char} {t : Token} {ts us : List Token}

theorem tokens?_cons {state next : Lexer} (h : state.step c = some (ts, next)) (cs : List Char) :
    state.tokens? (c :: cs) = (next.tokens? cs).map (ts ++ ·) := by
  rw [Lexer.tokens?, h, Option.bind_some]

theorem tokens?_cons_nil {state next : Lexer} (h : state.step c = some ([], next))
    (cs : List Char) : state.tokens? (c :: cs) = next.tokens? cs := by
  rw [tokens?_cons h]
  simp only [List.nil_append, Option.map_id']

theorem endsWord_of_mark (h : Token.ofMark? c = some t) : endsWord c = true := by
  simp [endsWord, h]

theorem endsWord_of_space (h : isSpace c = true) : endsWord c = true := by
  simp [endsWord, h]

theorem endsWord_cons (h : endsWord c = true) : EndsWord (c :: rest) := by
  intro d hd
  obtain rfl : c = d := Option.some.inj hd
  exact h

theorem lexes_nil : Lexes [] [] := by
  intro rest _
  simp

theorem Lexes.space (hc : isSpace c = true) (h : Lexes chars ts) : Lexes (c :: chars) ts := by
  intro rest hrest
  have hstep : Lexer.between.step c = some ([], .between) := by
    simp [Lexer.step, Lexer.begin, hc]
  rw [List.cons_append, tokens?_cons_nil hstep, h rest hrest]

theorem Lexes.spaces {blanks : List Char} (hb : ∀ c ∈ blanks, isSpace c = true)
    (h : Lexes chars ts) : Lexes (blanks ++ chars) ts := by
  induction blanks with
  | nil => exact h
  | cons c blanks ih =>
    obtain ⟨hc, hb⟩ := List.forall_mem_cons.1 hb
    exact (ih hb).space hc

/-- A mark is neither a blank nor a quote. -/
theorem not_isSpace_of_mark (h : Token.ofMark? c = some t) : isSpace c = false ∧ c ≠ '"' := by
  unfold Token.ofMark? at h
  split at h
  case h_7 => cases h
  all_goals decide

theorem Lexes.mark (hc : Token.ofMark? c = some t) (h : Lexes chars ts) :
    Lexes (c :: chars) (t :: ts) := by
  intro rest hrest
  have hstep : Lexer.between.step c = some ([t], .between) := by
    simp [Lexer.step, Lexer.begin, hc, not_isSpace_of_mark hc]
  rw [List.cons_append, tokens?_cons hstep, h rest hrest, Option.map_map]
  rfl

theorem Lexes.append (h : Lexes chars ts) {more : List Char} (hm : Lexes more us)
    (hends : ∀ rest, EndsWord (more ++ rest)) : Lexes (chars ++ more) (ts ++ us) := by
  intro rest hrest
  rw [List.append_assoc, h _ (hends rest), hm rest hrest, Option.map_map]
  simp only [Function.comp_def, List.append_assoc]

theorem tokens?_word {word : List Char} (hw : ∀ c ∈ word, endsWord c = false)
    (hrest : EndsWord rest) (read : List Char) :
    (Lexer.word read).tokens? (word ++ rest) =
      (Token.ofWord? (read.reverse ++ word)).bind fun t =>
        (Lexer.between.tokens? rest).map (t :: ·) := by
  induction word generalizing read with
  | nil =>
    rw [List.append_nil, List.nil_append]
    cases rest with
    | nil => cases h : Token.ofWord? read.reverse <;> simp [Lexer.tokens?, Lexer.finish, h]
    | cons c cs =>
      have hc : endsWord c = true := hrest c rfl
      rw [endsWord] at hc
      cases h : Token.ofWord? read.reverse <;>
        simp [Lexer.tokens?, Lexer.step, hc, h, Function.comp_def]
  | cons c word ih =>
    obtain ⟨hc, hw⟩ := List.forall_mem_cons.1 hw
    have hstep : (Lexer.word read).step c = some ([], .word (c :: read)) := by
      rw [endsWord] at hc
      simp [Lexer.step, hc]
    rw [List.cons_append, tokens?_cons_nil hstep, ih hw, List.reverse_cons, List.append_assoc,
      List.singleton_append]

theorem lexes_word {word : List Char} (hne : word ≠ []) (hw : ∀ c ∈ word, endsWord c = false)
    (ht : Token.ofWord? word = some t) : Lexes word [t] := by
  intro rest hrest
  obtain ⟨c, word, rfl⟩ := List.exists_cons_of_ne_nil hne
  obtain ⟨hc, hw⟩ := List.forall_mem_cons.1 hw
  have hstep : Lexer.between.step c = some ([], .word [c]) := by
    simp [endsWord] at hc
    simp [Lexer.step, Lexer.begin, hc]
  rw [List.cons_append, tokens?_cons_nil hstep, tokens?_word hw hrest [c],
    List.reverse_singleton, List.singleton_append, ht, Option.bind_some]
  rfl

end Pieces

/-! ### Strings -/

namespace Quoted

/-- The four digits of a control character are read as the character. -/
theorem unit?_hexDigits {n : Nat} (h : n < 32) :
    unit? '0' '0' (hexDigit (n / 16)) (hexDigit (n % 16)) = some n := by
  have hall : ∀ n < 32, unit? '0' '0' (hexDigit (n / 16)) (hexDigit (n % 16)) = some n := by
    decide
  exact hall n h

theorem hexDigit_ne {n : Nat} (h : n < 16) : hexDigit n ≠ '"' ∧ hexDigit n ≠ '\\' := by
  have hall : ∀ n < 16, hexDigit n ≠ '"' ∧ hexDigit n ≠ '\\' := by decide
  exact hall n h

/-- What a character is written as. -/
theorem escape_cases (c : Char) :
    (∃ e, escape c = ['\\', e] ∧ e ≠ 'u' ∧ shortEscape? e = some c) ∨
    (c.toNat < 32 ∧
      escape c = ['\\', 'u', '0', '0', hexDigit (c.toNat / 16), hexDigit (c.toNat % 16)]) ∨
    (escape c = [c] ∧ c ≠ '"' ∧ c ≠ '\\' ∧ ¬c < ' ') := by
  unfold escape
  split
  case h_8 =>
    split
    case isTrue h => exact .inr (.inl ⟨h, rfl⟩)
    case isFalse h => exact .inr (.inr ⟨rfl, by assumption, by assumption, h⟩)
  all_goals exact .inl ⟨_, rfl, by decide, rfl⟩

theorem decodeOnto?_escape (c : Char) (done rest : List Char) :
    decodeOnto? done (escape c ++ rest) = decodeOnto? (c :: done) rest := by
  rcases escape_cases c with ⟨e, he, hu, hc⟩ | ⟨hc, he⟩ | ⟨he, -, hb, hs⟩
  · rw [he]
    simp [decodeOnto?, hu, hc]
  · have hleading : isLeading c.toNat = false ∧ isTrailing c.toNat = false := by
      simp [isLeading, isTrailing]
      omega
    rw [he]
    simp [decodeOnto?, unit?_hexDigits hc, hleading, Char.ofNat_toNat]
  · rw [he]
    simp [decodeOnto?, hb, hs]

theorem decodeOnto?_flatMap_escape (cs done : List Char) :
    decodeOnto? done (cs.flatMap escape) = some (cs.reverse ++ done) := by
  induction cs generalizing done with
  | nil => rfl
  | cons c cs ih =>
    rw [List.flatMap_cons, decodeOnto?_escape, ih]
    simp

theorem decode?_flatMap_escape (cs : List Char) : decode? (cs.flatMap escape) = some cs := by
  simp [decode?, decodeOnto?_flatMap_escape]

end Quoted

theorem tokens?_escape (c : Char) (read rest : List Char) :
    (Lexer.text read).tokens? (Quoted.escape c ++ rest) =
      (Lexer.text ((Quoted.escape c).reverse ++ read)).tokens? rest := by
  have hplain : ∀ (d : Char) (read cs : List Char), d ≠ '"' → d ≠ '\\' →
      (Lexer.text read).tokens? (d :: cs) = (Lexer.text (d :: read)).tokens? cs :=
    fun d read cs hq hb => tokens?_cons_nil (by simp [Lexer.step, hq, hb]) cs
  have hescape : ∀ (d : Char) (read cs : List Char),
      (Lexer.text read).tokens? ('\\' :: d :: cs) =
        (Lexer.text (d :: '\\' :: read)).tokens? cs := by
    intro d read cs
    have hbackslash : (Lexer.text read).step '\\' = some ([], .escape ('\\' :: read)) := rfl
    have hbehind : (Lexer.escape ('\\' :: read)).step d =
        some ([], .text (d :: '\\' :: read)) := rfl
    rw [tokens?_cons_nil hbackslash, tokens?_cons_nil hbehind]
  rcases Quoted.escape_cases c with ⟨e, he, -⟩ | ⟨hc, he⟩ | ⟨he, hq, hb, -⟩
  · rw [he]
    exact hescape e read rest
  · obtain ⟨hq, hb⟩ := Quoted.hexDigit_ne (n := c.toNat / 16) (by omega)
    obtain ⟨hq', hb'⟩ := Quoted.hexDigit_ne (n := c.toNat % 16) (by omega)
    rw [he]
    simp only [List.cons_append, List.nil_append, List.reverse_cons, List.reverse_nil]
    rw [hescape, hplain _ _ _ (by decide) (by decide), hplain _ _ _ (by decide) (by decide),
      hplain _ _ _ hq hb, hplain _ _ _ hq' hb']
  · rw [he]
    exact hplain c read rest hq hb

theorem tokens?_escaped (cs read rest : List Char) :
    (Lexer.text read).tokens? (cs.flatMap Quoted.escape ++ rest) =
      (Lexer.text ((cs.flatMap Quoted.escape).reverse ++ read)).tokens? rest := by
  induction cs generalizing read with
  | nil => rfl
  | cons c cs ih =>
    rw [List.flatMap_cons, List.append_assoc, tokens?_escape, ih, List.reverse_append,
      List.append_assoc]

theorem toList_encode (s : String) :
    (Quoted.encode s).toList = '"' :: (s.toList.flatMap Quoted.escape ++ ['"']) := by
  simp [Quoted.encode]

/-- A string between quotes, whatever stands behind it. -/
theorem Lexes.string (s : String) {chars : List Char} {ts : List Token} (h : Lexes chars ts) :
    Lexes ((Quoted.encode s).toList ++ chars) (.str s :: ts) := by
  intro rest hrest
  have hsplit : (Quoted.encode s).toList ++ chars ++ rest =
      '"' :: (s.toList.flatMap Quoted.escape ++ '"' :: (chars ++ rest)) := by
    simp [toList_encode]
  have hopen : Lexer.between.step '"' = some ([], .text []) := rfl
  have hclose : (Lexer.text ((s.toList.flatMap Quoted.escape).reverse ++ [])).step '"' =
      some ([.str s], .between) := by
    simp [Lexer.step, Quoted.decode?_flatMap_escape]
  rw [hsplit, tokens?_cons_nil hopen, tokens?_escaped, tokens?_cons hclose, h rest hrest,
    Option.map_map]
  rfl

/-! ### Numbers -/

def isNumberChar (c : Char) : Bool := c.isDigit || c = '.' || c = 'e' || c = '+' || c = '-'

/-- All characters may stand in a number. -/
def Numeric (text : String) : Prop := ∀ c ∈ text.toList, isNumberChar c = true

instance (text : String) : Decidable (Numeric text) :=
  decidable_of_iff (text.toList.all isNumberChar = true) List.all_eq_true

section Numeric

variable {s t : String}

theorem Numeric.append (hs : Numeric s) (ht : Numeric t) : Numeric (s ++ t) := by
  intro c hc
  rw [String.toList_append] at hc
  rcases List.mem_append.1 hc with hc | hc
  · exact hs c hc
  · exact ht c hc

theorem numeric_toString (n : Nat) : Numeric (toString n) := by
  intro c hc
  have hdigit := Nat.isDigit_of_mem_toDigits (by decide) (by decide) (Nat.toList_repr ▸ hc)
  simp [isNumberChar, hdigit]

theorem numeric_of_subset {cs : List Char} (h : Numeric s) (hcs : ∀ c ∈ cs, c ∈ s.toList) :
    Numeric (String.ofList cs) := by
  intro c hc
  exact h c (hcs c (by simpa using hc))

/-- A character of a number does not end a word. -/
theorem not_isNumberChar_of_endsWord {c : Char} (h : endsWord c = true) :
    isNumberChar c = false := by
  simp only [endsWord, isSpace, Bool.or_eq_true, decide_eq_true_eq] at h
  rcases h with ((((rfl | rfl) | rfl) | rfl) | rfl) | hmark
  case inr =>
    unfold Token.ofMark? at hmark
    split at hmark
    case h_7 => cases hmark
    all_goals rfl
  all_goals rfl

end Numeric

namespace Number

open Binary64 (Layout)

section Layout

variable (l : Layout) {digits : List Char}

theorem numeric_zeros (n : Nat) : Numeric (Layout.zeros n) := by
  intro c hc
  have hc : n ≠ 0 ∧ c = '0' := by simpa [Layout.zeros] using hc
  rw [hc.2]
  rfl

theorem numeric_positional (hd : Numeric (String.ofList digits)) (exponent : Int) :
    Numeric (l.positional digits exponent) := by
  unfold Layout.positional
  dsimp only
  split
  · have hfraction : Numeric (if l.keepsFraction then ".0" else "") := by split <;> decide
    exact (hd.append (numeric_zeros _)).append hfraction
  · split
    · have htake : Numeric (String.ofList (digits.take (digits.length + exponent).toNat)) :=
        numeric_of_subset hd fun c hc => by simpa using List.mem_of_mem_take hc
      have hdrop : Numeric (String.ofList (digits.drop (digits.length + exponent).toNat)) :=
        numeric_of_subset hd fun c hc => by simpa using List.mem_of_mem_drop hc
      exact (htake.append (by decide)).append hdrop
    · exact ((by decide : Numeric "0.").append (numeric_zeros _)).append hd

theorem numeric_exponentPart (e : Int) : Numeric (l.exponentPart e) := by
  have hsign : Numeric (if e < 0 then "-" else if l.signsExponent then "+" else "") := by
    split
    · decide
    · split <;> decide
  exact ((by decide : Numeric "e").append hsign).append (numeric_toString _)

theorem numeric_scientific (hd : Numeric (String.ofList digits)) (leading : Int) :
    Numeric (l.scientific digits leading) := by
  unfold Layout.scientific
  split
  · decide
  · exact hd.append (numeric_exponentPart l leading)
  · next d ds _ =>
    have hfirst : Numeric (String.ofList [d]) := numeric_of_subset hd (by simp)
    have hrest : Numeric (String.ofList ds) :=
      numeric_of_subset hd fun c hc => by simp [hc]
    exact ((hfirst.append (by decide)).append hrest).append (numeric_exponentPart l leading)

theorem numeric_decimal (d : Binary64.Decimal) : Numeric (l.decimal d) := by
  have hdigits : Numeric (String.ofList (toString d.digits).toList) := by
    rw [String.ofList_toList]
    exact numeric_toString d.digits
  unfold Layout.decimal
  dsimp only
  split
  · exact numeric_positional l hdigits _
  · exact numeric_scientific l hdigits _

theorem numeric_layout (x : Binary64) : Numeric (l.render x) := by
  have hbody : Numeric (if x.rank = 0 then (if l.keepsFraction then "0.0" else "0")
      else l.decimal (Binary64.shortest x.rank)) := by
    split
    · split <;> decide
    · exact numeric_decimal l _
  unfold Layout.render
  dsimp only
  split
  · exact (by decide : Numeric "-").append hbody
  · exact hbody

theorem decimal_ne_empty (d : Binary64.Decimal) : l.decimal d ≠ "" := by
  have hne : (toString d.digits).toList ≠ [] := by simp
  unfold Layout.decimal
  dsimp only
  split
  · unfold Layout.positional
    dsimp only
    split
    · simp
    · split <;> simp
  · unfold Layout.scientific
    split
    · contradiction
    · simp
    · simp

theorem layout_ne_empty (x : Binary64) : l.render x ≠ "" := by
  have hbody : (if x.rank = 0 then (if l.keepsFraction then "0.0" else "0")
      else l.decimal (Binary64.shortest x.rank)) ≠ "" := by
    split
    · split <;> simp
    · exact decimal_ne_empty l _
  unfold Layout.render
  dsimp only
  split
  · simp
  · exact hbody

end Layout

theorem numeric_render (n : Number) : Numeric n.render := by
  cases n with
  | int n fits =>
    cases n with
    | ofNat n => exact numeric_toString n
    | negSucc n => exact (by decide : Numeric "-").append (numeric_toString (n + 1))
  | float x => exact numeric_layout layout x

theorem render_ne_empty (n : Number) : n.render ≠ "" := by
  cases n with
  | int n fits =>
    cases n with
    | ofNat n =>
      show toString n ≠ ""
      simp
    | negSucc n =>
      show "-" ++ toString (n + 1) ≠ ""
      simp
  | float x => exact layout_ne_empty layout x

end Number

end Excerpt.Json
