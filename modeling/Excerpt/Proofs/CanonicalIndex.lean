import Excerpt.Node

/-!
# Canonical indices

* `toDigits_of_digitsFrom?` — digits read behind a number are the last digits of the result;
* `toString_of_ofCanonical?`, `ofCanonical?_toString` — a canonical numeral is the text of its
  value, and the text of a number that fits a word is read as that number;
* `index_eq_of_toString_eq` — different indices have different texts;
* `IsCanonical`, `isCanonical_iff` — the texts of numbers, told by their characters;
* `ofBytes?`, `ofBytes?_eq` — a numeral read byte by byte, in words, has the same value.
-/

namespace Excerpt.Text.Numeral

/-! ### Digits -/

theorem isDigit_iff {c : Char} : isDigit c ↔ 48 ≤ c.toNat ∧ c.toNat ≤ 57 := by
  rw [isDigit, Bool.and_eq_true, decide_eq_true_iff, decide_eq_true_iff]
  exact Iff.rfl

theorem digitValue?_of_isDigit {c : Char} (hc : isDigit c) :
    digitValue? 10 c = some (c.toNat - 48) := by
  have hrange : '0' ≤ c ∧ c ≤ '9' := isDigit_iff.1 hc
  have hd : c.toNat - 48 < 10 := by
    have := (isDigit_iff.1 hc).2
    omega
  rw [digitValue?, if_pos hrange]
  simpa [Option.filter] using hd

theorem digitChar_of_digitValue? {c : Char} {d : Nat} (h : digitValue? 10 c = some d) :
    d < 10 ∧ Nat.digitChar d = c := by
  have hchar : ∀ d < 10, Char.ofNat (48 + d) = Nat.digitChar d := by decide
  obtain ⟨hv, hd⟩ := Option.filter_eq_some_iff.1 h
  have hd : d < 10 := by simpa using hd
  split at hv
  · next hc =>
    have hlow : 48 ≤ c.toNat := hc.1
    have hval : c.toNat - 48 = d := by simpa using hv
    refine ⟨hd, ?_⟩
    rw [← hchar d hd, ← hval, Nat.add_sub_cancel' hlow, Char.ofNat_toNat]
  · split at hv
    · have hval : c.toNat - 97 + 10 = d := by simpa using hv
      omega
    · split at hv
      · have hval : c.toNat - 65 + 10 = d := by simpa using hv
        omega
      · simp at hv

theorem toDigits_of_digitsFrom? {acc n : Nat} {cs : List Char} (ha : 0 < acc)
    (h : digitsFrom? 10 acc cs = some n) : Nat.toDigits 10 n = Nat.toDigits 10 acc ++ cs := by
  induction cs generalizing acc with
  | nil =>
    have hn : acc = n := by simpa [digitsFrom?] using h
    rw [hn, List.append_nil]
  | cons c cs ih =>
    obtain ⟨d, hd, hn⟩ := Option.bind_eq_some_iff.1 h
    obtain ⟨hlt, hc⟩ := digitChar_of_digitValue? hd
    have hdigits : Nat.toDigits 10 (acc * 10 + d) = Nat.toDigits 10 acc ++ [c] := by
      rw [Nat.mul_comm, ← Nat.toDigits_append_toDigits (by decide) ha hlt,
        Nat.toDigits_of_lt_base hlt, hc]
    rw [ih (by omega) hn, hdigits, List.append_assoc, List.singleton_append]

/-- Digits that do not begin with a zero are the digits of their value. -/
theorem toDigits_of_ofDigits? {c : Char} {cs : List Char} {n : Nat} (hc : c ≠ '0')
    (h : ofDigits? 10 (c :: cs) = some n) : Nat.toDigits 10 n = c :: cs := by
  obtain ⟨d, hd, hn⟩ := Option.bind_eq_some_iff.1 h
  obtain ⟨hlt, hchar⟩ := digitChar_of_digitValue? hd
  have hpos : 0 < d := by
    rcases Nat.eq_zero_or_pos d with rfl | hpos
    · exact absurd hchar.symm hc
    · exact hpos
  rw [Nat.zero_mul, Nat.zero_add] at hn
  rw [toDigits_of_digitsFrom? hpos hn, Nat.toDigits_of_lt_base hlt, hchar]
  rfl

theorem digitsFrom?_of_isDigit {cs : List Char} (h : ∀ c ∈ cs, isDigit c) (acc : Nat) :
    digitsFrom? 10 acc cs = some (Nat.ofDigitChars 10 cs acc) := by
  induction cs generalizing acc with
  | nil => rfl
  | cons c cs ih =>
    obtain ⟨hc, hcs⟩ := List.forall_mem_cons.1 h
    rw [digitsFrom?, digitValue?_of_isDigit hc, Option.bind_some, ih hcs, Nat.ofDigitChars_cons,
      Nat.mul_comm]
    rfl

theorem isDigit_of_mem_toDigits {n : Nat} {c : Char} (hc : c ∈ Nat.toDigits 10 n) : isDigit c :=
  Nat.isDigit_of_mem_toDigits (by decide) (by decide) hc

/-- The digits of a number above zero do not begin with a zero. -/
theorem exists_toDigits_cons {n : Nat} (hn : 0 < n) :
    ∃ c cs, Nat.toDigits 10 n = c :: cs ∧ c ≠ '0' := by
  induction n using Nat.strongRecOn with
  | _ n ih =>
    rw [Nat.toDigits_eq_if (by decide)]
    split
    · exact ⟨_, _, rfl, by simp; omega⟩
    · obtain ⟨c, cs, hdigits, hc⟩ := ih (n / 10) (by omega) (by omega)
      exact ⟨c, _, by rw [hdigits]; rfl, hc⟩

/-! ### Reading and writing -/

def word? (n : Nat) : Option Nat := if n < wordBound then some n else none

theorem toList_toString (n : Nat) : (toString n).toList = Nat.toDigits 10 n := Nat.toList_repr

/-- **A canonical numeral is the text of its value.** -/
theorem toString_of_ofCanonical? {text : String} {n : Nat} (h : ofCanonical? text = some n) :
    toString n = text := by
  rw [← String.toList_inj, toList_toString]
  unfold ofCanonical? at h
  split at h
  · next htext =>
    cases h
    rw [htext]
    rfl
  · simp at h
  · next hne hnil =>
    obtain ⟨hn, -⟩ := Option.filter_eq_some_iff.1 h
    cases htext : text.toList with
    | nil => simp [htext, ofDigits?] at hn
    | cons c cs =>
      rw [htext] at hn
      exact toDigits_of_ofDigits? (fun hc => hnil cs (hc ▸ htext)) hn

theorem ofCanonical?_of_cons {text : String} {c : Char} {cs : List Char}
    (ht : text.toList = c :: cs) (hc : c ≠ '0') :
    ofCanonical? text = (ofDigits? 10 (c :: cs)).filter (· < wordBound) := by
  rw [ofCanonical?, ht]
  split
  · next h => exact absurd (List.cons.inj h).1 hc
  · next h => exact absurd (List.cons.inj h).1 hc
  · rfl

theorem ofDigits?_toDigits (n : Nat) : ofDigits? 10 (Nat.toDigits 10 n) = some n := by
  have hread := digitsFrom?_of_isDigit (fun _ => isDigit_of_mem_toDigits (n := n)) 0
  rw [Nat.ofDigitChars_ten_toDigits] at hread
  cases hdigits : Nat.toDigits 10 n with
  | nil => exact absurd hdigits Nat.toDigits_ne_nil
  | cons c cs => rwa [hdigits] at hread

/-- **The text of a number is read as that number**, if it fits a word. -/
theorem ofCanonical?_toString (n : Nat) : ofCanonical? (toString n) = word? n := by
  rcases Nat.eq_zero_or_pos n with rfl | hpos
  · rfl
  · obtain ⟨c, cs, hdigits, hc⟩ := exists_toDigits_cons hpos
    have hread : ofDigits? 10 (c :: cs) = some n := hdigits ▸ ofDigits?_toDigits n
    rw [ofCanonical?_of_cons ((toList_toString n).trans hdigits) hc, hread]
    simp [Option.filter, word?]

theorem index_eq_of_toString_eq {i j : Nat} (h : toString i = toString j) : i = j := by
  have hdigits : Nat.toDigits 10 i = Nat.toDigits 10 j := by
    rw [← toList_toString, ← toList_toString]
    exact congrArg String.toList h
  rw [← Nat.ofDigitChars_ten_toDigits (n := i), hdigits, Nat.ofDigitChars_ten_toDigits]

/-! ### The form of a numeral -/

/-- A text of digits that begins with a zero only if it is that zero. -/
structure IsCanonical (text : String) : Prop where
  ne_empty : text ≠ ""
  digits : ∀ c ∈ text.toList, isDigit c
  no_leading_zero : text.toList.head? = some '0' → text = "0"

/-- **The canonical numerals are the texts of the numbers.** -/
theorem isCanonical_iff {text : String} : IsCanonical text ↔ ∃ n : Nat, text = toString n := by
  constructor
  · intro h
    cases htext : text.toList with
    | nil => exact absurd (String.toList_eq_nil_iff.1 htext) h.ne_empty
    | cons c cs =>
      by_cases hc : c = '0'
      · exact ⟨0, h.no_leading_zero (by rw [htext, hc]; rfl)⟩
      · have hread := digitsFrom?_of_isDigit (htext ▸ h.digits) 0
        have hdigits := toDigits_of_ofDigits? hc hread
        exact ⟨_, String.toList_inj.1 (by rw [htext, toList_toString, hdigits])⟩
  · rintro ⟨n, rfl⟩
    refine ⟨Nat.repr_ne_empty, fun c hc => ?_, fun hzero => ?_⟩
    · rw [toList_toString] at hc
      exact isDigit_of_mem_toDigits hc
    · rw [toList_toString] at hzero
      rcases Nat.eq_zero_or_pos n with rfl | hpos
      · rfl
      · obtain ⟨c, cs, hdigits, hc⟩ := exists_toDigits_cons hpos
        rw [hdigits] at hzero
        exact absurd (Option.some.inj hzero) hc

theorem ofCanonical?_of_not_isCanonical {text : String} (h : ¬IsCanonical text) :
    ofCanonical? text = none := by
  cases hread : ofCanonical? text with
  | none => rfl
  | some n => exact absurd (isCanonical_iff.2 ⟨n, (toString_of_ofCanonical? hread).symm⟩) h

/-! ### Reading bytes in words -/

def utf8 (text : String) : List UInt8 := text.toUTF8.data.toList

/-- Whether a byte is the code of one of the ten ASCII digits. -/
def isDigitByte (b : UInt8) : Bool := 48 ≤ b && b ≤ 57

/-- Read the digit of a byte behind a number. Neither the product nor the sum may leave a word. -/
def pushDigit? (n : Nat) (b : UInt8) : Option Nat :=
  (word? (n * 10)).bind fun m => word? (m + (b.toNat - 48))

/-- Read a numeral byte by byte. What it begins with and all its bytes are tested first. -/
def ofBytes? (text : String) : Option Nat :=
  if (text = "0" ∨ text.toList.head? ≠ some '0' ∧ text ≠ "") ∧ (utf8 text).all isDigitByte then
    (utf8 text).foldlM pushDigit? 0
  else none

theorem utf8_eq (text : String) : utf8 text = text.toList.flatMap String.utf8EncodeChar := by
  have htext : text = String.ofList text.toList := String.ofList_toList.symm
  rw [utf8, htext, String.toUTF8_eq_toByteArray, String.toByteArray_ofList, List.utf8Encode,
    List.data_toByteArray, String.toList_ofList]

theorem isDigitByte_ofNat {k : Nat} (hk : k < 256) :
    isDigitByte (UInt8.ofNat k) ↔ 48 ≤ k ∧ k ≤ 57 := by
  simp [isDigitByte, UInt8.le_iff_toNat_le, Nat.mod_eq_of_lt hk]

theorem utf8EncodeChar_of_isDigit {c : Char} (hc : isDigit c) :
    String.utf8EncodeChar c = [UInt8.ofNat c.toNat] := by
  have hhigh : c.val.toNat ≤ 57 := (isDigit_iff.1 hc).2
  simp only [String.utf8EncodeChar]
  rw [if_pos (by omega)]
  rfl

/-- A character whose bytes are codes of digits is a digit: beyond ASCII the first byte is none. -/
theorem isDigit_of_isDigitByte {c : Char} (h : ∀ b ∈ String.utf8EncodeChar c, isDigitByte b) :
    isDigit c := by
  have hfirst : ∀ k bs, String.utf8EncodeChar c = UInt8.ofNat k :: bs → k < 256 →
      48 ≤ k ∧ k ≤ 57 := by
    intro k bs hbytes hk
    exact (isDigitByte_ofNat hk).1 (h _ (hbytes ▸ List.mem_cons_self))
  simp only [String.utf8EncodeChar] at hfirst
  split at hfirst
  · next hc => exact isDigit_iff.2 (hfirst _ _ rfl (Nat.lt_of_le_of_lt hc (by decide)))
  · split at hfirst
    · have := hfirst _ _ rfl (by omega)
      omega
    · split at hfirst
      · have := hfirst _ _ rfl (by omega)
        omega
      · have := hfirst _ _ rfl (by omega)
        omega

theorem all_isDigitByte_iff {text : String} :
    (utf8 text).all isDigitByte ↔ ∀ c ∈ text.toList, isDigit c := by
  rw [List.all_eq_true, utf8_eq]
  constructor
  · intro h c hc
    exact isDigit_of_isDigitByte fun b hb => h b (List.mem_flatMap.2 ⟨c, hc, hb⟩)
  · intro h b hb
    obtain ⟨c, hc, hb⟩ := List.mem_flatMap.1 hb
    have hdigit := isDigit_iff.1 (h c hc)
    rw [utf8EncodeChar_of_isDigit (h c hc), List.mem_singleton] at hb
    rw [hb, isDigitByte_ofNat (by omega)]
    exact hdigit

/-- A product that leaves a word is left by the sum too. -/
theorem pushDigit?_eq (n : Nat) {c : Char} (hc : isDigit c) :
    pushDigit? n (UInt8.ofNat c.toNat) = word? (10 * n + (c.toNat - 48)) := by
  have hdigit := isDigit_iff.1 hc
  have hbyte : (UInt8.ofNat c.toNat).toNat = c.toNat := by
    rw [UInt8.toNat_ofNat', Nat.mod_eq_of_lt]
    omega
  rw [pushDigit?, hbyte, Nat.mul_comm]
  unfold word?
  split
  · rfl
  · rw [if_neg (by omega)]
    rfl

theorem le_ofDigitChars (cs : List Char) (acc : Nat) : acc ≤ Nat.ofDigitChars 10 cs acc := by
  induction cs generalizing acc with
  | nil => exact Nat.le_refl _
  | cons c cs ih =>
    rw [Nat.ofDigitChars_cons]
    have := ih (10 * acc + (c.toNat - '0'.toNat))
    omega

/-- **A word is left on the way only if the value does not fit it.** -/
theorem foldlM_pushDigit? {cs : List Char} (h : ∀ c ∈ cs, isDigit c) {n : Nat}
    (hn : n < wordBound) :
    (cs.flatMap String.utf8EncodeChar).foldlM pushDigit? n = word? (Nat.ofDigitChars 10 cs n) := by
  induction cs generalizing n with
  | nil => exact (if_pos hn).symm
  | cons c cs ih =>
    obtain ⟨hc, hcs⟩ := List.forall_mem_cons.1 h
    rw [List.flatMap_cons, utf8EncodeChar_of_isDigit hc, List.singleton_append, List.foldlM_cons,
      pushDigit?_eq n hc, Nat.ofDigitChars_cons]
    by_cases hnext : 10 * n + (c.toNat - 48) < wordBound
    · rw [word?, if_pos hnext]
      exact ih hcs hnext
    · -- the value only grows with the digits that follow
      have hle := le_ofDigitChars cs (10 * n + (c.toNat - 48))
      have hvalue : ¬Nat.ofDigitChars 10 cs (10 * n + (c.toNat - '0'.toNat)) < wordBound :=
        fun hlt => hnext (Nat.lt_of_le_of_lt hle hlt)
      rw [word?, if_neg hnext, word?, if_neg hvalue]
      rfl

/-- The test in front of the digits is that of the form. -/
theorem isCanonical_iff_bytes {text : String} :
    (text = "0" ∨ text.toList.head? ≠ some '0' ∧ text ≠ "") ∧ (utf8 text).all isDigitByte ↔
      IsCanonical text := by
  rw [all_isDigitByte_iff]
  constructor
  · rintro ⟨hzero | ⟨hhead, hne⟩, hdigits⟩
    · exact ⟨by simp [hzero], hdigits, fun _ => hzero⟩
    · exact ⟨hne, hdigits, fun h => absurd h hhead⟩
  · rintro ⟨hne, hdigits, hzero⟩
    refine ⟨?_, hdigits⟩
    by_cases hhead : text.toList.head? = some '0'
    · exact .inl (hzero hhead)
    · exact .inr ⟨hhead, hne⟩

instance (text : String) : Decidable (IsCanonical text) := decidable_of_iff _ isCanonical_iff_bytes

/-- **A numeral read byte by byte has the same value.** -/
theorem ofBytes?_eq (text : String) : ofBytes? text = ofCanonical? text := by
  rw [ofBytes?]
  by_cases h : IsCanonical text
  · rw [if_pos (isCanonical_iff_bytes.2 h)]
    obtain ⟨n, rfl⟩ := isCanonical_iff.1 h
    rw [utf8_eq, foldlM_pushDigit? h.digits (by decide), toList_toString,
      Nat.ofDigitChars_ten_toDigits, ofCanonical?_toString]
  · rw [if_neg fun htest => h (isCanonical_iff_bytes.1 htest), ofCanonical?_of_not_isCanonical h]

end Excerpt.Text.Numeral
