import Excerpt.Proofs.CanonicalIndex
import Mathlib.Logic.ExistsUnique

/-!
# Names of elements

The keys below a sequence are the texts of its indices, so that every element has exactly one name.

* `Node.IsName` — a key that gives what stands at a place of a sequence, whatever that is;
* `child_sequence_toString`, `exists_of_child_ne_missing` — the child below an index, and that no
  other key has one;
* `isName_iff` — the names of a place;
* `elements_named_once` — all of this together, also for keys that are read byte by byte.
-/

namespace Excerpt.Node

open Json Text.Numeral

variable {items : List Value} {key : String} {i : Nat}

/-- A key is a name of a place of a sequence if it gives what stands there, whatever that is. -/
def IsName (items : List Value) (i : Nat) (key : String) : Prop :=
  i < items.length ∧ ∀ v, (sequence (items.set i v)).child key = of v

theorem of_injective {v w : Value} (h : of v = of w) : v = w := by
  have hvalue := congrArg value? h
  rwa [value?_of, value?_of, Option.some.injEq] at hvalue

theorem ofOption_eq_missing_iff {v? : Option Value} : ofOption v? = missing ↔ v? = none := by
  cases v? with
  | none => simp [ofOption]
  | some v => cases v <;> simp [ofOption, of]

theorem child_sequence_toString (hi : i < wordBound) :
    (sequence items).child (toString i) = ofOption items[i]? := by
  rw [child, ofCanonical?_toString, word?, if_pos hi]
  rfl

/-- Only the texts of indices have children below a sequence. -/
theorem exists_of_child_ne_missing (h : (sequence items).child key ≠ missing) :
    ∃ i < items.length, key = toString i := by
  rw [child, ne_eq, ofOption_eq_missing_iff] at h
  obtain ⟨v, hv⟩ := Option.ne_none_iff_exists'.1 h
  obtain ⟨i, hread, hitem⟩ := Option.bind_eq_some_iff.1 hv
  exact ⟨i, (List.getElem?_eq_some_iff.1 hitem).1, (toString_of_ofCanonical? hread).symm⟩

/-- **The names of a place are the texts of its index.** -/
theorem isName_iff (hlen : items.length < wordBound) :
    IsName items i key ↔ i < items.length ∧ key = toString i := by
  constructor
  · rintro ⟨hi, hname⟩
    refine ⟨hi, ?_⟩
    have hpresent : (sequence (items.set i .null)).child key ≠ missing := by
      rw [hname]
      exact nofun
    obtain ⟨j, hj, rfl⟩ := exists_of_child_ne_missing hpresent
    rw [List.length_set] at hj
    by_cases hij : i = j
    · rw [hij]
    · -- what stands at another place does not change with what stands here
      have hsame : ∀ v, of items[j] = of v := by
        intro v
        have hv := hname v
        rwa [child_sequence_toString (Nat.lt_trans hj hlen), List.getElem?_set_ne hij,
          List.getElem?_eq_getElem hj] at hv
      exact absurd (of_injective ((hsame .null).symm.trans (hsame (.bool true)))) nofun
  · rintro ⟨hi, rfl⟩
    refine ⟨hi, fun v => ?_⟩
    rw [child_sequence_toString (Nat.lt_trans hi hlen), List.getElem?_set_self hi]
    rfl

/-- **Every element of a sequence has exactly one name.** Below a sequence whose length fits a word,
the texts of the indices have the elements as their children. No other text has a child, neither one
that is not canonical nor that of a number that is no index, within a word or beyond. It is the same
if a key is read byte by byte in words. -/
theorem elements_named_once (hlen : items.length < wordBound) :
    (∀ key, (sequence items).child key ≠ missing ↔ ∃ i < items.length, key = toString i) ∧
    (∀ (i : Nat) (hi : i < items.length),
      (sequence items).child (toString i) = of items[i]) ∧
    (∀ i < items.length, ∃! key, IsName items i key) ∧
    (∀ key, (¬IsCanonical key ∨ ∃ n ≥ items.length, key = toString n) →
      (sequence items).child key = missing) ∧
    ∀ key, (sequence items).child key = ofOption ((ofBytes? key).bind fun i => items[i]?) := by
  have hchild : ∀ (i : Nat) (hi : i < items.length),
      (sequence items).child (toString i) = of items[i] := by
    intro i hi
    rw [child_sequence_toString (Nat.lt_trans hi hlen), List.getElem?_eq_getElem hi]
    rfl
  refine ⟨fun key => ⟨exists_of_child_ne_missing, ?_⟩, hchild, fun i hi => ?_, fun key hkey => ?_,
    fun key => ?_⟩
  · rintro ⟨i, hi, rfl⟩
    rw [hchild i hi, ← ofOption, ne_eq, ofOption_eq_missing_iff]
    exact nofun
  · exact ⟨toString i, (isName_iff hlen).2 ⟨hi, rfl⟩, fun key hkey => ((isName_iff hlen).1 hkey).2⟩
  · refine Decidable.byContradiction fun hpresent => ?_
    obtain ⟨i, hi, rfl⟩ := exists_of_child_ne_missing hpresent
    rcases hkey with hform | ⟨n, hn, htext⟩
    · exact hform (isCanonical_iff.2 ⟨i, rfl⟩)
    · rw [index_eq_of_toString_eq htext] at hi
      exact absurd hi (Nat.not_lt.2 hn)
  · rw [ofBytes?_eq, child]

/-- Elements that are all alike have names of their own. A zero in front, a sign, a digit of another
script and a number that would be an index if it wrapped around at a word are no names. -/
theorem elements_named_once_alike :
    (List.replicate 11 Value.null).length < wordBound ∧
    (sequence (List.replicate 11 .null)).child "10" = .scalar .null ∧
    (∃! key, IsName (List.replicate 11 .null) 10 key) ∧
    (∀ key ∈ ["", "01", "+1", "-1", "1 ", "\u0661"],
      (sequence (List.replicate 11 .null)).child key = missing) ∧
    (sequence (List.replicate 11 .null)).child "18446744073709551617" = missing ∧
    ofOption ((ofBytes? "10").bind fun i => (List.replicate 11 Value.null)[i]?) =
      .scalar .null := by
  have hlen : (List.replicate 11 Value.null).length < wordBound := by decide +kernel
  have hforms : ∀ key ∈ ["", "01", "+1", "-1", "1 ", "\u0661"], ¬IsCanonical key := by
    decide +kernel
  have htext : "18446744073709551617" = toString 18446744073709551617 := by decide +kernel
  obtain ⟨-, hchild, hname, hmissing, hbytes⟩ := elements_named_once hlen
  have hten : (sequence (List.replicate 11 .null)).child "10" = .scalar .null :=
    hchild 10 (by decide)
  exact ⟨hlen, hten, hname 10 (by decide), fun key hkey => hmissing key (.inl (hforms key hkey)),
    hmissing _ (.inr ⟨_, by decide, htext⟩), (hbytes "10").symm.trans hten⟩

end Excerpt.Node
