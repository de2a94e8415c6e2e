import Excerpt.Extraction
import Excerpt.Proofs.Demands
import Excerpt.Proofs.Listing

/-!
# Restriction to keys

A specification that only lists keys restricts a document to them: what stands below these keys is
taken as it is, and nothing else.

* `flat` — the selections of keys at the root of a document;
* `parse_flat` — a list of keys is read as these, with blanks anywhere;
* `get?_foldl_select_flat` — what they take;
* `extract_keys` — both together, and that all keys of an object give the object.
-/

namespace Excerpt

open Json

def flat (keys : List Spec.Key) : List Selection := keys.map fun k => ⟨[], k.text⟩

namespace Spec

variable {o : Options} {keys : List Key}

theorem legible_flat {s : Selection} (hs : s ∈ flat keys) : Legible o s := by
  obtain ⟨k, -, rfl⟩ := List.mem_map.1 hs
  exact ⟨steps_nil, k.isKey.2, fun hempty => k.isKey.1 (String.toList_eq_nil_iff.2 hempty)⟩

theorem listing_flat (keys : List Key) :
    (⟨flat keys⟩ : KeySpec).listing = ",".intercalate (texts keys) := by
  have hdotted : ∀ k : Key, (⟨[], k.text⟩ : Selection).dotted = k.text := fun _ =>
    String.intercalate_singleton
  rw [KeySpec.listing, flat, List.map_map, texts]
  exact congrArg _ (List.map_congr_left fun k _ => hdotted k)

/-- **A list of keys is read as they stand**, whatever the options, and with blanks anywhere. -/
theorem parse_flat {text : String}
    (ht : Text.compact text = (",".intercalate (texts keys)).toList) :
    KeySpec.parse o text = .ok ⟨flat keys⟩ := by
  refine parse_of_compact (fun s => legible_flat) ?_
  rw [ht, ← listing_flat, toList_listing]

end Spec

namespace Projection

theorem eq_take_of_mem_demands_flat {keys : List Spec.Key} {key : String} {t : Demand}
    (ht : t ∈ demands key (flat keys)) : t = .take := by
  obtain ⟨s, hs, -, rfl⟩ := mem_demands.1 ht
  obtain ⟨k, -, rfl⟩ := List.mem_map.1 hs
  rfl

/-- **The keys take what stands below them**, however often each is listed. -/
theorem get?_foldl_select_flat (node : Node) (keys : List Spec.Key) (key : String) :
    Entries.get? key ((flat keys).foldl (select node) []) =
      if key ∈ Spec.texts keys then (node.child key).value? else none := by
  have hmem : Demand.take ∈ demands key (flat keys) ↔ key ∈ Spec.texts keys := by
    simp [take_mem_demands, flat, Spec.texts]
  rw [get?_foldl_select, Entries.get?_nil]
  split
  next hkey =>
    exact foldl_meet_takes_none _ (fun t => eq_take_of_mem_demands_flat)
      (List.ne_nil_of_mem (hmem.2 hkey))
  next hkey =>
    have hnone : demands key (flat keys) = [] := by
      refine List.eq_nil_iff_forall_not_mem.2 fun t ht => hkey (hmem.1 ?_)
      rwa [eq_take_of_mem_demands_flat ht] at ht
    rw [hnone]
    rfl

end Projection

open Projection Spec

/-- **A list of keys restricts a document to them.** Whatever the options, and with blanks anywhere,
the excerpt has what stands below each of the keys, where something does, and no other entry. So all
keys of an object give the object itself. -/
theorem extract_keys {o : Options} {keys : List Key} {text : String}
    (ht : Text.compact text = (",".intercalate (texts keys)).toList) :
    (∀ d : Value, ∃ entries, extract o d text = .ok (.obj entries) ∧ Entries.Sorted entries ∧
      ∀ key v, (key, v) ∈ entries ↔
        key ∈ texts keys ∧ ((Node.of d).child key).value? = some v) ∧
    ∀ entries : Entries Value, Entries.Sorted entries →
      (∀ key, key ∈ Entries.keys entries ↔ key ∈ texts keys) →
      extract o (.obj entries) text = .ok (.obj entries) := by
  have hextract : ∀ d, extract o d text =
      .ok (.obj ((flat keys).foldl (select (.of d)) [])) :=
    extract_eq_ok (parse_flat ht)
  have hsorted : ∀ d, Entries.Sorted ((flat keys).foldl (select (.of d)) []) := fun d =>
    sorted_foldl_select _ Entries.sorted_nil
  refine ⟨fun d => ⟨_, hextract d, hsorted d, fun key v => ?_⟩, fun entries hs hkeys => ?_⟩
  · have hget := get?_foldl_select_flat (.of d) keys key
    constructor
    · intro hmem
      rw [Entries.get?_of_mem (hsorted d) hmem] at hget
      split at hget
      next hkey => exact ⟨hkey, hget.symm⟩
      next => cases hget
    · rintro ⟨hkey, hv⟩
      rw [if_pos hkey, hv] at hget
      exact Entries.mem_of_get? hget
  · rw [hextract, Entries.ext (hsorted _) hs fun key => ?_]
    rw [get?_foldl_select_flat, Node.of, Node.child, Node.value?_ofOption]
    split
    next => rfl
    next hkey =>
      refine (Entries.get?_eq_none_iff.2 fun v hv => hkey ((hkeys key).1 ?_)).symm
      exact List.mem_map_of_mem hv

/-- Blanks inside a key, a key that stands twice, and a limit of zero: below an array a key is an
index, and all keys of an object give the object. -/
theorem extract_keys_with_blanks : ∃ one ab : Key, texts [one, ab, one] = ["1", "ab", "1"] ∧
    Text.compact "1 , a\u00a0b,\n1" = (",".intercalate (texts [one, ab, one])).toList ∧
    (∃ entries, extract ⟨.strict, 0⟩ (.arr [.null, .obj []]) "1 , a\u00a0b,\n1" =
        .ok (.obj entries) ∧ ("1", .obj []) ∈ entries ∧ ∀ v, ("ab", v) ∉ entries) ∧
    extract ⟨.strict, 0⟩ (.obj [("1", .null), ("ab", .arr [])]) "1 , a\u00a0b,\n1" =
      .ok (.obj [("1", .null), ("ab", .arr [])]) := by
  let one : Key := ⟨"1", by decide +kernel⟩
  let ab : Key := ⟨"ab", by decide +kernel⟩
  have ht : Text.compact "1 , a\u00a0b,\n1" = (",".intercalate (texts [one, ab, one])).toList := by
    decide +kernel
  have hsorted : Entries.Sorted [("1", Value.null), ("ab", .arr [])] := by
    unfold Entries.Sorted
    decide +kernel
  obtain ⟨harray, hobject⟩ := extract_keys (o := ⟨.strict, 0⟩) ht
  refine ⟨one, ab, rfl, ht, ?_, hobject _ hsorted fun key => ?_⟩
  · obtain ⟨entries, hentries, -, hmem⟩ := harray (.arr [.null, .obj []])
    exact ⟨entries, hentries, (hmem _ _).2 ⟨List.mem_cons_self, rfl⟩,
      fun v hv => absurd ((hmem _ _).1 hv).2 nofun⟩
  · simp [Entries.keys, texts, one, ab]
    tauto

end Excerpt
