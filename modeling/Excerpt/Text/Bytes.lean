/-!
# Places in a text by bytes

* `byteSize` — the number of bytes of characters in UTF-8;
* `splitBytes?` — characters cut behind a number of bytes, if a character ends there;
* `slice?` — the characters between two places.
-/

namespace Excerpt.Text

def byteSize : List Char → Nat
  | [] => 0
  | c :: cs => c.utf8Size + byteSize cs

/-- The characters in front of and behind the place `n` bytes from the start, if one begins there or
the text ends there. -/
def splitBytes? : (n : Nat) → List Char → Option (List Char × List Char)
  | 0, cs => some ([], cs)
  | _ + 1, [] => none
  | n + 1, c :: cs =>
    if c.utf8Size ≤ n + 1 then
      (splitBytes? (n + 1 - c.utf8Size) cs).map fun (front, rest) => (c :: front, rest)
    else none

/-- The characters between two places, which are counted in bytes from the start. -/
def slice? (cs : List Char) (first last : Nat) : Option (List Char) :=
  (splitBytes? first cs).bind fun (_, rest) =>
    (splitBytes? (last - first) rest).map fun (front, _) => front

end Excerpt.Text
