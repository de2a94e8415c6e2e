import Excerpt.Entries

/-!
# Values of TOML

* `Value` — a value; numbers with a fraction, dates and times are kept as their text.
-/

namespace Excerpt.Toml

inductive Value where
  | str (s : String)
  | int (n : Int)
  | bool (b : Bool)
  /-- A number with a fraction or an exponent, or one of the words for infinity and no number. -/
  | float (text : String)
  | datetime (text : String)
  | arr (items : List Value)
  | table (entries : List (String × Value))
  deriving Inhabited

end Excerpt.Toml
