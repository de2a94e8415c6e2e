import Excerpt.Selection
import Excerpt.Spec.Key

/-!
# The grammar of specifications

A group is one or more terms joined by commas; a term is one or more keys joined by dots, with or
without a group in brackets behind the last key.

* `Term`, `Group` — the trees of the grammar;
* `Group.print` — the text of a tree;
* `Group.selections` — its selections from left to right, one for each term without a group;
* `Group.Fits` — no dot and no bracket of the text has more keys before it than a limit allows.
-/

namespace Excerpt.Spec

mutual

/-- A term: keys joined by dots, and perhaps a group below the last of them. -/
inductive Term where
  /-- A term without a group, which selects `key` below `steps`. -/
  | plain (steps : List Key) (key : Key)
  /-- A term with a group, all of whose selections lie below `steps` and `key`. -/
  | grouped (steps : List Key) (key : Key) (group : Group)

inductive Group where
  | one (term : Term)
  | more (term : Term) (rest : Group)

end

def texts (keys : List Key) : List String := keys.map Key.text

/-- Keys with a dot behind each of them. -/
def printSteps (steps : List Key) : List Char := steps.flatMap fun k => k.chars ++ ['.']

mutual

def Term.print : Term → List Char
  | .plain steps key => printSteps steps ++ key.chars
  | .grouped steps key group => printSteps steps ++ key.chars ++ '[' :: (Group.print group ++ [']'])

def Group.print : Group → List Char
  | .one term => Term.print term
  | .more term rest => Term.print term ++ ',' :: Group.print rest

end

mutual

/-- The selections of a term below the keys of the enclosing terms. -/
def Term.selections (above : List String) : Term → List Selection
  | .plain steps key => [⟨above ++ texts steps, key.text⟩]
  | .grouped steps key group => Group.selections (above ++ texts steps ++ [key.text]) group

/-- The selections of a group below the keys of the enclosing terms. -/
def Group.selections (above : List String) : Group → List Selection
  | .one term => Term.selections above term
  | .more term rest => Term.selections above term ++ Group.selections above rest

end

mutual

/-- With `depth` keys above a term, at most `limit` keys stand before each dot and each bracket. -/
def Term.Fits (limit depth : Nat) : Term → Prop
  | .plain steps _ => depth + steps.length ≤ limit
  | .grouped steps _ group =>
    depth + steps.length + 1 ≤ limit ∧ Group.Fits limit (depth + steps.length + 1) group

/-- With `depth` keys above a group, at most `limit` keys stand before each dot and each bracket. -/
def Group.Fits (limit depth : Nat) : Group → Prop
  | .one term => Term.Fits limit depth term
  | .more term rest => Term.Fits limit depth term ∧ Group.Fits limit depth rest

end

/-- Every term of a group selects something. -/
theorem Group.selections_ne_nil (above : List String) : (g : Group) → g.selections above ≠ []
  | .one (.plain _ _) => by simp [Group.selections, Term.selections]
  | .one (.grouped _ _ g) => by
    simpa [Group.selections, Term.selections] using Group.selections_ne_nil _ g
  | .more t g => by
    simp [Group.selections, Group.selections_ne_nil above g]

end Excerpt.Spec
