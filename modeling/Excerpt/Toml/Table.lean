import Excerpt.Toml.Value

/-!
# Building tables of TOML

* `Item` — what stands under a key while a document is read: a value, a table with the way in which
  it came about, or an array of tables;
* `Item.assign?` — a key with a value in a table; the tables on the way are made by dotted keys;
* `Item.open?` — the table of a header; the tables on the way are implied;
* `Item.toValue` — the value of an item.

A table is defined once: by a header, or by dotted keys in one place. A table that is only implied
by a header of one of its parts may get its own header later.
-/

namespace Excerpt.Toml

/-- How a table came about. -/
inductive Origin where
  | header
  | implied
  /-- It lies on the way of a dotted key. -/
  | dotted
  deriving DecidableEq, Repr

/-- What stands under a key while a document is read. -/
inductive Item where
  | value (v : Value)
  | table (origin : Origin) (entries : List (String × Item))
  /-- An array of tables, the last one first. -/
  | tables (last : List (String × Item)) (earlier : List (List (String × Item)))

namespace Item

/-- Set a key to a value, below tables that dotted keys make. Nothing is set twice, and a dotted key
leads neither into a table with a header of its own nor straight into one that is implied. -/
def assign? (value : Value) : (way : List String) → (key : String) → Entries Item →
    Option (Entries Item)
  | [], key, entries =>
    if (Entries.get? key entries).isSome then none
    else some (Entries.put key (.value value) entries)
  | step :: way, key, entries =>
    match Entries.get? step entries with
    | none =>
      (assign? value way key []).map fun sub => Entries.put step (.table .dotted sub) entries
    | some (.table .dotted sub) =>
      (assign? value way key sub).map fun sub => Entries.put step (.table .dotted sub) entries
    | some (.table .implied sub) =>
      if way.isEmpty then none
      else (assign? value way key sub).map fun sub => Entries.put step (.table .implied sub) entries
    | some (.tables last earlier) =>
      if way.isEmpty then none
      else
        (assign? value way key last).map fun last => Entries.put step (.tables last earlier) entries
    | some (.table .header _) | some (.value _) => none

/-- Change the entries of the table at the end of a way; the tables on the way are implied, and of
an array the last table counts. -/
def open? (change : Entries Item → Option (Entries Item)) : (way : List String) → Entries Item →
    Option (Entries Item)
  | [], entries => change entries
  | step :: way, entries =>
    match Entries.get? step entries with
    | none => (open? change way []).map fun sub => Entries.put step (.table .implied sub) entries
    | some (.table origin sub) =>
      (open? change way sub).map fun sub => Entries.put step (.table origin sub) entries
    | some (.tables last earlier) =>
      (open? change way last).map fun last => Entries.put step (.tables last earlier) entries
    | some (.value _) => none

mutual

def toValue : Item → Value
  | .value v => v
  | .table _ entries => .table (toValueE entries)
  | .tables last earlier => .arr (toValueL earlier ++ [.table (toValueE last)])

def toValueE : List (String × Item) → List (String × Value)
  | [] => []
  | (k, item) :: es => (k, toValue item) :: toValueE es

/-- The values of tables, the last of which comes first. -/
def toValueL : List (List (String × Item)) → List Value
  | [] => []
  | t :: ts => toValueL ts ++ [.table (toValueE t)]

end

end Item

end Excerpt.Toml
