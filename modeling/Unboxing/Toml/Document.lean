import Unboxing.Toml.Value

/-
  This file defines a TOML document while it is read: tables
  under tables, each open for entries as long as the rules of
  the format allow it.
-/

namespace Unboxing.Toml

/- How a table came to be. -/
inductive Origin where
  | header
  | implied
  | dotted
deriving DecidableEq, Repr

/- What a key of an unfinished document stands for. -/
inductive Item where
  | value (value : Value)
  | table (origin : Origin) (entries : List (String × Item))
  | rows (rows : List (List (String × Item)))

/- The entries of an unfinished table. -/
abbrev Items := List (String × Item)

namespace Items

/- Put an item in the place of a key, or at the end. -/
def set (items : Items) (key : String) (item : Item) : Items :=
  match items with
  | [] => [(key, item)]
  | (k, old) :: rest =>
      if k = key then (key, item) :: rest else (k, old) :: set rest key item

/-
  Change the table at a path. Missing tables are made, and of
  an array of tables the last one is meant. A dotted key may
  only go through tables that no header has defined.
-/
def within (items : Items) (path : List String) (dotted : Bool)
    (change : Origin → Items → Option Items) (here : Origin) : Option Items :=
  match path with
  | [] => change here items
  | key :: path =>
      match items.lookup key with
      | none => do
          let origin := if dotted then .dotted else .implied
          let entries ← within [] path dotted change origin
          return items.set key (.table origin entries)
      | some (.value _) => none
      | some (.table origin entries) => do
          if dotted && origin == .header then
            none
          else
            let entries ← within entries path dotted change origin
            return items.set key (.table origin entries)
      | some (.rows rows) => do
          let row ← rows.getLast?
          let row ← within row path dotted change .header
          return items.set key (.rows (rows.dropLast ++ [row]))

/- Open the table of a header: a new one, or one only implied so far. -/
def openTable (items : Items) (key : String) : Option Items :=
  match items.lookup key with
  | none => some (items.set key (.table .header []))
  | some (.table .implied entries) => some (items.set key (.table .header entries))
  | some _ => none

/- Open a new table at the end of an array of tables. -/
def openRow (items : Items) (key : String) : Option Items :=
  match items.lookup key with
  | none => some (items.set key (.rows [[]]))
  | some (.rows rows) => some (items.set key (.rows (rows ++ [[]])))
  | some _ => none

/- Enter a value under a new key, at the end of a dotted path. -/
def insert (items : Items) (path : List String) (key : String)
    (value : Value) : Option Items :=
  items.within path true
    (fun origin entries =>
      if path ≠ [] ∧ origin ≠ .dotted then
        none
      else
        match entries.lookup key with
        | none => some (entries.set key (.value value))
        | some _ => none)
    .header

end Items

mutual

/- The value of a finished item. -/
def Item.toValue : Item → Value
  | .value value => value
  | .table _ entries => .table (Items.toEntries entries)
  | .rows rows => .array (Items.rowsToValues rows)

/- The entries of a finished table. -/
def Items.toEntries : List (String × Item) → List (String × Value)
  | [] => []
  | (key, item) :: rest => (key, item.toValue) :: Items.toEntries rest

/- The tables of a finished array of tables. -/
def Items.rowsToValues : List (List (String × Item)) → List Value
  | [] => []
  | row :: rows => .table (Items.toEntries row) :: Items.rowsToValues rows

end

end Unboxing.Toml
