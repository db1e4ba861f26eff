import Unboxing.Mapping.Basic
import Unboxing.Toml.Reader

/-
  This file defines the reading of mappings from TOML. A
  record is a table with its fields as keys, where unknown keys
  say nothing, or an array with its fields in order.
-/

namespace Unboxing

namespace Toml.Value

def string? : Value → Option String
  | .string text => some text
  | _ => none

def integer? : Value → Option Int
  | .integer value => some value
  | _ => none

def boolean? : Value → Option Bool
  | .boolean value => some value
  | _ => none

/- The items of an array, each of one form. -/
def array? {α : Type} (item? : Value → Option α) : Value → Option (List α)
  | .array items => items.mapM item?
  | _ => none

/- The fields of a record by their names. -/
def record? (fields : List String) : Value → Option Table
  | .table entries => some entries
  | .array items => some (fields.zip items)
  | _ => none

end Toml.Value

namespace Toml.Table

variable {α : Type}

/- A field that must be there. -/
def required? (table : Table) (key : String) (read? : Value → Option α) : Option α :=
  (table.lookup key).bind read?

/- A field that stands for a default if it is not there. -/
def withDefault? (table : Table) (key : String) (default : α)
    (read? : Value → Option α) : Option α :=
  match table.lookup key with
  | none => some default
  | some value => read? value

/- A field that may be missing. -/
def optional? (table : Table) (key : String)
    (read? : Value → Option α) : Option (Option α) :=
  match table.lookup key with
  | none => some none
  | some value => (read? value).map some

end Toml.Table

open Toml Toml.Value

def BindingEntry.ofValue? (value : Value) : Option BindingEntry := do
  let table ← value.record? ["source", "target"]
  let source ← Table.required? table "source" string?
  let target ← Table.required? table "target" string?
  return ⟨source, target⟩

/- The fields of a value class, in order. -/
def ValueClassEntry.fields : List String :=
  [ "class", "null_value", "box", "unbox", "array_box", "array_unbox",
    "is_null", "identity_equals", "method" ]

def ValueClassEntry.ofValue? (value : Value) : Option ValueClassEntry := do
  let table ← value.record? ValueClassEntry.fields
  let name ← Table.required? table "class" string?
  let nullValue ← Table.withDefault? table "null_value" 0 integer?
  let box ← Table.required? table "box" string?
  let unbox ← Table.required? table "unbox" string?
  let arrayBox ← Table.optional? table "array_box" string?
  let arrayUnbox ← Table.optional? table "array_unbox" string?
  let isNull ← Table.required? table "is_null" string?
  let identityEquals ← Table.required? table "identity_equals" string?
  let methods ← Table.withDefault? table "method" [] (array? BindingEntry.ofValue?)
  return ⟨name, nullValue, box, unbox, arrayBox, arrayUnbox, isNull,
    identityEquals, methods⟩

namespace Mapping

/- Read a mapping from the table of a document. -/
def ofTable? (table : Table) : Option Mapping := do
  let scope ← Table.withDefault? table "rewrite_scope" [] (array? string?)
  let suppress ← Table.withDefault? table "suppress" [] (array? string?)
  let strict ← Table.withDefault? table "strict" false boolean?
  let valueClasses ← Table.withDefault? table "value_type" []
    (array? ValueClassEntry.ofValue?)
  let genericMethods ← Table.withDefault? table "generic_method" []
    (array? BindingEntry.ofValue?)
  return ⟨scope, suppress, strict, valueClasses, genericMethods⟩

/- Read a mapping from the text of a document. -/
def parse (text : String) : Except MappingError Mapping :=
  match (Toml.parse? text).bind ofTable? with
  | some mapping => .ok mapping
  | none => .error .unreadable

end Mapping

end Unboxing
