import CodexAgents.Lib.Text
import CodexAgents.Lib.Assoc

/-!
# TOML values, and what is read from them

A document is a table, with the order of its keys kept.  What a program reads from a value is given
by a reader, which accepts the value or not (`Value → Bool`), and readers are put together the way
they are derived from type declarations:

* a map has values of one kind under any keys;
* a structure has fields, each of which may be optional, have other names, or be filled in with a
  default; other keys are ignored, refused, or read as a map;
* a structure is also read from an array, its fields by their positions, unless it takes in all
  keys.

A table that has a key twice is refused.
-/

namespace Toml

open Text List Assoc

/-- A value of a document. -/
inductive Value where
  | string (text : Str)
  | integer (n : Int)
  | float (text : Str)
  | boolean (b : Bool)
  | datetime (text : Str)
  | array (items : List Value)
  | table (entries : List (Str × Value))

/-- A table, with its keys in order. -/
abbrev Table := List (Str × Value)

namespace Value

/-- The table, if it is one. -/
def asTable : Value → Option Table
  | table t => some t
  | _ => none

/-- The text, if it is one. -/
def asString : Value → Option Str
  | string s => some s
  | _ => none

@[simp] lemma asTable_eq_some_iff {v t} : v.asTable = some t ↔ v = table t := by
  cases v <;> simp [asTable]

@[simp] lemma asString_eq_some_iff {v s} : v.asString = some s ↔ v = string s := by
  cases v <;> simp [asString]

end Value

/-! ## Readers of values that are not tables -/

/-- What a type accepts. -/
abbrev Reader := Value → Bool

/-- Everything. -/
def anything : Reader := fun _ => true

/-- No value at all. -/
def nothing : Reader := fun _ => false

/-- A switch. -/
def bool : Reader
  | .boolean _ => true
  | _ => false

/-- A text with a property. -/
def text (p : Str → Bool) : Reader
  | .string s => p s
  | _ => false

/-- Any text. -/
def str : Reader := text fun _ => true

/-- The name of a value of an enumeration: a text, or the one key of a table with an empty table
under it. -/
def Value.variant : Value → Option Str
  | .string s | .table [(s, .table [])] => some s
  | _ => none

/-- One of the names of an enumeration. -/
def oneOf (names : List String) : Reader :=
  fun v => v.variant.any (names.map String.toList).contains

/-- An integer below a bound. -/
def below (bound : Nat) : Reader
  | .integer n => 0 ≤ n && n < bound
  | _ => false

/-- An array of such values. -/
def list (r : Reader) : Reader
  | .array items => items.all r
  | _ => false

/-! ## Maps and structures -/

/-- A table of such values, without repeated keys. -/
def map (r : Reader) : Reader
  | .table t => decide (keys t).Nodup && t.all fun e => r e.2
  | _ => false

/-- A field of a structure. -/
structure Field where
  name : Str
  aliases : List Str
  reads : Reader
  /-- The key has to be there. -/
  required : Bool
  /-- The position may be left out. -/
  defaulted : Bool

namespace Field

variable (f : Field)

/-- All names of a field. -/
def names : List Str := f.name :: f.aliases

variable (name : String) (r : Reader)

/-- A field that may be missing. -/
def optional : Field := ⟨name.toList, [], r, false, false⟩

/-- A field that has to be there. -/
def mandatory : Field := ⟨name.toList, [], r, true, false⟩

/-- A field with a default. -/
def default : Field := ⟨name.toList, [], r, false, true⟩

/-- One more name. -/
def withAlias (name : String) : Field := { f with aliases := name.toList :: f.aliases }

/-- The field is there if it has to be, and only under one name. -/
def found (t : Table) : Bool :=
  (!f.required || f.names.any fun k => has k t) &&
    decide ((f.names.filter fun k => has k t).length ≤ 1)

end Field

variable (fields : List Field) (rest : Reader)

/-- How the value of a key is read. -/
def readerOf (k : Str) : Reader :=
  match fields.find? fun f => f.names.contains k with
  | some f => f.reads
  | none => rest

/-- All keys are read. -/
def entries (t : Table) : Bool :=
  decide (keys t).Nodup && t.all fun e => readerOf fields rest e.1 e.2

/-- A structure with the reader of its other keys, as a table. -/
def fieldsOf (t : Table) : Bool := entries fields rest t && fields.all fun f => f.found t

/-- The fields by their positions. -/
def positions : List Field → List Value → Bool
  | fields, [] => fields.all Field.defaulted
  | [], _ :: _ => false
  | f :: fields, v :: items => f.reads v && positions fields items

/-- A structure, as a table or by position. -/
def struct : Reader
  | .table t => fieldsOf fields rest t
  | .array items => positions fields items
  | _ => false

/-- A structure that takes in all keys. -/
def flattened : Reader
  | .table t => fieldsOf fields rest t
  | _ => false

/-! ## Reading by keys -/

section

variable {fields : List Field} {rest : Reader} {t : Table}

lemma map_table_iff {r} : map r (.table t) ↔
    (keys t).Nodup ∧ ∀ k v, get k t = some v → r v := by
  rw [map, Bool.and_eq_true, decide_eq_true_iff, all_eq_true]
  exact and_congr_right fun h => forall_mem_iff h (P := fun _ v => r v = true)

lemma entries_iff : entries fields rest t ↔
    (keys t).Nodup ∧ ∀ k v, get k t = some v → readerOf fields rest k v := by
  rw [entries, Bool.and_eq_true, decide_eq_true_iff, all_eq_true]
  exact and_congr_right fun h =>
    forall_mem_iff h (P := fun k v => readerOf fields rest k v = true)

lemma fieldsOf_iff : fieldsOf fields rest t ↔ entries fields rest t ∧ ∀ f ∈ fields, f.found t := by
  rw [fieldsOf, Bool.and_eq_true, all_eq_true]

end

end Toml
