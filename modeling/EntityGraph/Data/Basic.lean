import EntityGraph.Dict
import EntityGraph.Source

/-!
# Stored data

Types, documents and locations can be stored as plain data and read back. A record is
stored with every field under a fixed name; a choice is stored as its name alone, or as a record with
one field that holds the content; an absent value is stored as null.

Reading is generous where nothing can go wrong: fields that are not asked for are passed over, an
absent value may be left out, and a record of its own may be given as the list of its fields.
Everything else has to be there and has to have the right form.
-/

namespace EntityGraph

/-- Plain data. -/
inductive Data where
  | null
  | bool (b : Bool)
  | nat (n : Nat)
  /-- A number that is not a natural number, by its text. -/
  | number (text : String)
  | str (s : String)
  | list (items : List Data)
  | record (fields : List (String × Data))
deriving Inhabited

namespace Data

mutual

/-- How deep lists and records are nested. -/
def depth : Data → Nat
  | null | bool _ | nat _ | number _ | str _ => 0
  | list items => depthItems items + 1
  | record fields => depthFields fields + 1

/-- The depth of the deepest item. -/
def depthItems : List Data → Nat
  | [] => 0
  | d :: rest => max d.depth (depthItems rest)

/-- The depth of the deepest field. -/
def depthFields : List (String × Data) → Nat
  | [] => 0
  | (_, d) :: rest => max d.depth (depthFields rest)

end

/-! ## Writing -/

/-- An absent value is stored as null. -/
def ofOption {α : Type} (encode : α → Data) : Option α → Data
  | none => null
  | some a => encode a

/-- A text that may be absent. -/
def ofText? : Option String → Data := ofOption str

/-- A dictionary is stored as a record with its keys as field names. -/
def ofDict {ν : Type} (encode : ν → Data) (d : Dict Name ν) : Data :=
  record (d.entries.map fun (k, v) => (k, encode v))

/-- Names are stored as texts. -/
def ofNames (names : List Name) : Data := list (names.map str)

/-- A choice with content. -/
def choice (name : String) (content : Data) : Data := record [(name, content)]

/-! ## Reading -/

/-- A text. -/
def str? : Data → Option String
  | str s => some s
  | _ => none

/-- A truth value. -/
def bool? : Data → Option Bool
  | bool b => some b
  | _ => none

/-- A natural number below `2 ^ 64`. -/
def word? : Data → Option UInt64
  | nat n => if n < UInt64.size then some n.toUInt64 else none
  | _ => none

/-- Null, and nothing else. -/
def null? : Data → Option Unit
  | null => some ()
  | _ => none

/-- A list of items. -/
def list? {α : Type} (item : Data → Option α) : Data → Option (List α)
  | list items => items.mapM item
  | _ => none

/-- A dictionary of values. -/
def dict? {ν : Type} (value : Data → Option ν) : Data → Option (Dict Name ν)
  | record fields => do
    let entries ← fields.mapM fun (k, d) => do return (k, ← value d)
    return .ofList entries
  | _ => none

/-- The fields of the given names of a record. -/
def fields? (names : List String) : Data → Option (List (Option Data))
  | record fields => some (names.map fun name => fields.lookup name)
  | _ => none

/-- The fields of the given names, of a record in any order or of a list in this order. -/
def slots? (names : List String) : Data → Option (List (Option Data))
  | list items => if items.length = names.length then some (items.map some) else none
  | d => d.fields? names

/-- A value that may be absent or null. -/
def option? {α : Type} (value : Data → Option α) : Option Data → Option (Option α)
  | none | some null => some none
  | some d => (value d).map some

/-- The name of a choice, and its content if it has one. -/
def choice? : Data → Option (String × Option Data)
  | str name => some (name, none)
  | record [(name, content)] => some (name, some content)
  | _ => none

/-- Whether a choice that has no content is given without one. -/
def bare : Option Data → Option Unit
  | none | some null => some ()
  | some _ => none

end Data

end EntityGraph
