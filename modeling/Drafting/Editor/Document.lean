import Drafting.Scalar

namespace Drafting

/-!
# Documents

What an editor sends: trees of objects, lists, texts and numbers.  The file gives the ways to take
one apart.  Each of them fails on a document of another shape; fields that are not asked for are
ignored.

A record with fixed fields has two spellings: an object, whose fields have names and come in any
order, and a list, whose items are the fields in the order of the record (`Document.record?`).
-/

/-- A document over scalars `F`.  A whole number that is not negative and fits into 64 bits is a
    `natural`; other numbers are scalars. -/
inductive Document (F : Type) where
  | null
  | bool (value : Bool)
  | natural (n : Nat)
  | number (x : F)
  | text (s : String)
  | list (items : List (Document F))
  | object (fields : List (String × Document F))

/-- The fields of an object or of a record, to be read by name. -/
abbrev Fields (F : Type) := List (String × Document F)

namespace Fields

variable {F α : Type}

/-- The field `name`; of several the last counts. -/
def get? (fields : Fields F) (name : String) : Option (Document F) :=
  (fields.reverse.find? (·.1 == name)).map Prod.snd

/-- A field that has to be there. -/
def required (fields : Fields F) (name : String) (read : Document F → Option α) : Option α :=
  (fields.get? name).bind read

/-- A field that has a default. -/
def optional (fields : Fields F) (name : String) (read : Document F → Option α) (default : α) :
    Option α :=
  match fields.get? name with
  | some d => read d
  | none => some default

/-- A field that may be null or missing. -/
def nullable (fields : Fields F) (name : String) (read : Document F → Option α) :
    Option (Option α) :=
  match fields.get? name with
  | some .null | none => some none
  | some d => (read d).map some

/-- All fields, as a keyed list would be read from them: names with their values, in order. -/
def entries? (fields : Fields F) (read : Document F → Option α) : Option (List (String × α)) :=
  fields.mapM fun (name, d) => (read d).map (name, ·)

end Fields

namespace Document

variable {F : Type}

/-- The value of a number. -/
def scalar? [Scalar F] : Document F → Option F
  | .natural n => some (Scalar.ofNat n)
  | .number x => some x
  | _ => none

/-- The characters of a text. -/
def text? : Document F → Option String
  | .text s => some s
  | _ => none

/-- A natural number. -/
def natural? : Document F → Option Nat
  | .natural n => some n
  | _ => none

/-- The items of a list, each read with `item`. -/
def listOf? {α : Type} (item : Document F → Option α) : Document F → Option (List α)
  | .list items => items.mapM item
  | _ => none

/-- The fields of an object. -/
def fields? : Document F → Option (Fields F)
  | .object fields => some fields
  | _ => none

/-- The fields of a record that has the fields `names`.  A list of them may end early and so leave
    out the last fields, but it may not have more items than the record has fields. -/
def record? (names : List String) : Document F → Option (Fields F)
  | .object fields => some fields
  | .list items => if items.length ≤ names.length then some (names.zip items) else none
  | _ => none

/-- The name of one of several cases: a text, or an object whose only field has that name and
    holds nothing. -/
def case? : Document F → Option String
  | .text name => some name
  | .object [(name, .null)] => some name
  | _ => none

/-- A record whose field `type` tells which fields the others are: that field, and the record of
    the others.  In a list it comes first. -/
def tagged? : Document F → Option (String × Document F)
  | .object fields => do
    return (← Fields.required fields "type" text?, .object fields)
  | .list (tag :: items) => do return (← tag.text?, .list items)
  | _ => none

end Document

end Drafting
