/-!
# JSON values

The data format that documents and errors are exchanged in. Numbers are natural numbers:
nothing that is exchanged here is negative or fractional. The fields of an object keep
the order in which they are written.

A decoder asks for fields by name, so it does not depend on their order. A field that an
object does not have reads as `null`: an optional part may be left out.

Whatever is written here has each of its fields once. An object from elsewhere may have a
field twice, which a strict decoder refuses. The decoders here are not strict about it:
they take the first of the two and do not see the other.

## Main statements

* `field_cons_self`, `field_cons_of_ne`: how a field is found.
-/

namespace BemMarkup

/-- A JSON value. -/
inductive Json where
  /-- The value `null`. -/
  | null
  /-- A truth value. -/
  | bool (value : Bool)
  /-- A natural number. -/
  | num (value : Nat)
  /-- A text. -/
  | str (value : String)
  /-- A list of values. -/
  | arr (items : List Json)
  /-- An object: its fields, each with its name. -/
  | obj (fields : List (String × Json))
deriving Inhabited

namespace Json

/-! ## Fields -/

/-- The field of a name among the fields of an object; `null` if there is none. If there is
more than one, it is the first of them. A strict decoder refuses such an object. -/
def field (name : String) : List (String × Json) → Json
  | [] => .null
  | (key, value) :: fields => if key = name then value else field name fields

@[simp] theorem field_nil (name : String) : field name [] = .null := rfl

@[simp] theorem field_cons_self (name : String) (value : Json) (fields : List (String × Json)) :
    field name ((name, value) :: fields) = value := by
  simp [field]

theorem field_cons_of_ne {name key : String} (value : Json) (fields : List (String × Json))
    (h : key ≠ name) : field name ((key, value) :: fields) = field name fields := by
  simp [field, h]

/-! ## Plain values -/

/-- The truth value that a JSON value is. -/
def bool? : Json → Option Bool
  | .bool value => some value
  | _ => none

/-- The natural number that a JSON value is. -/
def num? : Json → Option Nat
  | .num value => some value
  | _ => none

/-- The text that a JSON value is. -/
def str? : Json → Option String
  | .str value => some value
  | _ => none

/-- The list that a JSON value is. -/
def arr? : Json → Option (List Json)
  | .arr items => some items
  | _ => none

/-- The fields of the object that a JSON value is. -/
def obj? : Json → Option (List (String × Json))
  | .obj fields => some fields
  | _ => none

/-! ## Optional values -/

/-- A value that may be missing, written as `null` if it is. -/
def ofOption {α : Type} (encode : α → Json) : Option α → Json
  | none => .null
  | some value => encode value

/-- Reads a value that may be missing. -/
def option? {α : Type} (decode : Json → Option α) : Json → Option (Option α)
  | .null => some none
  | value => (decode value).map some

/-- Reads a list of values. -/
def list? {α : Type} (decode : Json → Option α) (value : Json) : Option (List α) :=
  value.arr?.bind fun items => items.mapM decode

@[simp] theorem ofOption_none {α : Type} (encode : α → Json) : ofOption encode none = .null := rfl

@[simp] theorem ofOption_some {α : Type} (encode : α → Json) (value : α) :
    ofOption encode (some value) = encode value := rfl

end Json

end BemMarkup
