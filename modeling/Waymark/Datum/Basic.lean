namespace Waymark

/-- A tree of plain data, in which whole numbers are told from others. No record has two fields of
one name. -/
inductive Datum
  | null
  | bool (b : Bool)
  | whole (n : Int)
  | real (x : Float)
  | text (s : String)
  | list (items : List Datum)
  | record (fields : List (String × Datum))

namespace Datum

/-- A whole number from zero up to, but not including, `bound`. -/
def nat? (bound : Nat) : Datum → Option Nat
  | whole n => if 0 ≤ n ∧ n < bound then some n.toNat else none
  | _ => none

/-- Any number, rounded to the nearest floating-point number. -/
def float? : Datum → Option Float
  | whole n => some (Float.ofInt n)
  | real x => some x
  | _ => none

def list? : Datum → Option (List Datum)
  | list items => some items
  | _ => none

/-- One of several named values, given by its name or by a record that holds null under its name and
nothing else. -/
def choice? {α : Type} (names : List (String × α)) : Datum → Option α
  | text name => names.lookup name
  | record [(name, null)] => names.lookup name
  | _ => none

/-- Fields by name, from a record, which may have others too, or from a list in which they stand in
order and which has no more of them. -/
def fields? (names : List String) : Datum → Option (List (Option Datum))
  | record fields => some (names.map fun name => fields.lookup name)
  | list items =>
    if items.length ≤ names.length then some (names.mapIdx fun i _ => items[i]?) else none
  | _ => none

end Datum

/-- Types with a written form. -/
class Coded (α : Type) where
  encode : α → Datum
  decode? : Datum → Option α

namespace Coded

/-- A field that has to be there. -/
def required? {α : Type} [Coded α] (field : Option Datum) : Option α := field >>= decode?

/-- A field with a value to fall back on if it is absent, though not if it is malformed. -/
def optional? {α : Type} [Coded α] (fallback : α) : Option Datum → Option α
  | some d => decode? d
  | none => some fallback

instance : Coded UInt32 where
  encode n := .whole n.toNat
  decode? d := (d.nat? UInt32.size).map UInt32.ofNat

instance : Coded Float where
  encode := .real
  decode? := Datum.float?

instance {α : Type} [Coded α] : Coded (List α) where
  encode as := .list (as.map encode)
  decode? d := d.list? >>= List.mapM decode?

end Coded

end Waymark
