import EmbeddedLisp.Evaluation.Error

/-!
# Access by key

Sequences are indexed by integers from zero, and so are maps, which give an
entry as a pair. A string or symbol finds the first entry of a map with that
key, or the field of a table. A chain of keys is followed from left to right.
-/

set_option autoImplicit false

namespace EmbeddedLisp.Evaluation
variable {α : Type}

/-- A string key matches that string, and a symbol key that symbol, bare or quoted. -/
def keyMatches : Value → Value → Bool
  | .str a, .str b => a = b
  | .symbol a, .symbol b => a = b
  | .quote (.symbol a), .symbol b => a = b
  | _, _ => false

def item (whole : Value) (items : List α) (index : Int64) : Except Error α :=
  match if 0 ≤ index.toInt then items[index.toInt.toNat]? else none with
  | some v => .ok v
  | none => .error (.indexOutOfRange index items.length whole)

def entryValue (whole : Value) (entries : List (Value × Value)) (key : Value) :
    Except Error Value :=
  match entries.find? fun entry => keyMatches entry.1 key with
  | some entry => .ok entry.2
  | none => .error (.missingKey key whole)

def field (whole : Value) (fields : Bindings Value) (key : Value) (name : String) :
    Except Error Value :=
  match Bindings.find? name fields with
  | some v => .ok v
  | none => .error (.missingKey key whole)

def access : Value → Value → Except Error Value
  | .apply items, .int i => item (.apply items) items i
  | .list items, .int i => item (.list items) items i
  | .map entries, .int i =>
    (item (.map entries) entries i).map fun entry => .apply [entry.1, entry.2]
  | .map entries, .str s => entryValue (.map entries) entries (.str s)
  | .map entries, .symbol s => entryValue (.map entries) entries (.symbol s)
  | .table r name fields, .str s => field (.table r name fields) fields (.str s) s
  | .table r name fields, .symbol s => field (.table r name fields) fields (.symbol s) s
  | value, key => .error (.invalidAccessor key value)

def drill : Value → List Value → Except Error Value
  | value, [] => .ok value
  | value, key :: keys =>
    match access value key with
    | .ok v => drill v keys
    | .error e => .error e

end EmbeddedLisp.Evaluation
