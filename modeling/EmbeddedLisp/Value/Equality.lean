import EmbeddedLisp.Value.Basic

/-!
# Equality of values

Values are compared by structure down to their leaves. Floats follow their own
equality, under which a value that is no number differs from itself, and
functions and tables are compared by reference alone.
-/

set_option autoImplicit false

namespace EmbeddedLisp.Value

mutual

def equal : Value → Value → Bool
  | .nil, .nil => true
  | .int m, .int n => m = n
  | .float x, .float y => x.equal y
  | .str s, .str t => s = t
  | .symbol s, .symbol t => s = t
  | .apply xs, .apply ys => equalItems xs ys
  | .list xs, .list ys => equalItems xs ys
  | .map es, .map fs => equalEntries es fs
  | .drill xs, .drill ys => equalItems xs ys
  | .quote v, .quote w => equal v w
  | .unquote v, .unquote w => equal v w
  | .function f, .function g => f.reference = g.reference
  | .table r _ _, .table s _ _ => r = s
  | _, _ => false

def equalItems : List Value → List Value → Bool
  | [], [] => true
  | v :: vs, w :: ws => equal v w && equalItems vs ws
  | _, _ => false

def equalEntries : List (Value × Value) → List (Value × Value) → Bool
  | [], [] => true
  | (k, v) :: es, (l, w) :: fs => equal k l && equal v w && equalEntries es fs
  | _, _ => false

end

instance : BEq Value := ⟨equal⟩

end EmbeddedLisp.Value
