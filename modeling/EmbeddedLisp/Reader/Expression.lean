import EmbeddedLisp.Reader.Basic

/-!
# Reading expressions

One token decides how to go on. An expression is a value behind which dots and
accessors may follow. Brackets hold expressions, or pairs of them in a map, and
a quote or unquote mark takes the expression behind it. Recursion goes down by
the levels of nesting that are left.
-/

set_option autoImplicit false

namespace EmbeddedLisp.Reader
variable {α : Type}

def bracketed (ending : Nat) (bracket : Bracket) (item : Reader α) (shortens : Shortens item) :
    Reader (List α) := do
  let items ← many (fun t => mark? t = some (.closing bracket)) item shortens
  expect ending (.closing bracket)
  return items

theorem bracketed_shortens (ending : Nat) (bracket : Bracket) {item : Reader α}
    (shortens : Shortens item) : Shortens (bracketed ending bracket item shortens) := by
  intro tokens rest vs h
  obtain ⟨items, left, hi, h⟩ := bind_eq_ok.1 h
  obtain ⟨_, left', he, h⟩ := bind_eq_ok.1 h
  have hl := many_le shortens hi
  have hr := expect_shortens ending _ _ _ _ he
  rw [← (pure_eq_ok.1 h).2]
  omega

/-- Fails where a map is closed behind a key. -/
def valueFollows (ending : Nat) (key : Value) : Reader Unit
  | [] => .ok () []
  | t :: rest =>
    if mark? t = some (.closing .curly) then unexpected ending (.entryValue key) (t :: rest)
    else .ok () (t :: rest)

theorem valueFollows_same {ending : Nat} {key : Value} {tokens rest : List Token} {u : Unit}
    (h : valueFollows ending key tokens = .ok u rest) : rest = tokens := by
  cases tokens with
  | nil => simp_all [valueFollows]
  | cons t left =>
    simp only [valueFollows] at h
    split at h
    · exact absurd h unexpected_ne_ok
    · simp_all

def entry (ending : Nat) (nested : Reader Value) : Reader (Value × Value) := do
  let key ← nested
  valueFollows ending key
  let value ← nested
  return (key, value)

theorem entry_shortens (ending : Nat) {nested : Reader Value} (shortens : Shortens nested) :
    Shortens (entry ending nested) := by
  intro tokens rest e h
  obtain ⟨key, left, hk, h⟩ := bind_eq_ok.1 h
  obtain ⟨_, left', hf, h⟩ := bind_eq_ok.1 h
  obtain ⟨value, left'', hv, h⟩ := bind_eq_ok.1 h
  have hl := shortens _ _ _ hk
  have hr := shortens _ _ _ hv
  rw [valueFollows_same hf] at hr
  rw [← (pure_eq_ok.1 h).2]
  omega

def literalError (t : Token) : LiteralFault → Error
  | .number fault => .invalidNumber t fault
  | .unquoted => .unquoted t

/-- A value without accessors, given a reader for the expressions inside it. -/
def value (ending : Nat) (nested : Reader Value) (shortens : Shortens nested) : Reader Value
  | [] => unexpected ending .value []
  | t :: rest =>
    match mark? t with
    | some (.opening .round) => (Value.apply <$> bracketed ending .round nested shortens) rest
    | some (.opening .square) => (Value.list <$> bracketed ending .square nested shortens) rest
    | some (.opening .curly) =>
      (Value.map <$> bracketed ending .curly (entry ending nested)
        (entry_shortens ending shortens)) rest
    | some .quote => (Value.quote <$> nested) rest
    | some .unquote => (Value.unquote <$> nested) rest
    | _ =>
      match literal? t with
      | some (.ok v) => .ok v rest
      | some (.error fault) => .error (literalError t fault) rest
      | none => unexpected ending .value (t :: rest)

theorem value_shortens (ending : Nat) {nested : Reader Value} (shortens : Shortens nested) :
    Shortens (value ending nested shortens) := by
  intro tokens rest v h
  cases tokens with
  | nil => simp [value, unexpected] at h
  | cons t left =>
    have tail {r : Reader Value} (hr : Shortens r) (h : r left = .ok v rest) :
        rest.length < (t :: left).length :=
      Nat.lt_succ_of_lt (hr _ _ _ h)
    simp only [value] at h
    split at h
    · exact tail (map_shortens (bracketed_shortens ending _ shortens) _) h
    · exact tail (map_shortens (bracketed_shortens ending _ shortens) _) h
    · exact tail (map_shortens (bracketed_shortens ending _ (entry_shortens ending shortens)) _) h
    · exact tail (map_shortens shortens _) h
    · exact tail (map_shortens shortens _) h
    · split at h
      · simp only [EStateM.Result.ok.injEq] at h
        simp [h.2]
      · simp at h
      · exact absurd h unexpected_ne_ok

def accessors (ending : Nat) : Reader (List Value)
  | [] => .ok [] []
  | t :: rest =>
    if mark? t = some .dot then
      match rest with
      | [] => unexpected ending .accessor []
      | key :: rest =>
        if isAccessor key then
          match literal? key with
          | some (.ok v) =>
            match accessors ending rest with
            | .ok vs left => .ok (v :: vs) left
            | .error e left => .error e left
          | some (.error fault) => .error (literalError key fault) rest
          | none => unexpected ending .accessor (key :: rest)
        else unexpected ending .accessor (key :: rest)
    else .ok [] (t :: rest)

theorem accessors_le {ending : Nat} {tokens rest : List Token} {vs : List Value}
    (h : accessors ending tokens = .ok vs rest) : rest.length ≤ tokens.length := by
  fun_induction accessors ending tokens generalizing vs rest with
  | case1 => simp_all
  | case2 => exact absurd h unexpected_ne_ok
  | case3 t _ key left _ v _ ws next hw ih =>
    have hl := ih hw
    simp only [EStateM.Result.ok.injEq] at h
    rw [← h.2, List.length_cons, List.length_cons]
    omega
  | case4 => simp at h
  | case5 => simp at h
  | case6 => exact absurd h unexpected_ne_ok
  | case7 => exact absurd h unexpected_ne_ok
  | case8 => simp_all

def chain (base : Value) : List Value → Value
  | [] => base
  | keys => .drill (base :: keys)

def deepest (ending : Nat) : List Token → Span
  | [] => ⟨ending, 0⟩
  | t :: _ => t.span

def link (ending : Nat) (nested : Reader Value) (shortens : Shortens nested) : Reader Value := do
  let base ← value ending nested shortens
  let keys ← accessors ending
  return chain base keys

theorem link_shortens (ending : Nat) {nested : Reader Value} (shortens : Shortens nested) :
    Shortens (link ending nested shortens) := by
  intro tokens rest v h
  obtain ⟨base, left, hb, h⟩ := bind_eq_ok.1 h
  obtain ⟨keys, left', hk, h⟩ := bind_eq_ok.1 h
  have hl := value_shortens ending shortens _ _ _ hb
  have hr := accessors_le hk
  rw [← (pure_eq_ok.1 h).2]
  omega

def tooDeep (ending : Nat) : Reader Value :=
  fun tokens => .error (.tooDeep (deepest ending tokens)) tokens

/-- The reader of expressions within a number of levels, which always takes a token. -/
def levels (ending : Nat) : Nat → { r : Reader Value // Shortens r }
  | 0 => ⟨tooDeep ending, fun _ _ _ h => by simp [tooDeep] at h⟩
  | n + 1 =>
    let nested := levels ending n
    ⟨link ending nested.1 nested.2, link_shortens ending nested.2⟩

def expression (ending n : Nat) : Reader Value := (levels ending n).1

theorem expression_shortens (ending n : Nat) : Shortens (expression ending n) :=
  (levels ending n).2

theorem expression_zero (ending : Nat) : expression ending 0 = tooDeep ending := rfl

/-- All expressions up to the end, as one form that evaluates them in order. -/
def program (ending : Nat) : Reader Value := do
  let statements ← many (fun _ => false) (expression ending nestingLimit)
    (expression_shortens ending nestingLimit)
  return .apply (.symbol "do" :: statements)

end EmbeddedLisp.Reader
