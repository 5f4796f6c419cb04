import EmbeddedLisp.Proofs.Prefixes

/-!
# A parser with a cursor

A reader takes tokens off a list and is told how many levels are left. Here the tokens
stay where they are: a cursor stands in front of one of them, and counts the expressions
it is inside of. The count goes up where an expression begins and down where it ends,
whichever way it ends, and nothing else bounds the nesting. An action of the cursor is
shown to follow a reader on the tokens ahead, one construct at a time.
-/

set_option autoImplicit false

namespace EmbeddedLisp
open Reader (Error Expectation Mark Bracket mark? literal? nestingLimit)

theorem Reader.many_cons {α : Type} {stops : Token → Bool} {item : Reader α}
    {shortens : Reader.Shortens item} {t : Token} {left : List Token} (ht : stops t = false) :
    Reader.many stops item shortens (t :: left) =
      (item >>= fun v => Reader.many stops item shortens >>= fun vs => pure (v :: vs))
        (t :: left) := by
  change _ = EStateM.bind item _ (t :: left)
  cases hv : item (t :: left) with
  | error e rest => simp [EStateM.bind, hv, Reader.many_error ht hv]
  | ok v rest =>
    simp only [EStateM.bind, hv]
    change _ = EStateM.bind (Reader.many stops item shortens) _ rest
    cases hm : Reader.many stops item shortens rest with
    | error e last => simp [EStateM.bind, hm, Reader.many_later_error ht hv hm]
    | ok vs last => simp [EStateM.bind, hm, Reader.many_item ht hv hm, pure, EStateM.pure]

def Reader.dotted (ending : Nat) : Reader Value
  | _ :: key :: rest =>
    if Reader.isAccessor key then
      match literal? key with
      | some (.ok v) => .ok v rest
      | some (.error fault) => .error (Reader.literalError key fault) rest
      | none => Reader.unexpected ending .accessor (key :: rest)
    else Reader.unexpected ending .accessor (key :: rest)
  | _ => Reader.unexpected ending .accessor []

theorem Reader.dotted_shortens (ending : Nat) : Reader.Shortens (Reader.dotted ending) := by
  intro tokens rest v h
  fun_cases Reader.dotted ending tokens with
  | case1 dot key left ha w hl =>
    simp only [Reader.dotted, ha, hl, if_true, EStateM.Result.ok.injEq] at h
    rw [← h.2, List.length_cons, List.length_cons]
    omega
  | case2 dot key left ha fault hl => simp [Reader.dotted, ha, hl] at h
  | case3 dot key left ha hl =>
    simp only [Reader.dotted, ha, hl, if_true] at h
    exact absurd h Reader.unexpected_ne_ok
  | case4 dot key left ha =>
    simp only [Reader.dotted, ha, Bool.false_eq_true, if_false] at h
    exact absurd h Reader.unexpected_ne_ok
  | case5 => simp_all [Reader.dotted, Reader.unexpected]

theorem Reader.accessors_eq_many (ending : Nat) (tokens : List Token) :
    Reader.accessors ending tokens =
      Reader.many (fun t => mark? t ≠ some .dot) (Reader.dotted ending)
        (Reader.dotted_shortens ending) tokens := by
  fun_induction Reader.accessors ending tokens with
  | case1 => rw [Reader.many_stop (by simp)]
  | case2 dot hd =>
    have hitem : Reader.dotted ending [dot] = .error (.endOfInput .accessor ending) [] := rfl
    exact (Reader.many_error (by simp [hd]) hitem).symm
  | case3 dot hd key left ha v hl vs last hk ih =>
    have hitem : Reader.dotted ending (dot :: key :: left) = .ok v left := by
      simp [Reader.dotted, ha, hl]
    exact (Reader.many_item (by simp [hd]) hitem (ih ▸ hk)).symm
  | case4 dot hd key left ha v hl e last hk ih =>
    have hitem : Reader.dotted ending (dot :: key :: left) = .ok v left := by
      simp [Reader.dotted, ha, hl]
    exact (Reader.many_later_error (by simp [hd]) hitem (ih ▸ hk)).symm
  | case5 dot hd key left ha fault hl =>
    exact (Reader.many_error (by simp [hd]) (by simp [Reader.dotted, ha, hl])).symm
  | case6 dot hd key left ha hl =>
    exact (Reader.many_error (by simp [hd])
      (by simp [Reader.dotted, ha, hl, Reader.unexpected])).symm
  | case7 dot hd key left ha =>
    exact (Reader.many_error (by simp [hd]) (by simp [Reader.dotted, ha, Reader.unexpected])).symm
  | case8 t left hd => rw [Reader.many_stop (by simpa using hd)]

structure Cursor where
  tokens : List Token
  position : Nat
  depth : Nat

namespace Cursor
variable {α β : Type}

/-- An action keeps what it did to the cursor when it fails. -/
abbrev Action (α : Type) := EStateM Error Cursor α

def ofTokens (tokens : List Token) : Cursor := ⟨tokens, 0, 0⟩

def peek? (c : Cursor) : Option Token := c.tokens[c.position]?

def sees (m : Mark) (c : Cursor) : Bool := c.peek?.any fun t => mark? t = some m

def ending (c : Cursor) : Nat := Reader.endOf c.tokens

def rest (c : Cursor) : List Token := c.tokens.drop c.position

def left (c : Cursor) : Nat := c.tokens.length - c.position

def skip (c : Cursor) (n : Nat) : Cursor := { c with position := c.position + n }

def advance : Action Unit := fun c => .ok () (if c.peek?.isSome then c.skip 1 else c)

def unexpected (expected : Expectation) : Action α := fun c =>
  match c.peek? with
  | some t => .error (.unexpected expected t) c
  | none => .error (.endOfInput expected c.ending) c

def expect (m : Mark) : Action Unit := fun c =>
  if c.sees m then advance c else unexpected (.mark m) c

def rounds (stops : Token → Bool) (item : Action α) : Nat → Action (List α)
  | 0 => pure []
  | n + 1 => fun c =>
    if c.peek?.all stops then .ok [] c
    else (do let v ← item; let vs ← rounds stops item n; return v :: vs) c

/-- As many rounds as there are tokens left. Every round takes one, or fails. -/
def many (stops : Token → Bool) (item : Action α) : Action (List α) :=
  fun c => rounds stops item c.left c

def inside (b : Bracket) (item : Action α) : Action (List α) := do
  let items ← many (fun t => mark? t = some (.closing b)) item
  expect (.closing b)
  return items

def bracketed (b : Bracket) (item : Action α) : Action (List α) := do
  expect (.opening b)
  inside b item

def valueFollows (key : Value) : Action Unit := fun c =>
  if c.sees (.closing .curly) then unexpected (.entryValue key) c else .ok () c

def entry (nested : Action Value) : Action (Value × Value) := do
  let key ← nested
  valueFollows key
  let value ← nested
  return (key, value)

/-- The token ahead, where it is a value by itself. It is taken even if it is out of range. -/
def literal (t : Token) : Action Value := fun c =>
  match literal? t with
  | some (.ok v) => (do advance; return v) c
  | some (.error fault) => (do advance; throw (Reader.literalError t fault)) c
  | none => unexpected .value c

def value (nested : Action Value) : Action Value := fun c =>
  match c.peek? with
  | none => unexpected .value c
  | some t =>
    match mark? t with
    | some (.opening .round) => (Value.apply <$> bracketed .round nested) c
    | some (.opening .square) => (Value.list <$> bracketed .square nested) c
    | some (.opening .curly) => (Value.map <$> bracketed .curly (entry nested)) c
    | some .quote => (Value.quote <$> do advance; nested) c
    | some .unquote => (Value.unquote <$> do advance; nested) c
    | _ => literal t c

def accessor (nested : Action Value) : Action Value := fun c =>
  if c.peek?.any Reader.isAccessor then value nested c else unexpected .accessor c

def accessors (nested : Action Value) : Action (List Value) :=
  many (fun t => mark? t ≠ some .dot) do
    advance
    accessor nested

def link (nested : Action Value) : Action Value := do
  let base ← value nested
  let keys ← accessors nested
  return Reader.chain base keys

/-- One level down, and up again after a value as well as after an error. -/
def nesting (act : Action α) : Action α := fun c =>
  match act { c with depth := c.depth + 1 } with
  | .ok v after => .ok v { after with depth := after.depth - 1 }
  | .error e after => .error e { after with depth := after.depth - 1 }

def tooDeep : Action Value := fun c =>
  .error (.tooDeep (Reader.deepest c.ending c.rest)) c

/-- An expression, for a number of calls inside one another that the count never lets it
use up. -/
def expression : Nat → Action Value
  | 0 => unexpected .value
  | n + 1 => nesting fun c =>
    if nestingLimit < c.depth then tooDeep c else link (expression n) c

def program (n : Nat) : Action Value := do
  let statements ← many (fun _ => false) (expression n)
  return .apply (.symbol "do" :: statements)

@[simp] theorem skip_skip (c : Cursor) (m n : Nat) : (c.skip m).skip n = c.skip (m + n) := by
  simp [skip, Nat.add_assoc]

@[simp] theorem skip_ending (c : Cursor) (n : Nat) : (c.skip n).ending = c.ending := rfl

@[simp] theorem skip_rest (c : Cursor) (n : Nat) : (c.skip n).rest = c.rest.drop n := by
  simp [skip, rest, Nat.add_comm]

@[simp] theorem skip_left (c : Cursor) (n : Nat) : (c.skip n).left = c.left - n := by
  simp [skip, left, Nat.sub_add_eq]

@[simp] theorem rest_length (c : Cursor) : c.rest.length = c.left := by simp [rest, left]

theorem peek?_eq (c : Cursor) : c.peek? = c.rest.head? := by simp [peek?, rest]

theorem left_of_cons {c : Cursor} {t : Token} {ts : List Token} (hc : c.rest = t :: ts) :
    c.left = ts.length + 1 := by
  rw [← rest_length, hc, List.length_cons]

theorem advance_then {c : Cursor} {t : Token} {ts : List Token} (hc : c.rest = t :: ts)
    (act : Action α) : (do advance; act) c = act (c.skip 1) := by
  change EStateM.bind advance (fun _ => act) c = _
  simp [EStateM.bind, advance, peek?_eq, hc]

/-- An action ends as a reader does on the tokens ahead, and the cursor moves over the
tokens that the reader takes. -/
inductive Follows (c : Cursor) :
    EStateM.Result Error Cursor α → EStateM.Result Error (List Token) α → Prop
  | ok (n : Nat) (v : α) : n ≤ c.left → Follows c (.ok v (c.skip n)) (.ok v (c.rest.drop n))
  | error (n : Nat) (e : Error) : n ≤ c.left →
      Follows c (.error e (c.skip n)) (.error e (c.rest.drop n))

def Tracks (depth : Nat) (act : Action α) (r : Nat → Reader α) : Prop :=
  ∀ c : Cursor, c.depth = depth → Follows c (act c) (r c.ending c.rest)

theorem Follows.stay_ok {c : Cursor} {ts : List Token} (hc : c.rest = ts) (v : α) :
    Follows c (.ok v c) (.ok v ts) :=
  hc ▸ .ok 0 v (Nat.zero_le _)

theorem Follows.stay_error {c : Cursor} {ts : List Token} (hc : c.rest = ts) (e : Error) :
    Follows (α := α) c (.error e c) (.error e ts) :=
  hc ▸ .error 0 e (Nat.zero_le _)

theorem Follows.later {c : Cursor} {n : Nat} (hn : n ≤ c.left)
    {x : EStateM.Result Error Cursor α} {y : EStateM.Result Error (List Token) α}
    (h : Follows (c.skip n) x y) : Follows c x y := by
  cases h with
  | ok m v hm =>
    rw [skip_skip, skip_rest, List.drop_drop]
    exact .ok _ v (by rw [skip_left] at hm; omega)
  | error m e hm =>
    rw [skip_skip, skip_rest, List.drop_drop]
    exact .error _ e (by rw [skip_left] at hm; omega)

theorem unexpected_follows {c : Cursor} {ts : List Token} (hc : c.rest = ts)
    (expected : Expectation) :
    Follows (α := α) c (unexpected expected c) (Reader.unexpected c.ending expected ts) := by
  rw [unexpected, peek?_eq, hc]
  cases ts with
  | nil => exact .stay_error hc _
  | cons t ts => exact .stay_error hc _

theorem Follows.behind {c : Cursor} {t : Token} {ts : List Token} (hc : c.rest = t :: ts)
    {x : EStateM.Result Error Cursor α} {y : EStateM.Result Error (List Token) α}
    (h : (c.skip 1).rest = ts → Follows (c.skip 1) x y) : Follows c x y := by
  have hleft := left_of_cons hc
  exact (h (by simp [hc])).later (by omega)

theorem Follows.bind {c : Cursor} {act : Action α} {r : Reader α} {f : α → Action β}
    {g : α → Reader β} (h : Follows c (act c) (r c.rest))
    (hf : ∀ v n, n ≤ c.left → r c.rest = .ok v (c.rest.drop n) →
      Follows (c.skip n) (f v (c.skip n)) (g v (c.skip n).rest)) :
    Follows c ((act >>= f) c) ((r >>= g) c.rest) := by
  change Follows c (EStateM.bind act f c) (EStateM.bind r g c.rest)
  unfold EStateM.bind
  generalize act c = x at h ⊢
  generalize r c.rest = y at h hf ⊢
  cases h with
  | ok n v hn =>
    have hrest := hf v n hn rfl
    rw [skip_rest] at hrest
    exact hrest.later hn
  | error n e hn => exact .error n e hn

section
variable {d : Nat} {act : Action α} {r : Nat → Reader α}

theorem Tracks.bind {f : α → Action β} {g : α → Nat → Reader β} (h : Tracks d act r)
    (hf : ∀ v, Tracks d (f v) (g v)) :
    Tracks d (act >>= f) fun ending => r ending >>= (g · ending) :=
  fun c hd => (h c hd).bind fun v n _ _ => hf v (c.skip n) hd

theorem tracks_pure (v : α) : Tracks d (pure v) fun _ => pure v :=
  fun _ _ => .stay_ok rfl v

theorem Tracks.map (h : Tracks d act r) (f : α → β) :
    Tracks d (f <$> act) fun ending => f <$> r ending := by
  intro c hd
  have hc := h c hd
  change Follows c (EStateM.map f act c) (EStateM.map f (r c.ending) c.rest)
  unfold EStateM.map
  generalize act c = x at hc ⊢
  generalize r c.ending c.rest = y at hc ⊢
  cases hc with
  | ok n v hn => exact .ok n (f v) hn
  | error n e hn => exact .error n e hn

theorem expect_tracks (m : Mark) : Tracks d (expect m) (Reader.expect · m) := by
  intro c _
  rw [expect, sees, peek?_eq]
  cases hc : c.rest with
  | nil => exact unexpected_follows hc _
  | cons t ts =>
    by_cases hm : mark? t = some m
    · simp only [List.head?_cons, Option.any_some, hm, decide_true, if_true, Reader.expect]
      refine .behind hc fun hts => ?_
      simpa [advance, peek?_eq, hc] using Follows.stay_ok hts ()
    · simpa [hm, Reader.expect] using unexpected_follows (α := Unit) hc (.mark m)

theorem rounds_succ (stops : Token → Bool) (act : Action α) (n : Nat) (c : Cursor) :
    rounds stops act (n + 1) c =
      if c.rest.head?.all stops then .ok [] c
      else (act >>= fun v => rounds stops act n >>= fun vs => pure (v :: vs)) c := by
  rw [← peek?_eq]
  rfl

theorem rounds_track {stops : Token → Bool} (shortens : ∀ ending, Reader.Shortens (r ending))
    (h : Tracks d act r) (n : Nat) (c : Cursor) (hd : c.depth = d) (hn : c.left ≤ n) :
    Follows c (rounds stops act n c)
      (Reader.many stops (r c.ending) (shortens c.ending) c.rest) := by
  induction n generalizing c with
  | zero =>
    have hc : c.rest = [] := List.length_eq_zero_iff.1 (by rw [rest_length]; omega)
    rw [hc, Reader.many_stop (by simp)]
    exact .stay_ok hc []
  | succ n ih =>
    rw [rounds_succ]
    cases hc : c.rest with
    | nil =>
      rw [Reader.many_stop (by simp)]
      exact .stay_ok hc []
    | cons t ts =>
      by_cases ht : stops t = true
      · rw [Reader.many_stop (by simpa using ht)]
        simpa [ht] using Follows.stay_ok hc ([] : List α)
      · simp only [List.head?_cons, Option.all_some, ht, Bool.false_eq_true, if_false]
        rw [Reader.many_cons (by simpa using ht), ← hc]
        refine (h c hd).bind fun v m hm hv => ?_
        -- the round took a token, so that fewer rounds are enough for the rest
        have hlt := shortens _ _ _ _ hv
        rw [List.length_drop, rest_length] at hlt
        have hnext := ih (c.skip m) hd (by rw [skip_left]; omega)
        exact hnext.bind fun vs k _ _ => .stay_ok rfl (v :: vs)

theorem many_tracks {stops : Token → Bool} (shortens : ∀ ending, Reader.Shortens (r ending))
    (h : Tracks d act r) :
    Tracks d (many stops act)
      fun ending => Reader.many stops (r ending) (shortens ending) :=
  fun c hd => rounds_track shortens h c.left c hd (Nat.le_refl c.left)

theorem inside_tracks (b : Bracket) (shortens : ∀ ending, Reader.Shortens (r ending))
    (h : Tracks d act r) :
    Tracks d (inside b act) fun ending => Reader.bracketed ending b (r ending) (shortens ending) :=
  (many_tracks shortens h).bind fun items => (expect_tracks _).bind fun _ => tracks_pure items

end

section
variable {d : Nat} {nested : Action Value} {r : Nat → Reader Value}

theorem valueFollows_tracks (key : Value) :
    Tracks d (valueFollows key) (Reader.valueFollows · key) := by
  intro c _
  rw [valueFollows, sees, peek?_eq]
  cases hc : c.rest with
  | nil => exact .stay_ok hc ()
  | cons t ts =>
    by_cases hm : mark? t = some (.closing .curly)
    · simpa [hm, Reader.valueFollows] using unexpected_follows (α := Unit) hc (.entryValue key)
    · simpa [hm, Reader.valueFollows] using Follows.stay_ok hc ()

theorem entry_tracks (h : Tracks d nested r) :
    Tracks d (entry nested) fun ending => Reader.entry ending (r ending) :=
  h.bind fun key => (valueFollows_tracks key).bind fun _ => h.bind fun v => tracks_pure (key, v)

theorem bracketed_then {c : Cursor} {t : Token} {ts : List Token} {b : Bracket}
    (hc : c.rest = t :: ts) (hm : mark? t = some (.opening b)) (item : Action α) :
    bracketed b item c = inside b item (c.skip 1) := by
  refine Eq.trans ?_ (advance_then hc (inside b item))
  change EStateM.bind (expect (.opening b)) _ c = EStateM.bind advance _ c
  simp [EStateM.bind, expect, sees, peek?_eq, hc, hm]

theorem Tracks.behind {s : Nat → Reader α} {act inner : Action α} (h : Tracks d inner s)
    (f : α → Value) {c : Cursor} {t : Token} {ts : List Token} (hd : c.depth = d)
    (hc : c.rest = t :: ts) (hact : act c = inner (c.skip 1)) :
    Follows c ((f <$> act) c) ((f <$> s c.ending) ts) := by
  have hmap : (f <$> act) c = (f <$> inner) (c.skip 1) := by
    change EStateM.map f act c = EStateM.map f inner (c.skip 1)
    simp only [EStateM.map, hact]
  rw [hmap]
  refine .behind hc fun hts => ?_
  exact hts ▸ h.map f (c.skip 1) hd

theorem literal_follows {c : Cursor} {t : Token} {ts : List Token} (hc : c.rest = t :: ts) :
    Follows c (literal t c) (match literal? t with
      | some (.ok v) => .ok v ts
      | some (.error fault) => .error (Reader.literalError t fault) ts
      | none => Reader.unexpected c.ending .value (t :: ts)) := by
  rw [literal]
  cases literal? t with
  | none => exact unexpected_follows hc _
  | some result =>
    cases result with
    | ok v =>
      simp only [advance_then hc]
      exact .behind hc fun hts => .stay_ok hts v
    | error fault =>
      simp only [advance_then hc]
      exact .behind hc fun hts => .stay_error hts _

theorem value_tracks (shortens : ∀ ending, Reader.Shortens (r ending)) (h : Tracks d nested r) :
    Tracks d (value nested) fun ending => Reader.value ending (r ending) (shortens ending) := by
  intro c hd
  rw [value, peek?_eq]
  cases hc : c.rest with
  | nil => exact unexpected_follows hc _
  | cons t ts =>
    have hplain := literal_follows hc
    simp only [List.head?_cons, Reader.value]
    cases hm : mark? t with
    | none => exact hplain
    | some m =>
      cases m with
      | opening b =>
        cases b with
        | round => exact (inside_tracks _ shortens h).behind _ hd hc (bracketed_then hc hm _)
        | square => exact (inside_tracks _ shortens h).behind _ hd hc (bracketed_then hc hm _)
        | curly =>
          have hentry := inside_tracks .curly
            (fun ending => Reader.entry_shortens ending (shortens ending)) (entry_tracks h)
          exact hentry.behind _ hd hc (bracketed_then hc hm _)
      | closing b => exact hplain
      | quote => exact h.behind _ hd hc (advance_then hc _)
      | unquote => exact h.behind _ hd hc (advance_then hc _)
      | dot => exact hplain

theorem literal?_of_isAccessor {t : Token} (h : Reader.isAccessor t = true) :
    ∃ result, literal? t = some result := by
  unfold Reader.isAccessor at h
  unfold literal?
  cases hk : t.kind <;> simp_all

theorem accessor_eq_literal {c : Cursor} {t : Token} {ts : List Token} (hc : c.rest = t :: ts)
    (ha : Reader.isAccessor t = true) : accessor nested c = literal t c := by
  have hm : mark? t = none := Grammar.mark?_eq_none (by
    intro hk
    simp [Reader.isAccessor, hk] at ha)
  simp only [accessor, value, peek?_eq, hc, List.head?_cons, Option.any_some, ha, if_true, hm]

theorem accessor_fails {c : Cursor} {ts : List Token} (hc : c.rest = ts)
    (ha : ts.head?.any Reader.isAccessor = false) :
    Follows c (accessor nested c) (Reader.unexpected c.ending .accessor ts) := by
  simpa only [accessor, peek?_eq, hc, ha, Bool.false_eq_true, if_false] using
    unexpected_follows (α := Value) hc .accessor

theorem accessor_tracks : Tracks d (do advance; accessor nested) Reader.dotted := by
  intro c _
  cases hc : c.rest with
  | nil =>
    have hstay : (do advance; accessor nested) c = accessor nested c := by
      change EStateM.bind advance (fun _ => accessor nested) c = _
      simp [EStateM.bind, advance, peek?_eq, hc]
    exact hstay ▸ accessor_fails hc rfl
  | cons dot ts =>
    simp only [advance_then hc]
    refine .behind hc fun hts => ?_
    cases ts with
    | nil => exact accessor_fails hts rfl
    | cons key ts =>
      rw [Reader.dotted]
      split
      · next ha =>
        obtain ⟨result, hl⟩ := literal?_of_isAccessor ha
        have hlit := literal_follows hts
        rw [accessor_eq_literal hts ha]
        rw [hl] at hlit ⊢
        cases result <;> exact hlit
      · next ha => exact accessor_fails hts (by simpa using ha)

theorem accessors_track : Tracks d (accessors nested) Reader.accessors := by
  intro c hd
  rw [Reader.accessors_eq_many]
  exact many_tracks Reader.dotted_shortens accessor_tracks c hd

theorem link_tracks (shortens : ∀ ending, Reader.Shortens (r ending)) (h : Tracks d nested r) :
    Tracks d (link nested) fun ending => Reader.link ending (r ending) (shortens ending) :=
  (value_tracks shortens h).bind fun base => accessors_track.bind fun keys =>
    tracks_pure (Reader.chain base keys)

end

theorem nesting_tracks {d : Nat} {act : Action α} {r : Nat → Reader α}
    (h : Tracks (d + 1) act r) : Tracks d (nesting act) r := by
  intro c hd
  have hc := h { c with depth := c.depth + 1 } (by rw [hd])
  unfold nesting
  change Follows _ _ (r c.ending c.rest) at hc
  generalize act { c with depth := c.depth + 1 } = x at hc ⊢
  generalize r c.ending c.rest = y at hc ⊢
  cases hc with
  | ok n v hn => exact .ok n v hn
  | error n e hn => exact .error n e hn

theorem expression_tracks {d n : Nat} (hd : d ≤ nestingLimit) (hn : nestingLimit - d < n) :
    Tracks d (expression n) (Reader.expression · (nestingLimit - d)) := by
  induction n generalizing d with
  | zero => omega
  | succ n ih =>
    refine nesting_tracks fun c hc => ?_
    by_cases hlast : d = nestingLimit
    · have hdeep : nestingLimit < c.depth := by omega
      rw [if_pos hdeep, hlast, Nat.sub_self]
      exact .stay_error rfl _
    · have hwithin : ¬ nestingLimit < c.depth := by omega
      have hlevels : nestingLimit - d = nestingLimit - (d + 1) + 1 := by omega
      rw [if_neg hwithin, hlevels]
      exact link_tracks (Reader.expression_shortens · _) (ih (by omega) (by omega)) c hc

theorem program_tracks {n : Nat} (hn : nestingLimit < n) :
    Tracks 0 (program n) Reader.program :=
  (many_tracks (Reader.expression_shortens · _)
    (expression_tracks (Nat.zero_le nestingLimit) hn)).bind
      fun statements => tracks_pure (Value.apply (.symbol "do" :: statements))

end Cursor

end EmbeddedLisp
