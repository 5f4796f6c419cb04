import EmbeddedLisp.Reader.Error

/-!
# Readers

A reader takes tokens off the front and gives a value, or stops with an error
where it stands. Repeating a reader comes to an end because each round takes a
token, and what repeats a reader asks for the proof of that. The offset at
which the input ends is only needed for complaints.
-/

set_option autoImplicit false

namespace EmbeddedLisp

abbrev Reader (α : Type) := EStateM Reader.Error (List Token) α

namespace Reader
variable {α : Type}

def unexpected (ending : Nat) (expected : Expectation) : Reader α
  | [] => .error (.endOfInput expected ending) []
  | t :: rest => .error (.unexpected expected t) (t :: rest)

def expect (ending : Nat) (m : Mark) : Reader Unit
  | [] => unexpected ending (.mark m) []
  | t :: rest => if mark? t = some m then .ok () rest else unexpected ending (.mark m) (t :: rest)

theorem bind_eq_ok {β : Type} {r : Reader α} {f : α → Reader β} {tokens rest : List Token}
    {b : β} : (r >>= f) tokens = .ok b rest ↔
      ∃ a left, r tokens = .ok a left ∧ f a left = .ok b rest := by
  change EStateM.bind r f tokens = .ok b rest ↔ _
  unfold EStateM.bind
  cases r tokens with
  | ok a left => simp [and_assoc]
  | error e left => simp

theorem map_eq_ok {β : Type} {r : Reader α} {f : α → β} {tokens rest : List Token} {b : β} :
    (f <$> r) tokens = .ok b rest ↔ ∃ a, r tokens = .ok a rest ∧ f a = b := by
  change EStateM.map f r tokens = .ok b rest ↔ _
  unfold EStateM.map
  cases r tokens with
  | ok a left =>
    simp only [EStateM.Result.ok.injEq]
    constructor
    · rintro ⟨hb, hl⟩
      exact ⟨a, ⟨rfl, hl⟩, hb⟩
    · rintro ⟨_, ⟨rfl, hl⟩, hb⟩
      exact ⟨hb, hl⟩
  | error e left => simp

theorem pure_eq_ok {tokens rest : List Token} {a b : α} :
    (pure a : Reader α) tokens = .ok b rest ↔ a = b ∧ tokens = rest := by
  change EStateM.Result.ok a tokens = .ok b rest ↔ _
  simp

/-- A reader that takes at least one token whenever it gives a value. -/
def Shortens (r : Reader α) : Prop :=
  ∀ (tokens rest : List Token) (v : α), r tokens = .ok v rest → rest.length < tokens.length

theorem unexpected_ne_ok {ending : Nat} {expected : Expectation} {tokens rest : List Token}
    {v : α} : unexpected ending expected tokens ≠ .ok v rest := by
  cases tokens <;> simp [unexpected]

theorem expect_shortens (ending : Nat) (m : Mark) : Shortens (expect ending m) := by
  intro tokens rest v h
  cases tokens with
  | nil => simp [expect, unexpected] at h
  | cons t left =>
    simp only [expect] at h
    split at h
    · simp only [EStateM.Result.ok.injEq] at h
      simp [h.2]
    · exact absurd h unexpected_ne_ok

def many (stops : Token → Bool) (item : Reader α) (shortens : Shortens item)
    (tokens : List Token) : EStateM.Result Error (List Token) (List α) :=
  match tokens with
  | [] => .ok [] []
  | t :: rest =>
    if stops t then .ok [] (t :: rest)
    else
      match _h : item (t :: rest) with
      | .error e left => .error e left
      | .ok v left =>
        match many stops item shortens left with
        | .error e left => .error e left
        | .ok vs left => .ok (v :: vs) left
termination_by tokens.length
decreasing_by exact shortens _ _ _ _h

theorem many_le {stops : Token → Bool} {item : Reader α} (shortens : Shortens item)
    {tokens rest : List Token} {vs : List α}
    (h : many stops item shortens tokens = .ok vs rest) : rest.length ≤ tokens.length := by
  fun_induction many stops item shortens tokens generalizing vs rest with
  | case1 => simp_all
  | case2 => simp_all
  | case3 => simp at h
  | case4 => simp at h
  | case5 t left _ v next hv ws next' hw ih =>
    have hn := shortens _ _ _ hv
    have hr := ih hw
    simp only [EStateM.Result.ok.injEq] at h
    rw [← h.2]
    omega

theorem map_shortens {β : Type} {r : Reader α} (shortens : Shortens r) (f : α → β) :
    Shortens (f <$> r) := by
  intro tokens rest b h
  obtain ⟨a, ha, _⟩ := map_eq_ok.1 h
  exact shortens _ _ _ ha

end Reader

end EmbeddedLisp
