import EmbeddedLisp.Output.Writer

/-!
# Sinks

A sink is a writer that remembers what it took. Its policy says what it takes
and what it refuses.
-/

set_option autoImplicit false

namespace EmbeddedLisp

inductive Sink.Policy where
  | unlimited
  | refusesWrites
  | refusesFlushes
  | stalls
  | limited (capacity : Nat)
  deriving DecidableEq, Repr

structure Sink where
  policy : Sink.Policy
  written : List UInt8
  deriving DecidableEq, Repr

namespace Sink

def ofPolicy (policy : Policy) : Sink := ⟨policy, []⟩

def take (s : Sink) (n : Nat) (bytes : List UInt8) : Sink :=
  { s with written := s.written ++ bytes.take n }

/-- A limited sink takes what still fits, and refuses once it is full. -/
def write (bytes : List UInt8) (s : Sink) : Except String Nat × Sink :=
  match s.policy with
  | .unlimited | .refusesFlushes => (.ok bytes.length, s.take bytes.length bytes)
  | .refusesWrites => (.error "write refused", s)
  | .stalls => (.ok 0, s)
  | .limited capacity =>
    if capacity ≤ s.written.length then (.error "limit reached", s)
    else
      let room := min bytes.length (capacity - s.written.length)
      (.ok room, s.take room bytes)

def flush (s : Sink) : Except String Unit × Sink :=
  match s.policy with
  | .refusesFlushes => (.error "flush refused", s)
  | _ => (.ok (), s)

theorem write_le {bytes : List UInt8} {s : Sink} {n : Nat} (h : (s.write bytes).1 = .ok n) :
    n ≤ bytes.length := by
  obtain ⟨policy, written⟩ := s
  cases policy with
  | unlimited =>
    cases h
    exact Nat.le_refl _
  | refusesFlushes =>
    cases h
    exact Nat.le_refl _
  | refusesWrites => cases h
  | stalls =>
    cases h
    exact Nat.zero_le _
  | limited capacity =>
    by_cases hfull : capacity ≤ written.length
    · simp [write, hfull] at h
    · simp only [write, hfull, if_false, Except.ok.injEq] at h
      omega

def writer : Writer Sink := ⟨write, flush, fun _ _ _ => write_le⟩

end Sink

end EmbeddedLisp
