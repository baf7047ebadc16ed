import Kogata.Lib.Effect

/-!
# Stateful programs that keep a log

`Logged ε σ ω α` is a program that changes a state, may stop with an `ε`, and writes entries to a
log. The log of a run that stops is what it had written so far. `call` runs a program without a
log, and `record` writes one entry. `Writes` says that all entries of a run satisfy a predicate,
and has one rule for each construct.
-/

namespace Lib.Logging

open Lib.Effect

/-- A program on the state `σ` with log entries `ω`. -/
def Logged (ε σ ω α : Type) : Type :=
  σ → List ω × Except ε (α × σ)

variable {ε σ ω α β : Type}

/-- The log of a run. -/
def Logged.entries (program : Logged ε σ ω α) (s : σ) : List ω :=
  (program s).1

/-- How a run ends. -/
def Logged.outcome (program : Logged ε σ ω α) (s : σ) : Except ε (α × σ) :=
  (program s).2

instance : Monad (Logged ε σ ω) where
  pure a := fun s => ([], .ok (a, s))
  bind first rest := fun s =>
    (first.entries s ++ match first.outcome s with
      | .error _ => []
      | .ok (a, mid) => (rest a).entries mid,
    match first.outcome s with
      | .error stop => .error stop
      | .ok (a, mid) => (rest a).outcome mid)

/-- A program without a log. -/
def call (program : StateT σ (Except ε) α) : Logged ε σ ω α :=
  fun s => ([], program s)

/-- Write an entry. -/
def record (entry : ω) : Logged ε σ ω Unit :=
  fun s => ([entry], .ok ((), s))

/-- The log of a sequence. -/
theorem entries_bind (first : Logged ε σ ω α) (rest : α → Logged ε σ ω β) (s : σ) :
    (first >>= rest).entries s = first.entries s ++ match first.outcome s with
      | .error _ => []
      | .ok (a, mid) => (rest a).entries mid := rfl

section Writes

/-- Every entry that a run writes satisfies the predicate. -/
def Writes (p : ω → Prop) (program : Logged ε σ ω α) (s : σ) : Prop :=
  ∀ entry ∈ program.entries s, p entry

variable {p : ω → Prop} {s : σ}

theorem writes_pure (a : α) : Writes p (pure a : Logged ε σ ω α) s :=
  fun _ h => absurd h (List.not_mem_nil)

theorem writes_call (program : StateT σ (Except ε) α) :
    Writes p (call program : Logged ε σ ω α) s :=
  fun _ h => absurd h (List.not_mem_nil)

theorem writes_record {entry : ω} (h : p entry) :
    Writes p (record entry : Logged ε σ ω Unit) s := by
  intro e he
  rw [List.mem_singleton.mp he]
  exact h

/-- One program after another, which starts where the first came back. -/
theorem Writes.bind {first : Logged ε σ ω α} {rest : α → Logged ε σ ω β}
    (h : Writes p first s)
    (hrest : ∀ a mid, first.outcome s = .ok (a, mid) → Writes p (rest a) mid) :
    Writes p (first >>= rest) s := by
  intro entry hentry
  rw [entries_bind] at hentry
  rcases List.mem_append.mp hentry with hold | hnew
  · exact h entry hold
  · cases hfirst : first.outcome s with
    | error stop =>
        rw [hfirst] at hnew
        exact absurd hnew List.not_mem_nil
    | ok x =>
        rw [hfirst] at hnew
        exact hrest x.1 x.2 hfirst entry hnew

/-- A call, and what comes after it. -/
theorem writes_call_bind {first : StateT σ (Except ε) α} {rest : α → Logged ε σ ω β}
    (h : ∀ a mid, first s = .ok (a, mid) → Writes p (rest a) mid) :
    Writes p (call first >>= rest) s :=
  (writes_call first).bind h

/-- The branches of a test. -/
theorem writes_ite {c : Prop} [Decidable c] {program other : Logged ε σ ω α}
    (h : c → Writes p program s) (hother : ¬ c → Writes p other s) :
    Writes p (if c then program else other) s := by
  split
  · next hc => exact h hc
  · next hc => exact hother hc

end Writes

end Lib.Logging
