/-!
# Calls that do not return

A modelled kernel call is a function into `Except Halt`. `Halt` names the ways the C call can
fail to come back to its caller: it spins on a mutex that nobody releases, an `ASSERT` or a
`PANIC` stops the machine, it touches memory outside the object it was given, one of its loops
never ends, or it ends the process it runs for.
-/

namespace Kogata.Kernel

/-- Why a call does not return. -/
inductive Halt where
  /-- `mutex_lock` on a mutex that is already held. -/
  | deadlock
  /-- A failed `ASSERT`, or `PANIC`. -/
  | panic
  /-- A read or a write outside the object. -/
  | wild
  /-- A loop that never ends. -/
  | diverge
  /-- `current_process_exit`: the calling thread is stopped. -/
  | exited (status exitCode : Int)
  deriving DecidableEq

/-- `ASSERT(cond)`. -/
def ensure (cond : Bool) : Except Halt Unit :=
  if cond then .ok () else .error .panic

/-- An access that is only defined inside the object. -/
def inside {α : Type} (access : Option α) : Except Halt α :=
  access.elim (.error .wild) .ok

@[simp] theorem inside_some {α : Type} (value : α) : inside (some value) = .ok value := rfl

@[simp] theorem ok_bind {ε α β : Type} (value : α) (rest : α → Except ε β) :
    (Except.ok value >>= rest) = rest value := rfl

@[simp] theorem pure_eq_ok {ε α : Type} (value : α) :
    (pure value : Except ε α) = .ok value := rfl

/-- A sequence that returns has a first part that returns. -/
theorem bind_eq_ok {ε α β : Type} {first : Except ε α} {rest : α → Except ε β} {result : β}
    (h : (first >>= rest) = .ok result) :
    ∃ value, first = .ok value ∧ rest value = .ok result := by
  cases first with
  | error stop => cases h
  | ok value => exact ⟨value, rfl, h⟩

end Kogata.Kernel
