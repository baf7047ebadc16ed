import Mathlib.Tactic.Common

/-!
# The main loop

The buffers of a `mainloop_fd_t` in `lib/libkogata/mainloop.c`. A file that is read into a buffer
calls `rd_on_full` when the buffer has the size that is expected; what is to be written waits in
four slots, of which the used ones come first.
-/

namespace Kogata.User

/-- `MAINLOOP_MAX_WR_BUFS`. -/
abbrev mainloopMaxWrBufs : Nat := 4

/-- A `mainloop_wr_buf_t` whose `buf` is not null. -/
structure WrBuf where
  size : Nat
  written : Nat
  buf : List UInt8
  mustFree : Bool
  deriving DecidableEq

/-- `mainloop_fd_t`, where `C` names the functions that `rd_on_full` may be. `rdBuf` is the part of
the read buffer that is filled, and `none` the null pointer; so is a slot that is `none`. -/
structure MainloopFd (C : Type) where
  rdBufExpectSize : Nat
  rdBuf : Option (List UInt8)
  wrBufs : List (Option WrBuf)
  rdOnFull : Option C
  deriving DecidableEq

namespace MainloopFd

variable {C : Type}

/-- The fields that are all zero. -/
def zero : MainloopFd C where
  rdBufExpectSize := 0
  rdBuf := none
  wrBufs := List.replicate mainloopMaxWrBufs none
  rdOnFull := none

/-- `mainloop_expect`. -/
def expect (fd : MainloopFd C) (size : Nat) (cb : C) : MainloopFd C :=
  { fd with rdBuf := some [], rdOnFull := some cb, rdBufExpectSize := size }

end MainloopFd

/-- The loop of `mainloop_nonblocking_write`: the first slot that is free. -/
def fillSlot (b : WrBuf) : List (Option WrBuf) → Option (List (Option WrBuf))
  | [] => none
  | none :: rest => some (some b :: rest)
  | some x :: rest => (fillSlot b rest).map (some x :: ·)

namespace MainloopFd

variable {C : Type}

/-- `mainloop_nonblocking_write`, where it answers `true`. -/
def nonblockingWrite (fd : MainloopFd C) (buf : List UInt8) (size : Nat) (mustFree : Bool) :
    Option (MainloopFd C) :=
  (fillSlot { size := size, written := 0, buf := buf, mustFree := mustFree } fd.wrBufs).map
    fun slots => { fd with wrBufs := slots }

/-- The branch of `mainloop_run` that reads, when `sc_read` has given the bytes `got`; the function
that is called with the full buffer, if it is full. -/
def readTurn (fd : MainloopFd C) (filled got : List UInt8) :
    MainloopFd C × Option (Option C × List UInt8) :=
  if (filled ++ got).length = fd.rdBufExpectSize then
    ({ fd with rdBuf := some [] }, some (fd.rdOnFull, filled ++ got))
  else ({ fd with rdBuf := some (filled ++ got) }, none)

/-- The branch of `mainloop_run` that writes, when `sc_write` has taken `n` bytes of what remains
of the first slot. -/
def writeTurn (fd : MainloopFd C) (b : WrBuf) (n : Nat) : MainloopFd C :=
  if b.written + n = b.size then { fd with wrBufs := fd.wrBufs.tail ++ [none] }
  else { fd with wrBufs := some { b with written := b.written + n } :: fd.wrBufs.tail }

end MainloopFd

section Slots

/-- The bytes that wait in the slots. -/
def pending (slots : List (Option WrBuf)) : List UInt8 :=
  slots.flatMap fun slot => slot.elim [] fun b => b.buf.drop b.written

/-- The used slots come first, and each has bytes left. -/
structure Queued (slots : List (Option WrBuf)) (used : List WrBuf) : Prop where
  slots : ∃ free, slots = used.map some ++ List.replicate free none
  left : ∀ b ∈ used, b.size = b.buf.length ∧ b.written < b.size

variable {slots slots' : List (Option WrBuf)} {used : List WrBuf} {b : WrBuf}

theorem pending_queued (h : Queued slots used) :
    pending slots = used.flatMap fun b => b.buf.drop b.written := by
  obtain ⟨⟨free, rfl⟩, -⟩ := h
  have hfree : ∀ n, (List.replicate n (none : Option WrBuf)).flatMap
      (fun slot => slot.elim [] fun b => b.buf.drop b.written) = [] := by
    intro n
    rw [List.flatMap_eq_nil_iff]
    intro slot hslot
    rw [List.eq_of_mem_replicate hslot]
    rfl
  rw [pending, List.flatMap_append, hfree, List.append_nil, List.flatMap_map]
  rfl

theorem fill_slot_some {free : Nat} (used : List WrBuf) :
    fillSlot b (used.map some ++ List.replicate free none) = some slots' →
      ∃ free', slots' = (used ++ [b]).map some ++ List.replicate free' none := by
  induction used generalizing slots' with
  | nil =>
      cases free with
      | zero => exact nofun
      | succ free =>
          intro h
          cases h
          exact ⟨free, rfl⟩
  | cons x rest ih =>
      intro h
      obtain ⟨slots, hrest, rfl⟩ := Option.map_eq_some_iff.mp h
      obtain ⟨free', rfl⟩ := ih hrest
      exact ⟨free', rfl⟩

/-- What is accepted waits behind everything else. -/
theorem Queued.fill (h : Queued slots used) (hb : b.size = b.buf.length ∧ b.written < b.size)
    (hfill : fillSlot b slots = some slots') : Queued slots' (used ++ [b]) := by
  obtain ⟨⟨free, rfl⟩, hleft⟩ := h
  refine ⟨fill_slot_some used hfill, fun c hc => ?_⟩
  rcases List.mem_append.mp hc with hc | hc
  · exact hleft c hc
  · rw [List.mem_singleton.mp hc]
    exact hb

theorem Queued.head {rest : List (Option WrBuf)} (h : Queued (some b :: rest) used) :
    ∃ used', used = b :: used' := by
  obtain ⟨⟨free, hslots⟩, -⟩ := h
  cases used with
  | nil =>
      cases free with
      | zero => cases hslots
      | succ free => cases hslots
  | cons c used' =>
      injection hslots with hb _
      cases hb
      exact ⟨used', rfl⟩

/-- Writing takes bytes off the front. -/
theorem Queued.write {C : Type} {fd : MainloopFd C} {rest : List (Option WrBuf)} {n : Nat}
    (h : Queued fd.wrBufs used) (hslots : fd.wrBufs = some b :: rest)
    (hn : b.written + n ≤ b.size) :
    ∃ used', Queued (fd.writeTurn b n).wrBufs used' ∧
      pending fd.wrBufs = (b.buf.drop b.written).take n ++ pending (fd.writeTurn b n).wrBufs := by
  rw [hslots] at h ⊢
  obtain ⟨used, rfl⟩ := h.head
  have hpending := pending_queued h
  obtain ⟨⟨free, hfree⟩, hleft⟩ := h
  injection hfree with _ hrest
  change rest = used.map some ++ List.replicate free none at hrest
  obtain ⟨hsize, hlt⟩ := hleft b (List.mem_cons_self ..)
  have hbytes : ∀ c ∈ used, c.size = c.buf.length ∧ c.written < c.size := fun c hc =>
    hleft c (List.mem_cons_of_mem _ hc)
  unfold MainloopFd.writeTurn
  rw [hslots, List.tail_cons]
  by_cases hdone : b.written + n = b.size
  · rw [if_pos hdone]
    have hqueued : Queued (rest ++ [none]) used := by
      refine ⟨⟨free + 1, ?_⟩, hbytes⟩
      rw [hrest, List.replicate_succ', List.append_assoc]
    refine ⟨used, hqueued, ?_⟩
    rw [hpending, pending_queued hqueued, List.flatMap_cons, List.take_of_length_le]
    rw [List.length_drop]
    omega
  · rw [if_neg hdone]
    have hqueued : Queued (some { b with written := b.written + n } :: rest)
        ({ b with written := b.written + n } :: used) := by
      refine ⟨⟨free, by rw [hrest]; rfl⟩, fun c hc => ?_⟩
      rcases List.mem_cons.mp hc with rfl | hc
      · exact ⟨hsize, by show b.written + n < b.size; omega⟩
      · exact hbytes c hc
    refine ⟨_, hqueued, ?_⟩
    rw [hpending, pending_queued hqueued, List.flatMap_cons, List.flatMap_cons, ← List.append_assoc,
      ← List.drop_drop, List.take_append_drop]

end Slots

end Kogata.User
