import Kogata.Kernel.PagerFrame
import Kogata.Lib.Run

/-!
# Which pager calls leave the mutex locked

`LockStep p before after` is a program that finds the mutex of `p` as `before`, leaves it as
`after` when it comes back, and never waits for a mutex in vain. Every public operation goes
from free to free, except a read or write at or beyond the end of the pager, whose early return
leaves the mutex locked (`pager_do_rw_past_end`). `pager_lock_balance` is the exact condition
for a single call, and follows files through any sequence of reads and writes.
-/

namespace Kogata.Kernel

open Lib.Effect Lib.Run

variable {W : Type}

/-- From a state where the mutex of the pager is `before`, the program does not wait forever for
a mutex, and the mutex is `after` when it comes back. -/
def LockStep {α : Type} (p : PagerId) (before after : Bool) (program : Call W α) : Prop :=
  ∀ s, (s.pager p).lock = before → program s ≠ .error .deadlock ∧
    ∀ a s', program s = .ok (a, s') → (s'.pager p).lock = after

section Rules

variable {p : PagerId} {before mid after : Bool} {α β : Type} {program : Call W α}

theorem LockStep.bind {rest : α → Call W β} (h : LockStep p before mid program)
    (hrest : ∀ a, LockStep p mid after (rest a)) : LockStep p before after (program >>= rest) := by
  intro s hs
  rw [run_bind]
  cases hrun : program s with
  | error stop =>
      refine ⟨fun heq => (h s hs).1 (hrun.trans ?_), fun a s' heq => (by cases heq)⟩
      exact congrArg _ (Except.error.inj heq)
  | ok x => exact hrest x.1 x.2 ((h s hs).2 x.1 x.2 hrun)

theorem lock_step_pure (a : α) : LockStep p before before (pure a : Call W α) := by
  intro s hs
  refine ⟨fun heq => (by cases heq), fun b s' heq => ?_⟩
  obtain ⟨-, rfl⟩ := run_pure_eq_ok heq
  exact hs

theorem lock_step_ite {c : Prop} [Decidable c] {other : Call W α}
    (h : c → LockStep p before after program) (hother : ¬ c → LockStep p before after other) :
    LockStep p before after (if c then program else other) := by
  split
  · next hc => exact h hc
  · next hc => exact hother hc

/-- The inside of an operation leaves the mutex as it is. -/
theorem Inner.lock_step (h : Inner p program) : LockStep p before before program := by
  intro s hs
  refine ⟨h.free s, fun a s' hrun => ?_⟩
  rw [(h.keeps s a s' hrun).same]
  exact hs

theorem lock_step_set_pager {change : Pager → Pager} (h : ∀ pg, (change pg).lock = pg.lock) :
    LockStep p before before (setPager p change : Call W Unit) := by
  intro s hs
  refine ⟨fun heq => (by cases heq), fun a s' heq => ?_⟩
  cases heq
  simp [h, hs]

theorem lock_step_lock : LockStep p false true (lockPager p : Call W Unit) := by
  intro s hs
  have hrun : lockPager p s = setPager p (fun pg => { pg with lock := true }) s := by
    simp only [lockPager, run_bind, thePager, run_ite]
    change (if (s.pager p).lock then _ else _) = _
    rw [hs]
    rfl
  rw [hrun]
  refine ⟨fun heq => (by cases heq), fun a s' heq => ?_⟩
  cases heq
  simp

theorem lock_step_unlock : LockStep p before false (unlockPager p : Call W Unit) := by
  intro s hs
  refine ⟨fun heq => (by cases heq), fun a s' heq => ?_⟩
  cases heq
  simp

end Rules

variable (m : Machine W) (p : PagerId)

theorem lock_step_shrink_pager (newSize : UInt32) :
    LockStep p true true (shrinkPager m p newSize) := by
  have hset : LockStep p true true
      (setPager p fun pg => { pg with size := newSize } : Call W Unit) :=
    lock_step_set_pager fun _ => rfl
  refine (inner_the_pager p).lock_step.bind fun pg => lock_step_ite (fun _ => ?_) fun _ => hset
  exact (inner_pager_unmap m p p _ _).lock_step.bind fun _ =>
    (inner_page_release m p _ _).lock_step.bind fun _ => hset

theorem lock_step_pager_resize (newSize : UInt32) :
    LockStep p false false (pagerResize m p newSize) := by
  have hend : ∀ ret, LockStep p true false (do
      unlockPager p
      return ret : Call W Bool) := fun ret =>
    LockStep.bind lock_step_unlock fun _ => lock_step_pure ret
  have hresize : ∀ resize, Inner p resize → LockStep p false false (do
      lockPager p
      let ret ← resize
      if ret then shrinkPager m p newSize
      unlockPager p
      return ret : Call W Bool) := by
    intro resize hinner
    refine LockStep.bind lock_step_lock fun _ => hinner.lock_step.bind fun ret => lock_step_ite
      (fun _ => ?_) fun _ => hend ret
    exact (lock_step_shrink_pager m p newSize).bind fun _ => hend ret
  refine (inner_the_pager p).lock_step.bind fun pg => ?_
  cases pg.ops with
  | swap allowResize => exact hresize _ (inner_pure allowResize)
  | vfs v => exact hresize _ (inner_ite (inner_ask _) (inner_pure false))
  | device physOffset => exact lock_step_pure false

theorem lock_step_pager_access (offset len : UInt32) (accessed dirty : Bool) :
    LockStep p false false (pagerAccess p offset len accessed dirty : Call W Unit) := by
  refine LockStep.bind lock_step_lock fun _ => (inner_assert _).lock_step.bind fun _ =>
    .bind (inner_for_pages fun page => ?_).lock_step fun _ => lock_step_unlock
  exact (inner_find_page p page).bind fun v => inner_when (inner_put_page p page _)

theorem lock_step_pager_commit_dirty : LockStep p false false (pagerCommitDirty m p) := by
  refine (inner_the_pager p).lock_step.bind fun pg => ?_
  cases pg.ops with
  | swap allowResize => exact lock_step_pure ()
  | vfs v =>
      exact LockStep.bind lock_step_lock fun _ => (inner_the_pager p).lock_step.bind fun pg =>
        (inner_vfs_page_commit m p v 0 pg.size).lock_step.bind fun _ => lock_step_unlock
  | device physOffset => exact lock_step_pure ()

theorem lock_step_pager_get_frame (offset : UInt32) :
    LockStep p false false (pagerGetFrame m p offset) := by
  have hend : LockStep p true false (do
      let ret := (← findPage p offset) >>> entFrameShift
      unlockPager p
      return ret : Call W UInt32) :=
    (inner_find_page p offset).lock_step.bind fun _ => LockStep.bind lock_step_unlock fun _ =>
      lock_step_pure _
  refine LockStep.bind lock_step_lock fun _ => (inner_assert _).lock_step.bind fun _ =>
    (inner_find_page p offset).lock_step.bind fun v => lock_step_ite (fun _ => ?_) fun _ => hend
  exact (inner_page_in m p offset pageSize).lock_step.bind fun _ => hend

theorem lock_step_pager_add_map (r : RegionId) :
    LockStep p false false (pagerAddMap p r : Call W Unit) :=
  LockStep.bind lock_step_lock fun _ =>
    .bind (lock_step_set_pager fun _ => rfl) fun _ => lock_step_unlock

theorem lock_step_pager_rm_map (r : RegionId) :
    LockStep p false false (pagerRmMap p r : Call W Unit) := by
  refine LockStep.bind lock_step_lock fun _ => (inner_the_pager p).lock_step.bind fun pg => ?_
  refine lock_step_ite
    (fun _ => .bind (inner_throw (by decide)).lock_step fun _ => lock_step_unlock)
    fun _ => .bind (lock_step_set_pager fun _ => rfl) fun _ => lock_step_unlock

/-- The rest of `pager_do_rw` once the offset is known to be inside the pager. -/
theorem lock_step_do_rw_inside (offset len firstPage regionLen : UInt32)
    (data : Option (List UInt8)) :
    LockStep p true false (doRwInside m p offset len firstPage regionLen data) := by
  refine (inner_ask _).lock_step.bind fun region => .bind (inner_ite (inner_pure _) ?_).lock_step
    fun ret => LockStep.bind lock_step_unlock fun _ => lock_step_pure ret
  exact (inner_transfer m p offset len firstPage regionLen region data).bind fun ret =>
    (inner_drop_region m p region regionLen).bind fun _ => inner_pure ret

/-- The state with the mutex of a pager taken or free. -/
def Vm.withPagerLock (s : Vm W) (p : PagerId) (held : Bool) : Vm W :=
  { s with pager := Function.update s.pager p { s.pager p with lock := held } }

@[simp] theorem Vm.with_pager_lock_lock (s : Vm W) (p : PagerId) (held : Bool) :
    ((s.withPagerLock p held).pager p).lock = held := by
  simp [Vm.withPagerLock]

@[simp] theorem Vm.with_pager_lock_size (s : Vm W) (p : PagerId) (held : Bool) :
    ((s.withPagerLock p held).pager p).size = (s.pager p).size := by
  simp [Vm.withPagerLock]

theorem run_the_pager (s : Vm W) : thePager p s = .ok (s.pager p, s) := rfl

variable {p}

theorem run_lock_pager {s : Vm W} (h : (s.pager p).lock = false) :
    lockPager p s = .ok ((), s.withPagerLock p true) := by
  simp only [lockPager, run_bind, run_the_pager, run_ite, h, Bool.false_eq_true, if_false]
  rfl

section ReadWrite

variable {s : Vm W} (hfree : (s.pager p).lock = false) {offset : UInt32}

include hfree

/-- A read or write at or beyond the end returns with the mutex locked. -/
theorem pager_do_rw_past_end (hpast : (s.pager p).size ≤ offset) (len : UInt32)
    (data : Option (List UInt8)) :
    pagerDoRw m p offset len data s = .ok ([], s.withPagerLock p true) := by
  simp only [pagerDoRw, run_bind, run_lock_pager hfree, run_the_pager, run_ite,
    Vm.with_pager_lock_size, ge_iff_le, if_pos hpast]
  rfl

/-- A read or write inside the pager gives the mutex back. -/
theorem pager_do_rw_inside (hinside : ¬ (s.pager p).size ≤ offset) (len : UInt32)
    (data : Option (List UInt8)) :
    pagerDoRw m p offset len data s ≠ .error .deadlock ∧
      ∀ bytes s', pagerDoRw m p offset len data s = .ok (bytes, s') →
        (s'.pager p).lock = false := by
  simp only [pagerDoRw]
  rw [run_bind_of_ok (run_lock_pager hfree), run_bind_of_ok (run_the_pager p _), run_ite,
    Vm.with_pager_lock_size, if_neg hinside]
  exact lock_step_do_rw_inside m p offset _ _ _ data _ (Vm.with_pager_lock_lock s p true)

/-- A read or write on a free pager never waits in vain. -/
theorem pager_do_rw_no_deadlock (offset len : UInt32) (data : Option (List UInt8)) :
    pagerDoRw m p offset len data s ≠ .error .deadlock := by
  by_cases hpast : (s.pager p).size ≤ offset
  · rw [pager_do_rw_past_end m hfree hpast]
    intro heq
    cases heq
  · exact (pager_do_rw_inside m hfree hpast len data).1

/-- A read or write gives the mutex back exactly when it starts inside the pager. -/
theorem pager_do_rw_lock_iff (offset len : UInt32) (data : Option (List UInt8)) :
    (∀ bytes s', pagerDoRw m p offset len data s = .ok (bytes, s') →
      (s'.pager p).lock = false) ↔ ¬ (s.pager p).size ≤ offset := by
  refine ⟨fun h hpast => ?_, fun hinside => (pager_do_rw_inside m hfree hinside len data).2⟩
  have hheld := h _ _ (pager_do_rw_past_end m hfree hpast len data)
  rw [Vm.with_pager_lock_lock] at hheld
  cases hheld

end ReadWrite

/-- A call of the public pager interface. -/
inductive PagerCall where
  | read (offset len : UInt32)
  | write (offset : UInt32) (buf : List UInt8)
  | resize (newSize : UInt32)
  | getFrame (offset : UInt32)
  | access (offset len : UInt32) (accessed dirty : Bool)
  | commitDirty
  | addMap (r : RegionId)
  | rmMap (r : RegionId)
  deriving DecidableEq

/-- The call on a pager; its result is dropped. -/
def PagerCall.perform (m : Machine W) (p : PagerId) : PagerCall → Call W Unit
  | .read offset len => do let _ ← pagerRead m p offset len
  | .write offset buf => do let _ ← pagerWrite m p offset buf
  | .resize newSize => do let _ ← pagerResize m p newSize
  | .getFrame offset => do let _ ← pagerGetFrame m p offset
  | .access offset len accessed dirty => pagerAccess p offset len accessed dirty
  | .commitDirty => pagerCommitDirty m p
  | .addMap r => pagerAddMap p r
  | .rmMap r => pagerRmMap p r

/-- The call is a read or a write at or beyond the end of the pager. -/
def PagerCall.PastEnd (pg : Pager) : PagerCall → Prop
  | .read offset _ | .write offset _ => pg.size ≤ offset
  | _ => False

/-- Dropping the result of a call does not change what it does. -/
theorem run_drop_ok {α : Type} {program : Call W α} {s s' : Vm W} {u : Unit} :
    (do let _ ← program : Call W Unit) s = .ok (u, s') ↔ ∃ a, program s = .ok (a, s') := by
  constructor
  · intro h
    obtain ⟨a, mid, hrun, h⟩ := run_bind_eq_ok h
    cases h
    exact ⟨a, hrun⟩
  · rintro ⟨a, hrun⟩
    rw [run_bind_of_ok hrun]
    rfl

/-- A call leaves the mutex free exactly when it does not read or write past the end. -/
theorem pager_call_lock_iff (call : PagerCall) {s : Vm W} (hfree : (s.pager p).lock = false) :
    (∀ u s', call.perform m p s = .ok (u, s') → (s'.pager p).lock = false) ↔
      ¬ call.PastEnd (s.pager p) := by
  have hbalanced : ∀ {program : Call W Unit}, LockStep p false false program →
      ((∀ u s', program s = .ok (u, s') → (s'.pager p).lock = false) ↔ ¬ False) :=
    fun h => ⟨fun _ hfalse => hfalse, fun _ => (h s hfree).2⟩
  have hdrop : ∀ {α : Type} {program : Call W α}, LockStep p false false program →
      LockStep p false false (do let _ ← program : Call W Unit) :=
    fun h => h.bind fun _ => lock_step_pure ()
  have hrw : ∀ offset len data,
      (∀ u s', (do let _ ← pagerDoRw m p offset len data : Call W Unit) s = .ok (u, s') →
        (s'.pager p).lock = false) ↔ ¬ (s.pager p).size ≤ offset := by
    intro offset len data
    rw [← pager_do_rw_lock_iff m hfree offset len data]
    simp only [run_drop_ok]
    exact ⟨fun h bytes s' hrun => h () s' ⟨bytes, hrun⟩, fun h _ s' ⟨bytes, hrun⟩ =>
      h bytes s' hrun⟩
  cases call with
  | read offset len => exact hrw offset len none
  | write offset buf => exact hrw offset _ (some buf)
  | resize newSize => exact hbalanced (hdrop (lock_step_pager_resize m p newSize))
  | getFrame offset => exact hbalanced (hdrop (lock_step_pager_get_frame m p offset))
  | access offset len accessed dirty =>
      exact hbalanced (lock_step_pager_access p offset len accessed dirty)
  | commitDirty => exact hbalanced (lock_step_pager_commit_dirty m p)
  | addMap r => exact hbalanced (lock_step_pager_add_map p r)
  | rmMap r => exact hbalanced (lock_step_pager_rm_map p r)

/-- Whether `p->ops->resize` agrees to the new size. -/
def resizeGranted (m : Machine W) (ops : PagerOps) (newSize : UInt32) (world : W) : Bool :=
  match ops with
  | .swap allowResize => allowResize
  | .vfs v => v.canResize && (m.vfsResize v.node newSize world).1
  | .device _ => false

/-- The inside of an operation keeps the size of the pager. -/
theorem Inner.size_eq {α : Type} {program : Call W α} (h : Inner p program) {s s' : Vm W} {a : α}
    (hrun : program s = .ok (a, s')) : (s'.pager p).size = (s.pager p).size := by
  rw [(h.keeps s a s' hrun).same]

theorem shrink_pager_size {newSize : UInt32} {s s' : Vm W} {u : Unit}
    (h : shrinkPager m p newSize s = .ok (u, s')) : (s'.pager p).size = newSize := by
  have hset : ∀ {t t' : Vm W} {v : Unit},
      (setPager p fun pg => { pg with size := newSize } : Call W Unit) t = .ok (v, t') →
      (t'.pager p).size = newSize := by
    intro t t' v hrun
    cases hrun
    simp
  simp only [shrinkPager] at h
  rw [run_bind_of_ok (run_the_pager p s), run_ite] at h
  split at h
  · obtain ⟨_, s1, -, h⟩ := run_bind_eq_ok h
    obtain ⟨_, s2, -, h⟩ := run_bind_eq_ok h
    exact hset h
  · exact hset h

/-- What `pager_resize` answers, and the size that it leaves. -/
theorem pager_resize_ok {newSize : UInt32} {s s' : Vm W} {ret : Bool}
    (hfree : (s.pager p).lock = false) (h : pagerResize m p newSize s = .ok (ret, s')) :
    (s'.pager p).size =
      if resizeGranted m (s.pager p).ops newSize s.world then newSize else (s.pager p).size := by
  have hlocked : ∀ (resize : Call W Bool) (granted : Bool), (∀ t : Vm W, t.world = s.world →
        ∀ ret t', resize t = .ok (ret, t') → ret = granted ∧ t'.pager = t.pager) →
      (do
        lockPager p
        let ret ← resize
        if ret then shrinkPager m p newSize
        unlockPager p
        return ret : Call W Bool) s = .ok (ret, s') →
      (s'.pager p).size = if granted then newSize else (s.pager p).size := by
    intro resize granted hresize hrun
    rw [run_bind_of_ok (run_lock_pager hfree)] at hrun
    obtain ⟨answer, s1, hanswer, hrun⟩ := run_bind_eq_ok hrun
    have hfacts := hresize (s.withPagerLock p true) rfl _ _ hanswer
    obtain ⟨rfl, hpager⟩ := hfacts
    rw [run_ite] at hrun
    cases answer with
    | false =>
        cases hrun
        simp [hpager, Vm.withPagerLock]
    | true =>
        obtain ⟨_, s2, hshrink, hrun⟩ := run_bind_eq_ok hrun
        cases hrun
        simpa using shrink_pager_size m hshrink
  simp only [pagerResize] at h
  rw [run_bind_of_ok (run_the_pager p s)] at h
  cases hops : (s.pager p).ops with
  | swap allowResize =>
      rw [hops] at h
      refine hlocked (pure allowResize) allowResize (fun t _ ret t' hrun => ?_) h
      obtain ⟨rfl, rfl⟩ := run_pure_eq_ok hrun
      exact ⟨rfl, rfl⟩
  | vfs v =>
      rw [hops] at h
      refine hlocked _ (v.canResize && (m.vfsResize v.node newSize s.world).1)
        (fun t ht ret t' hrun => ?_) h
      cases hcan : v.canResize with
      | false =>
          rw [hcan] at hrun
          cases hrun
          exact ⟨rfl, rfl⟩
      | true =>
          rw [hcan] at hrun
          cases hrun
          rw [ht]
          exact ⟨by simp, rfl⟩
  | device physOffset =>
      rw [hops] at h
      cases h
      rfl

/-- A read or a write of a file whose node reads and writes through its pager. -/
inductive FileCall where
  | read (offset len : UInt32)
  | write (offset : UInt32) (buf : List UInt8)
  deriving DecidableEq

/-- The call through a handle; its result is dropped. -/
def FileCall.perform (m : Machine W) (f : FsHandle) : FileCall → Call W Unit
  | .read offset len => do let _ ← fileRead m f offset len
  | .write offset buf => do let _ ← fileWrite m f offset buf

/-- The size of the pager once `fs_write_to_pager` has tried to grow it. -/
def sizeForWrite (m : Machine W) (pg : Pager) (stop : UInt32) (world : W) : UInt32 :=
  if stop > pg.size ∧ resizeGranted m pg.ops stop world then stop else pg.size

/-- The call gets to the pager and starts at or beyond its end. -/
def FileCall.PastEnd (m : Machine W) (f : FsHandle) (p : PagerId) (s : Vm W) : FileCall → Prop
  | .read offset len => len ≠ 0 ∧ f.mode &&& fmRead ≠ 0 ∧ (s.pager p).size ≤ offset
  | .write offset buf =>
      UInt32.ofNat buf.length ≠ 0 ∧ f.mode &&& fmWrite ≠ 0 ∧
        sizeForWrite m (s.pager p) (offset + UInt32.ofNat buf.length) s.world ≤ offset

/-- The runs of file reads and writes on one pager, by any handles of its node, in which no call
starts at or beyond the end. -/
def fileRuns (m : Machine W) (p : PagerId) : System (Vm W) where
  init := fun s => (s.pager p).lock = false
  step := fun s s' => ∃ (f : FsHandle) (call : FileCall) (u : Unit), f.pager = some p ∧
    ¬ call.PastEnd m f p s ∧ call.perform m f s = .ok (u, s')

/-- The call does not wait in vain, and under the condition it gives the mutex back. -/
def Serves {α : Type} (p : PagerId) (condition : Prop) (program : Call W α) (s : Vm W) : Prop :=
  program s ≠ .error .deadlock ∧
    (condition → ∀ a s', program s = .ok (a, s') → (s'.pager p).lock = false)

section Serves

variable {s : Vm W} (hfree : (s.pager p).lock = false)

include hfree

theorem serves_pure {α : Type} (a : α) (condition : Prop) :
    Serves p condition (pure a : Call W α) s := by
  refine ⟨fun heq => (by cases heq), fun _ b s' hrun => ?_⟩
  obtain ⟨-, rfl⟩ := run_pure_eq_ok hrun
  exact hfree

theorem serves_do_rw (offset len : UInt32) (data : Option (List UInt8)) :
    Serves p (¬ (s.pager p).size ≤ offset) (pagerDoRw m p offset len data) s :=
  ⟨pager_do_rw_no_deadlock m hfree offset len data,
    (pager_do_rw_lock_iff m hfree offset len data).mpr⟩

theorem serves_fs_write {f : FsHandle} (hf : f.pager = some p) (offset : UInt32)
    (buf : List UInt8) : Serves p (¬ sizeForWrite m (s.pager p)
      (offset + UInt32.ofNat buf.length) s.world ≤ offset) (fsWriteToPager m f offset buf) s := by
  obtain ⟨stop, hstop⟩ : ∃ stop, stop = offset + UInt32.ofNat buf.length := ⟨_, rfl⟩
  have hresize := lock_step_pager_resize m p stop s hfree
  simp only [fsWriteToPager, hf, ← hstop, sizeForWrite, Serves]
  rw [run_bind_of_ok (run_the_pager p s), run_ite]
  by_cases hgrow : stop > (s.pager p).size
  · rw [if_pos hgrow]
    cases hrun : pagerResize m p stop s with
    | error halt =>
        rw [run_bind_of_error hrun]
        exact ⟨fun heq => hresize.1 (hrun.trans (congrArg _ (Except.error.inj heq))),
          fun _ a s' heq => (by cases heq)⟩
    | ok x =>
        have hsize := pager_resize_ok m hfree hrun
        obtain ⟨hquiet, hserved⟩ := serves_do_rw m (hresize.2 x.1 x.2 hrun) offset
          (UInt32.ofNat buf.length) (some buf)
        rw [run_bind_of_ok hrun]
        refine ⟨hquiet, fun hinside => hserved ?_⟩
        rw [hsize]
        simpa only [hgrow, true_and] using hinside
  · rw [if_neg hgrow]
    simp only [hgrow, false_and, if_false]
    exact serves_do_rw m hfree offset _ (some buf)

end Serves

/-- Dropping the result changes nothing. -/
theorem Serves.drop {α : Type} {condition : Prop} {program : Call W α} {s : Vm W}
    (h : Serves p condition program s) :
    Serves p condition (do let _ ← program : Call W Unit) s := by
  refine ⟨fun heq => ?_, fun hc u s' hrun => ?_⟩
  · cases hrun : program s with
    | error stop =>
        rw [run_bind_of_error hrun] at heq
        exact h.1 (hrun.trans (congrArg _ (Except.error.inj heq)))
    | ok x =>
        rw [run_bind_of_ok hrun] at heq
        cases heq
  · obtain ⟨a, hrun⟩ := run_drop_ok.mp hrun
    exact h.2 hc a s' hrun

/-- A file call on a free pager never waits in vain, and gives the mutex back unless it starts
at or beyond the end. -/
theorem file_call_serves {f : FsHandle} (hf : f.pager = some p) (call : FileCall) {s : Vm W}
    (hfree : (s.pager p).lock = false) :
    Serves p (¬ call.PastEnd m f p s) (call.perform m f) s := by
  cases call with
  | read offset len =>
      refine Serves.drop ?_
      unfold fileRead FileCall.PastEnd
      by_cases hlen : len = 0
      · simpa only [hlen, if_true] using serves_pure hfree [] _
      · by_cases hmode : f.mode &&& fmRead = 0
        · simpa only [hlen, hmode, if_false, if_true] using serves_pure hfree [] _
        · simpa [hlen, hmode, fsReadFromPager, hf, pagerRead] using
            serves_do_rw m hfree offset len none
  | write offset buf =>
      refine Serves.drop ?_
      unfold fileWrite FileCall.PastEnd
      by_cases hlen : UInt32.ofNat buf.length = 0
      · simpa only [hlen, if_true] using serves_pure hfree [] _
      · by_cases hmode : f.mode &&& fmWrite = 0
        · simpa only [hlen, hmode, if_false, if_true] using serves_pure hfree [] _
        · simpa [hlen, hmode] using serves_fs_write m hfree hf offset buf

/-- The mutex of a pager stays free in every run of file calls that start inside it. -/
theorem free_of_file_run {s : Vm W} (h : Reachable (fileRuns m p) s) :
    (s.pager p).lock = false := by
  refine Reachable.induct (motive := fun s => (s.pager p).lock = false) (fun s hs => hs)
    (fun s s' hfree hstep => ?_) h
  obtain ⟨f, call, u, hf, hinside, hrun⟩ := hstep
  exact (file_call_serves m hf call hfree).2 hinside u s' hrun

/-- A call of the pager interface on a free pager gives the mutex back exactly when it is not a
read or write that starts at or beyond the end; and in a run of file reads and writes none of
which starts there, no call ever waits on a mutex left behind. -/
theorem pager_lock_balance (p : PagerId) :
    (∀ (s : Vm W) (call : PagerCall), (s.pager p).lock = false →
      ((∀ u s', call.perform m p s = .ok (u, s') → (s'.pager p).lock = false) ↔
        ¬ call.PastEnd (s.pager p))) ∧
      ∀ (s : Vm W) (f : FsHandle) (call : FileCall), Reachable (fileRuns m p) s →
        f.pager = some p → (s.pager p).lock = false ∧ call.perform m f s ≠ .error .deadlock :=
  ⟨fun _ call hfree => pager_call_lock_iff m call hfree, fun _ _ call hrun hf =>
    ⟨free_of_file_run m hrun, (file_call_serves m hf call (free_of_file_run m hrun)).1⟩⟩

/-- A state with one page-long swap file. -/
def Vm.onePageFile : Vm Unit :=
  { Vm.blank with
    pager := fun _ => { ops := .swap true, size := 0x1000, pages := fun _ => 0, lock := false,
                        maps := [] } }

/-- `pager_lock_balance` on a page-long file. -/
theorem pager_lock_balance_one_page :
    (∀ call : PagerCall,
      ((∀ u s', call.perform Machine.steady 0 Vm.onePageFile = .ok (u, s') →
        (s'.pager 0).lock = false) ↔ ¬ call.PastEnd (Vm.onePageFile.pager 0))) ∧
      ∀ call : FileCall,
        call.perform Machine.steady { id := 0, mode := 3, pager := some 0 } Vm.onePageFile ≠
          .error .deadlock := by
  obtain ⟨hcall, hrun⟩ := pager_lock_balance Machine.steady 0
  exact ⟨fun call => hcall _ call rfl, fun call =>
    (hrun Vm.onePageFile _ call (.init (s := Vm.onePageFile) rfl) rfl).2⟩

/-- Reading a page-long file at its end leaves the mutex locked, and the next read never
returns. -/
theorem read_at_end_keeps_lock :
    (¬ ∀ (s : Vm Unit) (call : PagerCall), (s.pager 0).lock = false →
      ∀ u s', call.perform Machine.steady 0 s = .ok (u, s') → (s'.pager 0).lock = false) ∧
      ∃ s', pagerRead Machine.steady 0 0x1000 128 Vm.onePageFile = .ok ([], s') ∧
        pagerRead Machine.steady 0 0 128 s' = .error .deadlock := by
  refine ⟨fun hclaim => ?_, _, rfl, rfl⟩
  have hend : PagerCall.PastEnd (Vm.onePageFile.pager 0) (.read 0x1000 128) :=
    UInt32.le_refl 0x1000
  exact (pager_call_lock_iff Machine.steady (.read 0x1000 128) rfl).mp
    (hclaim Vm.onePageFile _ rfl) hend

end Kogata.Kernel
