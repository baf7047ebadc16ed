import Kogata.Kernel.FrameBooks

/-!
# Frames are conserved by pagers

Runs of the public interface of `pager.c` on any number of swap and VFS pagers, over a machine on
which any allocation may fail. As long as no fault lies at or behind the end of its pager, and
`pd_map_page` does not fail where `swap_page_in` has just taken a frame, every frame that has been
taken and not been given back is recorded in one entry of one pager, and a pager that is deleted
gives back all its frames (`frames_conserved`).
-/

namespace Kogata.Kernel

open Lib.Effect Lib.Run Lib.Custody

variable {W : Type}

/-- The pagers that have been made and not deleted, and for which pager each frame was taken the
last time. -/
structure Frames (W : Type) where
  vm : Vm (Board W)
  live : List PagerId
  taker : UInt32 → PagerId

/-- A call of the pager interface. -/
inductive FrameEvent where
  | newSwap (size : UInt32) (allowResize : Bool)
  | newVfs (size : UInt32) (vfsPager : VfsPager)
  | call (p : PagerId) (call : PagerCall)
  | delete (p : PagerId)

/-- What a call on the pager `p` has taken is its. -/
def Frames.attribute (c : Frames W) (p : PagerId) (vm : Vm (Board W)) : UInt32 → PagerId :=
  fun frame =>
    if .frameAlloc frame ∈ newCalls c.vm.world.calls vm.world.calls then p else c.taker frame

variable (m : Machine W) (d : Backing W)

/-- A pager joins the others, when it could be made. -/
def Frames.create (c : Frames W) (made : Call (Board W) (Option PagerId)) : Option (Frames W) :=
  match made c.vm with
  | .ok (some p, vm) => some { c with vm := vm, live := p :: c.live }
  | .ok (none, vm) => some { c with vm := vm }
  | .error _ => none

/-- One call that returns. -/
def Frames.step (c : Frames W) : FrameEvent → Option (Frames W)
  | .newSwap size allowResize => c.create (newSwapPager (board m d) size allowResize)
  | .newVfs size vfsPager => c.create (newVfsPager (board m d) size vfsPager)
  | .call p call =>
      if p ∈ c.live then
        match call.perform (board m d) p c.vm with
        | .ok (_, vm) => some { c with vm := vm, taker := c.attribute p vm }
        | .error _ => none
      else none
  | .delete p =>
      if p ∈ c.live then
        match deletePager (board m d) p c.vm with
        | .ok (_, vm) => some { vm := vm, live := c.live.erase p, taker := c.attribute p vm }
        | .error _ => none
      else none

/-- The pager takes its frames in `swap_page_in`. -/
def PagerOps.isSwap : PagerOps → Bool
  | .swap _ => true
  | _ => false

/-- The calls that may happen: a fault lies inside the pager, and `pd_map_page` does not fail for a
frame that `swap_page_in` has just taken. -/
def Frames.mayHappen (c : Frames W) : FrameEvent → Bool
  | .call p call =>
      (match call with
        | .getFrame offset => offset < (c.vm.pager p).size
        | _ => true) &&
      (!(c.vm.pager p).ops.isSwap || match call.perform (board m d) p c.vm with
        | .ok (_, vm) => NoneLost (newCalls c.vm.world.calls vm.world.calls)
        | .error _ => true)
  | _ => true

/-- Nothing has been made, and nothing been called. -/
def Frames.Initial (c : Frames W) : Prop :=
  c.live = [] ∧ c.vm.world.calls = []

/-- The runs of the calls that may happen. -/
def frameRuns : System (Frames W) :=
  eventRuns Frames.Initial (Frames.step m d) fun c event => c.mayHappen m d event = true

/-- No entry is that of a page at or behind the end of its pager. -/
def Bounded (p : PagerId) (s : Vm (Board W)) : Prop :=
  ∀ page, (s.pager p).pages page ≠ 0 → page < (s.pager p).size

/-- What holds between the calls. -/
structure Frames.Good (c : Frames W) : Prop where
  books : Books c.live none c.vm
  bounded : ∀ p ∈ c.live, Bounded p c.vm
  kind : ∀ p ∈ c.live, ∀ base, (c.vm.pager p).ops ≠ .device base
  nodup : c.live.Nodup
  made : ∀ p ∈ c.live, p < c.vm.next
  taker : ∀ p page frame, recorded c.live c.vm (p, page) = some frame → c.taker frame = p

/-- What a call on the pager `p` leaves behind. -/
structure Served (live : List PagerId) (p : PagerId) (s s' : Vm (Board W)) : Prop where
  others : ∀ q ≠ p, s'.pager q = s.pager q
  ops : (s'.pager p).ops = (s.pager p).ops
  next : s'.next = s.next
  bounded : Bounded p s'
  books : Books live none s'
  calls : ∃ new, s'.world.calls = new ++ s.world.calls ∧
    ∀ frame, frame ≠ 0 → .frameAlloc frame ∈ new →
      ∀ q ∈ live, q ≠ p → ∀ page, (s.pager q).pages page >>> entFrameShift ≠ frame

section Calls

variable {m d} {live : List PagerId} {p : PagerId} {strict : Prop} {s mid s' : Vm (Board W)}

/-- An operation that touches pages below the size only, and loses no frame. -/
theorem Conserves.served (h : Conserves live p strict (· < (s.pager p).size) none none s s')
    (hnone : ∀ new, s'.world.calls = new ++ s.world.calls → strict → NoneLost new)
    (hs : Books live none s) (hbound : Bounded p s) : Served live p s s' where
  others := h.others
  ops := h.ops
  next := h.next
  bounded := fun page hpage => by
    rw [h.size]
    exact (h.pages page hpage).elim (hbound page) id
  books := by
    obtain ⟨new, hnew, hbooks⟩ := h.calls
    exact (hbooks (hnone new hnew) hs).1
  calls := by
    obtain ⟨new, hnew, hbooks⟩ := h.calls
    exact ⟨new, hnew, (hbooks (hnone new hnew) hs).2⟩

/-- An operation that gives no page an entry. -/
theorem Conserves.served_none (h : KeepsBooks live p False (fun _ => False) s s')
    (hs : Books live none s) (hbound : Bounded p s) : Served live p s s' := by
  have hweak : Conserves live p False (· < (s.pager p).size) none none s s' :=
    h.weaken fun _ => False.elim
  exact hweak.served (fun _ _ => False.elim) hs hbound

theorem Served.then (h : Served live p s mid)
    (h' : Books live none mid → Bounded p mid → Served live p mid s') : Served live p s s' := by
  have hlast := h' h.books h.bounded
  refine ⟨fun q hq => (hlast.others q hq).trans (h.others q hq), hlast.ops.trans h.ops,
    hlast.next.trans h.next, hlast.bounded, hlast.books, ?_⟩
  obtain ⟨new, hnew, hfresh⟩ := h.calls
  obtain ⟨new', hnew', hfresh'⟩ := hlast.calls
  refine ⟨new' ++ new, by rw [hnew', hnew, List.append_assoc], fun frame hne hmem q hq hqp => ?_⟩
  rcases List.mem_append.mp hmem with hmem | hmem
  · rw [← h.others q hqp]
    exact hfresh' frame hne hmem q hq hqp
  · exact hfresh frame hne hmem q hq hqp

section

variable (hp : p ∈ live) (hkind : ∀ base, (s.pager p).ops ≠ .device base)
  (hs : Books live none s) (hbound : Bounded p s)

include hp hkind hs hbound

/-- Releasing what lies behind a new size leaves nothing there. -/
theorem shrink_served {newSize : UInt32} {u : Unit}
    (h : shrinkPager (board m d) p newSize s = .ok (u, s')) : Served live p s s' := by
  obtain ⟨haligned, hfront⟩ := page_align_up_spec newSize
  rw [shrinkPager, run_bind_of_ok (run_the_pager p s)] at h
  -- Whatever comes before, the new size must cover the entries that are left.
  have hset : ∀ t, KeepsBooks live p False (fun _ => False) s t →
      (∀ page, (t.pager p).pages page ≠ 0 → page < newSize) →
      setPager p (fun pg => { pg with size := newSize }) t = .ok (u, s') → Served live p s s' := by
    intro t ht hcovers hrun
    have hbooks : Books live none t := ht.books hs
    obtain ⟨new, hnew, hfresh⟩ := (ht.served_none hs hbound).calls
    cases hrun
    have hpages : ∀ q, ((Function.update t.pager p { t.pager p with size := newSize }) q).pages =
        (t.pager q).pages := by
      intro q
      by_cases hq : q = p
      · rw [hq, Function.update_self]
      · rw [Function.update_of_ne hq]
    refine ⟨fun q hq => (Function.update_of_ne hq _ _).trans (ht.others q hq), ?_, ht.next, ?_,
      hbooks.neutral (refl_of Neutral _) fun q _ => hpages q, new, hnew, hfresh⟩
    · simpa using ht.ops
    · intro page hpage
      rw [hpages] at hpage
      simpa using hcovers page hpage
  dsimp only at h
  rw [run_ite] at h
  split at h
  · next hshrinks =>
      obtain ⟨_, s₁, hunmap, h⟩ := run_bind_eq_ok h
      have hunmapped : KeepsBooks live p False (fun _ => False) s s₁ :=
        conserves_pager_unmap _ _ _ _ _ hunmap
      obtain ⟨_, s₂, hrelease, h⟩ := run_bind_eq_ok h
      obtain ⟨hreleased, hgone⟩ := releases_page_release hp
        (fun base => by rw [hunmapped.ops]; exact hkind base) (hunmapped.books hs) hrelease
      refine hset s₂ (hunmapped.trans hreleased) (fun page hpage => ?_) h
      have hbefore := ((hunmapped.trans hreleased).pages page hpage).resolve_right id
      have hpage' := (hs.entry p hp page hbefore).2
      refine hfront page hpage' ?_
      by_contra hbehind
      refine hpage (hgone page (mem_pages_of_aligned haligned hpage' (UInt32.not_lt.mp hbehind) ?_))
      rw [UInt32.add_comm, UInt32.sub_add_cancel]
      exact hbound page hbefore
  · next hgrows =>
      refine hset s (refl_of (KeepsBooks live p False _) s) (fun page hpage => ?_) h
      refine hfront page (hs.entry p hp page hpage).2 ?_
      exact UInt32.lt_of_lt_of_le (hbound page hpage) (UInt32.not_lt.mp hgrows)

theorem resize_served {newSize : UInt32} {ret : Bool}
    (h : pagerResize (board m d) p newSize s = .ok (ret, s')) : Served live p s s' := by
  -- The part that both kinds of pagers have in common.
  have hlocked : ∀ resize : Call (Board W) Bool,
      Keeps (KeepsBooks live p False (fun _ => False)) resize →
      (do
        lockPager p
        let ret ← resize
        if ret then shrinkPager (board m d) p newSize
        unlockPager p
        return ret : Call (Board W) Bool) s = .ok (ret, s') → Served live p s s' := by
    intro resize hresize hrun
    obtain ⟨_, s₁, hlock, hrun⟩ := run_bind_eq_ok hrun
    obtain ⟨granted, s₂, hdriver, hrun⟩ := run_bind_eq_ok hrun
    have hfirst : KeepsBooks live p False (fun _ => False) s s₂ :=
      (conserves_lock_pager _ _ _ hlock).trans (hresize _ _ _ hdriver)
    refine (hfirst.served_none hs hbound).then fun hbooks hbounded => ?_
    have hunlock : Keeps (KeepsBooks live p False (fun _ => False))
        (do unlockPager p; return granted : Call (Board W) Bool) :=
      conserves_unlock_pager.bind fun _ => keeps_pure _
    cases granted with
    | false => exact Conserves.served_none (hunlock _ _ _ hrun) hbooks hbounded
    | true =>
        obtain ⟨_, s₃, hshrink, hrun⟩ := run_bind_eq_ok hrun
        refine (shrink_served hp (fun base => by rw [hfirst.ops]; exact hkind base) hbooks hbounded
          hshrink).then fun hbooks hbounded => ?_
        exact Conserves.served_none (hunlock _ _ _ hrun) hbooks hbounded
  rw [pagerResize, run_bind_of_ok (run_the_pager p s)] at h
  cases hops : (s.pager p).ops with
  | swap allowResize =>
      rw [hops] at h
      exact hlocked _ (keeps_pure _) h
  | vfs v =>
      rw [hops] at h
      exact hlocked _ (keeps_ite (fun _ => conserves_ask fun b => neutral_vfs_resize m d b _ _)
        fun _ => keeps_pure _) h
  | device base => exact absurd hops (hkind base)

/-- Every call of the interface keeps the books in order. -/
theorem call_served {call : PagerCall} {u : Unit}
    (hfault : ∀ offset, call = .getFrame offset → offset < (s.pager p).size)
    (hnone : ∀ new, s'.world.calls = new ++ s.world.calls → (s.pager p).ops.isSwap = true →
      NoneLost new)
    (h : call.perform (board m d) p s = .ok (u, s')) : Served live p s s' := by
  have hown : OwnsFrames ((s.pager p).ops.isSwap = true) (s.pager p).ops :=
    ⟨hkind, fun allowResize hops => by rw [hops]; rfl⟩
  have hdrop : ∀ {α : Type} {program : Call (Board W) α},
      (do let _ ← program : Call (Board W) Unit) s = .ok (u, s') → ∃ a, program s = .ok (a, s') :=
    run_drop_ok.mp
  have hquick : ∀ program : Call (Board W) Unit,
      Keeps (KeepsBooks live p False (fun _ => False)) program →
      program s = .ok (u, s') → Served live p s s' :=
    fun program hprogram hrun => (hprogram _ _ _ hrun).served_none hs hbound
  cases call with
  | read offset len =>
      obtain ⟨bytes, hrun⟩ := hdrop h
      exact (do_rw_conserves hp hown (fun _ => id) hrun).served hnone hs hbound
  | write offset buf =>
      obtain ⟨bytes, hrun⟩ := hdrop h
      exact (do_rw_conserves hp hown (fun _ => id) hrun).served hnone hs hbound
  | resize newSize =>
      obtain ⟨ret, hrun⟩ := hdrop h
      exact resize_served hp hkind hs hbound hrun
  | getFrame offset =>
      obtain ⟨frame, hrun⟩ := hdrop h
      refine (get_frame_conserves hp hown (fun page hpage => ?_) hrun).served hnone hs hbound
      obtain ⟨i, hvalue, hlt⟩ := mem_pages_of hpage
      have hadd : (offset + pageSize).toNat ≤ offset.toNat + 4096 := by
        rw [UInt32.toNat_add]
        exact Nat.mod_le _ _
      obtain rfl : page = offset := UInt32.toNat_inj.mp (by omega)
      exact hfault page rfl
  | access offset len accessed dirty =>
      exact hquick _ (conserves_pager_access offset len accessed dirty) h
  | commitDirty => exact hquick _ conserves_pager_commit_dirty h
  | addMap r => exact hquick _ (conserves_pager_add_map r) h
  | rmMap r => exact hquick _ (conserves_pager_rm_map r) h

/-- A pager that is deleted has no entry left. -/
theorem delete_served {u : Unit} (h : deletePager (board m d) p s = .ok (u, s')) :
    Served live p s s' ∧ ∀ page, (s'.pager p).pages page = 0 := by
  rw [deletePager, run_bind_of_ok (run_the_pager p s)] at h
  obtain ⟨_, s₁, hassert, h⟩ := run_bind_eq_ok h
  obtain ⟨_, s₂, hlock, h⟩ := run_bind_eq_ok h
  have hfirst : KeepsBooks live p False (fun _ => False) s s₂ :=
    Conserves.trans (conserves_assert _ _ _ _ hassert) (conserves_lock_pager _ _ _ hlock)
  rw [run_bind_of_ok (run_the_pager p s₂)] at h
  have hrelease : ∀ t, KeepsBooks live p False (fun _ => False) s t →
      pageRelease (board m d) p 0 (s₂.pager p).size t = .ok (u, s') →
      Served live p s s' ∧ ∀ page, (s'.pager p).pages page = 0 := by
    intro t ht hrun
    obtain ⟨hreleased, hgone⟩ := releases_page_release hp
      (fun base => by rw [ht.ops]; exact hkind base) (ht.books hs) hrun
    refine ⟨(ht.trans hreleased).served_none hs hbound, fun page => ?_⟩
    by_contra hthere
    have hbefore := ((ht.trans hreleased).pages page hthere).resolve_right id
    refine hthere (hgone page (mem_pages_of_zero (hs.entry p hp page hbefore).2 ?_))
    rw [hfirst.size]
    exact hbound page hbefore
  cases hops : (s₂.pager p).ops with
  | vfs v =>
      rw [hops] at h
      obtain ⟨_, s₃, hcommit, h⟩ := run_bind_eq_ok h
      exact hrelease s₃ (hfirst.trans (conserves_vfs_page_commit v _ _ _ _ _ hcommit)) h
  | swap allowResize =>
      rw [hops] at h
      exact hrelease s₂ hfirst h
  | device base =>
      rw [hops] at h
      exact hrelease s₂ hfirst h

end

/-- What making a pager does: an allocation fails, or there is a new pager without entries. -/
theorem new_pager_made {ops : PagerOps} {size : UInt32} {made : Option PagerId}
    (h : newPager (board m d) ops size s = .ok (made, s')) : Neutral s.world s'.world ∧
      (made = none ∧ s'.pager = s.pager ∧ s'.next = s.next ∨
        made = some s.next ∧ s'.next = s.next + 1 ∧ (∀ q ≠ s.next, s'.pager q = s.pager q) ∧
          s'.pager s.next =
            { ops := ops, size := size, pages := fun _ => 0, lock := false, maps := [] }) := by
  have hmalloc : ∀ {t t' : Vm (Board W)} {ok : Bool}, ask (board m d).malloc t = .ok (ok, t') →
      t'.world.calls = .malloc ok :: t.world.calls ∧
        t'.world.frameBitset = t.world.frameBitset ∧ t'.pager = t.pager ∧ t'.next = t.next := by
    intro t t' ok hrun
    cases hrun
    exact ⟨rfl, rfl, rfl, rfl⟩
  obtain ⟨ok, s₁, hask, h⟩ := run_bind_eq_ok h
  obtain ⟨hcalls, hbits, hpager, hnext⟩ := hmalloc hask
  have hfirst : Neutral s.world s₁.world := neutral_record _ (.malloc ok) rfl hcalls hbits
  cases ok with
  | false =>
      cases h
      exact ⟨hfirst, .inl ⟨rfl, hpager, hnext⟩⟩
  | true =>
      obtain ⟨ok', s₂, hask', h⟩ := run_bind_eq_ok h
      obtain ⟨hcalls', hbits', hpager', hnext'⟩ := hmalloc hask'
      have hboth : Neutral s.world s₂.world :=
        ⟨⟨[.malloc ok', .malloc true], by rw [hcalls', hcalls]; rfl, by simp [MachineCall.isNeutral]⟩,
          hbits'.trans hbits⟩
      rw [hpager] at hpager'
      rw [hnext] at hnext'
      cases ok' with
      | false =>
          cases h
          exact ⟨hboth, .inl ⟨rfl, hpager', hnext'⟩⟩
      | true =>
          cases h
          refine ⟨hboth, .inr ⟨by rw [hnext'], by rw [← hnext'], fun q hq => ?_, ?_⟩⟩
          · rw [← hpager']
            exact Function.update_of_ne (by rw [hnext']; exact hq) _ _
          · rw [← hnext']
            exact Function.update_self _ _ _

/-- A pager that is made joins the others. -/
theorem create_good {c c' : Frames W} {ops : PagerOps} {size : UInt32}
    (hkind : ∀ base, ops ≠ .device base) (hc : c.Good)
    (h : c.create (newPager (board m d) ops size) = some c') : c'.Good := by
  unfold Frames.create at h
  split at h
  · next p vm hmade =>
      cases h
      obtain ⟨hneutral, hnone | ⟨hp, hnext, hothers, hnew⟩⟩ := new_pager_made hmade
      · cases hnone.1
      · obtain rfl := Option.some.inj hp
        have hlt : ∀ q ∈ c.live, q ≠ c.vm.next := fun q hq => Nat.ne_of_lt (hc.made q hq)
        -- The new pager records nothing, and the others what they did.
        have hrecorded : ∀ slot, recorded (c.vm.next :: c.live) vm slot =
            recorded c.live c.vm slot := by
          rintro ⟨q, page⟩
          by_cases hq : q = c.vm.next
          · subst hq
            have hnot : c.vm.next ∉ c.live := fun hmem => hlt _ hmem rfl
            simp [recorded, hnot, hnew]
          · simp [recorded, hq, hothers q hq]
        obtain ⟨⟨new, hcalls, hneutrals⟩, hbits⟩ := hneutral
        refine ⟨⟨hc.books.balanced.congr (fun frame => ?_) hrecorded, fun frame hne => ?_, ?_⟩,
          ?_, ?_, ?_, ?_, fun q page frame hframe => ?_⟩
        · rw [hcalls, owed_append hneutrals]
        · rw [hcalls, owed_append hneutrals] at hne
          rw [hbits]
          exact hc.books.marked frame hne
        · intro q hq page hpage
          rcases List.mem_cons.mp hq with rfl | hq
          · rw [hnew] at hpage
            exact absurd rfl hpage
          · rw [hothers q (hlt q hq)] at hpage ⊢
            exact hc.books.entry q hq page hpage
        · intro q hq page hpage
          rcases List.mem_cons.mp hq with rfl | hq
          · rw [hnew] at hpage
            exact absurd rfl hpage
          · rw [hothers q (hlt q hq)] at hpage ⊢
            exact hc.bounded q hq page hpage
        · intro q hq base
          rcases List.mem_cons.mp hq with rfl | hq
          · rw [hnew]
            exact hkind base
          · rw [hothers q (hlt q hq)]
            exact hc.kind q hq base
        · exact List.nodup_cons.mpr ⟨fun hmem => hlt _ hmem rfl, hc.nodup⟩
        · intro q hq
          rw [hnext]
          rcases List.mem_cons.mp hq with rfl | hq
          · exact Nat.lt_succ_self _
          · exact Nat.lt_succ_of_lt (hc.made q hq)
        · rw [hrecorded] at hframe
          exact hc.taker q page frame hframe
  · next vm hmade =>
      cases h
      obtain ⟨hneutral, ⟨-, hpager, hnext⟩ | hsome⟩ := new_pager_made hmade
      · refine ⟨hc.books.neutral hneutral fun q _ => by rw [hpager], ?_, ?_, hc.nodup, ?_, ?_⟩
        · intro q hq page hpage
          rw [hpager] at hpage ⊢
          exact hc.bounded q hq page hpage
        · intro q hq base
          rw [hpager]
          exact hc.kind q hq base
        · intro q hq
          rw [hnext]
          exact hc.made q hq
        · intro q page frame hframe
          have hpages : ∀ q ∈ c.live, (vm.pager q).pages = (c.vm.pager q).pages :=
            fun q _ => by rw [hpager]
          exact hc.taker q page frame ((recorded_of_pager hpages (q, page)).symm.trans hframe)
      · cases hsome.1
  · cases h

/-- A frame that is owed after calls that do not take it was owed before. -/
theorem owed_before {new calls : List MachineCall} {frame : UInt32}
    (h : .frameAlloc frame ∉ new) (howed : owed (new ++ calls) frame = 1) :
    0 < owed calls frame := by
  by_cases hframe : frame = 0
  · simp [owed, hframe] at howed
  · simp only [owed, hframe, if_false, List.count_append, List.count_eq_zero_of_not_mem h] at howed ⊢
    omega

/-- A call on a live pager. -/
theorem served_good {c : Frames W} {p : PagerId} {vm : Vm (Board W)} (hc : c.Good) (hp : p ∈ c.live)
    (h : Served c.live p c.vm vm) :
    Frames.Good { c with vm := vm, taker := c.attribute p vm } := by
  have hops : ∀ q, (vm.pager q).ops = (c.vm.pager q).ops := by
    intro q
    by_cases hq : q = p
    · rw [hq, h.ops]
    · rw [h.others q hq]
  refine ⟨h.books, fun q hq => ?_, fun q hq base => by rw [hops]; exact hc.kind q hq base, hc.nodup,
    fun q hq => by rw [h.next]; exact hc.made q hq, fun q page frame hframe => ?_⟩
  · by_cases hqp : q = p
    · rw [hqp]
      exact h.bounded
    · intro page hpage
      rw [h.others q hqp] at hpage ⊢
      exact hc.bounded q hq page hpage
  · obtain ⟨new, hnew, hfresh⟩ := h.calls
    have hheld := hframe
    simp only [recorded] at hheld
    split at hheld
    · next hlive =>
        have hne : frame ≠ 0 := by
          rw [← Option.some.inj hheld]
          exact hlive.2
        have hsame : ∀ slot, slot.1 ≠ p → recorded c.live vm slot = recorded c.live c.vm slot :=
          fun slot hslot => by simp only [recorded, h.others slot.1 hslot]
        simp only [Frames.attribute, hnew, new_calls_append]
        by_cases hqp : q = p
        · subst hqp
          split
          · rfl
          · next hold =>
              -- Not taken by this call, the frame was in an entry before, and in the same pager.
              have howed := h.books.balanced.held (q, page) frame hframe
              rw [hnew] at howed
              have hbefore := owed_before hold howed
              obtain ⟨⟨q', page'⟩, hslot⟩ : ∃ slot, recorded c.live c.vm slot = some frame := by
                by_contra hnone
                have hzero := hc.books.balanced.settled frame (by simp)
                  fun slot hslot => hnone ⟨slot, hslot⟩
                omega
              by_cases hq' : q' = q
              · rw [← hq']
                exact hc.taker q' page' frame hslot
              · have hstill := (hsame (q', page') hq').trans hslot
                cases h.books.balanced.once _ _ frame hstill hframe
                exact absurd rfl hq'
        · rw [if_neg]
          · rw [hsame (q, page) hqp] at hframe
            exact hc.taker q page frame hframe
          · intro hmem
            refine hfresh frame hne hmem q hlive.1 hqp page ?_
            rw [← h.others q hqp]
            exact Option.some.inj hheld
    · cases hheld

/-- The deleted pager leaves, without entries. -/
theorem delete_good {c : Frames W} {p : PagerId} {vm : Vm (Board W)} (hc : c.Good) (hp : p ∈ c.live)
    (h : Served c.live p c.vm vm) (hgone : ∀ page, (vm.pager p).pages page = 0) :
    Frames.Good { vm := vm, live := c.live.erase p, taker := c.attribute p vm } := by
  have hgood := served_good hc hp h
  have hsub : ∀ q ∈ c.live.erase p, q ∈ c.live := fun q hq => List.mem_of_mem_erase hq
  have hrecorded : ∀ slot, recorded (c.live.erase p) vm slot = recorded c.live vm slot := by
    rintro ⟨q, page⟩
    by_cases hq : q = p
    · simp [recorded, hq, hgone]
    · simp [recorded, List.mem_erase_of_ne hq]
  refine ⟨⟨hgood.books.balanced.congr (fun _ => rfl) hrecorded, hgood.books.marked,
    fun q hq => hgood.books.entry q (hsub q hq)⟩, fun q hq => hgood.bounded q (hsub q hq),
    fun q hq => hgood.kind q (hsub q hq), hc.nodup.erase p, fun q hq => hgood.made q (hsub q hq),
    fun q page frame hframe => ?_⟩
  rw [hrecorded] at hframe
  exact hgood.taker q page frame hframe

/-- The calls that may happen keep what holds between them. -/
theorem step_good {c c' : Frames W} {event : FrameEvent} (hc : c.Good)
    (hmay : c.mayHappen m d event = true) (h : c.step m d event = some c') : c'.Good := by
  cases event with
  | newSwap size allowResize => exact create_good (fun _ => by simp) hc h
  | newVfs size vfsPager => exact create_good (fun _ => by simp) hc h
  | call p call =>
      simp only [Frames.step] at h
      split at h
      · next hp =>
          split at h
          · next vm hrun =>
              cases h
              simp only [Frames.mayHappen, hrun, Bool.and_eq_true] at hmay
              obtain ⟨hfault, hlost⟩ := hmay
              refine served_good hc hp (call_served hp (hc.kind p hp) hc.books (hc.bounded p hp)
                (fun offset hcall => ?_) (fun new hnew hswap => ?_) hrun)
              · rw [hcall] at hfault
                simpa using hfault
              · rw [hswap, hnew, new_calls_append] at hlost
                simpa using hlost
          · cases h
      · cases h
  | delete p =>
      simp only [Frames.step] at h
      split at h
      · next hp =>
          split at h
          · next vm hrun =>
              cases h
              obtain ⟨hserved, hgone⟩ :=
                delete_served hp (hc.kind p hp) hc.books (hc.bounded p hp) hrun
              exact delete_good hc hp hserved hgone
          · cases h
      · cases h

theorem initial_good {c : Frames W} (h : c.Initial) : c.Good := by
  obtain ⟨hlive, hcalls⟩ := h
  have hrecorded : ∀ slot, recorded c.live c.vm slot = none := by simp [recorded, hlive]
  have howed : ∀ frame, owed c.vm.world.calls frame = 0 := by simp [owed, hcalls]
  have hempty : ∀ p, p ∉ c.live := by simp [hlive]
  refine ⟨⟨⟨fun slot frame hslot => ?_, fun slot _ frame hslot => ?_, ?_, fun frame _ _ =>
    howed frame⟩, fun frame hne => absurd (howed frame) hne, fun p hp => absurd hp (hempty p)⟩,
    fun p hp => absurd hp (hempty p), fun p hp => absurd hp (hempty p), by simp [hlive],
    fun p hp => absurd hp (hempty p), fun p page frame hframe => ?_⟩
  · rw [hrecorded] at hslot
    cases hslot
  · rw [hrecorded] at hslot
    cases hslot
  · intro frame hloose
    cases hloose
  · rw [hrecorded] at hframe
    cases hframe

end Calls

theorem good_of_run {c : Frames W} (h : Reachable (frameRuns m d) c) : c.Good :=
  h.induct (fun _ => initial_good) fun _ _ hc ⟨_, hmay, hstep⟩ => step_good hc hmay hstep

/-- A frame is in its place: it has been given back as often as it was taken and no entry records
it, or it was taken once more and exactly one entry of one pager records it. -/
def InPlace (c : Frames W) (frame : UInt32) : Prop :=
  (owed c.vm.world.calls frame = 0 ∧ ∀ slot, recorded c.live c.vm slot ≠ some frame) ∨
    (owed c.vm.world.calls frame = 1 ∧ ∃! slot, recorded c.live c.vm slot = some frame)

/-- Frames are conserved: each is in its place, and a pager that is deleted has given back all
frames that were taken for it. -/
def Conserved (c : Frames W) : Prop :=
  (∀ frame, InPlace c frame) ∧
    ∀ p c', c.step m d (.delete p) = some c' →
      ∀ frame, c'.taker frame = p → owed c'.vm.world.calls frame = 0

/-- Where faults lie inside their pagers and no frame is lost by `swap_page_in`, frames are
conserved. -/
theorem frames_conserved {c : Frames W} (h : Reachable (frameRuns m d) c) : Conserved m d c := by
  have hgood := good_of_run m d h
  refine ⟨fun frame => hgood.books.balanced.settled_or_held frame, fun p c' hstep frame htaker => ?_⟩
  have hgood' : c'.Good := step_good hgood rfl hstep
  rcases hgood'.books.balanced.settled_or_held frame with ⟨hzero, -⟩ | ⟨-, slot, hslot, -⟩
  · exact hzero
  · -- The entry would be one of the pager that is gone.
    have hheld := hgood'.taker slot.1 slot.2 frame hslot
    rw [htaker] at hheld
    have hlive : slot.1 ∈ c'.live := by
      simp only [recorded] at hslot
      split at hslot
      · next hlive => exact hlive.1
      · cases hslot
    simp only [Frames.step] at hstep
    split at hstep
    · split at hstep
      · cases hstep
        rw [← hheld] at hlive
        exact absurd hlive (hgood.nodup.not_mem_erase)
      · cases hstep
    · cases hstep

section Examples

/-- No pager, on a blank board. -/
def Frames.none : Frames UInt32 :=
  { vm := Vm.boardBlank, live := [], taker := fun _ => 0 }

theorem frames_none_initial : Frames.none.Initial :=
  ⟨rfl, rfl⟩

/-- A pager of one page and a half is faulted, read, shrunk and deleted. -/
def pageAndHalf : List FrameEvent :=
  [.newSwap 0x1800 true, .call 0 (.getFrame 0), .call 0 (.read 0x10 0x1100),
    .call 0 (.resize 0x800), .newVfs 0x1000 ⟨7, true, true, true⟩, .call 1 (.getFrame 0), .delete 0]

/-- The frame of the second page is free again before the deletion, and that of the first after it;
the other pager keeps its frame. -/
theorem frames_conserved_page_and_half : ∃ c : Frames UInt32,
    owed c.vm.world.calls 0x100 = 0 ∧ owed c.vm.world.calls 0x101 = 0 ∧
      owed c.vm.world.calls 0x102 = 1 ∧ Conserved Machine.counting Backing.zeros c := by
  have hrun : (runEvents (Frames.step Machine.counting Backing.zeros)
      (Frames.mayHappen Machine.counting Backing.zeros) pageAndHalf Frames.none).map (fun c =>
        (owed c.vm.world.calls 0x100, owed c.vm.world.calls 0x101, owed c.vm.world.calls 0x102)) =
          some (0, 0, 1) := by
    decide +kernel
  obtain ⟨c, hrun, htest⟩ := Option.map_eq_some_iff.mp hrun
  simp only [Prod.mk.injEq] at htest
  exact ⟨c, htest.1, htest.2.1, htest.2.2, frames_conserved Machine.counting Backing.zeros
    (Reachable.run_events (fun _ _ => id) (.init frames_none_initial) hrun)⟩

/-- A file of no bytes is mapped, its first page is touched, and it is unmapped and deleted. -/
def touchBehindEnd : List FrameEvent :=
  [.newSwap 0 true, .call 0 (.addMap 5), .call 0 (.getFrame 0), .call 0 (.rmMap 5), .delete 0]

/-- The frame of a page behind the end is never given back. -/
theorem frame_behind_end_leaks : ¬ ∀ c : Frames UInt32,
    Reachable (eventRuns Frames.Initial (Frames.step Machine.counting Backing.zeros)
      fun _ _ => True) c → Conserved Machine.counting Backing.zeros c := by
  intro hclaim
  have hrun : (runEvents (Frames.step Machine.counting Backing.zeros) (fun _ _ => true)
      touchBehindEnd Frames.none).map (fun c => (owed c.vm.world.calls 0x100, c.live)) =
        some (1, []) := by
    decide +kernel
  obtain ⟨c, hrun, htest⟩ := Option.map_eq_some_iff.mp hrun
  simp only [Prod.mk.injEq] at htest
  obtain ⟨howed, hlive⟩ := htest
  have hconserved := hclaim c (Reachable.run_events (fun _ _ _ => trivial)
    (.init frames_none_initial) hrun)
  rcases hconserved.1 0x100 with ⟨hzero, -⟩ | ⟨-, slot, hslot, -⟩
  · rw [howed] at hzero
    cases hzero
  · simp [recorded, hlive] at hslot

end Examples

end Kogata.Kernel
