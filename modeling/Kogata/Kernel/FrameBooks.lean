import Kogata.Kernel.FileFault
import Kogata.Kernel.PageRange
import Kogata.Kernel.PagerUnmap
import Kogata.Lib.Custody
import Mathlib.Data.List.Chain

/-!
# Where the frames of pagers are

A frame that a pager takes is in the custody of the entry that records it. `Books` says so of all
pagers that have not been deleted, and every function of `pager.c` between taking and releasing a
pager's mutex keeps it (`books_page_in`, `books_page_release`, `books_transfer`), except that
`swap_page_in` loses the frame for which `pd_map_page` fails. Each of them also says which pages
may have an entry afterwards.
-/

namespace Kogata.Kernel

open Lib.Effect Lib.Custody

variable {W : Type}

/-- How often a frame has been taken and not been given back. -/
def owed (calls : List MachineCall) (frame : UInt32) : Int :=
  if frame = 0 then 0 else calls.count (.frameAlloc frame) - calls.count (.frameFree frame)

/-- The frame that an entry records, as long as its pager has not been deleted. -/
def recorded (live : List PagerId) (s : Vm W) (slot : PagerId × UInt32) : Option UInt32 :=
  if slot.1 ∈ live ∧ (s.pager slot.1).pages slot.2 >>> entFrameShift ≠ 0 then
    some ((s.pager slot.1).pages slot.2 >>> entFrameShift)
  else none

/-- Every frame that is owed is in the custody of one entry, except the loose one, and its bit is
set. Entries have a frame, and are those of whole pages. -/
structure Books (live : List PagerId) (loose : Option UInt32) (s : Vm (Board W)) : Prop where
  balanced : Balanced (owed s.world.calls) (recorded live s) loose
  marked : ∀ frame, owed s.world.calls frame ≠ 0 → s.world.frameBitset frame = true
  entry : ∀ p ∈ live, ∀ page, (s.pager p).pages page ≠ 0 →
    (s.pager p).pages page >>> entFrameShift ≠ 0 ∧ pageAligned page = true

/-- A call that takes or gives back no frame. -/
def MachineCall.isNeutral : MachineCall → Bool
  | .frameAlloc frame => frame == 0
  | .frameFree _ => false
  | _ => true

/-- The boards differ by calls that take or give back no frame. -/
structure Neutral (b b' : Board W) : Prop where
  calls : ∃ new, b'.calls = new ++ b.calls ∧ ∀ call ∈ new, call.isNeutral = true
  bits : b'.frameBitset = b.frameBitset

section Books

variable {live : List PagerId} {loose : Option UInt32} {s s' : Vm (Board W)} {p : PagerId}
  {frame page : UInt32}

theorem owed_append {new calls : List MachineCall} (h : ∀ call ∈ new, call.isNeutral = true)
    (frame : UInt32) : owed (new ++ calls) frame = owed calls frame := by
  have hnone : ∀ call : MachineCall, call.isNeutral = false → new.count call = 0 := by
    intro call hcall
    rw [List.count_eq_zero]
    intro hmem
    rw [h call hmem] at hcall
    cases hcall
  by_cases hframe : frame = 0
  · simp [owed, hframe]
  · have halloc := hnone (.frameAlloc frame) (by simpa [MachineCall.isNeutral] using hframe)
    have hfree := hnone (.frameFree frame) rfl
    simp [owed, hframe, halloc, hfree]

theorem recorded_of_pager (h : ∀ q ∈ live, (s'.pager q).pages = (s.pager q).pages)
    (slot : PagerId × UInt32) : recorded live s' slot = recorded live s slot := by
  unfold recorded
  by_cases hlive : slot.1 ∈ live
  · rw [h slot.1 hlive]
  · rw [if_neg fun hc => hlive hc.1, if_neg fun hc => hlive hc.1]

/-- Calls that take or give back no frame, with the tables as they were. -/
theorem Books.neutral (h : Books live loose s) (hworld : Neutral s.world s'.world)
    (hpages : ∀ q ∈ live, (s'.pager q).pages = (s.pager q).pages) : Books live loose s' := by
  obtain ⟨⟨new, hcalls, hnew⟩, hbits⟩ := hworld
  refine ⟨h.balanced.congr (fun frame => ?_) (recorded_of_pager hpages), fun frame hne => ?_,
    fun q hq page hpage => ?_⟩
  · rw [hcalls, owed_append hnew]
  · rw [hcalls, owed_append hnew] at hne
    rw [hbits]
    exact h.marked frame hne
  · rw [hpages q hq] at hpage ⊢
    exact h.entry q hq page hpage

theorem owed_other {calls : List MachineCall} {call : MachineCall}
    (hcalls : s'.world.calls = call :: calls)
    (hcall : call = .frameAlloc frame ∨ call = .frameFree frame) (f : UInt32) (hf : f ≠ frame) :
    owed s'.world.calls f = owed calls f := by
  rcases hcall with rfl | rfl <;> simp [owed, hcalls, Ne.symm hf]

/-- One frame changes hands, and its bit with it. -/
theorem Books.moved {loose' : Option UInt32} {bit : Bool} (h : Books live loose s)
    (hpager : s'.pager = s.pager)
    (hbits : s'.world.frameBitset = Function.update s.world.frameBitset frame bit)
    (hother : ∀ f, f ≠ frame → owed s'.world.calls f = owed s.world.calls f)
    (hbalanced : Balanced (owed s'.world.calls) (recorded live s) loose')
    (hbit : owed s'.world.calls frame ≠ 0 → bit = true) : Books live loose' s' := by
  refine ⟨hbalanced.congr (fun _ => rfl) (recorded_of_pager fun q _ => by rw [hpager]),
    fun f hf => ?_, hpager ▸ h.entry⟩
  rw [hbits]
  by_cases heq : f = frame
  · rw [heq] at hf ⊢
    rw [Function.update_self, hbit hf]
  · rw [Function.update_of_ne heq]
    rw [hother f heq] at hf
    exact h.marked f hf

/-- A frame whose bit is clear is taken. -/
theorem Books.take (h : Books live none s) (hne : frame ≠ 0)
    (hfree : s.world.frameBitset frame = false)
    (hcalls : s'.world.calls = .frameAlloc frame :: s.world.calls)
    (hbits : s'.world.frameBitset = Function.update s.world.frameBitset frame true)
    (hpager : s'.pager = s.pager) : Books live (some frame) s' := by
  have hzero : owed s.world.calls frame = 0 := by
    by_contra howed
    rw [h.marked frame howed] at hfree
    cases hfree
  have hself : owed s'.world.calls frame = owed s.world.calls frame + 1 := by
    simp only [owed, hne, if_false, hcalls, List.count_cons]
    simp
    omega
  have hother := owed_other hcalls (.inl rfl)
  refine h.moved hpager hbits hother (h.balanced.take hzero hself hother) fun _ => rfl

/-- The frame on its way is given back. -/
theorem Books.give (h : Books live (some frame) s)
    (hcalls : s'.world.calls = .frameFree frame :: s.world.calls)
    (hbits : s'.world.frameBitset = Function.update s.world.frameBitset frame false)
    (hpager : s'.pager = s.pager) : Books live none s' := by
  have hne : frame ≠ 0 := by
    rintro rfl
    have hone := (h.balanced.moving 0 rfl).1
    simp [owed] at hone
  have hself : owed s'.world.calls frame = owed s.world.calls frame - 1 := by
    simp only [owed, hne, if_false, hcalls, List.count_cons]
    simp
    omega
  have hother := owed_other hcalls (.inr rfl)
  have hzero := hself.trans (congrArg (· - 1) (h.balanced.moving frame rfl).1)
  exact h.moved hpager hbits hother (h.balanced.give hself hother) (absurd hzero)

theorem recorded_with_entry_of_ne {entry : UInt32} {slot : PagerId × UInt32}
    (h : slot ≠ (p, page)) :
    recorded live (s.withEntry p page entry) slot = recorded live s slot := by
  have hsame : ((s.withEntry p page entry).pager slot.1).pages slot.2 =
      (s.pager slot.1).pages slot.2 := by
    rw [Vm.with_entry_pages, if_neg fun hc => h (Prod.ext hc.1 hc.2)]
  simp only [recorded, hsame]

/-- The frame on its way is recorded in an entry that was empty. -/
theorem Books.put (h : Books live (some frame) s) (hp : p ∈ live)
    (hempty : (s.pager p).pages page = 0) (haligned : pageAligned page = true) {entry : UInt32}
    (hframe : entry >>> entFrameShift = frame) : Books live none (s.withEntry p page entry) := by
  have hne : frame ≠ 0 := by
    rintro rfl
    have hone := (h.balanced.moving 0 rfl).1
    simp [owed] at hone
  refine ⟨h.balanced.put (k := (p, page)) ?_ ?_ fun slot hslot => recorded_with_entry_of_ne hslot,
    h.marked, fun q hq x hx => ?_⟩
  · simp [recorded, hempty]
  · simp [recorded, Vm.with_entry_pages, hp, hframe, hne]
  · rw [Vm.with_entry_pages] at hx ⊢
    split
    · next hslot => exact ⟨by rw [hframe]; exact hne, hslot.2 ▸ haligned⟩
    · next hslot =>
        rw [if_neg hslot] at hx
        exact h.entry q hq x hx

/-- An entry is emptied, and its frame is on its way. -/
theorem Books.remove (h : Books live none s) (hp : p ∈ live)
    (hframe : (s.pager p).pages page >>> entFrameShift = frame) (hne : frame ≠ 0) :
    Books live (some frame) (s.withEntry p page 0) := by
  refine ⟨h.balanced.remove (k := (p, page)) ?_ ?_ fun slot hslot => recorded_with_entry_of_ne hslot,
    h.marked, fun q hq x hx => ?_⟩
  · simp [recorded, hp, hframe, hne]
  · simp [recorded, Vm.with_entry_pages]
  · rw [Vm.with_entry_pages] at hx ⊢
    split
    · next hslot =>
        rw [if_pos hslot] at hx
        exact absurd rfl hx
    · next hslot =>
        rw [if_neg hslot] at hx
        exact h.entry q hq x hx

/-- An entry keeps its frame. -/
theorem Books.mark (h : Books live loose s) {entry : UInt32}
    (hframe : entry >>> entFrameShift = (s.pager p).pages page >>> entFrameShift)
    (hthere : (s.pager p).pages page ≠ 0) : Books live loose (s.withEntry p page entry) := by
  refine ⟨h.balanced.congr (fun _ => rfl) fun slot => ?_, h.marked, fun q hq x hx => ?_⟩
  · by_cases hslot : slot = (p, page)
    · subst hslot
      simp only [recorded, Vm.with_entry_pages, true_and, if_true, hframe]
    · exact recorded_with_entry_of_ne hslot
  · rw [Vm.with_entry_pages] at hx ⊢
    split
    · next hslot =>
        obtain ⟨rfl, rfl⟩ := hslot
        rw [hframe]
        exact h.entry q hq x hthere
    · next hslot =>
        rw [if_neg hslot] at hx
        exact h.entry q hq x hx

end Books

section Neutral

variable (m : Machine W) (d : Backing W) (b : Board W)

instance : Std.Refl (Neutral (W := W)) :=
  ⟨fun _ => ⟨⟨[], rfl, nofun⟩, rfl⟩⟩

theorem neutral_record (call : MachineCall) (h : call.isNeutral = true) {b' : Board W}
    (hcalls : b'.calls = call :: b.calls) (hbits : b'.frameBitset = b.frameBitset) :
    Neutral b b' :=
  ⟨⟨[call], hcalls, by simpa using h⟩, hbits⟩

theorem neutral_same {b' : Board W} (hcalls : b'.calls = b.calls)
    (hbits : b'.frameBitset = b.frameBitset) : Neutral b b' :=
  ⟨⟨[], hcalls, nofun⟩, hbits⟩

theorem neutral_malloc : Neutral b ((board m d).malloc b).2 :=
  neutral_record b (.malloc (b.lift m.malloc).1) rfl rfl rfl

theorem neutral_region_alloc (len : UInt32) : Neutral b ((board m d).regionAlloc len b).2 :=
  neutral_record b (.regionAlloc len _) rfl rfl rfl

theorem neutral_region_free (addr : UInt32) : Neutral b ((board m d).regionFree addr b) :=
  neutral_same b rfl rfl

theorem neutral_pd_get_entry (space : Space) (addr : UInt32) :
    Neutral b ((board m d).pdGetEntry space addr b).2 :=
  neutral_same b rfl rfl

theorem neutral_pd_map_page (space : Space) (addr frame : UInt32) (rw : Bool) :
    Neutral b ((board m d).pdMapPage space addr frame rw b).2 := by
  cases hok : (m.pdMapPage space addr frame rw b.world).1 with
  | false =>
      refine neutral_record b (.mapPage space addr frame false) rfl ?_ ?_
      · simp [board, Board.lift, Board.record, hok]
      · simp [board, Board.lift, Board.record, hok]
  | true =>
      refine neutral_record b (.mapPage space addr frame true) rfl ?_ ?_
      · simp [board, Board.lift, Board.record, Board.setEntry, hok]
      · simp [board, Board.lift, Board.record, Board.setEntry, hok]

theorem neutral_pd_unmap_page (space : Space) (addr : UInt32) :
    Neutral b ((board m d).pdUnmapPage space addr b) := by
  change Neutral b (if b.present space addr then b.setEntry space addr 0 else b)
  split
  · exact neutral_same b rfl rfl
  · exact neutral_same b rfl rfl

theorem neutral_store (addr : UInt32) (bytes : List UInt8) :
    Neutral b ((board m d).store addr bytes b) :=
  neutral_record b (.store addr bytes.length) rfl rfl rfl

theorem neutral_vfs_read (node : Nat) (offset len addr : UInt32) :
    Neutral b ((board m d).vfsRead node offset len addr b).2 :=
  neutral_record b (.read node offset len _) rfl rfl rfl

theorem neutral_vfs_write (node : Nat) (offset len addr : UInt32) :
    Neutral b ((board m d).vfsWrite node offset len addr b).2 :=
  neutral_record b (.write node offset _ _) rfl rfl rfl

theorem neutral_vfs_resize (node : Nat) (newSize : UInt32) :
    Neutral b ((board m d).vfsResize node newSize b).2 :=
  neutral_same b rfl rfl

end Neutral

/-- The frame that was taken last is the one for which `pd_map_page` fails. -/
def losesFrame : MachineCall → MachineCall → Bool
  | .mapPage _ _ frame false, .frameAlloc taken => frame == taken
  | _, _ => false

/-- Among these calls, `pd_map_page` never fails for a frame just taken. -/
def NoneLost (calls : List MachineCall) : Prop :=
  calls.IsChain fun later earlier => losesFrame later earlier = false

instance (calls : List MachineCall) : Decidable (NoneLost calls) :=
  inferInstanceAs (Decidable (calls.IsChain _))

/-- What an operation on the pager `p` does to the books: if they were in order with one frame on
its way, then so they are with another. Where `strict` holds, `pd_map_page` must not have failed
for a frame just taken. Pages that are not `touched` do not get an entry, and the frames that are
taken are not those of other pagers. -/
structure Conserves (live : List PagerId) (p : PagerId) (strict : Prop) (touched : UInt32 → Prop)
    (loose loose' : Option UInt32) (s s' : Vm (Board W)) : Prop where
  others : ∀ q ≠ p, s'.pager q = s.pager q
  size : (s'.pager p).size = (s.pager p).size
  ops : (s'.pager p).ops = (s.pager p).ops
  next : s'.next = s.next
  pages : ∀ page, (s'.pager p).pages page ≠ 0 → (s.pager p).pages page ≠ 0 ∨ touched page
  calls : ∃ new, s'.world.calls = new ++ s.world.calls ∧
    ((strict → NoneLost new) → Books live loose s → Books live loose' s' ∧
      ∀ frame, frame ≠ 0 → .frameAlloc frame ∈ new →
        ∀ q ∈ live, q ≠ p → ∀ page, (s.pager q).pages page >>> entFrameShift ≠ frame)

/-- No frame is on its way, before or after. -/
abbrev KeepsBooks (live : List PagerId) (p : PagerId) (strict : Prop) (touched : UInt32 → Prop)
    (s s' : Vm (Board W)) : Prop :=
  Conserves live p strict touched none none s s'

section Conserves

variable {live : List PagerId} {p : PagerId} {strict : Prop} {touched : UInt32 → Prop}
  {loose loose' loose'' : Option UInt32} {s mid s' : Vm (Board W)} {α : Type}

theorem Conserves.trans (h : Conserves live p strict touched loose loose' s mid)
    (h' : Conserves live p strict touched loose' loose'' mid s') :
    Conserves live p strict touched loose loose'' s s' where
  others := fun q hq => (h'.others q hq).trans (h.others q hq)
  size := h'.size.trans h.size
  ops := h'.ops.trans h.ops
  next := h'.next.trans h.next
  pages := fun page hpage => (h'.pages page hpage).elim (h.pages page) .inr
  calls := by
    obtain ⟨new, hnew, hbooks⟩ := h.calls
    obtain ⟨new', hnew', hbooks'⟩ := h'.calls
    refine ⟨new' ++ new, by rw [hnew', hnew, List.append_assoc], fun hnone hs => ?_⟩
    obtain ⟨hmid, hfresh⟩ := hbooks (fun hs => (List.isChain_append.mp (hnone hs)).2.1) hs
    obtain ⟨hend, hfresh'⟩ := hbooks' (fun hs => (List.isChain_append.mp (hnone hs)).1) hmid
    refine ⟨hend, fun frame hne hmem q hq hqp page => ?_⟩
    rcases List.mem_append.mp hmem with hmem | hmem
    · rw [← h.others q hqp]
      exact hfresh' frame hne hmem q hq hqp page
    · exact hfresh frame hne hmem q hq hqp page

instance : IsTrans (Vm (Board W)) (Conserves live p strict touched loose loose) :=
  ⟨fun _ _ _ => Conserves.trans⟩

/-- Pagers that differ in their locks and their maps only. -/
structure SamePages (p : PagerId) (s s' : Vm W) : Prop where
  others : ∀ q ≠ p, s'.pager q = s.pager q
  size : (s'.pager p).size = (s.pager p).size
  ops : (s'.pager p).ops = (s.pager p).ops
  next : s'.next = s.next
  pages : (s'.pager p).pages = (s.pager p).pages

theorem SamePages.all (h : SamePages p s s') (q : PagerId) :
    (s'.pager q).pages = (s.pager q).pages := by
  by_cases hq : q = p
  · rw [hq, h.pages]
  · rw [h.others q hq]

/-- Calls that take or give back no frame, with the tables as they were. -/
theorem conserves_neutral (hpager : SamePages p s s') (hworld : Neutral s.world s'.world) :
    Conserves live p strict touched loose loose s s' where
  others := hpager.others
  size := hpager.size
  ops := hpager.ops
  next := hpager.next
  pages := fun page hpage => .inl (by rwa [hpager.pages] at hpage)
  calls := by
    obtain ⟨new, hnew, hneutral⟩ := hworld.calls
    refine ⟨new, hnew, fun _ hs => ⟨hs.neutral hworld fun q _ => hpager.all q, ?_⟩⟩
    intro frame hne hmem
    have hzero := hneutral _ hmem
    simp [MachineCall.isNeutral, hne] at hzero

instance : Std.Refl (Conserves (W := W) live p strict touched loose loose) :=
  ⟨fun _ => conserves_neutral ⟨fun _ _ => rfl, rfl, rfl, rfl, rfl⟩ (refl_of Neutral _)⟩

theorem conserves_ask {question : Board W → α × Board W} (h : ∀ b, Neutral b (question b).2) :
    Keeps (Conserves live p strict touched loose loose) (ask question) := by
  intro s a s' hrun
  cases hrun
  exact conserves_neutral ⟨fun _ _ => rfl, rfl, rfl, rfl, rfl⟩ (h s.world)

theorem conserves_tell {change : Board W → Board W} (h : ∀ b, Neutral b (change b)) :
    Keeps (Conserves live p strict touched loose loose) (tell change) :=
  keeps_modify fun s => conserves_neutral ⟨fun _ _ => rfl, rfl, rfl, rfl, rfl⟩ (h s.world)

theorem conserves_find_page (page : UInt32) :
    Keeps (Conserves live p strict touched loose loose) (findPage p page : Call (Board W) UInt32) :=
  keeps_get.bind fun _ => keeps_pure _

theorem conserves_assert (c : Bool) :
    Keeps (Conserves live p strict touched loose loose) (assert c : Call (Board W) Unit) :=
  keeps_ite (fun _ => keeps_pure _) fun _ => keeps_throw _

theorem conserves_for_pages {first len : UInt32} {body : UInt32 → Call (Board W) Unit}
    (h : ∀ page ∈ pagesOf first len,
      Keeps (Conserves live p strict touched loose loose) (body page)) :
    Keeps (Conserves live p strict touched loose loose) (forPages first len body) :=
  (keeps_for_m h).bind fun _ => keeps_ite (fun _ => keeps_throw _) fun _ => keeps_pure _

/-- An assertion holds in what comes after it. -/
theorem conserves_of_assert {c : Bool} {rest : Unit → Call (Board W) α}
    (h : c = true → Keeps (Conserves live p strict touched loose loose) (rest ())) :
    Keeps (Conserves live p strict touched loose loose) (assert c >>= rest) := by
  intro s a s' hrun
  cases hc : c with
  | false =>
      rw [hc] at hrun
      cases hrun
  | true =>
      rw [hc] at hrun
      exact h hc s a s' hrun

theorem ask_pager {question : Board W → α × Board W} {a : α}
    (h : ask question s = .ok (a, s')) : s'.pager = s.pager := by
  cases h
  rfl

theorem tell_pager {change : Board W → Board W} {u : Unit} (h : tell change s = .ok (u, s')) :
    s'.pager = s.pager := by
  cases h
  rfl

variable (live p strict touched) in
/-- `frame_alloc` fails, or the frame it gives is on its way. -/
theorem frame_alloc_conserves {m : Machine W} {d : Backing W} {frame : UInt32}
    (h : ask (board m d).frameAlloc s = .ok (frame, s')) :
    s'.pager = s.pager ∧ s'.world.calls = .frameAlloc frame :: s.world.calls ∧
      frame.toNat < 2 ^ 20 ∧
      (frame = 0 → KeepsBooks live p strict touched s s') ∧
      (frame ≠ 0 → Conserves live p strict touched none (some frame) s s') := by
  generalize hanswer : (m.frameAlloc s.world.world).1 = answer
  generalize hworld : (m.frameAlloc s.world.world).2 = world
  have hrun : ask (board m d).frameAlloc s = .ok
      (if s.world.mayGive answer then answer else 0,
        { s with world := ((board m d).frameAlloc s.world).2 }) := by
    rw [← hanswer]
    rfl
  rw [hrun] at h
  obtain ⟨hframe, rfl⟩ := Prod.mk.inj (Except.ok.inj h)
  have hcalls : ((board m d).frameAlloc s.world).2.calls = .frameAlloc frame :: s.world.calls := by
    rw [← hframe, ← hanswer]
    rfl
  have hbits : ((board m d).frameAlloc s.world).2.frameBitset =
      if frame = 0 then s.world.frameBitset
      else Function.update s.world.frameBitset frame true := by
    rw [← hframe, ← hanswer]
    rfl
  have hgiven : frame ≠ 0 → s.world.mayGive frame = true := by
    intro hne
    split at hframe
    · next hmay => rwa [← hframe]
    · exact absurd hframe.symm hne
  refine ⟨rfl, hcalls, ?_, fun hzero => ?_, fun hne => ?_⟩
  · by_cases hne : frame = 0
    · rw [hne]
      decide
    · have hmay := hgiven hne
      simp only [Board.mayGive, Bool.and_eq_true, decide_eq_true_eq] at hmay
      exact hmay.1.2
  · refine conserves_neutral ⟨fun _ _ => rfl, rfl, rfl, rfl, rfl⟩ ?_
    subst hzero
    rw [if_pos rfl] at hbits
    exact neutral_record _ (.frameAlloc 0) rfl hcalls hbits
  · have hmay := hgiven hne
    simp only [Board.mayGive, Bool.and_eq_true, Bool.not_eq_true'] at hmay
    rw [if_neg hne] at hbits
    refine ⟨fun _ _ => rfl, rfl, rfl, rfl, fun _ hpage => .inl hpage,
      [.frameAlloc frame], hcalls, fun _ hs => ⟨hs.take hne hmay.2 hcalls hbits rfl, ?_⟩⟩
    intro taken _ hmem q hq _ page heq
    obtain rfl : taken = frame := by simpa using hmem
    -- A frame that another entry records has its bit set.
    have howed := hs.balanced.held (q, page) taken (by simp [recorded, hq, heq, hne])
    have hbit := hs.marked taken (by rw [howed]; decide)
    rw [hmay.2] at hbit
    cases hbit

/-- The frame on its way is given back. -/
theorem frame_free_conserves {m : Machine W} {d : Backing W} {frame : UInt32} {u : Unit}
    (h : tell ((board m d).frameFree frame) s = .ok (u, s')) :
    Conserves live p strict touched (some frame) none s s' := by
  cases h
  refine ⟨fun _ _ => rfl, rfl, rfl, rfl, fun _ hpage => .inl hpage, [.frameFree frame], rfl,
    fun _ hs => ⟨hs.give rfl rfl rfl, fun taken _ hmem => ?_⟩⟩
  cases List.mem_singleton.mp hmem

/-- Writing an entry, as it is seen by the other pagers. -/
theorem with_entry_conserves {page entry : UInt32} (htouched : entry ≠ 0 →
      (s.pager p).pages page ≠ 0 ∨ touched page)
    (h : Books live loose s → Books live loose' (s.withEntry p page entry)) :
    Conserves live p strict touched loose loose' s (s.withEntry p page entry) where
  others := fun q hq => Function.update_of_ne hq _ _
  size := by simp [Vm.withEntry]
  ops := by simp [Vm.withEntry]
  next := rfl
  pages := fun x hx => by
    rw [Vm.with_entry_pages] at hx
    split at hx
    · next hslot =>
        obtain ⟨-, rfl⟩ := hslot
        exact htouched hx
    · exact .inl hx
  calls := ⟨[], rfl, fun _ hs => ⟨h hs, nofun⟩⟩

variable (strict) in
/-- `hashtbl_add` takes the frame on its way, or fails. -/
theorem add_page_conserves {m : Machine W} {d : Backing W} {page frame : UInt32} {ok : Bool}
    (hp : p ∈ live) (hempty : (s.pager p).pages page = 0) (haligned : pageAligned page = true)
    (hframe : frame.toNat < 2 ^ 20) (htouched : touched page)
    (h : addPage (board m d) p page (frame <<< entFrameShift) s = .ok (ok, s')) :
    (ok = true → Conserves live p strict touched (some frame) none s s') ∧
      (ok = false → Conserves live p strict touched (some frame) (some frame) s s') := by
  obtain ⟨answer, mid, hask, h⟩ := run_bind_eq_ok h
  have hmid : Conserves live p strict touched (some frame) (some frame) s mid :=
    conserves_ask (neutral_malloc m d) _ _ _ hask
  have hpager : mid.pager = s.pager := by
    cases hask
    rfl
  cases answer with
  | false =>
      cases h
      exact ⟨nofun, fun _ => hmid⟩
  | true =>
      cases h
      refine ⟨fun _ => hmid.trans ?_, nofun⟩
      refine with_entry_conserves (fun _ => .inr htouched) fun hs => hs.put hp ?_ haligned ?_
      · rw [hpager, hempty]
      · exact frame_shift_shift hframe

variable {m : Machine W} {d : Backing W} {page : UInt32}

theorem map_page_calls {space : Space} {addr frame : UInt32} {rw ok : Bool}
    (h : ask ((board m d).pdMapPage space addr frame rw) s = .ok (ok, s')) :
    s'.world.calls = .mapPage space addr frame ok :: s.world.calls := by
  cases h
  cases hok : (m.pdMapPage space addr frame rw s.world.world).1
  all_goals rfl

/-- The frame on its way is forgotten when `pd_map_page` fails. -/
theorem lost_conserves {frame region : UInt32} {space : Space} (hstrict : strict)
    (h : Conserves live p strict touched none (some frame) s s')
    (hcalls : s'.world.calls = .mapPage space region frame false :: .frameAlloc frame ::
      s.world.calls) : KeepsBooks live p strict touched s s' where
  others := h.others
  size := h.size
  ops := h.ops
  next := h.next
  pages := h.pages
  calls := by
    refine ⟨[.mapPage space region frame false, .frameAlloc frame], hcalls, fun hnone _ => ?_⟩
    have hlost := List.isChain_cons_cons.mp (hnone hstrict)
    simp [losesFrame] at hlost

/-- What `swap_page_in` does for one page. -/
theorem swap_page_in_body_conserves {region : UInt32} (hp : p ∈ live) (hstrict : strict)
    (haligned : pageAligned page = true) (htouched : touched page) :
    Keeps (KeepsBooks live p strict touched)
      (swapLoadPage (board m d) p region page) := by
  intro s u s' h
  unfold swapLoadPage at h
  rw [run_bind_of_ok (show findPage p page s = .ok ((s.pager p).pages page, s) from rfl),
    run_ite] at h
  split at h
  · next hempty =>
      obtain ⟨frame, s₁, halloc, h⟩ := run_bind_eq_ok h
      obtain ⟨hpager, hcalls, hlt, hzero, htake⟩ :=
        frame_alloc_conserves live p strict touched halloc
      rw [run_ite] at h
      split at h
      · next hne =>
          obtain ⟨mapped, s₂, hmap, h⟩ := run_bind_eq_ok h
          have hmapped : Conserves live p strict touched (some frame) (some frame) s₁ s₂ :=
            conserves_ask (fun b => neutral_pd_map_page m d b .kernel region frame true) _ _ _ hmap
          replace htake := (htake hne).trans hmapped
          cases mapped with
          | false =>
              cases h
              have hlost := map_page_calls hmap
              rw [hcalls] at hlost
              exact lost_conserves hstrict htake hlost
          | true =>
              obtain ⟨_, s₃, hclear, h⟩ := run_bind_eq_ok h
              have hcleared : Conserves live p strict touched (some frame) (some frame) s₂ s₃ :=
                conserves_tell (fun b => neutral_store m d b region _) _ _ _ hclear
              obtain ⟨_, s₄, hunmap, h⟩ := run_bind_eq_ok h
              have hunmapped : Conserves live p strict touched (some frame) (some frame) s₃ s₄ :=
                conserves_tell (fun b => neutral_pd_unmap_page m d b .kernel region) _ _ _ hunmap
              have hsame : s₄.pager = s.pager := by
                rw [tell_pager hunmap, tell_pager hclear, ask_pager hmap, hpager]
              obtain ⟨ok, s₅, hadd, h⟩ := run_bind_eq_ok h
              obtain ⟨hadded, hfailed⟩ := add_page_conserves strict hp
                (by rw [hsame, hempty]) haligned hlt htouched hadd
              replace htake := (htake.trans hcleared).trans hunmapped
              cases ok with
              | true =>
                  cases h
                  exact htake.trans (hadded rfl)
              | false => exact (htake.trans (hfailed rfl)).trans (frame_free_conserves h)
      · next hne =>
          cases h
          exact hzero (by simpa using hne)
  · cases h
    exact refl_of (KeepsBooks live p strict touched) s

theorem conserves_swap_page_in {offset len : UInt32} (hp : p ∈ live) (hstrict : strict)
    (htouched : pageAligned offset = true → ∀ page ∈ pagesOf offset len, touched page) :
    Keeps (KeepsBooks live p strict touched) (swapPageIn (board m d) p offset len) := by
  refine conserves_of_assert fun haligned =>
    (conserves_ask fun b => neutral_region_alloc m d b pageSize).bind fun region =>
      keeps_ite (fun _ => keeps_pure _) fun _ => .bind ?_ fun _ =>
        conserves_tell fun b => neutral_region_free m d b region
  exact conserves_for_pages fun page hpage => swap_page_in_body_conserves hp hstrict
    (aligned_of_mem_pages_of hpage haligned) (htouched haligned page hpage)

variable (strict) in
/-- The frame for which a page is loaded is recorded, or still on its way. -/
theorem vfs_load_page_conserves {v : VfsPager} {region frame : UInt32} {ok : Bool} (hp : p ∈ live)
    (hempty : (s.pager p).pages page = 0) (haligned : pageAligned page = true)
    (hframe : frame.toNat < 2 ^ 20) (htouched : touched page)
    (h : vfsLoadPage (board m d) p v region page frame s = .ok (ok, s')) :
    (ok = true → Conserves live p strict touched (some frame) none s s') ∧
      (ok = false → Conserves live p strict touched (some frame) (some frame) s s') := by
  obtain ⟨mapped, s₁, hmap, h⟩ := run_bind_eq_ok h
  have hmapped : Conserves live p strict touched (some frame) (some frame) s s₁ :=
    conserves_ask (fun b => neutral_pd_map_page m d b .kernel region frame true) _ _ _ hmap
  cases mapped with
  | false =>
      cases h
      exact ⟨nofun, fun _ => hmapped⟩
  | true =>
      -- The driver's answer decides, whether a part of the page was cleared or not.
      have hrest : ∀ expect t, Conserves live p strict touched (some frame) (some frame) s t →
          t.pager = s.pager →
          (do
            let readLen ← ask ((board m d).vfsRead v.node page expect region)
            tell ((board m d).pdUnmapPage .kernel region)
            if readLen ≠ expect then return false
            else addPage (board m d) p page (frame <<< entFrameShift) : Call (Board W) Bool) t =
              .ok (ok, s') →
          (ok = true → Conserves live p strict touched (some frame) none s s') ∧
            (ok = false → Conserves live p strict touched (some frame) (some frame) s s') := by
        intro expect t ht hpager hrun
        obtain ⟨readLen, s₂, hread, hrun⟩ := run_bind_eq_ok hrun
        obtain ⟨_, s₃, hunmap, hrun⟩ := run_bind_eq_ok hrun
        have hstep : Conserves live p strict touched (some frame) (some frame) t s₃ :=
          Conserves.trans
            (conserves_ask (fun b => neutral_vfs_read m d b v.node page expect region) _ _ _ hread)
            (conserves_tell (fun b => neutral_pd_unmap_page m d b .kernel region) _ _ _ hunmap)
        rw [run_ite] at hrun
        split at hrun
        · cases hrun
          exact ⟨nofun, fun _ => ht.trans hstep⟩
        · have hsame : s₃.pager = s.pager := by
            rw [tell_pager hunmap, ask_pager hread, hpager]
          obtain ⟨hadded, hfailed⟩ := add_page_conserves strict hp
            (by rw [hsame, hempty]) haligned hframe htouched hrun
          exact ⟨fun hok => (ht.trans hstep).trans (hadded hok),
            fun hok => (ht.trans hstep).trans (hfailed hok)⟩
      change (thePager p >>= _) s₁ = _ at h
      rw [run_bind_of_ok (run_the_pager p s₁)] at h
      have hpager : s₁.pager = s.pager := ask_pager hmap
      dsimp only at h
      split at h
      · obtain ⟨_, s₂, hclear, h⟩ := run_bind_eq_ok h
        have hcleared : Conserves live p strict touched (some frame) (some frame) s₁ s₂ :=
          conserves_tell (fun b => neutral_store m d b _ _) _ _ _ hclear
        exact hrest _ s₂ (hmapped.trans hcleared) ((tell_pager hclear).trans hpager) h
      · exact hrest _ s₁ hmapped hpager h

theorem conserves_vfs_page_in {v : VfsPager} {offset len : UInt32} (hp : p ∈ live)
    (htouched : pageAligned offset = true → ∀ page ∈ pagesOf offset len, touched page) :
    Keeps (KeepsBooks live p strict touched) (vfsPageIn (board m d) p v offset len) := by
  refine conserves_of_assert fun haligned => conserves_of_assert fun _ =>
    (conserves_ask fun b => neutral_region_alloc m d b pageSize).bind fun region =>
      keeps_ite (fun _ => keeps_pure _) fun _ => .bind ?_ fun _ =>
        conserves_tell fun b => neutral_region_free m d b region
  refine conserves_for_pages fun page hpage => ?_
  intro s u s' h
  rw [run_bind_of_ok (show findPage p page s = .ok ((s.pager p).pages page, s) from rfl),
    run_ite] at h
  split at h
  · next hempty =>
      obtain ⟨frame, s₁, halloc, h⟩ := run_bind_eq_ok h
      obtain ⟨hpager, -, hlt, hzero, htake⟩ :=
        frame_alloc_conserves live p strict touched halloc
      rw [run_ite] at h
      split at h
      · next hne =>
          obtain ⟨ok, s₂, hload, h⟩ := run_bind_eq_ok h
          obtain ⟨hadded, hfailed⟩ := vfs_load_page_conserves strict hp
            (by rw [hpager, hempty]) (aligned_of_mem_pages_of hpage haligned) hlt
            (htouched haligned page hpage) hload
          cases ok with
          | true =>
              cases h
              exact (htake hne).trans (hadded rfl)
          | false => exact ((htake hne).trans (hfailed rfl)).trans (frame_free_conserves h)
      · next hne =>
          cases h
          exact hzero (by simpa using hne)
  · cases h
    exact refl_of (KeepsBooks live p strict touched) s

/-- The pager has frames of its own, and is a swap pager only where that is granted. -/
structure OwnsFrames (strict : Prop) (ops : PagerOps) : Prop where
  notDevice : ∀ base, ops ≠ .device base
  swap : ∀ allowResize, ops = .swap allowResize → strict

/-- Paging in on a swap or VFS pager. -/
theorem page_in_conserves {offset len : UInt32} {u : Unit} (hp : p ∈ live)
    (hown : OwnsFrames strict (s.pager p).ops)
    (htouched : pageAligned offset = true → ∀ page ∈ pagesOf offset len, touched page)
    (h : pageIn (board m d) p offset len s = .ok (u, s')) :
    KeepsBooks live p strict touched s s' := by
  rw [pageIn, run_bind_of_ok (run_the_pager p s)] at h
  cases hops : (s.pager p).ops with
  | swap allowResize =>
      rw [hops] at h
      exact conserves_swap_page_in hp (hown.swap allowResize hops) htouched _ _ _ h
  | vfs v =>
      rw [hops] at h
      exact conserves_vfs_page_in hp htouched _ _ _ h
  | device base => exact absurd hops (hown.notDevice base)

/-- An entry that keeps its frame keeps the books in order. -/
theorem mark_conserves {entry : UInt32} (hthere : (s.pager p).pages page ≠ 0)
    (hframe : entry >>> entFrameShift = (s.pager p).pages page >>> entFrameShift) :
    KeepsBooks live p strict touched s (s.withEntry p page entry) :=
  with_entry_conserves (fun _ => .inl hthere) fun hs => hs.mark hframe hthere

/-- Clearing a flag of an entry does not change its frame. -/
theorem frame_and_not_dirty (v : UInt32) :
    (v &&& ~~~pageDirty) >>> entFrameShift = v >>> entFrameShift := by
  have hmask : (~~~pageDirty) >>> entFrameShift = 0xFFFFF := by decide
  rw [UInt32.shiftRight_and, hmask, ← UInt32.toNat_inj, UInt32.toNat_and, frame_toNat]
  have hlt := v.toNat_lt
  exact (Nat.and_two_pow_sub_one_eq_mod _ 20).trans (Nat.mod_eq_of_lt (by omega))

theorem conserves_vfs_page_commit (v : VfsPager) (offset len : UInt32) :
    Keeps (KeepsBooks live p strict touched) (vfsPageCommit (board m d) p v offset len) := by
  refine (conserves_assert _).bind fun _ => (conserves_assert _).bind fun _ =>
    (conserves_ask fun b => neutral_region_alloc m d b pageSize).bind fun region =>
      keeps_ite (fun _ => keeps_pure _) fun _ => .bind ?_ fun _ =>
        conserves_tell fun b => neutral_region_free m d b region
  refine conserves_for_pages fun page _ => ?_
  intro s u s' h
  rw [run_bind_of_ok (show findPage p page s = .ok ((s.pager p).pages page, s) from rfl),
    run_ite] at h
  split at h
  · next hdirty =>
      rw [run_bind_of_ok (run_the_pager p s)] at h
      obtain ⟨mapped, s₁, hmap, h⟩ := run_bind_eq_ok h
      have hmapped : KeepsBooks live p strict touched s s₁ :=
        conserves_ask (fun b => neutral_pd_map_page m d b .kernel region _ true) _ _ _ hmap
      have hunmap : Keeps (KeepsBooks live p strict touched)
          (tell ((board m d).pdUnmapPage .kernel region)) :=
        conserves_tell fun b => neutral_pd_unmap_page m d b .kernel region
      rw [run_ite] at h
      split at h
      · rw [run_ite] at h
        split at h
        · obtain ⟨writeLen, s₂, hwrite, h⟩ := run_bind_eq_ok h
          have hwritten : KeepsBooks live p strict touched s₁ s₂ :=
            conserves_ask (fun b => neutral_vfs_write m d b v.node page _ region) _ _ _ hwrite
          rw [run_ite] at h
          split at h
          · rw [run_bind_of_ok (run_put_page p page _ s₂)] at h
            have hsame : s₂.pager = s.pager := (ask_pager hwrite).trans (ask_pager hmap)
            have hmark : KeepsBooks live p strict touched s₂
                (s₂.withEntry p page ((s.pager p).pages page &&& ~~~pageDirty)) :=
              mark_conserves (by rw [hsame]; exact hdirty.1) (by rw [hsame, frame_and_not_dirty])
            exact ((hmapped.trans hwritten).trans hmark).trans (hunmap _ _ _ h)
          · exact (hmapped.trans hwritten).trans (hunmap _ _ _ h)
        · exact hmapped.trans (hunmap _ _ _ h)
      · cases h
        exact hmapped
  · cases h
    exact refl_of (KeepsBooks live p strict touched) s

/-- Marking the entries of some pages, as `pager_access` and a write do. -/
theorem conserves_mark_pages {first len : UInt32} (flag : UInt32)
    {body : UInt32 → UInt32 → Call (Board W) Unit} (hflag : flag.toNat < 4096)
    (hzero : ∀ page, Keeps (KeepsBooks live p strict touched) (body page 0))
    (hbody : ∀ page v, v ≠ 0 → body page v = putPage p page (v ||| flag)) :
    Keeps (KeepsBooks live p strict touched)
      (forPages first len fun page => do body page (← findPage p page)) := by
  refine conserves_for_pages fun page _ => ?_
  intro s u s' h
  rw [run_bind_of_ok (show findPage p page s = .ok ((s.pager p).pages page, s) from rfl)] at h
  by_cases hthere : (s.pager p).pages page = 0
  · rw [hthere] at h
    exact hzero page _ _ _ h
  · rw [hbody page _ hthere, run_put_page] at h
    cases h
    exact mark_conserves hthere (frame_or_flag hflag)

theorem conserves_pager_unmap (offset len : UInt32) :
    Keeps (KeepsBooks live p strict touched) (pagerUnmap (board m d) p offset len) := by
  refine (keeps_get.bind fun _ => keeps_pure _).bind fun pg => keeps_for_m fun it _ => ?_
  refine (keeps_get.bind fun _ => keeps_pure _).bind fun r => conserves_for_pages fun _ _ => ?_
  refine (conserves_ask fun b => neutral_pd_get_entry m d b _ _).bind fun entry =>
    keeps_ite (fun _ => ?_) fun _ => keeps_pure _
  exact conserves_tell fun b => neutral_pd_unmap_page m d b _ _

theorem conserves_map_pages (region firstPage : UInt32) (write : Bool) (pages : List UInt32) :
    Keeps (KeepsBooks live p strict touched)
      (mapPages (board m d) p region firstPage write pages) := by
  induction pages with
  | nil => exact keeps_pure _
  | cons i rest ih =>
      refine (conserves_find_page i).bind fun _ => keeps_ite (fun _ => keeps_pure _) fun _ => ?_
      refine (conserves_ask fun b => neutral_pd_map_page m d b .kernel _ _ write).bind fun _ => ?_
      exact keeps_ite (fun _ => ih) fun _ => keeps_pure _

theorem conserves_drop_region (region regionLen : UInt32) :
    Keeps (KeepsBooks live p strict touched) (dropRegion (board m d) region regionLen) := by
  refine .bind (conserves_for_pages fun x _ => ?_) fun _ =>
    conserves_tell fun b => neutral_region_free m d b region
  refine (conserves_ask fun b => neutral_pd_get_entry m d b .kernel x).bind fun _ =>
    keeps_ite (fun _ => ?_) fun _ => keeps_pure _
  exact conserves_tell fun b => neutral_pd_unmap_page m d b .kernel x

/-- Copying between the pages of a pager and a buffer. -/
theorem transfer_conserves {offset len firstPage regionLen region : UInt32}
    {data : Option (List UInt8)} {bytes : List UInt8} (hp : p ∈ live)
    (hown : OwnsFrames strict (s.pager p).ops)
    (htouched : ∀ page ∈ pagesOf firstPage regionLen, touched page)
    (h : transfer (board m d) p offset len firstPage regionLen region data s = .ok (bytes, s')) :
    KeepsBooks live p strict touched s s' := by
  obtain ⟨_, s₁, hin, h⟩ := run_bind_eq_ok h
  refine (page_in_conserves hp hown (fun _ => htouched) hin).trans ?_
  refine Keeps.bind (conserves_map_pages region firstPage data.isSome _) (fun _ => ?_) _ _ _ h
  refine keeps_ite (fun _ => keeps_ite (fun _ => keeps_throw _) fun _ => ?_) fun _ => keeps_pure _
  cases data with
  | none => exact keeps_get.bind fun _ => keeps_pure _
  | some buf =>
      refine (conserves_tell fun b => neutral_store m d b _ _).bind fun _ => .bind ?_ fun _ =>
        keeps_pure _
      refine conserves_mark_pages pageAccessed (by decide)
        (fun page => conserves_of_assert fun hne => ?_) fun page v hv => ?_
      · exact absurd hne (by decide)
      · rw [decide_eq_true hv]
        rfl

theorem same_pages_of_set_pager {change : Pager → Pager} {u : Unit}
    (hchange : ∀ pg, (change pg).size = pg.size ∧ (change pg).ops = pg.ops ∧
      (change pg).pages = pg.pages)
    (h : setPager p change s = .ok (u, s')) : SamePages p s s' ∧ s'.world = s.world := by
  cases h
  obtain ⟨hsize, hops, hpages⟩ := hchange (s.pager p)
  exact ⟨⟨fun q hq => Function.update_of_ne hq _ _, by simpa using hsize, by simpa using hops, rfl,
    by simpa using hpages⟩, rfl⟩

/-- Changes of the lock and of the maps. -/
theorem conserves_set_pager {change : Pager → Pager}
    (hchange : ∀ pg, (change pg).size = pg.size ∧ (change pg).ops = pg.ops ∧
      (change pg).pages = pg.pages) :
    Keeps (KeepsBooks live p strict touched) (setPager p change : Call (Board W) Unit) := by
  intro s u s' h
  obtain ⟨hsame, hworld⟩ := same_pages_of_set_pager hchange h
  exact conserves_neutral hsame (neutral_same _ (by rw [hworld]) (by rw [hworld]))

theorem conserves_lock_pager :
    Keeps (KeepsBooks live p strict touched) (lockPager p : Call (Board W) Unit) :=
  (keeps_get.bind fun _ => keeps_pure _).bind fun _ => keeps_ite (fun _ => keeps_throw _) fun _ =>
    conserves_set_pager fun _ => ⟨rfl, rfl, rfl⟩

theorem conserves_unlock_pager :
    Keeps (KeepsBooks live p strict touched) (unlockPager p : Call (Board W) Unit) :=
  conserves_set_pager fun _ => ⟨rfl, rfl, rfl⟩

/-- A read or a write pages in pages below the size only. -/
theorem do_rw_conserves {offset len : UInt32} {data : Option (List UInt8)} {bytes : List UInt8}
    (hp : p ∈ live) (hown : OwnsFrames strict (s.pager p).ops)
    (htouched : ∀ page, page < (s.pager p).size → touched page)
    (h : pagerDoRw (board m d) p offset len data s = .ok (bytes, s')) :
    KeepsBooks live p strict touched s s' := by
  obtain ⟨_, s₁, hlock, h⟩ := run_bind_eq_ok h
  have hlocked : KeepsBooks live p strict touched s s₁ :=
    conserves_lock_pager _ _ _ hlock
  rw [run_bind_of_ok (run_the_pager p s₁), run_ite] at h
  split at h
  · cases h
    exact hlocked
  · obtain ⟨region, s₂, halloc, h⟩ := run_bind_eq_ok h
    have halloced : KeepsBooks live p strict touched s₁ s₂ :=
      conserves_ask (fun b => neutral_region_alloc m d b _) _ _ _ halloc
    obtain ⟨ret, s₃, hinner, h⟩ := run_bind_eq_ok h
    refine ((hlocked.trans halloced).trans ?_).trans
      ((conserves_unlock_pager.bind fun _ => keeps_pure _) _ _ _ h)
    rw [run_ite] at hinner
    split at hinner
    · cases hinner
      exact refl_of (KeepsBooks live p strict touched) _
    · obtain ⟨ret', s₄, htransfer, hinner⟩ := run_bind_eq_ok hinner
      have hops := (hlocked.trans halloced).ops
      refine (transfer_conserves hp (by rwa [hops]) (fun page hpage => htouched page ?_)
        htransfer).trans
        (((conserves_drop_region _ _).bind fun _ => keeps_pure _) _ _ _ hinner)
      rw [← hlocked.size]
      exact transfer_page_lt hpage

/-- A fault pages in the page at its offset. -/
theorem get_frame_conserves {offset frame : UInt32}
    (hp : p ∈ live) (hown : OwnsFrames strict (s.pager p).ops)
    (htouched : ∀ page ∈ pagesOf offset pageSize, touched page)
    (h : pagerGetFrame (board m d) p offset s = .ok (frame, s')) :
    KeepsBooks live p strict touched s s' := by
  obtain ⟨_, s₁, hlock, h⟩ := run_bind_eq_ok h
  have hlocked : KeepsBooks live p strict touched s s₁ :=
    conserves_lock_pager _ _ _ hlock
  obtain ⟨_, s₂, hassert, h⟩ := run_bind_eq_ok h
  have hasserted : KeepsBooks live p strict touched s₁ s₂ :=
    conserves_assert _ _ _ _ hassert
  rw [run_bind_of_ok (show findPage p offset s₂ = .ok ((s₂.pager p).pages offset, s₂) from rfl)] at h
  have hend : Keeps (KeepsBooks live p strict touched) (do
      let ret := (← findPage p offset) >>> entFrameShift
      unlockPager p
      return ret : Call (Board W) UInt32) :=
    (conserves_find_page offset).bind fun _ => conserves_unlock_pager.bind fun _ => keeps_pure _
  refine (hlocked.trans hasserted).trans ?_
  split at h
  · obtain ⟨_, s₃, hin, h⟩ := run_bind_eq_ok h
    have hops := (hlocked.trans hasserted).ops
    exact (page_in_conserves hp (by rwa [hops]) (fun _ => htouched) hin).trans (hend _ _ _ h)
  · exact hend _ _ _ h

theorem conserves_pager_access (offset len : UInt32) (accessed dirty : Bool) :
    Keeps (KeepsBooks live p strict touched)
      (pagerAccess p offset len accessed dirty : Call (Board W) Unit) := by
  refine conserves_lock_pager.bind fun _ => (conserves_assert _).bind fun _ => .bind ?_ fun _ =>
    conserves_unlock_pager
  refine conserves_mark_pages ((if accessed then pageAccessed else 0) |||
    (if dirty then pageDirty else 0)) ?_ (fun _ => keeps_pure _) fun page v hv => ?_
  · cases accessed <;> cases dirty <;> decide
  · rw [if_pos hv, UInt32.or_assoc]

theorem conserves_pager_commit_dirty :
    Keeps (KeepsBooks live p strict touched) (pagerCommitDirty (board m d) p) := by
  refine (keeps_get.bind fun _ => keeps_pure _).bind fun pg => ?_
  cases pg.ops with
  | vfs v =>
      refine conserves_lock_pager.bind fun _ => (keeps_get.bind fun _ => keeps_pure _).bind fun _ =>
        (conserves_vfs_page_commit v _ _).bind fun _ => conserves_unlock_pager
  | swap allowResize => exact keeps_pure _
  | device base => exact keeps_pure _

theorem conserves_pager_add_map (r : RegionId) :
    Keeps (KeepsBooks live p strict touched) (pagerAddMap p r : Call (Board W) Unit) := by
  refine conserves_lock_pager.bind fun _ => .bind ?_ fun _ => conserves_unlock_pager
  exact conserves_set_pager fun _ => ⟨rfl, rfl, rfl⟩

theorem conserves_pager_rm_map (r : RegionId) :
    Keeps (KeepsBooks live p strict touched) (pagerRmMap p r : Call (Board W) Unit) := by
  refine conserves_lock_pager.bind fun _ => (keeps_get.bind fun _ => keeps_pure _).bind fun _ =>
    keeps_ite (fun _ => (keeps_throw _).bind fun _ => conserves_unlock_pager) fun _ =>
      .bind ?_ fun _ => conserves_unlock_pager
  exact conserves_set_pager fun _ => ⟨rfl, rfl, rfl⟩

theorem Conserves.weaken {more : UInt32 → Prop} (h : KeepsBooks live p False touched s s')
    (hmore : ∀ page, touched page → more page) : Conserves live p strict more none none s s' where
  others := h.others
  size := h.size
  ops := h.ops
  next := h.next
  pages := fun page hpage => (h.pages page hpage).imp_right (hmore page)
  calls := by
    obtain ⟨new, hnew, hbooks⟩ := h.calls
    exact ⟨new, hnew, fun _ => hbooks False.elim⟩

/-- The books after an operation that may lose no frame. -/
theorem Conserves.books (h : KeepsBooks live p False touched s s')
    (hs : Books live none s) : Books live none s' := by
  obtain ⟨new, -, hbooks⟩ := h.calls
  exact (hbooks False.elim hs).1

/-- What releasing does to a pager whose books are in order: the pages have no entry afterwards,
and the books are in order. -/
def Releases (live : List PagerId) (p : PagerId) (pages : List UInt32)
    (program : Call (Board W) Unit) : Prop :=
  ∀ s u s', program s = .ok (u, s') → Books live none s →
    KeepsBooks live p False (fun _ => False) s s' ∧
      ∀ page ∈ pages, (s'.pager p).pages page = 0

/-- An entry is removed and its frame freed. -/
theorem releases_page (hp : p ∈ live) {frame : UInt32}
    (hframe : frame = (s.pager p).pages page >>> entFrameShift) (hne : frame ≠ 0) {u : Unit}
    (h : (do
      putPage p page 0
      tell ((board m d).frameFree frame) : Call (Board W) Unit) s = .ok (u, s')) :
    KeepsBooks live p False (fun _ => False) s s' ∧ (s'.pager p).pages page = 0 := by
  rw [run_bind_of_ok (run_put_page p page 0 s)] at h
  have hremoved : Conserves live p False (fun _ => False) none (some frame) s
      (s.withEntry p page 0) :=
    with_entry_conserves (fun hentry => absurd rfl hentry) fun hs => hs.remove hp hframe.symm hne
  refine ⟨hremoved.trans (frame_free_conserves h), ?_⟩
  rw [tell_pager h, Vm.with_entry_pages, if_pos ⟨rfl, rfl⟩]

theorem releases_for_pages {first len : UInt32} {body : UInt32 → Call (Board W) Unit}
    (h : ∀ page, Releases live p [page] (body page)) :
    Releases live p (pagesOf first len) (forPages first len body) := by
  intro s u s' hrun hs
  obtain ⟨_, mid, hloop, hend⟩ := run_bind_eq_ok hrun
  have hmid : mid = s' := by
    rw [run_ite] at hend
    split at hend
    · cases hend
    · cases hend
      rfl
  subst hmid
  clear hrun hend
  generalize pagesOf first len = pages at hloop ⊢
  induction pages generalizing s with
  | nil =>
      cases hloop
      exact ⟨refl_of (KeepsBooks live p False _) mid, nofun⟩
  | cons page rest ih =>
      obtain ⟨_, s₁, hbody, hloop⟩ := run_bind_eq_ok hloop
      obtain ⟨hstep, hgone⟩ := h page s _ s₁ hbody hs
      obtain ⟨hsteps, hothers⟩ := ih s₁ (hstep.books hs) hloop
      refine ⟨hstep.trans hsteps, fun x hx => ?_⟩
      rcases List.mem_cons.mp hx with rfl | hx
      · by_contra hthere
        rcases hsteps.pages x hthere with hbefore | htouched
        · exact hbefore (hgone x (by simp))
        · exact htouched
      · exact hothers x hx

/-- Releasing pages of a swap or VFS pager. -/
theorem releases_page_release (hp : p ∈ live) {offset len : UInt32} {u : Unit}
    (hkind : ∀ base, (s.pager p).ops ≠ .device base) (hs : Books live none s)
    (h : pageRelease (board m d) p offset len s = .ok (u, s')) :
    KeepsBooks live p False (fun _ => False) s s' ∧
      ∀ page ∈ pagesOf offset len, (s'.pager p).pages page = 0 := by
  rw [pageRelease, run_bind_of_ok (run_the_pager p s)] at h
  cases hops : (s.pager p).ops with
  | swap allowResize =>
      rw [hops] at h
      obtain ⟨_, s₁, hassert, h⟩ := run_bind_eq_ok h
      have hasserted : KeepsBooks live p False (fun _ => False) s s₁ :=
        conserves_assert _ _ _ _ hassert
      refine (releases_for_pages (fun page => ?_) s₁ _ s' h (hasserted.books hs)).imp_left
        hasserted.trans
      intro t u t' hrun ht
      rw [run_bind_of_ok (show findPage p page t = .ok ((t.pager p).pages page, t) from rfl)] at hrun
      rw [run_ite] at hrun
      split at hrun
      · next hne =>
          obtain ⟨hstep, hgone⟩ := releases_page hp rfl hne hrun
          exact ⟨hstep, by simpa using hgone⟩
      · next hzero =>
          cases hrun
          refine ⟨refl_of (KeepsBooks live p False _) t, fun x hx => ?_⟩
          obtain rfl := List.mem_singleton.mp hx
          by_contra hthere
          exact hzero (ht.entry p hp x hthere).1
  | vfs v =>
      rw [hops] at h
      obtain ⟨_, s₁, hassert, h⟩ := run_bind_eq_ok h
      obtain ⟨_, s₂, hassert', h⟩ := run_bind_eq_ok h
      have hasserted : KeepsBooks live p False (fun _ => False) s s₂ :=
        Conserves.trans (conserves_assert _ _ _ _ hassert) (conserves_assert _ _ _ _ hassert')
      refine (releases_for_pages (fun page => ?_) s₂ _ s' h (hasserted.books hs)).imp_left
        hasserted.trans
      intro t u t' hrun ht
      rw [run_bind_of_ok (show findPage p page t = .ok ((t.pager p).pages page, t) from rfl),
        run_ite] at hrun
      split at hrun
      · next hne =>
          obtain ⟨hstep, hgone⟩ := releases_page hp rfl (ht.entry p hp page hne).1 hrun
          exact ⟨hstep, by simpa using hgone⟩
      · next hzero =>
          cases hrun
          refine ⟨refl_of (KeepsBooks live p False _) t, fun x hx => ?_⟩
          obtain rfl := List.mem_singleton.mp hx
          simpa using hzero
  | device base => exact absurd hops (hkind base)

end Conserves

end Kogata.Kernel
