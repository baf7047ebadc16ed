import Kogata.Kernel.FileFault
import Kogata.Kernel.PagerUnmap
import Kogata.Kernel.PageRange
import Kogata.Lib.Mask
import Mathlib.Data.List.GetD

/-!
# What is in the pages of a pager

`Holds p content s` says that the resident pages of a pager hold certain bytes, each in a frame of
its own. Paging in keeps it when each page that is loaded gets the bytes it should
(`yields_load_pages`), and `pager_do_rw` copies between a buffer and these bytes
(`yields_transfer_read`, `yields_transfer_write`). All of them return, whichever allocations fail;
`AllGiven` says of the calls on record that none did.
-/

namespace Kogata.Kernel

open Lib.Effect Lib.Mask

variable {W : Type}

/-- A page of the kernel half, by its number, is mapped to a frame. -/
def Board.MapsTo (b : Board W) (page : Nat) (frame : UInt32) : Prop :=
  b.entry .kernel page &&& ptePresent ≠ 0 ∧ b.entry .kernel page >>> 12 = frame

section Memory

variable (b : Board W) {addr : UInt32} {bytes : List UInt8}

theorem seen_at_kernel (addr : UInt32) : Space.seenAt .kernel addr = .kernel := by
  unfold Space.seenAt
  split <;> rfl

theorem locates_iff (frame : UInt32) (offset : Nat) : b.locates addr frame offset = true ↔
    b.MapsTo (pageNo addr) frame ∧ addr.toNat % 4096 = offset := by
  simp [Board.locates, Board.present, Board.entryAt, Board.MapsTo, seen_at_kernel]

/-- What a store leaves in a byte that it reaches once. -/
theorem ram_store_hit {frame : UInt32} {offset i : Nat} (hi : i < bytes.length)
    (hat : b.locates (addr + UInt32.ofNat i) frame offset = true)
    (honce : ∀ k < bytes.length, b.locates (addr + UInt32.ofNat k) frame offset = true → k = i) :
    (b.storeAt addr bytes).ram frame offset = bytes.getD i 0 := by
  have hfind : (List.range bytes.length).find? (fun k =>
      b.locates (addr + UInt32.ofNat k) frame offset) = some i := by
    rw [List.find?_range_eq_some]
    refine ⟨hat, List.mem_range.mpr hi, fun k hk => ?_⟩
    by_contra hlocates
    have hki := honce k (by omega) (by simpa using hlocates)
    omega
  simp only [Board.storeAt, hfind]

/-- What a store does not reach stays. -/
theorem ram_store_miss {frame : UInt32} {offset : Nat}
    (h : ∀ k < bytes.length, b.locates (addr + UInt32.ofNat k) frame offset = false) :
    (b.storeAt addr bytes).ram frame offset = b.ram frame offset := by
  have hfind : (List.range bytes.length).find? (fun k =>
      b.locates (addr + UInt32.ofNat k) frame offset) = none := by
    rw [List.find?_eq_none]
    intro k hk
    simpa using h k (List.mem_range.mp hk)
  simp only [Board.storeAt, hfind]

theorem add_of_nat_toNat {i n : Nat} (hi : i < n) (hwrap : addr.toNat + n ≤ 2 ^ 32) :
    (addr + UInt32.ofNat i).toNat = addr.toNat + i := by
  rw [UInt32.toNat_add, UInt32.toNat_ofNat']
  omega

/-- A window on frames: each of its pages is mapped, and no two pages to the same frame. -/
structure Window (addr : UInt32) (len : Nat) (frameOf : Nat → UInt32) : Prop where
  wraps : addr.toNat + len ≤ 2 ^ 32
  maps : ∀ i < len, b.MapsTo ((addr.toNat + i) / 4096) (frameOf ((addr.toNat + i) / 4096))
  distinct : ∀ i < len, ∀ k < len,
    frameOf ((addr.toNat + i) / 4096) = frameOf ((addr.toNat + k) / 4096) →
      (addr.toNat + i) / 4096 = (addr.toNat + k) / 4096

variable {b} {frameOf : Nat → UInt32}

section

variable (h : Window b addr bytes.length frameOf)

include h

theorem Window.locates_iff {k : Nat}
    (hk : k < bytes.length) (frame : UInt32) (offset : Nat) :
    b.locates (addr + UInt32.ofNat k) frame offset = true ↔
      frameOf ((addr.toNat + k) / 4096) = frame ∧ (addr.toNat + k) % 4096 = offset := by
  rw [Kernel.locates_iff, pageNo, add_of_nat_toNat hk h.wraps]
  refine and_congr_left fun _ => ⟨fun hmaps => ?_, fun hframe => ?_⟩
  · rw [← (h.maps k hk).2]
    exact hmaps.2
  · rw [← hframe]
    exact h.maps k hk

/-- A byte stored through a window. -/
theorem Window.ram_store {i : Nat}
    (hi : i < bytes.length) :
    (b.storeAt addr bytes).ram (frameOf ((addr.toNat + i) / 4096)) ((addr.toNat + i) % 4096) =
      bytes.getD i 0 := by
  refine ram_store_hit b hi ((h.locates_iff hi _ _).mpr ⟨rfl, rfl⟩) fun k hk hat => ?_
  obtain ⟨hframe, hoffset⟩ := (h.locates_iff hk _ _).mp hat
  have hpage := h.distinct k hk i hi hframe
  omega

/-- A byte that is not in the window. -/
theorem Window.ram_other {frame : UInt32} {offset : Nat}
    (hother : ∀ k < bytes.length, frameOf ((addr.toNat + k) / 4096) = frame →
      (addr.toNat + k) % 4096 ≠ offset) :
    (b.storeAt addr bytes).ram frame offset = b.ram frame offset := by
  refine ram_store_miss b fun k hk => ?_
  by_contra hat
  obtain ⟨hframe, hoffset⟩ := (h.locates_iff hk frame offset).mp (by simpa using hat)
  exact hother k hk hframe hoffset

end

/-- The bytes read through a window. -/
theorem Window.byte_at {len i : Nat} (h : Window b addr len frameOf) (hi : i < len) :
    b.byteAt (addr + UInt32.ofNat i) =
      b.ram (frameOf ((addr.toNat + i) / 4096)) ((addr.toNat + i) % 4096) := by
  unfold Board.byteAt Board.entryAt
  rw [seen_at_kernel, pageNo, add_of_nat_toNat hi h.wraps, (h.maps i hi).2]

/-- The entry that `pd_map_page` writes has its frame and is present. -/
theorem mapped_entry_spec {frame : UInt32} (hframe : frame.toNat < 2 ^ 20) (addr : UInt32)
    (rw : Bool) : Board.mappedEntry addr frame rw &&& ptePresent ≠ 0 ∧
      Board.mappedEntry addr frame rw >>> 12 = frame := by
  unfold Board.mappedEntry
  constructor
  · refine (within_or_left _ _).any ((within_or_left _ _).any ((within_or_right _ _).any ?_))
    decide
  · rw [frame_or_flag (by split <;> decide), frame_or_flag (by split <;> decide),
      frame_or_flag (by decide)]
    exact frame_shift_shift hframe

end Memory

/-- A call that does not fail, if it can. -/
def MachineCall.given : MachineCall → Bool
  | .malloc ok => ok
  | .regionAlloc _ region => region != 0
  | .frameAlloc frame => frame != 0
  | .mapPage _ _ _ ok => ok
  | _ => true

/-- No allocation among these calls fails. -/
def AllGiven (calls : List MachineCall) : Prop :=
  ∀ call ∈ calls, call.given = true

theorem all_given_append {calls more : List MachineCall} :
    AllGiven (more ++ calls) ↔ AllGiven more ∧ AllGiven calls :=
  List.forall_mem_append

/-- What the driver has last delivered or taken of a page, and whether that was all of it. -/
def lastSeen (node : Nat) (page : UInt32) : List MachineCall → Option (List UInt8 × Bool)
  | [] => none
  | .read n offset len bytes :: rest =>
      if n = node ∧ offset = page then some (bytes, bytes.length == len.toNat)
      else lastSeen node page rest
  | .write n offset bytes count :: rest =>
      if n = node ∧ offset = page then some (bytes, count == UInt32.ofNat bytes.length)
      else lastSeen node page rest
  | .malloc _ :: rest | .regionAlloc _ _ :: rest | .frameAlloc _ :: rest | .frameFree _ :: rest
  | .mapPage _ _ _ _ :: rest | .store _ _ :: rest => lastSeen node page rest

/-- The states differ by calls that do not write to a frame, and by page tables of the machine. -/
structure Still (new : List MachineCall) (s s' : Vm (Board W)) : Prop where
  calls : s'.world.calls = new ++ s.world.calls
  ram : s'.world.ram = s.world.ram
  bits : s'.world.frameBitset = s.world.frameBitset
  pager : s'.pager = s.pager
  region : s'.region = s.region
  proc : s'.proc = s.proc
  next : s'.next = s.next

theorem Still.refl (s : Vm (Board W)) : Still [] s s :=
  ⟨rfl, rfl, rfl, rfl, rfl, rfl, rfl⟩

theorem Still.trans {new new' : List MachineCall} {s mid s' : Vm (Board W)} (h : Still new s mid)
    (h' : Still new' mid s') : Still (new' ++ new) s s' where
  calls := by rw [h'.calls, h.calls, List.append_assoc]
  ram := h'.ram.trans h.ram
  bits := h'.bits.trans h.bits
  pager := h'.pager.trans h.pager
  region := h'.region.trans h.region
  proc := h'.proc.trans h.proc
  next := h'.next.trans h.next

section Calls

variable {m : Machine W} {d : Backing W} {s : Vm (Board W)}

theorem yields_malloc : Yields (ask (board m d).malloc) s fun ok s' =>
    Still [.malloc ok] s s' ∧ s'.world.entry = s.world.entry :=
  ⟨_, _, rfl, ⟨rfl, rfl, rfl, rfl, rfl, rfl, rfl⟩, rfl⟩

theorem yields_region_alloc (len : UInt32) : Yields (ask ((board m d).regionAlloc len)) s
    fun region s' => Still [.regionAlloc len region] s s' ∧ s'.world.entry = s.world.entry ∧
      (region ≠ 0 → fitsKernel region len = true) := by
  refine ⟨_, _, rfl, ⟨rfl, rfl, rfl, rfl, rfl, rfl, rfl⟩, rfl, fun hne => ?_⟩
  change (if fitsKernel _ len then _ else (0 : UInt32)) ≠ 0 at hne
  change fitsKernel (if fitsKernel _ len then _ else (0 : UInt32)) len = true
  split at hne
  · next hfits => rwa [if_pos hfits]
  · exact absurd rfl hne

theorem yields_region_free (addr : UInt32) : Yields (tell ((board m d).regionFree addr)) s
    fun _ s' => Still [] s s' ∧ s'.world.entry = s.world.entry :=
  ⟨_, _, rfl, ⟨rfl, rfl, rfl, rfl, rfl, rfl, rfl⟩, rfl⟩

theorem yields_pd_map_page (addr frame : UInt32) (rw : Bool) :
    Yields (ask ((board m d).pdMapPage .kernel addr frame rw)) s fun ok s' =>
      Still [.mapPage .kernel addr frame ok] s s' ∧
        (ok = true → ∀ page, s'.world.entry .kernel page =
          if page = pageNo addr then Board.mappedEntry addr frame rw
          else s.world.entry .kernel page) := by
  generalize hanswer : m.pdMapPage .kernel addr frame rw s.world.world = answer
  have hrun : ask ((board m d).pdMapPage .kernel addr frame rw) s = .ok (answer.1, { s with
      world := (if answer.1 then
          { s.world with world := answer.2 }.setEntry .kernel addr (Board.mappedEntry addr frame rw)
        else { s.world with world := answer.2 }).record (.mapPage .kernel addr frame answer.1) }) := by
    rw [← hanswer]
    rfl
  refine ⟨_, _, hrun, ?_, fun hok page => ?_⟩
  · cases answer.1 <;> exact ⟨rfl, rfl, rfl, rfl, rfl, rfl, rfl⟩
  · change ((if answer.1 = true then _ else _ : Board W).record _).entry .kernel page = _
    rw [if_pos hok]
    refine (entry_set_entry _ .kernel addr _ .kernel page).trans ?_
    simp [slotOf, seen_at_kernel]

theorem yields_pd_unmap_page (space : Space) (addr : UInt32) :
    Yields (tell ((board m d).pdUnmapPage space addr)) s fun _ s' => Still [] s s' := by
  refine ⟨_, _, rfl, ?_⟩
  change Still [] s { s with world := if s.world.present space addr then _ else s.world }
  split
  · exact ⟨rfl, rfl, rfl, rfl, rfl, rfl, rfl⟩
  · exact ⟨rfl, rfl, rfl, rfl, rfl, rfl, rfl⟩

theorem yields_pd_get_entry (space : Space) (addr : UInt32) :
    Yields (ask ((board m d).pdGetEntry space addr)) s fun _ s' => Still [] s s' :=
  ⟨_, _, rfl, ⟨rfl, rfl, rfl, rfl, rfl, rfl, rfl⟩⟩

end Calls

/-- The frame of a page of a pager. -/
def Vm.frameAt (s : Vm W) (p : PagerId) (page : UInt32) : UInt32 :=
  (s.pager p).pages page >>> entFrameShift

theorem Vm.frame_at_congr {p : PagerId} {s s' : Vm W}
    (h : (s'.pager p).pages = (s.pager p).pages) (page : UInt32) :
    s'.frameAt p page = s.frameAt p page := by
  rw [Vm.frameAt, h, Vm.frameAt]

/-- The resident pages of the pager hold these bytes, each in a frame of its own that is in use. -/
structure Holds (p : PagerId) (content : Nat → UInt8) (s : Vm (Board W)) : Prop where
  entry : ∀ page, (s.pager p).pages page ≠ 0 → pageAligned page = true ∧ s.frameAt p page ≠ 0 ∧
    s.world.frameBitset (s.frameAt p page) = true
  bytes : ∀ page, (s.pager p).pages page ≠ 0 → ∀ j < 4096,
    s.world.ram (s.frameAt p page) j = content (page.toNat + j)
  distinct : ∀ page page', (s.pager p).pages page ≠ 0 → (s.pager p).pages page' ≠ 0 →
    s.frameAt p page = s.frameAt p page' → page = page'

section Holds

variable {p : PagerId} {content : Nat → UInt8} {s t s' : Vm (Board W)} {page frame : UInt32}
  {new : List MachineCall} {m : Machine W} {d : Backing W}

/-- Whatever leaves the pages of the pager and their frames alone. -/
theorem Holds.of_same (h : Holds p content s)
    (hpages : (s'.pager p).pages = (s.pager p).pages)
    (hbits : ∀ page, (s.pager p).pages page ≠ 0 →
      s'.world.frameBitset (s.frameAt p page) = s.world.frameBitset (s.frameAt p page))
    (hram : ∀ page, (s.pager p).pages page ≠ 0 → ∀ j < 4096,
      s'.world.ram (s.frameAt p page) j = s.world.ram (s.frameAt p page) j) :
    Holds p content s' := by
  have hframe := Vm.frame_at_congr hpages
  refine ⟨fun page hpage => ?_, fun page hpage j hj => ?_, fun page page' hpage hpage' => ?_⟩
  · rw [hpages] at hpage
    rw [hframe, hbits page hpage]
    exact h.entry page hpage
  · rw [hpages] at hpage
    rw [hframe, hram page hpage j hj]
    exact h.bytes page hpage j hj
  · rw [hpages] at hpage hpage'
    rw [hframe, hframe]
    exact h.distinct page page' hpage hpage'

theorem Holds.still (h : Holds p content s) (hstill : Still new s s') : Holds p content s' :=
  h.of_same (by rw [hstill.pager]) (fun _ _ => by rw [hstill.bits]) fun _ _ _ _ => by rw [hstill.ram]

/-- A free frame has been taken, and nothing but it has been written to. -/
structure Borrowed (frame : UInt32) (new : List MachineCall) (s t : Vm (Board W)) : Prop where
  calls : t.world.calls = new ++ s.world.calls
  free : s.world.frameBitset frame = false
  bits : t.world.frameBitset = Function.update s.world.frameBitset frame true
  ram : ∀ other ≠ frame, t.world.ram other = s.world.ram other
  pager : t.pager = s.pager
  region : t.region = s.region
  proc : t.proc = s.proc
  next : t.next = s.next

theorem Borrowed.still {new' : List MachineCall} (h : Borrowed frame new s t)
    (hstill : Still new' t s') : Borrowed frame (new' ++ new) s s' where
  calls := by rw [hstill.calls, h.calls, List.append_assoc]
  free := h.free
  bits := hstill.bits.trans h.bits
  ram := fun other hother => by rw [hstill.ram, h.ram other hother]
  pager := hstill.pager.trans h.pager
  region := hstill.region.trans h.region
  proc := hstill.proc.trans h.proc
  next := hstill.next.trans h.next

/-- A frame that a page has is not the one that was free. -/
theorem Borrowed.frame_ne (h : Borrowed frame new s t) (hs : Holds p content s)
    (hpage : (s.pager p).pages page ≠ 0) : s.frameAt p page ≠ frame := by
  intro heq
  have hbit := (hs.entry page hpage).2.2
  rw [heq, h.free] at hbit
  cases hbit

theorem Borrowed.holds (h : Borrowed frame new s t) (hs : Holds p content s) :
    Holds p content t :=
  hs.of_same (by rw [h.pager])
    (fun page hpage => by rw [h.bits, Function.update_of_ne (h.frame_ne hs hpage)])
    fun page hpage j _ => by rw [h.ram _ (h.frame_ne hs hpage)]

/-- What a part of paging in has done: the pages that were resident still are, in the same frames,
and the pages in question are as well, unless an allocation failed. -/
structure Loaded (p : PagerId) (content : Nat → UInt8) (pages : List UInt32) (s s' : Vm (Board W)) :
    Prop where
  holds : Holds p content s'
  grows : ∀ x, (s.pager p).pages x ≠ 0 → (s'.pager p).pages x = (s.pager p).pages x
  only : PagesOnly p s s'
  calls : ∃ new, s'.world.calls = new ++ s.world.calls ∧
    (AllGiven new → ∀ page ∈ pages, (s'.pager p).pages page ≠ 0)

theorem Still.loaded {pages : List UInt32} (h : Still new s s') (hs : Holds p content s)
    (hthere : AllGiven new → ∀ page ∈ pages, (s.pager p).pages page ≠ 0) :
    Loaded p content pages s s' where
  holds := hs.still h
  grows := fun x _ => by rw [h.pager]
  only := ⟨h.region, h.proc, h.next, fun q _ => by rw [h.pager], by rw [h.pager]⟩
  calls := ⟨new, h.calls, by rw [h.pager]; exact hthere⟩

theorem Loaded.trans {pages more : List UInt32} (h : Loaded p content pages s t)
    (h' : Loaded p content more t s') : Loaded p content (pages ++ more) s s' where
  holds := h'.holds
  grows := fun x hx => by
    have hmid := h.grows x hx
    rw [h'.grows x (by rw [hmid]; exact hx), hmid]
  only := trans_of (PagesOnly p) h.only h'.only
  calls := by
    obtain ⟨new, hnew, hthere⟩ := h.calls
    obtain ⟨new', hnew', hthere'⟩ := h'.calls
    refine ⟨new' ++ new, by rw [hnew', hnew, List.append_assoc], fun hgiven page hpage => ?_⟩
    obtain ⟨hgiven', hgiven⟩ := all_given_append.mp hgiven
    rcases List.mem_append.mp hpage with hpage | hpage
    · have hmid := hthere hgiven page hpage
      rw [h'.grows page hmid]
      exact hmid
    · exact hthere' hgiven' page hpage

/-- `frame_alloc` fails, or a free frame is taken. -/
theorem yields_frame_alloc : Yields (ask (board m d).frameAlloc) s fun frame t =>
    frame.toNat < 2 ^ 20 ∧ (frame = 0 → Still [.frameAlloc 0] s t) ∧
      (frame ≠ 0 → Borrowed frame [.frameAlloc frame] s t) := by
  generalize hanswer : m.frameAlloc s.world.world = answer
  generalize hframe : (if s.world.mayGive answer.1 then answer.1 else 0) = frame
  have hrun : ask (board m d).frameAlloc s = .ok (frame, { s with world := { s.world with
      world := answer.2
      frameBitset := if frame = 0 then s.world.frameBitset
        else Function.update s.world.frameBitset frame true
      calls := .frameAlloc frame :: s.world.calls } }) := by
    rw [← hframe, ← hanswer]
    rfl
  have hgiven : frame ≠ 0 → s.world.mayGive frame = true := by
    intro hne
    rw [← hframe] at hne ⊢
    split at hne
    · next hmay => rwa [if_pos hmay]
    · exact absurd rfl hne
  refine ⟨_, _, hrun, ?_, fun hzero => ?_, fun hne => ?_⟩
  · by_cases hne : frame = 0
    · rw [hne]
      decide
    · have hmay := hgiven hne
      simp only [Board.mayGive, Bool.and_eq_true, decide_eq_true_eq] at hmay
      exact hmay.1.2
  · refine ⟨?_, rfl, ?_, rfl, rfl, rfl, rfl⟩
    · rw [hzero]
      rfl
    · exact if_pos hzero
  · have hmay := hgiven hne
    simp only [Board.mayGive, Bool.and_eq_true, Bool.not_eq_true'] at hmay
    exact ⟨rfl, hmay.2, if_neg hne, fun _ _ => rfl, rfl, rfl, rfl, rfl⟩

/-- The frame is given back. -/
theorem yields_frame_free (h : Borrowed frame new s t) (hs : Holds p content s) {pages : List UInt32}
    (hthere : AllGiven new → ∀ page ∈ pages, (s.pager p).pages page ≠ 0) :
    Yields (tell ((board m d).frameFree frame)) t fun _ s' => Loaded p content pages s s' := by
  refine ⟨_, _, rfl, ?_, fun x _ => by rw [h.pager], ⟨h.region, h.proc, h.next,
    fun q _ => by rw [h.pager], by rw [h.pager]⟩, .frameFree frame :: new, ?_, fun hgiven => ?_⟩
  · refine hs.of_same (by rw [h.pager]) (fun page hpage => ?_) fun page hpage j _ => ?_
    · have hne := h.frame_ne hs hpage
      change Function.update t.world.frameBitset frame false _ = _
      rw [Function.update_of_ne hne, h.bits, Function.update_of_ne hne]
    · exact congrFun (h.ram _ (h.frame_ne hs hpage)) j
  · change _ :: t.world.calls = _
    rw [h.calls]
    rfl
  · rw [h.pager]
    exact hthere fun call hcall => hgiven call (List.mem_cons_of_mem _ hcall)

/-- The frame, once it has the bytes of its page, is put into the table. -/
theorem yields_add_page (h : Borrowed frame new s t) (hs : Holds p content s) (hne : frame ≠ 0)
    (hlt : frame.toNat < 2 ^ 20) (hempty : (s.pager p).pages page = 0)
    (haligned : pageAligned page = true)
    (hfilled : ∀ j < 4096, t.world.ram frame j = content (page.toNat + j)) :
    Yields (addPage (board m d) p page (frame <<< entFrameShift)) t fun ok s' =>
      (ok = true → Loaded p content [page] s s') ∧
        (ok = false → Borrowed frame (.malloc false :: new) s s') := by
  refine yields_malloc.bind fun ok t₁ ⟨hstill, _⟩ => ?_
  have hmid := h.still hstill
  cases ok with
  | false => exact yields_pure ⟨nofun, fun _ => hmid⟩
  | true =>
      refine yields_of_run (show _ = Except.ok (true, t₁.withEntry p page _) from rfl)
        ⟨fun _ => ?_, nofun⟩
      have hpages : ∀ x, ((t₁.withEntry p page (frame <<< entFrameShift)).pager p).pages x =
          if x = page then frame <<< entFrameShift else (s.pager p).pages x := by
        intro x
        rw [Vm.with_entry_pages, hmid.pager]
        simp only [true_and]
      have hframe : frame <<< entFrameShift ≠ 0 := by
        intro hzero
        have hshift := frame_shift_shift hlt
        rw [hzero] at hshift
        exact hne hshift.symm
      have hat : ∀ x, (t₁.withEntry p page (frame <<< entFrameShift)).frameAt p x =
          if x = page then frame else s.frameAt p x := by
        intro x
        unfold Vm.frameAt
        rw [hpages]
        split
        · exact frame_shift_shift hlt
        · rfl
      -- An entry is the new one, or one that was there and has another frame.
      have hold : ∀ x, x ≠ page → ((t₁.withEntry p page (frame <<< entFrameShift)).pager p).pages x ≠ 0 →
          (s.pager p).pages x ≠ 0 := by
        intro x hx hthere
        rwa [hpages, if_neg hx] at hthere
      refine ⟨⟨fun x hx => ?_, fun x hx j hj => ?_, fun x y hx hy heq => ?_⟩, fun x hx => ?_,
        ⟨hmid.region, hmid.proc, hmid.next, fun q hq => ?_, ?_⟩, _, hmid.calls, fun _ x hx => ?_⟩
      · by_cases hxp : x = page
        · subst hxp
          rw [hat, if_pos rfl]
          refine ⟨haligned, hne, ?_⟩
          rw [Vm.with_entry_world, hmid.bits, Function.update_self]
        · have hthere := hold x hxp hx
          rw [hat, if_neg hxp, Vm.with_entry_world, hmid.bits,
            Function.update_of_ne (h.frame_ne hs hthere)]
          exact hs.entry x hthere
      · by_cases hxp : x = page
        · subst hxp
          rw [hat, if_pos rfl, Vm.with_entry_world, hstill.ram]
          exact hfilled j hj
        · have hthere := hold x hxp hx
          rw [hat, if_neg hxp, Vm.with_entry_world, hmid.ram _ (h.frame_ne hs hthere)]
          exact hs.bytes x hthere j hj
      · rw [hat, hat] at heq
        by_cases hxp : x = page
        · by_cases hyp : y = page
          · rw [hxp, hyp]
          · rw [if_pos hxp, if_neg hyp] at heq
            exact absurd heq.symm (h.frame_ne hs (hold y hyp hy))
        · by_cases hyp : y = page
          · rw [if_neg hxp, if_pos hyp] at heq
            exact absurd heq (h.frame_ne hs (hold x hxp hx))
          · rw [if_neg hxp, if_neg hyp] at heq
            exact hs.distinct x y (hold x hxp hx) (hold y hyp hy) heq
      · rw [hpages, if_neg fun hxp => hx (by rw [hxp, hempty])]
      · rw [← hmid.pager]
        exact Function.update_of_ne hq _ _
      · rw [← hmid.pager]
        simp [Vm.withEntry]
      · obtain rfl := List.mem_singleton.mp hx
        rw [hpages, if_pos rfl]
        exact hframe

theorem add_page_calls {entry : UInt32} {ok : Bool}
    (h : addPage (board m d) p page entry s = .ok (ok, s')) :
    s'.world.calls = .malloc ok :: s.world.calls := by
  obtain ⟨ok', t, hmalloc, hrest⟩ := run_bind_eq_ok h
  have hcalls : t.world.calls = .malloc ok' :: s.world.calls := by
    cases hmalloc
    rfl
  cases ok' with
  | false =>
      cases hrest
      exact hcalls
  | true =>
      cases hrest
      exact hcalls

/-- The state after bytes have been stored by a call. -/
def Vm.withStore (t : Vm (Board W)) (addr : UInt32) (bytes : List UInt8) (call : MachineCall)
    (world : W) : Vm (Board W) :=
  let b : Board W := { t.world.storeAt addr bytes with world := world }
  { t with world := b.record call }

/-- A store into the page that the frame is mapped to. -/
theorem Borrowed.store {region : UInt32} {offset : Nat} (bytes : List UInt8)
    (h : Borrowed frame new s t) (hkernel : fitsKernel region pageSize = true)
    (hmaps : t.world.MapsTo (pageNo region) frame) (hin : offset + bytes.length ≤ 4096)
    (call : MachineCall) (world : W) :
    Borrowed frame (call :: new) s
        (t.withStore (region + UInt32.ofNat offset) bytes call world) ∧
      ∀ j, (t.withStore (region + UInt32.ofNat offset) bytes call world).world.ram frame j =
        if offset ≤ j ∧ j < offset + bytes.length then bytes.getD (j - offset) 0
        else t.world.ram frame j := by
  simp only [fitsKernel, Bool.and_eq_true, decide_eq_true_eq, page_aligned_iff] at hkernel
  obtain ⟨⟨hregion, -⟩, hfits⟩ := hkernel
  change region.toNat + 4096 ≤ 0xFFC00000 at hfits
  have haddr : (region + UInt32.ofNat offset).toNat = region.toNat + offset := by
    rw [UInt32.toNat_add, UInt32.toNat_ofNat']
    omega
  have hwindow : Window t.world (region + UInt32.ofNat offset) bytes.length fun _ => frame := by
    refine ⟨by omega, fun i hi => ?_, fun i hi k hk _ => by omega⟩
    have hpage : ((region + UInt32.ofNat offset).toNat + i) / 4096 = pageNo region := by
      unfold pageNo
      omega
    rw [hpage]
    exact hmaps
  refine ⟨⟨?_, h.free, h.bits, fun other hother => ?_, h.pager, h.region, h.proc, h.next⟩,
    fun j => ?_⟩
  · change call :: t.world.calls = _
    rw [h.calls]
    rfl
  · refine (funext fun j => ?_).trans (h.ram other hother)
    exact hwindow.ram_other fun k _ heq => absurd heq.symm hother
  · split
    · next hj =>
        have hhit := hwindow.ram_store (show j - offset < bytes.length by omega)
        have hoffset : ((region + UInt32.ofNat offset).toNat + (j - offset)) % 4096 = j := by omega
        rw [hoffset] at hhit
        exact hhit
    · next hj =>
        refine hwindow.ram_other fun k hk _ => ?_
        omega

/-- `memset` in the page that the frame is mapped to. -/
theorem yields_clear {region offset len : UInt32} (h : Borrowed frame new s t)
    (hkernel : fitsKernel region pageSize = true)
    (hmaps : t.world.MapsTo (pageNo region) frame) (hin : offset.toNat + len.toNat ≤ 4096) :
    Yields (tell ((board m d).clear (region + offset) len)) t fun _ t' =>
      Borrowed frame (.store (region + offset) len.toNat :: new) s t' ∧
        t'.world.entry = t.world.entry ∧ ∀ j, t'.world.ram frame j =
          if offset.toNat ≤ j ∧ j < offset.toNat + len.toNat then 0 else t.world.ram frame j := by
  have hlen : (List.replicate len.toNat (0 : UInt8)).length = len.toNat := List.length_replicate
  have hstore := h.store (List.replicate len.toNat 0) hkernel hmaps (by rw [hlen]; exact hin)
    (.store (region + offset) len.toNat) t.world.world
  rw [UInt32.ofNat_toNat, hlen] at hstore
  have hrun : tell ((board m d).clear (region + offset) len) t = .ok ((),
      t.withStore (region + offset) (List.replicate len.toNat 0)
        (.store (region + offset) (List.replicate len.toNat (0 : UInt8)).length) t.world.world) :=
    rfl
  rw [hlen] at hrun
  refine yields_of_run hrun ⟨hstore.1, rfl, fun j => (hstore.2 j).trans ?_⟩
  split
  · rw [List.getD_replicate _ (by omega)]
  · rfl

/-- The driver's `read` into the page that the frame is mapped to. -/
theorem yields_vfs_read {region offset len : UInt32} {node : Nat} {bytes : List UInt8}
    (h : Borrowed frame new s t) (hkernel : fitsKernel region pageSize = true)
    (hmaps : t.world.MapsTo (pageNo region) frame) (hin : bytes.length ≤ 4096)
    (hbytes : (d.read node offset len t.world.world).1 = bytes) :
    Yields (ask ((board m d).vfsRead node offset len region)) t fun readLen t' =>
      readLen = UInt32.ofNat bytes.length ∧
        Borrowed frame (.read node offset len bytes :: new) s t' ∧ ∀ j, t'.world.ram frame j =
          if j < bytes.length then bytes.getD j 0 else t.world.ram frame j := by
  have hstore := h.store bytes hkernel hmaps (by rw [Nat.zero_add]; exact hin)
    (.read node offset len bytes) (d.read node offset len t.world.world).2
  have hrun : ask ((board m d).vfsRead node offset len region) t = .ok (UInt32.ofNat bytes.length,
      t.withStore region bytes (.read node offset len bytes)
        (d.read node offset len t.world.world).2) := by
    rw [← hbytes]
    rfl
  rw [show UInt32.ofNat 0 = 0 from rfl, UInt32.add_zero] at hstore
  refine yields_of_run hrun ⟨rfl, hstore.1, fun j => (hstore.2 j).trans ?_⟩
  simp

/-- One page of a range is loaded, whatever the state, as long as the page may be. -/
def LoadsPage (p : PagerId) (content : Nat → UInt8) (may : UInt32 → Prop) (ops : PagerOps)
    (size : UInt32) (page : UInt32) (body : Call (Board W) Unit) : Prop :=
  ∀ s, Holds p content s → (s.pager p).ops = ops → (s.pager p).size = size →
    ((s.pager p).pages page = 0 → may page) →
    Yields body s fun _ s' => Loaded p content [page] s s'

/-- Loading the pages of a range one by one. -/
theorem yields_load_pages {may : UInt32 → Prop} {first len : UInt32}
    {body : UInt32 → Call (Board W) Unit} (hs : Holds p content s)
    (hwrap : pagesWrap first len = false)
    (hmay : ∀ page ∈ pagesOf first len, (s.pager p).pages page = 0 → may page)
    (hbody : ∀ page ∈ pagesOf first len,
      LoadsPage p content may (s.pager p).ops (s.pager p).size page (body page)) :
    Yields (forPages first len body) s fun _ s' => Loaded p content (pagesOf first len) s s' := by
  have hloop : ∀ pages, (∀ page ∈ pages, page ∈ pagesOf first len) → ∀ t,
      Loaded p content [] s t →
      Yields (pages.forM body) t fun _ s' => Loaded p content pages t s' := by
    intro pages
    induction pages with
    | nil =>
        intro _ t ht
        exact yields_pure (Still.loaded (.refl _) ht.holds nofun)
    | cons page rest ih =>
        intro hpages t ht
        have hpage := hpages page (by simp)
        refine (hbody page hpage t ht.holds (by rw [ht.only.same]) (by rw [ht.only.same])
          fun hempty => hmay page hpage ?_).bind fun _ t₁ ht₁ => ?_
        · by_contra hthere
          rw [ht.grows page hthere] at hempty
          exact hthere hempty
        · refine (ih (fun x hx => hpages x (by simp [hx])) t₁ ?_).mono fun _ s' hs' => ht₁.trans hs'
          exact ⟨ht₁.holds, (ht.trans ht₁).grows, (ht.trans ht₁).only, by
            obtain ⟨new, hnew, -⟩ := (ht.trans ht₁).calls
            exact ⟨new, hnew, nofun⟩⟩
  refine (hloop _ (fun _ => id) s (Still.loaded (.refl _) hs nofun)).bind
    fun _ t ht => ?_
  rw [hwrap, if_neg (by decide)]
  exact yields_pure ht

/-- A frame that was taken and is lost. -/
theorem Borrowed.loaded {pages : List UInt32} (h : Borrowed frame new s t) (hs : Holds p content s)
    (hthere : AllGiven new → ∀ page ∈ pages, (s.pager p).pages page ≠ 0) :
    Loaded p content pages s t where
  holds := h.holds hs
  grows := fun x _ => by rw [h.pager]
  only := ⟨h.region, h.proc, h.next, fun q _ => by rw [h.pager], by rw [h.pager]⟩
  calls := ⟨new, h.calls, by rw [h.pager]; exact hthere⟩

theorem not_all_given (call : MachineCall) (hcall : call.given = false) {calls : List MachineCall}
    (hmem : call ∈ calls) {prop : Prop} (h : AllGiven calls) : prop := by
  have hgiven := h call hmem
  rw [hcall] at hgiven
  cases hgiven

/-- `swap_page_in` loads a page of zeros. -/
theorem swap_page_loads {region : UInt32} {ops : PagerOps} {size : UInt32}
    (hkernel : fitsKernel region pageSize = true) (haligned : pageAligned page = true) :
    LoadsPage p content (fun page => ∀ j < 4096, content (page.toNat + j) = 0) ops size page
      (swapLoadPage (board m d) p region page) := by
  intro s hs _ _ hmay
  refine yields_bind_of_run (show findPage p page s = .ok ((s.pager p).pages page, s) from rfl) ?_
  refine yields_ite (fun hempty => ?_) fun hthere =>
    yields_pure ((Still.refl s).loaded hs fun _ x hx => by rwa [List.mem_singleton.mp hx])
  refine yields_frame_alloc.bind fun frame t ⟨hlt, hzero, htake⟩ => ?_
  refine yields_ite (fun hne => ?_) fun hnot =>
    yields_pure ((hzero (by simpa using hnot)).loaded hs
      (not_all_given (.frameAlloc 0) rfl (by simp)))
  refine (yields_pd_map_page region frame true).bind fun ok t₁ ⟨hstill, hentry⟩ => ?_
  have hmapped := (htake hne).still hstill
  cases ok with
  | false =>
      exact yields_pure (hmapped.loaded hs
        (not_all_given (.mapPage .kernel region frame false) rfl (by simp)))
  | true =>
      have hmaps : t₁.world.MapsTo (pageNo region) frame := by
        unfold Board.MapsTo
        rw [hentry rfl, if_pos rfl]
        exact mapped_entry_spec hlt region true
      have hclear := yields_clear (m := m) (d := d) hmapped hkernel hmaps
        (show (0 : UInt32).toNat + pageSize.toNat ≤ 4096 by decide)
      rw [UInt32.add_zero] at hclear
      refine hclear.bind fun _ t₂ ⟨hcleared, _, hram⟩ => ?_
      refine (yields_pd_unmap_page .kernel region).bind fun _ t₃ hunmap => ?_
      have hready := hcleared.still hunmap
      refine (yields_add_page hready hs hne hlt hempty haligned fun j hj => ?_).bind
        fun ok t₄ ⟨hadded, hfailed⟩ => ?_
      · rw [hunmap.ram, hram, if_pos ⟨Nat.zero_le _, by show j < 0 + 4096; omega⟩, hmay hempty j hj]
      · cases ok with
        | true => exact yields_pure (hadded rfl)
        | false =>
            exact yields_frame_free (hfailed rfl) hs
              (not_all_given (.malloc false) rfl (by simp))

/-- The driver reads the bytes of a page up to the end of the file, and those behind it are zero. -/
def Fills (d : Backing W) (node : Nat) (content : Nat → UInt8) (size page : UInt32) : Prop :=
  (∀ w, (d.read node page (expectLen size page) w).1 =
    (List.range (expectLen size page).toNat).map fun j => content (page.toNat + j)) ∧
  ∀ j, (expectLen size page).toNat ≤ j → j < 4096 → content (page.toNat + j) = 0

/-- The bytes with those of one page replaced, and zeros behind them. -/
def paged (content : Nat → UInt8) (page : UInt32) (bytes : List UInt8) : Nat → UInt8 := fun x =>
  if page.toNat ≤ x ∧ x < page.toNat + 4096 then bytes.getD (x - page.toNat) 0 else content x

theorem paged_at {bytes : List UInt8} {j : Nat} (hj : j < 4096) :
    paged content page bytes (page.toNat + j) = bytes.getD j 0 := by
  rw [paged, if_pos ⟨Nat.le_add_right _ _, by omega⟩, Nat.add_sub_cancel_left]

/-- A page that is not resident may hold anything. -/
theorem Holds.paged (hs : Holds p content s) (haligned : pageAligned page = true)
    (hempty : (s.pager p).pages page = 0) (bytes : List UInt8) :
    Holds p (paged content page bytes) s := by
  refine ⟨hs.entry, fun x hx j hj => ?_, hs.distinct⟩
  rw [Kernel.paged, if_neg, hs.bytes x hx j hj]
  intro hin
  have hpage := page_aligned_iff.mp haligned
  have hother := page_aligned_iff.mp (hs.entry x hx).1
  have hsame : x = page := UInt32.toNat_inj.mp (by omega)
  rw [hsame, hempty] at hx
  exact hx rfl

/-- What `vfs_load_page` does with a frame: it puts the frame into the table with what the driver
delivers, or it keeps the frame, because an allocation failed or the driver delivered less. -/
structure PageRead (d : Backing W) (p : PagerId) (content : Nat → UInt8) (node : Nat)
    (page size frame : UInt32) (s t : Vm (Board W)) (bytes : List UInt8) (ok : Bool)
    (t' : Vm (Board W)) : Prop where
  driver : ∃ w, (d.read node page (expectLen size page) w).1 = bytes
  added : ok = true → bytes.length = (expectLen size page).toNat ∧
    Loaded p (paged content page bytes) [page] s t' ∧
    lastSeen node page t'.world.calls = some (bytes, true)
  kept : ok = false → ∃ new, Borrowed frame new s t' ∧
    (AllGiven new → bytes.length ≠ (expectLen size page).toNat)
  others : ∀ x ≠ page, lastSeen node x t'.world.calls = lastSeen node x t.world.calls

/-- `vfs_load_page` for a driver that delivers what it is asked for at most. -/
theorem yields_vfs_load_page {region size : UInt32} {v : VfsPager} (h : Borrowed frame new s t)
    (hs : Holds p content s) (hne : frame ≠ 0) (hlt : frame.toNat < 2 ^ 20)
    (hempty : (s.pager p).pages page = 0) (hsize : (s.pager p).size = size)
    (hkernel : fitsKernel region pageSize = true) (haligned : pageAligned page = true)
    (hexpect : (expectLen size page).toNat ≤ 4096)
    (hread : ∀ w, (d.read v.node page (expectLen size page) w).1.length ≤
      (expectLen size page).toNat) :
    Yields (vfsLoadPage (board m d) p v region page frame) t fun ok t' =>
      ∃ bytes, PageRead d p content v.node page size frame s t bytes ok t' := by
  refine (yields_pd_map_page region frame true).bind fun ok t₁ ⟨hstill, hentry⟩ => ?_
  have hmapped := h.still hstill
  have hcalls : t₁.world.calls = .mapPage .kernel region frame ok :: t.world.calls := hstill.calls
  cases ok with
  | false =>
      refine yields_pure ⟨_, ⟨t.world.world, rfl⟩, nofun, fun _ => ⟨_, hmapped,
        not_all_given (.mapPage .kernel region frame false) rfl (by simp)⟩, fun x _ => ?_⟩
      rw [hcalls]
      rfl
  | true =>
      have hmaps : t₁.world.MapsTo (pageNo region) frame := by
        unfold Board.MapsTo
        rw [hentry rfl, if_pos rfl]
        exact mapped_entry_spec hlt region true
      -- The driver's read, with what lies behind its bytes already cleared.
      have hrest : ∀ new t₂, Borrowed frame new s t₂ → t₂.world.entry = t₁.world.entry →
          (∀ x, lastSeen v.node x t₂.world.calls = lastSeen v.node x t.world.calls) →
          (∀ j, (expectLen size page).toNat ≤ j → j < 4096 → t₂.world.ram frame j = 0) →
          Yields (do
            let readLen ← ask ((board m d).vfsRead v.node page (expectLen size page) region)
            tell ((board m d).pdUnmapPage .kernel region)
            if readLen ≠ expectLen size page then return false
            else addPage (board m d) p page (frame <<< entFrameShift) : Call (Board W) Bool) t₂
            fun ok t' => ∃ bytes, PageRead d p content v.node page size frame s t bytes ok t' := by
        intro new t₂ hborrowed hsame hseen hcleared
        generalize hbytes : (d.read v.node page (expectLen size page) t₂.world.world).1 = bytes
        have hle : bytes.length ≤ (expectLen size page).toNat := hbytes ▸ hread t₂.world.world
        refine (yields_vfs_read hborrowed hkernel (by unfold Board.MapsTo; rw [hsame]; exact hmaps)
          (Nat.le_trans hle hexpect) hbytes).bind fun readLen t₃ ⟨hreadLen, hfilled, hram⟩ => ?_
        refine (yields_pd_unmap_page .kernel region).bind fun _ t₄ hunmap => ?_
        have hready := hfilled.still hunmap
        have hcalls₄ : t₄.world.calls =
            .read v.node page (expectLen size page) bytes :: t₂.world.calls := by
          rw [hready.calls, hborrowed.calls]
          rfl
        have hlen : readLen = expectLen size page ↔
            bytes.length = (expectLen size page).toNat := by
          rw [hreadLen, ← UInt32.toNat_inj,
            UInt32.toNat_ofNat_of_lt' (Nat.lt_of_le_of_lt hle (expectLen size page).toNat_lt)]
        have hothers : ∀ x ≠ page, ∀ ok, lastSeen v.node x (.malloc ok :: t₄.world.calls) =
            lastSeen v.node x t.world.calls := by
          intro x hx ok
          rw [hcalls₄, ← hseen x]
          exact if_neg fun heq => hx heq.2.symm
        refine yields_ite (fun hshort => yields_pure ?_) fun hwhole => ?_
        · exact ⟨bytes, ⟨_, hbytes⟩, nofun, fun _ => ⟨_, hready, fun _ heq => hshort (hlen.mpr heq)⟩,
            fun x hx => hothers x hx true⟩
        · have hwhole' := hlen.mp (not_not.mp hwhole)
          have hadd := yields_add_page (m := m) (d := d) hready
            (hs.paged haligned hempty bytes) hne hlt hempty haligned fun j hj => by
              rw [paged_at hj, hunmap.ram, hram]
              split
              · rfl
              · rw [hcleared j (by omega) hj, List.getD_eq_default _ _ (by omega)]
          obtain ⟨ok, t', hrun, hadded, hfailed⟩ := hadd
          have hnew : t'.world.calls = .malloc ok :: t₄.world.calls := add_page_calls hrun
          refine yields_of_run hrun ⟨bytes, ⟨_, hbytes⟩, fun hok => ⟨hwhole', hadded hok, ?_⟩,
            fun hok => ⟨_, hfailed hok, not_all_given (.malloc false) rfl (by simp)⟩,
            fun x hx => ?_⟩
          · rw [hnew, hcalls₄]
            exact (if_pos ⟨rfl, rfl⟩).trans (by rw [hwhole', beq_self_eq_true])
          · rw [hnew]
            exact hothers x hx ok
      change Yields (thePager p >>= _) t₁ _
      refine yields_bind_of_run (run_the_pager p t₁) ?_
      have hsize' : (t₁.pager p).size = size := by rw [hmapped.pager, hsize]
      rw [hsize']
      dsimp only
      split
      · have hclear := yields_clear (m := m) (d := d) hmapped hkernel hmaps
          (show (expectLen size page).toNat + (pageSize - expectLen size page).toNat ≤ 4096 by
            rw [UInt32.toNat_sub_of_le _ _ (UInt32.le_iff_toNat_le.mpr hexpect)]
            show _ + (4096 - _) ≤ 4096
            omega)
        refine hclear.bind fun _ t₂ ⟨hcleared, hsame, hram⟩ => hrest _ t₂ hcleared hsame
          (fun x => ?_) fun j hle hj => ?_
        · rw [hcleared.calls, h.calls]
          rfl
        · rw [hram, if_pos]
          rw [UInt32.toNat_sub_of_le _ _ (UInt32.le_iff_toNat_le.mpr hexpect)]
          refine ⟨hle, ?_⟩
          show j < _ + (4096 - _)
          omega
      · next hwhole =>
          refine hrest _ t₁ hmapped rfl (fun x => by rw [hcalls]; rfl) fun j hle hj => ?_
          have hfull : expectLen size page = pageSize := if_neg hwhole
          rw [hfull] at hle
          exact absurd hj (Nat.not_lt.mpr hle)

/-- What the driver delivers, and zeros behind it, are the bytes of the page. -/
theorem Fills.paged_eq {node : Nat} {size : UInt32} {bytes : List UInt8}
    (h : Fills d node content size page)
    (hdriver : ∃ w, (d.read node page (expectLen size page) w).1 = bytes) :
    bytes.length = (expectLen size page).toNat ∧ paged content page bytes = content := by
  obtain ⟨w, rfl⟩ := hdriver
  rw [h.1 w]
  refine ⟨by simp, funext fun x => ?_⟩
  unfold paged
  split
  · next hin =>
      have hx : page.toNat + (x - page.toNat) = x := by omega
      by_cases hread : x - page.toNat < (expectLen size page).toNat
      · simp [List.getD, hread, hx]
      · rw [List.getD_eq_default _ _ (by simpa using hread),
          ← h.2 (x - page.toNat) (by omega) (by omega), hx]
  · rfl

/-- `vfs_page_in` loads what the driver reads, and zeros behind the end of the file. -/
theorem vfs_page_loads {region size : UInt32} {v : VfsPager} {ops : PagerOps}
    (hkernel : fitsKernel region pageSize = true) (haligned : pageAligned page = true)
    (hlast : page.toNat + 4096 < 2 ^ 32) (hinside : page < size) :
    LoadsPage p content (Fills d v.node content size) ops size page (do
      if (← findPage p page) = 0 then
        let frame ← ask (board m d).frameAlloc
        if frame ≠ 0 then
          if !(← vfsLoadPage (board m d) p v region page frame) then
            tell ((board m d).frameFree frame) : Call (Board W) Unit) := by
  intro s hs _ hsize hmay
  refine yields_bind_of_run (show findPage p page s = .ok ((s.pager p).pages page, s) from rfl) ?_
  refine yields_ite (fun hempty => ?_) fun hthere =>
    yields_pure ((Still.refl s).loaded hs fun _ x hx => by rwa [List.mem_singleton.mp hx])
  refine yields_frame_alloc.bind fun frame t ⟨hlt, hzero, htake⟩ => ?_
  refine yields_ite (fun hne => ?_) fun hnot =>
    yields_pure ((hzero (by simpa using hnot)).loaded hs (not_all_given (.frameAlloc 0) rfl (by simp)))
  have hfills := hmay hempty
  have hload := yields_vfs_load_page (m := m) (v := v) (htake hne) hs hne hlt hempty hsize hkernel
    haligned (expect_len_inside hlast (UInt32.le_of_lt hinside)) fun w =>
      Nat.le_of_eq (hfills.paged_eq ⟨w, rfl⟩).1
  refine hload.bind fun ok t' ⟨bytes, hread⟩ => ?_
  obtain ⟨hlength, hsame⟩ := hfills.paged_eq hread.driver
  cases ok with
  | true =>
      have hadded := (hread.added rfl).2.1
      rw [hsame] at hadded
      exact yields_pure hadded
  | false =>
      obtain ⟨new, hborrowed, hnot⟩ := hread.kept rfl
      exact yields_frame_free hborrowed hs fun hgiven => absurd hlength (hnot hgiven)

/-- Taking a region for paging in, and giving it back. -/
theorem yields_with_region {pages : List UInt32} {body : UInt32 → Call (Board W) Unit}
    (hs : Holds p content s)
    (hbody : ∀ region t, fitsKernel region pageSize = true → Holds p content t →
      t.pager = s.pager → Yields (body region) t fun _ s' => Loaded p content pages t s') :
    Yields (do
      let region ← ask ((board m d).regionAlloc pageSize)
      if region = 0 then return ()
      else
        body region
        tell ((board m d).regionFree region) : Call (Board W) Unit) s
      fun _ s' => Loaded p content pages s s' := by
  refine (yields_region_alloc pageSize).bind fun region t ⟨halloc, _, hfits⟩ => ?_
  refine yields_ite (fun hzero => ?_) fun hne => ?_
  · rw [hzero] at halloc
    exact yields_pure (halloc.loaded hs (not_all_given (.regionAlloc pageSize 0) rfl (by simp)))
  · have hfirst : Loaded p content [] s t := halloc.loaded hs nofun
    refine (hbody region t (hfits hne) hfirst.holds halloc.pager).bind fun _ t₁ ht₁ => ?_
    refine (yields_region_free region).mono fun _ s' ⟨hfree, _⟩ => ?_
    have hlast : Loaded p content [] t₁ s' := hfree.loaded ht₁.holds nofun
    simpa using (hfirst.trans ht₁).trans hlast

/-- What `swap_page_in` does to a file whose bytes are zero where no page is resident. -/
theorem yields_swap_page_in {first len : UInt32} (hs : Holds p content s)
    (hfirst : pageAligned first = true) (hwrap : pagesWrap first len = false)
    (hzero : ∀ page ∈ pagesOf first len, (s.pager p).pages page = 0 →
      ∀ j < 4096, content (page.toNat + j) = 0) :
    Yields (swapPageIn (board m d) p first len) s
      fun _ s' => Loaded p content (pagesOf first len) s s' := by
  unfold swapPageIn
  rw [hfirst]
  refine yields_bind_of_run (show assert true s = .ok ((), s) from rfl) ?_
  refine yields_with_region hs fun region t hkernel ht hpager => ?_
  refine yields_load_pages ht hwrap (by rw [hpager]; exact hzero) fun page hpage => ?_
  exact swap_page_loads hkernel (aligned_of_mem_pages_of hpage hfirst)

/-- What `vfs_page_in` does to a file whose driver reads what it should. -/
theorem yields_vfs_page_in {first len : UInt32} {v : VfsPager} (hs : Holds p content s)
    (hread : v.canRead = true) (hfirst : pageAligned first = true)
    (hwrap : pagesWrap first len = false)
    (hinside : ∀ page ∈ pagesOf first len, page < (s.pager p).size ∧ page.toNat + 4096 < 2 ^ 32)
    (hfills : ∀ page ∈ pagesOf first len, Fills d v.node content (s.pager p).size page) :
    Yields (vfsPageIn (board m d) p v first len) s
      fun _ s' => Loaded p content (pagesOf first len) s s' := by
  unfold vfsPageIn
  rw [hfirst, hread]
  refine yields_bind_of_run (show assert true s = .ok ((), s) from rfl) ?_
  refine yields_bind_of_run (show assert true s = .ok ((), s) from rfl) ?_
  refine yields_with_region hs fun region t hkernel ht hpager => ?_
  rw [← hpager] at hinside hfills
  refine yields_load_pages ht hwrap (fun page hpage _ => hfills page hpage) fun page hpage => ?_
  exact vfs_page_loads hkernel (aligned_of_mem_pages_of hpage hfirst) (hinside page hpage).2
    (hinside page hpage).1

/-- The mapping loop of `pager_do_rw`: each page gets its frame, unless one is not there or
`pd_map_page` fails. -/
theorem yields_map_pages {region first : UInt32} {write : Bool} {pages : List UInt32}
    (hs : Holds p content s)
    (hnodup : (pages.map fun page => pageNo (region + page - first)).Nodup) :
    Yields (mapPages (board m d) p region first write pages) s fun ok t => ∃ new,
      Still new s t ∧
        (ok = true → ∀ page ∈ pages, (s.pager p).pages page ≠ 0 ∧
          t.world.MapsTo (pageNo (region + page - first)) (s.frameAt p page)) ∧
        (ok = true → ∀ no, (∀ page ∈ pages, no ≠ pageNo (region + page - first)) →
          t.world.entry .kernel no = s.world.entry .kernel no) ∧
        (AllGiven new → (∀ page ∈ pages, (s.pager p).pages page ≠ 0) → ok = true) := by
  induction pages generalizing s with
  | nil => exact yields_pure ⟨[], .refl s, fun _ => nofun, fun _ _ _ => rfl, fun _ _ => rfl⟩
  | cons i rest ih =>
      rw [List.map_cons, List.nodup_cons] at hnodup
      refine yields_bind_of_run (show findPage p i s = .ok ((s.pager p).pages i, s) from rfl) ?_
      refine yields_ite (fun hzero => ?_) fun hne => ?_
      · refine yields_pure ⟨[], .refl s, nofun, nofun, fun _ hthere => ?_⟩
        exact absurd hzero (hs.entry i (hthere i (by simp))).2.1
      · have hthere : (s.pager p).pages i ≠ 0 := by
          intro hzero
          rw [hzero] at hne
          exact hne (by decide)
        refine (yields_pd_map_page (region + i - first) (s.frameAt p i) write).bind
          fun ok t ⟨hstill, hentry⟩ => ?_
        cases ok with
        | false =>
            exact yields_pure ⟨_, hstill, nofun, nofun, not_all_given
              (.mapPage .kernel (region + i - first) (s.frameAt p i) false) rfl (by simp)⟩
        | true =>
            have hframe : (s.frameAt p i).toNat < 2 ^ 20 := by
              have hlt := ((s.pager p).pages i).toNat_lt
              rw [Vm.frameAt, frame_toNat]
              omega
            refine (ih (hs.still hstill) hnodup.2).mono
              fun ok t' ⟨new', hstill', hmaps, helse, hall⟩ => ?_
            simp only [Vm.frameAt, hstill.pager] at hmaps hall
            refine ⟨_, hstill.trans hstill', fun hok page hpage => ?_, fun hok no hno => ?_,
              fun hgiven hresident => ?_⟩
            · rcases List.mem_cons.mp hpage with rfl | hpage
              · refine ⟨hthere, ?_⟩
                unfold Board.MapsTo
                rw [helse hok _ fun page hpage heq => hnodup.1 (by
                  rw [heq]
                  exact List.mem_map_of_mem hpage), hentry rfl, if_pos rfl]
                exact mapped_entry_spec hframe _ write
              · exact hmaps hok page hpage
            · rw [helse hok no fun page hpage => hno page (by simp [hpage]), hentry rfl,
                if_neg (hno i (by simp))]
            · exact hall (all_given_append.mp hgiven).1 fun page hpage => hresident page (by simp [hpage])

end Holds

end Kogata.Kernel
