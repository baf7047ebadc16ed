import Kogata.Kernel.Probe

/-!
# The buffers of `select_sc`

`select_sc` of `kernel/user/syscall.c` multiplies the number of descriptors with the size of
`sel_fd_t` for `probe_for_write`, and with the size of a pointer for its array of the objects to
wait for. Both products are taken modulo `2 ^ 32`, and the end of the buffer that is probed is too.
`select_buffers_iff` is the exact condition under which the loop stays in both buffers.
-/

namespace Kogata.Kernel.SelectBuffers

open Lib.Effect Lib.Run

variable {W : Type} {s : Vm W} {proc : ProcId} {fds n : UInt32}

/-- `sizeof(sel_fd_t)`. -/
abbrev selFdSize : UInt32 := 8

/-- `sizeof(void*)`. -/
abbrev pointerSize : UInt32 := 4

/-- What the loop touches: `fds[i]`, and `wait_objs[k]`. -/
inductive Touch where
  | fd (i : UInt32)
  | waitObj (k : UInt32)
  deriving DecidableEq

/-- The probe of `select_sc`. -/
def selectProbe (proc : ProcId) (fds n : UInt32) : Call W Unit :=
  probeForWrite proc fds (n * selFdSize)

/-- The size of `wait_objs`. -/
def waitObjsSize (n : UInt32) : UInt32 := (n + 1) * pointerSize

/-- The loop over the descriptors from `i` on, where `poll` says which of them are handles, and
whether `file_poll` gives an object to wait for. -/
def pollLoop (poll : UInt32 → Option Bool) : Nat → UInt32 → UInt32 → List Touch
  | 0, _, _ => []
  | left + 1, i, nWaitObjs =>
      .fd i :: match poll i with
        | none => pollLoop poll left (i + 1) nWaitObjs
        | some obj =>
            .waitObj nWaitObjs :: .fd i ::
              pollLoop poll left (i + 1) (if obj then nWaitObjs + 1 else nWaitObjs)

/-- A pass of `select_sc`. -/
def selectPass (n : UInt32) (timeout : Int32) (poll : UInt32 → Option Bool) : List Touch :=
  if timeout > 0 then .waitObj 0 :: pollLoop poll n.toNat 0 1 else pollLoop poll n.toNat 0 0

/-- What is touched lies in a region of the process that can be written, or in the array. -/
def Touch.Inside (s : Vm W) (proc : ProcId) (fds n : UInt32) : Touch → Prop
  | .fd i => ∃ r ∈ (s.proc proc).regions, (s.region r).mode &&& mmWrite ≠ 0 ∧
      ∀ byte < selFdSize, (s.region r).Contains (fds + i * selFdSize + byte).toNat
  | .waitObj k => k.toNat * pointerSize.toNat + pointerSize.toNat ≤ (waitObjsSize n).toNat

/-- The buffers hold what the loop needs, and the loop stays in them. -/
structure StaysInside (s : Vm W) (proc : ProcId) (fds n : UInt32) : Prop where
  entries : ∀ i < n, (Touch.fd i).Inside s proc fds n
  waitObjs : (n.toNat + 1) * pointerSize.toNat ≤ (waitObjsSize n).toNat
  pass : ∀ timeout poll, ∀ touch ∈ selectPass n timeout poll, touch.Inside s proc fds n

/-- The end of the descriptors does not wrap around, or the probe refuses the buffer: its first
byte is in no region that can be written, or the wrapped end lies behind the region. -/
def SelectSafe (s : Vm W) (proc : ProcId) (fds n : UInt32) : Prop :=
  fds.toNat + n.toNat * selFdSize.toNat < 2 ^ 32 ∨
    ∀ r, s.lookup proc fds = some r → (s.region r).mode &&& mmWrite = 0 ∨
      (s.region r).addr + (s.region r).size < fds + n * selFdSize

/-- The loop touches the descriptors below `n`, and of the array as many pointers as descriptors
and one more. -/
theorem poll_loop_touches (poll : UInt32 → Option Bool) {left : Nat} {i nWaitObjs : UInt32}
    (hleft : i.toNat + left = n.toNat) (hcount : nWaitObjs.toNat ≤ i.toNat + 1) :
    ∀ touch ∈ pollLoop poll left i nWaitObjs,
      (∃ j < n, touch = .fd j) ∨ ∃ k ≤ n, touch = .waitObj k := by
  induction left generalizing i nWaitObjs with
  | zero => exact fun touch htouch => absurd htouch List.not_mem_nil
  | succ left ih =>
      have hlt : i < n := UInt32.lt_iff_toNat_lt.mpr (by omega)
      have hone : (1 : UInt32).toNat = 1 := rfl
      have hnext : (i + 1).toNat = i.toNat + 1 := by
        rw [Lib.Word.toNat_add_of_lt (by have := n.toNat_lt; omega), hone]
      have hle : nWaitObjs ≤ n := UInt32.le_iff_toNat_le.mpr (by omega)
      intro touch htouch
      rw [pollLoop] at htouch
      cases List.mem_cons.mp htouch with
      | inl hfd => exact .inl ⟨i, hlt, hfd⟩
      | inr hrest =>
          split at hrest
          · exact ih (by omega) (by omega) touch hrest
          · next obj _ =>
            rw [List.mem_cons, List.mem_cons] at hrest
            obtain hobj | hfd | hrest := hrest
            · exact .inr ⟨nWaitObjs, hle, hobj⟩
            · exact .inl ⟨i, hlt, hfd⟩
            · refine ih (by omega) ?_ touch hrest
              cases obj with
              | false => exact Nat.le_trans hcount (by omega)
              | true =>
                  have hmore : (nWaitObjs + 1).toNat ≤ nWaitObjs.toNat + 1 := by
                    rw [UInt32.toNat_add, hone]
                    exact Nat.mod_le _ _
                  exact Nat.le_trans hmore (by omega)

theorem select_pass_touches (timeout : Int32) (poll : UInt32 → Option Bool) :
    ∀ touch ∈ selectPass n timeout poll,
      (∃ j < n, touch = .fd j) ∨ ∃ k ≤ n, touch = .waitObj k := by
  have hzero : (0 : UInt32).toNat = 0 := rfl
  have hone : (1 : UInt32).toNat = 1 := rfl
  intro touch htouch
  unfold selectPass at htouch
  split at htouch
  · cases List.mem_cons.mp htouch with
    | inl hobj =>
        exact .inr ⟨0, UInt32.le_iff_toNat_le.mpr (hzero ▸ Nat.zero_le _), hobj⟩
    | inr hrest => exact poll_loop_touches poll (by omega) (by omega) touch hrest
  · exact poll_loop_touches poll (by omega) (by omega) touch htouch

/-- Where the array is as long as it should be, the loop stays in it. -/
theorem stays_inside (hfds : ∀ i < n, (Touch.fd i).Inside s proc fds n)
    (hobjs : (n.toNat + 1) * pointerSize.toNat ≤ (waitObjsSize n).toNat) :
    StaysInside s proc fds n := by
  refine ⟨hfds, hobjs, fun timeout poll touch htouch => ?_⟩
  obtain ⟨j, hj, rfl⟩ | ⟨k, hk, rfl⟩ := select_pass_touches timeout poll touch htouch
  · exact hfds j hj
  · have hle := UInt32.le_iff_toNat_le.mp hk
    have hfour : pointerSize.toNat = 4 := rfl
    show k.toNat * pointerSize.toNat + pointerSize.toNat ≤ _
    rw [hfour] at hobjs ⊢
    omega

/-- Where the descriptors do not wrap around, they lie in the region that was probed. -/
theorem stays_inside_of_lt (h : Indexed s proc) {r : RegionId}
    (hfits : fds.toNat + n.toNat * selFdSize.toNat < 2 ^ 32)
    (hfound : s.lookup proc fds = some r) (hmode : (s.region r).mode &&& mmWrite ≠ 0)
    (hend : fds + n * selFdSize ≤ (s.region r).addr + (s.region r).size) :
    StaysInside s proc fds n := by
  obtain ⟨hmem, hcontains⟩ := contains_of_lookup h hfound
  have hbounds := (h.sound r hmem).bounds
  have height : selFdSize.toNat = 8 := rfl
  have hfour : pointerSize.toNat = 4 := rfl
  have hone : (1 : UInt32).toNat = 1 := rfl
  rw [height] at hfits
  have hlen : (n * selFdSize).toNat = n.toNat * 8 := by
    rw [UInt32.toNat_mul, height, Nat.mod_eq_of_lt (by omega)]
  rw [UInt32.le_iff_toNat_le, hbounds.2.2, Lib.Word.toNat_add_of_lt (by omega), hlen] at hend
  refine stays_inside (fun i hi => ⟨r, hmem, hmode, fun byte hbyte => ?_⟩) ?_
  · have hilt := UInt32.lt_iff_toNat_lt.mp hi
    have hblt := UInt32.lt_iff_toNat_lt.mp hbyte
    have hoffset : (i * selFdSize).toNat = i.toNat * 8 := by
      rw [UInt32.toNat_mul, height, Nat.mod_eq_of_lt (by omega)]
    have hentry : (fds + i * selFdSize).toNat = fds.toNat + i.toNat * 8 := by
      rw [Lib.Word.toNat_add_of_lt (by omega), hoffset]
    rw [Lib.Word.toNat_add_of_lt (by omega), hentry]
    have hlow := hcontains.1
    exact ⟨by omega, by omega⟩
  · have hcount : (n + 1).toNat = n.toNat + 1 := by
      rw [Lib.Word.toNat_add_of_lt (by omega), hone]
    rw [waitObjsSize, UInt32.toNat_mul, hcount, hfour, Nat.mod_eq_of_lt (by omega)]

/-- Where the descriptors wrap around, one of them is at the top of the address space. -/
theorem descriptor_at_top (h : Indexed s proc)
    (hwrap : 2 ^ 32 ≤ fds.toNat + n.toNat * selFdSize.toNat) : ¬ StaysInside s proc fds n := by
  intro hinside
  have height : selFdSize.toNat = 8 := rfl
  rw [height] at hwrap
  have hfds := fds.toNat_lt
  have hn := n.toNat_lt
  -- the offset of the last byte of the address space
  obtain ⟨offset, hoffset⟩ := Nat.exists_eq_add_of_le (Nat.le_pred_of_lt hfds)
  have hpred : (2 ^ 32 : Nat).pred = 2 ^ 32 - 1 := rfl
  have hdiv := Nat.div_add_mod offset 8
  have hmod := Nat.mod_lt offset (show 0 < 8 by decide)
  have hi : (UInt32.ofNat (offset / 8)).toNat = offset / 8 :=
    UInt32.toNat_ofNat_of_lt' (show offset / 8 < 2 ^ 32 by omega)
  have hbyte : (UInt32.ofNat (offset % 8)).toNat = offset % 8 :=
    UInt32.toNat_ofNat_of_lt' (show offset % 8 < 2 ^ 32 by omega)
  obtain ⟨r, hmem, -, hbytes⟩ := hinside.entries (UInt32.ofNat (offset / 8))
    (UInt32.lt_iff_toNat_lt.mpr (by omega))
  have htop := (hbytes (UInt32.ofNat (offset % 8)) (UInt32.lt_iff_toNat_lt.mpr (by omega))).2
  have hbounds := (h.sound r hmem).bounds
  rw [UInt32.toNat_add, UInt32.toNat_add, UInt32.toNat_mul, hi, hbyte, height] at htop
  omega

/-- After any run of mapping calls, and for every address and number of descriptors: once its probe
has come back, `select_sc` stays in its buffers exactly when the end of the descriptors does not
wrap around, or the probe refuses them. -/
theorem select_buffers_iff (m : Machine W)
    (h : Reachable (regionRuns m proc fun _ _ => True) s) (fds n : UInt32) :
    ((∃ s', selectProbe proc fds n s = .ok ((), s')) → StaysInside s proc fds n) ↔
      SelectSafe s proc fds n := by
  have hindexed := indexed_of_reachable h
  have hprobe := @probe_ok_iff W s proc fds (n * selFdSize) hindexed mmWrite
  change (∃ s', selectProbe proc fds n s = .ok ((), s')) ↔ _ at hprobe
  rw [hprobe]
  constructor
  · intro hkept
    by_contra hunsafe
    rw [SelectSafe, not_or] at hunsafe
    obtain ⟨hwrap, hrefused⟩ := hunsafe
    push Not at hrefused
    obtain ⟨r, hfound, hmode, hend⟩ := hrefused
    exact descriptor_at_top hindexed (Nat.le_of_not_lt hwrap)
      (hkept ⟨r, hfound, hmode, UInt32.not_lt.mp hend⟩)
  · rintro hsafe ⟨r, hfound, hmode, hend⟩
    cases hsafe with
    | inl hfits => exact stays_inside_of_lt hindexed hfits hfound hmode hend
    | inr hrefused =>
        cases hrefused r hfound with
        | inl hflag => exact absurd hflag hmode
        | inr hpast => exact absurd hend (UInt32.not_le.mpr hpast)

/-- `select_buffers_iff` on a process with one page, and two descriptors. -/
theorem select_buffers_two : ∃ s : Vm Unit, (s.proc 0).regions = [1] ∧
    (((∃ s', selectProbe 0 0x1000 2 s = .ok ((), s')) → StaysInside s 0 0x1000 2) ↔
      SelectSafe s 0 0x1000 2) := by
  obtain ⟨s, hreach, hregions, -⟩ := one_page_reachable
  exact ⟨s, hregions, select_buffers_iff Machine.steady hreach 0x1000 2⟩

/-- `0x40000000` descriptors are probed as a buffer of no bytes, so that the process with one page
at `0x1000` gets through with them. -/
theorem select_leaves_buffers :
    ¬ ∀ s, Reachable (regionRuns Machine.steady 0 fun _ _ => True) s → ∀ fds n,
      (∃ s', selectProbe 0 fds n s = .ok ((), s')) → StaysInside s 0 fds n := by
  intro hclaim
  obtain ⟨s, hrun, hregions, haddr, hsize, hprobe⟩ : ∃ s : Vm Unit,
      RegionCall.perform Machine.steady 0 (.mmap 0x1000 0x1000 3) Vm.blank = .ok (true, s) ∧
      (s.proc 0).regions = [1] ∧ (s.region 1).addr = 0x1000 ∧ (s.region 1).size = 0x1000 ∧
      ∃ s', selectProbe 0 0x1000 0x40000000 s = .ok ((), s') := ⟨_, rfl, rfl, rfl, rfl, _, rfl⟩
  have hreach : Reachable (regionRuns Machine.steady 0 fun _ _ => True) s :=
    .step (.init (s := Vm.blank) rfl) ⟨_, true, trivial, hrun⟩
  obtain ⟨r, hr, -, hbytes⟩ := (hclaim s hreach 0x1000 0x40000000 hprobe).entries 0x200 (by decide)
  obtain rfl : r = 1 := by simpa [hregions] using hr
  have hfar := (hbytes 0 (by decide)).2
  rw [haddr, hsize] at hfar
  exact absurd hfar (by decide)

end Kogata.Kernel.SelectBuffers
