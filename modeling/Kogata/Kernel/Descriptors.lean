import Kogata.Kernel.Vfs
import Kogata.Lib.Effect

/-!
# File descriptors and `make_channel_sc`

The descriptor table of a process from `kernel/user/process.c`, and `make_channel_sc` from
`kernel/user/syscall.c`. The pair of descriptors that the call fills in lies in user memory, and
another thread may write it at any time, so that every read of it gives an arbitrary value.
-/

namespace Kogata.Kernel

open Lib.Effect

/-- The handles with their reference counts, and the descriptors of a process; a table that could
not be allocated is `none`. -/
structure Descriptors where
  refs : HandleId → Option Nat
  files : Option (List (Int × HandleId))
  nextFd : Int
  nextHandle : HandleId

/-- A call on the descriptors. -/
abbrev FdCall (α : Type) := StateT Descriptors (Except Halt) α

/-- The bindings of the table. -/
def Descriptors.bindings (s : Descriptors) : List (Int × HandleId) :=
  s.files.getD []

/-- The number of descriptors that are bound to a handle. -/
def Descriptors.bound (s : Descriptors) (h : HandleId) : Nat :=
  s.bindings.countP fun e => e.2 == h

/-- `unref_file`: a handle without references is freed. -/
def unrefHandle (h : HandleId) : FdCall Unit := do
  match (← get).refs h with
  | none => throw .wild
  | some r => modify fun s => { s with
      refs := Function.update s.refs h (if r - 1 = 0 then none else some (r - 1)) }

/-- `proc_add_fd`; `allocated` is the answer of the `malloc` in `hashtbl_add`. -/
def procAddFd (allocated : Bool) (h : HandleId) : FdCall Int := do
  let s ← get
  let fd := s.nextFd
  match s.files with
  | some files =>
      if allocated then
        set { s with
          nextFd := fd + 1
          files := some ((fd, h) :: files.filter fun e => e.1 != fd) }
        return fd
      else
        set { s with nextFd := fd + 1 }
        return 0
  | none =>
      set { s with nextFd := fd + 1 }
      return 0

/-- `proc_close_fd`. -/
def procCloseFd (fd : Int) : FdCall Unit := do
  match (← get).bindings.lookup fd with
  | none => return ()
  | some x => do
      unrefHandle x
      modify fun s => { s with files := s.files.map fun files => files.filter fun e => e.1 != fd }

/-- `make_channel`: two handles with one reference each, unless a `malloc` fails. -/
def Descriptors.makeChannel (made : Bool) : FdCall (Option (HandleId × HandleId)) := do
  if made then
    let s ← get
    let a := s.nextHandle
    let b := s.nextHandle + 1
    set { s with
      refs := Function.update (Function.update s.refs a (some 1)) b (some 1)
      nextHandle := s.nextHandle + 2 }
    return some (a, b)
  else return none

/-- What the reads of the user's pair give, in the order of the code: the tests after the two
`proc_add_fd`, and under `error` the test and the argument for each half. -/
structure FdPairReads where
  testA : Int
  testB : Int
  cleanA : Int
  closeA : Int
  cleanB : Int
  closeB : Int
  deriving DecidableEq

/-- One half of what `make_channel_sc` does under `error`. -/
def cleanHalf (clean close : Int) (handle : Option HandleId) : FdCall Unit :=
  if clean ≠ 0 then procCloseFd close
  else
    match handle with
    | some h => unrefHandle h
    | none => return ()

/-- What `make_channel_sc` does under `error`. -/
def cleanPair (reads : FdPairReads) (ch : Option (HandleId × HandleId)) : FdCall Bool := do
  cleanHalf reads.cleanA reads.closeA (ch.map Prod.fst)
  cleanHalf reads.cleanB reads.closeB (ch.map Prod.snd)
  return false

/-- `make_channel_sc` behind `probe_for_write`. The writes to the user's pair are left out, as the
next read may give anything. -/
def makeChannelSc (made addedA addedB : Bool) (reads : FdPairReads) : FdCall Bool := do
  let ch ← Descriptors.makeChannel made
  match ch with
  | none => cleanPair reads none
  | some (a, b) => do
      let _ ← procAddFd addedA a
      if reads.testA = 0 then cleanPair reads ch
      else
        let _ ← procAddFd addedB b
        if reads.testB = 0 then cleanPair reads ch
        else return true

/-- The handle has one reference for each descriptor that is bound to it, and is freed when there
is none. -/
def RefsExact (s : Descriptors) (h : HandleId) : Prop :=
  s.refs h = if s.bound h = 0 then none else some (s.bound h)

/-- The references of a handle that no descriptor accounts for. -/
def Descriptors.excess (s : Descriptors) (h : HandleId) : Int :=
  ((s.refs h).getD 0 : Int) - s.bound h

/-- A handle in memory has references, and a descriptor is bound once. -/
structure Descriptors.Tidy (s : Descriptors) : Prop where
  live : ∀ h, s.refs h ≠ some 0
  keys : (s.bindings.map Prod.fst).Nodup

/-- No descriptor is bound to a handle that may be freed under it, and the next numbers are
free. -/
structure Descriptors.Sound (s : Descriptors) : Prop extends Tidy s where
  covered : ∀ h, 0 ≤ s.excess h
  fresh : ∀ e ∈ s.bindings, e.1 < s.nextFd
  positive : 0 < s.nextFd
  handles : ∀ h, s.refs h ≠ none → h < s.nextHandle

section Excess

variable {s s' : Descriptors} {h : HandleId}

/-- The references are exact when none is in excess. -/
theorem refs_exact_iff (hs : s.Tidy) (h : HandleId) : RefsExact s h ↔ s.excess h = 0 := by
  unfold RefsExact Descriptors.excess
  have hlive := hs.live h
  cases hrefs : s.refs h with
  | none =>
      rw [Option.getD_none]
      split
      · next hzero => exact ⟨fun _ => by omega, fun _ => rfl⟩
      · next hbound => exact ⟨fun hnone => (by cases hnone), fun hzero => by omega⟩
  | some r =>
      have hpos : r ≠ 0 := by
        rintro rfl
        exact hlive hrefs
      rw [Option.getD_some]
      split
      · next hzero => exact ⟨fun hnone => (by cases hnone), fun hexcess => by omega⟩
      · rw [Option.some.injEq]
        omega

/-- `unref_file` of a handle in memory drops one reference. -/
theorem unref_handle_run {r : Nat} (hrefs : s.refs h = some r) :
    unrefHandle h s = .ok ((), { s with
      refs := Function.update s.refs h (if r - 1 = 0 then none else some (r - 1)) }) := by
  rw [unrefHandle, run_get_bind, hrefs]
  rfl

theorem unref_handle_wild (hrefs : s.refs h = none) : unrefHandle h s = .error .wild := by
  rw [unrefHandle, run_get_bind, hrefs]
  rfl

/-- What `unref_file` does to the references in excess, where it comes back. -/
theorem unref_handle_ok (hs : s.Tidy) (hrun : unrefHandle h s = .ok ((), s')) :
    s'.Tidy ∧ s'.files = s.files ∧ s'.nextFd = s.nextFd ∧ s'.nextHandle = s.nextHandle ∧
      ∀ k, s'.excess k = s.excess k - if k = h then 1 else 0 := by
  cases hrefs : s.refs h with
  | none =>
      rw [unref_handle_wild hrefs] at hrun
      cases hrun
  | some r =>
      rw [unref_handle_run hrefs] at hrun
      cases hrun
      have hpos : r ≠ 0 := by
        rintro rfl
        exact hs.live h hrefs
      refine ⟨⟨fun k => ?_, hs.keys⟩, rfl, rfl, rfl, fun k => ?_⟩
      · show Function.update s.refs h _ k ≠ some 0
        by_cases hk : k = h
        · rw [hk, Function.update_self]
          split
          · simp
          · next hne => simpa using hne
        · rw [Function.update_of_ne hk]
          exact hs.live k
      · show ((Function.update s.refs h _ k).getD 0 : Int) - s.bound k = _
        unfold Descriptors.excess
        by_cases hk : k = h
        · rw [hk, Function.update_self, hrefs, if_pos rfl]
          split
          · simp only [Option.getD_none, Option.getD_some]
            omega
          · simp only [Option.getD_some]
            omega
        · rw [Function.update_of_ne hk, if_neg hk, Int.sub_zero]

/-- A descriptor that is bound is bound once, so that closing it takes one binding away. -/
theorem countP_filter_fd {entries : List (Int × HandleId)} {fd : Int} {x : HandleId}
    (hkeys : (entries.map Prod.fst).Nodup) (hfind : entries.lookup fd = some x) (k : HandleId) :
    (entries.filter fun e => e.1 != fd).countP (fun e => e.2 == k) + (if k = x then 1 else 0) =
      entries.countP fun e => e.2 == k := by
  induction entries with
  | nil => cases hfind
  | cons e rest ih =>
      obtain ⟨key, v⟩ := e
      obtain ⟨hnot, hrest⟩ := List.nodup_cons.mp hkeys
      rw [List.lookup_cons] at hfind
      cases heq : fd == key with
      | true =>
          rw [heq] at hfind
          cases hfind
          obtain rfl : fd = key := eq_of_beq heq
          have hself : rest.filter (fun e => e.1 != fd) = rest := by
            refine List.filter_eq_self.mpr fun e he => ?_
            have hne : e.1 ≠ fd := fun heq => hnot (List.mem_map.mpr ⟨e, he, heq⟩)
            simpa using hne
          rw [List.filter_cons_of_neg (by simp), hself, List.countP_cons]
          refine congrArg _ (if_congr ?_ rfl rfl)
          rw [beq_iff_eq]
          exact eq_comm
      | false =>
          rw [heq] at hfind
          have hne : key ≠ fd := fun h => by simp [h] at heq
          rw [List.filter_cons_of_pos (by simpa using hne), List.countP_cons, List.countP_cons]
          have hcount := ih hrest hfind
          omega

/-- `proc_close_fd` drops a binding and its reference together. -/
theorem proc_close_fd_ok {fd : Int} (hs : s.Tidy) (hrun : procCloseFd fd s = .ok ((), s')) :
    s'.Tidy ∧ ∀ k, s'.excess k = s.excess k := by
  rw [procCloseFd, run_get_bind] at hrun
  cases hfind : s.bindings.lookup fd with
  | none =>
      rw [hfind] at hrun
      cases hrun
      exact ⟨hs, fun _ => rfl⟩
  | some x =>
      rw [hfind] at hrun
      obtain ⟨_, mid, hunref, hrest⟩ := run_bind_eq_ok hrun
      cases hrest
      obtain ⟨htidy, hfiles, -, -, hexcess⟩ := unref_handle_ok hs hunref
      have hbindings : Descriptors.bindings { mid with
          files := mid.files.map fun files => files.filter fun e => e.1 != fd } =
          s.bindings.filter fun e => e.1 != fd := by
        show (mid.files.map _).getD [] = _
        rw [hfiles]
        unfold Descriptors.bindings
        cases s.files <;> rfl
      refine ⟨⟨htidy.live, ?_⟩, fun k => ?_⟩
      · rw [hbindings]
        exact (List.filter_sublist.map _).nodup hs.keys
      · have hk := hexcess k
        have hcount := countP_filter_fd hs.keys hfind k
        have hmid : mid.bound k = s.bound k := by
          unfold Descriptors.bound Descriptors.bindings
          rw [hfiles]
        unfold Descriptors.excess at hk ⊢
        unfold Descriptors.bound at hk hmid ⊢
        rw [hbindings]
        show ((mid.refs k).getD 0 : Int) - _ = _
        rw [hmid] at hk
        by_cases hkx : k = x
        · rw [if_pos hkx] at hcount hk
          omega
        · rw [if_neg hkx] at hcount hk
          omega

/-- A descriptor that is bound is in the table. -/
theorem bound_pos_of_lookup {fd : Int} {x : HandleId} (hfind : s.bindings.lookup fd = some x) :
    0 < s.bound x := by
  obtain ⟨l₁, l₂, hsplit, -⟩ := List.lookup_eq_some_iff.mp hfind
  unfold Descriptors.bound
  rw [List.countP_pos_iff]
  exact ⟨(fd, x), by rw [hsplit]; simp, by simp⟩

/-- Where every binding has its reference, `proc_close_fd` comes back. -/
theorem proc_close_fd_sound {fd : Int} (hs : s.Sound) :
    ∃ s', procCloseFd fd s = .ok ((), s') ∧ s'.Sound := by
  cases hfind : s.bindings.lookup fd with
  | none =>
      refine ⟨s, ?_, hs⟩
      rw [procCloseFd, run_get_bind, hfind]
      rfl
  | some x =>
      have hcovered := hs.covered x
      have hbound := bound_pos_of_lookup hfind
      unfold Descriptors.excess at hcovered
      cases hrefs : s.refs x with
      | none =>
          rw [hrefs, Option.getD_none] at hcovered
          omega
      | some r =>
          have hrun : procCloseFd fd s = .ok ((), { s with
              refs := Function.update s.refs x (if r - 1 = 0 then none else some (r - 1))
              files := s.files.map fun files => files.filter fun e => e.1 != fd }) := by
            rw [procCloseFd, run_get_bind, hfind]
            exact run_bind_of_ok (unref_handle_run hrefs)
          obtain ⟨htidy, hexcess⟩ := proc_close_fd_ok hs.toTidy hrun
          refine ⟨_, hrun, ⟨htidy, fun k => ?_, fun e he => ?_, hs.positive, fun k hk => ?_⟩⟩
          · rw [hexcess k]
            exact hs.covered k
          · refine hs.fresh e ?_
            unfold Descriptors.bindings at he ⊢
            cases hfiles : s.files with
            | none => simp [hfiles] at he
            | some files =>
                simp only [hfiles, Option.map_some, Option.getD_some] at he ⊢
                exact (List.mem_filter.mp he).1
          · refine hs.handles k fun hnone => hk ?_
            show Function.update s.refs x _ k = none
            by_cases hkx : k = x
            · rw [hkx, hrefs] at hnone
              cases hnone
            · rw [Function.update_of_ne hkx]
              exact hnone

/-- Dropping a reference that is in excess keeps the rest covered. -/
theorem unref_handle_sound (hs : s.Sound) (hpos : 0 < s.excess h) :
    ∃ s', unrefHandle h s = .ok ((), s') ∧ s'.Sound := by
  cases hrefs : s.refs h with
  | none =>
      unfold Descriptors.excess at hpos
      rw [hrefs, Option.getD_none] at hpos
      omega
  | some r =>
      have hrun := unref_handle_run hrefs
      obtain ⟨htidy, -, -, -, hexcess⟩ := unref_handle_ok hs.toTidy hrun
      refine ⟨_, hrun, ⟨htidy, fun k => ?_, hs.fresh, hs.positive, fun k hk => ?_⟩⟩
      · have hcovered := hs.covered k
        rw [hexcess k]
        split
        · next hk =>
            rw [hk]
            omega
        · omega
      · refine hs.handles k fun hnone => hk ?_
        show Function.update s.refs h _ k = none
        by_cases hkh : k = h
        · rw [hkh, hrefs] at hnone
          cases hnone
        · rw [Function.update_of_ne hkh]
          exact hnone

/-- A descriptor number that is used up without being bound. -/
theorem skip_fd_sound (hs : s.Sound) : Descriptors.Sound { s with nextFd := s.nextFd + 1 } where
  live := hs.live
  keys := hs.keys
  covered := hs.covered
  fresh := fun e he => Int.lt_trans (hs.fresh e he) (by show s.nextFd < s.nextFd + 1; omega)
  positive := by
    have hpos := hs.positive
    show 0 < s.nextFd + 1
    omega
  handles := hs.handles

/-- `proc_add_fd` of a handle that has a reference to spare; the handle is bound when there is a
table and the allocation succeeds. -/
theorem proc_add_fd_spec (hs : s.Sound) (hpos : 0 < s.excess h) (allocated : Bool) :
    ∃ fd s', procAddFd allocated h s = .ok (fd, s') ∧ s'.Sound ∧ s'.files.isSome = s.files.isSome ∧
      ∀ k, s'.excess k =
        s.excess k - if k = h ∧ (s.files.isSome && allocated) = true then 1 else 0 := by
  obtain ⟨refs, files, nextFd, nextHandle⟩ := s
  cases files with
  | none =>
      refine ⟨0, _, rfl, skip_fd_sound hs, rfl, fun k => ?_⟩
      rw [if_neg (by simp), Int.sub_zero]
      rfl
  | some files =>
      cases allocated with
      | false =>
          refine ⟨0, _, rfl, skip_fd_sound hs, rfl, fun k => ?_⟩
          rw [if_neg (by simp), Int.sub_zero]
          rfl
      | true =>
          have hfresh : ∀ e ∈ files, e.1 < nextFd := hs.fresh
          have hsame : files.filter (fun e => e.1 != nextFd) = files :=
            List.filter_eq_self.mpr fun e he => by
              have hlt := hfresh e he
              have hne : e.1 ≠ nextFd := by omega
              simpa using hne
          have hrun : procAddFd true h
              { refs := refs, files := some files, nextFd := nextFd, nextHandle := nextHandle } =
              .ok (nextFd, { refs := refs, files := some ((nextFd, h) :: files)
                             nextFd := nextFd + 1, nextHandle := nextHandle }) := by
            show Except.ok (nextFd, ({ refs := refs, nextFd := nextFd + 1, nextHandle := nextHandle
                                       files := some ((nextFd, h) :: files.filter
                                         fun e => e.1 != nextFd) } : Descriptors)) = _
            rw [hsame]
          have hexcess : ∀ k, Descriptors.excess { refs := refs
                                                   files := some ((nextFd, h) :: files)
                                                   nextFd := nextFd + 1
                                                   nextHandle := nextHandle } k =
              Descriptors.excess { refs := refs, files := some files, nextFd := nextFd
                                   nextHandle := nextHandle } k - if k = h then 1 else 0 := by
            intro k
            show ((refs k).getD 0 : Int) - (List.countP _ ((nextFd, h) :: files) : Nat) =
              ((refs k).getD 0 : Int) - (List.countP _ files : Nat) - _
            rw [List.countP_cons]
            by_cases hk : k = h
            · subst hk
              simp
              omega
            · have hkh : ¬ (h == k) = true := by simpa using Ne.symm hk
              simp [hk, Ne.symm hk]
          refine ⟨_, _, hrun, ⟨⟨hs.live, ?_⟩, fun k => ?_, ?_, ?_, hs.handles⟩, rfl, fun k => ?_⟩
          · refine List.nodup_cons.mpr ⟨?_, hs.keys⟩
            intro hmem
            obtain ⟨e, he, heq⟩ := List.mem_map.mp hmem
            have hlt := hfresh e he
            omega
          · rw [hexcess k]
            have hcovered := hs.covered k
            split
            · next hk =>
                rw [hk]
                omega
            · omega
          · intro e he
            show e.1 < nextFd + 1
            rcases List.mem_cons.mp he with rfl | he
            · show nextFd < nextFd + 1
              omega
            · have hlt := hfresh e he
              omega
          · have hnext : 0 < nextFd := hs.positive
            show 0 < nextFd + 1
            omega
          · rw [hexcess k]
            simp

end Excess

section MakeChannel

variable {s s' : Descriptors} {a b : HandleId} {reads : FdPairReads}

/-- One half of the clean-up, where it comes back. -/
theorem clean_half_ok {clean close : Int} (hs : s.Tidy)
    (hrun : cleanHalf clean close (some a) s = .ok ((), s')) :
    s'.Tidy ∧ ∀ k, s'.excess k = s.excess k - if k = a ∧ clean = 0 then 1 else 0 := by
  unfold cleanHalf at hrun
  by_cases hclean : clean = 0
  · rw [if_neg (by simpa using hclean)] at hrun
    obtain ⟨htidy, -, -, -, hexcess⟩ := unref_handle_ok hs hrun
    refine ⟨htidy, fun k => ?_⟩
    rw [hexcess k]
    simp [hclean]
  · rw [if_pos hclean] at hrun
    obtain ⟨htidy, hexcess⟩ := proc_close_fd_ok hs hrun
    refine ⟨htidy, fun k => ?_⟩
    rw [hexcess k, if_neg (fun h => hclean h.2), Int.sub_zero]

/-- One half of the clean-up without a handle only closes a descriptor. -/
theorem clean_half_none {clean close : Int} (hs : s.Tidy)
    (hrun : cleanHalf clean close none s = .ok ((), s')) (k : HandleId) :
    s'.excess k = s.excess k := by
  unfold cleanHalf at hrun
  split at hrun
  · exact (proc_close_fd_ok hs hrun).2 k
  · cases hrun
    rfl

/-- One half of the clean-up comes back, if it drops no reference that a descriptor needs. -/
theorem clean_half_sound (clean close : Int) {handle : Option HandleId} (hs : s.Sound)
    (hspare : ∀ h, handle = some h → clean = 0 → 0 < s.excess h) :
    ∃ s', cleanHalf clean close handle s = .ok ((), s') ∧ s'.Sound := by
  unfold cleanHalf
  by_cases hclean : clean = 0
  · rw [if_neg (by simpa using hclean)]
    cases handle with
    | none => exact ⟨s, rfl, hs⟩
    | some h => exact unref_handle_sound hs (hspare h rfl hclean)
  · rw [if_pos hclean]
    exact proc_close_fd_sound hs

/-- The clean-up is right when each half drops the reference in excess, where there is one. -/
theorem clean_pair_iff {good : HandleId → Prop} (hs : s.Sound) (hne : a ≠ b) (ha : good a)
    (hb : good b) (hother : ∀ k, good k → k ≠ a → k ≠ b → s.excess k = 0) :
    (∃ r s', cleanPair reads (some (a, b)) s = .ok (r, s') ∧ ∀ k, good k → RefsExact s' k) ↔
      s.excess a = (if reads.cleanA = 0 then 1 else 0) ∧
        s.excess b = if reads.cleanB = 0 then 1 else 0 := by
  -- Each half touches the reference of its own handle only.
  have hafter : ∀ {s₁ s₂ : Descriptors},
      (∀ k, s₁.excess k = s.excess k - if k = a ∧ reads.cleanA = 0 then 1 else 0) →
      (∀ k, s₂.excess k = s₁.excess k - if k = b ∧ reads.cleanB = 0 then 1 else 0) →
      s₂.excess a = s.excess a - (if reads.cleanA = 0 then 1 else 0) ∧
        (s₂.excess b = s.excess b - if reads.cleanB = 0 then 1 else 0) ∧
        ∀ k, k ≠ a → k ≠ b → s₂.excess k = s.excess k := by
    intro s₁ s₂ hfirst hsecond
    refine ⟨?_, ?_, fun k hka hkb => ?_⟩
    · rw [hsecond a, hfirst a]
      simp [hne]
    · rw [hsecond b, hfirst b]
      simp [hne.symm]
    · rw [hsecond k, hfirst k]
      simp [hka, hkb]
  constructor
  · intro ⟨r, s', hrun, hexact⟩
    obtain ⟨_, s₁, hfirst, hrest⟩ := run_bind_eq_ok hrun
    obtain ⟨_, s₂, hsecond, hlast⟩ := run_bind_eq_ok hrest
    cases hlast
    obtain ⟨htidy₁, hexcess₁⟩ := clean_half_ok (a := a) hs.toTidy hfirst
    obtain ⟨htidy₂, hexcess₂⟩ := clean_half_ok (a := b) htidy₁ hsecond
    obtain ⟨hleftA, hleftB, -⟩ := hafter hexcess₁ hexcess₂
    have hexactA := (refs_exact_iff htidy₂ a).mp (hexact a ha)
    have hexactB := (refs_exact_iff htidy₂ b).mp (hexact b hb)
    rw [hleftA] at hexactA
    rw [hleftB] at hexactB
    exact ⟨Int.sub_eq_zero.mp hexactA, Int.sub_eq_zero.mp hexactB⟩
  · intro ⟨hexcessA, hexcessB⟩
    have hspare : ∀ h, some a = some h → reads.cleanA = 0 → 0 < s.excess h := by
      rintro h ⟨⟩ hclean
      rw [hexcessA, if_pos hclean]
      exact Int.zero_lt_one
    obtain ⟨s₁, hfirst, hs₁⟩ := clean_half_sound reads.cleanA reads.closeA hs hspare
    obtain ⟨-, hexcess₁⟩ := clean_half_ok hs.toTidy hfirst
    have hspare₁ : ∀ h, some b = some h → reads.cleanB = 0 → 0 < s₁.excess h := by
      rintro h ⟨⟩ hclean
      rw [hexcess₁, if_neg (fun h => hne h.1.symm), Int.sub_zero, hexcessB, if_pos hclean]
      exact Int.zero_lt_one
    obtain ⟨s₂, hsecond, hs₂⟩ := clean_half_sound reads.cleanB reads.closeB hs₁ hspare₁
    obtain ⟨-, hexcess₂⟩ := clean_half_ok hs₁.toTidy hsecond
    obtain ⟨hleftA, hleftB, hleft⟩ := hafter hexcess₁ hexcess₂
    refine ⟨false, s₂, (run_bind_of_ok hfirst).trans (run_bind_of_ok hsecond), fun k hk => ?_⟩
    rw [refs_exact_iff hs₂.toTidy]
    by_cases hka : k = a
    · rw [hka, hleftA, hexcessA, Int.sub_self]
    · by_cases hkb : k = b
      · rw [hkb, hleftB, hexcessB, Int.sub_self]
      · rw [hleft k hka hkb, hother k hk hka hkb]

/-- A new handle has no reference yet, and no descriptor is bound to it. -/
theorem new_handle_none (hs : s.Sound) (hnew : s.nextHandle ≤ a) :
    s.refs a = none ∧ s.bound a = 0 := by
  have hrefs : s.refs a = none := by
    by_contra hsome
    exact Nat.not_lt.mpr hnew (hs.handles a hsome)
  have hcovered := hs.covered a
  unfold Descriptors.excess at hcovered
  rw [hrefs, Option.getD_none] at hcovered
  exact ⟨hrefs, by omega⟩

theorem refs_exact_new (hs : s.Sound) (hnew : s.nextHandle ≤ a) : RefsExact s a := by
  obtain ⟨hrefs, hbound⟩ := new_handle_none hs hnew
  unfold RefsExact
  rw [hrefs, hbound, if_pos rfl]

/-- `make_channel` makes two handles with a reference to spare each. -/
theorem make_channel_spec (hs : s.Sound) : ∃ s', Descriptors.makeChannel true s =
    .ok (some (s.nextHandle, s.nextHandle + 1), s') ∧ s'.Sound ∧ s'.files = s.files ∧
      s'.excess s.nextHandle = 1 ∧ s'.excess (s.nextHandle + 1) = 1 ∧
      ∀ k, k ≠ s.nextHandle → k ≠ s.nextHandle + 1 → s'.excess k = s.excess k := by
  obtain ⟨s', hs'⟩ : ∃ s' : Descriptors, s' = { s with
      refs := Function.update (Function.update s.refs s.nextHandle (some 1))
        (s.nextHandle + 1) (some 1)
      nextHandle := s.nextHandle + 2 } := ⟨_, rfl⟩
  have hrefs : ∀ k, s'.refs k =
      if k = s.nextHandle ∨ k = s.nextHandle + 1 then some 1 else s.refs k := by
    intro k
    rw [hs']
    show Function.update (Function.update s.refs s.nextHandle (some 1)) _ (some 1) k = _
    by_cases hsecond : k = s.nextHandle + 1
    · rw [if_pos (.inr hsecond), hsecond, Function.update_self]
    · rw [Function.update_of_ne hsecond]
      by_cases hfirst : k = s.nextHandle
      · rw [if_pos (.inl hfirst), hfirst, Function.update_self]
      · rw [Function.update_of_ne hfirst, if_neg (not_or.mpr ⟨hfirst, hsecond⟩)]
  have hbound : ∀ k, s'.bound k = s.bound k := fun k => by
    rw [hs']
    rfl
  have hnew : ∀ k, k = s.nextHandle ∨ k = s.nextHandle + 1 → s'.excess k = 1 := by
    intro k hk
    have hle : s.nextHandle ≤ k := by
      rcases hk with hk | hk
      · exact Nat.le_of_eq hk.symm
      · rw [hk]
        exact Nat.le_succ _
    unfold Descriptors.excess
    rw [hrefs, hbound, if_pos hk, (new_handle_none hs hle).2]
    rfl
  have hold : ∀ k, ¬ (k = s.nextHandle ∨ k = s.nextHandle + 1) → s'.excess k = s.excess k := by
    intro k hk
    unfold Descriptors.excess
    rw [hrefs, hbound, if_neg hk]
  refine ⟨s', ?_, ⟨⟨fun k => ?_, ?_⟩, fun k => ?_, ?_, ?_, fun k hk => ?_⟩, ?_,
    hnew _ (.inl rfl), hnew _ (.inr rfl), fun k hfirst hsecond => ?_⟩
  · rw [hs']
    rfl
  · rw [hrefs]
    split
    · simp
    · exact hs.live k
  · rw [hs']
    exact hs.keys
  · by_cases hk : k = s.nextHandle ∨ k = s.nextHandle + 1
    · rw [hnew k hk]
      exact Int.one_nonneg
    · rw [hold k hk]
      exact hs.covered k
  · rw [hs']
    exact hs.fresh
  · rw [hs']
    exact hs.positive
  · have hlt : s'.nextHandle = s.nextHandle + 2 := by rw [hs']
    rw [hrefs] at hk
    rw [hlt]
    by_cases hknew : k = s.nextHandle ∨ k = s.nextHandle + 1
    · rcases hknew with rfl | rfl
      · exact Nat.lt_add_of_pos_right Nat.zero_lt_two
      · exact Nat.lt_succ_self _
    · rw [if_neg hknew] at hk
      exact Nat.lt_add_right 2 (hs.handles k hk)
  · rw [hs']
  · exact hold k (not_or.mpr ⟨hfirst, hsecond⟩)

/-- What another thread must not do to the pair while `make_channel_sc` runs: once a handle has
its descriptor, the first test and the clean-up find one there, and a slot that got none still
holds zero. -/
def PairKept (boundA boundB : Bool) (reads : FdPairReads) : Prop :=
  if reads.testA = 0 then (reads.cleanA = 0 ↔ boundA = false) ∧ reads.cleanB = 0
  else if reads.testB = 0 then
    (reads.cleanA = 0 ↔ boundA = false) ∧ (reads.cleanB = 0 ↔ boundB = false)
  else boundA = true ∧ boundB = true

/-- `make_channel_sc` comes back, and every handle whose references were exact, those that it
makes among them, has one reference for each descriptor. -/
def MakesChannelExactly (made addedA addedB : Bool) (reads : FdPairReads)
    (s : Descriptors) : Prop :=
  ∃ r s', makeChannelSc made addedA addedB reads s = .ok (r, s') ∧
    ∀ h, RefsExact s h → RefsExact s' h

/-- A spare reference after `proc_add_fd`, and the test that is to drop it. -/
theorem spare_eq_iff (flag : Bool) (x : Int) :
    (1 : Int) - (if flag = true then 1 else 0) = (if x = 0 then 1 else 0) ↔
      (x = 0 ↔ flag = false) := by
  by_cases hx : x = 0
  · cases flag <;> simp [hx]
  · cases flag <;> simp [hx]

theorem spare_eq_zero_iff (flag : Bool) :
    (1 : Int) - (if flag = true then 1 else 0) = 0 ↔ flag = true := by
  cases flag <;> simp

/-- Where no channel is made, there is nothing but descriptors to close. -/
theorem make_channel_sc_unmade (hs : s.Sound) (addedA addedB : Bool) (reads : FdPairReads) :
    MakesChannelExactly false addedA addedB reads s := by
  have hspare : ∀ {s : Descriptors} {clean : Int} (h : HandleId), none = some h → clean = 0 →
      0 < s.excess h := fun _ hnone => by cases hnone
  obtain ⟨s₁, hfirst, hs₁⟩ := clean_half_sound reads.cleanA reads.closeA hs hspare
  obtain ⟨s₂, hsecond, hs₂⟩ := clean_half_sound reads.cleanB reads.closeB hs₁ hspare
  have hclean : cleanPair reads none s = .ok (false, s₂) :=
    (run_bind_of_ok hfirst).trans (run_bind_of_ok hsecond)
  refine ⟨false, s₂, hclean, fun h hexact => ?_⟩
  rw [refs_exact_iff hs₂.toTidy, clean_half_none hs₁.toTidy hsecond,
    clean_half_none hs.toTidy hfirst]
  exact (refs_exact_iff hs.toTidy h).mp hexact

/-- For all values that the reads of the pair give: the references stay exact just when the pair
was not changed in a way that matters. -/
theorem make_channel_sc_iff (hs : s.Sound) (made addedA addedB : Bool) (reads : FdPairReads) :
    MakesChannelExactly made addedA addedB reads s ↔
      (made = true → PairKept (s.files.isSome && addedA) (s.files.isSome && addedB) reads) := by
  cases made with
  | false => exact ⟨fun _ hmade => (by cases hmade), fun _ => make_channel_sc_unmade hs _ _ _⟩
  | true =>
      obtain ⟨s₁, hmake, hs₁, hfiles₁, hexcessA, hexcessB, hother₁⟩ := make_channel_spec hs
      have hne : s.nextHandle ≠ s.nextHandle + 1 := (Nat.succ_ne_self _).symm
      have hgoodA : RefsExact s s.nextHandle := refs_exact_new hs (Nat.le_refl _)
      have hgoodB : RefsExact s (s.nextHandle + 1) := refs_exact_new hs (Nat.le_succ _)
      obtain ⟨fdA, s₂, haddA, hs₂, hfiles₂, hexcess₂⟩ :=
        proc_add_fd_spec hs₁ (by rw [hexcessA]; exact Int.zero_lt_one) addedA
      rw [hfiles₁] at hfiles₂ hexcess₂
      have hA₂ : s₂.excess s.nextHandle =
          1 - if (s.files.isSome && addedA) = true then 1 else 0 := by
        rw [hexcess₂, hexcessA]
        simp only [true_and]
      have hB₂ : s₂.excess (s.nextHandle + 1) = 1 := by
        rw [hexcess₂, if_neg (fun h => hne h.1.symm), Int.sub_zero, hexcessB]
      have hother₂ : ∀ k, RefsExact s k → k ≠ s.nextHandle → k ≠ s.nextHandle + 1 →
          s₂.excess k = 0 := by
        intro k hk hka hkb
        rw [hexcess₂, if_neg (fun h => hka h.1), Int.sub_zero, hother₁ k hka hkb]
        exact (refs_exact_iff hs.toTidy k).mp hk
      have hrun₂ : makeChannelSc true addedA addedB reads s =
          (if reads.testA = 0 then cleanPair reads (some (s.nextHandle, s.nextHandle + 1))
          else do
            let _ ← procAddFd addedB (s.nextHandle + 1)
            if reads.testB = 0 then cleanPair reads (some (s.nextHandle, s.nextHandle + 1))
            else return true) s₂ :=
        (run_bind_of_ok hmake).trans (run_bind_of_ok haddA)
      unfold MakesChannelExactly PairKept
      rw [hrun₂]
      simp only [true_implies]
      by_cases htestA : reads.testA = 0
      · rw [if_pos htestA, if_pos htestA, clean_pair_iff hs₂ hne hgoodA hgoodB hother₂, hA₂, hB₂,
          spare_eq_iff]
        by_cases hcleanB : reads.cleanB = 0 <;> simp [hcleanB]
      · obtain ⟨fdB, s₃, haddB, hs₃, hfiles₃, hexcess₃⟩ :=
          proc_add_fd_spec hs₂ (by rw [hB₂]; exact Int.zero_lt_one) addedB
        rw [hfiles₂] at hexcess₃
        have hA₃ : s₃.excess s.nextHandle =
            1 - if (s.files.isSome && addedA) = true then 1 else 0 := by
          rw [hexcess₃, if_neg (fun h => hne h.1), Int.sub_zero, hA₂]
        have hB₃ : s₃.excess (s.nextHandle + 1) =
            1 - if (s.files.isSome && addedB) = true then 1 else 0 := by
          rw [hexcess₃, hB₂]
          simp only [true_and]
        have hother₃ : ∀ k, RefsExact s k → k ≠ s.nextHandle → k ≠ s.nextHandle + 1 →
            s₃.excess k = 0 := by
          intro k hk hka hkb
          rw [hexcess₃, if_neg (fun h => hkb h.1), Int.sub_zero, hother₂ k hk hka hkb]
        rw [if_neg htestA, if_neg htestA, run_bind_of_ok haddB]
        by_cases htestB : reads.testB = 0
        · rw [if_pos htestB, if_pos htestB, clean_pair_iff hs₃ hne hgoodA hgoodB hother₃, hA₃, hB₃,
            spare_eq_iff, spare_eq_iff]
        · rw [if_neg htestB, if_neg htestB]
          constructor
          · intro ⟨r, s', hrun, hexact⟩
            cases hrun
            have hexactA := (refs_exact_iff hs₃.toTidy _).mp (hexact _ hgoodA)
            have hexactB := (refs_exact_iff hs₃.toTidy _).mp (hexact _ hgoodB)
            rw [hA₃, spare_eq_zero_iff] at hexactA
            rw [hB₃, spare_eq_zero_iff] at hexactB
            exact ⟨hexactA, hexactB⟩
          · intro ⟨hboundA, hboundB⟩
            refine ⟨true, s₃, rfl, fun k hk => (refs_exact_iff hs₃.toTidy k).mpr ?_⟩
            by_cases hka : k = s.nextHandle
            · rw [hka, hA₃, spare_eq_zero_iff]
              exact hboundA
            · by_cases hkb : k = s.nextHandle + 1
              · rw [hkb, hB₃, spare_eq_zero_iff]
                exact hboundB
              · exact hother₃ k hk hka hkb

end MakeChannel

end Kogata.Kernel
