import Kogata.Kernel.IsoScan
import Mathlib.Data.Fintype.Card

/-!
# What the directory scans touch

A scan of an ISO 9660 directory may touch the bytes of the record buffer that the last read has
filled. `dir_parses_safely_iff` says for which directories neither scan touches another byte,
whatever it looks for, and both end: each record that they come to has to be there up to the end of
its name.
-/

namespace Kogata.Kernel

open Lib.Word

/-- A scan may touch the bytes that a read has filled, and no others. -/
def IsoDir.filledOnly (dir : IsoDir) (gives : Nat → Bool) : IsoReads where
  gives := gives
  fill := fun _ pos rs => { bytes := dir.record pos, limit := rs.toNat }

/-- The position of a turn, as long as a scan finds nothing before. -/
def IsoDir.posAt (dir : IsoDir) : Nat → Option UInt32
  | 0 => some 0
  | n + 1 => (dir.posAt n).bind fun pos =>
      if dir.IsRecord pos then some (pos + recordLen (dir.record pos)) else none

/-- The name of a record, without anything cut off. -/
def ownName (lower : Bool) (dr : RecordBytes) : Name :=
  (List.range (dr 32).toNat).map fun i => nameByte lower dr (UInt32.ofNat i)

/-- A directory of which the name ends where the read ends, so that a comparison with it goes one
byte too far. -/
def IsoDir.FillsBuffer (dir : IsoDir) (pos : UInt32) : Prop :=
  33 + (dir.record pos 32).toNat = (dir.readLen pos).toNat ∧
    IsCString (ownName dir.lower (dir.record pos)) ∧
    entryMatches dir.lower (dir.record pos) (ownName dir.lower (dir.record pos)) = true

/-- Each record is there up to the end of its name. -/
def IsoDir.AllFit (dir : IsoDir) : Prop :=
  ∀ n pos, dir.posAt n = some pos → dir.IsRecord pos →
    RecordFits dir.lower (dir.record pos) (dir.readLen pos).toNat

/-- The records lead to an end, and each is there up to the end of its name. -/
structure Parsable (dir : IsoDir) : Prop where
  ends : ∃ n, dir.posAt n = none
  fits : ∀ n pos, dir.posAt n = some pos → dir.IsRecord pos →
    RecordFits dir.lower (dir.record pos) (dir.readLen pos).toNat
  wraps : ∀ n pos, dir.posAt n = some pos → dir.IsRecord pos → LengthWraps (dir.record pos) →
    160 ≤ (dir.readLen pos).toNat
  fills : ∀ n pos, dir.posAt n = some pos → dir.IsRecord pos → dir.FillsBuffer pos →
    ∃ m < n, ∃ pos', dir.posAt m = some pos' ∧ dir.IsRecord pos' ∧
      entryMatches dir.lower (dir.record pos') (ownName dir.lower (dir.record pos)) = true

/-- Both scans come back without having touched another byte, for whatever they look and whichever
reads and allocations fail. -/
def ParsesSafely (dir : IsoDir) : Prop :=
  (∀ searchFor, IsCString searchFor → ∀ gives malloc newVfsPager, ∃ fuel node,
    iso9660DirWalk dir (dir.filledOnly gives) malloc newVfsPager searchFor fuel = .ok node) ∧
  ∀ entNo gives, ∃ fuel dirent,
    iso9660DirReaddir dir (dir.filledOnly gives) entNo fuel = .ok dirent

section Loops

variable {dir : IsoDir} {reads : IsoReads} {gives : Nat → Bool} {n fuel : Nat} {pos : UInt32}

theorem filled_only_faithful : (dir.filledOnly gives).Faithful dir :=
  ⟨fun _ _ _ _ => rfl, fun _ _ _ => Nat.le_refl _⟩

theorem fill_filled_only (gives : Nat → Bool) (n : Nat) (pos : UInt32) :
    (dir.filledOnly gives).fill n pos (dir.readLen pos) =
      { bytes := dir.record pos, limit := (dir.readLen pos).toNat } := rfl

theorem pos_at_succ {pos' : UInt32} : dir.posAt (n + 1) = some pos' ↔ ∃ pos,
    dir.posAt n = some pos ∧ dir.IsRecord pos ∧ pos + recordLen (dir.record pos) = pos' := by
  rw [IsoDir.posAt, Option.bind_eq_some_iff]
  refine exists_congr fun pos => and_congr_right fun _ => ?_
  split
  · next h => simp [h]
  · next h => simp [h]

section Body

variable {σ ρ : Type} {body : σ → RecordBuffer → UInt32 → Except Halt (σ ⊕ ρ)} {state : σ}

theorem loop_of_done {result : Option ρ}
    (h : dir.turn reads body n pos state = .ok (.done result)) :
    dir.loop reads body (fuel + 1) n pos state = .ok result := by
  rw [IsoDir.loop, h]
  rfl

theorem loop_of_next {pos' : UInt32} {state' : σ}
    (h : dir.turn reads body n pos state = .ok (.next pos' state')) :
    dir.loop reads body (fuel + 1) n pos state =
      dir.loop reads body fuel (n + 1) pos' state' := by
  rw [IsoDir.loop, h]
  rfl

/-- A loop that comes back has taken its first turn. -/
theorem loop_ok {result : Option ρ} (h : dir.loop reads body fuel n pos state = .ok result) :
    ∃ rest turn, fuel = rest + 1 ∧ dir.turn reads body n pos state = .ok turn ∧
      ∀ pos' state', turn = .next pos' state' →
        dir.loop reads body rest (n + 1) pos' state' = .ok result := by
  cases fuel with
  | zero => cases h
  | succ rest =>
      cases hturn : dir.turn reads body n pos state with
      | error halt =>
          rw [IsoDir.loop, hturn] at h
          cases h
      | ok turn =>
          refine ⟨rest, turn, rfl, rfl, fun pos' state' hnext => ?_⟩
          rw [hnext] at hturn
          rwa [loop_of_next hturn] at h

/-- A loop comes back when each turn leads on to the next record, as long as an invariant holds. -/
theorem loop_ends {motive : Nat → UInt32 → σ → Prop} (hends : ∃ n, dir.posAt n = none)
    (hstep : ∀ n pos state, dir.posAt n = some pos → motive n pos state →
      (∃ result, dir.turn reads body n pos state = .ok (.done result)) ∨
        ∃ pos' state', dir.turn reads body n pos state = .ok (.next pos' state') ∧
          dir.posAt (n + 1) = some pos' ∧ motive (n + 1) pos' state')
    (hinit : motive 0 0 state) :
    ∃ fuel result, dir.loop reads body fuel 0 0 state = .ok result := by
  obtain ⟨last, hlast⟩ := hends
  have hrest : ∀ left n pos state, n + left = last → dir.posAt n = some pos → motive n pos state →
      ∃ fuel result, dir.loop reads body fuel n pos state = .ok result := by
    intro left
    induction left with
    | zero =>
        intro n pos state hn hpos _
        rw [show n = last by omega, hlast] at hpos
        cases hpos
    | succ left ih =>
        intro n pos state hn hpos hmotive
        rcases hstep n pos state hpos hmotive with ⟨result, hturn⟩ | ⟨pos', state', hturn, hpos', h⟩
        · exact ⟨1, result, loop_of_done hturn⟩
        · obtain ⟨fuel, result, hloop⟩ := ih (n + 1) pos' state' (by omega) hpos' h
          exact ⟨fuel + 1, result, (loop_of_next hturn).trans hloop⟩
  exact hrest last 0 0 state (by omega) rfl hinit

end Body

/-- A turn on a record that may not be touched up to the end of its name. -/
theorem turn_not_fits {σ ρ : Type} {body : σ → RecordBuffer → UInt32 → Except Halt (σ ⊕ ρ)}
    {state : σ} (hrecord : dir.IsRecord pos) (hgives : gives n = true)
    (hfits : ¬ RecordFits dir.lower (dir.record pos) (dir.readLen pos).toNat) :
    dir.turn (dir.filledOnly gives) body n pos state = .error .wild := by
  rw [turn_record filled_only_faithful hrecord hgives rfl]
  exact if_neg hfits

/-- The name that is looked for is that of the record, when it ends where the read ends. -/
theorem own_name_of_match {searchFor : Name} (hlimit : 34 ≤ (dir.readLen pos).toNat)
    (hsearch : IsCString searchFor)
    (hfits : RecordFits dir.lower (dir.record pos) (dir.readLen pos).toNat)
    (hmatch : entryMatches dir.lower (dir.record pos) searchFor = true)
    (hbehind : ¬ 33 + searchFor.length < (dir.readLen pos).toNat) :
    searchFor = ownName dir.lower (dir.record pos) ∧ dir.FillsBuffer pos := by
  have hsmall := hsearch.2
  unfold entryMatches at hmatch
  cases hlen : entryLen dir.lower (dir.record pos) with
  | none =>
      rw [hlen] at hmatch
      cases hmatch
  | some len =>
      rw [hlen] at hmatch
      simp only [Bool.and_eq_true, beq_iff_eq, List.all_eq_true, List.mem_range] at hmatch
      obtain ⟨hlength, hbytes⟩ := hmatch
      have hwhole : 33 + (dir.record pos 32).toNat = (dir.readLen pos).toNat ∧
          searchFor.length = (dir.record pos 32).toNat := by
        cases hdir : recordIsDir (dir.record pos) with
        | true =>
            have hle := entry_len_dir hdir hlen
            have hin := (name_fits_dir hdir).mp hfits.2
            omega
        | false =>
            have hin := (name_fits_file hdir).mp hfits.2
            rcases entry_len_file hdir hlen with hle | hwraps
            · omega
            · omega
      have hown : searchFor = ownName dir.lower (dir.record pos) := by
        refine List.ext_getElem (by simp [ownName, hwhole.2]) fun i hi _ => ?_
        simp only [ownName, List.getElem_map, List.getElem_range]
        rw [hbytes i hi, List.getD_eq_getElem?_getD, List.getElem?_eq_getElem hi,
          Option.getD_some]
      refine ⟨hown, hwhole.1, hown ▸ hsearch, ?_⟩
      rw [← hown, entryMatches, hlen]
      simp only [hlength, beq_self_eq_true, Bool.true_and, List.all_eq_true, List.mem_range,
        beq_iff_eq]
      exact hbytes

/-- Where the records can be parsed the walk comes back. -/
theorem walk_ends {searchFor : Name} (h : Parsable dir) (hsearch : IsCString searchFor) :
    ∃ fuel result, dir.loop (dir.filledOnly gives) (walkBody searchFor) fuel 0 0 () =
      .ok result := by
  refine loop_ends (motive := fun n _ _ => ∀ m < n, ∀ pos', dir.posAt m = some pos' →
    dir.IsRecord pos' → entryMatches dir.lower (dir.record pos') searchFor = false) h.ends
    (fun n pos state hpos hbefore => ?_) nofun
  by_cases hstop : ¬ dir.IsRecord pos ∨ gives n = false
  · exact .inl ⟨none, turn_stop filled_only_faithful hstop⟩
  · obtain ⟨hrecord, hgives⟩ := not_or.mp hstop
    rw [not_not] at hrecord
    rw [Bool.not_eq_false] at hgives
    have hfits := h.fits n pos hpos hrecord
    have hturn := walk_turn filled_only_faithful hrecord hgives (fill_filled_only gives n pos)
      hsearch hrecord.limit hfits
    by_cases hmatch : entryMatches dir.lower (dir.record pos) searchFor = true
    · rw [if_pos hmatch] at hturn
      by_cases hbehind : 33 + searchFor.length < (dir.readLen pos).toNat
      · rw [if_pos hbehind] at hturn
        exact .inl ⟨_, hturn⟩
      · -- An earlier record of that name would have been found.
        obtain ⟨hown, hfills⟩ :=
          own_name_of_match hrecord.limit hsearch hfits hmatch hbehind
        obtain ⟨m, hm, pos', hpos', hrecord', hmatch'⟩ := h.fills n pos hpos hrecord hfills
        rw [← hown, hbefore m hm pos' hpos' hrecord'] at hmatch'
        cases hmatch'
    · rw [if_neg hmatch] at hturn
      refine .inr ⟨_, (), hturn, pos_at_succ.mpr ⟨pos, hpos, hrecord, rfl⟩, fun m hm => ?_⟩
      rcases Nat.lt_succ_iff_lt_or_eq.mp hm with hm | rfl
      · exact hbefore m hm
      · intro pos' hpos' _
        obtain rfl := Option.some.inj (hpos.symm.trans hpos')
        simpa using hmatch

/-- Where the records can be parsed the listing comes back. -/
theorem readdir_ends {entNo : UInt32} (h : Parsable dir) :
    ∃ fuel result, dir.loop (dir.filledOnly gives) (readdirBody entNo) fuel 0 0 0 =
      .ok result := by
  refine loop_ends (motive := fun _ _ _ => True) h.ends (fun n pos idx hpos _ => ?_) trivial
  by_cases hstop : ¬ dir.IsRecord pos ∨ gives n = false
  · exact .inl ⟨none, turn_stop filled_only_faithful hstop⟩
  · obtain ⟨hrecord, hgives⟩ := not_or.mp hstop
    rw [not_not] at hrecord
    rw [Bool.not_eq_false] at hgives
    have hfits := h.fits n pos hpos hrecord
    have hturn := readdir_turn entNo idx filled_only_faithful hrecord hgives
      (fill_filled_only gives n pos) hrecord.limit hfits
    have hnext : dir.posAt (n + 1) = some (pos + recordLen (dir.record pos)) :=
      pos_at_succ.mpr ⟨pos, hpos, hrecord, rfl⟩
    cases hlen : entryLen dir.lower (dir.record pos) with
    | none =>
        rw [hlen] at hturn
        exact .inr ⟨_, idx, hturn, hnext, trivial⟩
    | some len =>
        rw [hlen] at hturn
        dsimp only at hturn
        by_cases hidx : idx - 2 = entNo
        · have hroom : 33 + min len.toNat (dirMax - 1) ≤ (dir.readLen pos).toNat := by
            change 33 + min len.toNat 127 ≤ _
            rcases entry_len_fits hfits hrecord.limit hlen with hin | hwraps
            · omega
            · have hlong := h.wraps n pos hpos hrecord hwraps.1
              omega
          rw [if_pos hidx, if_pos hroom] at hturn
          exact .inl ⟨_, hturn⟩
        · rw [if_neg hidx] at hturn
          exact .inr ⟨_, idx + 1, hturn, hnext, trivial⟩

/-- A position is on record when the turns before it are. -/
theorem pos_at_earlier {m : Nat} (h : dir.posAt n = some pos) (hm : m < n) :
    ∃ pos', dir.posAt m = some pos' ∧ dir.IsRecord pos' := by
  induction n generalizing pos with
  | zero => cases hm
  | succ n ih =>
      obtain ⟨before, hbefore, hrecord, -⟩ := pos_at_succ.mp h
      rcases Nat.lt_succ_iff_lt_or_eq.mp hm with hm | rfl
      · exact ih hbefore hm
      · exact ⟨before, hbefore, hrecord⟩

/-- The walk comes to a record when it finds none before. -/
theorem walk_comes_to {searchFor : Name} (hsearch : IsCString searchFor)
    {result : Option RecordNode}
    (hloop : dir.loop (dir.filledOnly fun _ => true) (walkBody searchFor) fuel 0 0 () =
      .ok result)
    (hpos : dir.posAt n = some pos)
    (hbefore : ∀ m < n, ∀ pos', dir.posAt m = some pos' →
      entryMatches dir.lower (dir.record pos') searchFor = false) :
    ∃ rest, fuel = rest + n ∧
      dir.loop (dir.filledOnly fun _ => true) (walkBody searchFor) rest n pos () = .ok result := by
  induction n generalizing pos with
  | zero =>
      obtain rfl := Option.some.inj hpos
      exact ⟨fuel, rfl, hloop⟩
  | succ n ih =>
      obtain ⟨before, hprev, hrecord, rfl⟩ := pos_at_succ.mp hpos
      obtain ⟨rest, hfuel, hloop⟩ := ih hprev fun m hm => hbefore m (by omega)
      obtain ⟨rest', turn, rfl, hturn, hnext⟩ := loop_ok hloop
      refine ⟨rest', by omega, hnext _ () ?_⟩
      by_cases hfits : RecordFits dir.lower (dir.record before) (dir.readLen before).toNat
      · rw [walk_turn filled_only_faithful hrecord rfl (fill_filled_only _ n before) hsearch
          hrecord.limit hfits, hbefore n (Nat.lt_succ_self n) before hprev] at hturn
        exact (Except.ok.inj hturn).symm
      · rw [turn_not_fits hrecord rfl hfits] at hturn
        cases hturn

/-- A name that no record has. -/
def tooLong : Name :=
  List.replicate 256 1

theorem too_long_spec : IsCString tooLong ∧
    ∀ lower dr, entryMatches lower dr tooLong = false := by
  refine ⟨⟨fun c hc => ?_, ?_⟩, fun lower dr => ?_⟩
  · rw [List.eq_of_mem_replicate hc]
    decide
  · rw [tooLong, List.length_replicate]
    decide
  · have hbyte := (dr 32).toNat_lt
    unfold entryMatches
    cases hlen : entryLen lower dr with
    | none => rfl
    | some len =>
        have hne : len.toNat ≠ tooLong.length := by
          rw [tooLong, List.length_replicate]
          cases hdir : recordIsDir dr with
          | true =>
              have hle := entry_len_dir hdir hlen
              omega
          | false =>
              rcases entry_len_file hdir hlen with hle | hwraps
              · omega
              · omega
        have hno : (len.toNat == tooLong.length) = false := beq_eq_false_iff_ne.mpr hne
        simp only [hno, Bool.false_and]

/-- The walk comes to every record, and then to an end, when it finds none. -/
theorem ends_of_loop {result : Option RecordNode}
    (hloop : dir.loop (dir.filledOnly fun _ => true) (walkBody tooLong) fuel 0 0 () =
      .ok result) : ∃ n, dir.posAt n = none := by
  by_contra hnever
  have hall : ∃ pos, dir.posAt fuel = some pos :=
    Option.ne_none_iff_exists'.mp fun hnone => hnever ⟨fuel, hnone⟩
  obtain ⟨pos, hpos⟩ := hall
  obtain ⟨rest, hfuel, hrest⟩ := walk_comes_to too_long_spec.1 hloop hpos
    fun _ _ _ _ => too_long_spec.2 _ _
  obtain rfl : rest = 0 := by omega
  cases hrest

/-- The chain of records comes to no position twice, if it ends. -/
theorem pos_at_injective (hends : ∃ n, dir.posAt n = none) {m : Nat} (hm : m < n)
    (h : dir.posAt n = some pos) : dir.posAt m ≠ some pos := by
  intro hsame
  -- From the two places on the chain goes on alike, and so it comes back again and again.
  have halike : ∀ k, dir.posAt (m + k) = dir.posAt (n + k) := by
    intro k
    induction k with
    | zero => exact hsame.trans h.symm
    | succ k ih => rw [← Nat.add_assoc, ← Nat.add_assoc, IsoDir.posAt, IsoDir.posAt, ih]
  have hagain : ∀ k, dir.posAt (m + k * (n - m)) = some pos := by
    intro k
    induction k with
    | zero => rwa [Nat.zero_mul]
    | succ k ih =>
        have hback := halike (k * (n - m))
        rw [Nat.succ_mul, ← ih, hback]
        exact congrArg dir.posAt (by omega)
  obtain ⟨last, hlast⟩ := hends
  have hlate : ∃ pos', dir.posAt last = some pos' := by
    rcases Nat.lt_or_ge last (m + last * (n - m)) with hlt | hge
    · exact (pos_at_earlier (hagain last) hlt).imp fun _ => And.left
    · have hle : last ≤ last * (n - m) := Nat.le_mul_of_pos_right _ (by omega)
      have heq : last = m + last * (n - m) := by omega
      exact ⟨pos, (congrArg dir.posAt heq).trans (hagain last)⟩
  rw [hlast] at hlate
  obtain ⟨_, hnone⟩ := hlate
  cases hnone

/-- So it has fewer than `2 ^ 32` records. -/
theorem pos_at_lt (hends : ∃ n, dir.posAt n = none) (h : dir.posAt n = some pos) : n < 2 ^ 32 := by
  have hthere : ∀ k : Fin (n + 1), ∃ pos', dir.posAt k = some pos' := by
    intro k
    rcases Nat.lt_succ_iff_lt_or_eq.mp k.isLt with hlt | heq
    · exact (pos_at_earlier h hlt).imp fun _ => And.left
    · exact ⟨pos, by rw [heq]; exact h⟩
  choose place hplace using hthere
  have hinjective : Function.Injective fun k => (place k).toFin := by
    intro i j hij
    have hsame : place i = place j := UInt32.toFin_inj.mp hij
    rcases Nat.lt_trichotomy i.val j.val with hlt | heq | hgt
    · exact absurd (hsame ▸ hplace i) (pos_at_injective hends hlt (hplace j))
    · exact Fin.ext heq
    · exact absurd (hsame ▸ hplace j) (pos_at_injective hends hgt (hplace i))
  have hcard := Fintype.card_le_of_injective _ hinjective
  rw [Fintype.card_fin, Fintype.card_fin] at hcard
  exact hcard

/-- How many names the turns before have given. -/
def IsoDir.named (dir : IsoDir) (n : Nat) : Nat :=
  ((List.range n).filter fun m => ((dir.posAt m).bind fun pos =>
    entryLen dir.lower (dir.record pos)).isSome).length

theorem named_succ (dir : IsoDir) (n : Nat) :
    dir.named (n + 1) = dir.named n + if ((dir.posAt n).bind fun pos =>
      entryLen dir.lower (dir.record pos)).isSome then 1 else 0 := by
  rw [IsoDir.named, List.range_succ, List.filter_append, List.length_append, ← IsoDir.named]
  split
  · next h => simp [h]
  · next h => simp [h]

theorem named_le (dir : IsoDir) {m : Nat} (h : m ≤ n) : dir.named m ≤ dir.named n := by
  induction h with
  | refl => exact Nat.le_refl _
  | step h ih =>
      rw [named_succ]
      omega

theorem named_le_self (dir : IsoDir) (n : Nat) : dir.named n ≤ n := by
  rw [IsoDir.named]
  exact Nat.le_trans (List.length_filter_le _ _) (Nat.le_of_eq List.length_range)

/-- The listing comes to a record when that has the number that it looks for. -/
theorem readdir_comes_to {result : Option Dirent} {last : Nat} (hsmall : dir.named last < 2 ^ 32)
    (hfits : dir.AllFit)
    (hloop : dir.loop (dir.filledOnly fun _ => true)
      (readdirBody (UInt32.ofNat (dir.named last) - 2)) fuel 0 0 0 = .ok result)
    (hn : n ≤ last) (hpos : dir.posAt n = some pos) :
    ∃ rest, dir.loop (dir.filledOnly fun _ => true)
      (readdirBody (UInt32.ofNat (dir.named last) - 2)) rest n pos (UInt32.ofNat (dir.named n)) =
        .ok result := by
  induction n generalizing pos with
  | zero =>
      obtain rfl := Option.some.inj hpos
      exact ⟨fuel, hloop⟩
  | succ n ih =>
      obtain ⟨before, hprev, hrecord, rfl⟩ := pos_at_succ.mp hpos
      obtain ⟨rest, hrest⟩ := ih (by omega) hprev
      obtain ⟨rest', turn, -, hturn, hnext⟩ := loop_ok hrest
      refine ⟨rest', hnext _ _ ?_⟩
      rw [readdir_turn _ _ filled_only_faithful hrecord rfl (fill_filled_only _ n before)
        hrecord.limit (hfits n before hprev hrecord)] at hturn
      have hcount := named_succ dir n
      rw [hprev, Option.bind_some] at hcount
      cases hlen : entryLen dir.lower (dir.record before) with
      | none =>
          simp only [hlen] at hturn hcount
          rw [hcount]
          exact (Except.ok.inj hturn).symm
      | some len =>
          simp only [hlen, Option.isSome_some, if_true] at hturn hcount
          have hle := named_le dir hn
          have hne : ¬ UInt32.ofNat (dir.named n) - 2 = UInt32.ofNat (dir.named last) - 2 := by
            intro heq
            have hsame := congrArg UInt32.toNat heq
            rw [UInt32.toNat_sub, UInt32.toNat_sub, UInt32.toNat_ofNat',
              UInt32.toNat_ofNat'] at hsame
            change (2 ^ 32 - 2 + _) % 2 ^ 32 = (2 ^ 32 - 2 + _) % 2 ^ 32 at hsame
            omega
          rw [if_neg hne] at hturn
          rw [hcount, UInt32.ofNat_add]
          exact (Except.ok.inj hturn).symm

/-- The walk comes back when its loop does. -/
theorem walk_comes_back {searchFor : Name} {malloc newVfsPager : Bool} :
    (∃ node, iso9660DirWalk dir reads malloc newVfsPager searchFor fuel = .ok node) ↔
      ∃ result, dir.loop reads (walkBody searchFor) fuel 0 0 () = .ok result := by
  rw [iso9660DirWalk]
  cases dir.loop reads (walkBody searchFor) fuel 0 0 () with
  | error halt => exact ⟨nofun, nofun⟩
  | ok result =>
      refine iff_of_true ?_ ⟨result, rfl⟩
      cases result with
      | none => exact ⟨none, rfl⟩
      | some node => exact ⟨_, rfl⟩

/-- A record that the scans come to without harm is there up to the end of its name. -/
theorem fits_of_loop {result : Option RecordNode}
    (hloop : dir.loop (dir.filledOnly fun _ => true) (walkBody tooLong) fuel 0 0 () =
      .ok result) (hpos : dir.posAt n = some pos) (hrecord : dir.IsRecord pos) :
    RecordFits dir.lower (dir.record pos) (dir.readLen pos).toNat := by
  obtain ⟨rest, -, hrest⟩ := walk_comes_to too_long_spec.1 hloop hpos
    fun _ _ _ _ => too_long_spec.2 _ _
  obtain ⟨-, turn, -, hturn, -⟩ := loop_ok hrest
  by_contra hfits
  rw [turn_not_fits hrecord rfl hfits] at hturn
  cases hturn

/-- A file without a name of which the length wraps is there for as long as a name may be. -/
theorem wraps_of_loop (hends : ∃ n, dir.posAt n = none)
    (hfits : dir.AllFit)
    {result : Option Dirent} (hloop : dir.loop (dir.filledOnly fun _ => true)
      (readdirBody (UInt32.ofNat (dir.named n) - 2)) fuel 0 0 0 = .ok result)
    (hpos : dir.posAt n = some pos) (hrecord : dir.IsRecord pos)
    (hwraps : LengthWraps (dir.record pos)) : 160 ≤ (dir.readLen pos).toNat := by
  have hsmall := Nat.lt_of_le_of_lt (named_le_self dir n) (pos_at_lt hends hpos)
  obtain ⟨rest, hrest⟩ := readdir_comes_to hsmall hfits hloop (Nat.le_refl n) hpos
  obtain ⟨-, turn, -, hturn, -⟩ := loop_ok hrest
  rw [readdir_turn _ _ filled_only_faithful hrecord rfl (fill_filled_only _ n pos)
    hrecord.limit (hfits n pos hpos hrecord)] at hturn
  obtain ⟨len, hlen, hlong⟩ := entry_len_wraps dir.lower hwraps
  have hmin : min len.toNat (dirMax - 1) = 127 := Nat.min_eq_right (by
    show 127 ≤ _
    omega)
  rw [hlen] at hturn
  simp only [if_true, hmin] at hturn
  by_contra hshort
  rw [if_neg (by omega)] at hturn
  cases hturn

/-- A directory of which the name ends where the read ends comes after one of the same name. -/
theorem fills_of_loop (hfits : dir.AllFit)
    {result : Option RecordNode} (hloop : dir.loop (dir.filledOnly fun _ => true)
      (walkBody (ownName dir.lower (dir.record pos))) fuel 0 0 () = .ok result)
    (hpos : dir.posAt n = some pos) (hrecord : dir.IsRecord pos) (hfills : dir.FillsBuffer pos) :
    ∃ m < n, ∃ pos', dir.posAt m = some pos' ∧ dir.IsRecord pos' ∧
      entryMatches dir.lower (dir.record pos') (ownName dir.lower (dir.record pos)) = true := by
  obtain ⟨hwhole, hstring, hmatch⟩ := hfills
  by_contra hnone
  have hbefore : ∀ m < n, ∀ pos', dir.posAt m = some pos' →
      entryMatches dir.lower (dir.record pos') (ownName dir.lower (dir.record pos)) = false := by
    intro m hm pos' hpos'
    obtain ⟨there, hthere, hrecord'⟩ := pos_at_earlier hpos hm
    obtain rfl := Option.some.inj (hthere.symm.trans hpos')
    rw [Bool.eq_false_iff]
    exact fun h => hnone ⟨m, hm, there, hthere, hrecord', h⟩
  obtain ⟨rest, -, hrest⟩ := walk_comes_to hstring hloop hpos hbefore
  obtain ⟨-, turn, -, hturn, -⟩ := loop_ok hrest
  have hlength : (ownName dir.lower (dir.record pos)).length = (dir.record pos 32).toNat := by
    rw [ownName, List.length_map, List.length_range]
  rw [walk_turn filled_only_faithful hrecord rfl (fill_filled_only _ n pos) hstring
    hrecord.limit (hfits n pos hpos hrecord), if_pos hmatch, if_neg ?_] at hturn
  · cases hturn
  · rw [hlength, hwhole]
    exact Nat.lt_irrefl _

end Loops

/-- The two scans of a directory touch no other byte than those that a read has filled, and both
end, just when the directory can be parsed. -/
theorem dir_parses_safely_iff (dir : IsoDir) : ParsesSafely dir ↔ Parsable dir := by
  constructor
  · rintro ⟨hwalk, hreaddir⟩
    have hloop : ∀ searchFor, IsCString searchFor → ∃ fuel result,
        dir.loop (dir.filledOnly fun _ => true) (walkBody searchFor) fuel 0 0 () = .ok result :=
      fun searchFor hsearch => (hwalk searchFor hsearch (fun _ => true) true true).imp
        fun fuel => walk_comes_back.mp
    obtain ⟨fuel, result, htooLong⟩ := hloop tooLong too_long_spec.1
    have hends := ends_of_loop htooLong
    have hfits : dir.AllFit := fun n pos => fits_of_loop htooLong
    refine ⟨hends, hfits, fun n pos hpos hrecord hwraps => ?_, fun n pos hpos hrecord hfills => ?_⟩
    · obtain ⟨fuel, dirent, hlist⟩ := hreaddir (UInt32.ofNat (dir.named n) - 2) fun _ => true
      exact wraps_of_loop hends hfits hlist hpos hrecord hwraps
    · obtain ⟨fuel, result, hown⟩ := hloop _ hfills.2.1
      exact fills_of_loop hfits hown hpos hrecord hfills
  · intro h
    refine ⟨fun searchFor hsearch gives malloc newVfsPager => ?_, fun entNo gives => readdir_ends h⟩
    exact (walk_ends h hsearch).imp fun fuel => walk_comes_back.mpr

section Examples

/-- A directory of one record, which says that its name is longer than the record. -/
def longName : IsoDir where
  disc := fun i => if i = 0 then 34 else if i = 32 then 255 else 0
  extent := { lba := 0, size := 34 }
  lower := false

/-- The scans look for the end of the name behind the buffer. -/
theorem long_name_unsafe : ¬ ParsesSafely longName := by
  intro h
  obtain ⟨fuel, dirent, hlist⟩ := h.2 0 fun _ => true
  obtain ⟨rest, turn, -, hturn, -⟩ := loop_ok hlist
  have hwild : longName.turn (longName.filledOnly fun _ => true) (readdirBody 0) 0 0 0 =
      .error .wild := by
    rfl
  rw [hwild] at hturn
  cases hturn

end Examples

end Kogata.Kernel
