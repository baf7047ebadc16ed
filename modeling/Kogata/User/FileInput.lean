import Kogata.User.FileIo
import Mathlib.Data.List.TakeWhile

/-!
# Character input

`fgetc` and `fgets` on a regular file. `fread` gives a byte as a signed `char`, and `fgetc` returns
it so: a byte from 128 on comes out negative, and the byte 255 as `EOF`. A file is read as it is if
and only if it has no byte from 128 on (`fgetc_clean_iff`), and a line if and only if it has no byte
255 (`fgets_clean_iff`).
-/

namespace Kogata.User.FileIo

open Lib Lib.Effect

/-- The result of as many calls of `fgetc`. -/
def fgetcs : Nat → FileM (List UInt8) (List Int)
  | 0 => return []
  | k + 1 => do
      let c ← fgetc regular
      let rest ← fgetcs k
      return c :: rest

/-- The values of the bytes of a file one after the other, and then `EOF`. -/
def characters (value : UInt8 → Int) : Nat → List UInt8 → List Int
  | 0, _ => []
  | k + 1, [] => User.eof :: characters value k []
  | k + 1, x :: rest => value x :: characters value k rest

/-- The next bytes up to a newline, this one included, but no more than a number of them. -/
def nextLine : Nat → List UInt8 → List UInt8
  | 0, _ => []
  | _ + 1, [] => []
  | n + 1, x :: rest => if x = 10 then [x] else x :: nextLine n rest

/-- A regular file with no output that waits to be written, and the bytes that are left of it. -/
structure AtRest (rest : List UInt8) (f : File (List UInt8)) : Prop where
  fd : f.fd ≠ 0
  moves : f.moves = true
  flushed : f.canWrite = false ∨ ¬(f.bufMode ≠ 0 ∧ 0 < f.outBufUsed)
  length : f.dev.length < 2 ^ 32
  pos : f.pos < 2 ^ 32
  rest : f.dev.drop f.pos = rest

section Fgetc

variable {rest : List UInt8} {x : UInt8} {f : File (List UInt8)}

/-- There is nothing to flush. -/
theorem AtRest.fflush (h : AtRest rest f) : FileIo.fflush regular f = .ok (0, f) := by
  unfold FileIo.fflush
  rw [run_bind_of_ok (a := f) rfl, if_neg h.fd]
  rcases h.flushed with hread | hempty
  · rw [if_pos hread]
    rfl
  · rw [if_neg hempty, run_ite]
    exact ite_self _

/-- The position moves over bytes that are there. -/
theorem AtRest.advance (h : AtRest rest f) {n : Nat} (hn : n ≤ rest.length) :
    AtRest (rest.drop n) (f.advance n) := by
  have hlength := h.length
  have hpos := h.pos
  have hleft : rest.length = f.dev.length - f.pos := by rw [← h.rest, List.length_drop]
  have hmod : (f.pos + n) % 2 ^ 32 = f.pos + n := Nat.mod_eq_of_lt (by omega)
  rw [File.advance, if_pos h.moves, hmod]
  refine ⟨h.fd, h.moves, h.flushed, h.length, by dsimp only; omega, ?_⟩
  rw [← h.rest, List.drop_drop]

/-- `fread` of one byte, which is what `sc_read` gives. -/
theorem AtRest.fread (h : AtRest rest f) :
    Yields (FileIo.fread regular 1 1) f fun data f' => data = rest.take 1 ∧
      AtRest (rest.drop 1) f' := by
  have hread : Growing.slice f.dev f.pos 1 = rest.take 1 := by rw [Growing.slice, h.rest]
  have hmoved : AtRest (rest.drop 1) (f.advance (rest.take 1).length) := by
    have hdrop : rest.drop 1 = rest.drop (rest.take 1).length := by
      rw [List.length_take]
      rcases rest with _ | ⟨x, rest⟩
      · rfl
      · rfl
    rw [hdrop]
    exact h.advance (by rw [List.length_take]; exact Nat.min_le_right _ _)
  refine yields_bind_of_run h.fflush (yields_ite (fun heof => absurd heof (by decide)) fun _ => ?_)
  refine yields_bind_of_run (a := f) rfl (yields_ite (fun hfd => absurd hfd h.fd) fun _ => ?_)
  refine yields_bind_of_run (a := rest.take 1) (by rw [← hread]; rfl) ?_
  refine yields_bind_of_run (a := ()) rfl (yields_bind_of_run (a := ()) rfl (yields_pure ⟨rfl, ?_⟩))
  dsimp only
  split
  · exact ⟨hmoved.fd, hmoved.moves, hmoved.flushed, hmoved.length, hmoved.pos, hmoved.rest⟩
  · exact hmoved

theorem AtRest.fgetc (h : AtRest (x :: rest) f) :
    Yields (FileIo.fgetc regular) f fun c f' => c = x.toInt8.toInt ∧ AtRest rest f' := by
  refine h.fread.bind fun data f' hpost => ?_
  rw [hpost.1]
  exact yields_pure ⟨rfl, hpost.2⟩

theorem AtRest.fgetc_end (h : AtRest [] f) :
    Yields (FileIo.fgetc regular) f fun c f' => c = User.eof ∧ AtRest [] f' := by
  refine h.fread.bind fun data f' hpost => ?_
  rw [hpost.1]
  exact yields_pure ⟨rfl, hpost.2⟩

end Fgetc

section Characters

variable {rest : List UInt8} {x : UInt8} {f : File (List UInt8)}

/-- A signed `char`, as an `int`. -/
theorem to_int_eq (x : UInt8) :
    x.toInt8.toInt = if x.toNat < 128 then (x.toNat : Int) else x.toNat - 256 := by
  have hcond := BitVec.toInt_eq_toNat_cond x.toBitVec
  have hval : x.toInt8.toInt = x.toBitVec.toInt := rfl
  have hnat : x.toBitVec.toNat = x.toNat := rfl
  rw [hval, hcond, hnat]
  split <;> split <;> omega

theorem to_int_eq_iff (x : UInt8) : x.toInt8.toInt = x.toNat ↔ x < 128 := by
  have hlt : x < 128 ↔ x.toNat < 128 := UInt8.lt_iff_toNat_lt
  rw [hlt, to_int_eq]
  split <;> omega

/-- The byte that is stored for such an `int`. -/
theorem of_nat_to_int (x : UInt8) : UInt8.ofNat (x.toInt8.toInt % 256).toNat = x := by
  have hlt := x.toNat_lt
  have hbyte : (x.toInt8.toInt % 256).toNat = x.toNat := by
    rw [to_int_eq]
    split <;> omega
  rw [hbyte, UInt8.ofNat_toNat]

theorem to_int_inj {x y : UInt8} : x.toInt8.toInt = y.toInt8.toInt ↔ x = y := by
  refine ⟨fun heq => ?_, fun heq => heq ▸ rfl⟩
  rw [← of_nat_to_int x, heq, of_nat_to_int]

/-- What `fgetc` returns one after the other. -/
theorem AtRest.fgetcs (h : AtRest rest f) (k : Nat) :
    Yields (FileIo.fgetcs k) f fun cs _ => cs = characters (fun x => x.toInt8.toInt) k rest := by
  induction k generalizing rest f with
  | zero => exact yields_pure rfl
  | succ k ih =>
      rcases rest with _ | ⟨x, rest⟩
      · refine h.fgetc_end.bind fun c f' hpost => (ih hpost.2).bind fun cs _ hcs => ?_
        exact yields_pure (by rw [hpost.1, hcs]; rfl)
      · refine h.fgetc.bind fun c f' hpost => (ih hpost.2).bind fun cs _ hcs => ?_
        exact yields_pure (by rw [hpost.1, hcs]; rfl)

/-- The values of all bytes are told apart by the characters that are read. -/
theorem characters_eq_iff {value other : UInt8 → Int} :
    (∀ k, characters value k rest = characters other k rest) ↔
      ∀ x ∈ rest, value x = other x := by
  induction rest with
  | nil =>
      have hend : ∀ k, characters value k [] = characters other k [] := by
        intro k
        induction k with
        | zero => rfl
        | succ k ih => rw [characters, characters, ih]
      exact ⟨fun _ => nofun, fun _ => hend⟩
  | cons x rest ih =>
      constructor
      · intro h
        have hhead : value x = other x := (List.cons.inj (h 1)).1
        have htail := ih.mp fun k => (List.cons.inj (h (k + 1))).2
        exact List.forall_mem_cons.mpr ⟨hhead, htail⟩
      · intro h k
        obtain ⟨hhead, htail⟩ := List.forall_mem_cons.mp h
        cases k with
        | zero => rfl
        | succ k => rw [characters, characters, hhead, ih.mpr htail k]

end Characters

section Fgets

variable {rest : List UInt8} {f : File (List UInt8)}

/-- The loop of `fgets` stops at a byte 255 as at the end of the file. -/
theorem AtRest.fgets_loop (h : AtRest rest f) (hback : (8 : UInt8) ∉ rest) {size : Int}
    {fuel n : Nat} {s : List UInt8} (hn : n = (size - 1).toNat - s.length) (hfuel : n < fuel) :
    Yields (fgetsLoop regular size fuel s) f fun out _ =>
      out = s ++ (nextLine n rest).takeWhile (· ≠ 255) := by
  induction fuel generalizing rest f n s with
  | zero => exact absurd hfuel (Nat.not_lt_zero n)
  | succ fuel ih =>
      rw [fgetsLoop]
      refine yields_ite (fun hroom => ?_) fun hfull => ?_
      · obtain ⟨m, rfl⟩ : ∃ m, n = m + 1 := ⟨n - 1, by omega⟩
        rcases rest with _ | ⟨x, rest⟩
        · refine h.fgetc_end.bind fun c f' hpost => ?_
          refine yields_ite (fun _ => yields_pure ?_) fun hne => absurd hpost.1 hne
          exact (List.append_nil s).symm
        · obtain ⟨hx, hrest⟩ := not_or.mp (List.mem_cons.not.mp hback)
          refine h.fgetc.bind fun c f' hpost => ?_
          obtain ⟨rfl, hleft⟩ := hpost
          refine yields_ite (fun hend => yields_pure ?_) fun hbyte => ?_
          · have hlast : x = 255 := to_int_inj.mp hend
            rw [hlast]
            exact (List.append_nil s).symm
          have hkept : x ≠ 255 := fun heq => hbyte (to_int_inj.mpr heq)
          refine yields_ite (fun heq => absurd (to_int_inj.mp heq).symm hx) fun _ => ?_
          rw [of_nat_to_int]
          refine yields_ite (fun hline => yields_pure ?_) fun hline => ?_
          · have hnewline : x = 10 := to_int_inj.mp hline
            rw [hnewline]
            rfl
          · have hsame : x ≠ 10 := fun heq => hline (to_int_inj.mpr heq)
            have hcount : m = (size - 1).toNat - (s ++ [x]).length := by
              rw [List.length_append, List.length_singleton]
              omega
            refine (ih hleft hrest hcount (by omega)).mono fun out _ hout => ?_
            rw [hout, nextLine, if_neg hsame, List.takeWhile_cons_of_pos (by simpa using hkept),
              List.append_assoc]
            rfl
      · obtain rfl : n = 0 := by omega
        exact yields_pure (List.append_nil s).symm

/-- `fgets`, with as many turns of its loop as it may need. -/
theorem AtRest.fgets (h : AtRest rest f) (hback : (8 : UInt8) ∉ rest) {size : Int} {fuel : Nat}
    (hfuel : (size - 1).toNat < fuel) :
    Yields (FileIo.fgets regular fuel size) f fun out _ =>
      out = (nextLine (size - 1).toNat rest).takeWhile (· ≠ 255) ++ [0] :=
  (h.fgets_loop hback rfl hfuel).bind fun s _ hs => yields_pure (by rw [hs]; rfl)

end Fgets

section Clean

variable {rest : List UInt8} {f : File (List UInt8)}

/-- The calls of `fgetc` return the bytes of the file, and `EOF` behind them, if and only if no byte
is 128 or more. -/
theorem fgetc_clean_iff (h : AtRest rest f) :
    (∀ k, Yields (fgetcs k) f fun cs _ => cs = characters (fun x => x.toNat) k rest) ↔
      ∀ x ∈ rest, x < 128 := by
  have hsame : (∀ k, Yields (fgetcs k) f fun cs _ => cs = characters (fun x => x.toNat) k rest) ↔
      ∀ k, characters (fun x => x.toInt8.toInt) k rest = characters (fun x => x.toNat) k rest := by
    refine forall_congr' fun k => ⟨fun hk => ?_, fun hk => ?_⟩
    · obtain ⟨cs, f', hrun, hcs⟩ := h.fgetcs k
      rw [← hcs]
      exact hk.ensures cs f' hrun
    · exact (h.fgetcs k).mono fun cs _ hcs => hcs.trans hk
  rw [hsame, characters_eq_iff]
  exact forall₂_congr fun x _ => to_int_eq_iff x

/-- `fgets` stores the next line if and only if it has no byte 255. -/
theorem fgets_clean_iff (h : AtRest rest f) (hback : (8 : UInt8) ∉ rest) {size : Int} {fuel : Nat}
    (hfuel : (size - 1).toNat < fuel) :
    Yields (fgets regular fuel size) f
        (fun out _ => out = nextLine (size - 1).toNat rest ++ [0]) ↔
      (255 : UInt8) ∉ nextLine (size - 1).toNat rest := by
  have hwhole : (nextLine (size - 1).toNat rest).takeWhile (· ≠ 255) =
      nextLine (size - 1).toNat rest ↔ (255 : UInt8) ∉ nextLine (size - 1).toNat rest := by
    rw [List.takeWhile_eq_self_iff]
    exact ⟨fun hall hmem => absurd rfl (of_decide_eq_true (hall 255 hmem)), fun hnot x hx =>
      decide_eq_true fun heq => hnot (heq ▸ hx)⟩
  obtain ⟨out, f', hrun, hout⟩ := h.fgets hback hfuel
  rw [← hwhole]
  refine ⟨fun hyields => ?_, fun heq => ⟨out, f', hrun, by rw [hout, heq]⟩⟩
  exact List.append_cancel_right (hout.symm.trans (hyields.ensures out f' hrun))

/-- Character input on a regular file: what `fgetc` gives is right if and only if all bytes that
are left are below 128, and what `fgets` stores if and only if the next line has no byte 255. -/
theorem character_input_clean_iff (h : AtRest rest f) :
    ((∀ k, Yields (fgetcs k) f fun cs _ => cs = characters (fun x => x.toNat) k rest) ↔
      ∀ x ∈ rest, x < 128) ∧
    ((8 : UInt8) ∉ rest → ∀ (size : Int) (fuel : Nat), (size - 1).toNat < fuel →
      (Yields (fgets regular fuel size) f
          (fun out _ => out = nextLine (size - 1).toNat rest ++ [0]) ↔
        (255 : UInt8) ∉ nextLine (size - 1).toNat rest)) :=
  ⟨fgetc_clean_iff h, fun hback _ _ hfuel => fgets_clean_iff h hback hfuel⟩

/-- A file that has just been opened, at its start. -/
theorem fopen_at_rest {fd : Nat} {contents : List UInt8} (hfd : fd ≠ 0)
    (hlength : contents.length < 2 ^ 32) (canWrite allocated : Bool) :
    AtRest contents (fopen fd contents canWrite false allocated) := by
  have hstart := Nat.two_pow_pos 32
  cases canWrite with
  | false => exact ⟨hfd, rfl, .inl rfl, hlength, hstart, rfl⟩
  | true =>
      cases allocated with
      | false => exact ⟨hfd, rfl, .inl rfl, hlength, hstart, rfl⟩
      | true => exact ⟨hfd, rfl, .inr fun hused => Nat.lt_irrefl 0 hused.2, hlength, hstart, rfl⟩

end Clean

/-- A file of three lines, the last of which is not ended. -/
theorem character_input_clean_lines :
    ((∀ k, Yields (fgetcs k) (fopen 1 [65, 10, 200, 10, 255] false false true)
        (fun cs _ => cs = characters (fun x => x.toNat) k [65, 10, 200, 10, 255])) ↔
      ∀ x ∈ ([65, 10, 200, 10, 255] : List UInt8), x < 128) ∧
    ((8 : UInt8) ∉ ([65, 10, 200, 10, 255] : List UInt8) → ∀ (size : Int) (fuel : Nat),
      (size - 1).toNat < fuel →
      (Yields (fgets regular fuel size) (fopen 1 [65, 10, 200, 10, 255] false false true)
          (fun out _ => out = nextLine (size - 1).toNat [65, 10, 200, 10, 255] ++ [0]) ↔
        (255 : UInt8) ∉ nextLine (size - 1).toNat [65, 10, 200, 10, 255])) :=
  character_input_clean_iff (fopen_at_rest (by decide) (by decide) false true)

/-- The byte 255 is read as the end of the file. -/
theorem character_input_not_clean : ¬ ∀ (rest : List UInt8) (f : File (List UInt8)),
    AtRest rest f →
      ∀ k, Yields (fgetcs k) f fun cs _ => cs = characters (fun x => x.toNat) k rest := by
  intro hall
  have hrest := fopen_at_rest (show 1 ≠ 0 by decide) (show [255, 65].length < 2 ^ 32 by decide)
    false true
  have hbytes := (fgetc_clean_iff hrest).mp (hall [255, 65] _ hrest)
  exact absurd (hbytes 255 List.mem_cons_self) (by decide)

end Kogata.User.FileIo
