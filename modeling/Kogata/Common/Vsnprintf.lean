import Kogata.Common.PrintfExact
import Kogata.Lib.Word

/-!
# Output into a buffer

`vsnprintf` of `common/libc/printf.c` and its output function. Every index of the buffer that is
stored to is noted. The output function keeps one byte for the final `0` by `len - 1`, which is
`2 ^ 32 - 1` for an empty buffer (`vsnprintf_respects_iff`).
-/

namespace Kogata.Common.Printf

/-- `struct vsnprintf_s`, with the indices that have been stored to. -/
structure VsnprintfS where
  buff : Nat → UInt8
  len : UInt32
  i : UInt32
  writes : List Nat

/-- `buff[i] = c`. -/
def VsnprintfS.store (s : VsnprintfS) (i : Nat) (c : UInt8) : VsnprintfS :=
  { s with buff := Function.update s.buff i c, writes := s.writes ++ [i] }

/-- `vsnprintf_putc_fun`. -/
def vsnprintfPutcFun (c : UInt8) (s : VsnprintfS) : Int × VsnprintfS :=
  if s.i < s.len - 1 then (1, { s.store s.i.toNat c with i := s.i + 1 }) else (0, s)

/-- How a call of `vsnprintf` ends. -/
inductive VsnprintfEnd where
  | noBuffer
  | returned (value : Int) (s : VsnprintfS)
  | assertFailed (s : VsnprintfS)
  | pastEnd (s : VsnprintfS)

/-- `vsnprintf`; `noBuffer` stands for the `-1` of a call without a buffer or a format. -/
def vsnprintf (mem : Memory) (buff : Option (Nat → UInt8)) (len : UInt32)
    (format : Option Format) (ap : VaList) : VsnprintfEnd :=
  match buff, format with
  | some buff, some format =>
      let s : VsnprintfS := { buff := buff, len := len, i := 0, writes := [] }
      match vcprintf vsnprintfPutcFun mem s (some format) ap with
      | (none, s) => .pastEnd s
      | (some ret, s) =>
          if UInt32.ofNat (ret % 2 ^ 32).toNat = s.i then .returned s.i.toNat (s.store s.i.toNat 0)
          else .assertFailed s
  | _, _ => .noBuffer

/-- The text has been stored from the start of the buffer on, and nothing else. -/
structure Stored (len : UInt32) (text : List UInt8) (s : VsnprintfS) : Prop where
  len : s.len = len
  i : s.i.toNat = text.length
  buff : (List.range text.length).map s.buff = text
  writes : s.writes = List.range text.length

variable {len : UInt32} {text : List UInt8} {s : VsnprintfS}

/-- A store behind a part of the buffer leaves that part alone. -/
theorem map_store {n i : Nat} (hn : n ≤ i) (c : UInt8) :
    (List.range n).map (s.store i c).buff = (List.range n).map s.buff := by
  refine List.map_congr_left fun j hj => ?_
  have hlt := List.mem_range.mp hj
  exact Function.update_of_ne (by omega) _ _

/-- While there is room the character is stored behind the text. -/
theorem putc_room (h : Stored len text s) (hroom : text.length < (len - 1).toNat) (c : UInt8) :
    ∃ s', vsnprintfPutcFun c s = (1, s') ∧ Stored len (text ++ [c]) s' := by
  have hlt : s.i < s.len - 1 := by
    rw [UInt32.lt_iff_toNat_lt, h.i, h.len]
    exact hroom
  refine ⟨_, if_pos hlt, h.len, ?_, ?_, ?_⟩
  · have hmax := (len - 1).toNat_lt
    show (s.i + 1).toNat = _
    rw [UInt32.toNat_add, h.i, List.length_append, List.length_singleton]
    exact Nat.mod_eq_of_lt (by show text.length + 1 < 2 ^ 32; omega)
  · rw [List.length_append, List.length_singleton, List.range_succ, List.map_append,
      List.map_singleton]
    show (List.range text.length).map (s.store s.i.toNat c).buff ++
      [(s.store s.i.toNat c).buff text.length] = _
    rw [map_store h.i.ge, h.buff, ← h.i]
    exact congrArg (fun b => text ++ [b]) (Function.update_self _ _ _)
  · show s.writes ++ [s.i.toNat] = _
    rw [h.writes, h.i, List.length_append, List.length_singleton, List.range_succ]

/-- Without room nothing is stored. -/
theorem putc_full (h : Stored len text s) (hfull : (len - 1).toNat ≤ text.length) (c : UInt8) :
    vsnprintfPutcFun c s = (0, s) := by
  refine if_neg fun hlt => ?_
  rw [UInt32.lt_iff_toNat_lt, h.i, h.len] at hlt
  omega

/-- A text that fits is stored as a whole. -/
theorem run_fits (h : Stored len text s) (cs : List UInt8)
    (hfits : text.length + cs.length ≤ (len - 1).toNat) :
    ∃ s', (putAll vsnprintfPutcFun cs).run.run { p := s, ret := intOf text.length } =
        (.ok (), { p := s', ret := intOf (text ++ cs).length }) ∧ Stored len (text ++ cs) s' := by
  induction cs generalizing text s with
  | nil =>
      rw [List.append_nil]
      exact ⟨s, rfl, h⟩
  | cons c cs ih =>
      rw [List.length_cons] at hfits
      obtain ⟨mid, hput, hmid⟩ := putc_room h (by omega) c
      have hrun : (putchar vsnprintfPutcFun c).run.run { p := s, ret := intOf text.length } =
          (.ok (), { p := mid, ret := intOf (text ++ [c]).length }) := by
        rw [List.length_append, List.length_singleton, ← int_inc_int_of]
        exact run_putchar_taken hput _
      obtain ⟨s', hrest, hs'⟩ := ih hmid (by
        rw [List.length_append, List.length_singleton]
        omega)
      rw [List.append_assoc, List.singleton_append] at hrest hs'
      exact ⟨s', by rw [put_all_cons, run_bind_ok hrun, hrest], hs'⟩

/-- Of a text that does not fit as much is stored as there is room for. -/
theorem run_stops (h : Stored len text s) (cs : List UInt8) (hle : text.length ≤ (len - 1).toNat)
    (hlong : (len - 1).toNat < text.length + cs.length) :
    ∃ s', (putAll vsnprintfPutcFun cs).run.run { p := s, ret := intOf text.length } =
        (.error (.returned (intOf (len - 1).toNat)),
          { p := s', ret := intOf (len - 1).toNat }) ∧
      Stored len ((text ++ cs).take (len - 1).toNat) s' := by
  obtain ⟨room, hroom⟩ := Nat.le.dest hle
  rw [← hroom] at hlong
  have hsplit : cs = cs.take room ++ cs.drop room := (List.take_append_drop room cs).symm
  have hfirst : (cs.take room).length = room := by
    rw [List.length_take]
    omega
  obtain ⟨s', hrun, hs'⟩ := run_fits h (cs.take room) (by omega)
  have hfull : (text ++ cs.take room).length = (len - 1).toNat := by
    rw [List.length_append, hfirst, hroom]
  obtain ⟨c, rest, hrest⟩ := List.exists_cons_of_ne_nil (l := cs.drop room) (by
    intro hnil
    rw [List.drop_eq_nil_iff] at hnil
    omega)
  have hstop := run_putchar_refused (putc_full hs' hfull.ge c) (intOf (len - 1).toNat)
  refine ⟨s', ?_, ?_⟩
  · rw [hsplit, hrest, put_all_append, run_bind_ok hrun, hfull, put_all_cons]
    exact run_bind_error hstop
  · rw [← hroom, List.take_length_add_append]
    exact hs'

/-- What is counted is the index. -/
theorem of_nat_int_of (n : Nat) : UInt32.ofNat (intOf n % 2 ^ 32).toNat = UInt32.ofNat n := by
  have hmod : (intOf n % 2 ^ 32).toNat = n % 2 ^ 32 := by
    rw [intOf]
    omega
  rw [hmod]
  exact UInt32.toNat_inj.mp (by simp)

section Calls

variable (mem : Memory) (buff : Nat → UInt8) (len : UInt32) (format : Format) (ap : VaList)

/-- A result of `vcprintf` is returned if it counts what has been stored. -/
theorem vsnprintf_returned {n : Nat} {s : VsnprintfS}
    (hresult : vcprintf vsnprintfPutcFun mem { buff := buff, len := len, i := 0, writes := [] }
      (some format) ap = (some (intOf n), s)) (hn : n = s.i.toNat) :
    vsnprintf mem (some buff) len (some format) ap =
      .returned s.i.toNat (s.store s.i.toNat 0) := by
  rw [vsnprintf, hresult]
  dsimp only
  rw [of_nat_int_of, hn, UInt32.ofNat_toNat, if_pos rfl]

/-- The call reads behind the format, or it stores as much of the text as there is room for. -/
theorem vsnprintf_cases :
    ((pieces mem format.bytes ap).2 = true ∧
        (pieces mem format.bytes ap).1.length ≤ (len - 1).toNat ∧
        ∃ s, vsnprintf mem (some buff) len (some format) ap = .pastEnd s) ∨
      (¬ ((pieces mem format.bytes ap).2 = true ∧
        (pieces mem format.bytes ap).1.length ≤ (len - 1).toNat) ∧
        ∃ s, vsnprintf mem (some buff) len (some format) ap =
            .returned s.i.toNat (s.store s.i.toNat 0) ∧
          Stored len ((pieces mem format.bytes ap).1.take (len - 1).toNat) s) := by
  have hloop := vcprintf_loop_eq vsnprintfPutcFun mem (Nat.zero_le format.bytes.length) ap
  rw [List.drop_zero] at hloop
  have hempty : Stored len [] { buff := buff, len := len, i := 0, writes := [] } :=
    ⟨rfl, rfl, rfl, rfl⟩
  generalize pieces mem format.bytes ap = r at hloop ⊢
  obtain ⟨text, past⟩ := r
  by_cases hfits : text.length ≤ (len - 1).toNat
  · obtain ⟨s, hrun, hs⟩ := run_fits hempty text (by simpa using hfits)
    rw [List.nil_append] at hrun hs
    have hresult : vcprintf vsnprintfPutcFun mem
        { buff := buff, len := len, i := 0, writes := [] } (some format) ap =
        (if past then none else some (intOf text.length), s) := by
      rw [vcprintf, hloop, show (0 : Int) = intOf ([] : List UInt8).length from rfl,
        run_bind_ok hrun]
      cases past <;> rfl
    cases past with
    | true =>
        refine .inl ⟨rfl, hfits, s, ?_⟩
        rw [vsnprintf, hresult]
        rfl
    | false =>
        refine .inr ⟨by simp, s, ?_, by rwa [List.take_of_length_le hfits]⟩
        exact vsnprintf_returned mem buff len format ap hresult hs.i.symm
  · obtain ⟨s, hrun, hs⟩ := run_stops hempty text (Nat.zero_le _) (by simpa using hfits)
    rw [List.nil_append] at hs
    have hresult : vcprintf vsnprintfPutcFun mem
        { buff := buff, len := len, i := 0, writes := [] } (some format) ap =
        (some (intOf (len - 1).toNat), s) := by
      rw [vcprintf, hloop, show (0 : Int) = intOf ([] : List UInt8).length from rfl,
        run_bind_error hrun]
    refine .inr ⟨fun h => hfits h.2, s, ?_, hs⟩
    refine vsnprintf_returned mem buff len format ap hresult ?_
    rw [hs.i, List.length_take]
    omega

/-- Every store is inside of the buffer, and a buffer with room for it ends in a `0` behind the
start of what an output function gets that takes every character. The call comes back, so its
assertion has not failed. -/
def Respects : Prop :=
  ∃ value s, vsnprintf mem (some buff) len (some format) ap = .returned value s ∧
    (∀ i ∈ s.writes, i < len.toNat) ∧
      (0 < len.toNat → ∃ n < len.toNat, s.buff n = 0 ∧
        (List.range n).map s.buff <+: (vcprintf accept mem [] (some format) ap).2)

/-- Exactly the buffers with room for the final `0` are respected, unless the format is cut off
behind a `%` and what is in front of that leaves room. -/
theorem vsnprintf_respects_iff :
    Respects mem buff len format ap ↔
      0 < len.toNat ∧ ¬ (Dangling format.bytes ∧
        (vcprintf accept mem [] (some format) ap).2.length < len.toNat) := by
  have htext : (vcprintf accept mem [] (some format) ap).2 = (pieces mem format.bytes ap).1 := by
    rw [vcprintf_accept]
  rw [Respects, htext, ← pieces_over_iff mem format.bytes ap]
  have hlast : 0 < len.toNat → (len - 1).toNat = len.toNat - 1 := fun hpos =>
    Lib.Word.toNat_sub_of_le (y := 1) hpos
  obtain ⟨hover, hfits, s, hend⟩ | ⟨hstops, s, hend, hs⟩ := vsnprintf_cases mem buff len format ap
  · refine iff_of_false ?_ ?_
    · intro h
      obtain ⟨value, s', hreturned, -⟩ := h
      rw [hend] at hreturned
      cases hreturned
    · intro h
      have hcap := hlast h.1
      exact h.2 ⟨hover, by omega⟩
  · have hlen := hs.i
    rw [List.length_take] at hlen
    constructor
    · intro h
      obtain ⟨value, s', hreturned, hinside, -⟩ := h
      rw [hend] at hreturned
      cases hreturned
      have hnul := hinside s.i.toNat (by simp [VsnprintfS.store])
      refine ⟨by omega, fun h => hstops ⟨h.1, ?_⟩⟩
      have hcap := hlast (by omega)
      omega
    · intro h
      have hcap := hlast h.1
      refine ⟨_, _, hend, ?_, fun _ => ⟨s.i.toNat, by omega, Function.update_self _ _ _, ?_⟩⟩
      · intro i hi
        have hi' : i ∈ s.writes ++ [s.i.toNat] := hi
        rw [List.mem_append, hs.writes, List.mem_range, ← hs.i, List.mem_singleton] at hi'
        omega
      · rw [map_store le_rfl, hs.i, hs.buff]
        exact List.take_prefix _ _

end Calls

/-- The final `0` is stored into a buffer of no bytes. -/
theorem empty_buffer_overrun :
    ¬ Respects { str := fun _ => [], stale := 0 } (fun _ => 0) 0 (formatOf []) (fun _ => 0) := by
  intro h
  obtain ⟨value, s, hreturned, hinside, -⟩ := h
  obtain ⟨-, -, s', hend⟩ | ⟨-, s', hend, -⟩ := vsnprintf_cases { str := fun _ => [], stale := 0 }
    (fun _ => 0) 0 (formatOf []) (fun _ => 0)
  · rw [hreturned] at hend
    cases hend
  · rw [hreturned] at hend
    cases hend
    exact absurd (hinside s'.i.toNat (by simp [VsnprintfS.store])) (Nat.not_lt_zero _)

end Kogata.Common.Printf
