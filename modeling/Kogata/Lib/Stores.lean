import Mathlib.Logic.Function.Basic
import Mathlib.Tactic.Common

/-!
# Programs that store bytes

A `Board` is a memory whose stores are noted in order. A program is a function on boards, made of
stores, sequences and loops over an interval. `Writes` says where a program stores, `Hits` that it
stores at an address, `Counts` how often it stores, `Moves` that it is another program at a
displacement, and `Blind` that the addresses do not depend on what is in the memory; each has one
rule for each construct. `Maps` says what becomes of every byte, where a loop goes to each only
once.
-/

namespace Lib.Stores

/-- A memory and the addresses of its stores so far. -/
@[ext]
structure Board where
  data : Int → UInt8
  written : List Int

namespace Board

/-- Store a byte. -/
def store (a : Int) (v : UInt8) (s : Board) : Board where
  data := Function.update s.data a v
  written := s.written ++ [a]

/-- The memory seen from the address `off`. -/
def shift (off : Int) (s : Board) : Board where
  data := fun a => s.data (a + off)
  written := s.written.map (· - off)

end Board

/-- Store bytes one after the other. -/
def storeBytes : Int → List UInt8 → Board → Board
  | _, [], s => s
  | a, v :: vs, s => storeBytes (a + 1) vs (s.store a v)

/-- The body, for `n` numbers from `lo` on. -/
def loop (body : Int → Board → Board) : Nat → Int → Board → Board
  | 0, _, s => s
  | n + 1, lo, s => loop body n (lo + 1) (body lo s)

/-- The loop over the numbers from `lo` on that are less than `hi`. -/
def forRange (lo hi : Int) (body : Int → Board → Board) (s : Board) : Board :=
  loop body (hi - lo).toNat lo s

/-- The stores of a program are at addresses in `P`, and the memory changes only there. -/
def Writes (P : Int → Prop) (f : Board → Board) : Prop :=
  ∀ s, ∃ new, (f s).written = s.written ++ new ∧ (∀ a ∈ new, P a) ∧
    ∀ a, a ∉ new → (f s).data a = s.data a

/-- The program stores at `a`. -/
def Hits (a : Int) (f : Board → Board) : Prop := ∀ s, a ∈ (f s).written

/-- The program stores `n` times. -/
def Counts (n : Nat) (f : Board → Board) : Prop :=
  ∀ s, (f s).written.length = s.written.length + n

/-- Seen from `off`, the first program is the second. -/
def Moves (off : Int) (f g : Board → Board) : Prop := ∀ s, (f s).shift off = g (s.shift off)

/-- Where the program stores does not depend on the memory. -/
def Blind (f : Board → Board) : Prop :=
  ∀ s s', s.written = s'.written → (f s).written = (f s').written

/-- Each byte becomes a function of what it was: at the addresses of `change` the function there. No
other byte changes. -/
def Maps (change : Int → (UInt8 → UInt8) → Prop) (f : Board → Board) : Prop :=
  ∀ s a, (∀ e, change a e → (f s).data a = e (s.data a)) ∧
    ((∀ e, ¬change a e) → (f s).data a = s.data a)

variable {P Q : Int → Prop} {f g f' g' : Board → Board} {body body' : Int → Board → Board}
  {a lo hi off d : Int} {v : UInt8}

/-- A loop whose body does nothing. -/
theorem for_range_id (h : ∀ u, lo ≤ u → u < hi → ∀ s, body u s = s) (s : Board) :
    forRange lo hi body s = s := by
  have hloop : ∀ (n : Nat) (lo : Int), (∀ u, lo ≤ u → u < lo + n → ∀ s, body u s = s) →
      loop body n lo s = s := by
    intro n
    induction n with
    | zero => exact fun _ _ => rfl
    | succ n ih =>
        intro lo h
        rw [loop, h lo (by omega) (by omega)]
        exact ih (lo + 1) fun u hlo hhi => h u (by omega) (by omega)
  exact hloop _ lo fun u hlo hhi => h u hlo (by omega)

theorem for_range_empty (h : hi ≤ lo) (s : Board) : forRange lo hi body s = s :=
  for_range_id (fun u hlo hhi => absurd hhi (by omega)) s

theorem loop_append (m n : Nat) (lo : Int) (s : Board) :
    loop body (m + n) lo s = loop body n (lo + m) (loop body m lo s) := by
  induction m generalizing lo s with
  | zero => rw [Nat.zero_add, loop, Int.natCast_zero, Int.add_zero]
  | succ m ih =>
      rw [Nat.succ_add, loop, ih, loop, Int.natCast_succ, Int.add_assoc, Int.add_comm (1 : Int)]

/-- A loop is left in the middle and taken up again. -/
theorem for_range_append {mid : Int} (hlo : lo ≤ mid) (hhi : mid ≤ hi) (s : Board) :
    forRange lo hi body s = forRange mid hi body (forRange lo mid body s) := by
  have hcount : (hi - lo).toNat = (mid - lo).toNat + (hi - mid).toNat := by omega
  have hmid : lo + ((mid - lo).toNat : Int) = mid := by omega
  rw [forRange, hcount, loop_append, hmid]
  rfl

theorem for_range_last (h : lo < hi) (s : Board) :
    forRange lo hi body s = body (hi - 1) (forRange lo (hi - 1) body s) := by
  have hone : (hi - (hi - 1)).toNat = 1 := by omega
  rw [for_range_append (show lo ≤ hi - 1 by omega) (by omega), forRange, hone]
  rfl

theorem for_range_congr (h : ∀ u, lo ≤ u → u < hi → body u = body' u) (s : Board) :
    forRange lo hi body s = forRange lo hi body' s := by
  have hloop : ∀ (n : Nat) (lo : Int) (s : Board), (∀ u, lo ≤ u → u < lo + n → body u = body' u) →
      loop body n lo s = loop body' n lo s := by
    intro n
    induction n with
    | zero => exact fun _ _ _ => rfl
    | succ n ih =>
        intro lo s h
        rw [loop, loop, h lo (by omega) (by omega)]
        exact ih _ _ fun u hlo hhi => h u (by omega) (by omega)
  exact hloop _ _ _ fun u hlo hhi => h u hlo (by omega)

/-- A loop whose body does nothing outside an interval is a loop over the numbers in it. -/
theorem for_range_clip {a b : Int} (hout : ∀ u, u < a ∨ b ≤ u → ∀ s, body u s = s)
    (hin : ∀ u, a ≤ u → u < b → body u = body' u) (s : Board) :
    forRange lo hi body s = forRange (max lo a) (min hi b) body' s := by
  rcases Int.lt_or_le (max lo a) (min hi b) with hsome | hnone
  · rw [for_range_append (show lo ≤ max lo a by omega) (show max lo a ≤ hi by omega),
      for_range_append (show max lo a ≤ min hi b by omega) (show min hi b ≤ hi by omega),
      for_range_id fun u (hlo : lo ≤ u) hhi => hout u (by omega),
      for_range_id fun u (hlo : min hi b ≤ u) hhi => hout u (by omega)]
    exact for_range_congr (fun u hlo hhi => hin u (by omega) (by omega)) s
  · rw [for_range_empty hnone]
    exact for_range_id (fun u hlo hhi => hout u (by omega)) s

/-- To do again what changes nothing when it is done again. -/
theorem for_range_again (hagain : ∀ s, (f (f s)).data = (f s).data) (h : lo < hi) (s : Board) :
    (forRange lo hi (fun _ => f) s).data = (f s).data := by
  have hloop : ∀ (n : Nat) (lo : Int) (s : Board),
      (loop (fun _ => f) (n + 1) lo s).data = (f s).data := by
    intro n
    induction n with
    | zero => exact fun _ _ => rfl
    | succ n ih =>
        intro lo s
        rw [loop, ih, hagain]
  obtain ⟨n, hn⟩ : ∃ n, (hi - lo).toNat = n + 1 := ⟨(hi - lo).toNat - 1, by omega⟩
  rw [forRange, hn]
  exact hloop n lo s

/-- What is in the memory where bytes were stored. -/
theorem store_bytes_data {vs : List UInt8} {k : Nat} (hk : k < vs.length) (s : Board) :
    (storeBytes a vs s).data (a + k) = vs[k] := by
  have houtside : ∀ (vs : List UInt8) (b i : Int) (s : Board), i < b →
      (storeBytes b vs s).data i = s.data i := by
    intro vs
    induction vs with
    | nil => exact fun _ _ _ _ => rfl
    | cons v vs ih =>
        intro b i s hi
        rw [storeBytes, ih _ _ _ (by omega)]
        exact Function.update_of_ne (by omega) ..
  induction vs generalizing a k s with
  | nil => cases hk
  | cons v vs ih =>
      rw [storeBytes]
      cases k with
      | zero =>
          rw [Int.natCast_zero, Int.add_zero, houtside _ _ _ _ (by omega)]
          exact Function.update_self ..
      | succ k =>
          have haddress : a + ((k + 1 : Nat) : Int) = a + 1 + k := by omega
          rw [haddress, ih (Nat.lt_of_succ_lt_succ hk)]
          rfl

section Writes

theorem writes_id : Writes P id := fun _ => ⟨[], (List.append_nil _).symm, nofun, fun _ _ => rfl⟩

theorem writes_store (h : P a) : Writes P (Board.store a v) := by
  intro s
  refine ⟨[a], rfl, fun b hb => ?_, fun b hb => ?_⟩
  · rw [List.mem_singleton.mp hb]
    exact h
  · exact Function.update_of_ne (fun hba => hb (List.mem_singleton.mpr hba)) ..

theorem Writes.mono (h : Writes P f) (hPQ : ∀ a, P a → Q a) : Writes Q f := by
  intro s
  obtain ⟨new, hwritten, hnew, hdata⟩ := h s
  exact ⟨new, hwritten, fun a ha => hPQ a (hnew a ha), hdata⟩

theorem Writes.comp (hf : Writes P f) (hg : Writes P g) : Writes P fun s => g (f s) := by
  intro s
  obtain ⟨new, hwritten, hnew, hdata⟩ := hf s
  obtain ⟨new', hwritten', hnew', hdata'⟩ := hg (f s)
  refine ⟨new ++ new', by rw [hwritten', hwritten, List.append_assoc], fun a ha => ?_,
    fun a ha => ?_⟩
  · exact (List.mem_append.mp ha).elim (hnew a) (hnew' a)
  · rw [List.mem_append, not_or] at ha
    exact (hdata' a ha.2).trans (hdata a ha.1)

theorem writes_store_bytes {vs : List UInt8} (h : ∀ k, a ≤ k → k < a + vs.length → P k) :
    Writes P (storeBytes a vs) := by
  induction vs generalizing a with
  | nil => exact writes_id
  | cons v vs ih =>
      rw [List.length_cons] at h
      exact (writes_store (h a (by omega) (by omega))).comp
        (ih fun k hlo hhi => h k (by omega) (by omega))

theorem Writes.ite {c : Prop} [Decidable c] (hf : c → Writes P f) (hg : ¬c → Writes P g) :
    Writes P fun s => if c then f s else g s := by
  by_cases hc : c
  · simpa only [if_pos hc] using hf hc
  · simpa only [if_neg hc] using hg hc

theorem Writes.loop {n : Nat} (h : ∀ u, lo ≤ u → u < lo + n → Writes P (body u)) :
    Writes P (loop body n lo) := by
  induction n generalizing lo with
  | zero => exact writes_id
  | succ n ih =>
      exact (h lo (by omega) (by omega)).comp
        (ih fun u hlo hhi => h u (by omega) (by omega))

theorem Writes.forRange (h : ∀ u, lo ≤ u → u < hi → Writes P (body u)) :
    Writes P (forRange lo hi body) :=
  Writes.loop fun u hlo hhi => h u hlo (by omega)

/-- What was not stored at is as it was. -/
theorem Writes.data_of_not_mem (h : Writes P f) {data : Int → UInt8}
    (ha : a ∉ (f ⟨data, []⟩).written) : (f ⟨data, []⟩).data a = data a := by
  obtain ⟨new, hwritten, -, hdata⟩ := h ⟨data, []⟩
  rw [hwritten] at ha
  exact hdata a ha

theorem Writes.data_outside (h : Writes P f) (ha : ¬P a) (s : Board) :
    (f s).data a = s.data a := by
  obtain ⟨new, -, hnew, hdata⟩ := h s
  exact hdata a fun hmem => ha (hnew a hmem)

theorem store_bytes_again (a : Int) (vs : List UInt8) (s : Board) :
    (storeBytes a vs (storeBytes a vs s)).data = (storeBytes a vs s).data := by
  funext i
  by_cases hin : a ≤ i ∧ i < a + vs.length
  · obtain ⟨k, rfl⟩ : ∃ k : Nat, i = a + k := ⟨(i - a).toNat, by omega⟩
    have hk : k < vs.length := by omega
    rw [store_bytes_data hk, store_bytes_data hk]
  · have hwrites : Writes (fun i => a ≤ i ∧ i < a + vs.length) (storeBytes a vs) :=
      writes_store_bytes fun k hlo hhi => ⟨hlo, hhi⟩
    exact hwrites.data_outside hin _

theorem Writes.mem (h : Writes P f) {data : Int → UInt8} (ha : a ∈ (f ⟨data, []⟩).written) :
    P a := by
  obtain ⟨new, hwritten, hnew, -⟩ := h ⟨data, []⟩
  rw [hwritten] at ha
  exact hnew a ha

/-- The stores that are noted stay noted. -/
theorem Writes.keeps (h : Writes P f) {s : Board} (ha : a ∈ s.written) : a ∈ (f s).written := by
  obtain ⟨new, hwritten, -, -⟩ := h s
  rw [hwritten]
  exact List.mem_append_left _ ha

end Writes

section Hits

theorem hits_store : Hits a (Board.store a v) := fun s =>
  List.mem_append_right s.written (List.mem_singleton_self a)

theorem Hits.comp_left (hf : Hits a f) (hg : Writes P g) : Hits a fun s => g (f s) :=
  fun s => hg.keeps (hf s)

theorem Hits.comp_right (hg : Hits a g) : Hits a fun s => g (f s) := fun s => hg (f s)

theorem hits_store_bytes {vs : List UInt8} {k : Int} (hlo : a ≤ k) (hhi : k < a + vs.length) :
    Hits k (storeBytes a vs) := by
  induction vs generalizing a with
  | nil =>
      rw [List.length_nil] at hhi
      omega
  | cons v vs ih =>
      rw [List.length_cons] at hhi
      by_cases hk : k = a
      · rw [hk]
        exact hits_store.comp_left (writes_store_bytes (P := fun _ => True) fun _ _ _ => trivial)
      · exact (ih (by omega) (by omega)).comp_right

theorem Hits.loop {u : Int} {n : Nat} (hbody : ∀ u, Writes P (body u)) (hlo : lo ≤ u)
    (hhi : u < lo + n) (h : Hits a (body u)) : Hits a (loop body n lo) := by
  induction n generalizing lo with
  | zero => omega
  | succ n ih =>
      by_cases hu : lo = u
      · rw [← hu] at h
        exact h.comp_left (Writes.loop fun u _ _ => hbody u)
      · exact (ih (by omega) (by omega)).comp_right

theorem Hits.forRange {u : Int} (hbody : ∀ u, Writes P (body u)) (hlo : lo ≤ u) (hhi : u < hi)
    (h : Hits a (body u)) : Hits a (forRange lo hi body) :=
  Hits.loop hbody hlo (by omega) h

end Hits

section Counts

variable {m n : Nat}

theorem counts_id : Counts 0 id := fun _ => rfl

theorem counts_store : Counts 1 (Board.store a v) := fun _ => List.length_append

theorem Counts.comp (hf : Counts m f) (hg : Counts n g) : Counts (m + n) fun s => g (f s) := by
  intro s
  rw [hg, hf, Nat.add_assoc]

theorem counts_store_bytes {vs : List UInt8} : Counts vs.length (storeBytes a vs) := by
  induction vs generalizing a with
  | nil => exact counts_id
  | cons v vs ih =>
      have hall := (counts_store (a := a) (v := v)).comp (ih (a := a + 1))
      rwa [Nat.add_comm] at hall

theorem Counts.forRange (h : ∀ u, Counts n (body u)) :
    Counts ((hi - lo).toNat * n) (forRange lo hi body) := by
  have hloop : ∀ (k : Nat) (lo : Int), Counts (k * n) (loop body k lo) := by
    intro k
    induction k with
    | zero =>
        intro lo
        rw [Nat.zero_mul]
        exact counts_id
    | succ k ih =>
        intro lo
        rw [Nat.succ_mul, Nat.add_comm]
        exact (h lo).comp (ih (lo + 1))
  exact hloop _ lo

end Counts

section Moves

theorem moves_id : Moves off id id := fun _ => rfl

theorem moves_store : Moves off (Board.store (a + off) v) (Board.store a v) := by
  intro s
  have hdata : ((Board.store (a + off) v s).shift off).data =
      (Board.store a v (s.shift off)).data := by
    funext b
    change Function.update s.data (a + off) v (b + off) =
      Function.update (fun c => s.data (c + off)) a v b
    by_cases hb : b = a
    · rw [hb, Function.update_self, Function.update_self]
    · rw [Function.update_of_ne hb, Function.update_of_ne (fun hba => hb (by omega))]
  have hwritten : ((Board.store (a + off) v s).shift off).written =
      (Board.store a v (s.shift off)).written := by
    change (s.written ++ [a + off]).map (· - off) = s.written.map (· - off) ++ [a]
    rw [List.map_append, List.map_singleton, Int.add_sub_cancel]
  exact Board.ext hdata hwritten

theorem Moves.comp (hf : Moves off f f') (hg : Moves off g g') :
    Moves off (fun s => g (f s)) fun s => g' (f' s) := by
  intro s
  rw [hg, hf]

theorem moves_store_bytes {vs : List UInt8} :
    Moves off (storeBytes (a + off) vs) (storeBytes a vs) := by
  induction vs generalizing a with
  | nil => exact moves_id
  | cons v vs ih =>
      have hrest := ih (a := a + 1)
      rw [Int.add_right_comm] at hrest
      exact moves_store.comp hrest

theorem Moves.ite {c : Prop} [Decidable c] (hf : c → Moves off f f') (hg : ¬c → Moves off g g') :
    Moves off (fun s => if c then f s else g s) fun s => if c then f' s else g' s := by
  by_cases hc : c
  · simpa only [if_pos hc] using hf hc
  · simpa only [if_neg hc] using hg hc

theorem Moves.loop {n : Nat}
    (h : ∀ u, lo ≤ u → u < lo + n → Moves off (body (d + u)) (body' u)) :
    Moves off (loop body n (d + lo)) (loop body' n lo) := by
  induction n generalizing lo with
  | zero => exact moves_id
  | succ n ih =>
      have hrest : Moves off (loop body n (d + (lo + 1))) (loop body' n (lo + 1)) :=
        ih fun u hlo hhi => h u (by omega) (by omega)
      rw [← Int.add_assoc] at hrest
      exact (h lo (by omega) (by omega)).comp hrest

/-- The two conditions need to be the same only in what they say. -/
theorem Moves.ite_of_iff {c c' : Prop} [Decidable c] [Decidable c'] (hc : c ↔ c')
    (hf : c → Moves off f f') (hg : ¬c → Moves off g g') :
    Moves off (fun s => if c then f s else g s) fun s => if c' then f' s else g' s := by
  by_cases h : c
  · simpa only [if_pos h, if_pos (hc.mp h)] using hf h
  · simpa only [if_neg h, if_neg (mt hc.mpr h)] using hg h

/-- A loop is moved with its bounds. -/
theorem Moves.forRange (h : ∀ u, lo ≤ u → u < hi → Moves off (body (d + u)) (body' u)) :
    Moves off (forRange (d + lo) (d + hi) body) (forRange lo hi body') := by
  have hcount : d + hi - (d + lo) = hi - lo := by omega
  unfold Stores.forRange
  rw [hcount]
  exact Moves.loop fun u hlo hhi => h u hlo (by omega)

theorem Moves.for_range_same (h : ∀ u, lo ≤ u → u < hi → Moves off (body u) (body' u)) :
    Moves off (Stores.forRange lo hi body) (Stores.forRange lo hi body') := by
  have hbody : ∀ u, lo ≤ u → u < hi → Moves off (body (0 + u)) (body' u) := by
    intro u hlo hhi
    rw [Int.zero_add]
    exact h u hlo hhi
  have hzero := Moves.forRange hbody
  rwa [Int.zero_add, Int.zero_add] at hzero

end Moves

section Blind

theorem blind_id : Blind id := fun _ _ h => h

theorem blind_store : Blind (Board.store a v) := fun _ _ h => congrArg (· ++ [a]) h

theorem Blind.comp (hf : Blind f) (hg : Blind g) : Blind fun s => g (f s) :=
  fun s s' h => hg _ _ (hf s s' h)

theorem Blind.ite {c : Prop} [Decidable c] (hf : Blind f) (hg : Blind g) :
    Blind fun s => if c then f s else g s := by
  by_cases hc : c
  · simpa only [if_pos hc] using hf
  · simpa only [if_neg hc] using hg

theorem Blind.loop {n : Nat} (h : ∀ u, Blind (body u)) : Blind (loop body n lo) := by
  induction n generalizing lo with
  | zero => exact blind_id
  | succ n ih => exact (h lo).comp ih

theorem Blind.forRange (h : ∀ u, Blind (body u)) : Blind (forRange lo hi body) := Blind.loop h

/-- A program that stores something cannot be itself at two displacements. -/
theorem Blind.displacement (hg : Blind g) (hf : Moves d f g) {data data' : Int → UInt8}
    (ha : a ∈ (f ⟨data, []⟩).written)
    (hsame : ((f ⟨data, []⟩).shift off).written = (g ⟨data', []⟩).written) : d = off := by
  have hmoved : ((f ⟨data, []⟩).shift d).written = (g ⟨data', []⟩).written := by
    rw [hf]
    exact hg _ _ rfl
  have hmaps := hmoved.trans hsame.symm
  change ((f ⟨data, []⟩).written).map (· - d) = ((f ⟨data, []⟩).written).map (· - off) at hmaps
  have hsub : a - d = a - off := List.map_inj_left.mp hmaps a ha
  omega

end Blind

section Maps

variable {change : Int → Int → (UInt8 → UInt8) → Prop}

theorem maps_store : Maps (fun b e => b = a ∧ e = fun _ => v) (Board.store a v) := by
  intro s b
  constructor
  · rintro e ⟨rfl, rfl⟩
    exact Function.update_self ..
  · intro hnot
    exact Function.update_of_ne (fun heq => hnot _ ⟨heq, rfl⟩) ..

/-- The same changes, described in another way. -/
theorem Maps.congr {old new : Int → (UInt8 → UInt8) → Prop} (h : Maps old f)
    (hiff : ∀ b e, old b e ↔ new b e) : Maps new f := by
  have heq : old = new := funext fun b => funext fun e => propext (hiff b e)
  exact heq ▸ h

/-- The rounds of a loop change different bytes. -/
theorem Maps.forRange (h : ∀ u, lo ≤ u → u < hi → Maps (change u) (body u))
    (hapart : ∀ u u' b e e', u ≠ u' → lo ≤ u → u < hi → lo ≤ u' → u' < hi → change u b e →
      ¬change u' b e') :
    Maps (fun b e => ∃ u, lo ≤ u ∧ u < hi ∧ change u b e) (forRange lo hi body) := by
  have hloop : ∀ (n : Nat) (lo : Int), (∀ u, lo ≤ u → u < lo + n → Maps (change u) (body u)) →
      (∀ u u' b e e', u ≠ u' → lo ≤ u → u < lo + n → lo ≤ u' → u' < lo + n → change u b e →
        ¬change u' b e') →
      Maps (fun b e => ∃ u, lo ≤ u ∧ u < lo + n ∧ change u b e) (loop body n lo) := by
    intro n
    induction n with
    | zero =>
        intro lo _ _ s b
        refine ⟨?_, fun _ => rfl⟩
        rintro e ⟨u, hlo, hhi, -⟩
        omega
    | succ n ih =>
        intro lo h hapart s b
        have hrest := ih (lo + 1) (fun u hlo hhi => h u (by omega) (by omega))
          (fun u u' b e e' hne hlo hhi hlo' hhi' => hapart u u' b e e' hne (by omega) (by omega)
            (by omega) (by omega)) (body lo s) b
        have hfirst := h lo (by omega) (by omega) s b
        constructor
        · rintro e ⟨u, hlo, hhi, hu⟩
          by_cases heq : u = lo
          · subst heq
            have hnever : ∀ e', ¬∃ u', u + 1 ≤ u' ∧ u' < u + 1 + n ∧ change u' b e' := by
              rintro e' ⟨u', hlo', hhi', hu'⟩
              exact hapart u u' b e e' (by omega) (by omega) (by omega) (by omega) (by omega) hu hu'
            exact (hrest.2 hnever).trans (hfirst.1 e hu)
          · have hbefore : ∀ e', ¬change lo b e' := fun e' hlater =>
              hapart lo u b e' e (fun h => heq h.symm) (by omega) (by omega) hlo hhi hlater hu
            have hlast := hrest.1 e ⟨u, by omega, by omega, hu⟩
            rwa [hfirst.2 hbefore] at hlast
        · intro hnot
          have hnone : ∀ e, ¬change lo b e := fun e hlo => hnot e ⟨lo, by omega, by omega, hlo⟩
          have hnever : ∀ e, ¬∃ u, lo + 1 ≤ u ∧ u < lo + 1 + n ∧ change u b e := by
            rintro e ⟨u, hlo, hhi, hu⟩
            exact hnot e ⟨u, by omega, by omega, hu⟩
          exact (hrest.2 hnever).trans (hfirst.2 hnone)
  have hall := hloop (hi - lo).toNat lo (fun u hlo hhi => h u hlo (by omega))
    fun u u' b e e' hne hlo hhi hlo' hhi' => hapart u u' b e e' hne hlo (by omega) hlo' (by omega)
  refine hall.congr fun b e => exists_congr fun u => ?_
  exact ⟨fun ⟨hlo, hhi, hu⟩ => ⟨hlo, by omega, hu⟩, fun ⟨hlo, hhi, hu⟩ => ⟨hlo, by omega, hu⟩⟩

end Maps

end Lib.Stores
