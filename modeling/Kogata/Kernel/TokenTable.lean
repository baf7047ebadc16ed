import Kogata.Common.HashtblRefines
import Kogata.Kernel.Halt
import Kogata.Lib.Run
import Mathlib.Algebra.Order.Group.Multiset

/-!
# Tokens

`gen_token_for`, `use_token` and `token_expiration_check` of `kernel/user/ipc.c`. Each of them has
`token_table_mutex` from its first access to what they share to its last, so that it is one event
here. The bytes that `use_token` is given lie in user memory, which may change under it. The clock
may tick between two reads of it.
-/

namespace Kogata.Kernel.TokenTable

open Kogata.Common Lib.Run

/-- `token_t`, of `TOKEN_LENGTH` bytes. -/
abbrev Token := Vector Int8 16

/-- `TOKEN_LIFETIME`. -/
abbrev tokenLifetime : UInt64 := 1500000

/-- `token_eq_fun` and `token_hash_fun`. -/
def tokenFuns : KeyFuns Token where
  ef := fun a b => a == b
  hf := fun t => t.toList.foldl (fun h byte => h * 101 + byte.toInt32.toUInt32) 707

instance : LawfulKeys tokenFuns := .of_beq _

/-- `token_table_entry_t`. -/
structure Entry (H : Type) where
  tok : Token
  time : UInt64
  h : H

/-- The entries by their addresses, the reference counts of the handles, and the token table. A
freed entry is `none`, and its address is not given out again. `others` is the number of
references to a handle that are not the token table's; `generated`, `used` and `expired` are the
calls that have succeeded, with the token and the handle. -/
structure State (H : Type) where
  time : UInt64
  tokenTable : Option (Hashtbl tokenFuns Nat)
  entries : Nat → Option (Entry H)
  nextEntry : Nat
  refs : H → Option Nat
  others : H → Nat
  generated : List (Token × H)
  used : List (Token × H)
  expired : List (Token × H)

/-- The answers of the `malloc`s in `gen_token_for`: in `create_hashtbl`, for the entry, and in
`hashtbl_add`. -/
structure GenAnswers where
  made : Bool
  entry : Bool
  allocated : Bool
  shrunk : Bool
  grown : Bool
  deriving DecidableEq

/-- The token as `hashtbl_find` reads it in `use_token`, and as `hashtbl_remove` does. -/
structure UseReads where
  found : Token
  removed : Token
  deriving DecidableEq

variable {H : Type} [DecidableEq H]

section Calls

/-- The keys of the table lie in the entries: these bindings can be read. -/
def State.Readable (s : State H) (bindings : List (Token × Nat)) : Prop :=
  ∀ b ∈ bindings, (s.entries b.2).isSome

instance (s : State H) (bindings : List (Token × Nat)) : Decidable (s.Readable bindings) :=
  inferInstanceAs (Decidable (∀ b ∈ bindings, (s.entries b.2).isSome))

/-- `ref_file`. -/
def State.refFile (s : State H) (h : H) : Except Halt (State H) :=
  match s.refs h with
  | none => .error .wild
  | some r => .ok { s with refs := Function.update s.refs h (some (r + 1)) }

/-- `unref_file`: a handle without references is freed. -/
def State.unrefFile (s : State H) (h : H) : Except Halt (State H) :=
  match s.refs h with
  | none => .error .wild
  | some r =>
      .ok { s with refs := Function.update s.refs h (if r - 1 = 0 then none else some (r - 1)) }

/-- `free` of an entry. -/
def State.free (s : State H) (e : Nat) : State H :=
  { s with entries := Function.update s.entries e none }

/-- The token table, which the first `gen_token_for` creates. -/
def State.createTable (s : State H) (made : Bool) : Option (Hashtbl tokenFuns Nat) :=
  match s.tokenTable with
  | some t => some t
  | none => if made then some Hashtbl.create else none

/-- `gen_token_for`; `tok` are the bytes that `prng_bytes` gives. A resized table is hashed again,
so that `hashtbl_add` may read all keys. -/
def genTokenFor (s : State H) (m : GenAnswers) (h : H) (tok : Token) :
    Except Halt (Bool × State H) :=
  match s.createTable m.made with
  | none => .ok (false, s)
  | some t =>
      let s := { s with tokenTable := some t }
      if m.entry then
        let e := s.nextEntry
        let s := { s with
          entries := Function.update s.entries e (some { tok := tok, time := s.time, h := h })
          nextEntry := e + 1 }
        if s.Readable t.iter then
          let (ok, t, _) := t.add m.allocated m.shrunk m.grown tok e
          if ok then
            match { s with tokenTable := some t }.refFile h with
            | .error halt => .error halt
            | .ok s => .ok (true, { s with generated := (tok, h) :: s.generated })
          else .ok (false, s.free e)
        else .error .wild
      else .ok (false, s)

/-- `use_token`, whose caller has the reference then. A null table is called through. -/
def useToken (s : State H) (reads : UseReads) (shrunk : Bool) :
    Except Halt (Option H × State H) :=
  match s.tokenTable with
  | none => .error .wild
  | some t =>
      if s.Readable (t.items (Hashtbl.slot tokenFuns reads.found t.size)) then
        match t.find reads.found with
        | none => .ok (none, s)
        | some e =>
            match s.entries e with
            | none => .error .wild
            | some x =>
                if s.Readable t.iter then
                  .ok (some x.h, { s.free e with
                    tokenTable := some (t.remove shrunk reads.removed).1
                    others := Function.update s.others x.h (s.others x.h + 1)
                    used := (reads.found, x.h) :: s.used })
                else .error .wild
      else .error .wild

/-- `hashtbl_iter` with `_find_expired_token`; `now` is the clock as it is read for an entry. -/
def findExpiredToken (s : State H) (now : Nat → UInt64) :
    List (Token × Nat) → Option Nat → Except Halt (Option Nat)
  | [], expiredToken => .ok expiredToken
  | b :: rest, expiredToken =>
      match s.entries b.2 with
      | none => .error .wild
      | some x =>
          findExpiredToken s now rest
            (if x.time + tokenLifetime < now b.2 then some b.2 else expiredToken)

/-- The loop of `token_expiration_check`; `clock` is the clock in each of its turns. -/
def expirationLoop (clock : Nat → Nat → UInt64) (shrunk : Nat → Bool) :
    Nat → State H → Except Halt (State H)
  | 0, _ => .error .diverge
  | turns + 1, s =>
      match s.tokenTable with
      | none => .error .wild
      | some t =>
          match findExpiredToken s (clock turns) t.iter none with
          | .error halt => .error halt
          | .ok none => .ok s
          | .ok (some e) =>
              match s.entries e with
              | none => .error .wild
              | some x =>
                  match { s with
                    tokenTable := some (t.remove (shrunk turns) x.tok).1 }.unrefFile x.h with
                  | .error halt => .error halt
                  | .ok s =>
                      expirationLoop clock shrunk turns
                        { s.free e with expired := (x.tok, x.h) :: s.expired }

/-- `token_expiration_check`. The loop has a turn for each entry and one more, if it has to. -/
def tokenExpirationCheck (s : State H) (clock : Nat → Nat → UInt64) (shrunk : Nat → Bool) :
    Except Halt (State H) :=
  match s.tokenTable with
  | none => .error .wild
  | some t => expirationLoop clock shrunk (t.count + 1) s

end Calls

/-- What may happen next. The last three are the doing of those who have handles. -/
inductive Event (H : Type) where
  | tick
  | gen (m : GenAnswers) (h : H) (tok : Token)
  | use (reads : UseReads) (shrunk : Bool)
  | expire (clock : Nat → Nat → UInt64) (shrunk : Nat → Bool)
  | openFile (h : H)
  | refFile (h : H)
  | unrefFile (h : H)

/-- The state after an event. -/
def step (s : State H) : Event H → Except Halt (State H)
  | .tick => .ok { s with time := s.time + 1000000 / 100 }
  | .gen m h tok => (genTokenFor s m h tok).map Prod.snd
  | .use reads shrunk => (useToken s reads shrunk).map Prod.snd
  | .expire clock shrunk => tokenExpirationCheck s clock shrunk
  | .openFile h =>
      if (s.refs h).isSome then .ok s
      else .ok { s with
        refs := Function.update s.refs h (some 1)
        others := Function.update s.others h 1 }
  | .refFile h =>
      { s with others := Function.update s.others h (s.others h + 1) }.refFile h
  | .unrefFile h =>
      { s with others := Function.update s.others h (s.others h - 1) }.unrefFile h

/-- The state after the start of the machine. -/
def boot : State H where
  time := 0
  tokenTable := none
  entries := fun _ => none
  nextEntry := 0
  refs := fun _ => none
  others := fun _ => 0
  generated := []
  used := []
  expired := []

/-- The runs in which every event is allowed where it happens. -/
abbrev tokenRuns (allowed : State H → Event H → Prop) : System (State H) :=
  eventRuns (fun s => s = boot) (fun s event => (step s event).toOption) allowed

/-- `use_token` reads the same bytes twice. -/
def ReadsOnce : Event H → Prop
  | .use reads _ => reads.removed = reads.found
  | _ => True

/-- The bindings of the token table. -/
def State.bindings (s : State H) : List (Token × Nat) :=
  match s.tokenTable with
  | none => []
  | some t => t.iter

/-- The tokens of bindings, with the handles of their entries. -/
def tokensOf (entries : Nat → Option (Entry H)) (bindings : List (Token × Nat)) :
    List (Token × H) :=
  bindings.filterMap fun b => (entries b.2).map fun x => (x.tok, x.h)

/-- The live tokens. -/
def State.live (s : State H) : List (Token × H) :=
  tokensOf s.entries s.bindings

/-- Every binding has an entry of its own, with the token that is its key. -/
structure State.Sound (s : State H) : Prop where
  formed : ∀ t, s.tokenTable = some t → WellFormed t
  entry : ∀ b ∈ s.bindings, ∃ x, s.entries b.2 = some x ∧ x.tok = b.1
  once : (s.bindings.map Prod.snd).Nodup
  fresh : ∀ e, s.nextEntry ≤ e → s.entries e = none

/-- Every token that was generated is live, used or expired; a live token has a reference to its
handle; and no entry is out of the table. -/
structure State.Exact (s : State H) : Prop where
  tokens : (s.generated.map Prod.fst).Nodup
  ledger : s.generated.Perm (s.live ++ s.used ++ s.expired)
  refs : ∀ h, (s.refs h).getD 0 = s.others h + s.live.countP fun x => x.2 = h
  alive : ∀ h, s.refs h ≠ some 0
  kept : ∀ e x, s.entries e = some x → (x.tok, e) ∈ s.bindings

/-- The same account where the bytes of a token may come again. -/
structure State.Accounted (s : State H) : Prop where
  ledger : s.generated.Perm (s.live ++ s.used ++ s.expired)
  refs : ∀ h, (s.refs h).getD 0 = s.others h + s.live.countP fun x => x.2 = h
  alive : ∀ h, s.refs h ≠ some 0
  kept : ∀ e x, s.entries e = some x → (x.tok, e) ∈ s.bindings

section Bindings

variable {entries : Nat → Option (Entry H)} {bindings : List (Token × Nat)}

omit [DecidableEq H] in
/-- What happens to other entries does not matter. -/
theorem tokens_of_update {e : Nat} (he : ∀ b ∈ bindings, b.2 ≠ e) (x : Option (Entry H)) :
    tokensOf (Function.update entries e x) bindings = tokensOf entries bindings := by
  refine List.filterMap_congr fun b hb => ?_
  rw [Function.update_of_ne (he b hb)]

omit [DecidableEq H] in
theorem mem_tokens_of {x : Token × H} :
    x ∈ tokensOf entries bindings ↔
      ∃ b ∈ bindings, ∃ y, entries b.2 = some y ∧ (y.tok, y.h) = x := by
  simp [tokensOf]

/-- Of bindings with distinct keys, one has the key, and the others are those without it. -/
theorem perm_cons_filter {b : Token × Nat} (hdistinct : Distinct tokenFuns bindings)
    (hb : b ∈ bindings) :
    bindings.Perm (b :: bindings.filter fun c => !tokenFuns.ef c.1 b.1) := by
  induction bindings with
  | nil => cases hb
  | cons c rest ih =>
      obtain ⟨hhead, hrest⟩ := List.pairwise_cons.mp hdistinct
      rcases List.mem_cons.mp hb with rfl | hmem
      · have hself : rest.filter (fun c => !tokenFuns.ef c.1 b.1) = rest := by
          refine List.filter_eq_self.mpr fun c hc => ?_
          rw [ef_comm, hhead c hc]
          rfl
        rw [List.filter_cons_of_neg (by simp [LawfulKeys.refl]), hself]
      · rw [List.filter_cons_of_pos (by simp [hhead b hmem])]
        exact ((ih hrest hmem).cons c).trans (.swap b c _)

omit [DecidableEq H] in
theorem ef_iff {a b : Token} : tokenFuns.ef a b = true ↔ a = b :=
  beq_iff_eq

end Bindings

section Table

variable {s : State H} {t : Hashtbl tokenFuns Nat}

omit [DecidableEq H]

theorem bindings_some (ht : s.tokenTable = some t) : s.bindings = t.iter := by
  unfold State.bindings
  rw [ht]

/-- What `hashtbl_find` finds is bound to the token. -/
theorem State.Sound.find_mem (h : s.Sound) (ht : s.tokenTable = some t) {tok : Token} {e : Nat}
    (hfind : t.find tok = some e) : (tok, e) ∈ s.bindings := by
  obtain ⟨b, hb, hef, rfl⟩ := (find_iff (h.formed t ht) tok e).mp hfind
  obtain rfl : b.1 = tok := ef_iff.mp hef
  rw [bindings_some ht]
  exact hb

/-- A bound token is found. -/
theorem State.Sound.find_of_mem (h : s.Sound) (ht : s.tokenTable = some t) {tok : Token} {e : Nat}
    (hmem : (tok, e) ∈ s.bindings) : t.find tok = some e := by
  rw [bindings_some ht] at hmem
  exact (find_iff (h.formed t ht) tok e).mpr ⟨(tok, e), hmem, ef_iff.mpr rfl, rfl⟩

/-- Every part of the table can be read. -/
theorem State.Sound.readable (h : s.Sound) {bindings : List (Token × Nat)}
    (hsub : bindings ⊆ s.bindings) : s.Readable bindings := fun b hb => by
  obtain ⟨x, hx, -⟩ := h.entry b (hsub hb)
  rw [hx]
  rfl

/-- The chain of a token is a part of the table. -/
theorem State.Sound.chain_subset (h : s.Sound) (ht : s.tokenTable = some t) (tok : Token) :
    t.items (Hashtbl.slot tokenFuns tok t.size) ⊆ s.bindings := fun b hb => by
  rw [bindings_some ht]
  exact mem_iter.mpr ⟨_, slot_lt tokenFuns tok (h.formed t ht).size_pos, hb⟩

/-- A token and its entry are taken out of the table, and the entry is freed. -/
theorem State.Sound.take (h : s.Sound) (ht : s.tokenTable = some t) {tok : Token} {e : Nat}
    {x : Entry H} (hmem : (tok, e) ∈ s.bindings) (hx : s.entries e = some x) (shrunk : Bool)
    (s' : State H) (htable : s'.tokenTable = some (t.remove shrunk tok).1)
    (hentries : s'.entries = Function.update s.entries e none)
    (hnext : s'.nextEntry = s.nextEntry) :
    s'.Sound ∧ s.live.Perm ((tok, x.h) :: s'.live) ∧
      (∀ b, b ∈ s'.bindings ↔ b ∈ s.bindings ∧ b.1 ≠ tok) ∧
        s.bindings.length = s'.bindings.length + 1 := by
  have hformed := h.formed t ht
  obtain ⟨hremoved, hperm, -⟩ := remove_spec hformed shrunk tok
  have hiter := bindings_some ht
  have hsplit := perm_cons_filter hformed.distinct (hiter ▸ hmem)
  have hrest := bindings_some htable
  have hmem' : ∀ b, b ∈ s'.bindings ↔ b ∈ s.bindings ∧ b.1 ≠ tok := fun b => by
    rw [hrest, hperm.mem_iff, List.mem_filter, hiter, Bool.not_eq_true', ← Bool.not_eq_true, ef_iff]
  have hnodup : ((e :: s'.bindings.map Prod.snd)).Nodup := by
    have hall := (hsplit.map Prod.snd).nodup (hiter ▸ h.once)
    refine List.Perm.nodup ?_ hall
    rw [hrest]
    exact (hperm.symm.map Prod.snd).cons e
  obtain ⟨hout, honce⟩ := List.nodup_cons.mp hnodup
  have hother : ∀ b ∈ s'.bindings, b.2 ≠ e := fun b hb heq =>
    hout (List.mem_map.mpr ⟨b, hb, heq⟩)
  refine ⟨⟨fun t' ht' => ?_, fun b hb => ?_, honce, fun e' he' => ?_⟩, ?_, hmem', ?_⟩
  · rw [htable] at ht'
    cases ht'
    exact hremoved
  · rw [hentries, Function.update_of_ne (hother b hb)]
    exact h.entry b ((hmem' b).mp hb).1
  · rw [hentries]
    by_cases heq : e' = e
    · rw [heq, Function.update_self]
    · rw [Function.update_of_ne heq]
      exact h.fresh e' (hnext ▸ he')
  · have htok : x.tok = tok := by
      obtain ⟨y, hy, heq⟩ := h.entry _ hmem
      rw [hx] at hy
      cases hy
      exact heq
    have hlive : s'.live = tokensOf s.entries s'.bindings := by
      unfold State.live
      rw [hentries]
      exact tokens_of_update hother none
    have hall : s.live.Perm (tokensOf s.entries ((tok, e) :: s'.bindings)) := by
      unfold State.live
      refine List.Perm.filterMap _ ?_
      rw [hiter, hrest]
      exact hsplit.trans (hperm.symm.cons _)
    rw [hlive]
    refine hall.trans (.of_eq ?_)
    unfold tokensOf
    rw [List.filterMap_cons_some (b := (tok, x.h)) (by simp [hx, htok])]
  · rw [hiter, hrest, hsplit.length_eq, List.length_cons, hperm.length_eq]

/-- A token and its new entry are put into the table. -/
theorem State.Sound.put (h : s.Sound) (hformed : WellFormed t) (hiter : t.iter = s.bindings)
    {tok : Token} {x : Entry H} (htok : x.tok = tok) (shrunk grown : Bool)
    (s' : State H) (htable : s'.tokenTable = some (t.add true shrunk grown tok s.nextEntry).2.1)
    (hentries : s'.entries = Function.update s.entries s.nextEntry (some x))
    (hnext : s'.nextEntry = s.nextEntry + 1) :
    s'.Sound ∧ ((∀ b ∈ s.bindings, b.1 ≠ tok) → s'.live.Perm ((tok, x.h) :: s.live) ∧
      ∀ b, b ∈ s'.bindings ↔ b = (tok, s.nextEntry) ∨ b ∈ s.bindings) := by
  obtain ⟨hadded, hperm, -⟩ := add_spec hformed shrunk grown tok s.nextEntry
  have hrest := bindings_some htable
  have hsub : ∀ b ∈ s'.bindings, b = (tok, s.nextEntry) ∨ b ∈ s.bindings := fun b hb => by
    rw [hrest] at hb
    rcases List.mem_cons.mp (hperm.subset hb) with rfl | hold
    · exact .inl rfl
    · rw [← hiter]
      exact .inr (List.mem_filter.mp hold).1
  have hold : ∀ b ∈ s.bindings, b.2 ≠ s.nextEntry := fun b hb heq => by
    obtain ⟨y, hy, -⟩ := h.entry b hb
    rw [h.fresh b.2 (by omega)] at hy
    cases hy
  have hnodup : (s'.bindings.map Prod.snd).Nodup := by
    rw [hrest]
    refine (hperm.map Prod.snd).symm.nodup (List.nodup_cons.mpr ⟨fun hmem => ?_, ?_⟩)
    · obtain ⟨b, hb, heq⟩ := List.mem_map.mp hmem
      exact hold b (hiter ▸ (List.mem_filter.mp hb).1) heq
    · rw [hiter]
      exact (List.filter_sublist.map Prod.snd).nodup h.once
  refine ⟨⟨fun t' ht' => ?_, fun b hb => ?_, hnodup, fun e he => ?_⟩, fun hnew => ?_⟩
  · rw [htable] at ht'
    cases ht'
    exact hadded
  · rw [hentries]
    rcases hsub b hb with rfl | hmem
    · exact ⟨x, Function.update_self .., htok⟩
    · rw [Function.update_of_ne (hold b hmem)]
      exact h.entry b hmem
  · rw [hnext] at he
    rw [hentries, Function.update_of_ne (by omega)]
    exact h.fresh e (by omega)
  · have hself : t.iter.filter (fun b => !tokenFuns.ef b.1 tok) = s.bindings := by
      rw [hiter]
      refine List.filter_eq_self.mpr fun b hb => ?_
      rw [Bool.not_eq_true', ← Bool.not_eq_true, ef_iff]
      exact hnew b hb
    rw [hself] at hperm
    refine ⟨?_, fun b => ?_⟩
    · unfold State.live
      rw [hrest, hentries]
      refine (hperm.filterMap _).trans (.of_eq ?_)
      rw [List.filterMap_cons_some (b := (tok, x.h))
        (by rw [Function.update_self, ← htok]; rfl)]
      exact congrArg _ (tokens_of_update hold (some x))
    · rw [hrest, hperm.mem_iff, List.mem_cons]

end Table

section Generate

variable {s s' : State H} {t : Hashtbl tokenFuns Nat}

omit [DecidableEq H] in
/-- The table that `gen_token_for` works on holds what the table held before. -/
theorem State.Sound.create_table (hs : s.Sound) {made : Bool} (ht : s.createTable made = some t) :
    WellFormed t ∧ t.iter = s.bindings := by
  unfold State.createTable at ht
  cases htable : s.tokenTable with
  | some t' =>
      rw [htable] at ht
      cases ht
      exact ⟨hs.formed t htable, (bindings_some htable).symm⟩
  | none =>
      rw [htable] at ht
      cases made with
      | false => cases ht
      | true =>
          cases ht
          refine ⟨create_well_formed, ?_⟩
          unfold State.bindings
          rw [htable]
          exact create_iter

/-- A `gen_token_for` that has failed has created the table at the most. -/
structure GenFailed (s s' : State H) : Prop where
  formed : ∀ t, s'.tokenTable = some t → WellFormed t
  bindings : s'.bindings = s.bindings
  next : s.nextEntry ≤ s'.nextEntry
  same : s' = { s with tokenTable := s'.tokenTable, nextEntry := s'.nextEntry }

omit [DecidableEq H] in
theorem GenFailed.sound (h : GenFailed s s') (hs : s.Sound) : s'.Sound := by
  have hentries : s'.entries = s.entries := by rw [h.same]
  refine ⟨h.formed, fun b hb => ?_, ?_, fun e he => ?_⟩
  · rw [hentries]
    exact hs.entry b (h.bindings ▸ hb)
  · rw [h.bindings]
    exact hs.once
  · rw [hentries]
    exact hs.fresh e (Nat.le_trans h.next he)

/-- A `gen_token_for` that has succeeded. -/
structure Generated (s : State H) (h : H) (tok : Token) (r : Nat) (s' : State H) : Prop where
  sound : s'.Sound
  put : (∀ b ∈ s.bindings, b.1 ≠ tok) → s'.live.Perm ((tok, h) :: s.live) ∧
    (∀ b, b ∈ s'.bindings ↔ b = (tok, s.nextEntry) ∨ b ∈ s.bindings) ∧
      s'.entries = Function.update s.entries s.nextEntry (some ⟨tok, s.time, h⟩)
  refs : s'.refs = Function.update s.refs h (some (r + 1))
  others : s'.others = s.others
  generated : s'.generated = (tok, h) :: s.generated
  used : s'.used = s.used
  expired : s'.expired = s.expired

/-- What `gen_token_for` comes to. -/
theorem gen_token_for_cases (hs : s.Sound) (m : GenAnswers) (h : H) (tok : Token) :
    (∃ s', genTokenFor s m h tok = .ok (false, s') ∧ GenFailed s s') ∨
      (s.refs h = none ∧ genTokenFor s m h tok = .error .wild) ∨
        ∃ r s', s.refs h = some r ∧ genTokenFor s m h tok = .ok (true, s') ∧
          Generated s h tok r s' := by
  unfold genTokenFor
  cases hcreate : s.createTable m.made with
  | none =>
      exact .inl ⟨s, rfl, fun t => hs.formed t, rfl, Nat.le_refl _, rfl⟩
  | some t =>
      obtain ⟨hformed, hiter⟩ := hs.create_table hcreate
      cases hentry : m.entry with
      | false =>
          refine .inl ⟨{ s with tokenTable := some t }, rfl, fun t' ht' => ?_, hiter,
            Nat.le_refl _, rfl⟩
          cases ht'
          exact hformed
      | true =>
          have hold : ∀ b ∈ t.iter, b.2 ≠ s.nextEntry := fun b hb heq => by
            obtain ⟨y, hy, -⟩ := hs.entry b (hiter ▸ hb)
            rw [hs.fresh b.2 (by omega)] at hy
            cases hy
          have hreadable : State.Readable { s with
              tokenTable := some t
              entries := Function.update s.entries s.nextEntry (some ⟨tok, s.time, h⟩)
              nextEntry := s.nextEntry + 1 } t.iter := fun b hb => by
            show (Function.update s.entries _ _ b.2).isSome
            rw [Function.update_of_ne (hold b hb)]
            exact hs.readable (fun _ hmem => hiter ▸ hmem) b hb
          simp only [if_true, if_pos hreadable]
          cases hallocated : m.allocated with
          | false =>
              have hback : Function.update (Function.update s.entries s.nextEntry
                  (some ⟨tok, s.time, h⟩)) s.nextEntry none = s.entries := by
                rw [Function.update_idem]
                exact Function.update_eq_self_iff.mpr (hs.fresh s.nextEntry (Nat.le_refl _)).symm
              refine .inl ⟨{ s with tokenTable := some t, nextEntry := s.nextEntry + 1 }, ?_,
                fun t' ht' => ?_, hiter, Nat.le_succ _, rfl⟩
              · show Except.ok (false, State.free _ _) = _
                unfold State.free
                simp only [hback]
              · cases ht'
                exact hformed
          | true =>
              refine .inr ?_
              cases hrefs : s.refs h with
              | none =>
                  refine .inl ⟨rfl, ?_⟩
                  simp [Hashtbl.add, State.refFile, hrefs]
              | some r =>
                  obtain ⟨hsound, hput⟩ := hs.put hformed hiter
                    (x := ⟨tok, s.time, h⟩) rfl m.shrunk m.grown
                    { s with
                      tokenTable := some (t.add true m.shrunk m.grown tok s.nextEntry).2.1
                      entries := Function.update s.entries s.nextEntry (some ⟨tok, s.time, h⟩)
                      nextEntry := s.nextEntry + 1
                      refs := Function.update s.refs h (some (r + 1))
                      generated := (tok, h) :: s.generated } rfl rfl rfl
                  refine .inr ⟨r, _, rfl, ?_, hsound, fun hnew => ?_, rfl, rfl, rfl, rfl, rfl⟩
                  · simp [Hashtbl.add, State.refFile, hrefs]
                  · obtain ⟨hlive, hmem⟩ := hput hnew
                    exact ⟨hlive, hmem, rfl⟩

end Generate

section Use

variable {s s' : State H} {t : Hashtbl tokenFuns Nat}

/-- A live token with its entry has gone out of the table. -/
structure Taken (s : State H) (tok : Token) (e : Nat) (x : Entry H) (s' : State H) : Prop where
  sound : s'.Sound
  live : s.live.Perm ((tok, x.h) :: s'.live)
  bindings : ∀ b, b ∈ s'.bindings ↔ b ∈ s.bindings ∧ b.1 ≠ tok
  length : s.bindings.length = s'.bindings.length + 1
  entries : s'.entries = Function.update s.entries e none
  generated : s'.generated = s.generated

omit [DecidableEq H] in
/-- A token without a binding is not found. -/
theorem State.Sound.find_none (hs : s.Sound) (ht : s.tokenTable = some t) {tok : Token}
    (hnone : ∀ b ∈ s.bindings, b.1 ≠ tok) : t.find tok = none := by
  cases hfind : t.find tok with
  | none => rfl
  | some e => exact absurd rfl (hnone _ (hs.find_mem ht hfind))

/-- `use_token` of a token that is not live. -/
theorem use_token_none (hs : s.Sound) (ht : s.tokenTable = some t) {reads : UseReads}
    (hnone : ∀ b ∈ s.bindings, b.1 ≠ reads.found) (shrunk : Bool) :
    useToken s reads shrunk = .ok (none, s) := by
  unfold useToken
  simp only [ht, if_pos (hs.readable (hs.chain_subset ht reads.found)), hs.find_none ht hnone]

/-- `use_token` of a live token gives the handle of its entry, which goes out of the table. -/
theorem use_token_some (reads : UseReads) (hs : s.Sound) (ht : s.tokenTable = some t)
    (honce : reads.removed = reads.found) {e : Nat} {x : Entry H}
    (hmem : (reads.found, e) ∈ s.bindings) (hx : s.entries e = some x) (shrunk : Bool) :
    ∃ s', useToken s reads shrunk = .ok (some x.h, s') ∧ Taken s reads.found e x s' ∧
      s'.refs = s.refs ∧ s'.others = Function.update s.others x.h (s.others x.h + 1) ∧
        s'.used = (reads.found, x.h) :: s.used ∧ s'.expired = s.expired := by
  have hreadable : s.Readable t.iter := hs.readable fun b hb => by
    rw [bindings_some ht]
    exact hb
  have hrun : useToken s reads shrunk = .ok (some x.h, { s.free e with
      tokenTable := some (t.remove shrunk reads.found).1
      others := Function.update s.others x.h (s.others x.h + 1)
      used := (reads.found, x.h) :: s.used }) := by
    unfold useToken
    simp only [ht, if_pos (hs.readable (hs.chain_subset ht reads.found)),
      hs.find_of_mem ht hmem, hx, if_pos hreadable, honce]
  obtain ⟨hsound, hlive, hbindings, hlength⟩ := hs.take ht hmem hx shrunk
    { s.free e with
      tokenTable := some (t.remove shrunk reads.found).1
      others := Function.update s.others x.h (s.others x.h + 1)
      used := (reads.found, x.h) :: s.used } rfl rfl rfl
  exact ⟨_, hrun, ⟨hsound, hlive, hbindings, hlength, rfl, rfl⟩, rfl, rfl, rfl, rfl⟩

end Use

section Expire

variable {s s' : State H} {t : Hashtbl tokenFuns Nat}

omit [DecidableEq H] in
/-- `hashtbl_iter` comes through, and leaves in `expired_token` an entry of the table or what was
there. -/
theorem find_expired_token_spec (hs : s.Sound) (now : Nat → UInt64)
    {bindings : List (Token × Nat)} (hsub : bindings ⊆ s.bindings) (expired : Option Nat) :
    ∃ result, findExpiredToken s now bindings expired = .ok result ∧
      (result = expired ∨ ∃ b ∈ bindings, result = some b.2) := by
  induction bindings generalizing expired with
  | nil => exact ⟨expired, rfl, .inl rfl⟩
  | cons b rest ih =>
      obtain ⟨x, hx, -⟩ := hs.entry b (hsub List.mem_cons_self)
      unfold findExpiredToken
      simp only [hx]
      obtain ⟨result, hrun, hresult⟩ := ih (fun c hc => hsub (List.mem_cons_of_mem b hc))
        (if x.time + tokenLifetime < now b.2 then some b.2 else expired)
      refine ⟨result, hrun, ?_⟩
      rcases hresult with hsame | ⟨c, hc, hfound⟩
      · split at hsame
        · exact .inr ⟨b, List.mem_cons_self, hsame⟩
        · exact .inl hsame
      · exact .inr ⟨c, List.mem_cons_of_mem b hc, hfound⟩

/-- A turn of the loop that drops a token. -/
structure Dropped (s : State H) (tok : Token) (e : Nat) (x : Entry H) (r : Nat) (s' : State H) :
    Prop extends Taken s tok e x s' where
  refs : s'.refs = Function.update s.refs x.h (if r - 1 = 0 then none else some (r - 1))
  others : s'.others = s.others
  used : s'.used = s.used
  expired : s'.expired = (tok, x.h) :: s.expired

/-- A turn of the loop of `token_expiration_check`: it ends, or drops a live token and goes on. -/
theorem expiration_loop_succ (hs : s.Sound) (ht : s.tokenTable = some t)
    (clock : Nat → Nat → UInt64) (shrunk : Nat → Bool) (turns : Nat) :
    expirationLoop clock shrunk (turns + 1) s = .ok s ∨
      ∃ tok e x, (tok, e) ∈ s.bindings ∧ s.entries e = some x ∧
        (s.refs x.h = none ∧ expirationLoop clock shrunk (turns + 1) s = .error .wild ∨
          ∃ r s', s.refs x.h = some r ∧ Dropped s tok e x r s' ∧
            s'.tokenTable = some (t.remove (shrunk turns) tok).1 ∧
            expirationLoop clock shrunk (turns + 1) s = expirationLoop clock shrunk turns s') := by
  obtain ⟨result, hrun, hresult⟩ := find_expired_token_spec hs (clock turns)
    (fun b hb => (bindings_some ht) ▸ hb : t.iter ⊆ s.bindings) none
  cases result with
  | none =>
      refine .inl ?_
      simp only [expirationLoop, ht, hrun]
  | some e =>
      rcases hresult with hnone | ⟨b, hb, hfound⟩
      · cases hnone
      · obtain rfl : e = b.2 := Option.some.inj hfound
        rw [← bindings_some ht] at hb
        obtain ⟨x, hx, htok⟩ := hs.entry b hb
        refine .inr ⟨b.1, b.2, x, hb, hx, ?_⟩
        cases hrefs : s.refs x.h with
        | none =>
            refine .inl ⟨rfl, ?_⟩
            simp only [expirationLoop, ht, hrun, hx, State.unrefFile, hrefs]
        | some r =>
            obtain ⟨hsound, hlive, hbindings, hlength⟩ := hs.take ht hb hx (shrunk turns)
              { s.free b.2 with
                tokenTable := some (t.remove (shrunk turns) b.1).1
                refs := Function.update s.refs x.h (if r - 1 = 0 then none else some (r - 1))
                expired := (b.1, x.h) :: s.expired } rfl rfl rfl
            refine .inr ⟨r, _, rfl, ⟨⟨hsound, hlive, hbindings, hlength, rfl, rfl⟩, rfl, rfl, rfl,
              rfl⟩, rfl, ?_⟩
            simp only [expirationLoop, ht, hrun, hx, State.unrefFile, hrefs, htok]
            rfl

end Expire

section Account

variable {s s' : State H} {tok : Token} {e r : Nat} {x : Entry H}

omit [DecidableEq H] in
/-- Two bindings of one token are the same. -/
theorem State.Sound.binding_unique (hs : s.Sound) {e' : Nat} (h : (tok, e) ∈ s.bindings)
    (h' : (tok, e') ∈ s.bindings) : e' = e := by
  cases ht : s.tokenTable with
  | none =>
      unfold State.bindings at h
      rw [ht] at h
      cases h
  | some t =>
      have hfind := hs.find_of_mem ht h
      rw [hs.find_of_mem ht h'] at hfind
      exact Option.some.inj hfind

omit [DecidableEq H] in
/-- The entries that are left belong to the bindings that are left. -/
theorem Taken.kept (h : Taken s tok e x s') (hs : s.Sound) (hmem : (tok, e) ∈ s.bindings)
    (hkept : ∀ e x, s.entries e = some x → (x.tok, e) ∈ s.bindings) (e' : Nat) (x' : Entry H)
    (hx' : s'.entries e' = some x') : (x'.tok, e') ∈ s'.bindings := by
  rw [h.entries] at hx'
  have hne : e' ≠ e := by
    rintro rfl
    rw [Function.update_self] at hx'
    cases hx'
  rw [Function.update_of_ne hne] at hx'
  refine (h.bindings _).mpr ⟨hkept e' x' hx', ?_⟩
  rintro rfl
  exact hne (hs.binding_unique hmem (hkept e' x' hx'))

/-- The live tokens of a handle, before and after one is taken. -/
theorem Taken.count (h : Taken s tok e x s') (k : H) :
    s.live.countP (fun y => y.2 = k) =
      s'.live.countP (fun y => y.2 = k) + if x.h = k then 1 else 0 := by
  rw [h.live.countP_eq, List.countP_cons]
  simp

/-- A token that is used goes with its reference. -/
theorem State.Accounted.use (hacc : s.Accounted) (hs : s.Sound) (hmem : (tok, e) ∈ s.bindings)
    (htaken : Taken s tok e x s') (hrefs : s'.refs = s.refs)
    (hothers : s'.others = Function.update s.others x.h (s.others x.h + 1))
    (hused : s'.used = (tok, x.h) :: s.used) (hexpired : s'.expired = s.expired) :
    s'.Accounted where
  ledger := by
    rw [htaken.generated, hused, hexpired]
    refine hacc.ledger.trans (((htaken.live.append_right _).trans ?_).append_right _)
    exact List.perm_middle.symm
  refs := fun k => by
    have hcount := htaken.count k
    rw [hrefs, hacc.refs k, hcount, hothers]
    by_cases hk : k = x.h
    · rw [hk, Function.update_self, if_pos rfl]
      omega
    · rw [Function.update_of_ne hk, if_neg fun heq => hk heq.symm]
      omega
  alive := fun k => by
    rw [hrefs]
    exact hacc.alive k
  kept := htaken.kept hs hmem hacc.kept

/-- A token that expires drops its reference. -/
theorem State.Accounted.drop (hacc : s.Accounted) (hs : s.Sound)
    (hmem : (tok, e) ∈ s.bindings) (hr : s.refs x.h = some r)
    (hdropped : Dropped s tok e x r s') : s'.Accounted where
  ledger := by
    rw [hdropped.generated, hdropped.used, hdropped.expired]
    refine hacc.ledger.trans (((hdropped.live.append_right _).append_right _).trans ?_)
    exact List.perm_middle.symm
  refs := fun k => by
    have hcount := hdropped.count k
    have hold := hacc.refs k
    rw [hcount] at hold
    rw [hdropped.refs, hdropped.others]
    by_cases hk : k = x.h
    · subst hk
      rw [Function.update_self]
      rw [hr, Option.getD_some, if_pos rfl] at hold
      split
      · rw [Option.getD_none]
        omega
      · rw [Option.getD_some]
        omega
    · rw [Function.update_of_ne hk, hold, if_neg fun heq => hk heq.symm]
      omega
  alive := fun k => by
    rw [hdropped.refs]
    by_cases hk : k = x.h
    · rw [hk, Function.update_self]
      split
      · exact fun hnone => by cases hnone
      · next hne => exact fun hzero => hne (Option.some.inj hzero)
    · rw [Function.update_of_ne hk]
      exact hacc.alive k
  kept := hdropped.kept hs hmem hacc.kept

/-- The handle of a live token has not been freed. -/
theorem State.Accounted.handle_alive (hacc : s.Accounted) (hmem : (tok, e) ∈ s.bindings)
    (hx : s.entries e = some x) : s.refs x.h ≠ none := by
  intro hnone
  have hcount : 0 < s.live.countP fun y => y.2 = x.h := by
    refine List.countP_pos_iff.mpr ⟨(x.tok, x.h), ?_, by simp⟩
    exact mem_tokens_of.mpr ⟨(tok, e), hmem, x, hx, rfl⟩
  have hrefs := hacc.refs x.h
  rw [hnone, Option.getD_none] at hrefs
  omega

/-- A token that is generated has a reference of its own. -/
theorem State.Accounted.generate (hacc : s.Accounted) {h : H} (hr : s.refs h = some r)
    (hnew : ∀ b ∈ s.bindings, b.1 ≠ tok) (hgen : Generated s h tok r s') : s'.Accounted := by
  obtain ⟨hlive, hbindings, hentries⟩ := hgen.put hnew
  refine ⟨?_, fun k => ?_, fun k => ?_, fun e' x' hx' => ?_⟩
  · rw [hgen.generated, hgen.used, hgen.expired]
    exact (hacc.ledger.cons _).trans ((hlive.symm.append_right _).append_right _)
  · have hold := hacc.refs k
    rw [hgen.refs, hgen.others, hlive.countP_eq, List.countP_cons]
    by_cases hk : k = h
    · subst hk
      rw [hr, Option.getD_some] at hold
      simp only [Function.update_self, Option.getD_some, decide_true, if_true]
      omega
    · have hne : ¬ h = k := fun heq => hk heq.symm
      simp only [Function.update_of_ne hk, hold, decide_eq_true_eq, if_neg hne]
      rfl
  · rw [hgen.refs]
    by_cases hk : k = h
    · rw [hk, Function.update_self]
      exact fun hzero => by cases hzero
    · rw [Function.update_of_ne hk]
      exact hacc.alive k
  · rw [hentries] at hx'
    by_cases heq : e' = s.nextEntry
    · subst heq
      rw [Function.update_self] at hx'
      cases hx'
      exact (hbindings _).mpr (.inl rfl)
    · rw [Function.update_of_ne heq] at hx'
      exact (hbindings _).mpr (.inr (hacc.kept e' x' hx'))

/-- A `gen_token_for` that fails leaves the tokens as they were. -/
theorem GenFailed.accounted (h : GenFailed s s') (hacc : s.Accounted) : s'.Accounted := by
  have hlive : s'.live = s.live := by
    unfold State.live
    rw [h.bindings, h.same]
  have hbindings := h.bindings
  rw [h.same] at hlive hbindings ⊢
  refine ⟨?_, fun k => ?_, hacc.alive, fun e x hx => ?_⟩
  · rw [hlive]
    exact hacc.ledger
  · rw [hlive]
    exact hacc.refs k
  · rw [hbindings]
    exact hacc.kept e x hx

end Account

section Events

variable {s s' : State H}

omit [DecidableEq H] in
/-- What the calls do not touch of the token table. -/
theorem State.Sound.of_same (hs : s.Sound) (htable : s'.tokenTable = s.tokenTable)
    (hentries : s'.entries = s.entries) (hnext : s'.nextEntry = s.nextEntry) : s'.Sound := by
  have hbindings : s'.bindings = s.bindings := by
    unfold State.bindings
    rw [htable]
  refine ⟨fun t ht => hs.formed t (htable ▸ ht), fun b hb => ?_, ?_, fun e he => ?_⟩
  · rw [hentries]
    exact hs.entry b (hbindings ▸ hb)
  · rw [hbindings]
    exact hs.once
  · rw [hentries]
    exact hs.fresh e (hnext ▸ he)

/-- The loop of `token_expiration_check` keeps the table sound. -/
theorem expiration_loop_sound (clock : Nat → Nat → UInt64) (shrunk : Nat → Bool) (turns : Nat)
    (hs : s.Sound) (hrun : expirationLoop clock shrunk turns s = .ok s') : s'.Sound := by
  induction turns generalizing s with
  | zero => cases hrun
  | succ turns ih =>
      cases ht : s.tokenTable with
      | none =>
          unfold expirationLoop at hrun
          rw [ht] at hrun
          cases hrun
      | some t =>
          rcases expiration_loop_succ hs ht clock shrunk turns with
            hdone | ⟨tok, e, x, -, -, ⟨-, hwild⟩ | ⟨r, mid, -, hdropped, -, hrest⟩⟩
          · rw [hdone] at hrun
            cases hrun
            exact hs
          · rw [hwild] at hrun
            cases hrun
          · rw [hrest] at hrun
            exact ih hdropped.sound hrun

/-- With a turn for each token and one more, the loop comes to its end, and every token it drops
gives its reference back. -/
theorem expiration_loop_accounted (clock : Nat → Nat → UInt64) (shrunk : Nat → Bool)
    (turns : Nat) (hs : s.Sound) (hacc : s.Accounted) (htable : s.tokenTable.isSome)
    (hturns : s.bindings.length < turns) :
    ∃ s', expirationLoop clock shrunk turns s = .ok s' ∧ s'.Accounted ∧
      s'.generated = s.generated := by
  induction turns generalizing s with
  | zero => exact absurd hturns (Nat.not_lt_zero _)
  | succ turns ih =>
      obtain ⟨t, ht⟩ := Option.isSome_iff_exists.mp htable
      rcases expiration_loop_succ hs ht clock shrunk turns with
        hdone | ⟨tok, e, x, hmem, hx, ⟨hfreed, -⟩ | ⟨r, mid, hr, hdropped, hmid, hrest⟩⟩
      · exact ⟨s, hdone, hacc, rfl⟩
      · exact absurd hfreed (hacc.handle_alive hmem hx)
      · have hlength := hdropped.length
        rw [hrest]
        obtain ⟨s', hrun, hend, hgenerated⟩ := ih hdropped.sound (hacc.drop hs hmem hr hdropped)
          (by rw [hmid]; rfl) (by omega)
        exact ⟨s', hrun, hend, hgenerated.trans hdropped.generated⟩

/-- Every event in which `use_token` reads the same bytes twice keeps the table sound. -/
theorem State.Sound.step (hs : s.Sound) {event : Event H} (honce : ReadsOnce event)
    (hstep : TokenTable.step s event = .ok s') : s'.Sound := by
  cases event with
  | tick =>
      simp only [TokenTable.step, Except.ok.injEq] at hstep
      subst hstep
      exact hs.of_same rfl rfl rfl
  | gen m h tok =>
      change (genTokenFor s m h tok).map Prod.snd = .ok s' at hstep
      rcases gen_token_for_cases hs m h tok with
        ⟨mid, hrun, hfailed⟩ | ⟨-, hwild⟩ | ⟨r, mid, -, hrun, hgen⟩
      · rw [hrun] at hstep
        cases hstep
        exact hfailed.sound hs
      · rw [hwild] at hstep
        cases hstep
      · rw [hrun] at hstep
        cases hstep
        exact hgen.sound
  | use reads shrunk =>
      change (useToken s reads shrunk).map Prod.snd = .ok s' at hstep
      cases ht : s.tokenTable with
      | none =>
          unfold useToken at hstep
          rw [ht] at hstep
          cases hstep
      | some t =>
          by_cases hlive : ∃ b ∈ s.bindings, b.1 = reads.found
          · obtain ⟨b, hb, htok⟩ := hlive
            obtain ⟨x, hx, -⟩ := hs.entry b hb
            obtain ⟨mid, hrun, htaken, -⟩ := use_token_some reads hs ht honce (e := b.2)
              (htok ▸ hb) hx shrunk
            rw [hrun] at hstep
            cases hstep
            exact htaken.sound
          · rw [use_token_none hs ht (fun b hb htok => hlive ⟨b, hb, htok⟩)] at hstep
            cases hstep
            exact hs
  | expire clock shrunk =>
      change tokenExpirationCheck s clock shrunk = .ok s' at hstep
      unfold tokenExpirationCheck at hstep
      cases ht : s.tokenTable with
      | none =>
          rw [ht] at hstep
          cases hstep
      | some t =>
          rw [ht] at hstep
          exact expiration_loop_sound clock shrunk _ hs hstep
  | openFile h =>
      change (if (s.refs h).isSome then .ok s else _) = Except.ok s' at hstep
      split at hstep
      · cases hstep
        exact hs
      · cases hstep
        exact hs.of_same rfl rfl rfl
  | refFile h =>
      change State.refFile { s with others := _ } h = .ok s' at hstep
      unfold State.refFile at hstep
      split at hstep
      · cases hstep
      · cases hstep
        exact hs.of_same rfl rfl rfl
  | unrefFile h =>
      change State.unrefFile { s with others := _ } h = .ok s' at hstep
      unfold State.unrefFile at hstep
      split at hstep
      · cases hstep
      · cases hstep
        exact hs.of_same rfl rfl rfl

theorem ok_of_to_option {α : Type} {result : Except Halt α} {a : α}
    (h : result.toOption = some a) : result = .ok a := by
  cases result with
  | error halt => cases h
  | ok mid =>
      cases h
      rfl

omit [DecidableEq H] in
theorem boot_sound : (boot : State H).Sound where
  formed := fun t ht => by cases ht
  entry := fun b hb => by cases hb
  once := .nil
  fresh := fun _ _ => rfl

/-- The table is sound in every state of the runs in which `use_token` reads the same bytes
twice. -/
theorem token_runs_sound {allowed : State H → Event H → Prop}
    (honce : ∀ s event, allowed s event → ReadsOnce event)
    (hs : Reachable (tokenRuns allowed) s) : s.Sound := by
  refine Reachable.induct (motive := State.Sound) ?_ ?_ hs
  · rintro s rfl
    exact boot_sound
  · rintro s s' h ⟨event, hallowed, hstep⟩
    exact h.step (honce s event hallowed) (ok_of_to_option hstep)

/-- What the claims of the callers are worth: a token is generated for a handle that the caller
has a reference to, with bytes that were not generated before; the table is there when a token is
used, and when the sweep runs, which is queued with it; and `use_token` reads the same bytes
twice. -/
def Proper (s : State H) : Event H → Prop
  | .gen _ h tok => 0 < s.others h ∧ tok ∉ s.generated.map Prod.fst
  | .use reads _ => s.tokenTable.isSome ∧ reads.removed = reads.found
  | .expire _ _ => s.tokenTable.isSome
  | .refFile h => 0 < s.others h
  | .unrefFile h => 0 < s.others h
  | _ => True

/-- The same, where the bytes of a token may come again when it is not live any more. -/
def Sensible (s : State H) : Event H → Prop
  | .gen _ h tok => 0 < s.others h ∧ ∀ b ∈ s.bindings, b.1 ≠ tok
  | event => Proper s event

/-- The doing of others that changes the references, and nothing of the token table. -/
theorem State.Accounted.of_refs (hacc : s.Accounted) (htable : s'.tokenTable = s.tokenTable)
    (hentries : s'.entries = s.entries) (hgenerated : s'.generated = s.generated)
    (hused : s'.used = s.used) (hexpired : s'.expired = s.expired)
    (hrefs : ∀ h, (s'.refs h).getD 0 + s.others h = (s.refs h).getD 0 + s'.others h)
    (halive : ∀ h, s'.refs h ≠ some 0) : s'.Accounted := by
  have hbindings : s'.bindings = s.bindings := by
    unfold State.bindings
    rw [htable]
  have hlive : s'.live = s.live := by
    unfold State.live
    rw [hbindings, hentries]
  refine ⟨?_, fun h => ?_, halive, fun e x hx => ?_⟩
  · rw [hgenerated, hlive, hused, hexpired]
    exact hacc.ledger
  · have hold := hacc.refs h
    have hnew := hrefs h
    rw [hlive]
    omega
  · rw [hbindings]
    exact hacc.kept e x (hentries ▸ hx)

/-- A handle that someone has a reference to has not been freed. -/
theorem State.Accounted.refs_some (hacc : s.Accounted) {h : H} (hothers : 0 < s.others h) :
    ∃ r, s.refs h = some r := by
  cases hrefs : s.refs h with
  | some r => exact ⟨r, rfl⟩
  | none =>
      have hcount := hacc.refs h
      rw [hrefs, Option.getD_none] at hcount
      omega

/-- A live token was generated. -/
theorem State.Accounted.bound_generated (hacc : s.Accounted) (hs : s.Sound) {b : Token × Nat}
    (hb : b ∈ s.bindings) : b.1 ∈ s.generated.map Prod.fst := by
  obtain ⟨x, hx, htok⟩ := hs.entry b hb
  refine List.mem_map.mpr ⟨(x.tok, x.h), hacc.ledger.symm.subset ?_, htok⟩
  refine List.mem_append_left _ (List.mem_append_left _ ?_)
  exact mem_tokens_of.mpr ⟨b, hb, x, hx, rfl⟩

/-- The references to one handle change, and so do those that the others have. -/
theorem State.Accounted.set_refs (hacc : s.Accounted) {h : H} {r : Option Nat} {others : Nat}
    (hcount : r.getD 0 + s.others h = (s.refs h).getD 0 + others) (halive : r ≠ some 0) :
    State.Accounted { s with
      refs := Function.update s.refs h r
      others := Function.update s.others h others } := by
  refine hacc.of_refs rfl rfl rfl rfl rfl (fun k => ?_) fun k => ?_
  · show (Function.update s.refs h r k).getD 0 + s.others k =
      (s.refs k).getD 0 + Function.update s.others h others k
    by_cases hk : k = h
    · rw [hk, Function.update_self, Function.update_self]
      exact hcount
    · rw [Function.update_of_ne hk, Function.update_of_ne hk]
  · show Function.update s.refs h r k ≠ some 0
    by_cases hk : k = h
    · rw [hk, Function.update_self]
      exact halive
    · rw [Function.update_of_ne hk]
      exact hacc.alive k

/-- Every sensible event comes through, and keeps the account of the tokens. -/
theorem State.Accounted.step (hacc : s.Accounted) (hs : s.Sound) {event : Event H}
    (hsensible : Sensible s event) : ∃ s', TokenTable.step s event = .ok s' ∧ s'.Accounted ∧
      (s'.generated = s.generated ∨
        ∃ m h tok, event = .gen m h tok ∧ s'.generated = (tok, h) :: s.generated) := by
  cases event with
  | tick =>
      exact ⟨_, rfl, hacc.of_refs rfl rfl rfl rfl rfl (fun _ => rfl) hacc.alive, .inl rfl⟩
  | gen m h tok =>
      obtain ⟨hothers, hnew⟩ := hsensible
      obtain ⟨r, hr⟩ := hacc.refs_some hothers
      rcases gen_token_for_cases hs m h tok with
        ⟨mid, hrun, hfailed⟩ | ⟨hfreed, -⟩ | ⟨r', mid, hr', hrun, hgen⟩
      · have hsame : mid.generated = s.generated := by rw [hfailed.same]
        refine ⟨mid, ?_, hfailed.accounted hacc, .inl hsame⟩
        show (genTokenFor s m h tok).map Prod.snd = _
        rw [hrun]
        rfl
      · rw [hr] at hfreed
        cases hfreed
      · refine ⟨mid, ?_, hacc.generate hr' hnew hgen, .inr ⟨m, h, tok, rfl, hgen.generated⟩⟩
        show (genTokenFor s m h tok).map Prod.snd = _
        rw [hrun]
        rfl
  | use reads shrunk =>
      obtain ⟨htable, honce⟩ : s.tokenTable.isSome ∧ reads.removed = reads.found := hsensible
      obtain ⟨t, ht⟩ := Option.isSome_iff_exists.mp htable
      by_cases hlive : ∃ b ∈ s.bindings, b.1 = reads.found
      · obtain ⟨b, hb, htok⟩ := hlive
        obtain ⟨x, hx, -⟩ := hs.entry b hb
        have hmem : (reads.found, b.2) ∈ s.bindings := htok ▸ hb
        obtain ⟨mid, hrun, htaken, hrefs, hothers, hused, hexpired⟩ :=
          use_token_some reads hs ht honce hmem hx shrunk
        refine ⟨mid, ?_, hacc.use hs hmem htaken hrefs hothers hused hexpired,
          .inl htaken.generated⟩
        show (useToken s reads shrunk).map Prod.snd = _
        rw [hrun]
        rfl
      · refine ⟨s, ?_, hacc, .inl rfl⟩
        show (useToken s reads shrunk).map Prod.snd = _
        rw [use_token_none hs ht (fun b hb htok => hlive ⟨b, hb, htok⟩)]
        rfl
  | expire clock shrunk =>
      obtain ⟨t, ht⟩ := Option.isSome_iff_exists.mp (show s.tokenTable.isSome from hsensible)
      have hturns : s.bindings.length < t.count + 1 := by
        show s.bindings.length < t.nitems + 1
        rw [(hs.formed t ht).count, bindings_some ht]
        exact Nat.lt_succ_self _
      obtain ⟨mid, hrun, hmid, hgenerated⟩ := expiration_loop_accounted clock shrunk (t.count + 1)
        hs hacc hsensible hturns
      refine ⟨mid, ?_, hmid, .inl hgenerated⟩
      show tokenExpirationCheck s clock shrunk = _
      unfold tokenExpirationCheck
      rw [ht]
      exact hrun
  | openFile h =>
      show ∃ s', (if (s.refs h).isSome then .ok s else _) = Except.ok s' ∧ _ ∧ _
      cases hrefs : s.refs h with
      | some r => exact ⟨s, rfl, hacc, .inl rfl⟩
      | none =>
          have hcount := hacc.refs h
          rw [hrefs, Option.getD_none] at hcount
          refine ⟨_, rfl, hacc.set_refs ?_ (by simp), .inl rfl⟩
          rw [hrefs, Option.getD_some, Option.getD_none]
          omega
  | refFile h =>
      obtain ⟨r, hr⟩ := hacc.refs_some hsensible
      show ∃ s', State.refFile { s with others := _ } h = .ok s' ∧ _ ∧ _
      unfold State.refFile
      simp only [hr]
      refine ⟨_, rfl, hacc.set_refs ?_ (by simp), .inl rfl⟩
      rw [hr, Option.getD_some, Option.getD_some]
      omega
  | unrefFile h =>
      obtain ⟨r, hr⟩ := hacc.refs_some hsensible
      have hothers : 0 < s.others h := hsensible
      have hpos : r ≠ 0 := by
        rintro rfl
        exact hacc.alive h hr
      show ∃ s', State.unrefFile { s with others := _ } h = .ok s' ∧ _ ∧ _
      unfold State.unrefFile
      simp only [hr]
      refine ⟨_, rfl, hacc.set_refs ?_ ?_, .inl rfl⟩
      · rw [hr, Option.getD_some]
        split
        · rw [Option.getD_none]
          omega
        · rw [Option.getD_some]
          omega
      · split
        · simp
        · next hne => simpa using hne

theorem State.Exact.accounted (hexact : s.Exact) : s.Accounted :=
  ⟨hexact.ledger, hexact.refs, hexact.alive, hexact.kept⟩

/-- Every proper event comes through, and no token is generated twice. -/
theorem State.Exact.step (hexact : s.Exact) (hs : s.Sound) {event : Event H}
    (hproper : Proper s event) : ∃ s', TokenTable.step s event = .ok s' ∧ s'.Exact := by
  have hsensible : Sensible s event := by
    cases event with
    | gen m h tok =>
        exact ⟨hproper.1, fun b hb htok =>
          hproper.2 (htok ▸ hexact.accounted.bound_generated hs hb)⟩
    | _ => exact hproper
  obtain ⟨s', hrun, hacc, hgenerated⟩ := hexact.accounted.step hs hsensible
  refine ⟨s', hrun, ?_, hacc.ledger, hacc.refs, hacc.alive, hacc.kept⟩
  rcases hgenerated with hsame | ⟨m, h, tok, rfl, hmore⟩
  · rw [hsame]
    exact hexact.tokens
  · rw [hmore]
    exact List.nodup_cons.mpr ⟨hproper.2, hexact.tokens⟩

/-- In the runs of proper events every token is single-use, and its reference is exact: the tokens
that were generated are the live, the used and the expired ones, each of them once and with its
handle; and every proper event comes through, so that no freed entry is touched. -/
theorem tokens_single_use (hs : Reachable (tokenRuns Proper) s) :
    s.Exact ∧ ∀ event, Proper s event → ∃ s', TokenTable.step s event = .ok s' := by
  have honce : ∀ (s : State H) event, Proper s event → ReadsOnce event := by
    intro s event hproper
    cases event with
    | use reads shrunk => exact hproper.2
    | _ => exact trivial
  have hexact : s.Sound ∧ s.Exact := by
    refine Reachable.induct (motive := fun s => s.Sound ∧ s.Exact) ?_ ?_ hs
    · rintro s rfl
      exact ⟨boot_sound, .nil, .refl _, fun _ => rfl, fun _ hrefs => (by cases hrefs),
        fun _ _ hx => (by cases hx)⟩
    · rintro s s' ⟨hsound, hexact⟩ ⟨event, hproper, hstep⟩
      obtain ⟨mid, hrun, hmid⟩ := hexact.step hsound hproper
      have hok := ok_of_to_option hstep
      rw [hok] at hrun
      cases hrun
      exact ⟨hsound.step (honce s event hproper) hok, hmid⟩
  refine ⟨hexact.2, fun event hproper => ?_⟩
  obtain ⟨mid, hrun, -⟩ := hexact.2.step hexact.1 hproper
  exact ⟨mid, hrun⟩

end Events

instance (event : Event H) : Decidable (ReadsOnce event) :=
  match event with
  | .use reads _ => inferInstanceAs (Decidable (reads.removed = reads.found))
  | .tick | .gen _ _ _ | .expire _ _ => inferInstanceAs (Decidable True)
  | .openFile _ | .refFile _ | .unrefFile _ => inferInstanceAs (Decidable True)

instance (s : State H) (event : Event H) : Decidable (Proper s event) :=
  match event with
  | .tick => inferInstanceAs (Decidable True)
  | .gen _ h tok => inferInstanceAs (Decidable (0 < s.others h ∧ tok ∉ s.generated.map Prod.fst))
  | .use reads _ =>
      inferInstanceAs (Decidable (s.tokenTable.isSome ∧ reads.removed = reads.found))
  | .expire _ _ => inferInstanceAs (Decidable (s.tokenTable.isSome = true))
  | .openFile _ => inferInstanceAs (Decidable True)
  | .refFile h => inferInstanceAs (Decidable (0 < s.others h))
  | .unrefFile h => inferInstanceAs (Decidable (0 < s.others h))

/-- A token of equal bytes. -/
def plain (byte : Int8) : Token :=
  Vector.replicate 16 byte

/-- A handle is opened, and a token for it is generated. -/
def oneToken : List (Event Nat) :=
  [.openFile 7, .gen ⟨true, true, true, true, true⟩ 7 (plain 1)]

/-- The token is used, and what it was generated for is its user's. -/
theorem token_used : ∃ s : State Nat,
    (s.Exact ∧ ∀ event, Proper s event → ∃ s', step s event = .ok s') ∧
      s.used = [(plain 1, 7)] ∧ s.refs 7 = some 2 := by
  let events := oneToken ++ [.use ⟨plain 1, plain 1⟩ true]
  let s := (runEvents (fun s event => (step s event).toOption)
    (fun s event => decide (Proper s event)) events boot).getD boot
  have hrun : runEvents (fun s event => (step s event).toOption)
    (fun s event => decide (Proper s event)) events boot = some s := rfl
  exact ⟨s, tokens_single_use (Reachable.run_events (fun _ _ => of_decide_eq_true)
    (.init rfl) hrun), rfl, rfl⟩

/-- The bytes change between the two reads of `use_token`: the entry is freed, and stays in the
table. -/
theorem freed_entry_touched : ∃ s : State Nat,
    Reachable (tokenRuns fun _ _ => True) s ∧ (plain 1, 7) ∈ s.used ∧
      Proper s (.use ⟨plain 1, plain 1⟩ true) ∧
        (useToken s ⟨plain 1, plain 1⟩ true).isOk = false := by
  let events := oneToken ++ [.use ⟨plain 1, plain 2⟩ true]
  let s := (runEvents (fun s event => (step s event).toOption) (fun _ _ => true)
    events boot).getD boot
  have hrun : runEvents (fun s event => (step s event).toOption) (fun _ _ => true)
    events boot = some s := rfl
  exact ⟨s, Reachable.run_events (fun _ _ _ => trivial) (.init rfl) hrun, by decide +kernel,
    by decide +kernel, by decide +kernel⟩

section Lifetime

/-- The token is live, with this entry. -/
def State.Live (s : State H) (tok : Token) (x : Entry H) : Prop :=
  ∃ e, (tok, e) ∈ s.bindings ∧ s.entries e = some x

/-- `use_token` refuses a token that is not live, and gives no handle for one that is older than
`TOKEN_LIFETIME`. -/
structure State.Valid (s : State H) (tok : Token) : Prop where
  refused : (∀ x, ¬ s.Live tok x) → ∀ shrunk, useToken s ⟨tok, tok⟩ shrunk = .ok (none, s)
  young : ∀ shrunk h s', useToken s ⟨tok, tok⟩ shrunk = .ok (some h, s') →
    ∃ x, s.Live tok x ∧ x.h = h ∧ s.time.toNat ≤ x.time.toNat + tokenLifetime.toNat

/-- In every state of the token service, `use_token` does so exactly if the table is there and the
token, if it is live, is not too old. -/
theorem token_valid_iff {s : State H}
    (hs : Reachable (tokenRuns fun _ event => ReadsOnce event) s) (tok : Token) :
    s.Valid tok ↔ s.tokenTable.isSome ∧
      ∀ x, s.Live tok x → s.time.toNat ≤ x.time.toNat + tokenLifetime.toNat := by
  have hsound := token_runs_sound (fun _ _ honce => honce) hs
  cases ht : s.tokenTable with
  | none =>
      -- Nothing is live, and the null table is called through.
      refine ⟨fun hvalid => ?_, fun hpresent => (by cases hpresent.1)⟩
      have hnone : ∀ x, ¬ s.Live tok x := by
        rintro x ⟨e, hmem, -⟩
        unfold State.bindings at hmem
        rw [ht] at hmem
        cases hmem
      have hrun := hvalid.refused hnone true
      unfold useToken at hrun
      rw [ht] at hrun
      cases hrun
  | some t =>
      have hused : ∀ x, s.Live tok x → ∀ shrunk,
          ∃ s', useToken s ⟨tok, tok⟩ shrunk = .ok (some x.h, s') := by
        rintro x ⟨e, hmem, hx⟩ shrunk
        obtain ⟨s', hrun, -⟩ := use_token_some ⟨tok, tok⟩ hsound ht rfl hmem hx shrunk
        exact ⟨s', hrun⟩
      have hrefused : (∀ x, ¬ s.Live tok x) → ∀ shrunk,
          useToken s ⟨tok, tok⟩ shrunk = .ok (none, s) := by
        intro hnone shrunk
        refine use_token_none hsound ht (fun b hb htok => ?_) shrunk
        obtain ⟨x, hx, -⟩ := hsound.entry b hb
        exact hnone x ⟨b.2, (show b.1 = tok from htok) ▸ hb, hx⟩
      constructor
      · rintro ⟨-, hyoung⟩
        refine ⟨rfl, fun x hlive => ?_⟩
        obtain ⟨s', hrun⟩ := hused x hlive true
        obtain ⟨y, ⟨e', hmem', hy⟩, -, hage⟩ := hyoung true x.h s' hrun
        obtain ⟨e, hmem, hx⟩ := hlive
        obtain rfl := hsound.binding_unique hmem hmem'
        rw [hx] at hy
        cases hy
        exact hage
      · rintro ⟨-, hage⟩
        refine ⟨hrefused, fun shrunk h s' hrun => ?_⟩
        by_cases hlive : ∃ x, s.Live tok x
        · obtain ⟨x, hx⟩ := hlive
          obtain ⟨mid, hused⟩ := hused x hx shrunk
          rw [hused] at hrun
          cases hrun
          exact ⟨x, hx, rfl, hage x hx⟩
        · rw [hrefused (fun x hx => hlive ⟨x, hx⟩) shrunk] at hrun
          cases hrun

/-- The clock may tick as often as it likes. -/
theorem reachable_ticks {s : State H}
    (hs : Reachable (tokenRuns fun _ event => ReadsOnce event) s) (n : Nat) :
    Reachable (tokenRuns fun _ event => ReadsOnce event)
      { s with time := s.time + UInt64.ofNat n * (1000000 / 100) } := by
  induction n with
  | zero =>
      have hsame : s.time + UInt64.ofNat 0 * (1000000 / 100) = s.time := by simp
      rw [hsame]
      exact hs
  | succ n ih =>
      refine ih.step ⟨.tick, trivial, ?_⟩
      have hsum : s.time + UInt64.ofNat (n + 1) * (1000000 / 100) =
          s.time + UInt64.ofNat n * (1000000 / 100) + 1000000 / 100 := by
        rw [UInt64.ofNat_add, UInt64.add_mul, UInt64.add_assoc]
        simp
      rw [hsum]
      rfl

/-- The state in which one token was generated, and nothing else has happened. -/
def tokenMade : State Nat :=
  (runEvents (fun s event => (step s event).toOption)
    (fun _ event => decide (ReadsOnce event)) oneToken boot).getD boot

theorem token_made_reachable :
    Reachable (tokenRuns fun _ event => ReadsOnce event) tokenMade :=
  Reachable.run_events (fun _ _ => of_decide_eq_true) (.init rfl)
    (show runEvents (fun s event => (step s event).toOption)
      (fun _ event => decide (ReadsOnce event)) oneToken boot = some tokenMade from rfl)

/-- The token is valid when it has been generated. -/
theorem fresh_token_valid : tokenMade.Valid (plain 1) ∧ tokenMade.live = [(plain 1, 7)] := by
  refine ⟨(token_valid_iff token_made_reachable (plain 1)).mpr ⟨rfl, fun x _ => ?_⟩,
    by decide +kernel⟩
  have htime : tokenMade.time.toNat = 0 := rfl
  omega

/-- Before the first token is generated no value is refused, as there is no table; and a token is
accepted when 1510000 microseconds have gone by, if it has not been swept. -/
theorem invalid_tokens : ¬ (boot : State Nat).Valid (plain 0) ∧
    ∃ s : State Nat, Reachable (tokenRuns fun _ event => ReadsOnce event) s ∧
      s.tokenTable.isSome ∧ ¬ s.Valid (plain 1) := by
  constructor
  · intro hvalid
    have hrun := hvalid.refused (fun x hlive => ?_) true
    · cases hrun
    · obtain ⟨e, hmem, -⟩ := hlive
      cases hmem
  · have hs := reachable_ticks token_made_reachable 151
    refine ⟨_, hs, rfl, fun hvalid => ?_⟩
    have hbound : tokenMade.bindings = [(plain 1, 0)] := by decide +kernel
    have hmade : tokenMade.entries 0 = some ⟨plain 1, 0, 7⟩ := rfl
    obtain ⟨s', hrun, -⟩ := use_token_some ⟨plain 1, plain 1⟩
      (token_runs_sound (fun _ _ honce => honce) hs) rfl rfl
      (show (plain 1, 0) ∈ tokenMade.bindings by rw [hbound]; exact List.mem_singleton_self _)
      hmade true
    obtain ⟨x, ⟨e, hmem, hx⟩, -, hage⟩ := hvalid.young true 7 s' hrun
    have htable : (plain 1, e) ∈ tokenMade.bindings := hmem
    rw [hbound] at htable
    obtain rfl : e = 0 := (Prod.mk.inj (List.mem_singleton.mp htable)).2
    have hentry : tokenMade.entries 0 = some x := hx
    rw [hmade] at hentry
    cases hentry
    revert hage
    decide +kernel

end Lifetime

end Kogata.Kernel.TokenTable
