import Kogata.Kernel.Prng
import Kogata.Kernel.TokenTable

/-!
# Tokens from the generator

`gen_token_for` of `kernel/user/ipc.c` with the bytes that `prng_bytes` gives it. The generator and
the token table are one system: words may be drawn and entropy added at any moment, and the calls
of the token table come in any order. `tokens_denote` says what a token is worth as long as no
token is generated in a state of the generator near to the one that a live token came from.
-/

namespace Kogata.Kernel.TokenTable

open Lib.Run Prng

/-- The bytes of a `token_t`. -/
def tokenOf (bytes : List UInt8) : Token := Vector.ofFn fun i => (bytes.getD i 0).toInt8

/-- The generator and the token table; with every token that was generated, the state of the
generator that it came from. -/
structure Issuer (H : Type) where
  prng : Prng
  table : State H
  drawn : List (Token × Prng)

/-- What may happen next. `use_token` is given bytes that do not change under it. -/
inductive Call (H : Type)
  | word
  | addEntropy (bytes : List UInt8)
  | gen (m : GenAnswers) (h : H)
  | use (tok : Token) (shrunk : Bool)
  | expire (clock : Nat → Nat → UInt64) (shrunk : Nat → Bool)
  | tick
  | openFile (h : H)
  | refFile (h : H)
  | unrefFile (h : H)

namespace Issuer

variable {H : Type} [DecidableEq H]

/-- The token that the generator gives next. -/
def token (s : Issuer H) : Token := tokenOf (s.prng.prngBytes 16).1

/-- `gen_token_for`, which draws bytes once it has memory for them. -/
def gen (s : Issuer H) (m : GenAnswers) (h : H) : Except Halt (Issuer H) :=
  (genTokenFor s.table m h s.token).map fun (ok, table) =>
    { prng := if (s.table.createTable m.made).isSome ∧ m.entry then (s.prng.prngBytes 16).2
        else s.prng
      table := table
      drawn := if ok then (s.token, s.prng) :: s.drawn else s.drawn }

/-- An event of the token table alone. -/
def event (s : Issuer H) (event : Event H) : Except Halt (Issuer H) :=
  (TokenTable.step s.table event).map fun table => { s with table := table }

/-- The state after a call. -/
def step (s : Issuer H) : Call H → Except Halt (Issuer H)
  | .word => .ok { s with prng := s.prng.prngWord.2 }
  | .addEntropy bytes => .ok { s with prng := s.prng.prngAddEntropy bytes }
  | .gen m h => s.gen m h
  | .use tok shrunk => s.event (.use ⟨tok, tok⟩ shrunk)
  | .expire clock shrunk => s.event (.expire clock shrunk)
  | .tick => s.event .tick
  | .openFile h => s.event (.openFile h)
  | .refFile h => s.event (.refFile h)
  | .unrefFile h => s.event (.unrefFile h)

/-- The state after the start of the machine. -/
def boot : Issuer H where
  prng := .initial
  table := TokenTable.boot
  drawn := []

/-- Who generates a token for a handle, or gives up a reference or takes another one, has one. -/
def Owned (s : Issuer H) : Call H → Prop
  | .gen _ h | .refFile h | .unrefFile h => 0 < s.table.others h
  | _ => True

/-- No token is generated in a state of the generator near to the one that a live token came
from. -/
def Apart (s : Issuer H) : Call H → Prop
  | .gen _ _ => ∀ d ∈ s.drawn, d.1 ∈ s.table.live.map Prod.fst → ¬ Near s.prng d.2
  | _ => True

/-- The runs in which every call is allowed where it happens. -/
abbrev runs (allowed : Issuer H → Call H → Prop) : System (Issuer H) :=
  eventRuns (fun s => s = boot) (fun s call => (s.step call).toOption) allowed

end Issuer

variable {H : Type} [DecidableEq H]

theorem token_of_inj {bytes bytes' : List UInt8} (hlen : bytes.length = 16)
    (hlen' : bytes'.length = 16) : tokenOf bytes = tokenOf bytes' ↔ bytes = bytes' := by
  refine ⟨fun h => List.ext_getElem (hlen.trans hlen'.symm) fun i hi hi' => ?_, congrArg _⟩
  have hget : (tokenOf bytes)[i] = (tokenOf bytes')[i] := by rw [h]
  unfold tokenOf at hget
  rw [Vector.getElem_ofFn, Vector.getElem_ofFn] at hget
  have hbyte := congrArg Int8.toUInt8 hget
  rw [List.getD_eq_getElem?_getD, List.getD_eq_getElem?_getD, List.getElem?_eq_getElem hi,
    List.getElem?_eq_getElem hi'] at hbyte
  exact hbyte

section Sure

variable {s s' : Issuer H}

/-- The table is sound and its account is right, and every token that was generated came from the
state of the generator that is noted with it. -/
structure Issuer.Sure (s : Issuer H) : Prop where
  sound : s.table.Sound
  accounted : s.table.Accounted
  drawn : s.drawn.map Prod.fst = s.table.generated.map Prod.fst
  seeds : ∀ d ∈ s.drawn, d.1 = tokenOf (d.2.prngBytes 16).1

namespace Issuer.Sure

/-- A binding is live. -/
theorem bound_live (h : s.Sure) {b : Token × Nat} (hb : b ∈ s.table.bindings) :
    b.1 ∈ s.table.live.map Prod.fst := by
  obtain ⟨x, hx, htok⟩ := h.sound.entry b hb
  exact List.mem_map.mpr ⟨(x.tok, x.h), mem_tokens_of.mpr ⟨b, hb, x, hx, rfl⟩, htok⟩

/-- The next token is not bound. -/
theorem fresh (h : s.Sure) {m : GenAnswers} {k : H} (hapart : s.Apart (.gen m k)) :
    ∀ b ∈ s.table.bindings, b.1 ≠ s.token := by
  intro b hb htok
  have hgenerated := h.accounted.bound_generated h.sound hb
  rw [← h.drawn] at hgenerated
  obtain ⟨d, hd, hdb⟩ := List.mem_map.mp hgenerated
  refine hapart d hd (hdb ▸ h.bound_live hb) ?_
  have hsame : s.token = tokenOf (d.2.prngBytes 16).1 :=
    htok.symm.trans (hdb.symm.trans (h.seeds d hd))
  rw [Issuer.token, token_of_inj (length_prng_bytes _) (length_prng_bytes _)] at hsame
  exact near_of_bytes_eq hsame

/-- `gen_token_for`. -/
theorem gen (h : s.Sure) {m : GenAnswers} {k : H} (howned : 0 < s.table.others k)
    (hapart : s.Apart (.gen m k)) (hstep : s.gen m k = .ok s') : s'.Sure := by
  unfold Issuer.gen at hstep
  obtain ⟨r, hr⟩ := h.accounted.refs_some howned
  rcases gen_token_for_cases h.sound m k s.token with
    ⟨mid, hrun, hfailed⟩ | ⟨hfreed, -⟩ | ⟨r', mid, hr', hrun, hgen⟩
  · rw [hrun] at hstep
    cases hstep
    have hsame : mid.generated = s.table.generated := by rw [hfailed.same]
    exact ⟨hfailed.sound h.sound, hfailed.accounted h.accounted, h.drawn.trans (by rw [hsame]),
      h.seeds⟩
  · rw [hr] at hfreed
    cases hfreed
  · rw [hrun] at hstep
    cases hstep
    refine ⟨hgen.sound, h.accounted.generate hr' (h.fresh hapart) hgen, ?_, fun d hd => ?_⟩
    · rw [hgen.generated]
      exact congrArg (s.token :: ·) h.drawn
    · rcases List.mem_cons.mp hd with rfl | hd
      · rfl
      · exact h.seeds d hd

/-- An event of the token table. -/
theorem event (h : s.Sure) {e : Event H} (hsensible : Sensible s.table e)
    (honce : ReadsOnce e) (hother : ∀ m k tok, e ≠ .gen m k tok) (hstep : s.event e = .ok s') :
    s'.Sure := by
  obtain ⟨mid, hrun, hacc, hgenerated⟩ := h.accounted.step h.sound hsensible
  have hsound := h.sound.step honce hrun
  unfold Issuer.event at hstep
  rw [hrun] at hstep
  cases hstep
  rcases hgenerated with hsame | ⟨m, k, tok, heq, -⟩
  · exact ⟨hsound, hacc, h.drawn.trans (by rw [hsame]), h.seeds⟩
  · exact absurd heq (hother m k tok)

theorem step (h : s.Sure) {call : Call H} (howned : s.Owned call) (hapart : s.Apart call)
    (hstep : s.step call = .ok s') : s'.Sure := by
  cases call with
  | word =>
      cases hstep
      exact ⟨h.sound, h.accounted, h.drawn, h.seeds⟩
  | addEntropy bytes =>
      cases hstep
      exact ⟨h.sound, h.accounted, h.drawn, h.seeds⟩
  | gen m k => exact h.gen howned hapart hstep
  | use tok shrunk =>
      refine h.event (e := .use ⟨tok, tok⟩ shrunk) ⟨?_, rfl⟩ rfl nofun hstep
      cases ht : s.table.tokenTable with
      | some t => rfl
      | none =>
          unfold Issuer.step Issuer.event TokenTable.step useToken at hstep
          rw [ht] at hstep
          cases hstep
  | expire clock shrunk =>
      refine h.event (e := .expire clock shrunk) (?_ : s.table.tokenTable.isSome) trivial nofun
        hstep
      cases ht : s.table.tokenTable with
      | some t => rfl
      | none =>
          unfold Issuer.step Issuer.event TokenTable.step tokenExpirationCheck at hstep
          rw [ht] at hstep
          cases hstep
  | tick => exact h.event (e := .tick) trivial trivial nofun hstep
  | openFile k => exact h.event (e := .openFile k) trivial trivial nofun hstep
  | refFile k => exact h.event (e := .refFile k) howned trivial nofun hstep
  | unrefFile k => exact h.event (e := .unrefFile k) howned trivial nofun hstep

/-- A live token is bound, and no other one has its bytes. -/
theorem live_nodup (h : s.Sure) : (s.table.live.map Prod.fst).Nodup := by
  have hkeys : s.table.live.map Prod.fst = s.table.bindings.map Prod.fst := by
    unfold State.live tokensOf
    rw [List.map_filterMap, ← List.filterMap_eq_map]
    refine List.filterMap_congr fun b hb => ?_
    obtain ⟨x, hx, htok⟩ := h.sound.entry b hb
    rw [hx]
    exact congrArg some htok
  rw [hkeys]
  cases ht : s.table.tokenTable with
  | none =>
      unfold State.bindings
      rw [ht]
      exact .nil
  | some t =>
      rw [bindings_some ht]
      refine List.pairwise_map.mpr ((h.sound.formed t ht).distinct.imp fun {b c} hne heq => ?_)
      rw [heq, ef_iff.mpr rfl] at hne
      cases hne

end Issuer.Sure

/-- In the runs in which no token is generated in a state of the generator near to the one that a
live token came from, a token that is generated is not live; the tokens that were generated
are, with their handles, the live, the used and the expired ones; the live ones are different; each
has a reference to its handle; and `use_token` of a live token returns its handle. -/
theorem tokens_denote
    (hs : Reachable (Issuer.runs fun s call => s.Owned call ∧ s.Apart call) s) :
    (∀ m h, s.Apart (.gen m h) → s.token ∉ s.table.live.map Prod.fst) ∧
    s.table.generated.Perm (s.table.live ++ s.table.used ++ s.table.expired) ∧
    (s.table.live.map Prod.fst).Nodup ∧
    (∀ h, (s.table.refs h).getD 0 =
      s.table.others h + s.table.live.countP fun x => x.2 = h) ∧
    ∀ tok h, (tok, h) ∈ s.table.live → ∀ shrunk, ∃ table,
      useToken s.table ⟨tok, tok⟩ shrunk = .ok (some h, table) := by
  have hsure : s.Sure := by
    refine Reachable.induct (motive := Issuer.Sure) (fun s hinit => ?_)
      (fun s s' h hstep => ?_) hs
    · cases hinit
      exact ⟨boot_sound, ⟨.refl _, fun _ => rfl, nofun, nofun⟩, rfl, nofun⟩
    · obtain ⟨call, ⟨howned, hapart⟩, hstep⟩ := hstep
      exact h.step howned hapart (ok_of_to_option hstep)
  refine ⟨fun m h hapart hlive => ?_, hsure.accounted.ledger, hsure.live_nodup,
    hsure.accounted.refs, fun tok h hlive shrunk => ?_⟩
  · obtain ⟨x, hx, htok⟩ := List.mem_map.mp hlive
    obtain ⟨b, hb, y, hy, rfl⟩ := mem_tokens_of.mp hx
    obtain ⟨z, hz, hzb⟩ := hsure.sound.entry b hb
    rw [hy] at hz
    cases hz
    exact hsure.fresh hapart b hb (hzb.symm.trans htok)
  · obtain ⟨b, hb, y, hy, heq⟩ := mem_tokens_of.mp hlive
    cases heq
    obtain ⟨z, hz, hzb⟩ := hsure.sound.entry b hb
    rw [hy] at hz
    cases hz
    cases ht : s.table.tokenTable with
    | none =>
        unfold State.bindings at hb
        rw [ht] at hb
        cases hb
    | some t =>
        obtain ⟨table, hrun, -⟩ := use_token_some ⟨y.tok, y.tok⟩ hsure.sound ht rfl
          (e := b.2) (x := y) (by rw [hzb]; exact hb) hy shrunk
        exact ⟨table, hrun⟩

end Sure

section Examples

instance (s : Issuer Nat) : (call : Call Nat) → Decidable (s.Owned call ∧ s.Apart call)
  | .gen _ h => inferInstanceAs (Decidable (0 < s.table.others h ∧
      ∀ d ∈ s.drawn, d.1 ∈ s.table.live.map Prod.fst → ¬ Near s.prng d.2))
  | .refFile h | .unrefFile h => inferInstanceAs (Decidable (0 < s.table.others h ∧ True))
  | .word | .addEntropy _ | .use _ _ | .expire _ _ | .tick | .openFile _ =>
      inferInstanceAs (Decidable (True ∧ True))

instance (s : Issuer Nat) : (call : Call Nat) → Decidable (s.Owned call)
  | .gen _ h | .refFile h | .unrefFile h => inferInstanceAs (Decidable (0 < s.table.others h))
  | .word | .addEntropy _ | .use _ _ | .expire _ _ | .tick | .openFile _ =>
      inferInstanceAs (Decidable True)

/-- A handle is opened, and two tokens are generated for it, with words drawn before each. -/
def twoTokens (first second : Nat) : List (Call Nat) :=
  let gen : Call Nat := .gen ⟨true, true, true, true, true⟩ 7
  .openFile 7 :: (List.replicate first .word ++ gen :: (List.replicate second .word ++ [gen]))

theorem reachable_of_run {allowed : Issuer Nat → Call Nat → Prop}
    [∀ s call, Decidable (allowed s call)] {calls : List (Call Nat)} {s : Issuer Nat}
    (hrun : runEvents (fun s call => (Issuer.step s call).toOption)
      (fun s call => decide (allowed s call)) calls .boot = some s) :
    Reachable (Issuer.runs allowed) s :=
  .run_events (fun _ _ hpass => of_decide_eq_true hpass) (.init rfl) hrun

/-- Two tokens are generated for one handle, in different states of the generator, and each of them
denotes it. -/
theorem tokens_denote_handle : ∃ s : Issuer Nat, s.table.generated.length = 2 ∧
    s.table.generated.Perm (s.table.live ++ s.table.used ++ s.table.expired) := by
  have hrun : (runEvents (fun s call => (Issuer.step s call).toOption)
      (fun s call => decide (s.Owned call ∧ s.Apart call)) (twoTokens 0 0) .boot).map
      (fun s => s.table.generated.length) = some 2 := by
    decide +kernel
  obtain ⟨s, hrun, hlen⟩ := Option.map_eq_some_iff.mp hrun
  exact ⟨s, hlen, (tokens_denote (reachable_of_run hrun)).2.1⟩

/-- Two bytes of entropy are added, and with 88 words between them two tokens come out the same: the
second takes the place of the first in the table. -/
theorem token_repeated :
    ¬ ∀ s : Issuer Nat, Reachable (Issuer.runs Issuer.Owned) s →
      s.table.generated.Perm (s.table.live ++ s.table.used ++ s.table.expired) := by
  intro hclaim
  have hrun : (runEvents (fun s call => (Issuer.step s call).toOption)
      (fun s call => decide (s.Owned call)) (.addEntropy [5, 17] :: twoTokens 112 88) .boot).map
      (fun s => (s.table.generated.length,
        (s.table.live ++ s.table.used ++ s.table.expired).length)) = some (2, 1) := by
    decide +kernel
  obtain ⟨s, hrun, hend⟩ := Option.map_eq_some_iff.mp hrun
  have hlen := (hclaim s (reachable_of_run hrun)).length_eq
  rw [(Prod.mk.inj hend).1, (Prod.mk.inj hend).2] at hlen
  cases hlen

end Examples

end Kogata.Kernel.TokenTable
