import Kogata.Kernel.Iso9660
import Kogata.Kernel.Nullfs
import Kogata.Kernel.Pager

/-!
# The two scans of an ISO 9660 directory

`iso9660_dir_walk` and `iso9660_dir_readdir` of `kernel/fs/iso9660.c` with each access to the record
buffer. Both take one record after another from the extent and cut its name in the same way
(`IsoDir.turn`); `convert_spec` and `record_name_spec` say what that gives and what it touches.
-/

namespace Kogata.Kernel

open Lib.Word

/-- The union `data`: its bytes, and how many of them may be touched. -/
structure RecordBuffer where
  bytes : RecordBytes
  limit : Nat

/-- A byte of the buffer. -/
def RecordBuffer.get (b : RecordBuffer) (i : UInt32) : Except Halt UInt8 :=
  if i.toNat < b.limit then .ok (b.bytes i) else .error .wild

/-- A byte of the buffer is replaced. -/
def RecordBuffer.set (b : RecordBuffer) (i : UInt32) (c : UInt8) : Except Halt RecordBuffer :=
  if i.toNat < b.limit then .ok { b with bytes := Function.update b.bytes i c } else .error .wild

/-- `memcpy` from the buffer. -/
def RecordBuffer.copy (b : RecordBuffer) (start : UInt32) (count : Nat) :
    Except Halt (List UInt8) :=
  (List.range count).mapM fun i => b.get (start + UInt32.ofNat i)

/-- The body of the loop of `convert_dr_to_lowercase`. -/
def lowercaseByte (b : RecordBuffer) (i : Nat) : Except Halt RecordBuffer := do
  let c ← b.get (33 + UInt32.ofNat i)
  if 65 ≤ c ∧ c ≤ 90 then b.set (33 + UInt32.ofNat i) (c + 32) else return b

/-- `convert_dr_to_lowercase`. -/
def convertDrToLowercase (b : RecordBuffer) : Except Halt RecordBuffer := do
  let count ← b.get 32
  (List.range count.toNat).foldlM lowercaseByte b

/-- `if (name[len-1] == '.') len--`. -/
def dropDot (b : RecordBuffer) (len : UInt32) : Except Halt (Option UInt32) := do
  let c ← b.get (33 + (len - 1))
  return some (if c = 46 then len - 1 else len)

/-- What both loops take for the length of the name; a file without a version is passed over. -/
def recordName (b : RecordBuffer) : Except Halt (Option UInt32) := do
  let flags ← b.get 25
  let count ← b.get 32
  if flags &&& 2 != 0 then dropDot b count.toUInt32
  else
    let c ← b.get (33 + (count.toUInt32 - 2))
    if c ≠ 59 then return none else dropDot b (count.toUInt32 - 2)

/-- The name of a record, which is lowercased first where the file system has lowercase names. -/
def nameOfRecord (lower : Bool) (b : RecordBuffer) :
    Except Halt (RecordBuffer × Option UInt32) := do
  let b ← if lower then convertDrToLowercase b else pure b
  let name ← recordName b
  return (b, name)

/-- A directory of a disc, and whether the file system has lowercase names. -/
structure IsoDir where
  disc : Disc
  extent : Extent
  lower : Bool

/-- The record at a position of the directory. -/
def IsoDir.record (dir : IsoDir) (pos : UInt32) : RecordBytes :=
  recordAt dir.disc dir.extent pos

/-- What `pager_read` returns for `256` bytes from a position on. -/
def IsoDir.readLen (dir : IsoDir) (pos : UInt32) : UInt32 :=
  transferLen dir.extent.size pos 256

/-- How the reads of a scan go: which of them succeed, and what the buffer is after a read that
gave so many bytes at a position. -/
structure IsoReads where
  gives : Nat → Bool
  fill : Nat → UInt32 → UInt32 → RecordBuffer

/-- What one turn of a loop leads to. -/
inductive Turn (σ ρ : Type) where
  | next (pos : UInt32) (state : σ)
  | done (result : Option ρ)

variable {σ ρ : Type}

/-- What a turn makes of the answer of a body. -/
def Turn.after (pos : UInt32) : σ ⊕ ρ → Turn σ ρ
  | .inl state => .next pos state
  | .inr result => .done (some result)

/-- One turn of the loops, where `body` is what a loop does with a name and its length. -/
def IsoDir.turn (dir : IsoDir) (reads : IsoReads)
    (body : σ → RecordBuffer → UInt32 → Except Halt (σ ⊕ ρ)) (n : Nat) (pos : UInt32) (state : σ) :
    Except Halt (Turn σ ρ) := do
  if pos < dir.extent.size then
    let rs := if reads.gives n then dir.readLen pos else 0
    if rs < 34 then return .done none
    else
      let b := reads.fill n pos rs
      let drLen ← b.get 0
      if drLen = 0 then return .done none
      else
        let (b, name) ← nameOfRecord dir.lower b
        match name with
        | none => return .next (pos + drLen.toUInt32) state
        | some len => return Turn.after (pos + drLen.toUInt32) (← body state b len)
  else return .done none

/-- The loops, for a number of turns. -/
def IsoDir.loop (dir : IsoDir) (reads : IsoReads)
    (body : σ → RecordBuffer → UInt32 → Except Halt (σ ⊕ ρ)) :
    Nat → Nat → UInt32 → σ → Except Halt (Option ρ)
  | 0, _, _, _ => .error .diverge
  | fuel + 1, n, pos, state => do
      match ← dir.turn reads body n pos state with
      | .done result => return result
      | .next pos state => dir.loop reads body fuel (n + 1) pos state

/-- What the walk keeps of the record that it has found. -/
structure RecordNode where
  isDir : Bool
  extent : Extent
  deriving DecidableEq

/-- The node of a record. -/
def recordNode (dr : RecordBytes) : RecordNode where
  isDir := recordIsDir dr
  extent := recordExtent dr

/-- `memcpy(&n->dr, dr, sizeof(iso9660_dr_t))`. -/
def RecordBuffer.node (b : RecordBuffer) : Except Halt RecordNode := do
  let bytes ← b.copy 0 34
  return recordNode fun i => bytes.getD i.toNat 0

/-- `strncmp(name, search_for, strlen(search_for)) == 0`, from the `i`-th byte on. The byte behind
the name is read before the length is tested. -/
def strncmpName (b : RecordBuffer) : Name → Nat → Except Halt Bool
  | [], i => do
      let _ ← b.get (33 + UInt32.ofNat i)
      return true
  | s :: rest, i => do
      let c ← b.get (33 + UInt32.ofNat i)
      if c ≠ 0 ∧ c = s then strncmpName b rest (i + 1) else return c == s

/-- The body of the loop of `iso9660_dir_walk`. -/
def walkBody (searchFor : Name) (_ : Unit) (b : RecordBuffer) (len : UInt32) :
    Except Halt (Unit ⊕ RecordNode) := do
  if len ≠ UInt32.ofNat searchFor.length then return .inl ()
  else if ← strncmpName b searchFor 0 then return .inr (← b.node)
  else return .inl ()

/-- `iso9660_dir_walk`, in so many turns; `malloc` and `new_vfs_pager` succeed or fail. -/
def iso9660DirWalk (dir : IsoDir) (reads : IsoReads) (malloc newVfsPager : Bool)
    (searchFor : Name) (fuel : Nat) : Except Halt (Option RecordNode) := do
  match ← dir.loop reads (walkBody searchFor) fuel 0 0 () with
  | none => return none
  | some node => return if malloc && newVfsPager then some node else none

/-- `dr_stat`. -/
def drStat (node : RecordNode) : Nullfs.Stat :=
  if node.isDir then { type := Nullfs.ftDir, access := fmReaddir, size := node.extent.size.toNat }
  else { type := ftRegular, access := fmRead ||| fmMmap, size := node.extent.size.toNat }

/-- `dirent_t`: its name up to the terminating zero, and `st`. -/
structure Dirent where
  name : Name
  st : Nullfs.Stat
  deriving DecidableEq

/-- The body of the loop of `iso9660_dir_readdir`. -/
def readdirBody (entNo : UInt32) (idx : UInt32) (b : RecordBuffer) (len : UInt32) :
    Except Halt (UInt32 ⊕ Dirent) := do
  if idx - 2 = entNo then
    let len := if len.toNat ≥ dirMax then dirMax - 1 else len.toNat
    let name ← b.copy 33 len
    -- The terminating zero is written behind the name.
    if len < dirMax then return .inr { name := name, st := drStat (← b.node) }
    else .error .wild
  else return .inl (idx + 1)

/-- `iso9660_dir_readdir`, in so many turns. -/
def iso9660DirReaddir (dir : IsoDir) (reads : IsoReads) (entNo : UInt32) (fuel : Nat) :
    Except Halt (Option Dirent) :=
  dir.loop reads (readdirBody entNo) fuel 0 0 0

section Buffer

variable {b : RecordBuffer} {dr : RecordBytes} {lower : Bool} {i : UInt32} {limit : Nat}

theorem RecordBuffer.get_ok (h : i.toNat < b.limit) : b.get i = .ok (b.bytes i) :=
  if_pos h

theorem RecordBuffer.get_wild (h : ¬ i.toNat < b.limit) : b.get i = .error .wild :=
  if_neg h

/-- Bytes of the buffer, one after another. -/
theorem mapM_get {f : Nat → UInt32} (l : List Nat) :
    (l.mapM fun k => b.get (f k)) =
      if ∀ k ∈ l, (f k).toNat < b.limit then .ok (l.map fun k => b.bytes (f k))
      else .error .wild := by
  induction l with
  | nil => rfl
  | cons k l ih =>
      rw [List.mapM_cons, ih]
      by_cases hk : (f k).toNat < b.limit
      · rw [RecordBuffer.get_ok hk]
        by_cases hl : ∀ k ∈ l, (f k).toNat < b.limit
        · have hall : ∀ k' ∈ k :: l, (f k').toNat < b.limit := List.forall_mem_cons.mpr ⟨hk, hl⟩
          rw [if_pos hl, if_pos hall]
          rfl
        · have hnot : ¬ ∀ k' ∈ k :: l, (f k').toNat < b.limit := fun hall =>
            hl (List.forall_mem_cons.mp hall).2
          rw [if_neg hl, if_neg hnot]
          rfl
      · have hnot : ¬ ∀ k' ∈ k :: l, (f k').toNat < b.limit := fun hall =>
          hk (List.forall_mem_cons.mp hall).1
        rw [RecordBuffer.get_wild hk, if_neg hnot]
        rfl

/-- The bytes of a record as the loops see them, when the name may have been lowercased. -/
def named (lower : Bool) (dr : RecordBytes) : RecordBytes :=
  fun x => nameByte lower dr (x - 33)

theorem named_add : named lower dr (33 + i) = nameByte lower dr i := by
  rw [named, UInt32.add_comm, UInt32.add_sub_cancel]

theorem named_false : named false dr = dr := by
  funext x
  rw [named, nameByte, if_neg (by simp), UInt32.add_comm, UInt32.sub_add_cancel]

/-- The fields before the name are not touched. -/
theorem named_before (h : i.toNat < 33) : named lower dr i = dr i := by
  have hbyte := (dr 32).toNat_lt
  rw [named, name_byte_before, UInt32.add_comm, UInt32.sub_add_cancel]
  rw [UInt32.le_iff_toNat_le, name_len_to_nat, UInt32.toNat_sub]
  show _ ≤ (2 ^ 32 - 33 + i.toNat) % 2 ^ 32
  omega

/-- The bytes of a record of which the first `count` of the name have been lowercased. -/
def loweredTo (dr : RecordBytes) (count : Nat) : RecordBytes :=
  fun x => if 33 ≤ x.toNat ∧ x.toNat < 33 + count ∧ 65 ≤ dr x ∧ dr x ≤ 90 then dr x + 32 else dr x

theorem lowered_to_all : loweredTo dr (dr 32).toNat = named true dr := by
  funext x
  have hbyte := (dr 32).toNat_lt
  have hx := x.toNat_lt
  have hback : 33 + (x - 33) = x := by rw [UInt32.add_comm, UInt32.sub_add_cancel]
  have hinside : x - 33 < nameLen dr ↔ 33 ≤ x.toNat ∧ x.toNat < 33 + (dr 32).toNat := by
    rw [UInt32.lt_iff_toNat_lt, name_len_to_nat, UInt32.toNat_sub]
    show (2 ^ 32 - 33 + x.toNat) % 2 ^ 32 < _ ↔ _
    omega
  rw [loweredTo, named, nameByte, hback]
  simp only [hinside, true_and, and_assoc]

/-- One more byte of the name is lowercased. -/
theorem lowercase_byte_spec {count : Nat} (hb : b.bytes = loweredTo dr count)
    (hcount : count < 256) :
    lowercaseByte b count = if 33 + count < b.limit then
      .ok { b with bytes := loweredTo dr (count + 1) } else .error .wild := by
  have hindex : (33 + UInt32.ofNat count).toNat = 33 + count := by
    rw [UInt32.toNat_add, UInt32.toNat_ofNat']
    show (33 + count % 2 ^ 32) % 2 ^ 32 = _
    omega
  have hhere : b.bytes (33 + UInt32.ofNat count) = dr (33 + UInt32.ofNat count) := by
    rw [hb, loweredTo, if_neg]
    rw [hindex]
    omega
  have hsplit : ∀ x : UInt32, x.toNat < 33 + (count + 1) ↔
      x.toNat < 33 + count ∨ x = 33 + UInt32.ofNat count := by
    intro x
    rw [← UInt32.toNat_inj, hindex]
    omega
  rw [lowercaseByte]
  by_cases hin : 33 + count < b.limit
  · rw [if_pos hin, RecordBuffer.get_ok (by rwa [hindex]), hhere]
    show (if _ then b.set _ _ else _) = _
    by_cases hupper : 65 ≤ dr (33 + UInt32.ofNat count) ∧ dr (33 + UInt32.ofNat count) ≤ 90
    · rw [if_pos hupper, RecordBuffer.set, if_pos (by rwa [hindex]), hb]
      refine congrArg Except.ok (congrArg (RecordBuffer.mk · b.limit) (funext fun x => ?_))
      by_cases hx : x = 33 + UInt32.ofNat count
      · rw [hx, Function.update_self, loweredTo, if_pos ⟨by rw [hindex]; omega,
          by rw [hindex]; omega, hupper⟩]
      · rw [Function.update_of_ne hx, loweredTo, loweredTo]
        simp only [hsplit, hx, or_false]
    · rw [if_neg hupper]
      refine congrArg Except.ok ?_
      rw [show b = ⟨b.bytes, b.limit⟩ from rfl, hb]
      refine congrArg (RecordBuffer.mk · b.limit) (funext fun x => ?_)
      rw [loweredTo, loweredTo]
      by_cases hx : x = 33 + UInt32.ofNat count
      · rw [if_neg fun h => hupper (hx ▸ h.2.2), if_neg fun h => hupper (hx ▸ h.2.2)]
      · simp only [hsplit, hx, or_false]
  · rw [if_neg hin, RecordBuffer.get_wild (by rwa [hindex])]
    rfl

/-- `convert_dr_to_lowercase` touches the bytes of the name. -/
theorem convert_spec (hlimit : 33 ≤ b.limit) :
    convertDrToLowercase b = if 33 + (b.bytes 32).toNat ≤ b.limit then
      .ok { b with bytes := named true b.bytes } else .error .wild := by
  have hbyte := (b.bytes 32).toNat_lt
  have hloop : ∀ count ≤ 256, (List.range count).foldlM lowercaseByte b =
      if 33 + count ≤ b.limit then .ok { b with bytes := loweredTo b.bytes count }
      else .error .wild := by
    intro count
    induction count with
    | zero =>
        intro _
        have hnone : loweredTo b.bytes 0 = b.bytes := by
          funext x
          exact if_neg (by omega)
        rw [if_pos (by omega), hnone]
        rfl
    | succ count ih =>
        intro hcount
        rw [List.range_succ, List.foldlM_append, ih (by omega)]
        by_cases hin : 33 + count ≤ b.limit
        · rw [if_pos hin]
          have hstep := lowercase_byte_spec (b := { b with bytes := loweredTo b.bytes count }) rfl
            (show count < 256 by omega)
          simp only [List.foldlM_cons, List.foldlM_nil, bind, Except.bind, hstep]
          by_cases hlast : 33 + count < b.limit
          · rw [if_pos hlast, if_pos (by omega)]
            rfl
          · rw [if_neg hlast, if_neg (by omega)]
        · rw [if_neg hin, if_neg (by omega)]
          rfl
  rw [convertDrToLowercase, RecordBuffer.get_ok (show (32 : UInt32).toNat < _ from hlimit)]
  show (List.range (b.bytes 32).toNat).foldlM lowercaseByte b = _
  rw [hloop _ (by omega), lowered_to_all]

/-- The bytes that a loop looks at to find the end of the name may be touched. -/
def NameFits (dr : RecordBytes) (limit : Nat) : Prop :=
  if recordIsDir dr then 32 + (dr 32).toNat < limit
  else 2 ≤ (dr 32).toNat → 31 + (dr 32).toNat < limit

instance : Decidable (NameFits dr limit) :=
  inferInstanceAs (Decidable (if recordIsDir dr then _ else _))

theorem name_fits_dir (h : recordIsDir dr = true) :
    NameFits dr limit ↔ 32 + (dr 32).toNat < limit := by
  rw [NameFits, if_pos h]

theorem name_fits_file (h : recordIsDir dr = false) :
    NameFits dr limit ↔ (2 ≤ (dr 32).toNat → 31 + (dr 32).toNat < limit) := by
  rw [NameFits, if_neg (by rw [h]; decide)]

/-- Where the loops look for the semicolon, and for the dot before it. -/
theorem name_end_toNat (dr : RecordBytes) {back : UInt32} (hback : back.toNat ≤ 3) :
    (33 + (nameLen dr - back)).toNat = 33 + (dr 32).toNat - back.toNat := by
  have hbyte := (dr 32).toNat_lt
  rw [UInt32.toNat_add, UInt32.toNat_sub, name_len_to_nat]
  show (33 + (2 ^ 32 - back.toNat + (dr 32).toNat) % 2 ^ 32) % 2 ^ 32 = _
  omega

theorem drop_dot_spec {len : UInt32} (hb : b.bytes = named lower dr)
    (hin : (33 + (len - 1)).toNat < b.limit) :
    dropDot b len = .ok (some (if nameByte lower dr (len - 1) = 46 then len - 1 else len)) := by
  rw [dropDot, RecordBuffer.get_ok hin, hb, named_add]
  rfl

/-- The length of the name is found, or a byte is touched that may not be. -/
theorem record_name_spec (hb : b.bytes = named lower dr) (hlimit : 34 ≤ b.limit) :
    recordName b = if NameFits dr b.limit then .ok (entryLen lower dr) else .error .wild := by
  have hflags : b.get 25 = .ok (dr 25) := by
    rw [RecordBuffer.get_ok (Nat.lt_of_lt_of_le (by decide) hlimit), hb, named_before (by decide)]
  have hlen : b.get 32 = .ok (dr 32) := by
    rw [RecordBuffer.get_ok (Nat.lt_of_lt_of_le (by decide) hlimit), hb, named_before (by decide)]
  have hlast := name_end_toNat dr (show (1 : UInt32).toNat ≤ 3 by decide)
  have hsemi := name_end_toNat dr (show (2 : UInt32).toNat ≤ 3 by decide)
  have hdot := name_end_toNat dr (show (3 : UInt32).toNat ≤ 3 by decide)
  have hthree : nameLen dr - 2 - 1 = nameLen dr - 3 := by
    refine UInt32.toNat_inj.mp ?_
    rw [UInt32.toNat_sub, UInt32.toNat_sub, UInt32.toNat_sub]
    show (2 ^ 32 - 1 + (2 ^ 32 - 2 + _) % 2 ^ 32) % 2 ^ 32 = (2 ^ 32 - 3 + _) % 2 ^ 32
    omega
  rw [← hthree] at hdot
  change _ = 33 + (dr 32).toNat - 1 at hlast
  change _ = 33 + (dr 32).toNat - 2 at hsemi
  change _ = 33 + (dr 32).toNat - 3 at hdot
  have hstart : recordName b = if recordIsDir dr then dropDot b (nameLen dr) else (do
      let c ← b.get (33 + (nameLen dr - 2))
      if c ≠ 59 then return none else dropDot b (nameLen dr - 2)) := by
    rw [recordName, hflags, hlen]
    rfl
  rw [hstart]
  cases hdir : recordIsDir dr with
  | true =>
      have hentry : entryLen lower dr = some (if nameByte lower dr (nameLen dr - 1) = 46
          then nameLen dr - 1 else nameLen dr) := by
        simp [entryLen, hdir]
      rw [if_pos rfl, hentry]
      by_cases hin : 32 + (dr 32).toNat < b.limit
      · rw [if_pos ((name_fits_dir hdir).mpr hin), drop_dot_spec hb (by omega)]
      · rw [if_neg fun h => hin ((name_fits_dir hdir).mp h), dropDot,
          RecordBuffer.get_wild (by omega)]
        rfl
  | false =>
      have hentry : entryLen lower dr = if nameByte lower dr (nameLen dr - 2) ≠ 59 then none
          else some (if nameByte lower dr (nameLen dr - 2 - 1) = 46
            then nameLen dr - 2 - 1 else nameLen dr - 2) := by
        simp [entryLen, hdir]
      rw [if_neg (by decide), hentry]
      by_cases hin : 2 ≤ (dr 32).toNat → 31 + (dr 32).toNat < b.limit
      · rw [if_pos ((name_fits_file hdir).mpr hin), RecordBuffer.get_ok (by omega), hb, named_add]
        change (if nameByte lower dr (nameLen dr - 2) ≠ 59 then _ else _) = _
        by_cases hsemicolon : nameByte lower dr (nameLen dr - 2) ≠ 59
        · rw [if_pos hsemicolon, if_pos hsemicolon]
          rfl
        · rw [if_neg hsemicolon, if_neg hsemicolon, drop_dot_spec hb (by omega)]
      · rw [if_neg fun h => hin ((name_fits_file hdir).mp h), RecordBuffer.get_wild (by omega)]
        rfl

/-- The node of a record depends on the fields before the name. -/
theorem record_node_congr {dr' : RecordBytes} (h : ∀ x : UInt32, x.toNat < 33 → dr' x = dr x) :
    recordNode dr' = recordNode dr := by
  have hword : ∀ x : UInt32, x.toNat < 30 → recordWord dr' x = recordWord dr x := by
    intro x hx
    have hadd : ∀ k : UInt32, k.toNat ≤ 3 → (x + k).toNat < 33 := by
      intro k hk
      rw [UInt32.toNat_add]
      omega
    rw [recordWord, h x (by omega), h _ (hadd 1 (by decide)), h _ (hadd 2 (by decide)),
      h _ (hadd 3 (by decide)), recordWord]
  rw [recordNode, recordNode, recordIsDir, recordIsDir, recordExtent, recordExtent,
    h 25 (by decide), hword 2 (by decide), hword 10 (by decide)]

/-- What is copied into a node are the fields before the name. -/
theorem node_spec (hb : b.bytes = named lower dr) (hlimit : 34 ≤ b.limit) :
    b.node = .ok (recordNode dr) := by
  have hall : ∀ k ∈ List.range 34, (0 + UInt32.ofNat k).toNat < b.limit := by
    intro k hk
    rw [List.mem_range] at hk
    rw [UInt32.zero_add, UInt32.toNat_ofNat']
    omega
  have hcopy : b.copy 0 34 = .ok ((List.range 34).map fun k => b.bytes (0 + UInt32.ofNat k)) := by
    rw [RecordBuffer.copy, mapM_get, if_pos hall]
  have hbyte : ∀ x : UInt32, x.toNat < 33 →
      ((List.range 34).map fun k => b.bytes (0 + UInt32.ofNat k)).getD x.toNat 0 = dr x := by
    intro x hx
    rw [List.getD_eq_getElem?_getD, List.getElem?_map, List.getElem?_range (by omega),
      Option.map_some, Option.getD_some, UInt32.zero_add, UInt32.ofNat_toNat, hb,
      named_before hx]
  rw [RecordBuffer.node, hcopy]
  exact congrArg Except.ok (record_node_congr hbyte)

/-- The comparison with a name is that of all bytes. It touches the byte behind the name when these
are the same. -/
theorem strncmp_name_spec {searchFor : Name} (hbytes : b.bytes = named lower dr)
    (hzero : ∀ c ∈ searchFor, c ≠ 0) (start : Nat)
    (hsmall : 33 + start + searchFor.length < 2 ^ 32)
    (hlimit : 33 + start + searchFor.length ≤ b.limit) :
    strncmpName b searchFor start =
      if (List.range searchFor.length).all fun k =>
          nameByte lower dr (UInt32.ofNat (start + k)) == searchFor.getD k 0 then
        if 33 + start + searchFor.length < b.limit then .ok true else .error .wild
      else .ok false := by
  have hindex : ∀ k, 33 + k < 2 ^ 32 → (33 + UInt32.ofNat k).toNat = 33 + k := by
    intro k hk
    rw [UInt32.toNat_add, UInt32.toNat_ofNat']
    show (33 + k % 2 ^ 32) % 2 ^ 32 = _
    omega
  induction searchFor generalizing start with
  | nil =>
      rw [strncmpName, if_pos (by simp)]
      simp only [List.length_nil, Nat.add_zero] at hsmall ⊢
      by_cases hin : 33 + start < b.limit
      · rw [if_pos hin, RecordBuffer.get_ok (by rwa [hindex start hsmall])]
        rfl
      · rw [if_neg hin, RecordBuffer.get_wild (by rwa [hindex start hsmall])]
        rfl
  | cons s rest ih =>
      rw [List.length_cons] at hsmall hlimit
      have hstart := hindex start (by omega)
      have hget : b.get (33 + UInt32.ofNat start) =
          .ok (nameByte lower dr (UInt32.ofNat start)) := by
        rw [RecordBuffer.get_ok (by omega), hbytes, named_add]
      have hs : s ≠ 0 := hzero s List.mem_cons_self
      -- The first byte, and then the others.
      have hsplit : ((List.range (s :: rest).length).all fun k =>
          nameByte lower dr (UInt32.ofNat (start + k)) == (s :: rest).getD k 0) =
            (nameByte lower dr (UInt32.ofNat start) == s &&
              (List.range rest.length).all fun k =>
                nameByte lower dr (UInt32.ofNat (start + 1 + k)) == rest.getD k 0) := by
        rw [List.length_cons, List.range_succ_eq_map, List.all_cons, List.all_map]
        refine congrArg (_ && ·) (List.all_congr rfl fun k => ?_)
        rw [Function.comp_apply, Nat.succ_eq_add_one, Nat.add_assoc, Nat.add_comm 1 k,
          List.getD_cons_succ]
      rw [strncmpName, hget, hsplit]
      change (if nameByte lower dr (UInt32.ofNat start) ≠ 0 ∧
        nameByte lower dr (UInt32.ofNat start) = s then _ else
          Except.ok (nameByte lower dr (UInt32.ofNat start) == s)) = _
      by_cases heq : nameByte lower dr (UInt32.ofNat start) = s
      · rw [if_pos ⟨heq ▸ hs, heq⟩, ih (fun c hc => hzero c (List.mem_cons_of_mem _ hc))
          (start + 1) (by omega) (by omega), List.length_cons]
        simp only [heq, beq_self_eq_true, Bool.true_and]
        rw [show 33 + (start + 1) + rest.length = 33 + start + (rest.length + 1) by omega]
      · have hno : (nameByte lower dr (UInt32.ofNat start) == s) = false := by simpa using heq
        rw [if_neg fun h => heq h.2, hno, Bool.false_and]
        rfl

end Buffer

/-- What both loops touch of a record, apart from their bodies, may be touched. -/
def RecordFits (lower : Bool) (dr : RecordBytes) (limit : Nat) : Prop :=
  (lower = true → 33 + (dr 32).toNat ≤ limit) ∧ NameFits dr limit

instance (lower : Bool) (dr : RecordBytes) (limit : Nat) : Decidable (RecordFits lower dr limit) :=
  inferInstanceAs (Decidable ((lower = true → _) ∧ _))

/-- There is a record at a position, as far as both loops are concerned. -/
def IsoDir.IsRecord (dir : IsoDir) (pos : UInt32) : Prop :=
  pos < dir.extent.size ∧ ¬ dir.readLen pos < 34 ∧ dir.record pos 0 ≠ 0

instance (dir : IsoDir) (pos : UInt32) : Decidable (dir.IsRecord pos) :=
  inferInstanceAs (Decidable (_ ∧ ¬ _ ∧ _))

/-- What a read gives is in the buffer, of which at least this much may be touched. -/
structure IsoReads.Faithful (reads : IsoReads) (dir : IsoDir) : Prop where
  bytes : ∀ n pos (i : UInt32), i < dir.readLen pos →
    (reads.fill n pos (dir.readLen pos)).bytes i = dir.record pos i
  limit : ∀ n pos, pos < dir.extent.size →
    (dir.readLen pos).toNat ≤ (reads.fill n pos (dir.readLen pos)).limit

section Turn

variable {dir : IsoDir} {reads : IsoReads} {body : σ → RecordBuffer → UInt32 → Except Halt (σ ⊕ ρ)}
  {n : Nat} {pos : UInt32} {state : σ}

theorem IsoDir.IsRecord.limit (h : dir.IsRecord pos) : 34 ≤ (dir.readLen pos).toNat :=
  UInt32.le_iff_toNat_le.mp (UInt32.not_lt.mp h.2.1)

/-- The length of a read is that of the buffer at most. -/
theorem read_len_le (hpos : pos < dir.extent.size) : (dir.readLen pos).toNat ≤ 256 := by
  rw [UInt32.lt_iff_toNat_lt] at hpos
  unfold IsoDir.readLen transferLen
  split
  · next h =>
      rw [gt_iff_lt, UInt32.lt_iff_toNat_lt, UInt32.toNat_add] at h
      change _ < (_ + 256) % 2 ^ 32 at h
      rw [toNat_sub_of_le (Nat.le_of_lt hpos)]
      have hsize := dir.extent.size.toNat_lt
      omega
  · exact Nat.le_refl _

/-- A scan ends where there is no record, or where a read fails. -/
theorem turn_stop (hreads : reads.Faithful dir) (h : ¬ dir.IsRecord pos ∨ reads.gives n = false) :
    dir.turn reads body n pos state = .ok (.done none) := by
  rw [IsoDir.turn]
  by_cases hpos : pos < dir.extent.size
  · rw [if_pos hpos]
    by_cases hgives : reads.gives n = true
    · simp only [hgives, if_true]
      have hnot := h.resolve_right (by simp [hgives])
      by_cases hshort : dir.readLen pos < 34
      · rw [if_pos hshort]
        rfl
      · have hlong : 34 ≤ (dir.readLen pos).toNat :=
          UInt32.le_iff_toNat_le.mp (UInt32.not_lt.mp hshort)
        have hfirst : (reads.fill n pos (dir.readLen pos)).get 0 = .ok 0 := by
          have hzero : dir.record pos 0 = 0 := by
            by_contra hne
            exact hnot ⟨hpos, hshort, hne⟩
          rw [RecordBuffer.get_ok, hreads.bytes n pos 0, hzero]
          · exact UInt32.lt_iff_toNat_lt.mpr (Nat.lt_of_lt_of_le (by decide) hlong)
          · exact Nat.lt_of_lt_of_le (Nat.lt_of_lt_of_le (by decide) hlong) (hreads.limit n pos hpos)
        rw [if_neg hshort, hfirst]
        rfl
    · simp only [hgives]
      rfl
  · rw [if_neg hpos]
    rfl

/-- The name of a record is found, or a byte is touched that may not be. -/
theorem name_of_record_spec {b : RecordBuffer} {lower : Bool} (hlimit : 34 ≤ b.limit) :
    nameOfRecord lower b = if RecordFits lower b.bytes b.limit then
      .ok ({ b with bytes := named lower b.bytes }, entryLen lower b.bytes)
    else .error .wild := by
  have hname : ∀ lower, recordName { b with bytes := named lower b.bytes } =
      if NameFits b.bytes b.limit then .ok (entryLen lower b.bytes) else .error .wild :=
    fun lower => record_name_spec rfl hlimit
  unfold nameOfRecord
  cases lower with
  | true =>
      rw [if_pos rfl, convert_spec (by omega)]
      by_cases hin : 33 + (b.bytes 32).toNat ≤ b.limit
      · rw [if_pos hin]
        change (recordName { b with bytes := named true b.bytes } >>= _) = _
        rw [hname]
        by_cases hfits : NameFits b.bytes b.limit
        · rw [if_pos hfits, if_pos (show RecordFits true _ _ from ⟨fun _ => hin, hfits⟩)]
          rfl
        · rw [if_neg hfits, if_neg fun h : RecordFits true _ _ => hfits h.2]
          rfl
      · rw [if_neg hin, if_neg fun h : RecordFits true _ _ => hin (h.1 rfl)]
        rfl
  | false =>
      have hplain := hname false
      rw [named_false] at hplain ⊢
      rw [if_neg (by decide)]
      change (recordName b >>= _) = _
      rw [hplain]
      by_cases hfits : NameFits b.bytes b.limit
      · rw [if_pos hfits, if_pos (show RecordFits false _ _ from ⟨nofun, hfits⟩)]
        rfl
      · rw [if_neg hfits, if_neg fun h : RecordFits false _ _ => hfits h.2]
        rfl

/-- One turn on a record. -/
theorem turn_record (hreads : reads.Faithful dir) (hrecord : dir.IsRecord pos)
    (hgives : reads.gives n = true) {b : RecordBuffer}
    (hb : reads.fill n pos (dir.readLen pos) = b) :
    dir.turn reads body n pos state =
      if RecordFits dir.lower b.bytes b.limit then
        match entryLen dir.lower b.bytes with
        | none => Except.ok (.next (pos + recordLen (dir.record pos)) state)
        | some len => (body state { b with bytes := named dir.lower b.bytes } len).map
            (Turn.after (pos + recordLen (dir.record pos)))
      else .error .wild := by
  obtain ⟨hpos, hshort, hne⟩ := hrecord
  have hlong : 34 ≤ (dir.readLen pos).toNat :=
    UInt32.le_iff_toNat_le.mp (UInt32.not_lt.mp hshort)
  have hlimit : 34 ≤ b.limit := hb ▸ Nat.le_trans hlong (hreads.limit n pos hpos)
  have hfirst : b.get 0 = .ok (dir.record pos 0) := by
    rw [RecordBuffer.get_ok (Nat.lt_of_lt_of_le (by decide) hlimit), ← hb, hreads.bytes n pos 0]
    exact UInt32.lt_iff_toNat_lt.mpr (Nat.lt_of_lt_of_le (by decide) hlong)
  rw [IsoDir.turn, if_pos hpos]
  simp only [hgives, if_true, if_neg hshort, hb, hfirst, bind, Except.bind, if_neg hne,
    name_of_record_spec hlimit]
  by_cases hfits : RecordFits dir.lower b.bytes b.limit
  · rw [if_pos hfits, if_pos hfits]
    cases entryLen dir.lower b.bytes with
    | none => rfl
    | some len =>
        dsimp only
        cases body state { b with bytes := named dir.lower b.bytes } len with
        | error halt => rfl
        | ok answer => rfl
  · rw [if_neg hfits, if_neg hfits]

end Turn

/-- A string of the kernel. -/
def IsCString (name : Name) : Prop :=
  (∀ c ∈ name, c ≠ 0) ∧ name.length < 2 ^ 31

/-- A file without a name passes for one with a name when the byte two places before it is `;`. -/
def LengthWraps (dr : RecordBytes) : Prop :=
  recordIsDir dr = false ∧ dr 32 = 0 ∧ dr 31 = 59

instance (dr : RecordBytes) : Decidable (LengthWraps dr) :=
  inferInstanceAs (Decidable (_ ∧ _ ∧ _))

section Bodies

variable {lower : Bool} {dr : RecordBytes} {limit : Nat} {len : UInt32}

/-- In front of the name there are the fields of the record. -/
theorem name_byte_in_front {back : UInt32} (hback : (dr 32).toNat < back.toNat)
    (hsmall : back.toNat ≤ 3) :
    nameByte lower dr (nameLen dr - back) = dr (33 + (nameLen dr - back)) := by
  refine name_byte_before ?_
  rw [UInt32.le_iff_toNat_le, UInt32.toNat_sub, name_len_to_nat]
  omega

theorem entry_len_dir (hdir : recordIsDir dr = true) (hlen : entryLen lower dr = some len) :
    len.toNat ≤ (dr 32).toNat := by
  have hname := name_len_to_nat dr
  have hentry : entryLen lower dr = some (if nameByte lower dr (nameLen dr - 1) = 46
      then nameLen dr - 1 else nameLen dr) := by
    simp [entryLen, hdir]
  rw [hentry, Option.some.injEq] at hlen
  subst hlen
  split
  · next hdot =>
      have hpos : 0 < (dr 32).toNat := by
        by_contra hnone
        have hone : (1 : UInt32).toNat = 1 := rfl
        rw [name_byte_in_front (by omega) (by decide)] at hdot
        have hzero : dr 32 = 0 := UInt8.toNat_inj.mp (by show _ = 0; omega)
        have hindex : 33 + (nameLen dr - 1) = 32 := by
          rw [nameLen, hzero]
          rfl
        rw [hindex, hzero] at hdot
        exact absurd hdot (by decide)
      rw [toNat_sub_of_le (show (1 : UInt32).toNat ≤ _ by rw [hname]; exact hpos)]
      omega
  · omega

/-- Without its version the name of a file is two bytes shorter, unless it wraps. -/
theorem entry_len_file (hdir : recordIsDir dr = false) (hlen : entryLen lower dr = some len) :
    len.toNat + 2 ≤ (dr 32).toNat ∨ LengthWraps dr ∧ 2 ^ 32 - 3 ≤ len.toNat := by
  have hname := name_len_to_nat dr
  have hentry : entryLen lower dr = if nameByte lower dr (nameLen dr - 2) ≠ 59 then none
      else some (if nameByte lower dr (nameLen dr - 2 - 1) = 46
        then nameLen dr - 2 - 1 else nameLen dr - 2) := by
    simp [entryLen, hdir]
  have hthree : nameLen dr - 2 - 1 = nameLen dr - 3 := by
    refine UInt32.toNat_inj.mp ?_
    rw [UInt32.toNat_sub, UInt32.toNat_sub, UInt32.toNat_sub]
    show (2 ^ 32 - 1 + (2 ^ 32 - 2 + _) % 2 ^ 32) % 2 ^ 32 = (2 ^ 32 - 3 + _) % 2 ^ 32
    omega
  have htwo' : (2 : UInt32).toNat = 2 := rfl
  have hthree' : (3 : UInt32).toNat = 3 := rfl
  rw [hentry, hthree] at hlen
  split at hlen
  · cases hlen
  · next hsemi =>
      rw [Option.some.injEq] at hlen
      subst hlen
      rcases Nat.lt_or_ge (dr 32).toNat 2 with hshort | hlong
      · rw [name_byte_in_front (by omega) (by decide), not_not] at hsemi
        obtain hzero | hone : dr 32 = 0 ∨ dr 32 = 1 := by
          rcases Nat.lt_or_ge (dr 32).toNat 1 with h | h
          · exact .inl (UInt8.toNat_inj.mp (by show _ = 0; omega))
          · exact .inr (UInt8.toNat_inj.mp (by show _ = 1; omega))
        · have hlen : nameLen dr = 0 := by
            rw [nameLen, hzero]
            rfl
          rw [hlen] at hsemi ⊢
          refine .inr ⟨⟨hdir, hzero, hsemi⟩, ?_⟩
          split
          · exact Nat.le_refl _
          · show 2 ^ 32 - 3 ≤ 2 ^ 32 - 2
            omega
        · have hlen : nameLen dr = 1 := by
            rw [nameLen, hone]
            rfl
          rw [hlen] at hsemi
          change dr 32 = 59 at hsemi
          rw [hone] at hsemi
          exact absurd hsemi (by decide)
      · refine .inl ?_
        split
        · next hdot =>
            have hthree'' : 3 ≤ (dr 32).toNat := by
              by_contra hnot
              have htwo : dr 32 = 2 := UInt8.toNat_inj.mp (by show _ = 2; omega)
              have hlen : nameLen dr = 2 := by
                rw [nameLen, htwo]
                rfl
              rw [name_byte_in_front (by omega) (by decide), hlen] at hdot
              change dr 32 = 46 at hdot
              rw [htwo] at hdot
              exact absurd hdot (by decide)
            rw [toNat_sub_of_le (by omega)]
            omega
        · rw [toNat_sub_of_le (by omega)]
          omega

theorem entry_len_wraps (lower : Bool) (h : LengthWraps dr) :
    ∃ len, entryLen lower dr = some len ∧ 2 ^ 32 - 3 ≤ len.toNat := by
  obtain ⟨hdir, hzero, hsemi⟩ := h
  have hlen : nameLen dr = 0 := by
    rw [nameLen, hzero]
    rfl
  have hfront : nameByte lower dr (0 - 2) = 59 := by
    rw [← hlen, name_byte_in_front (by rw [hzero]; decide) (by decide), hlen]
    exact hsemi
  refine ⟨if nameByte lower dr (0 - 2 - 1) = 46 then 0 - 2 - 1 else 0 - 2, ?_, ?_⟩
  · simpa [entryLen, hdir, hlen] using hfront
  · split
    · decide
    · decide

/-- The length of a name is that of a part of the record that may be touched, unless it wraps. -/
theorem entry_len_fits (hfits : RecordFits lower dr limit) (hlimit : 34 ≤ limit)
    (hlen : entryLen lower dr = some len) :
    33 + len.toNat ≤ limit ∧ len.toNat ≤ (dr 32).toNat ∨
      LengthWraps dr ∧ 2 ^ 32 - 3 ≤ len.toNat := by
  cases hdir : recordIsDir dr with
  | true =>
      have hle := entry_len_dir hdir hlen
      have hin := (name_fits_dir hdir).mp hfits.2
      exact .inl ⟨by omega, hle⟩
  | false =>
      refine (entry_len_file hdir hlen).imp_left fun hle => ?_
      have hin := (name_fits_file hdir).mp hfits.2
      exact ⟨by omega, by omega⟩

/-- What the walk does with a name. When it is the one that it looks for, the byte behind it is
touched. -/
theorem walk_body_spec {searchFor : Name} (hsearch : IsCString searchFor)
    (hfits : RecordFits lower dr limit) (hlimit : 34 ≤ limit)
    (hlen : entryLen lower dr = some len) :
    walkBody searchFor () { bytes := named lower dr, limit := limit } len =
      if entryMatches lower dr searchFor then
        if 33 + searchFor.length < limit then .ok (.inr (recordNode dr)) else .error .wild
      else .ok (.inl ()) := by
  have hmatch : entryMatches lower dr searchFor = (len.toNat == searchFor.length &&
      (List.range searchFor.length).all fun i =>
        nameByte lower dr (UInt32.ofNat i) == searchFor.getD i 0) := by
    rw [entryMatches, hlen]
  have hsmall := hsearch.2
  have hvalue : (UInt32.ofNat searchFor.length).toNat = searchFor.length :=
    UInt32.toNat_ofNat_of_lt' (show searchFor.length < 2 ^ 32 by omega)
  rw [walkBody, hmatch]
  by_cases heq : len = UInt32.ofNat searchFor.length
  · have hlength : len.toNat = searchFor.length := by rw [heq, hvalue]
    have hin : 33 + searchFor.length ≤ limit := by
      rcases entry_len_fits hfits hlimit hlen with hin | hwraps
      · omega
      · omega
    rw [if_neg (not_not.mpr heq), strncmp_name_spec rfl hsearch.1 0 (by omega) (by omega)]
    simp only [hlength, beq_self_eq_true, Bool.true_and, Nat.zero_add, Nat.add_zero]
    split
    · by_cases hbehind : 33 + searchFor.length < limit
      · rw [if_pos hbehind, if_pos hbehind]
        simp only [bind, Except.bind, if_true, node_spec (b := ⟨named lower dr, limit⟩) rfl hlimit]
        rfl
      · rw [if_neg hbehind, if_neg hbehind]
        rfl
    · rfl
  · have hno : (len.toNat == searchFor.length) = false := by
      rw [beq_eq_false_iff_ne, ← hvalue]
      exact fun h => heq (UInt32.toNat_inj.mp h)
    rw [if_pos heq, hno]
    rfl

/-- What `iso9660_dir_readdir` copies of a name. -/
def direntOf (lower : Bool) (dr : RecordBytes) (len : UInt32) : Dirent where
  name := (List.range (min len.toNat (dirMax - 1))).map fun i =>
    nameByte lower dr (UInt32.ofNat i)
  st := drStat (recordNode dr)

/-- What `iso9660_dir_readdir` does with a name. -/
theorem readdir_body_spec {entNo idx : UInt32} (hlimit : 34 ≤ limit) :
    readdirBody entNo idx { bytes := named lower dr, limit := limit } len =
      if idx - 2 = entNo then
        if 33 + min len.toNat (dirMax - 1) ≤ limit then .ok (.inr (direntOf lower dr len))
        else .error .wild
      else .ok (.inl (idx + 1)) := by
  rw [readdirBody]
  by_cases hidx : idx - 2 = entNo
  · have hcut : (if len.toNat ≥ dirMax then dirMax - 1 else len.toNat) =
        min len.toNat (dirMax - 1) := by
      show (if len.toNat ≥ 128 then 128 - 1 else len.toNat) = min len.toNat (128 - 1)
      split
      · omega
      · omega
    have hall : (∀ k ∈ List.range (min len.toNat (dirMax - 1)),
        (33 + UInt32.ofNat k).toNat < limit) ↔ 33 + min len.toNat (dirMax - 1) ≤ limit := by
      have hindex : ∀ k < dirMax, (33 + UInt32.ofNat k).toNat = 33 + k := by
        intro k hk
        change k < 128 at hk
        rw [UInt32.toNat_add, UInt32.toNat_ofNat']
        show (33 + k % 2 ^ 32) % 2 ^ 32 = _
        omega
      generalize hcount : min len.toNat (dirMax - 1) = count
      have hle : count ≤ 127 := by
        rw [← hcount]
        exact Nat.min_le_right _ _
      constructor
      · intro h
        rcases Nat.eq_zero_or_pos count with hzero | hpos
        · omega
        · have hlast := h (count - 1) (List.mem_range.mpr (by omega))
          rw [hindex _ (show count - 1 < 128 by omega)] at hlast
          omega
      · intro h k hk
        rw [List.mem_range] at hk
        rw [hindex k (show k < 128 by omega)]
        omega
    have hroom : min len.toNat (dirMax - 1) < dirMax :=
      Nat.lt_of_le_of_lt (Nat.min_le_right _ _) (by decide)
    rw [if_pos hidx, if_pos hidx]
    simp only [hcut, RecordBuffer.copy, mapM_get, hall]
    by_cases hin : 33 + min len.toNat (dirMax - 1) ≤ limit
    · rw [if_pos hin, if_pos hin]
      simp only [bind, Except.bind, if_pos hroom,
        node_spec (b := ⟨named lower dr, limit⟩) rfl hlimit, named_add]
      rfl
    · rw [if_neg hin, if_neg hin]
      rfl
  · rw [if_neg hidx, if_neg hidx]
    rfl

end Bodies

section Turns

variable {dir : IsoDir} {reads : IsoReads} {n : Nat} {pos : UInt32} {b : RecordBuffer}

/-- A turn of the walk on a record that it may touch. -/
theorem walk_turn {searchFor : Name} (hreads : reads.Faithful dir) (hrecord : dir.IsRecord pos)
    (hgives : reads.gives n = true) (hb : reads.fill n pos (dir.readLen pos) = b)
    (hsearch : IsCString searchFor) (hlimit : 34 ≤ b.limit)
    (hfits : RecordFits dir.lower b.bytes b.limit) :
    dir.turn reads (walkBody searchFor) n pos () =
      if entryMatches dir.lower b.bytes searchFor then
        if 33 + searchFor.length < b.limit then .ok (.done (some (recordNode b.bytes)))
        else .error .wild
      else .ok (.next (pos + recordLen (dir.record pos)) ()) := by
  rw [turn_record hreads hrecord hgives hb, if_pos hfits]
  cases hlen : entryLen dir.lower b.bytes with
  | none =>
      have hno : entryMatches dir.lower b.bytes searchFor = false := by
        rw [entryMatches, hlen]
      rw [hno]
      rfl
  | some len =>
      dsimp only
      rw [walk_body_spec hsearch hfits hlimit hlen]
      split
      · split
        · rfl
        · rfl
      · rfl

/-- A turn of the listing on a record that it may touch. -/
theorem readdir_turn (entNo idx : UInt32) (hreads : reads.Faithful dir)
    (hrecord : dir.IsRecord pos) (hgives : reads.gives n = true)
    (hb : reads.fill n pos (dir.readLen pos) = b) (hlimit : 34 ≤ b.limit)
    (hfits : RecordFits dir.lower b.bytes b.limit) :
    dir.turn reads (readdirBody entNo) n pos idx =
      match entryLen dir.lower b.bytes with
      | none => .ok (.next (pos + recordLen (dir.record pos)) idx)
      | some len =>
          if idx - 2 = entNo then
            if 33 + min len.toNat (dirMax - 1) ≤ b.limit then
              .ok (.done (some (direntOf dir.lower b.bytes len)))
            else .error .wild
          else .ok (.next (pos + recordLen (dir.record pos)) (idx + 1)) := by
  rw [turn_record hreads hrecord hgives hb, if_pos hfits]
  cases hlen : entryLen dir.lower b.bytes with
  | none => rfl
  | some len =>
      dsimp only
      rw [readdir_body_spec hlimit]
      split
      · split
        · rfl
        · rfl
      · rfl

end Turns

end Kogata.Kernel
