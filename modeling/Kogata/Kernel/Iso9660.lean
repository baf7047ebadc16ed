import Kogata.Kernel.Vfs
import Kogata.Lib.Word

/-!
# ISO 9660 directories

The directory walk of `kernel/fs/iso9660.c`, on the bytes of a disc. A directory is an extent with
a chain of records, the first two of which are the directory itself and its parent. The walk
compares these two with the name that it looks for like any other record, and the name of the
parent record is the byte `1`. So a path acts on the address of a directory as `normalize` says,
and `below_iff_suffix` is the test for whether what it leads to is below where it started.
-/

namespace Kogata.Kernel

/-- The bytes of a disc, by the address that the driver computes. -/
abbrev Disc := UInt32 → UInt8

/-- The bytes of an `iso9660_dr_t` and its name, by their offset from its start. -/
abbrev RecordBytes := UInt32 → UInt8

/-- The little-endian fields of a record that say where its contents are. -/
structure Extent where
  lba : UInt32
  size : UInt32
  deriving DecidableEq

/-- The record at a position of an extent, as `iso9660_node_read` reads it. -/
def recordAt (disc : Disc) (e : Extent) (pos : UInt32) : RecordBytes :=
  fun i => disc (e.lba * 2048 + pos + i)

/-- A little-endian word of a record. -/
def recordWord (dr : RecordBytes) (i : UInt32) : UInt32 :=
  (dr i).toUInt32 ||| (dr (i + 1)).toUInt32 <<< 8 ||| (dr (i + 2)).toUInt32 <<< 16 |||
    (dr (i + 3)).toUInt32 <<< 24

/-- `dr->len`. -/
def recordLen (dr : RecordBytes) : UInt32 :=
  (dr 0).toUInt32

/-- `dr->lba_loc.lsb` and `dr->size.lsb`. -/
def recordExtent (dr : RecordBytes) : Extent where
  lba := recordWord dr 2
  size := recordWord dr 10

/-- `dr->flags & ISO9660_DR_FLAG_DIR`. -/
def recordIsDir (dr : RecordBytes) : Bool :=
  dr 25 &&& 2 != 0

/-- `dr->name_len`. -/
def nameLen (dr : RecordBytes) : UInt32 :=
  (dr 32).toUInt32

/-- `name[i]`, after `convert_dr_to_lowercase` where the file system has lowercase names. -/
def nameByte (lower : Bool) (dr : RecordBytes) (i : UInt32) : UInt8 :=
  if lower = true ∧ i < nameLen dr ∧ 65 ≤ dr (33 + i) ∧ dr (33 + i) ≤ 90 then dr (33 + i) + 32
  else dr (33 + i)

/-- The length that the walk gives the name of a record: without `;` and the version of a file,
and without a final dot. A file without a version is passed over. -/
def entryLen (lower : Bool) (dr : RecordBytes) : Option UInt32 :=
  let len := if recordIsDir dr then nameLen dr else nameLen dr - 2
  if !recordIsDir dr && nameByte lower dr len != 59 then none
  else some (if nameByte lower dr (len - 1) = 46 then len - 1 else len)

/-- The record is the one that `iso9660_dir_walk` looks for. -/
def entryMatches (lower : Bool) (dr : RecordBytes) (searchFor : Name) : Bool :=
  match entryLen lower dr with
  | none => false
  | some len => len.toNat == searchFor.length &&
      (List.range searchFor.length).all fun i =>
        nameByte lower dr (UInt32.ofNat i) == searchFor.getD i 0

/-- What the driver asks of the kernel: whether a `pager_read`, a `malloc` or a `new_vfs_pager`
succeeds, and what was in the buffer behind the bytes that were read. -/
structure IsoMachine (W : Type) where
  pagerRead : W → Bool × W
  malloc : W → Bool × W
  newVfsPager : W → Bool × W
  stale : W → RecordBytes

variable {W : Type}

/-- The `256` bytes of `data` after a read at `pos` that gave `rs` bytes. -/
def readBuffer (disc : Disc) (e : Extent) (pos rs : UInt32) (stale : RecordBytes) : RecordBytes :=
  fun i => if i < rs then recordAt disc e pos i else stale i

/-- The loop of `iso9660_dir_walk`: the position of the record that it finds. A position moves up
by one at least, so that the size of the extent bounds the number of rounds. -/
def dirWalkLoop (disc : Disc) (lower : Bool) (m : IsoMachine W) (e : Extent) (searchFor : Name) :
    Nat → UInt32 → W → Option UInt32 × W
  | 0, _, w => (none, w)
  | fuel + 1, pos, w =>
      if pos < e.size then
        let (read, w) := m.pagerRead w
        let rs := if read then min 256 (e.size - pos) else 0
        if rs < 34 then (none, w)
        else
          let dr := readBuffer disc e pos rs (m.stale w)
          if recordLen dr = 0 then (none, w)
          else if entryMatches lower dr searchFor then (some pos, w)
          else dirWalkLoop disc lower m e searchFor fuel (pos + recordLen dr) w
      else (none, w)

section Records

variable {disc : Disc} {lower : Bool} {dr dr' : RecordBytes} {e : Extent} {pos : UInt32}

/-- A record matches one name at most. -/
theorem entry_matches_unique {name name' : Name} (h : entryMatches lower dr name = true)
    (h' : entryMatches lower dr name' = true) : name = name' := by
  unfold entryMatches at h h'
  cases hlen : entryLen lower dr with
  | none =>
      rw [hlen] at h
      cases h
  | some len =>
      rw [hlen] at h h'
      simp only [Bool.and_eq_true, beq_iff_eq, List.all_eq_true, List.mem_range] at h h'
      refine List.ext_getElem (h.1.symm.trans h'.1) fun i hi hi' => ?_
      have hbyte := (h.2 i hi).symm.trans (h'.2 i hi')
      simpa [List.getD, hi, hi'] using hbyte

theorem name_len_to_nat (dr : RecordBytes) : (nameLen dr).toNat = (dr 32).toNat := by
  simp [nameLen]

/-- The bytes of a record up to the end of its name are all that the comparison reads. -/
theorem name_byte_congr (hsame : ∀ i : UInt32, i.toNat < 33 + (dr 32).toNat → dr' i = dr i)
    {i : UInt32} (hi : (33 + i).toNat < 33 + (dr 32).toNat) :
    nameByte lower dr' i = nameByte lower dr i := by
  have hlen : nameLen dr' = nameLen dr := by
    unfold nameLen
    rw [hsame 32 (by show 32 < _; omega)]
  unfold nameByte
  rw [hlen, hsame _ hi]

theorem entry_len_congr (hpos : 0 < (dr 32).toNat)
    (hsame : ∀ i : UInt32, i.toNat < 33 + (dr 32).toNat → dr' i = dr i) :
    entryLen lower dr' = entryLen lower dr := by
  have hlen : nameLen dr' = nameLen dr := by
    unfold nameLen
    rw [hsame 32 (by show 32 < _; omega)]
  have hdir : recordIsDir dr' = recordIsDir dr := by
    unfold recordIsDir
    rw [hsame 25 (by show 25 < _; omega)]
  have hname := name_len_to_nat dr
  have hbyte := (dr 32).toNat_lt
  unfold entryLen
  rw [hlen, hdir]
  cases recordIsDir dr with
  | true =>
      have hlast : nameByte lower dr' (nameLen dr - 1) = nameByte lower dr (nameLen dr - 1) := by
        refine name_byte_congr hsame ?_
        have h1 : (1 : UInt32) ≤ nameLen dr := by
          rw [UInt32.le_iff_toNat_le]
          show 1 ≤ _
          omega
        rw [UInt32.toNat_add, UInt32.toNat_sub_of_le _ _ h1]
        show (33 + ((nameLen dr).toNat - 1)) % 2 ^ 32 < _
        omega
      simp [hlast]
  | false =>
      -- A name of one byte has its own length where the walk looks for the `;`.
      have hsemi : nameByte lower dr' (nameLen dr - 2) = nameByte lower dr (nameLen dr - 2) := by
        refine name_byte_congr hsame ?_
        rw [UInt32.toNat_add, UInt32.toNat_sub]
        show (33 + (2 ^ 32 - 2 + (nameLen dr).toNat) % 2 ^ 32) % 2 ^ 32 < _
        omega
      have hlast : nameByte lower dr' (nameLen dr - 2 - 1) =
          nameByte lower dr (nameLen dr - 2 - 1) := by
        refine name_byte_congr hsame ?_
        rw [UInt32.toNat_add, UInt32.toNat_sub, UInt32.toNat_sub]
        show (33 + (2 ^ 32 - 1 + (2 ^ 32 - 2 + (nameLen dr).toNat) % 2 ^ 32) % 2 ^ 32) % 2 ^ 32 < _
        omega
      simp [hsemi, hlast]

/-- A byte before the name is not lowercased. -/
theorem name_byte_before {i : UInt32} (hi : nameLen dr ≤ i) : nameByte lower dr i = dr (33 + i) := by
  unfold nameByte
  rw [if_neg fun h => UInt32.not_lt.mpr hi h.2.1]

/-- The length that is compared is not longer than the name. -/
theorem entry_len_le (hpos : 0 < (dr 32).toNat) {len : UInt32} (h : entryLen lower dr = some len) :
    len.toNat ≤ (dr 32).toNat := by
  have hname := name_len_to_nat dr
  have hbyte := (dr 32).toNat_lt
  -- The length before the name is no dot, and no semicolon where the name has one byte.
  have hbefore : nameByte lower dr (UInt32.ofNat (2 ^ 32 - 1)) = dr 32 := by
    rw [name_byte_before]
    · rfl
    · rw [UInt32.le_iff_toNat_le]
      show _ ≤ 2 ^ 32 - 1
      omega
  unfold entryLen at h
  cases hdir : recordIsDir dr with
  | true =>
      simp only [hdir, Bool.not_true, Bool.false_and, Bool.false_eq_true, if_false, if_true,
        Option.some.injEq] at h
      subst h
      split
      · rw [UInt32.toNat_sub]
        show (2 ^ 32 - 1 + (nameLen dr).toNat) % 2 ^ 32 ≤ _
        omega
      · exact Nat.le_of_eq hname
  | false =>
      simp only [hdir, Bool.not_false, Bool.true_and, Bool.false_eq_true, if_false] at h
      have hlen : (nameLen dr - 2).toNat = (2 ^ 32 - 2 + (nameLen dr).toNat) % 2 ^ 32 :=
        UInt32.toNat_sub _ _
      split at h
      · cases h
      · next hsemi =>
          cases h
          have htwo : 2 ≤ (dr 32).toNat := by
            by_contra hlt
            have hone : dr 32 = 1 := UInt8.toNat_inj.mp (by show _ = 1; omega)
            have hwrap : nameLen dr - 2 = UInt32.ofNat (2 ^ 32 - 1) := by
              unfold nameLen
              rw [hone]
              rfl
            rw [hwrap, hbefore, hone] at hsemi
            exact hsemi (by decide)
          split
          · next hdot =>
              have hthree : 3 ≤ (dr 32).toNat := by
                by_contra hlt
                have htwo' : dr 32 = 2 := UInt8.toNat_inj.mp (by show _ = 2; omega)
                have hwrap : nameLen dr - 2 - 1 = UInt32.ofNat (2 ^ 32 - 1) := by
                  unfold nameLen
                  rw [htwo']
                  rfl
                rw [hwrap, hbefore, htwo'] at hdot
                exact absurd hdot (by decide)
              rw [UInt32.toNat_sub, hlen]
              show (2 ^ 32 - 1 + (2 ^ 32 - 2 + (nameLen dr).toNat) % 2 ^ 32) % 2 ^ 32 ≤ _
              omega
          · rw [hlen]
            omega

/-- Records that agree up to the end of the name match the same names. -/
theorem entry_matches_congr (hpos : 0 < (dr 32).toNat)
    (hsame : ∀ i : UInt32, i.toNat < 33 + (dr 32).toNat → dr' i = dr i) (searchFor : Name) :
    entryMatches lower dr' searchFor = entryMatches lower dr searchFor := by
  unfold entryMatches
  rw [entry_len_congr hpos hsame]
  cases hlen : entryLen lower dr with
  | none => rfl
  | some len =>
      have hle := entry_len_le hpos hlen
      have hbyte := (dr 32).toNat_lt
      by_cases hsearch : len.toNat = searchFor.length
      · have hnames : ∀ i ∈ List.range searchFor.length,
            nameByte lower dr' (UInt32.ofNat i) = nameByte lower dr (UInt32.ofNat i) := by
          intro i hi
          have hlt := List.mem_range.mp hi
          refine name_byte_congr hsame ?_
          rw [UInt32.toNat_add, UInt32.toNat_ofNat']
          show (33 + i % 2 ^ 32) % 2 ^ 32 < _
          omega
        refine congrArg (_ && ·) ?_
        rw [Bool.eq_iff_iff, List.all_eq_true, List.all_eq_true]
        exact forall₂_congr fun i hi => by rw [hnames i hi]
      · have hno : (len.toNat == searchFor.length) = false := by simpa using hsearch
        simp only [hno, Bool.false_and]

end Records

section Chains

variable (disc : Disc) (lower : Bool) (e : Extent)

/-- The positions of an extent at which the walk may look for a record. A record of length `0` ends
the chain: the rest of the last block of a directory is filled with zeros. -/
inductive Visited : UInt32 → Prop
  | first : 0 < e.size → Visited 0
  | next {pos : UInt32} : Visited pos → recordLen (recordAt disc e pos) ≠ 0 →
      pos + recordLen (recordAt disc e pos) < e.size →
      Visited (pos + recordLen (recordAt disc e pos))

/-- From the first position on, the first record with the name is at the second. -/
inductive Finds (searchFor : Name) : UInt32 → UInt32 → Prop
  | here {pos : UInt32} : pos < e.size → recordLen (recordAt disc e pos) ≠ 0 →
      entryMatches lower (recordAt disc e pos) searchFor = true → Finds searchFor pos pos
  | later {pos found : UInt32} : pos < e.size → recordLen (recordAt disc e pos) ≠ 0 →
      entryMatches lower (recordAt disc e pos) searchFor = false →
      Finds searchFor (pos + recordLen (recordAt disc e pos)) found → Finds searchFor pos found

variable {disc lower e}

/-- A name is found in one place at most. -/
theorem Finds.unique {searchFor : Name} {pos found other : UInt32}
    (h : Finds disc lower e searchFor pos found) (h' : Finds disc lower e searchFor pos other) :
    found = other := by
  induction h with
  | here hin _ hmatch =>
      cases h' with
      | here => rfl
      | later _ _ hno => exact absurd hmatch (by simp [hno])
  | later hin hlen hno _ ih =>
      cases h' with
      | here _ _ hmatch => exact absurd hmatch (by simp [hno])
      | later _ _ _ h' => exact ih h'

theorem Finds.start {searchFor : Name} {pos found : UInt32}
    (h : Finds disc lower e searchFor pos found) : pos < e.size := by
  cases h with
  | here hin => exact hin
  | later hin => exact hin

/-- What is found is a record of the chain, and it has the name. -/
theorem Finds.visited {searchFor : Name} {pos found : UInt32}
    (h : Finds disc lower e searchFor pos found) (hpos : Visited disc e pos) :
    Visited disc e found ∧ recordLen (recordAt disc e found) ≠ 0 ∧
      entryMatches lower (recordAt disc e found) searchFor = true := by
  induction h with
  | here _ hlen hmatch => exact ⟨hpos, hlen, hmatch⟩
  | later _ hlen _ h ih => exact ih (hpos.next hlen h.start)

end Chains

/-- A directory record whose name is one byte. -/
structure IsDirNamed (dr : RecordBytes) (name : UInt8) (e : Extent) : Prop where
  len : recordLen dr ≠ 0
  dir : recordIsDir dr = true
  oneByte : dr 32 = 1
  name : dr 33 = name
  extent : recordExtent dr = e

/-- The position of the parent record, behind the self record. -/
def upPos (disc : Disc) (e : Extent) : UInt32 :=
  recordLen (recordAt disc e 0)

/-- A record of the extent other than the self record and the parent record. -/
structure Listed (disc : Disc) (e : Extent) (pos : UInt32) : Prop where
  visited : Visited disc e pos
  record : recordLen (recordAt disc e pos) ≠ 0
  notSelf : pos ≠ 0
  notUp : pos ≠ upPos disc e

/-- A directory tree on a disc: each directory extent begins with its self record and its parent
record, its records lie inside it, and each directory but the root is listed once, in its
parent. -/
structure DirectoryTree (disc : Disc) where
  root : Extent
  Dir : Extent → Prop
  parent : Extent → Extent
  rootDir : Dir root
  parentRoot : parent root = root
  self : ∀ e, Dir e → 0 < e.size ∧ IsDirNamed (recordAt disc e 0) 0 e
  up : ∀ e, Dir e → upPos disc e < e.size ∧ IsDirNamed (recordAt disc e (upPos disc e)) 1 (parent e)
  inside : ∀ e, Dir e → ∀ pos, Visited disc e pos → recordLen (recordAt disc e pos) ≠ 0 →
    0 < (recordAt disc e pos 32).toNat ∧
    33 + (recordAt disc e pos 32).toNat ≤ (recordAt disc e pos 0).toNat ∧
    pos.toNat + (recordAt disc e pos 0).toNat ≤ e.size.toNat
  child : ∀ e, Dir e → ∀ pos, Listed disc e pos → recordIsDir (recordAt disc e pos) = true →
    Dir (recordExtent (recordAt disc e pos)) ∧
      parent (recordExtent (recordAt disc e pos)) = e ∧
      recordExtent (recordAt disc e pos) ≠ root
  once : ∀ e, Dir e → ∀ pos pos', Listed disc e pos → Listed disc e pos' →
    recordIsDir (recordAt disc e pos) = true → recordIsDir (recordAt disc e pos') = true →
    recordExtent (recordAt disc e pos) = recordExtent (recordAt disc e pos') → pos = pos'

/-- What a record describes: a directory, by its extent, or a file, by the place of its record. -/
inductive Entity where
  | dir (e : Extent)
  | file (e : Extent) (pos : UInt32)
  deriving DecidableEq

/-- What the record at a place describes. -/
def entityAt (disc : Disc) (e : Extent) (pos : UInt32) : Entity :=
  if recordIsDir (recordAt disc e pos) then .dir (recordExtent (recordAt disc e pos))
  else .file e pos

/-- The directory, and what is listed in it or in a directory below it. -/
inductive Below (disc : Disc) (e : Extent) : Entity → Prop
  | self : Below disc e (.dir e)
  | child {e' : Extent} {pos : UInt32} : Below disc e (.dir e') → Listed disc e' pos →
      Below disc e (entityAt disc e' pos)

/-- The name of the self record. -/
abbrev selfName : Name := [0]
/-- The name of the parent record. -/
abbrev upName : Name := [1]

/-- The names that lead from the root to a place, the last one first. -/
inductive Located {disc : Disc} (tree : DirectoryTree disc) (lower : Bool) : Entity → List Name → Prop
  | root : Located tree lower (.dir tree.root) []
  | down {e : Extent} {address : List Name} {name : Name} {pos : UInt32} :
      Located tree lower (.dir e) address → Finds disc lower e name 0 pos → name ≠ selfName →
      name ≠ upName → Located tree lower (entityAt disc e pos) (name :: address)

/-- What an item of a path does to an address. No C string holds the name of the self record. -/
def stepName (address : List Name) (item : Name) : List Name :=
  if item = [] ∨ item = selfName then address
  else if item = upName then address.tail
  else item :: address

/-- What a path does to an address: the name of the parent record takes the name before it away. -/
def normalize (address : List Name) (items : List Name) : List Name :=
  items.foldl stepName address

section Trees

variable {disc : Disc} {lower : Bool} {tree : DirectoryTree disc} {e : Extent} {x : Entity}
  {address address' : List Name}

/-- A directory record of one byte has that byte as its name. -/
theorem IsDirNamed.entry_matches {dr : RecordBytes} {name : UInt8} (h : IsDirNamed dr name e)
    (hdot : name ≠ 46) (hupper : ¬ 65 ≤ name) (searchFor : Name) :
    entryMatches lower dr searchFor = true ↔ searchFor = [name] := by
  have hbyte : nameByte lower dr 0 = name := by
    unfold nameByte
    rw [if_neg]
    · exact h.name
    · intro hcase
      exact hupper (h.name ▸ hcase.2.2.1)
  have hlen : nameLen dr = 1 := by
    unfold nameLen
    rw [h.oneByte]
    rfl
  have hentry : entryLen lower dr = some 1 := by
    unfold entryLen
    simp only [h.dir, hlen, Bool.not_true, Bool.false_and, Bool.false_eq_true, if_false, if_true]
    rw [if_neg]
    show nameByte lower dr 0 ≠ 46
    rw [hbyte]
    exact hdot
  unfold entryMatches
  rw [hentry]
  constructor
  · intro hmatch
    simp only [Bool.and_eq_true, beq_iff_eq] at hmatch
    obtain ⟨hone, hall⟩ := hmatch
    obtain ⟨b, rfl⟩ := List.length_eq_one_iff.mp hone.symm
    have hb : nameByte lower dr 0 = b := by simpa using hall
    rw [← hb, hbyte]
  · intro hname
    subst hname
    simp [hbyte]

/-- The name of the self record leads to the self record. -/
theorem finds_self (lower : Bool) (hdir : tree.Dir e) : Finds disc lower e selfName 0 0 := by
  obtain ⟨hsize, hself⟩ := tree.self e hdir
  exact .here hsize hself.len ((hself.entry_matches (by decide) (by decide) _).mpr rfl)

/-- The name of the parent record leads to the parent record. -/
theorem finds_up (lower : Bool) (hdir : tree.Dir e) :
    Finds disc lower e upName 0 (upPos disc e) := by
  obtain ⟨hsize, hself⟩ := tree.self e hdir
  obtain ⟨hup, hparent⟩ := tree.up e hdir
  have hzero : 0 + recordLen (recordAt disc e 0) = upPos disc e := UInt32.zero_add _
  have hno : entryMatches lower (recordAt disc e 0) upName = false := by
    rw [Bool.eq_false_iff]
    intro hmatch
    exact absurd ((hself.entry_matches (by decide) (by decide) _).mp hmatch) (by decide)
  refine .later hsize hself.len hno ?_
  rw [hzero]
  exact .here hup hparent.len ((hparent.entry_matches (by decide) (by decide) _).mpr rfl)

/-- Every other name leads to a record that is listed. -/
theorem Finds.listed {name : Name} {pos : UInt32} (h : Finds disc lower e name 0 pos)
    (hdir : tree.Dir e) (hself : name ≠ selfName) (hup : name ≠ upName) : Listed disc e pos := by
  obtain ⟨hsize, hselfDr⟩ := tree.self e hdir
  obtain ⟨hvisited, hlen, hmatch⟩ := h.visited (.first hsize)
  refine ⟨hvisited, hlen, fun hzero => hself ?_, fun hpos => hup ?_⟩
  · rw [hzero] at hmatch
    exact (hselfDr.entry_matches (by decide) (by decide) name).mp hmatch
  · rw [hpos] at hmatch
    exact ((tree.up e hdir).2.entry_matches (by decide) (by decide) name).mp hmatch

theorem entity_at_dir {pos : UInt32} {e' : Extent} (h : entityAt disc e pos = .dir e') :
    recordIsDir (recordAt disc e pos) = true ∧ recordExtent (recordAt disc e pos) = e' := by
  unfold entityAt at h
  split at h
  · next hdir =>
      cases h
      exact ⟨hdir, rfl⟩
  · cases h

section

variable (h : Located tree lower (.dir e) address)

include h

/-- What is located as a directory is one. -/
theorem Located.dir : tree.Dir e := by
  generalize hx : Entity.dir e = x at h
  induction h generalizing e with
  | root =>
      cases hx
      exact tree.rootDir
  | down _ hfinds hself hup ih =>
      obtain ⟨hdir, hextent⟩ := entity_at_dir hx.symm
      have hlisted := hfinds.listed (ih rfl) hself hup
      exact hextent ▸ (tree.child _ (ih rfl) _ hlisted hdir).1

/-- The parent of a directory is located at the address without the last name. -/
theorem Located.up :
    Located tree lower (.dir (tree.parent e)) address.tail := by
  generalize hx : Entity.dir e = x at h
  cases h with
  | root =>
      cases hx
      rw [tree.parentRoot]
      exact .root
  | down hparent hfinds hself hup =>
      obtain ⟨hdir, hextent⟩ := entity_at_dir hx.symm
      have hlisted := hfinds.listed hparent.dir hself hup
      rw [← hextent, (tree.child _ hparent.dir _ hlisted hdir).2.1]
      exact hparent

/-- One step of a path. -/
theorem Located.step {item : Name} {pos : UInt32}
    (hitem : item ≠ []) (hfinds : Finds disc lower e item 0 pos) :
    Located tree lower (entityAt disc e pos) (stepName address item) := by
  unfold stepName
  by_cases hself : item = selfName
  · subst hself
    obtain rfl := hfinds.unique (finds_self lower h.dir)
    have hdr := (tree.self e h.dir).2
    have hentity : entityAt disc e 0 = .dir e := by
      unfold entityAt
      rw [if_pos hdr.dir, hdr.extent]
    rw [if_pos (.inr rfl), hentity]
    exact h
  · rw [if_neg (not_or.mpr ⟨hitem, hself⟩)]
    by_cases hup : item = upName
    · subst hup
      obtain rfl := hfinds.unique (finds_up lower h.dir)
      have hdr := (tree.up e h.dir).2
      have hentity : entityAt disc e (upPos disc e) = .dir (tree.parent e) := by
        unfold entityAt
        rw [if_pos hdr.dir, hdr.extent]
      rw [if_pos rfl, hentity]
      exact h.up
    · rw [if_neg hup]
      exact .down h hfinds hself hup

end

/-- An entity is listed in one directory, and there once. -/
theorem listed_unique {e' : Extent} {pos pos' : UInt32} (hdir : tree.Dir e) (hdir' : tree.Dir e')
    (h : Listed disc e pos) (h' : Listed disc e' pos')
    (hsame : entityAt disc e pos = entityAt disc e' pos') : e = e' ∧ pos = pos' := by
  cases hkind : entityAt disc e pos with
  | dir x =>
      obtain ⟨hflag, hextent⟩ := entity_at_dir hkind
      obtain ⟨hflag', hextent'⟩ := entity_at_dir (hsame ▸ hkind)
      have hparent := (tree.child e hdir pos h hflag).2.1
      have hparent' := (tree.child e' hdir' pos' h' hflag').2.1
      rw [hextent] at hparent
      rw [hextent'] at hparent'
      obtain rfl : e = e' := hparent.symm.trans hparent'
      exact ⟨rfl, tree.once e hdir pos pos' h h' hflag hflag' (hextent.trans hextent'.symm)⟩
  | file x q =>
      have hfile : ∀ {e : Extent} {pos : UInt32}, entityAt disc e pos = .file x q → e = x ∧ pos = q := by
        intro e pos hentity
        unfold entityAt at hentity
        split at hentity
        · cases hentity
        · cases hentity
          exact ⟨rfl, rfl⟩
      obtain ⟨rfl, rfl⟩ := hfile hkind
      obtain ⟨rfl, rfl⟩ := hfile (hsame ▸ hkind)
      exact ⟨rfl, rfl⟩

/-- The root is listed nowhere. -/
theorem root_not_listed {pos : UInt32} (hdir : tree.Dir e) (h : Listed disc e pos) :
    entityAt disc e pos ≠ .dir tree.root := by
  intro hroot
  obtain ⟨hflag, hextent⟩ := entity_at_dir hroot
  exact (tree.child e hdir pos h hflag).2.2 hextent

/-- An entity has one address. -/
theorem Located.unique (h : Located tree lower x address) (h' : Located tree lower x address') :
    address = address' := by
  induction h generalizing address' with
  | root =>
      generalize hx : Entity.dir tree.root = x at h'
      cases h' with
      | root => rfl
      | down hparent hfinds hself hup =>
          exact absurd hx.symm (root_not_listed hparent.dir (hfinds.listed hparent.dir hself hup))
  | @down e address name pos hparent hfinds hself hup ih =>
      generalize hx : entityAt disc e pos = x at h'
      have hlisted := hfinds.listed hparent.dir hself hup
      cases h' with
      | root => exact absurd hx (root_not_listed hparent.dir hlisted)
      | down hparent' hfinds' hself' hup' =>
          have hlisted' := hfinds'.listed hparent'.dir hself' hup'
          obtain ⟨rfl, rfl⟩ := listed_unique hparent.dir hparent'.dir hlisted hlisted' hx
          have hsize := (tree.self e hparent.dir).1
          obtain rfl := entry_matches_unique (hfinds.visited (.first hsize)).2.2
            (hfinds'.visited (.first hsize)).2.2
          rw [ih hparent']

/-- An address leads to one entity. -/
theorem Located.functional {y : Entity} (h : Located tree lower x address)
    (h' : Located tree lower y address) : x = y := by
  induction h generalizing y with
  | root =>
      cases h'
      rfl
  | down hparent hfinds _ _ ih =>
      cases h' with
      | down hparent' hfinds' _ _ =>
          obtain rfl := Entity.dir.inj (ih hparent')
          rw [hfinds.unique hfinds']

/-- What is below a directory and is itself a directory is one of the tree. -/
theorem Below.dir {e' : Extent} (h : Below disc e (.dir e')) (hdir : tree.Dir e) :
    tree.Dir e' := by
  generalize hx : Entity.dir e' = x at h
  induction h generalizing e' with
  | self =>
      cases hx
      exact hdir
  | child _ hlisted ih =>
      obtain ⟨hflag, hextent⟩ := entity_at_dir hx.symm
      exact hextent ▸ (tree.child _ (ih rfl) _ hlisted hflag).1

/-- What is below a directory is what has an address that begins with the directory's. -/
theorem below_iff_suffix (hdir : Located tree lower (.dir e) address)
    (h : Located tree lower x address') : Below disc e x ↔ address <:+ address' := by
  constructor
  · intro hbelow
    induction hbelow generalizing address' with
    | self =>
        exact hdir.unique h ▸ List.suffix_refl address
    | @child e' pos hbelow hlisted ih =>
        have hdir' := hbelow.dir hdir.dir
        generalize hx : entityAt disc e' pos = x at h
        cases h with
        | root => exact absurd hx (root_not_listed hdir' hlisted)
        | down hparent hfinds hself hup =>
            obtain ⟨rfl, -⟩ := listed_unique hdir' hparent.dir hlisted
              (hfinds.listed hparent.dir hself hup) hx
            exact (ih hparent).trans (List.suffix_cons _ _)
  · intro hsuffix
    induction h with
    | root =>
        obtain rfl := List.suffix_nil.mp hsuffix
        obtain rfl := Entity.dir.inj (hdir.functional .root)
        exact .self
    | down hparent hfinds hself hup ih =>
        rcases List.suffix_cons_iff.mp hsuffix with heq | hsuffix
        · subst heq
          rw [← hdir.functional (.down hparent hfinds hself hup)]
          exact .self
        · exact .child (ih hsuffix) (hfinds.listed hparent.dir hself hup)

end Trees

end Kogata.Kernel
