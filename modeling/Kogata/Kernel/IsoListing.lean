import Kogata.Kernel.IsoSafety

/-!
# Directories of a disc are enumerated

`iso9660_dir_readdir` and `iso9660_dir_walk` on the well-formed directories of ISO 9660: records one
behind the other, and zeros where one does not fit into its sector any more. A zero where a record
could begin is the end for both scans, and a file without a version of one byte is passed over; the
directories that have neither before their last entry are just those that are listed completely
(`dir_listed_completely_iff`).
-/

namespace Kogata.Kernel

open Lib.Word

/-- The byte at an offset of the directory. -/
def IsoDir.byteAt (dir : IsoDir) (x : Nat) : UInt8 :=
  dir.record (UInt32.ofNat x) 0

/-- The length of the record at a position. -/
def IsoDir.lenAt (dir : IsoDir) (pos : UInt32) : Nat :=
  (dir.record pos 0).toNat

/-- A record lies inside its sector and inside the directory, and its name inside the record. -/
@[mk_iff]
structure RecordOk (dir : IsoDir) (pos : UInt32) : Prop where
  len : 34 ≤ dir.lenAt pos
  sector : pos.toNat % 2048 + dir.lenAt pos ≤ 2048
  inside : pos.toNat + dir.lenAt pos ≤ dir.extent.size.toNat
  name : 0 < (dir.record pos 32).toNat
  named : 33 + (dir.record pos 32).toNat ≤ dir.lenAt pos

/-- A record begins here, or at the next sector behind nothing but zeros. -/
def BeginsAt (dir : IsoDir) (here : Nat) (pos : UInt32) : Prop :=
  pos.toNat = here ∨ here < pos.toNat ∧ pos.toNat = (here + 2047) / 2048 * 2048 ∧
    ∀ x, here ≤ x → x < pos.toNat → dir.byteAt x = 0

/-- The records of a directory from an offset on. -/
def RecordsFrom (dir : IsoDir) : Nat → List UInt32 → Prop
  | here, [] => here ≤ dir.extent.size.toNat ∧
      ∀ x, here ≤ x → x < dir.extent.size.toNat → dir.byteAt x = 0
  | here, pos :: rest => BeginsAt dir here pos ∧ RecordOk dir pos ∧
      RecordsFrom dir (pos.toNat + dir.lenAt pos) rest

/-- The record of a directory itself, or of its parent: its name is one byte. -/
def IsDotRecord (dir : IsoDir) (name : UInt8) (pos : UInt32) : Prop :=
  recordIsDir (dir.record pos) = true ∧ dir.record pos 32 = 1 ∧ dir.record pos 33 = name

/-- A directory with records for itself, for its parent and for its entries. -/
structure WellFormedDir (dir : IsoDir) (selfAt parentAt : UInt32) (entries : List UInt32) :
    Prop where
  records : RecordsFrom dir 0 (selfAt :: parentAt :: entries)
  isSelf : IsDotRecord dir 0 selfAt
  isParent : IsDotRecord dir 1 parentAt
  names : ∀ pos ∈ entries, ∀ i : UInt32, i.toNat < (dir.record pos 32).toNat →
    dir.record pos (33 + i) ≠ 0
  short : ∀ pos ∈ entries, ∀ len, entryLen dir.lower (dir.record pos) = some len →
    len.toNat < dirMax
  distinct : (selfAt :: parentAt :: entries).Pairwise fun pos pos' => ∀ name,
    entryMatches dir.lower (dir.record pos) name = true →
      entryMatches dir.lower (dir.record pos') name = false

/-- The scans take the record for an entry: it is a directory, or a file with a version of one
byte. -/
def IsoDir.Takes (dir : IsoDir) (pos : UInt32) : Bool :=
  (entryLen dir.lower (dir.record pos)).isSome

/-- Each record begins where the one before it ends. -/
def Contiguous (dir : IsoDir) : Nat → List UInt32 → Prop
  | _, [] => True
  | here, pos :: rest => pos.toNat = here ∧ Contiguous dir (pos.toNat + dir.lenAt pos) rest

/-- All reads succeed; a byte that a read has not filled is whatever it was. -/
def IsoDir.wholeBuffer (dir : IsoDir) (stale : Nat → RecordBytes) : IsoReads where
  gives := fun _ => true
  fill := fun n pos rs =>
    { bytes := readBuffer dir.disc dir.extent pos rs (stale n), limit := 256 }

/-- The name and the status of an entry are those of its record. -/
def Describes (dir : IsoDir) (pos : UInt32) (d : Dirent) : Prop :=
  ∃ len, entryLen dir.lower (dir.record pos) = some len ∧
    d = direntOf dir.lower (dir.record pos) len

/-- The entries are listed one after the other, each is found by its name, and then the list
ends. -/
structure ListedCompletely (dir : IsoDir) (stale : Nat → RecordBytes) (entries : List UInt32) :
    Prop where
  lists : ∀ k (h : k < entries.length), ∃ fuel d,
    iso9660DirReaddir dir (dir.wholeBuffer stale) (UInt32.ofNat k) fuel = .ok (some d) ∧
      Describes dir entries[k] d
  ends : ∃ fuel, iso9660DirReaddir dir (dir.wholeBuffer stale) (UInt32.ofNat entries.length) fuel =
    .ok none
  finds : ∀ pos ∈ entries, ∀ d, Describes dir pos d → ∃ fuel,
    iso9660DirWalk dir (dir.wholeBuffer stale) true true d.name fuel =
      .ok (some (recordNode (dir.record pos)))

section Listing

variable {dir : IsoDir} {stale : Nat → RecordBytes} {pos : UInt32} {here n : Nat}
  {records : List UInt32}

theorem whole_buffer_faithful : (dir.wholeBuffer stale).Faithful dir := by
  refine ⟨fun n pos i h => ?_, fun _ _ => read_len_le⟩
  simp only [IsoDir.wholeBuffer, readBuffer, if_pos h, IsoDir.record]

/-- The records that the scans come to. -/
def firstRecords (dir : IsoDir) : Nat → List UInt32 → List UInt32
  | _, [] => []
  | here, pos :: rest =>
      if pos.toNat = here then pos :: firstRecords dir (pos.toNat + dir.lenAt pos) rest else []

theorem first_records_eq_iff :
    firstRecords dir here records = records ↔ Contiguous dir here records := by
  induction records generalizing here with
  | nil => exact ⟨fun _ => trivial, fun _ => rfl⟩
  | cons pos rest ih =>
      rw [firstRecords, Contiguous]
      split
      · next h => rw [List.cons.injEq, ih, and_iff_right rfl, and_iff_right h]
      · next h => exact ⟨nofun, fun hand => absurd hand.1 h⟩

theorem first_records_sublist : (firstRecords dir here records).Sublist records := by
  induction records generalizing here with
  | nil => exact .slnil
  | cons pos rest ih =>
      rw [firstRecords]
      split
      · exact ih.cons_cons pos
      · exact List.nil_sublist _

/-- There is room for the records. -/
theorem records_length (h : RecordsFrom dir here records) :
    here + 34 * records.length ≤ dir.extent.size.toNat := by
  induction records generalizing here with
  | nil => exact h.1
  | cons pos rest ih =>
      obtain ⟨hbegins, hok, hrest⟩ := h
      have hroom := ih hrest
      have hlen := hok.len
      have hle : here ≤ pos.toNat := by
        rcases hbegins with heq | ⟨hlt, -⟩
        · omega
        · omega
      rw [List.length_cons]
      omega

/-- A read at a record gives all of it. -/
theorem RecordOk.read_len (h : RecordOk dir pos) : dir.lenAt pos ≤ (dir.readLen pos).toNat := by
  have hlen := h.len
  have hinside := h.inside
  have hbyte := (dir.record pos 0).toNat_lt
  have hsmall : dir.lenAt pos < 256 := hbyte
  unfold IsoDir.readLen transferLen
  split
  · rw [toNat_sub_of_le (by omega)]
    omega
  · exact Nat.le_of_lt hsmall

theorem RecordOk.is_record (h : RecordOk dir pos) : dir.IsRecord pos := by
  have hlen := h.len
  have hinside := h.inside
  have hread := h.read_len
  refine ⟨UInt32.lt_iff_toNat_lt.mpr (by omega), ?_, fun hzero => ?_⟩
  · rw [UInt32.lt_iff_toNat_lt]
    show ¬ _ < 34
    omega
  · rw [IsoDir.lenAt, hzero] at hlen
    exact absurd hlen (by decide)

/-- The buffer after a read at a record. -/
def IsoDir.bufferAt (dir : IsoDir) (stale : Nat → RecordBytes) (n : Nat) (pos : UInt32) :
    RecordBytes :=
  readBuffer dir.disc dir.extent pos (dir.readLen pos) (stale n)

theorem fill_whole_buffer (stale : Nat → RecordBytes) (n : Nat) (pos : UInt32) :
    (dir.wholeBuffer stale).fill n pos (dir.readLen pos) =
      { bytes := dir.bufferAt stale n pos, limit := 256 } := rfl

section

variable (h : RecordOk dir pos)

include h

theorem RecordOk.same {i : UInt32}
    (hi : i.toNat < 33 + (dir.record pos 32).toNat) :
    dir.bufferAt stale n pos i = dir.record pos i := by
  have hnamed := h.named
  have hread := h.read_len
  exact if_pos (UInt32.lt_iff_toNat_lt.mpr (by omega))

theorem RecordOk.name_len :
    dir.bufferAt stale n pos 32 = dir.record pos 32 := by
  have hname := h.name
  exact h.same (by show 32 < _; omega)

/-- Both scans may touch what they want of such a record. -/
theorem RecordOk.fits :
    RecordFits dir.lower (dir.bufferAt stale n pos) 256 := by
  have hnamed := h.named
  have hbyte := (dir.record pos 0).toNat_lt
  have hsmall : dir.lenAt pos < 256 := hbyte
  refine ⟨fun _ => by rw [h.name_len]; omega, ?_⟩
  unfold NameFits
  split
  · rw [h.name_len]
    omega
  · rw [h.name_len]
    omega

theorem RecordOk.entry_len :
    entryLen dir.lower (dir.bufferAt stale n pos) = entryLen dir.lower (dir.record pos) :=
  entry_len_congr h.name fun _ hi => h.same hi

theorem RecordOk.entry_matches (name : Name) :
    entryMatches dir.lower (dir.bufferAt stale n pos) name =
      entryMatches dir.lower (dir.record pos) name :=
  entry_matches_congr h.name (fun _ hi => h.same hi) name

theorem RecordOk.node :
    recordNode (dir.bufferAt stale n pos) = recordNode (dir.record pos) :=
  record_node_congr fun _ hx => h.same (by omega)

theorem RecordOk.dirent {len : UInt32}
    (hlen : entryLen dir.lower (dir.record pos) = some len) :
    direntOf dir.lower (dir.bufferAt stale n pos) len =
      direntOf dir.lower (dir.record pos) len := by
  have hle := entry_len_le h.name hlen
  unfold direntOf
  rw [h.node]
  refine congrArg (Dirent.mk · _) (List.map_congr_left fun i hi => ?_)
  have hlt := List.mem_range.mp hi
  refine name_byte_congr (fun _ hi => h.same hi) ?_
  rw [UInt32.toNat_add, UInt32.toNat_ofNat']
  show (33 + i % 2 ^ 32) % 2 ^ 32 < _
  omega

/-- The byte behind a name that matches is in the buffer. -/
theorem RecordOk.behind {searchFor : Name}
    (hmatch : entryMatches dir.lower (dir.record pos) searchFor = true) :
    33 + searchFor.length < 256 := by
  have hnamed := h.named
  have hbyte := (dir.record pos 0).toNat_lt
  have hsmall : dir.lenAt pos < 256 := hbyte
  unfold entryMatches at hmatch
  cases hlen : entryLen dir.lower (dir.record pos) with
  | none =>
      rw [hlen] at hmatch
      cases hmatch
  | some len =>
      rw [hlen] at hmatch
      simp only [Bool.and_eq_true, beq_iff_eq] at hmatch
      have hle := entry_len_le h.name hlen
      omega

end

/-- What the listing says of a record. -/
def IsoDir.dirent (dir : IsoDir) (pos : UInt32) : Option Dirent :=
  (entryLen dir.lower (dir.record pos)).map (direntOf dir.lower (dir.record pos))

/-- Where no record begins right away the scans end. -/
theorem no_record_of_zero (hzero : dir.byteAt here = 0) : ¬ dir.IsRecord (UInt32.ofNat here) :=
  fun h => h.2.2 hzero

theorem no_record_at_end (h : RecordsFrom dir here []) : ¬ dir.IsRecord (UInt32.ofNat here) := by
  intro hrecord
  have hsize := dir.extent.size.toNat_lt
  have hlt := UInt32.lt_iff_toNat_lt.mp hrecord.1
  rw [UInt32.toNat_ofNat_of_lt' (Nat.lt_of_le_of_lt h.1 hsize)] at hlt
  exact no_record_of_zero (h.2 here (Nat.le_refl here) hlt) hrecord

/-- A record begins right away, or the scans end. -/
theorem begins_here_or_stops (h : BeginsAt dir here pos) :
    pos = UInt32.ofNat here ∧ pos.toNat = here ∨
      pos.toNat ≠ here ∧ ¬ dir.IsRecord (UInt32.ofNat here) := by
  rcases h with rfl | ⟨hlt, -, hzeros⟩
  · exact .inl ⟨UInt32.ofNat_toNat.symm, rfl⟩
  · exact .inr ⟨by omega, no_record_of_zero (hzeros here (Nat.le_refl here) hlt)⟩

theorem record_end (pos : UInt32) :
    pos + recordLen (dir.record pos) = UInt32.ofNat (pos.toNat + dir.lenAt pos) := by
  rw [UInt32.ofNat_add, UInt32.ofNat_toNat, IsoDir.lenAt, recordLen]
  refine congrArg (pos + ·) (UInt32.toNat_inj.mp ?_)
  have hbyte := (dir.record pos 0).toNat_lt
  rw [UInt32.toNat_ofNat_of_lt' (show _ < 2 ^ 32 by omega), UInt8.toNat_toUInt32]

/-- The listing turns over the records that it comes to until it has passed as many as it was asked
to. -/
theorem readdir_run {k i : Nat} (hrecords : RecordsFrom dir here records) (hi : i ≤ k + 2)
    (hk : k + 2 < 2 ^ 32) :
    ∃ fuel, dir.loop (dir.wholeBuffer stale) (readdirBody (UInt32.ofNat k)) fuel n
      (UInt32.ofNat here) (UInt32.ofNat i) =
        .ok ((((firstRecords dir here records).filter dir.Takes)[k + 2 - i]?).bind
          dir.dirent) := by
  induction records generalizing here n i with
  | nil =>
      exact ⟨1, loop_of_done (turn_stop whole_buffer_faithful (.inl (no_record_at_end hrecords)))⟩
  | cons pos rest ih =>
      obtain ⟨hbegins, hok, hrest⟩ := hrecords
      rw [firstRecords]
      rcases begins_here_or_stops hbegins with ⟨rfl, hhere⟩ | ⟨hne, hstops⟩
      · rw [if_pos hhere]
        have hturn := readdir_turn (UInt32.ofNat k) (UInt32.ofNat i) whole_buffer_faithful
          hok.is_record rfl (fill_whole_buffer stale n (UInt32.ofNat here))
          (show 34 ≤ 256 by decide) hok.fits
        rw [hok.entry_len, record_end] at hturn
        cases hlen : entryLen dir.lower (dir.record (UInt32.ofNat here)) with
        | none =>
            rw [hlen] at hturn
            obtain ⟨fuel, hloop⟩ := ih (n := n + 1) hrest hi
            refine ⟨fuel + 1, (loop_of_next hturn).trans ?_⟩
            rw [List.filter_cons_of_neg (by rw [IsoDir.Takes, hlen]; decide)]
            exact hloop
        | some len =>
            rw [hlen] at hturn
            rw [List.filter_cons_of_pos (by rw [IsoDir.Takes, hlen]; rfl)]
            dsimp only at hturn
            rcases Nat.eq_or_lt_of_le hi with rfl | hlt
            · have hsame : UInt32.ofNat (k + 2) - 2 = UInt32.ofNat k := by
                rw [UInt32.ofNat_add]
                exact UInt32.add_sub_cancel _ _
              have hroom : 33 + min len.toNat (dirMax - 1) ≤ 256 := by
                change 33 + min len.toNat 127 ≤ 256
                omega
              rw [if_pos hsame, if_pos hroom, hok.dirent hlen] at hturn
              refine ⟨1, (loop_of_done hturn).trans ?_⟩
              rw [Nat.sub_self, List.getElem?_cons_zero, Option.bind_some, IsoDir.dirent, hlen]
              rfl
            · have hother : UInt32.ofNat i - 2 ≠ UInt32.ofNat k := by
                intro heq
                have hback : UInt32.ofNat i = UInt32.ofNat (k + 2) := by
                  rw [UInt32.ofNat_add, ← heq]
                  exact (UInt32.sub_add_cancel _ _).symm
                rw [← UInt32.toNat_inj, UInt32.toNat_ofNat_of_lt' (Nat.lt_trans hlt hk),
                  UInt32.toNat_ofNat_of_lt' hk] at hback
                omega
              rw [if_neg hother] at hturn
              obtain ⟨fuel, hloop⟩ := ih (n := n + 1) (i := i + 1) hrest hlt
              refine ⟨fuel + 1, (loop_of_next hturn).trans ?_⟩
              rw [show k + 2 - i = k + 2 - (i + 1) + 1 by omega, List.getElem?_cons_succ]
              exact (congrArg (dir.loop _ _ fuel _ _) (UInt32.ofNat_add i 1).symm).trans hloop
      · rw [if_neg hne]
        exact ⟨1, loop_of_done (turn_stop whole_buffer_faithful (.inl hstops))⟩

/-- The walk takes the first record of the name, of those that it comes to. -/
theorem walk_run {searchFor : Name} (hsearch : IsCString searchFor)
    (hrecords : RecordsFrom dir here records) :
    ∃ fuel, dir.loop (dir.wholeBuffer stale) (walkBody searchFor) fuel n (UInt32.ofNat here) () =
      .ok (((firstRecords dir here records).find? fun pos =>
        entryMatches dir.lower (dir.record pos) searchFor).map fun pos =>
          recordNode (dir.record pos)) := by
  induction records generalizing here n with
  | nil =>
      exact ⟨1, loop_of_done (turn_stop whole_buffer_faithful (.inl (no_record_at_end hrecords)))⟩
  | cons pos rest ih =>
      obtain ⟨hbegins, hok, hrest⟩ := hrecords
      rw [firstRecords]
      rcases begins_here_or_stops hbegins with ⟨rfl, hhere⟩ | ⟨hne, hstops⟩
      · have hturn := walk_turn whole_buffer_faithful hok.is_record rfl
          (fill_whole_buffer stale n (UInt32.ofNat here)) hsearch (show 34 ≤ 256 by decide) hok.fits
        rw [if_pos hhere]
        rw [hok.entry_matches, record_end] at hturn
        by_cases hmatch :
            entryMatches dir.lower (dir.record (UInt32.ofNat here)) searchFor = true
        · rw [if_pos hmatch, if_pos (hok.behind hmatch), hok.node] at hturn
          refine ⟨1, (loop_of_done hturn).trans ?_⟩
          simp only [List.find?_cons, hmatch, Option.map_some]
        · rw [if_neg hmatch] at hturn
          obtain ⟨fuel, hloop⟩ := ih (n := n + 1) hrest
          refine ⟨fuel + 1, (loop_of_next hturn).trans ?_⟩
          simp only [List.find?_cons, Bool.eq_false_iff.mpr hmatch]
          exact hloop
      · rw [if_neg hne]
        exact ⟨1, loop_of_done (turn_stop whole_buffer_faithful (.inl hstops))⟩

/-- The number of turns that a loop is given makes no difference to what it returns. -/
theorem loop_unique {σ ρ : Type} {reads : IsoReads}
    {body : σ → RecordBuffer → UInt32 → Except Halt (σ ⊕ ρ)} {state : σ} {fuel fuel' : Nat}
    {result result' : Option ρ} (h : dir.loop reads body fuel n pos state = .ok result)
    (h' : dir.loop reads body fuel' n pos state = .ok result') : result = result' := by
  induction fuel generalizing fuel' n pos state with
  | zero => cases h
  | succ fuel ih =>
      obtain ⟨rest, turn, heq, hturn, hnext⟩ := loop_ok h
      obtain ⟨rest', turn', rfl, hturn', hnext'⟩ := loop_ok h'
      obtain rfl := Nat.succ.inj heq
      obtain rfl := Except.ok.inj (hturn.symm.trans hturn')
      cases turn with
      | next pos' state' => exact ih (hnext pos' state' rfl) (hnext' pos' state' rfl)
      | done last =>
          rw [loop_of_done hturn] at h h'
          exact Except.ok.inj (h.symm.trans h')

theorem records_ok (h : RecordsFrom dir here records) : ∀ pos ∈ records, RecordOk dir pos := by
  induction records generalizing here with
  | nil => exact nofun
  | cons pos rest ih => exact List.forall_mem_cons.mpr ⟨h.2.1, ih h.2.2⟩

theorem takes_of_dir (h : recordIsDir (dir.record pos) = true) : dir.Takes pos = true := by
  simp [IsoDir.Takes, entryLen, h]

/-- Of elements of which no two satisfy it, the one that does is found. -/
theorem find_of_pairwise {α : Type} {p : α → Bool} {l : List α} {a : α}
    (hl : l.Pairwise fun x y => p x = true → p y = false) (hmem : a ∈ l) (ha : p a = true) :
    l.find? p = some a := by
  obtain ⟨before, behind, rfl⟩ := List.append_of_mem hmem
  refine List.find?_eq_some_iff_append.mpr ⟨ha, before, behind, rfl, fun x hx => ?_⟩
  have hfalse := (List.pairwise_append.mp hl).2.2 x hx a List.mem_cons_self
  by_contra hp
  rw [hfalse (by simpa using hp)] at ha
  cases ha

/-- The name of an entry is a string, and the name of its record. -/
theorem describes_name {d : Dirent} (hname : 0 < (dir.record pos 32).toNat)
    (hbytes : ∀ i : UInt32, i.toNat < (dir.record pos 32).toNat → dir.record pos (33 + i) ≠ 0)
    (hshort : ∀ len, entryLen dir.lower (dir.record pos) = some len → len.toNat < dirMax)
    (h : Describes dir pos d) :
    IsCString d.name ∧ entryMatches dir.lower (dir.record pos) d.name = true := by
  obtain ⟨len, hlen, rfl⟩ := h
  have hle := entry_len_le hname hlen
  have hlt : len.toNat < 128 := hshort len hlen
  have hmin : min len.toNat (dirMax - 1) = len.toNat := Nat.min_eq_left (by
    show len.toNat ≤ 127
    omega)
  have hlength : (direntOf dir.lower (dir.record pos) len).name.length = len.toNat := by
    rw [direntOf, List.length_map, List.length_range, hmin]
  refine ⟨⟨fun c hc => ?_, by omega⟩, ?_⟩
  · obtain ⟨i, hi, rfl⟩ := List.mem_map.mp hc
    rw [List.mem_range, hmin] at hi
    have hbyte := hbytes (UInt32.ofNat i)
      (by rw [UInt32.toNat_ofNat_of_lt' (show i < 2 ^ 32 by omega)]; omega)
    unfold nameByte
    split
    · next hupper =>
        intro hzero
        have hlow := UInt8.le_iff_toNat_le.mp hupper.2.2.1
        have hhigh := UInt8.le_iff_toNat_le.mp hupper.2.2.2
        have hsum := congrArg UInt8.toNat hzero
        rw [UInt8.toNat_add] at hsum
        change 65 ≤ _ at hlow
        change _ ≤ 90 at hhigh
        change (_ + 32) % 2 ^ 8 = 0 at hsum
        omega
    · exact hbyte
  · rw [entryMatches, hlen]
    simp only [hlength, beq_self_eq_true, Bool.true_and, List.all_eq_true, List.mem_range,
      beq_iff_eq]
    intro i hi
    rw [direntOf, hmin, List.getD_eq_getElem?_getD, List.getElem?_map, List.getElem?_range hi]
    rfl

/-- A well-formed directory is listed completely just when each record up to its last entry begins
where the one before it ends, and each file has a version of one byte. -/
theorem dir_listed_completely_iff {selfAt parentAt : UInt32} {entries : List UInt32}
    (hdir : WellFormedDir dir selfAt parentAt entries) :
    ListedCompletely dir stale entries ↔ entries = [] ∨
      Contiguous dir 0 (selfAt :: parentAt :: entries) ∧ ∀ pos ∈ entries, dir.Takes pos = true := by
  have hroom := records_length hdir.records
  have hsize := dir.extent.size.toNat_lt
  rw [List.length_cons, List.length_cons] at hroom
  have hlist : ∀ k ≤ entries.length, ∃ fuel,
      iso9660DirReaddir dir (dir.wholeBuffer stale) (UInt32.ofNat k) fuel =
        .ok ((((firstRecords dir 0 (selfAt :: parentAt :: entries)).filter dir.Takes)[k + 2]?).bind
          dir.dirent) :=
    fun k hk => readdir_run hdir.records (Nat.zero_le _) (by omega)
  have hbelow : ((firstRecords dir 0 (selfAt :: parentAt :: entries)).filter dir.Takes).Sublist
      (selfAt :: parentAt :: entries) :=
    List.filter_sublist.trans first_records_sublist
  constructor
  · intro h
    rcases Nat.eq_zero_or_pos entries.length with hnone | hsome
    · exact .inl (List.length_eq_zero_iff.mp hnone)
    · -- The last entry is listed, so that there is room for all of them.
      obtain ⟨fuel, d, hlast, -⟩ := h.lists (entries.length - 1) (by omega)
      obtain ⟨fuel', hlast'⟩ := hlist (entries.length - 1) (by omega)
      have hdirent := loop_unique hlast' hlast
      obtain ⟨pos, hpos, -⟩ := Option.bind_eq_some_iff.mp hdirent
      obtain ⟨hlong, -⟩ := List.getElem?_eq_some_iff.mp hpos
      have hall := hbelow.eq_of_length_le (by
        rw [List.length_cons, List.length_cons]
        omega)
      have hfirst : firstRecords dir 0 (selfAt :: parentAt :: entries) =
          selfAt :: parentAt :: entries := by
        refine first_records_sublist.eq_of_length_le ?_
        have hle := (List.filter_sublist (p := dir.Takes)
          (l := firstRecords dir 0 (selfAt :: parentAt :: entries))).length_le
        rwa [hall] at hle
      rw [hfirst, List.filter_eq_self] at hall
      exact .inr ⟨first_records_eq_iff.mp hfirst, fun pos hpos =>
        hall pos (List.mem_cons_of_mem _ (List.mem_cons_of_mem _ hpos))⟩
  · intro h
    have hends : ∃ fuel, iso9660DirReaddir dir (dir.wholeBuffer stale)
        (UInt32.ofNat entries.length) fuel = .ok none := by
      obtain ⟨fuel, hlast⟩ := hlist entries.length (Nat.le_refl _)
      refine ⟨fuel, hlast.trans ?_⟩
      rw [List.getElem?_eq_none (Nat.le_trans hbelow.length_le ?_)]
      · rfl
      · rw [List.length_cons, List.length_cons]
    rcases h with rfl | ⟨hcontiguous, htakes⟩
    · exact ⟨nofun, hends, nofun⟩
    · have hfirst := first_records_eq_iff.mpr hcontiguous
      have hnamed := records_ok hdir.records
      have hall : (selfAt :: parentAt :: entries).filter dir.Takes =
          selfAt :: parentAt :: entries := by
        refine List.filter_eq_self.mpr (List.forall_mem_cons.mpr ⟨takes_of_dir hdir.isSelf.1,
          List.forall_mem_cons.mpr ⟨takes_of_dir hdir.isParent.1, htakes⟩⟩)
      refine ⟨fun k hk => ?_, hends, fun pos hpos d hd => ?_⟩
      · obtain ⟨fuel, hloop⟩ := hlist k (Nat.le_of_lt hk)
        obtain ⟨len, hlen⟩ := Option.isSome_iff_exists.mp (htakes _ (List.getElem_mem hk))
        refine ⟨fuel, direntOf dir.lower (dir.record entries[k]) len, hloop.trans ?_,
          len, hlen, rfl⟩
        rw [hfirst, hall, List.getElem?_cons_succ, List.getElem?_cons_succ,
          List.getElem?_eq_getElem hk, Option.bind_some, IsoDir.dirent, hlen]
        rfl
      · have hmem : pos ∈ selfAt :: parentAt :: entries :=
          List.mem_cons_of_mem _ (List.mem_cons_of_mem _ hpos)
        obtain ⟨hstring, hmatch⟩ := describes_name (hnamed pos hmem).name (hdir.names pos hpos)
          (hdir.short pos hpos) hd
        have hfound := find_of_pairwise (hdir.distinct.imp fun h => h d.name) hmem hmatch
        obtain ⟨fuel, hloop⟩ : ∃ fuel, dir.loop (dir.wholeBuffer stale) (walkBody d.name) fuel 0
            (UInt32.ofNat 0) () = .ok _ := walk_run hstring hdir.records
        rw [hfirst, hfound] at hloop
        refine ⟨fuel, ?_⟩
        rw [iso9660DirWalk]
        change (dir.loop _ _ fuel 0 (UInt32.ofNat 0) () >>= _) = _
        rw [hloop]
        rfl

/-- Records with names that match the same have the same name. -/
theorem names_agree {lower : Bool} {dr dr' : RecordBytes} {name : Name} {len len' : UInt32}
    (hlen : entryLen lower dr = some len) (hlen' : entryLen lower dr' = some len')
    (h : entryMatches lower dr name = true) (h' : entryMatches lower dr' name = true) :
    len.toNat = len'.toNat ∧ ∀ i < len.toNat,
      nameByte lower dr (UInt32.ofNat i) = nameByte lower dr' (UInt32.ofNat i) := by
  simp only [entryMatches, hlen, hlen', Bool.and_eq_true, beq_iff_eq, List.all_eq_true,
    List.mem_range] at h h'
  refine ⟨h.1.trans h'.1.symm, fun i hi => ?_⟩
  rw [h.1] at hi
  exact (h.2 i hi).trans (h'.2 i hi).symm

end Listing

section Examples

/-- The record of a directory itself, or of its parent. -/
def dotRecord (name : UInt8) (i : UInt32) : UInt8 :=
  if i = 0 then 34 else if i = 25 then 2 else if i = 32 then 1 else if i = 33 then name else 0

/-- The record of a file `A.;1`. -/
def fileRecord (i : UInt32) : UInt8 :=
  if i = 0 then 38 else if i = 32 then 4 else if i = 33 then 65 else if i = 34 then 46
  else if i = 35 then 59 else if i = 36 then 49 else 0

/-- A directory of one file, of which the record begins at an offset. -/
def oneFile (start : UInt32) : IsoDir where
  disc := fun i =>
    if i < 34 then dotRecord 0 i else if i < 68 then dotRecord 1 (i - 34)
    else if start ≤ i ∧ i < start + 38 then fileRecord (i - start) else 0
  extent := { lba := 0, size := start + 38 }
  lower := false

theorem one_file_ok {start : UInt32} (h : start = 68 ∨ start = 2048) :
    RecordOk (oneFile start) 0 ∧ RecordOk (oneFile start) 34 ∧ RecordOk (oneFile start) start := by
  have hvalues : ∀ len name : Nat, 34 ≤ len → 0 < name → 33 + name ≤ len → ∀ pos : UInt32,
      (oneFile start).lenAt pos = len → ((oneFile start).record pos 32).toNat = name →
      pos.toNat % 2048 + len ≤ 2048 → pos.toNat + len ≤ (oneFile start).extent.size.toNat →
      RecordOk (oneFile start) pos := by
    rintro len name hlong hpos hnamed pos rfl rfl hsector hinside
    exact ⟨hlong, hsector, hinside, hpos, hnamed⟩
  have hdot := hvalues 34 1 (by omega) (by omega) (by omega)
  have hfile := hvalues 38 4 (by omega) (by omega) (by omega) start
  rcases h with rfl | rfl
  · exact ⟨hdot 0 rfl rfl (by decide) (by decide), hdot 34 rfl rfl (by decide) (by decide),
      hfile rfl rfl (by decide) (by decide)⟩
  · exact ⟨hdot 0 rfl rfl (by decide) (by decide), hdot 34 rfl rfl (by decide) (by decide),
      hfile rfl rfl (by decide) (by decide)⟩

theorem one_file_names {start : UInt32} (h : start = 68 ∨ start = 2048) :
    ∀ pos ∈ [0, 34, start], entryLen false ((oneFile start).record pos) = some 1 := by
  simp only [List.forall_mem_cons]
  rcases h with rfl | rfl
  · exact ⟨rfl, rfl, rfl, nofun⟩
  · exact ⟨rfl, rfl, rfl, nofun⟩

/-- The file may be right behind the parent or at the next sector. -/
theorem one_file_begins {start : UInt32} (h : start = 68 ∨ start = 2048) :
    BeginsAt (oneFile start) 68 start := by
  rcases h with rfl | rfl
  · exact .inl rfl
  · refine .inr ⟨by decide, by decide, fun x hx hlt => ?_⟩
    change x < 2048 at hlt
    have hvalue : (UInt32.ofNat x).toNat = x :=
      UInt32.toNat_ofNat_of_lt' (show x < 2 ^ 32 by omega)
    have hbefore : ∀ c : UInt32, c.toNat ≤ 68 → ¬ UInt32.ofNat x < c := by
      intro c hc
      rw [UInt32.lt_iff_toNat_lt, hvalue]
      omega
    have hfile : ¬ (2048 : UInt32) ≤ UInt32.ofNat x := by
      rw [UInt32.le_iff_toNat_le, hvalue]
      show ¬ 2048 ≤ x
      omega
    have hdisc : (oneFile 2048).byteAt x = (oneFile 2048).disc (UInt32.ofNat x) := by
      show (oneFile 2048).disc (0 * 2048 + UInt32.ofNat x + 0) = _
      rw [UInt32.zero_mul, UInt32.zero_add, UInt32.add_zero]
    rw [hdisc]
    show (if UInt32.ofNat x < 34 then _ else _) = _
    rw [if_neg (hbefore 34 (by decide)), if_neg (hbefore 68 (by decide)),
      if_neg fun h => hfile h.1]

theorem one_file_well_formed {start : UInt32} (h : start = 68 ∨ start = 2048) :
    WellFormedDir (oneFile start) 0 34 [start] := by
  obtain ⟨hok, hok', hokfile⟩ := one_file_ok h
  have hnames := one_file_names h
  have hdistinct : ∀ pos ∈ [0, 34, start], ∀ pos' ∈ [0, 34, start],
      nameByte false ((oneFile start).record pos) 0 ≠
        nameByte false ((oneFile start).record pos') 0 →
      ∀ name, entryMatches false ((oneFile start).record pos) name = true →
        entryMatches false ((oneFile start).record pos') name = false := by
    intro pos hpos pos' hpos' hne name hmatch
    by_contra hmatch'
    rw [Bool.not_eq_false] at hmatch'
    exact hne ((names_agree (hnames pos hpos) (hnames pos' hpos') hmatch hmatch').2 0
      (by decide))
  constructor
  · have hlens : (0 : UInt32).toNat + (oneFile start).lenAt 0 = 34 ∧
        (34 : UInt32).toNat + (oneFile start).lenAt 34 = 68 ∧
        start.toNat + (oneFile start).lenAt start = (oneFile start).extent.size.toNat := by
      rcases h with rfl | rfl
      · exact ⟨rfl, rfl, rfl⟩
      · exact ⟨rfl, rfl, rfl⟩
    obtain ⟨hself, hparent, hend⟩ := hlens
    refine ⟨.inl rfl, hok, .inl hself.symm, hok', hparent ▸ one_file_begins h, hokfile, ?_⟩
    exact ⟨Nat.le_of_eq hend, fun x hx hlt => absurd hlt (by omega)⟩
  · rcases h with rfl | rfl
    · exact ⟨rfl, rfl, rfl⟩
    · exact ⟨rfl, rfl, rfl⟩
  · rcases h with rfl | rfl
    · exact ⟨rfl, rfl, rfl⟩
    · exact ⟨rfl, rfl, rfl⟩
  · intro pos hpos i hi
    obtain rfl := List.mem_singleton.mp hpos
    have hall : ∀ k < ((oneFile pos).record pos 32).toNat,
        (oneFile pos).record pos (33 + UInt32.ofNat k) ≠ 0 := by
      rcases h with rfl | rfl
      · decide +kernel
      · decide +kernel
    have hbyte := hall i.toNat hi
    rwa [UInt32.ofNat_toNat] at hbyte
  · intro pos hpos len hlen
    have hone := hnames pos (by simp [List.mem_singleton.mp hpos])
    obtain rfl := Option.some.inj (hone.symm.trans hlen)
    decide
  · have hvalues : nameByte false ((oneFile start).record 0) 0 = 0 ∧
        nameByte false ((oneFile start).record 34) 0 = 1 ∧
        nameByte false ((oneFile start).record start) 0 = 65 := by
      rcases h with rfl | rfl
      · exact ⟨rfl, rfl, rfl⟩
      · exact ⟨rfl, rfl, rfl⟩
    obtain ⟨hself, hparent, hfile⟩ := hvalues
    refine List.pairwise_cons.mpr ⟨?_, List.pairwise_cons.mpr ⟨?_, List.pairwise_singleton _ _⟩⟩
    · refine List.forall_mem_cons.mpr ⟨?_, List.forall_mem_singleton.mpr ?_⟩
      · exact hdistinct 0 (by simp) 34 (by simp) (by rw [hself, hparent]; decide)
      · exact hdistinct 0 (by simp) start (by simp) (by rw [hself, hfile]; decide)
    · exact List.forall_mem_singleton.mpr
        (hdistinct 34 (by simp) start (by simp) (by rw [hparent, hfile]; decide))

/-- With the file right behind the parent all of the directory is listed. -/
theorem near_file_listed :
    ListedCompletely (oneFile 68) (fun _ _ => 0) [68] ↔
      [(68 : UInt32)] = [] ∨ Contiguous (oneFile 68) 0 [0, 34, 68] ∧
        ∀ pos ∈ [68], (oneFile 68).Takes pos = true :=
  dir_listed_completely_iff (one_file_well_formed (.inl rfl))

/-- With the file at the next sector it is not. -/
theorem far_file_lost : ¬ ∀ dir stale selfAt parentAt entries,
    WellFormedDir dir selfAt parentAt entries → ListedCompletely dir stale entries := by
  intro h
  have hdir := one_file_well_formed (.inr rfl)
  obtain ⟨fuel, d, hlisted, -⟩ :=
    (h _ (fun _ _ => 0) 0 34 [2048] hdir).lists 0 (by decide)
  obtain ⟨fuel', hrun⟩ : ∃ fuel, iso9660DirReaddir (oneFile 2048)
      ((oneFile 2048).wholeBuffer fun _ _ => 0) 0 fuel = .ok _ :=
    readdir_run hdir.records (Nat.zero_le 2) (by decide)
  cases loop_unique hrun hlisted

end Examples

end Kogata.Kernel
