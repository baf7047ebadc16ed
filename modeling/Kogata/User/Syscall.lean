import Kogata.Kernel.SyscallTable
import Mathlib.Data.List.TakeWhile

/-!
# System calls from both sides

The stubs `sc_*` of `lib/libc/syscall.c` against the table of the kernel. A text argument is a
zero-terminated string in the memory of the process. Some stubs pass the address of a structure of
their own, which lies apart from the strings.
-/

namespace Kogata.User

open Lib.Bytes Kernel.Syscall

/-- A string in the memory. -/
structure CStr (m : Mem) where
  addr : UInt32
  text : List UInt8
  nonzero : ∀ c ∈ text, c ≠ 0
  bytes : ∀ i (h : i < text.length), m (addr.toNat + i) = text[i]
  ends : m (addr.toNat + text.length) = 0
  fits : addr.toNat + text.length < 2 ^ 32

/-- `strlen`, with the bytes it may look at. -/
def strlenFrom (m : Mem) : Nat → Nat → Nat
  | 0, _ => 0
  | fuel + 1, x => if m x = 0 then 0 else strlenFrom m fuel (x + 1) + 1

/-- `strlen`. -/
def strlen (m : Mem) (p : UInt32) : UInt32 := UInt32.ofNat (strlenFrom m (2 ^ 32) p.toNat)

/-- `sizeof(sc_make_fs_args_t)` and `sizeof(sc_subfs_args_t)`. -/
abbrev sizeofArgs : Nat := 32

/-- The string does not meet the structure of a stub. -/
def CStr.Apart {m : Mem} (s : CStr m) (frame : UInt32) : Prop :=
  s.addr.toNat + s.text.length < frame.toNat ∨ frame.toNat + sizeofArgs ≤ s.addr.toNat

/-- A call of a stub with its arguments. -/
inductive Stub (m : Mem) where
  | dbgPrint (str : CStr m)
  | yield
  | exit (code : Int32)
  | usleep (usecs : Int32)
  | sysNewThread (eip esp : UInt32)
  | exitThread
  | mmap (addr size : UInt32) (mode : Int32)
  | mmapFile (file : Int32) (offset addr size : UInt32) (mode : Int32)
  | mchmap (addr : UInt32) (mode : Int32)
  | munmap (addr : UInt32)
  | create (name : CStr m) (type : Int32)
  | delete (name : CStr m)
  | move (oldname newname : CStr m)
  | stat (name : CStr m) (s : UInt32)
  | openFile (name : CStr m) (mode : Int32)
  | close (file : Int32)
  | read (file : Int32) (offset len buf : UInt32)
  | write (file : Int32) (offset len buf : UInt32)
  | readdir (file : Int32) (entNo d : UInt32)
  | statOpen (file : Int32) (s : UInt32)
  | ioctl (file command : Int32) (data : UInt32)
  | fctl (file command : Int32) (data : UInt32)
  | select (fds nfds : UInt32) (timeout : Int32)
  | makeChannel (blocking : Bool)
  | makeShm (s : UInt32)
  | genToken (file : Int32) (tok : UInt32)
  | useToken (tok : UInt32)
  | makeFs (name driver : CStr m) (source : Int32) (options : CStr m)
  | fsAddSource (fs : CStr m) (source : Int32) (options : CStr m)
  | fsSubfs (name origFs root : CStr m) (okModes : Int32)
  | fsRemove (name : CStr m)
  | newProc
  | bindFs (pid : Int32) (newName fs : CStr m)
  | bindSubfs (pid : Int32) (newName origFs root : CStr m) (okModes : Int32)
  | bindMakeFs (pid : Int32) (name driver : CStr m) (source : Int32) (options : CStr m)
  | bindFd (pid newFd fd : Int32)
  | procExec (pid : Int32) (file : CStr m)
  | procStatus (pid : Int32) (s : UInt32)
  | procKill (pid : Int32) (s : UInt32)
  | procWait (pid : Int32) (block : Bool) (s : UInt32)

/-- What `sc_docall` gets: the number, the words, and the memory with the structure of the stub. -/
structure Docall where
  scId : UInt32
  args : ScArgs
  mem : Mem

section Stubs

variable {m : Mem}

/-- `sc_docall`. -/
def scDocall (m : Mem) (scId a b c d e : UInt32) : Docall :=
  { scId := scId, args := { a := a, b := b, c := c, d := d, e := e }, mem := m }

/-- The words of a structure, one behind the other. -/
def storeWords (m : Mem) (x : Nat) : List UInt32 → Mem
  | [] => m
  | w :: rest => storeWords (store32 m x w.toNat) (x + 4) rest

/-- The argument for a `bool` parameter. -/
def ofBool (b : Bool) : UInt32 := if b then 1 else 0

/-- The fields of a `sc_make_fs_args_t`. -/
def makeFsArgs (m : Mem) (name driver : CStr m) (source : Int32) (options : CStr m)
    (bindTo : Int32) : List UInt32 :=
  [driver.addr, strlen m driver.addr, name.addr, strlen m name.addr, source.toUInt32,
    options.addr, strlen m options.addr, bindTo.toUInt32]

/-- The fields of a `sc_subfs_args_t`. -/
def subfsArgs (m : Mem) (name origFs root : CStr m) (okModes bindTo : Int32) : List UInt32 :=
  [name.addr, strlen m name.addr, origFs.addr, strlen m origFs.addr, root.addr,
    strlen m root.addr, okModes.toUInt32, bindTo.toUInt32]

/-- The body of the stub; `frame` is the address of its own structure. -/
def Stub.docall (frame : UInt32) : Stub m → Docall
  | .dbgPrint str => scDocall m Sc.dbgPrint str.addr (strlen m str.addr) 0 0 0
  | .yield => scDocall m Sc.yield 0 0 0 0 0
  | .exit code => scDocall m Sc.exit code.toUInt32 0 0 0 0
  | .usleep usecs => scDocall m Sc.usleep usecs.toUInt32 0 0 0 0
  | .sysNewThread eip esp => scDocall m Sc.newThread eip esp 0 0 0
  | .exitThread => scDocall m Sc.exitThread 0 0 0 0 0
  | .mmap addr size mode => scDocall m Sc.mmap addr size mode.toUInt32 0 0
  | .mmapFile file offset addr size mode =>
      scDocall m Sc.mmapFile file.toUInt32 offset addr size mode.toUInt32
  | .mchmap addr mode => scDocall m Sc.mchmap addr mode.toUInt32 0 0 0
  | .munmap addr => scDocall m Sc.munmap addr 0 0 0 0
  | .create name type => scDocall m Sc.create name.addr (strlen m name.addr) type.toUInt32 0 0
  | .delete name => scDocall m Sc.create name.addr (strlen m name.addr) 0 0 0
  | .move oldname newname =>
      scDocall m Sc.move oldname.addr (strlen m oldname.addr) newname.addr
        (strlen m newname.addr) 0
  | .stat name s => scDocall m Sc.stat name.addr (strlen m name.addr) s 0 0
  | .openFile name mode => scDocall m Sc.openFile name.addr (strlen m name.addr) mode.toUInt32 0 0
  | .close file => scDocall m Sc.close file.toUInt32 0 0 0 0
  | .read file offset len buf => scDocall m Sc.read file.toUInt32 offset len buf 0
  | .write file offset len buf => scDocall m Sc.write file.toUInt32 offset len buf 0
  | .readdir file entNo d => scDocall m Sc.readdir file.toUInt32 entNo d 0 0
  | .statOpen file s => scDocall m Sc.statOpen file.toUInt32 s 0 0 0
  | .ioctl file command data => scDocall m Sc.ioctl file.toUInt32 command.toUInt32 data 0 0
  | .fctl file command data => scDocall m Sc.fctl file.toUInt32 command.toUInt32 data 0 0
  | .select fds nfds timeout => scDocall m Sc.select fds nfds timeout.toUInt32 0 0
  | .makeChannel blocking => scDocall m Sc.mkChannel (ofBool blocking) frame 0 0 0
  | .makeShm s => scDocall m Sc.mkShm s 0 0 0 0
  | .genToken file tok => scDocall m Sc.genToken file.toUInt32 tok 0 0 0
  | .useToken tok => scDocall m Sc.useToken tok 0 0 0 0
  | .makeFs name driver source options =>
      scDocall (storeWords m frame.toNat (makeFsArgs m name driver source options 0))
        Sc.makeFs frame 0 0 0 0
  | .fsAddSource fs source options =>
      scDocall m Sc.fsAddSrc fs.addr (strlen m fs.addr) source.toUInt32 options.addr
        (strlen m options.addr)
  | .fsSubfs name origFs root okModes =>
      scDocall (storeWords m frame.toNat (subfsArgs m name origFs root okModes 0))
        Sc.subfs frame 0 0 0 0
  | .fsRemove name => scDocall m Sc.rmFs name.addr (strlen m name.addr) 0 0 0
  | .newProc => scDocall m Sc.newProc 0 0 0 0 0
  | .bindFs pid newName fs =>
      scDocall m Sc.bindFs pid.toUInt32 newName.addr (strlen m newName.addr) fs.addr
        (strlen m fs.addr)
  | .bindSubfs pid newName origFs root okModes =>
      scDocall (storeWords m frame.toNat (subfsArgs m newName origFs root okModes pid))
        Sc.bindSubfs frame 0 0 0 0
  | .bindMakeFs pid name driver source options =>
      scDocall (storeWords m frame.toNat (makeFsArgs m name driver source options pid))
        Sc.bindMakeFs frame 0 0 0 0
  | .bindFd pid newFd fd => scDocall m Sc.bindFd pid.toUInt32 newFd.toUInt32 fd.toUInt32 0 0
  | .procExec pid file =>
      scDocall m Sc.procExec pid.toUInt32 file.addr (strlen m file.addr) 0 0
  | .procStatus pid s => scDocall m Sc.procStatus pid.toUInt32 s 0 0 0
  | .procKill pid s => scDocall m Sc.procKill pid.toUInt32 s 0 0 0
  | .procWait pid block s => scDocall m Sc.procWait pid.toUInt32 (ofBool block) s 0 0

/-- The operation that the stub is named after, with its arguments. -/
def Stub.asks (frame : UInt32) : Stub m → Request
  | .dbgPrint str => .dbgPrint str.text
  | .yield => .yield
  | .exit code => .exit code
  | .usleep usecs => .usleep usecs
  | .sysNewThread eip esp => .newThread eip esp
  | .exitThread => .exitThread
  | .mmap addr size mode => .mmap addr size mode
  | .mmapFile file offset addr size mode => .mmapFile file offset addr size mode
  | .mchmap addr mode => .mchmap addr mode
  | .munmap addr => .munmap addr
  | .create name type => .create name.text type
  | .delete name => .delete name.text
  | .move oldname newname => .move oldname.text newname.text
  | .stat name s => .stat name.text s
  | .openFile name mode => .openFile name.text mode
  | .close file => .close file
  | .read file offset len buf => .read file offset len buf
  | .write file offset len buf => .write file offset len buf
  | .readdir file entNo d => .readdir file entNo d
  | .statOpen file s => .statOpen file s
  | .ioctl file command data => .ioctl file command data
  | .fctl file command _ => .fctl file command
  | .select fds nfds timeout => .select fds nfds timeout
  | .makeChannel blocking => .makeChannel blocking frame
  | .makeShm s => .makeShm s
  | .genToken file tok => .genToken file tok
  | .useToken tok => .useToken tok
  | .makeFs name driver source options => .makeFs driver.text name.text source options.text 0
  | .fsAddSource fs source options => .fsAddSource fs.text source options.text
  | .fsSubfs name origFs root okModes => .subfs name.text origFs.text root.text okModes 0
  | .fsRemove name => .rmFs name.text
  | .newProc => .newProc
  | .bindFs pid newName fs => .bindFs pid newName.text fs.text
  | .bindSubfs pid newName origFs root okModes =>
      .subfs newName.text origFs.text root.text okModes pid
  | .bindMakeFs pid name driver source options =>
      .makeFs driver.text name.text source options.text pid
  | .bindFd pid newFd fd => .bindFd pid newFd fd
  | .procExec pid file => .procExec pid file.text
  | .procStatus pid s => .procStatus pid s
  | .procKill pid s => .procKill pid s
  | .procWait pid block s => .procWait pid block s

/-- The string arguments of a stub with a structure of its own. -/
def Stub.strings : Stub m → List (CStr m)
  | .makeFs name driver _ options => [name, driver, options]
  | .fsSubfs name origFs root _ => [name, origFs, root]
  | .bindSubfs _ newName origFs root _ => [newName, origFs, root]
  | .bindMakeFs _ name driver _ options => [name, driver, options]
  | _ => []

end Stubs

/-- A call of a stub, with the address of its own structure. -/
structure StubCall where
  mem : Mem
  stub : Stub mem
  frame : UInt32
  fits : frame.toNat + sizeofArgs ≤ 2 ^ 32
  apart : ∀ s ∈ stub.strings, s.Apart frame

/-- What the kernel is asked. -/
def StubCall.reaches (call : StubCall) : Option Request :=
  let docall := call.stub.docall call.frame
  syscallHandler docall.mem docall.scId docall.args

section Strings

variable {m m' : Mem}

theorem strlen_from {x fuel : Nat} {text : List UInt8} (hnonzero : ∀ c ∈ text, c ≠ 0)
    (hbytes : ∀ i (h : i < text.length), m (x + i) = text[i]) (hends : m (x + text.length) = 0)
    (hfuel : text.length < fuel) : strlenFrom m fuel x = text.length := by
  induction text generalizing x fuel with
  | nil =>
      obtain ⟨fuel, rfl⟩ := Nat.exists_eq_succ_of_ne_zero (Nat.ne_of_gt hfuel)
      exact if_pos hends
  | cons c rest ih =>
      obtain ⟨fuel, rfl⟩ := Nat.exists_eq_succ_of_ne_zero (Nat.ne_of_gt (Nat.zero_lt_of_lt hfuel))
      have hfirst : m x = c := hbytes 0 (Nat.zero_lt_succ _)
      have hc : c ≠ 0 := hnonzero c (List.mem_cons_self ..)
      rw [List.length_cons] at hends hfuel
      rw [strlenFrom, hfirst, if_neg hc, List.length_cons]
      congr 1
      refine ih (fun b hb => hnonzero b (List.mem_cons_of_mem _ hb)) (fun i hi => ?_) ?_ (by omega)
      · rw [Nat.add_assoc, Nat.add_comm 1 i]
        exact hbytes (i + 1) (Nat.succ_lt_succ hi)
      · rw [Nat.add_assoc, Nat.add_comm 1]
        exact hends

theorem CStr.strlen_eq (s : CStr m) : (strlen m s.addr).toNat = s.text.length := by
  have hlt : s.text.length < 2 ^ 32 := Nat.lt_of_le_of_lt (Nat.le_add_left ..) s.fits
  rw [strlen, strlen_from s.nonzero s.bytes s.ends hlt, UInt32.toNat_ofNat']
  exact Nat.mod_eq_of_lt hlt

/-- The kernel copies the string that the stub has measured, also from a memory that agrees on
it. -/
theorem CStr.copy (s : CStr m) (hsame : Same s.addr.toNat s.text.length m m') :
    scCopyString m' s.addr (strlen m s.addr) = s.text := by
  have hmap : ((List.range s.text.length).map fun i => m' (s.addr.toNat + i)) = s.text := by
    refine List.ext_getElem (by simp) fun i hi hi' => ?_
    rw [List.getElem_map, List.getElem_range, hsame _ (Nat.le_add_right ..) (by omega)]
    exact s.bytes i hi'
  rw [scCopyString, s.strlen_eq, hmap]
  exact List.takeWhile_eq_self_iff.mpr fun c hc => by simpa using s.nonzero c hc

@[simp] theorem CStr.copy_same (s : CStr m) : scCopyString m s.addr (strlen m s.addr) = s.text :=
  s.copy fun _ _ _ => rfl

end Strings

section Structures

variable {m : Mem}

theorem same_store_words {x y n : Nat} {words : List UInt32}
    (h : x + n ≤ y ∨ y + 4 * words.length ≤ x) : Same x n m (storeWords m y words) := by
  induction words generalizing m y with
  | nil => exact fun _ _ _ => rfl
  | cons w rest ih =>
      rw [List.length_cons] at h
      intro z hz hn
      rw [storeWords, ih (by omega) z hz hn]
      exact same_store32 (by omega) z hz hn

/-- The words of a structure are read back. -/
theorem field_store_words {a : UInt32} {words : List UInt32} {i : Nat} (hi : i < words.length) :
    field (storeWords m a.toNat words) a i = words[i] := by
  have hall : ∀ x (m : Mem), load32 (storeWords m x words) (x + 4 * i) = (words[i]).toNat := by
    induction words generalizing i with
    | nil => exact absurd hi (Nat.not_lt_zero _)
    | cons w rest ih =>
        intro x m
        cases i with
        | zero =>
            have hrest : Same x 4 (store32 m x w.toNat) (storeWords (store32 m x w.toNat) (x + 4)
              rest) := same_store_words (.inl (Nat.le_refl _))
            show load32 (storeWords (store32 m x w.toNat) (x + 4) rest) x = w.toNat
            rw [hrest.load32 (Nat.le_refl _) (Nat.le_refl _), load32_store32 w.toNat_lt]
        | succ i =>
            rw [storeWords, show x + 4 * (i + 1) = x + 4 + 4 * i by omega]
            exact ih (Nat.lt_of_succ_lt_succ hi) (x + 4) _
  rw [field, hall]
  exact UInt32.ofNat_toNat

theorem CStr.copy_apart (s : CStr m) {frame : UInt32} (hs : s.Apart frame) {words : List UInt32}
    (hw : words.length = 8) :
    scCopyString (storeWords m frame.toNat words) s.addr (strlen m s.addr) = s.text := by
  refine s.copy (same_store_words ?_)
  rw [hw]
  rcases hs with hbelow | habove
  · exact .inl (by omega)
  · exact .inr habove

end Structures

section Calls

variable {m : Mem}

/-- The stubs that have drifted: the number of `sc_delete` is that of `sc_create`, and nothing
enters the number of `sc_make_shm` in the table. -/
def Stub.Drifted : Stub m → Prop
  | .delete _ => True
  | .makeShm _ => True
  | _ => False

theorem of_bool_ne_zero (b : Bool) : (ofBool b != 0) = b := by
  cases b <;> rfl

/-- The handler of a structure gets the strings and the numbers that the stub has put there. -/
theorem make_fs_args (frame : UInt32) {name driver options : CStr m} {source bindTo : Int32}
    (hname : name.Apart frame) (hdriver : driver.Apart frame) (hoptions : options.Apart frame)
    (b c d e : UInt32) :
    makeFsSc (storeWords m frame.toNat (makeFsArgs m name driver source options bindTo))
      ⟨frame, b, c, d, e⟩ = .makeFs driver.text name.text source options.text bindTo := by
  unfold makeFsSc makeFsArgs
  simp only [field_store_words, List.length_cons, List.length_nil, Nat.reduceLT, Nat.reduceAdd,
    List.getElem_cons_zero, List.getElem_cons_succ]
  rw [driver.copy_apart hdriver rfl, name.copy_apart hname rfl, options.copy_apart hoptions rfl]
  simp

theorem subfs_args (frame : UInt32) {name origFs root : CStr m} {okModes bindTo : Int32}
    (hname : name.Apart frame) (horig : origFs.Apart frame) (hroot : root.Apart frame)
    (b c d e : UInt32) :
    fsSubfsSc (storeWords m frame.toNat (subfsArgs m name origFs root okModes bindTo))
      ⟨frame, b, c, d, e⟩ = .subfs name.text origFs.text root.text okModes bindTo := by
  unfold fsSubfsSc subfsArgs
  simp only [field_store_words, List.length_cons, List.length_nil, Nat.reduceLT, Nat.reduceAdd,
    List.getElem_cons_zero, List.getElem_cons_succ]
  rw [name.copy_apart hname rfl, origFs.copy_apart horig rfl, root.copy_apart hroot rfl]
  simp

/-- A stub that has not drifted asks for its operation. -/
theorem StubCall.reaches_of_not_drifted (call : StubCall) (h : ¬call.stub.Drifted) :
    call.reaches = some (call.stub.asks call.frame) := by
  obtain ⟨m, stub, frame, hfits, hapart⟩ := call
  cases stub with
  | delete name => exact absurd trivial h
  | makeShm s => exact absurd trivial h
  | makeFs name driver source options =>
      exact congrArg some (make_fs_args frame (hapart name (by simp [Stub.strings]))
        (hapart driver (by simp [Stub.strings])) (hapart options (by simp [Stub.strings])) 0 0 0 0)
  | bindMakeFs pid name driver source options =>
      exact congrArg some (make_fs_args frame (hapart name (by simp [Stub.strings]))
        (hapart driver (by simp [Stub.strings])) (hapart options (by simp [Stub.strings])) 0 0 0 0)
  | fsSubfs name origFs root okModes =>
      exact congrArg some (subfs_args frame (hapart name (by simp [Stub.strings]))
        (hapart origFs (by simp [Stub.strings])) (hapart root (by simp [Stub.strings])) 0 0 0 0)
  | bindSubfs pid newName origFs root okModes =>
      exact congrArg some (subfs_args frame (hapart newName (by simp [Stub.strings]))
        (hapart origFs (by simp [Stub.strings])) (hapart root (by simp [Stub.strings])) 0 0 0 0)
  | dbgPrint str => exact congrArg (fun text => some (Request.dbgPrint text)) str.copy_same
  | create name type => exact congrArg (fun text => some (Request.create text type)) name.copy_same
  | move oldname newname =>
      exact congrArg₂ (fun old new => some (Request.move old new)) oldname.copy_same
        newname.copy_same
  | stat name s => exact congrArg (fun text => some (Request.stat text s)) name.copy_same
  | openFile name mode =>
      exact congrArg (fun text => some (Request.openFile text mode)) name.copy_same
  | makeChannel blocking =>
      exact congrArg (fun b => some (Request.makeChannel b frame)) (of_bool_ne_zero blocking)
  | fsAddSource fs source options =>
      exact congrArg₂ (fun name opts => some (Request.fsAddSource name source opts)) fs.copy_same
        options.copy_same
  | fsRemove name => exact congrArg (fun text => some (Request.rmFs text)) name.copy_same
  | bindFs pid newName fs =>
      exact congrArg₂ (fun new name => some (Request.bindFs pid new name)) newName.copy_same
        fs.copy_same
  | procExec pid file =>
      exact congrArg (fun text => some (Request.procExec pid text)) file.copy_same
  | procWait pid block s =>
      exact congrArg (fun b => some (Request.procWait pid b s)) (of_bool_ne_zero block)
  -- The words of the others are the numbers and addresses themselves.
  | _ => rfl

/-- Every stub but `sc_delete` and `sc_make_shm` comes to the handler of its operation, which gets
the arguments of the stub; those two never do. -/
theorem stubs_match (call : StubCall) :
    call.reaches = some (call.stub.asks call.frame) ↔ ¬call.stub.Drifted := by
  refine ⟨fun hreaches hdrifted => ?_, call.reaches_of_not_drifted⟩
  obtain ⟨m, stub, frame, hfits, hapart⟩ := call
  cases stub with
  | delete name => cases hreaches
  | makeShm s => cases hreaches
  | _ => exact hdrifted

/-- The name `a:b`, alone in the memory. -/
def nameAB : CStr fun x => if x = 4096 then 97 else if x = 4097 then 58 else if x = 4098 then 98
    else 0 where
  addr := 4096
  text := [97, 58, 98]
  nonzero := by decide +kernel
  bytes := by decide +kernel
  ends := rfl
  fits := by decide

/-- `sc_delete` of `a:b` asks for its creation. -/
theorem delete_creates :
    ¬∀ call : StubCall, call.reaches = some (call.stub.asks call.frame) := by
  intro hclaim
  have hdelete := hclaim ⟨_, .delete nameAB, 0, by decide, nofun⟩
  cases hdelete

end Calls

end Kogata.User
