import Kogata.Kernel.Regions
import Kogata.Lib.Logged

/-!
# Loading an ELF file

`kernel/user/elf.c`. A run of `elfLoad` logs each segment that the kernel copies into user memory
by `memcpy`, at the moment the copy starts. The file is one whose node reads through its pager,
so the copy is the one of `pager_do_rw`; the page faults that it takes on user pages go to
`proc_usermem_pf`.
-/

namespace Kogata.Kernel

open Lib.Effect Lib.Logging

/-- `PT_LOAD`. -/
abbrev ptLoad : UInt32 := 1
/-- `PF_X`. -/
abbrev pfX : UInt32 := 0x1
/-- `PF_W`. -/
abbrev pfW : UInt32 := 0x2
/-- `PF_R`. -/
abbrev pfR : UInt32 := 0x4
/-- `MM_EXEC`. -/
abbrev mmExec : UInt32 := 0x04

/-- The fields of `elf_ehdr_t` that are read. -/
structure ElfEhdr where
  eIdent : List UInt8
  eEntry : UInt32
  ePhoff : UInt32
  ePhnum : UInt16
  deriving DecidableEq

/-- `sizeof(elf_ehdr_t)`. -/
abbrev sizeofEhdr : UInt32 := 52

/-- The fields of `elf_phdr_t` that are read. -/
structure ElfPhdr where
  pType : UInt32
  pOffset : UInt32
  pVaddr : UInt32
  pFilesz : UInt32
  pMemsz : UInt32
  pFlags : UInt32
  deriving DecidableEq

/-- `sizeof(elf_phdr_t)`. -/
abbrev sizeofPhdr : UInt32 := 32

/-- The little-endian word of 16 bits at a place of a buffer. -/
def le16 (bytes : List UInt8) (i : Nat) : UInt16 :=
  (bytes.getD i 0).toUInt16 ||| (bytes.getD (i + 1) 0).toUInt16 <<< 8

/-- The little-endian word of 32 bits at a place of a buffer. -/
def le32 (bytes : List UInt8) (i : Nat) : UInt32 :=
  (le16 bytes i).toUInt32 ||| (le16 bytes (i + 2)).toUInt32 <<< 16

/-- The bytes of an `elf_ehdr_t`. -/
def elfEhdr (bytes : List UInt8) : ElfEhdr where
  eIdent := bytes.take 16
  eEntry := le32 bytes 24
  ePhoff := le32 bytes 28
  ePhnum := le16 bytes 44

/-- The bytes of an `elf_phdr_t`. -/
def elfPhdr (bytes : List UInt8) : ElfPhdr where
  pType := le32 bytes 0
  pOffset := le32 bytes 4
  pVaddr := le32 bytes 8
  pFilesz := le32 bytes 16
  pMemsz := le32 bytes 20
  pFlags := le32 bytes 24

/-- A copy into user memory: the segment being loaded, the state in which the copy starts, and
the bytes with the address of the first. -/
structure UserWrite (W : Type) where
  phdr : ElfPhdr
  before : Vm W
  addr : UInt32
  bytes : List UInt8

variable {W : Type}

/-- A call that logs the copies into user memory. -/
abbrev ElfCall (W α : Type) := Logged Halt (Vm W) (UserWrite W) α

variable (m : Machine W)

/-- `is_elf`. -/
def isElf (f : FsHandle) : Call W Bool := do
  let h ← fileRead m f 0 sizeofEhdr
  if UInt32.ofNat h.length ≠ sizeofEhdr then return false
  else return (elfEhdr h).eIdent.take 4 == [0x7F, 0x45, 0x4C, 0x46]

/-- The stores of `memcpy`: a store to a user page that is not present is a page fault first. -/
def copyToUser (tries : Nat) (proc : ProcId) (addr : UInt32) : List UInt8 → Call W Unit
  | [] => return ()
  | b :: rest => do
      if addr < kHighhalfAddr then
        let ent ← ask (m.pdGetEntry (.user proc) addr)
        if ent &&& ptePresent = 0 then
          let _ ← procUsermemPf m tries proc false true addr
      tell (m.store addr [b])
      copyToUser tries proc (addr + 1) rest

/-- `pager_read` with what `memcpy` does with the bytes. -/
def pagerReadWith (p : PagerId) (offset len : UInt32) (memcpy : List UInt8 → ElfCall W Unit) :
    ElfCall W (List UInt8) := do
  call (lockPager p)
  let size := (← call (thePager p)).size
  if offset ≥ size then return []
  else
    let len := transferLen size offset len
    let firstPage := pageAlignDown offset
    let regionLen := offset + len - firstPage
    let region ← call (ask (m.regionAlloc (pageAlignUp regionLen)))
    let ret ← (if region = 0 then return [] else do
      let ret ← call (transfer m p offset len firstPage regionLen region none)
      if ret ≠ [] then memcpy ret
      call (dropRegion m region regionLen)
      return ret)
    call (unlockPager p)
    return ret

/-- `memcpy` of the bytes of a segment to its address. -/
def copySegment (tries : Nat) (proc : ProcId) (phdr : ElfPhdr) (bytes : List UInt8) :
    ElfCall W Unit := do
  let before ← call get
  record { phdr := phdr, before := before, addr := phdr.pVaddr, bytes := bytes }
  call (copyToUser m tries proc phdr.pVaddr bytes)

/-- `file_read(f, phdr.p_offset, phdr.p_filesz, phdr.p_vaddr)`. -/
def readSegment (tries : Nat) (proc : ProcId) (f : FsHandle) (phdr : ElfPhdr) :
    ElfCall W (List UInt8) := do
  if phdr.pFilesz = 0 then return []
  else if f.mode &&& fmRead = 0 then return []
  else
    match f.pager with
    | none => call (throw .panic)
    | some p => pagerReadWith m p phdr.pOffset phdr.pFilesz (copySegment m tries proc phdr)

/-- The body of the loop of `elf_load` for a `PT_LOAD` header: whether it goes on. -/
def loadSegment (tries : Nat) (proc : ProcId) (f : FsHandle) (phdr : ElfPhdr) :
    ElfCall W Bool := do
  let mmR : UInt32 := if phdr.pFlags &&& pfR ≠ 0 then mmRead.toUInt32 else 0
  if phdr.pFlags &&& pfW ≠ 0 ∨ f.mode &&& fmMmap = 0 then
    let mmapOk ← call (mmap m proc phdr.pVaddr phdr.pMemsz (mmR ||| mmWrite.toUInt32))
    if !mmapOk then return false
    else
      let bytes ← readSegment m tries proc f phdr
      if UInt32.ofNat bytes.length ≠ phdr.pFilesz then return false
      else if phdr.pFlags &&& pfW = 0 then call (mchmap m proc phdr.pVaddr mmR)
      else return true
  else
    let mmX : UInt32 := if phdr.pFlags &&& pfX ≠ 0 then mmExec else 0
    call (mmapFile m proc f phdr.pOffset phdr.pVaddr phdr.pMemsz (mmR ||| mmX))

/-- The loop of `elf_load` over the program headers. -/
def loadSegments (tries : Nat) (proc : ProcId) (f : FsHandle) (ehdr : ElfEhdr) :
    List Nat → ElfCall W Bool
  | [] => return true
  | i :: rest => do
      let bytes ← call (fileRead m f (ehdr.ePhoff + UInt32.ofNat i * sizeofPhdr) sizeofPhdr)
      if UInt32.ofNat bytes.length ≠ sizeofPhdr then return false
      else
        let phdr := elfPhdr bytes
        if phdr.pType = ptLoad then
          if ← loadSegment m tries proc f phdr then loadSegments tries proc f ehdr rest
          else return false
        else loadSegments tries proc f ehdr rest

/-- `elf_load`, with a bound on the tries of a page fault: the entry point, or `0`. -/
def elfLoad (tries : Nat) (proc : ProcId) (f : FsHandle) : ElfCall W UInt32 := do
  if !(← call (isElf m f)) then return 0
  else
    let bytes ← call (fileRead m f 0 sizeofEhdr)
    if UInt32.ofNat bytes.length ≠ sizeofEhdr then return 0
    else
      let ehdr := elfEhdr bytes
      if ← loadSegments m tries proc f ehdr (List.range ehdr.ePhnum.toNat) then
        return ehdr.eEntry
      else return 0

end Kogata.Kernel
