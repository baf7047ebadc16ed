/-!
# File modes

The flags of `common/include/proto/fs.h` for the modes of file handles.
-/

namespace Kogata.Kernel

/-- `FM_READ`. -/
abbrev fmRead : UInt32 := 0x01
/-- `FM_WRITE`. -/
abbrev fmWrite : UInt32 := 0x02
/-- `FM_READDIR`. -/
abbrev fmReaddir : UInt32 := 0x04
/-- `FM_MMAP`. -/
abbrev fmMmap : UInt32 := 0x08
/-- `FM_CREATE`. -/
abbrev fmCreate : UInt32 := 0x10
/-- `FM_TRUNC`. -/
abbrev fmTrunc : UInt32 := 0x20
/-- `FM_APPEND`. -/
abbrev fmAppend : UInt32 := 0x40
/-- `FM_BLOCKING`. -/
abbrev fmBlocking : UInt32 := 0x200
/-- `FM_DCREATE`. -/
abbrev fmDcreate : UInt32 := 0x1000
/-- `FM_DMOVE`. -/
abbrev fmDmove : UInt32 := 0x2000
/-- `FM_DDELETE`. -/
abbrev fmDdelete : UInt32 := 0x4000

end Kogata.Kernel
