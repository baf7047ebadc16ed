import Kogata.Kernel.ElfCopy
import Kogata.Kernel.UserReads
import Kogata.Kernel.Iso9660Confined
import Kogata.Kernel.ExitStatus
import Kogata.Kernel.ChannelClose
import Kogata.Kernel.ChannelSelect
import Kogata.Kernel.HandleUse
import Kogata.Kernel.Teardown
import Kogata.Kernel.WaitChild
import Kogata.Kernel.ThreadDelete
import Kogata.Kernel.VfsLockOrder
import Kogata.Kernel.VfsDelete
import Kogata.Kernel.Attenuation
import Kogata.Kernel.ProcessFree
import Kogata.Kernel.FramesConserved
import Kogata.Kernel.IsoContents
import Kogata.Kernel.RamFile
import Kogata.Kernel.IsoListing
import Kogata.Kernel.FdTable
import Kogata.Kernel.Usleep
import Kogata.Kernel.FrameAllocator
import Kogata.Kernel.ChannelWaiters
import Kogata.Kernel.PageMirror
import Kogata.Kernel.RunQueue
import Kogata.User.Syscall
import Kogata.User.DrawRegion
import Kogata.User.MainloopClose
import Kogata.User.GipRequests
import Kogata.Kernel.TokenPrng
import Kogata.User.DrawPlot
import Kogata.Kernel.SelfLock
import Kogata.Kernel.NullfsDelete
import Kogata.Common.RegionAnswers
import Kogata.Kernel.IdeBounds
import Kogata.Kernel.IdeTransfers
import Kogata.Kernel.SelectTimeout
import Kogata.Kernel.WorkerPush
import Kogata.Kernel.SelectBuffers
import Kogata.Kernel.PagerBounds
import Kogata.Kernel.ChannelKilled
import Kogata.Kernel.PathWalk
import Kogata.Common.Memmove
import Kogata.User.Keyboard
import Kogata.Common.Cmdline
import Kogata.User.TerminalEscape
import Kogata.Common.Vsnprintf
import Kogata.User.FileBuffers
import Kogata.User.FileInput
import Kogata.User.FilePositions
import Kogata.User.BlitPixels
import Kogata.User.RegionPieces
import Kogata.Common.BtreeHeights
import Kogata.Common.Strcat
import Kogata.User.ScrollBox
import Kogata.Common.SlabRuns
import Kogata.Kernel.InputDevices
