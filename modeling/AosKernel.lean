import AosKernel.Acpi.Madt
import AosKernel.Acpi.PmTimer
import AosKernel.Acpi.Rsdp
import AosKernel.Aml.NamePath
import AosKernel.Aml.Tree
import AosKernel.Boot.BootMenu
import AosKernel.Boot.ConsoleOutput
import AosKernel.Boot.MapConversion
import AosKernel.Boot.PagerInit
import AosKernel.Boot.StaticTables
import AosKernel.Core.BootInfo
import AosKernel.Core.Delay
import AosKernel.Core.InterruptStubs
import AosKernel.Core.KmallocLinks
import AosKernel.Core.Krealloc
import AosKernel.Core.MemMove
import AosKernel.Core.ModuleRegistry
import AosKernel.Core.NumberText
import AosKernel.Core.SpinLock
import AosKernel.Core.StrToUint
import AosKernel.Core.Timestamp
import AosKernel.Core.VisibleShell
import AosKernel.Elf.Load32
import AosKernel.Elf.Relocation
import AosKernel.Font.Atlas
import AosKernel.Font.Format
import AosKernel.Font.GrayLevel
import AosKernel.Font.Packing
import AosKernel.Font.Reader
import AosKernel.Font.ReaderRun
import AosKernel.Font.ReaderSafety
import AosKernel.Font.RoundTrip
import AosKernel.Font.Writer
import AosKernel.Font.WrittenFile
import AosKernel.Fs.FileLifetime
import AosKernel.Fs.FileSession
import AosKernel.Gpu.BufferLayout
import AosKernel.Gpu.BufferSlots
import AosKernel.Gpu.BuiltinText
import AosKernel.Gpu.CapSearch
import AosKernel.Gpu.ContextRuns
import AosKernel.Gpu.DescriptorPartition
import AosKernel.Gpu.DrawChar
import AosKernel.Gpu.StreamRuns
import AosKernel.Io.AtaTransfer
import AosKernel.Io.EcamMapping
import AosKernel.Io.FormatAgreement
import AosKernel.Io.FormatScan
import AosKernel.Io.FramebufferFrame
import AosKernel.Io.FramebufferText
import AosKernel.Io.KernelLog
import AosKernel.Io.Keyboard
import AosKernel.Io.Pcie
import AosKernel.Io.PcieScan
import AosKernel.Io.QueuePair
import AosKernel.Io.SataLifetime
import AosKernel.Io.SataRecovery
import AosKernel.Io.SataTransfer
import AosKernel.Io.VgaScroll
import AosKernel.Lib.Pairs
import AosKernel.Lib.Records
import AosKernel.Lib.Shelf
import AosKernel.Lib.Times
import AosKernel.Mm.FreeListNodes
import AosKernel.Mm.HeaderLinkRuns
import AosKernel.Mm.LiveAllocations
import AosKernel.Mm.PageOwnership
import AosKernel.Mm.PagerDestroy
import AosKernel.Mm.PagerFailure
import AosKernel.Mm.PagerRights
import AosKernel.Mm.RangeMapping
import AosKernel.Mm.RegionPartition
import AosKernel.Settings.Checksum
import AosKernel.Settings.Sessions
import AosKernel.Smp.CommandProtocol
import AosKernel.Smp.FinishedList
import AosKernel.Smp.SwitchRuns
import AosKernel.Smp.TlbShootdown
import AosKernel.Usb.CommandRing
import AosKernel.Usb.EventRing
