import GosKernel.Ipc.Pipe
import GosKernel.Proc.Context
import GosKernel.Ipc.Ordering
import GosKernel.Ipc.SharedContract
import GosKernel.Ipc.SharedLeak
import GosKernel.Ipc.SharedIsolation
import GosKernel.Mm.HeapAtomic
import GosKernel.Mm.HeapAlias
import GosKernel.Container.RingBuffer
import GosKernel.Container.IntrusiveList
import GosKernel.Drivers.E1000Rx
import GosKernel.Drivers.E1000Tx
import GosKernel.Ipc.Reach
import GosKernel.Irq.Timer
import GosKernel.Codec.Crc32
import GosKernel.Codec.Base64
import GosKernel.Net.Arp
import GosKernel.Drivers.Pci
import GosKernel.Drivers.Vga
import GosKernel.Kernel.MultibootInfo
import GosKernel.Boot.Stub
import GosKernel.Mm.PmmSearch
import GosKernel.Mm.VmmProtect
import GosKernel.Mm.HeapOutcomes
import GosKernel.Drivers.Rtc
import GosKernel.Container.Queue
import GosKernel.Sort.Qsort
import GosKernel.Mm.SlabFailure
import GosKernel.Kernel.TarBounds
import GosKernel.Kernel.ElfBounds
import GosKernel.Kernel.ElfFailure
import GosKernel.Proc.Signals
import GosKernel.Proc.Sleeping
import GosKernel.Fs.TmpfsHoles
import GosKernel.Kernel.InitrdBounds
import GosKernel.Hal.Gdt
import GosKernel.Net.Routing
import GosKernel.Net.Checksum
import GosKernel.Container.RbSearch
import GosKernel.Sort.Bsearch
import GosKernel.Boot.DiskBoot
import GosKernel.Kernel.Acpi
import GosKernel.Fs.Fat32
import GosKernel.Drivers.Mouse
import GosKernel.Drivers.Pit
