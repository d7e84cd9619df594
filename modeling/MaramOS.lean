import MaramOS.Proofs.Bitmap
import MaramOS.Proofs.Metadata
import MaramOS.Proofs.Ownership
import MaramOS.Proofs.Persistence
import MaramOS.Proofs.KernelHalf
import MaramOS.Proofs.InterruptMutex
import MaramOS.Proofs.Requests
import MaramOS.Proofs.Dispatch
import MaramOS.Proofs.Trap
import MaramOS.Proofs.Redundancy
import MaramOS.Proofs.FirstFit
import MaramOS.Proofs.Encoding
import MaramOS.Proofs.FailedCreate
import MaramOS.Proofs.Accounting
import MaramOS.Proofs.Siblings
import MaramOS.Proofs.Routing
import MaramOS.Proofs.NoSpace
import MaramOS.Proofs.RootCache
import MaramOS.Proofs.AlignedFit
import MaramOS.Proofs.Spelling
import MaramOS.Proofs.FreeRanges
import MaramOS.Proofs.BootMap
import MaramOS.Proofs.Heap
import MaramOS.Proofs.WriteReturns
import MaramOS.Proofs.GptHeader
import MaramOS.Proofs.GptBackup
import MaramOS.Proofs.Ahci
import MaramOS.Proofs.OutOfRange
import MaramOS.Proofs.Hhdm
import MaramOS.Proofs.Loader
import MaramOS.Proofs.Hpet
import MaramOS.Proofs.IoApic
import MaramOS.Proofs.Madt
import MaramOS.Proofs.Drawing
import MaramOS.Proofs.PciScan
