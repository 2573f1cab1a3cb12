import EuroOS.BlockCache
import EuroOS.BootHandover
import EuroOS.CertPath
import EuroOS.CertTime
import EuroOS.Eurofs.AllocatorSafety
import EuroOS.FatConsistency
import EuroOS.FrameRuns
import EuroOS.InstallLayout
import EuroOS.IpcRestriction
import EuroOS.KernelAudit
import EuroOS.LockOrder
import EuroOS.Lockout
import EuroOS.ManifestExport
import EuroOS.McpGateway
import EuroOS.NvmeRuns
import EuroOS.PackageClosure
import EuroOS.PassiveOpen
import EuroOS.PortalPersist
import EuroOS.PortalRuns
import EuroOS.RateLimit
import EuroOS.RestartLimiter
import EuroOS.Sandbox
import EuroOS.SeccompStack
import EuroOS.SwapTransparency
import EuroOS.SwitchboardOrphans
import EuroOS.SwitchboardRefinement
import EuroOS.TcpLink
import EuroOS.TcpTimer
import EuroOS.TlsAuth
import EuroOS.TlsFailStop
import EuroOS.Tunnel
import EuroOS.UnixStreams
import EuroOS.VerityTree
import EuroOS.WasmMemory
