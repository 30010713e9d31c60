import GemOS.Proofs.SwapSlots
import GemOS.Proofs.OwnRequest
import GemOS.Proofs.FailedSwapIn
import GemOS.Proofs.AddressSpace
import GemOS.Proofs.SwapOut
import GemOS.Proofs.CopyStr
import GemOS.Proofs.ClockScan
import GemOS.Proofs.FrameTable
import GemOS.Proofs.SwapTableRuns
import GemOS.Proofs.Accounting
import GemOS.Proofs.Demotion
import GemOS.Proofs.TimeSlice
import GemOS.Proofs.RoundRobin
import GemOS.Proofs.SwapSpace
import GemOS.Proofs.SwapStats
import GemOS.Proofs.PipeWaits
import GemOS.Proofs.ConsoleLine
import GemOS.Proofs.VirtioQueue
import GemOS.Proofs.SmpPpid
import GemOS.Proofs.SmpSlots
import GemOS.Proofs.SmpPids
import GemOS.Proofs.CommitRoom
import GemOS.Proofs.FileRuns
import GemOS.Proofs.Dangling
import GemOS.Proofs.LinkCounts
import GemOS.Proofs.Paths
import GemOS.Proofs.Sv39
