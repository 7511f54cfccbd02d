import Umpi.Foundation.ByteStream
import Umpi.Abstract.Schedule
import Umpi.Model.Integers
import Umpi.Model.Iovec
import Umpi.Model.State
import Umpi.Model.Transfer
import Umpi.Model.Action
import Umpi.Model.Collective
import Umpi.Model.System
import Umpi.Foundation.Placement
import Umpi.Foundation.Matching
import Umpi.Model.PointToPoint
import Umpi.Proofs.Streams
import Umpi.Proofs.Transfers
import Umpi.Proofs.Movement
import Umpi.Model.Exchange
import Umpi.Proofs.Matching
import Umpi.Proofs.ArrivalOrder
import Umpi.Proofs.Tags
import Umpi.Proofs.Entering
import Umpi.Proofs.Requests
import Umpi.Proofs.EntryPoints
import Umpi.Proofs.Steps
import Umpi.Proofs.Ledger
import Umpi.Proofs.Notifications
import Umpi.Proofs.Places
import Umpi.Proofs.Tickets
import Umpi.Proofs.Rooted
import Umpi.Proofs.Buffers
import Umpi.Proofs.Allgather
import Umpi.Proofs.Allreduce
import Umpi.Proofs.Bcast
import Umpi.Proofs.Gather
import Umpi.Proofs.Scatter
import Umpi.Proofs.Completion
import Umpi.Proofs.Gatherv
import Umpi.Proofs.Endings
import Umpi.Proofs.Release
import Umpi.Proofs.Deliveries
import Umpi.Model.Runtime
import Umpi.Model.Sleeping
import Umpi.Model.Locks
import Umpi.Proofs.Shelves
import Umpi.Proofs.Tending
import Umpi.Proofs.Recycling
import Umpi.Proofs.Reclaiming
import Umpi.Proofs.Outstanding
import Umpi.Proofs.WakeUps
import Umpi.Proofs.UseCounts
import Umpi.Foundation.FreeList
import Umpi.Model.MemoryPool
import Umpi.Proofs.Pool
import Umpi.Model.Datatypes
import Umpi.Proofs.Datatypes
import Umpi.Proofs.Repetition
import Umpi.Model.TypeTable
import Umpi.Model.SlotData
import Umpi.Proofs.Committing
import Umpi.Proofs.Containment
import Umpi.Proofs.SlotData
import Umpi.Model.Packing
import Umpi.Model.Waiting
import Umpi.Proofs.Packing
import Umpi.Proofs.Waiting
import Umpi.Proofs.Limits
import Umpi.Proofs.Bounds
import Umpi.Model.Scratch
import Umpi.Proofs.Scratch
import Umpi.Model.Probing
import Umpi.Model.Blocking
import Umpi.Proofs.Probing
import Umpi.Proofs.Blocking
import Umpi.Model.BasedPtr
import Umpi.Proofs.BasedPtr
import Umpi.Foundation.Folding
import Umpi.Proofs.Unrooted
import Umpi.Proofs.Reductions
import Umpi.Proofs.Scans
import Umpi.Proofs.Faults
import Umpi.Proofs.Successes
import Umpi.Foundation.Barrier
import Umpi.Model.Allgatherv
import Umpi.Proofs.Rounds
import Umpi.Proofs.RoundCalls
import Umpi.Proofs.Allgatherv
import Umpi.Proofs.Progress
import Umpi.Foundation.MachineInt
import Umpi.Model.Operations
import Umpi.Proofs.Predefined
import Umpi.Model.Waitall
import Umpi.Proofs.Waitall
import Umpi.Model.Job
import Umpi.Proofs.StartUp
import Umpi.Proofs.Lifetime
import Umpi.Proofs.Launcher
import Umpi.Proofs.JobProgress
import Umpi.Proofs.Footprint
import Umpi.Model.Segment
import Umpi.Proofs.Segment
import Umpi.Proofs.Effort
