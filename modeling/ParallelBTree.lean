import ParallelBTree.Verified.Program
import ParallelBTree.Verified.Slots
import ParallelBTree.Verified.Multiway
import ParallelBTree.Verified.Restructure
import ParallelBTree.Verified.SortedBag
import ParallelBTree.Verified.Relational
import ParallelBTree.Verified.Progress
import ParallelBTree.Verified.History
import ParallelBTree.Verified.Partial
import ParallelBTree.Verified.Actions
import ParallelBTree.Ports.NodeMemory
import ParallelBTree.Ports.BTreeNode
import ParallelBTree.Ports.BTree
import ParallelBTree.Ports.Descent
import ParallelBTree.Ports.DescentFill
import ParallelBTree.Ports.DescentInsert
import ParallelBTree.Ports.DescentRemove
import ParallelBTree.Ports.Focus
import ParallelBTree.Ports.Represent
import ParallelBTree.Ports.Bare
import ParallelBTree.Ports.BareSteps
import ParallelBTree.Ports.NodeSteps
import ParallelBTree.Ports.RefineSteps
import ParallelBTree.Ports.RefineInsert
import ParallelBTree.Ports.RefineRemove
import ParallelBTree.Ports.Observe
import ParallelBTree.Ports.Runs
import ParallelBTree.Ports.Contract
import ParallelBTree.Ports.Exist
import ParallelBTree.Ports.Search
import ParallelBTree.Ports.Lifetime
import ParallelBTree.Ports.Shuffles
import ParallelBTree.Ports.ToStr
import ParallelBTree.Ports.Pthreads
import ParallelBTree.Ports.PthreadsShutdown
import ParallelBTree.Ports.PthreadsProgress
import ParallelBTree.Ports.PthreadsHistory
import ParallelBTree.Ports.PthreadsGenerator
import ParallelBTree.Ports.Height
import ParallelBTree.Ports.DescentCalls
import ParallelBTree.Ports.Discipline
import ParallelBTree.Ports.ExistBounds
import ParallelBTree.Ports.Unwritten
import ParallelBTree.Ports.FillPrepares
import ParallelBTree.Ports.RoundTrips
import ParallelBTree.Ports.KeySources
import ParallelBTree.Ports.Messages
import ParallelBTree.Ports.Arguments
import ParallelBTree.Verified.Loop
import ParallelBTree.Ports.Ipc
import ParallelBTree.Ports.IpcProgress
import ParallelBTree.Ports.Workload
import ParallelBTree.Ports.Naive
import ParallelBTree.Ports.Cpp11
import ParallelBTree.Ports.InsertActions
import ParallelBTree.Ports.InsertGuarantee
import ParallelBTree.Ports.SearchAccess
import ParallelBTree.Ports.Openmp
import ParallelBTree.Ports.OpenmpMissed
import ParallelBTree.Ports.OpenmpLate
