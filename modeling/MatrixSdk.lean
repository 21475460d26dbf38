import MatrixSdk.Scheduler.Types
import MatrixSdk.Scheduler.Algorithms
import MatrixSdk.Scheduler.Semantics
import MatrixSdk.Scheduler.Equations
import MatrixSdk.Scheduler.Continuations
import MatrixSdk.Scheduler.Allocation
import MatrixSdk.Scheduler.Order
import MatrixSdk.Scheduler.Liveness
import MatrixSdk.Scheduler.Settlement
import MatrixSdk.Scheduler.DroppedEntry
import MatrixSdk.Scheduler.Counting
import MatrixSdk.Scheduler.Retries
import MatrixSdk.Scheduler.FifoSpec
import MatrixSdk.Scheduler.Refinement
import MatrixSdk.Scheduler.Promises
import MatrixSdk.Scheduler.Work
