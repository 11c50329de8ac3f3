import LazilyPy.Async.Lifecycle
import LazilyPy.Async.Memo
import LazilyPy.Async.Refinement
import LazilyPy.Async.Resolved
import LazilyPy.Async.Settled
import LazilyPy.Chart.Actions
import LazilyPy.Chart.History
import LazilyPy.Chart.Legal
import LazilyPy.Chart.Order
import LazilyPy.Codec.Strict
import LazilyPy.Collection.Readers
import LazilyPy.Collection.Reconciliation
import LazilyPy.Command.Delivery
import LazilyPy.Command.Reconnect
import LazilyPy.Command.Terminal
import LazilyPy.Durable.Conservation
import LazilyPy.Durable.Positions
import LazilyPy.Ingress.Bounds
import LazilyPy.Ingress.Change
import LazilyPy.Ingress.ExactlyOnce
import LazilyPy.Ingress.Receipts
import LazilyPy.Ingress.Refusal
import LazilyPy.Ingress.Suspension
import LazilyPy.Ipc.Shared
import LazilyPy.Ipc.Spill
import LazilyPy.Ipc.Wraparound
import LazilyPy.Lossless.Editing
import LazilyPy.Lossless.Splitting
import LazilyPy.Mirror.Reconstruction
import LazilyPy.Plane.DeltaSync
import LazilyPy.Plane.Family
import LazilyPy.Plane.ReadBack
import LazilyPy.Plane.Watermark
import LazilyPy.Plane.Winners
import LazilyPy.Queue.Readers
import LazilyPy.Reactive.Closing
import LazilyPy.Reactive.Coherence
import LazilyPy.Reactive.Guarded
import LazilyPy.Reactive.Raising
import LazilyPy.Reactive.Symmetry
import LazilyPy.Reactive.Teardown
import LazilyPy.Reactive.ThreadSafe
import LazilyPy.Register.MvRegister
import LazilyPy.Relay.RelayCell
import LazilyPy.Relay.SpillStore
import LazilyPy.Replay.Verify
import LazilyPy.Resilience.CircuitBreaker
import LazilyPy.Semtree.Fold
import LazilyPy.Sequence.Convergence
import LazilyPy.Sequence.Replicas
import LazilyPy.Sequence.Placement
import LazilyPy.Signaling.Roster
import LazilyPy.StableId.Survival
import LazilyPy.Stream.RateShape
import LazilyPy.Stream.Windowing
import LazilyPy.Sync.Cursor
import LazilyPy.Sync.Delivery
import LazilyPy.Sync.Request
import LazilyPy.Sync.Retention
import LazilyPy.Temporal.Counting
import LazilyPy.Temporal.Wedges
import LazilyPy.Text.Garbage
import LazilyPy.Text.Minted
import LazilyPy.Topic.Snapshot
import LazilyPy.Wire.Survival
import LazilyPy.WorkQueue.Conservation
import LazilyPy.Workflow.Wakeup
import LazilyPy.Sequence.Midpoint
import LazilyPy.StableId.Align
import LazilyPy.Resilience.RetryPolicy
import LazilyPy.Register.PnCounter
import LazilyPy.Command.Receipts
import LazilyPy.Stdlib.Deadlines
import LazilyPy.Coordination.Lease
import LazilyPy.Metrics.Exposition
