import SweptHeap.Allocator
import SweptHeap.Arena
import SweptHeap.Cell
import SweptHeap.Census
import SweptHeap.Collector.Basic
import SweptHeap.Collector.Error
import SweptHeap.Collector.Mutator
import SweptHeap.Double.Basic
import SweptHeap.Double.Literal
import SweptHeap.Double.Shortest
import SweptHeap.Event
import SweptHeap.Fault
import SweptHeap.Finalizers
import SweptHeap.Handoff
import SweptHeap.Heap.Basic
import SweptHeap.Heap.Cycle
import SweptHeap.Heap.Traverse
import SweptHeap.Hex
import SweptHeap.Layout
import SweptHeap.Main
import SweptHeap.Memory
import SweptHeap.Meter
import SweptHeap.Object
import SweptHeap.Page.Basic
import SweptHeap.Page.Large
import SweptHeap.Page.Records
import SweptHeap.Page.Tiled
import SweptHeap.Page.Uniform
import SweptHeap.Progress
import SweptHeap.Proofs.AllocationSound
import SweptHeap.Proofs.AllocationTrigger
import SweptHeap.Proofs.AssistedSweep.Basic
import SweptHeap.Proofs.BlockSet
import SweptHeap.Proofs.ByteAccounting
import SweptHeap.Proofs.CollectorSystem.Alone
import SweptHeap.Proofs.CollectorSystem.Basic
import SweptHeap.Proofs.CollectorSystem.Diary
import SweptHeap.Proofs.CrossingOnce
import SweptHeap.Proofs.CycleOnce
import SweptHeap.Proofs.Double.Rounding
import SweptHeap.Proofs.EpochOrder
import SweptHeap.Proofs.EpochProtocol.Alone
import SweptHeap.Proofs.EpochProtocol.Basic
import SweptHeap.Proofs.FinalizerHandoff
import SweptHeap.Proofs.FinalizerWorker.Basic
import SweptHeap.Proofs.FinalizersOnce
import SweptHeap.Proofs.FreshCollection
import SweptHeap.Proofs.Heap.Allocation
import SweptHeap.Proofs.Heap.Arena
import SweptHeap.Proofs.Heap.Bytes
import SweptHeap.Proofs.Heap.Depot
import SweptHeap.Proofs.Heap.Effects
import SweptHeap.Proofs.Heap.Foresight
import SweptHeap.Proofs.Heap.Memory
import SweptHeap.Proofs.Heap.Operations
import SweptHeap.Proofs.Heap.Sieving
import SweptHeap.Proofs.Heap.Supply
import SweptHeap.Proofs.Heap.Tenants
import SweptHeap.Proofs.Heap.Tidy
import SweptHeap.Proofs.Heap.Totals
import SweptHeap.Proofs.Heap.Traversal
import SweptHeap.Proofs.Heap.Watch
import SweptHeap.Proofs.HeapSystem.Basic
import SweptHeap.Proofs.HeapSystem.ByMark
import SweptHeap.Proofs.HeapSystem.Cycle
import SweptHeap.Proofs.HeapSystem.Diary
import SweptHeap.Proofs.HeapSystem.FirstRecord
import SweptHeap.Proofs.HeapSystem.Moves
import SweptHeap.Proofs.HeapSystem.ObjectMoves
import SweptHeap.Proofs.HeapSystem.Objects
import SweptHeap.Proofs.HeapSystem.OldObjects
import SweptHeap.Proofs.HeapSystem.Outcomes
import SweptHeap.Proofs.HeapSystem.Phases
import SweptHeap.Proofs.HeapSystem.RecordOwners
import SweptHeap.Proofs.HelpedSweep
import SweptHeap.Proofs.LateFinalizers
import SweptHeap.Proofs.MarkSweep
import SweptHeap.Proofs.MergingSweep
import SweptHeap.Proofs.MutatorSystem.Basic
import SweptHeap.Proofs.MutatorSystem.Invariant
import SweptHeap.Proofs.NextFit
import SweptHeap.Proofs.Page.Asking
import SweptHeap.Proofs.Page.Hearing
import SweptHeap.Proofs.Page.Kinds
import SweptHeap.Proofs.Page.RecordSlots
import SweptHeap.Proofs.Page.TiledBlocks
import SweptHeap.Proofs.Page.TiledSweep
import SweptHeap.Proofs.Page.Tiling
import SweptHeap.Proofs.Page.UniformBlocks
import SweptHeap.Proofs.Page.UniformChain
import SweptHeap.Proofs.Page.UniformSweep
import SweptHeap.Proofs.Page.Weight
import SweptHeap.Proofs.PageDelivery
import SweptHeap.Proofs.PageOwnership
import SweptHeap.Proofs.RecordBytes
import SweptHeap.Proofs.RecordLinks
import SweptHeap.Proofs.RecordRace.Alone
import SweptHeap.Proofs.RecordRace.Basic
import SweptHeap.Proofs.RecordRace.Fetching
import SweptHeap.Proofs.RecordRace.Steps
import SweptHeap.Proofs.RecordTable
import SweptHeap.Proofs.RuntimeSystem.Alone
import SweptHeap.Proofs.RuntimeSystem.Basic
import SweptHeap.Proofs.RuntimeSystem.Cycle
import SweptHeap.Proofs.RuntimeSystem.Invariant
import SweptHeap.Proofs.RuntimeSystem.Overtaken
import SweptHeap.Proofs.RuntimeSystem.Threads
import SweptHeap.Proofs.SafepointSystem.Alone
import SweptHeap.Proofs.SafepointSystem.Basic
import SweptHeap.Proofs.SharedDepot.Acts
import SweptHeap.Proofs.SharedDepot.Alone
import SweptHeap.Proofs.SharedDepot.Basic
import SweptHeap.Proofs.SharedRecord
import SweptHeap.Proofs.SharedSweep
import SweptHeap.Proofs.StoppedWorld
import SweptHeap.Proofs.TriggerRearming
import SweptHeap.Record
import SweptHeap.Script.CollectorScript
import SweptHeap.Script.FinalizerScript
import SweptHeap.Script.HandoffScript
import SweptHeap.Script.HeapScript
import SweptHeap.Script.Ledger
import SweptHeap.Script.ObjectScript
import SweptHeap.Script.PageScript
import SweptHeap.Script.Payload
import SweptHeap.Script.ProgressScript
import SweptHeap.Script.Runs
import SweptHeap.Script.Selection
import SweptHeap.Script.SharedWork
import SweptHeap.Script.ShelfScript
import SweptHeap.Script.Take
import SweptHeap.Script.WorldScript
import SweptHeap.Settings
import SweptHeap.Shelf.Basic
import SweptHeap.Shelf.Depot
import SweptHeap.Stress.Help
import SweptHeap.Stress.Load
import SweptHeap.Stress.Options
import SweptHeap.Stress.Summary
import SweptHeap.Verdict
import SweptHeap.World
