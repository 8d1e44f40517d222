import AddressableHeap.Checked
import AddressableHeap.Tree
import AddressableHeap.Outline
import AddressableHeap.Entry
import AddressableHeap.SlotIndex
import AddressableHeap.Rejection
import AddressableHeap.Heap.Basic
import AddressableHeap.Heap.Sift
import AddressableHeap.Heap.Operations
import AddressableHeap.Heap.Audit
import AddressableHeap.Heap.Valid
import AddressableHeap.Mutation
import AddressableHeap.Event
import AddressableHeap.Reading
import AddressableHeap.Observer
import AddressableHeap.Settings
import AddressableHeap.Graph.Basic
import AddressableHeap.Graph.Search
import AddressableHeap.Graph.Walk
import AddressableHeap.CommandLine.Invocation
import AddressableHeap.CommandLine.Report
import AddressableHeap.Main
import AddressableHeap.Proofs.Tree
import AddressableHeap.Proofs.Layout.Basic
import AddressableHeap.Proofs.Layout.Order
import AddressableHeap.Proofs.Layout.Members
import AddressableHeap.Proofs.Layout.Agreement
import AddressableHeap.Proofs.Heap.HasLayout
import AddressableHeap.Proofs.Heap.Walks
import AddressableHeap.Proofs.Heap.Requests
import AddressableHeap.Proofs.Heap.Contents
import AddressableHeap.Proofs.Heap.Answers
import AddressableHeap.Proofs.Heap.Alike
import AddressableHeap.Proofs.Observation
import AddressableHeap.Proofs.Heap.Audit
import AddressableHeap.Proofs.FiniteMap
import AddressableHeap.Proofs.Search.Loop
import AddressableHeap.Proofs.Calls
import AddressableHeap.Proofs.Evolution
import AddressableHeap.Proofs.Heap.Scan
import AddressableHeap.Proofs.Drain
import AddressableHeap.Proofs.Digest
import AddressableHeap.Proofs.Lockstep
import AddressableHeap.Proofs.Graph.Construction
import AddressableHeap.Proofs.Search.Trail
import AddressableHeap.Proofs.Search.Settling
import AddressableHeap.Proofs.Search.Frontier
import AddressableHeap.Proofs.Search.Steps
import AddressableHeap.Proofs.Search.Correctness
import AddressableHeap.Proofs.Search.Rounds
import AddressableHeap.Proofs.Search.Room
import AddressableHeap.Proofs.Session
import AddressableHeap.Proofs.Faultless
import AddressableHeap.Proofs.Heap.Root
import AddressableHeap.Proofs.Layout.Return
import AddressableHeap.Proofs.Heap.Undo
import AddressableHeap.Proofs.Heap.Repair
import AddressableHeap.Proofs.Chronicle
import AddressableHeap.Proofs.Search.Acts
import AddressableHeap.Proofs.Search.Account
import AddressableHeap.Proofs.Search.Course
import AddressableHeap.Proofs.Search.Proceedings
import AddressableHeap.Proofs.Search.Leavings
import AddressableHeap.Proofs.Search.Moments
import AddressableHeap.Proofs.Search.Costs
import AddressableHeap.Proofs.CommandLine.Stages
import AddressableHeap.Proofs.CommandLine.Flags
import AddressableHeap.Proofs.CommandLine.Detail
import AddressableHeap.Proofs.Layout.Routes
import AddressableHeap.Proofs.Heap.Routes
import AddressableHeap.Proofs.Filling
import AddressableHeap.Proofs.Rejections
import AddressableHeap.Proofs.Reading
