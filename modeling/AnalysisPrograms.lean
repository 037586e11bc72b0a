import AnalysisPrograms.Foundations.Iteration
import AnalysisPrograms.Foundations.Execution
import AnalysisPrograms.TeamTalk.Parser
import AnalysisPrograms.TeamTalk.Chunking
import AnalysisPrograms.TeamTalk.Termination
import AnalysisPrograms.Foundations.Digraph
import AnalysisPrograms.Foundations.TopologicalOrder
import AnalysisPrograms.GraphPy.Objects
import AnalysisPrograms.GraphPy.Representation
import AnalysisPrograms.GraphPy.Operations
import AnalysisPrograms.GraphPy.Consistency
import AnalysisPrograms.GraphPy.Topsort
import AnalysisPrograms.GraphCpp.Drift
import AnalysisPrograms.GraphCpp.Counters
import AnalysisPrograms.Foundations.Links
import AnalysisPrograms.MemPool.Chain
import AnalysisPrograms.MemPool.Regions
import AnalysisPrograms.MemPool.NewBlock
import AnalysisPrograms.MemPool.Allocation
import AnalysisPrograms.Foundations.Bytes
import AnalysisPrograms.Shfs.List
import AnalysisPrograms.Shfs.Buf
import AnalysisPrograms.Shfs.Text
import AnalysisPrograms.Shfs.Client
import AnalysisPrograms.Shfs.Request
import AnalysisPrograms.Shfs.Response
import AnalysisPrograms.Shfs.Worker
import AnalysisPrograms.Shfs.Partition
import AnalysisPrograms.Shfs.Descriptors
import AnalysisPrograms.Shfs.Parsing
import AnalysisPrograms.Shfs.Scanning
import AnalysisPrograms.Shfs.Outcome
import AnalysisPrograms.Shfs.Ownership
import AnalysisPrograms.Shfs.Lifecycle
import AnalysisPrograms.Shfs.Runs
import AnalysisPrograms.Shfs.SmallServer
import AnalysisPrograms.Shfs.Spec
import AnalysisPrograms.Shfs.Sending
import AnalysisPrograms.Shfs.WriteEvents
import AnalysisPrograms.Shfs.Exactness
import AnalysisPrograms.Shfs.Received
import AnalysisPrograms.Shfs.Connection
import AnalysisPrograms.Foundations.SearchTree
import AnalysisPrograms.GraphC.RbTree
import AnalysisPrograms.GraphC.Vertices
import AnalysisPrograms.GraphC.Shape
import AnalysisPrograms.GraphC.Erase
import AnalysisPrograms.GraphC.Members
import AnalysisPrograms.GraphC.AsSet
import AnalysisPrograms.Foundations.Interleaving
import AnalysisPrograms.Shfs.AcceptLock
import AnalysisPrograms.Foundations.RingBuffer
import AnalysisPrograms.Foundations.Refinement
import AnalysisPrograms.ShmQueue.Queue
import AnalysisPrograms.ShmQueue.Fifo
import AnalysisPrograms.ShmQueue.Attach
import AnalysisPrograms.ShmQueue.Phases
import AnalysisPrograms.RefCount.SmartPointer
import AnalysisPrograms.RefCount.Release
import AnalysisPrograms.RefCount.Counts
import AnalysisPrograms.RefCount.Runs
import AnalysisPrograms.RefCount.Assignment
import AnalysisPrograms.Foundations.Paths
import AnalysisPrograms.Shfs.ServedPath
import AnalysisPrograms.Foundations.ByteHeap
import AnalysisPrograms.ListC.Bitmap
import AnalysisPrograms.ListC.Dlist
import AnalysisPrograms.ListC.Slots
import AnalysisPrograms.ListC.Stored
import AnalysisPrograms.GraphC.Edges
import AnalysisPrograms.GraphC.Adjacency
import AnalysisPrograms.Foundations.Decimal
import AnalysisPrograms.Join.Program
import AnalysisPrograms.Join.Files
import AnalysisPrograms.Join.Sets
import AnalysisPrograms.Join.Joins
import AnalysisPrograms.Foundations.ChildSibling
import AnalysisPrograms.DictTree.InsertWord
import AnalysisPrograms.DictTree.Shape
import AnalysisPrograms.DictTree.Prefixes
import AnalysisPrograms.DictTree.LongestMatch
import AnalysisPrograms.DictTree.Dump
import AnalysisPrograms.Foundations.Matching
import AnalysisPrograms.Kmp.Search
import AnalysisPrograms.Kmp.Table
import AnalysisPrograms.Kmp.Occurrence
import AnalysisPrograms.Foundations.LabelledTree
import AnalysisPrograms.Trie.Nodes
import AnalysisPrograms.Trie.Described
import AnalysisPrograms.Trie.Counts
import AnalysisPrograms.Shfs.AcceptLoop
import AnalysisPrograms.Shfs.Method
import AnalysisPrograms.Shfs.CheckedSearch
import AnalysisPrograms.Shfs.Substring
import AnalysisPrograms.Shfs.RecvBuffer
import AnalysisPrograms.Shfs.RecvCalls
import AnalysisPrograms.Shfs.CheckedParsing
import AnalysisPrograms.Shfs.Survival
import AnalysisPrograms.Foundations.CycleHop
import AnalysisPrograms.AcmIcpc.ContinuousSort
import AnalysisPrograms.Foundations.IntegerRuns
import AnalysisPrograms.AcmIcpc.LongestConsecutive
import AnalysisPrograms.AcmIcpc.CombinationSum
import AnalysisPrograms.Foundations.SortedRuns
import AnalysisPrograms.AcmIcpc.DeleteDuplicates
import AnalysisPrograms.Foundations.Segments
import AnalysisPrograms.SortPy.Program
import AnalysisPrograms.SortPy.Bubble
import AnalysisPrograms.SortPy.Partition
import AnalysisPrograms.SortPy.Quick
import AnalysisPrograms.Foundations.BlockMoves
import AnalysisPrograms.StrCpy.Program
import AnalysisPrograms.StrCpy.Sizes
import AnalysisPrograms.StrCpy.Copies
import AnalysisPrograms.StrCpy.Agreement
import AnalysisPrograms.Foundations.Ownership
import AnalysisPrograms.RefCount.Members
import AnalysisPrograms.RefCount.Cascade
import AnalysisPrograms.RefCount.CascadeTotal
import AnalysisPrograms.RefCount.MemberRuns
import AnalysisPrograms.RefCount.Embedding
import AnalysisPrograms.AcmIcpc.CountingSort
import AnalysisPrograms.AcmIcpc.Cra
import AnalysisPrograms.AcmIcpc.MissingNumber
import AnalysisPrograms.Utils.Qsort
import AnalysisPrograms.Foundations.SortedSearch
import AnalysisPrograms.Utils.BinarySearch
import AnalysisPrograms.Shfs.OffsetText
import AnalysisPrograms.Foundations.Splitting
import AnalysisPrograms.Utils.StringEx
import AnalysisPrograms.MemPool.Current
import AnalysisPrograms.ListC.Arraydlist
import AnalysisPrograms.ListC.Positions
import AnalysisPrograms.Foundations.Codes
import AnalysisPrograms.Utils.Cathex
import AnalysisPrograms.Foundations.RedBlack
import AnalysisPrograms.RbTree.Representation
import AnalysisPrograms.RbTree.Rotation
import AnalysisPrograms.RbTree.InsertColor
import AnalysisPrograms.RbTree.EraseColor
import AnalysisPrograms.RbTree.Erase
import AnalysisPrograms.RbTree.Sequence
import AnalysisPrograms.RbTree.Neighbours
import AnalysisPrograms.JsonChecker.Automaton
import AnalysisPrograms.JsonChecker.Stack
import AnalysisPrograms.JsonChecker.Grammar
import AnalysisPrograms.JsonChecker.Numbers
import AnalysisPrograms.JsonChecker.Complete
import AnalysisPrograms.JsonChecker.Sound
import AnalysisPrograms.JsonChecker.Accept
import AnalysisPrograms.Shfs.EventLoop
import AnalysisPrograms.Shfs.Rounds
import AnalysisPrograms.Shfs.Serving
