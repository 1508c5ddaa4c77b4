import MiscCpp.Asio.Echo
import MiscCpp.Asio.MultithreadEcho
import MiscCpp.Coroutine.CallStack
import MiscCpp.Coroutine.CtxSwap
import MiscCpp.Coroutine.EventLoop
import MiscCpp.Coroutine.IntrusiveList
import MiscCpp.Coroutine.IntrusiveListRuns
import MiscCpp.Coroutine.ItemLife
import MiscCpp.Coroutine.Poll
import MiscCpp.Coroutine.Registrations
import MiscCpp.Coroutine.Runtime
import MiscCpp.Coroutine.SharedStack
import MiscCpp.Coroutine.TimerLoop
import MiscCpp.Coroutine.TimingWheel
import MiscCpp.Coroutine.WaitOnce
import MiscCpp.Coroutine.WakeUp
import MiscCpp.Coroutine.WheelRotation
import MiscCpp.Hook.Address
import MiscCpp.Hook.BlockingIO
import MiscCpp.Hook.Env
import MiscCpp.Hook.Poll
import MiscCpp.Hook.Socket
import MiscCpp.Hook.SocketTable
import MiscCpp.Hook.Write
import MiscCpp.Leetcode.AddTwoNums
import MiscCpp.Leetcode.Atoi
import MiscCpp.Leetcode.CombinationSum
import MiscCpp.Leetcode.DeleteAndEarn
import MiscCpp.Leetcode.DisconnectIsland
import MiscCpp.Leetcode.DungeonGame
import MiscCpp.Leetcode.EqualSumArraysMinOperations
import MiscCpp.Leetcode.FirstMissingPositive
import MiscCpp.Leetcode.FractionRecurringDecimal
import MiscCpp.Leetcode.HouseRobber
import MiscCpp.Leetcode.HouseRobber3
import MiscCpp.Leetcode.LargestRectangleArea
import MiscCpp.Leetcode.LeastRecentlyUsed
import MiscCpp.Leetcode.LevelOrderTraversal
import MiscCpp.Leetcode.LongestIncSubseq
import MiscCpp.Leetcode.LongestPalindrome
import MiscCpp.Leetcode.LongestSubstrWithoutRepeat
import MiscCpp.Leetcode.MajorityElement
import MiscCpp.Leetcode.MaxNumberOfEvent
import MiscCpp.Leetcode.MaxPathSum
import MiscCpp.Leetcode.MaximalRectangle
import MiscCpp.Leetcode.MaximizeScore
import MiscCpp.Leetcode.MedianTwoSortedArrays
import MiscCpp.Leetcode.MergeIntervals
import MiscCpp.Leetcode.MergeLists
import MiscCpp.Leetcode.MinDays
import MiscCpp.Leetcode.MinStringDistance
import MiscCpp.Leetcode.MinWindow
import MiscCpp.Leetcode.NonoverlappingSubarray
import MiscCpp.Leetcode.NumberOfGoodLeafNodesPairs
import MiscCpp.Leetcode.Permutations
import MiscCpp.Leetcode.RegularExpressionMatch
import MiscCpp.Leetcode.SearchRotatedArray
import MiscCpp.Leetcode.Serialize
import MiscCpp.Leetcode.ShortestSubarrayToRemove
import MiscCpp.Leetcode.SlidingWindowMaximum
import MiscCpp.Leetcode.SortArray.CountingSort
import MiscCpp.Leetcode.SortArray.HeapSort
import MiscCpp.Leetcode.SortArray.LastIndex
import MiscCpp.Leetcode.SortArray.MergeSort
import MiscCpp.Leetcode.SortArray.ParallelQuickSort
import MiscCpp.Leetcode.SortArray.QuickSort
import MiscCpp.Leetcode.StoneGameVII
import MiscCpp.Leetcode.Subsets
import MiscCpp.Leetcode.ThreeSum
import MiscCpp.Leetcode.TrappingRainWater
import MiscCpp.Leetcode.TreeCameras
import MiscCpp.Leetcode.TruncatedData
import MiscCpp.Leetcode.VerticalTraversal
import MiscCpp.Leetcode.WordPattern2
import MiscCpp.Library.Access
import MiscCpp.Library.AlternatingGame
import MiscCpp.Library.Arrangement
import MiscCpp.Library.BinaryIndexed
import MiscCpp.Library.BitMask
import MiscCpp.Library.ByteStream
import MiscCpp.Library.CInt
import MiscCpp.Library.CString
import MiscCpp.Library.CaseLabels
import MiscCpp.Library.ClassCount
import MiscCpp.Library.Connectivity
import MiscCpp.Library.Counters
import MiscCpp.Library.DoublyLinked
import MiscCpp.Library.EditDistance
import MiscCpp.Library.FilledRectangles
import MiscCpp.Library.FloodFill
import MiscCpp.Library.GreedyGains
import MiscCpp.Library.Grouping
import MiscCpp.Library.HealthPaths
import MiscCpp.Library.HeapOrder
import MiscCpp.Library.IncreasingSubsequence
import MiscCpp.Library.IntervalChoice
import MiscCpp.Library.Islands
import MiscCpp.Library.ItemPattern
import MiscCpp.Library.KWayMerge
import MiscCpp.Library.LeafPaths
import MiscCpp.Library.LinkedTree
import MiscCpp.Library.LockedSections
import MiscCpp.Library.Machine
import MiscCpp.Library.MergeRuns
import MiscCpp.Library.MonotonicStack
import MiscCpp.Library.NonAdjacent
import MiscCpp.Library.OrderedPairs
import MiscCpp.Library.PairCount
import MiscCpp.Library.PairSum
import MiscCpp.Library.Palindromes
import MiscCpp.Library.ParentForest
import MiscCpp.Library.PointerCycle
import MiscCpp.Library.Rank
import MiscCpp.Library.Recency
import MiscCpp.Library.Ring
import MiscCpp.Library.Search
import MiscCpp.Library.ShortestRemoval
import MiscCpp.Library.ShortestSpans
import MiscCpp.Library.SinglyLinked
import MiscCpp.Library.SlidingWindow
import MiscCpp.Library.SpanningForest
import MiscCpp.Library.Splitting
import MiscCpp.Library.StdAlgorithm
import MiscCpp.Library.StdHeap
import MiscCpp.Library.StdString
import MiscCpp.Library.StepCount
import MiscCpp.Library.Tasks
import MiscCpp.Library.TextStream
import MiscCpp.Library.TopologicalOrder
import MiscCpp.Library.TreeCover
import MiscCpp.Library.TwoDimensional
import MiscCpp.Library.UnionFind
import MiscCpp.Library.WaterLevel
import MiscCpp.Library.WhileLoop
import MiscCpp.Library.X86
import MiscCpp.Network.Echo
import MiscCpp.Network.IPrange
import MiscCpp.Reactor.BlockingQueue
import MiscCpp.Reactor.Connection
import MiscCpp.Reactor.NetServer
import MiscCpp.Std.Generator
import MiscCpp.Std.Permutation
import MiscCpp.Struct.DisjointSet
import MiscCpp.Struct.EdgeRemoval
import MiscCpp.Struct.FenwickTree
import MiscCpp.Struct.Graph
import MiscCpp.Struct.HasCycle
import MiscCpp.Struct.HashBucket
import MiscCpp.Struct.InsertionSort
import MiscCpp.Struct.LinkedList
import MiscCpp.Struct.MinHeap
import MiscCpp.Struct.MinimumSpanningTree
import MiscCpp.Struct.Prim
import MiscCpp.Struct.SkipList
import MiscCpp.Struct.TopologicalSorting
import MiscCpp.Struct.Tree
import MiscCpp.Struct.TreeInit
import MiscCpp.Struct.TreeTraversal
import MiscCpp.Sync.ForkStdout
import MiscCpp.Sync.GoodCnt
import MiscCpp.Sync.Transfer
import MiscCpp.Tiny.Rio
import MiscCpp.Tiny.Server
import MiscCpp.Urcu.Reader
import MiscCpp.Urcu.ReaderList
import MiscCpp.Urcu.ReaderListRuns
import MiscCpp.Urcu.Synchronize
import MiscCpp.Urcu.WaitGp
import MiscCpp.Urcu.WaitQueue
import MiscCpp.Utils.CircularBuffer
import MiscCpp.Utils.CoroutineMacros
import MiscCpp.Utils.CsvParser
import MiscCpp.Utils.Memcpy
import MiscCpp.Utils.ParallelQuickSort
import MiscCpp.Utils.Singleton
import MiscCpp.Utils.SplitString
