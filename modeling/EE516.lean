import EE516.Foundations.ColorTree
import EE516.Foundations.RedBlackInsert
import EE516.Foundations.RedBlackDelete
import EE516.RedBlackTree.Node
import EE516.RedBlackTree.Represents
import EE516.RedBlackTree.Insertion
import EE516.RedBlackTree.InsertionRuns
import EE516.RedBlackTree.Frame
import EE516.RedBlackTree.Deletion
import EE516.RedBlackTree.Drain
import EE516.Foundations.Run
import EE516.MySemaphore.Syscalls
import EE516.MySemaphore.Steps
import EE516.MySemaphore.Counting
import EE516.MySemaphore.Orphans
import EE516.Philosopher.Table
import EE516.Philosopher.Forks
import EE516.Foundations.Bytes
import EE516.Bbfs.Policy
import EE516.Bbfs.Buffers
import EE516.Bbfs.Calls
import EE516.Bbfs.Eviction
import EE516.Bbfs.Lookup
import EE516.Bbfs.Requests
import EE516.Bbfs.Duplicates
import EE516.Bbfs.Bounded
import EE516.Bbfs.AlignedRequests
import EE516.Bbfs.Isolation
import EE516.Bbfs.RoundTrip
import EE516.Bbfs.ReadYourWrites
import EE516.Bbfs.Durability
import EE516.MySemaphore.Wakeups
import EE516.MySemaphore.Inactive
import EE516.MySemaphore.Progress
import EE516.Foundations.StableSort
import EE516.MySemaphore.WakeOrder
import EE516.Foundations.Monitor
import EE516.ProCon.Threads
import EE516.ProCon.Buffer
import EE516.ReadWrite.Threads
import EE516.ReadWrite.Exclusion
import EE516.TrainingMonkeys.Bowls
import EE516.TrainingMonkeys.Assignment
import EE516.TrainingMonkeys.Feeding
import EE516.Bbfs.Orderly
import EE516.Bbfs.Truncate
import EE516.Bbfs.Coherence
import EE516.Bbfs.Bypass
import EE516.TrainingMonkeys.Balls
import EE516.TrainingMonkeys.Room
import EE516.Foundations.Chain
import EE516.LinkedList.Contents
import EE516.LinkedList.Driver
import EE516.Foundations.BubbleSort
import EE516.Procmon.Show
import EE516.Procmon.Rows
import EE516.Foundations.Lifo
import EE516.StackDriver.EmptyReads
import EE516.StackDriver.Driver
import EE516.StackDriver.Refinement
import EE516.Foundations.BlackCounts
import EE516.RedBlackTree.Topmost
import EE516.RedBlackTree.LeafShortcut
import EE516.RedBlackTree.InnerDeletion
import EE516.Bbfs.Cipher
import EE516.Foundations.Recency
import EE516.Bbfs.Classification
import EE516.Bbfs.Recency
import EE516.Procmon.Selection
import EE516.Procmon.Sorting
import EE516.Bbfs.EndOfFile
import EE516.Bbfs.InUse
import EE516.Bbfs.LargeFiles
import EE516.Bbfs.TwoChunks
import EE516.Bbfs.UnalignedReads
import EE516.Bbfs.UnalignedWrites
import EE516.Philosopher.Arrays
import EE516.Philosopher.Bounds
import EE516.Foundations.Draws
import EE516.FsBench.RandomAccess
import EE516.FsBench.Blocks
import EE516.LedTimers.Board
import EE516.LedTimers.Blink
import EE516.LedTimers.Stopping
import EE516.LedTimers.Count
import EE516.LedTimers.Pattern
import EE516.Foundations.Ring
import EE516.Bbfs.PointerRuns
import EE516.Bbfs.Pointers
import EE516.Bbfs.PointerNodes
import EE516.KernelList.ListHead
import EE516.KernelList.Rings
import EE516.SemaphoreTest.Threads
import EE516.SemaphoreTest.Exclusion
import EE516.SemaphoreTest.Additions
import EE516.MySemaphore.WakeRuns
import EE516.StackDriver.Clients
import EE516.LinkedList.Clients
import EE516.LedTimers.Periodic
import EE516.Foundations.ReuseDistance
import EE516.Bbfs.HitRates
import EE516.Foundations.Phases
import EE516.Bbfs.Syncing
import EE516.RedBlackTree.Logarithmic
import EE516.MyTree.Listing
import EE516.Foundations.Outline
