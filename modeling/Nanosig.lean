import Nanosig.Baremetal.Poll
import Nanosig.Baremetal.PollLaw
import Nanosig.Baremetal.Rounds
import Nanosig.Broker.OnLinux
import Nanosig.Broker.Progress
import Nanosig.Broker.Removal
import Nanosig.Broker.Rendezvous
import Nanosig.Broker.Requests
import Nanosig.Broker.Shutdown
import Nanosig.Broker.System
import Nanosig.Formatio.C99
import Nanosig.Formatio.Composition
import Nanosig.Formatio.Count
import Nanosig.Formatio.Cursor
import Nanosig.Formatio.Delivery
import Nanosig.Formatio.Digits
import Nanosig.Formatio.Float
import Nanosig.Formatio.Integer
import Nanosig.Formatio.Number
import Nanosig.Formatio.Prescribed
import Nanosig.Formatio.Printf
import Nanosig.Formatio.Stream
import Nanosig.Formatio.Text
import Nanosig.Formatio.Truncation
import Nanosig.Hashtbl.Calls
import Nanosig.Hashtbl.Hashtbl
import Nanosig.Hashtbl.Lookups
import Nanosig.Hashtbl.Multimap
import Nanosig.Hashtbl.Order
import Nanosig.Hashtbl.Placement
import Nanosig.Hashtbl.Release
import Nanosig.Hashtbl.Traversal
import Nanosig.Lib.AlarmClock
import Nanosig.Lib.Buckets
import Nanosig.Lib.ByteStore
import Nanosig.Lib.CircularList
import Nanosig.Lib.CircularLists
import Nanosig.Lib.ColoredTree
import Nanosig.Lib.Latch
import Nanosig.Lib.LinkedPath
import Nanosig.Lib.LinkedTree
import Nanosig.Lib.Progress
import Nanosig.Lib.Registry
import Nanosig.Lib.RequestLedger
import Nanosig.Lib.ResourceLedger
import Nanosig.Lib.RingStore
import Nanosig.Lib.Segments
import Nanosig.Lib.Settling
import Nanosig.Lib.Simulation
import Nanosig.Lib.TransitionSystem
import Nanosig.Lib.TreeHeight
import Nanosig.Lib.TreeWalks
import Nanosig.Lib.WrappingCounter
import Nanosig.Lists.Calls
import Nanosig.Lists.Lists
import Nanosig.Lists.Traversal
import Nanosig.Loop.LateLap
import Nanosig.Loop.NoLostWakeup
import Nanosig.Loop.Restart
import Nanosig.Loop.Steps
import Nanosig.Loop.System
import Nanosig.MpscRecordRing.Calls
import Nanosig.MpscRecordRing.Consumer
import Nanosig.MpscRecordRing.Delivery
import Nanosig.MpscRecordRing.Invariant
import Nanosig.MpscRecordRing.LargestRecord
import Nanosig.MpscRecordRing.Meta
import Nanosig.MpscRecordRing.Plan
import Nanosig.MpscRecordRing.Producers
import Nanosig.MpscRecordRing.QueueFull
import Nanosig.MpscRecordRing.Ring
import Nanosig.MpscRecordRing.SpaceSafety
import Nanosig.MpscRecordRing.System
import Nanosig.MpscRecordRing.Turns
import Nanosig.Platform.Clock
import Nanosig.Platform.EpollWaits
import Nanosig.Platform.EpollWaitset
import Nanosig.Platform.KqueueWaitset
import Nanosig.Platform.SlotWaitsets
import Nanosig.Platform.Timeouts
import Nanosig.Platform.Waitset
import Nanosig.Platform.WaitsetHistories
import Nanosig.Platform.WaitsetWaits
import Nanosig.Platform.Wakeups
import Nanosig.Platform.WindowsWaitset
import Nanosig.Rbtree.Delete
import Nanosig.Rbtree.Erase
import Nanosig.Rbtree.FindAdd
import Nanosig.Rbtree.Insert
import Nanosig.Rbtree.Links
import Nanosig.Rbtree.Operations
import Nanosig.Rbtree.Rounds
import Nanosig.Rbtree.Runs
import Nanosig.Rbtree.Traversal
import Nanosig.Rbtree.Tree
import Nanosig.Ringbuf.Contents
import Nanosig.Ringbuf.Exclusive
import Nanosig.Ringbuf.Queue
import Nanosig.Ringbuf.Refinement
import Nanosig.Ringbuf.Ringbuf
import Nanosig.Ringbuf.System
import Nanosig.Runtime.Histories
import Nanosig.Runtime.Lifecycle
import Nanosig.Runtime.Ownership
import Nanosig.Signal.Delivery
import Nanosig.Signal.Signal
import Nanosig.Signal.SlotCall
import Nanosig.Signal.SlotList
import Nanosig.Slist.Calls
import Nanosig.Slist.Slist
import Nanosig.Slist.Traversal
import Nanosig.Status
import Nanosig.TimerMgr.AlarmClock
import Nanosig.TimerMgr.AnyClock
import Nanosig.TimerMgr.Armed
import Nanosig.TimerMgr.BoundedSleep
import Nanosig.TimerMgr.Calls
import Nanosig.TimerMgr.Fire
import Nanosig.TimerMgr.FireExpired
import Nanosig.TimerMgr.Lives
import Nanosig.TimerMgr.Manager
import Nanosig.TimerMgr.NoMissedDeadline
import Nanosig.TimerMgr.Order
import Nanosig.TimerMgr.OrderedTree
import Nanosig.TimerMgr.Recheck
import Nanosig.TimerMgr.System
import Nanosig.TimerMgr.Threads
