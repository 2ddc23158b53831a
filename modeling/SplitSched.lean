import SplitSched.Lib.CArith
import SplitSched.Lib.CString
import SplitSched.Lib.Outstanding
import SplitSched.Lib.Placement
import SplitSched.Lib.RefCount
import SplitSched.Lib.Locks
import SplitSched.Lib.Registry
import SplitSched.Lib.Run
import SplitSched.Lib.Sweep
import SplitSched.Lib.Apportion
import SplitSched.Lib.StableOrder
import SplitSched.Lib.RbTree
import SplitSched.Block.Platform
import SplitSched.Block.IoBatch
import SplitSched.Block.CauseTags
import SplitSched.Block.Elevator
import SplitSched.Block.Shares
import SplitSched.Block.Extents
import SplitSched.Block.UniqCauses
import SplitSched.Block.CauseRefs
import SplitSched.Block.BatchSet
import SplitSched.Block.BatchCost
import SplitSched.Block.BatchLog
import SplitSched.Tb.Account
import SplitSched.Tb.Accounting
import SplitSched.Tb.Frame
import SplitSched.Tb.Hooks
import SplitSched.Tb.Dispatch
import SplitSched.Tb.Requests
import SplitSched.Tb.ForcedDispatch
import SplitSched.Tb.Wakeup
import SplitSched.Tb.Fairness
import SplitSched.Tb.Throttle
import SplitSched.Tb.Charges
import SplitSched.Tb.Charging
import SplitSched.Tb.DiskBatches
import SplitSched.Tb.Flush
import SplitSched.Tb.Sharing
import SplitSched.Tb.Tokens
import SplitSched.Tb.Income
import SplitSched.Tb.Refresh
import SplitSched.Tb.QueueChoice
import SplitSched.Tb.Tables
import SplitSched.Tb.Representation
import SplitSched.Afq.Account
import SplitSched.Afq.Accounting
import SplitSched.Afq.Charges
import SplitSched.Afq.Work
import SplitSched.Afq.Pending
import SplitSched.Afq.Machine
import SplitSched.Afq.Batches
import SplitSched.Afq.Selection
import SplitSched.Afq.Inflight
import SplitSched.Afq.HookTouches
import SplitSched.Afq.Gate
import SplitSched.Afq.Drain
import SplitSched.Afq.DiskBatches
import SplitSched.Afq.VioCounter
import SplitSched.Afq.Touches
import SplitSched.Afq.Estimates
import SplitSched.Afq.Accrual
import SplitSched.Afq.Starvation
import SplitSched.Afq.Statistics
import SplitSched.Afq.Locking
import SplitSched.Afq.LockOrder
import SplitSched.Deadline.Sched
import SplitSched.Deadline.Queues
import SplitSched.Deadline.Expiry
import SplitSched.Deadline.WriteStarvation
import SplitSched.Deadline.Guarantee
import SplitSched.Deadline.DirtyPages
import SplitSched.Deadline.PageWord
import SplitSched.Deadline.FsyncWait
import SplitSched.Block.CauseIds
import SplitSched.Block.BioTags
import SplitSched.Block.ZeroOut
import SplitSched.Block.CauseSets
import SplitSched.Block.LeakCounters
import SplitSched.Ext4.Metadata
import SplitSched.Ext4.Writepages
import SplitSched.Jbd2.Revoke
import SplitSched.Jbd2.Commit
import SplitSched.Btrfs.ExtentIo
import SplitSched.Vfs.Interception
import SplitSched.Ioctl
import SplitSched.Lifecycle.Steps
import SplitSched.Lifecycle.Invariant
import SplitSched.Lifecycle.Faults
import SplitSched.ExpireRb
import SplitSched.Coverage
import SplitSched.DiskBatches
import SplitSched.Refund
