import Qbman.Lib.System
import Qbman.Lib.Cyclic
import Qbman.Lib.Chan
import Qbman.Lib.Words
import Qbman.Basic
import Qbman.Desc
import Qbman.Sys
import Qbman.Portal
import Qbman.Enqueue
import Qbman.Eqcr.Slots
import Qbman.Eqcr.Counts
import Qbman.Eqcr.Enqueued
import Qbman.Eqcr.Init
import Qbman.Eqcr.Ring
import Qbman.Eqcr.Inherit
import Qbman.Eqcr.Direct
import Qbman.Eqcr.MemBack
import Qbman.Eqcr.Mode
import Qbman.Dqrr
import Qbman.Dqrr.Ring
import Qbman.Dqrr.Exact
import Qbman.Lib.Count
import Qbman.Pull
import Qbman.Vdq.Busy
import Qbman.Mc
import Qbman.Mc.Pairing
import Qbman.Mc.Timeout
import Qbman.Process
import Qbman.Vdq.Portals
import Qbman.Vdq.Port
import Qbman.Vdq.Accounting
import Qbman.Vdq.Reuse
import Qbman.Desc.Actions
import Qbman.Lib.Bytes
import Qbman.Mc.Command
import Qbman.Mc.Decode
import Qbman.Mc.Shadow
import Qbman.Mc.Check
import Qbman.Mc.Statistics
import Qbman.Lib.Settled
import Qbman.Eqcr.Publish
import Qbman.IdxMap
import Qbman.Eqcr.Batch
import Qbman.Push
import Qbman.Reject
import Qbman.Lib.Poll
import Qbman.Mc.Complete
import Qbman.Debug.Query
import Qbman.Debug.Thresh
import Qbman.Push.Channels
import Qbman.Desc.Flags
import Qbman.Portal.Failure
import Qbman.Dqrr.Index
import Qbman.Acquire
import Qbman.Release.Bounds
import Qbman.Release.Decode
import Qbman.Marshal
import Qbman.Debug.Fields
import Qbman.Lib.Slots
import Qbman.Grant
import Qbman.Release.Ring
import Qbman.Eqcr.Array
import Qbman.Lib.Share
import Qbman.Portal.Layout
import Qbman.Portal.Parts
import Qbman.Portal.Volatile
import Qbman.Portal.Whole
import Qbman.Lib.Exclusive
import Qbman.Vdq.Atomic
import Qbman.Vdq.Progress
import Qbman.Lib.Server
import Qbman.Mc.Api
import Qbman.Mc.Server
import Qbman.Lib.Custody
import Qbman.Pool.Buffers
import Qbman.Pool.Cycle
import Qbman.Dqrr.Result
import Qbman.Lib.Delivery
import Qbman.Frames.Command
import Qbman.Frames.Flow
import Qbman.Grant.Stores
import Qbman.Eqcr.Stores
import Qbman.Debug.Response
import Qbman.Mc.Stores
import Qbman.Interrupt
import Qbman.Portal.Registers
import Qbman.Portal.PullComplete
