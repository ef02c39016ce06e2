import Acached.HashTable.SetHistory
import Acached.HashTable.LockOrder
import Acached.Sga.Pools
import Acached.Sga.WorkerQueues
import Acached.Dispatch.SharedScan
import Acached.Receive.FailedRead
import Acached.Receive.HalfAnswered
import Acached.Receive.Entry
import Acached.Receive.LoopEnds
import Acached.Receive.AnyCut
import Acached.Receive.LineSearch
import Acached.Receive.Numbers
import Acached.Receive.CommandType
import Acached.Receive.KeyLengths
import Acached.Receive.SameKey
import Acached.Reply.Indices
import Acached.Reply.FinalWrite
import Acached.Reply.WriteCursor
import Acached.Reply.FinalFlush
import Acached.Reply.Sequential
import Acached.Worker.ReplyState
import Acached.Worker.Completion
import Acached.Worker.Backed
import Acached.Worker.RecordSizes
import Acached.Clients.LiveValues
import Acached.Pool.Recycled
import Acached.Hash.Mixing
import Acached.Hash.Paths
import Acached.Hash.Agreement
import Acached.Hash.Blocks
import Acached.Hash.Message
import Acached.Server.Progress
import Acached.Server.Isolation
import Acached.Comm.Dealt
import Acached.Server.ClientView
import Acached.Receive.Notices
import Acached.Dispatch.Arrivals
import Acached.Worker.Served
import Acached.Worker.OwnKind
import Acached.Sockets.OwnSocket
