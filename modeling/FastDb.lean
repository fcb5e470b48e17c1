import FastDb.Redis.OptionWords
import FastDb.Db.ClientRequests
import FastDb.Db.ReadRequest
import FastDb.Db.Replies
import FastDb.Db.RequestLines
import FastDb.Db.SlotExpiry
import FastDb.Db.SlotIsolation
import FastDb.Collect.AssociationList
import FastDb.Collect.ConcurrentInserts
import FastDb.Collect.ExpiringRuns
import FastDb.Collect.ListInserts
import FastDb.Mutex.ReadWriteLock
import FastDb.Raft.Terms
import FastDb.Raft.Quorums
import FastDb.Raft.Roles
import FastDb.Raft.MatchIndex
import FastDb.Raft.Applied
import FastDb.Raft.ObjFactory
import FastDb.Raft.Acknowledgements
import FastDb.Raft.CommitRule
import FastDb.Mutex.Semaphore
import FastDb.Http.ProcessSession
import FastDb.Coroutine.ChannelClose
import FastDb.Coroutine.Scheduler
import FastDb.Coroutine.Generator
import FastDb.Util.Tokenizers
import FastDb.Util.Trim
import FastDb.Util.RangeUtils
import FastDb.Util.Any
import FastDb.Coroutine.Task
import FastDb.Coroutine.Polling
import FastDb.Raft.LogIndices
import FastDb.Blog.Preview
import FastDb.Blog.Datetime
import FastDb.Blog.ColumnMoves
import FastDb.Raft.Tenures
import FastDb.Collect.Pointers
import FastDb.Raft.AppliedOrder
import FastDb.Db.KeyTable
import FastDb.Raft.ThreadPool
import FastDb.RobinHood.FewEntries
import FastDb.RobinHood.Iteration
import FastDb.BS.Waiting
import FastDb.BS.Blocks
import FastDb.Coroutine.Awaiting
import FastDb.Coroutine.Awaiting.Calls
import FastDb.Coroutine.Awaiting.Completion
import FastDb.Coroutine.Awaiting.DirectStyle
import FastDb.Coroutine.Awaiting.Termination
