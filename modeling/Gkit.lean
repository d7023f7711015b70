import Gkit.Library.Runs
import Gkit.Chord.Delivery
import Gkit.Chord.Transitions
import Gkit.Chord.Steps
import Gkit.Chord.CallbackGuard
import Gkit.Chord.Finality
import Gkit.Chord.Fencing
import Gkit.Chord.Receipts
import Gkit.Library.Redis
import Gkit.Chord.Index
import Gkit.Queue.Reliable
import Gkit.Queue.Conservation
import Gkit.Queue.Transit
import Gkit.Library.Binary64
import Gkit.Library.SkipList
import Gkit.Zset.Skiplist
import Gkit.Zset.Set
import Gkit.Zset.Layout
import Gkit.Zset.Insert
import Gkit.Zset.Delete
import Gkit.Zset.DeleteRange
import Gkit.Zset.Invariant
import Gkit.Zset.Reads
import Gkit.Delayed.Delayed
import Gkit.Delayed.Heap
import Gkit.Generator.Snowflake
import Gkit.Generator.Ids
import Gkit.Library.GoSlice
import Gkit.Buffer.IoBuffer
import Gkit.Buffer.Fifo
import Gkit.Buffer.Mark
import Gkit.Library.GoUtf8
import Gkit.Stringx.Stringx
import Gkit.Stringx.Laws
import Gkit.Library.Glob
import Gkit.Match.Match
import Gkit.Match.Correct
import Gkit.Match.Allowable
import Gkit.Stat.Window
import Gkit.Stat.RollingPolicy
import Gkit.Stat.Refinement
import Gkit.Library.Strconv
import Gkit.Aes.Gcm
import Gkit.PageToken.Token
import Gkit.PageToken.RoundTrip
import Gkit.PageToken.Paging
import Gkit.Chord.Payload
import Gkit.Pool.List
import Gkit.Pool.Accounting
import Gkit.Retry.Fibonacci
import Gkit.ParseGo.CleanCode
import Gkit.Schedule.Field
import Gkit.Schedule.Parse
import Gkit.Zset.Update
import Gkit.Task.Reflect
import Gkit.Window.LeapArray
import Gkit.Library.BlockStream
import Gkit.Hash.Wyhash
import Gkit.Library.Civil
import Gkit.Library.GoTime
import Gkit.Library.FuelLoop
import Gkit.Schedule.Next
import Gkit.Schedule.NextSpec
import Gkit.Delayed.Sentinel
import Gkit.Stat.RollingCounter
import Gkit.Stat.Exact
import Gkit.Window.Sliding
import Gkit.Zset.Combine
import Gkit.Stringx.Pad
