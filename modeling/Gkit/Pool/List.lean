import Gkit.Library.Runs

/-!
`container/pool`: the `List` pool as a system of threads. Each critical section of `list.go`,
from `l.mu.Lock()` to `l.mu.Unlock()`, is one atomic step, and so is each call of the resource
factory and each `Shutdown` call on a resource; the mutex itself is then implicit. A client
calls `Get`, holds what it returns and gives it back with `Put`, as often as it likes; the
cleaner runs `cleanExpired`, and any thread may call `Shutdown`, `Reload` or `New`. Resources
are named by numbers, the factory making `0`, `1`, … in turn; the instants `nowFunc()` reads
and the factory's outcome are the steps' arguments.
-/

namespace Gkit.Pool

/-- `2^64`. -/
def M64 : Nat := 18446744073709551616

/-- `atomic.AddUint64` on a counter below `2^64`. -/
def addUint64 (a b : Nat) : Nat := (a + b) % M64

/-- `^uint64(x)`, with which `atomic.AddUint64` subtracts `x + 1`. -/
def complement (x : Nat) : Nat := M64 - 1 - x % M64

/-- `config`. Durations are in nanoseconds. -/
structure Config where
  active : UInt64
  idle : UInt64
  idleTimeout : Int
  waitTimeout : Int
  wait : Bool
  deriving DecidableEq, Repr

def defaultConfig : Config where
  active := 20
  idle := 10
  idleTimeout := 90 * 1000000000
  waitTimeout := 0
  wait := false

/-- The options of `pool.go`. -/
inductive ConfigOption where
  | SetActive (active : UInt64)
  | SetIdle (idle : UInt64)
  | SetIdleTimeout (idleTimeout : Int)
  | SetWait (wait : Bool) (waitTimeout : Int)

def ConfigOption.apply : ConfigOption → Config → Config
  | .SetActive active, c => { c with active }
  | .SetIdle idle, c => { c with idle }
  | .SetIdleTimeout idleTimeout, c => { c with idleTimeout }
  | .SetWait wait waitTimeout, c => { c with wait, waitTimeout }

/-- `for _, option := range options { option(l.conf) }`. -/
def applyOptions (options : List ConfigOption) (c : Config) : Config :=
  options.foldl (fun c option => option.apply c) c

inductive PoolError where
  | ErrPoolNewFuncIsNull
  | ErrPoolExhausted
  | ErrPoolClosed
  /-- `ctx.Err()`, when the context is done while `Get` waits. -/
  | ContextDone
  /-- The factory's own error. -/
  | NewFailed
  deriving DecidableEq, Repr

/-- `item`: a resource and the instant it went idle. -/
structure Item where
  createdAt : Int
  s : Nat
  deriving DecidableEq, Repr

/-- `item.expire`, with `nowFunc()` read as `now`. -/
def Item.expire (i : Item) (timeout now : Int) : Bool :=
  if timeout ≤ 0 then false else decide (i.createdAt + timeout < now)

/-- The fields of `List` that the critical sections read and write; `idles` runs from the
front of the list to its back. `generation` counts the channels `notifyLocked` has closed, so
a waiter that captured an older one is woken. -/
structure ListState where
  /-- `l.f != nil`. -/
  hasNew : Bool
  generation : Nat
  active : Nat
  conf : Config
  closed : Bool
  idles : List Item
  deriving DecidableEq, Repr

def notifyLocked (p : ListState) : ListState := { p with generation := p.generation + 1 }

def releaseLocked (p : ListState) : ListState :=
  notifyLocked { p with active := addUint64 p.active (complement 0) }

@[simp] theorem notifyLocked_active (p : ListState) : (notifyLocked p).active = p.active := rfl

@[simp] theorem notifyLocked_idles (p : ListState) : (notifyLocked p).idles = p.idles := rfl

@[simp] theorem notifyLocked_conf (p : ListState) : (notifyLocked p).conf = p.conf := rfl

@[simp] theorem releaseLocked_active (p : ListState) :
    (releaseLocked p).active = addUint64 p.active (complement 0) := rfl

@[simp] theorem releaseLocked_idles (p : ListState) : (releaseLocked p).idles = p.idles := rfl

@[simp] theorem releaseLocked_conf (p : ListState) : (releaseLocked p).conf = p.conf := rfl

/-- Where a client is between two steps. The states inside `Get`'s idle loop keep its `i`
and `n`. -/
inductive Client where
  /-- Between calls, with the error the last call returned, if any. -/
  | ready (err : Option PoolError)
  /-- `Get` popped `it` and unlocked; `idleTimeout` is the one it read under the lock. -/
  | checking (i n : Nat) (it : Item) (idleTimeout : Int)
  /-- The popped `s` had expired: `Get` calls `Shutdown` on it next. -/
  | shutting (i n : Nat) (s : Nat)
  /-- `Get` shut the expired resource down and re-locks to release its count next. -/
  | releasing (i n : Nat)
  /-- `Get` waits on the channel of the given generation. -/
  | waiting (generation : Nat)
  /-- `Get` bumped `active` and calls the factory next. -/
  | creating
  /-- The factory failed: `Get` releases the count next. -/
  | failed
  /-- `Get` returned `s`, and the client holds it. -/
  | holding (s : Nat)
  /-- `Put` released the count of `s` and calls `Shutdown` on it next. -/
  | putShutdown (s : Nat)
  deriving DecidableEq, Repr

/-- One step of a client: the pool after it, where the client is then, the resource it calls
`Shutdown` on, if any, and whether the factory made the next resource. -/
structure Move where
  pool : ListState
  client : Client
  shutdown : Option Nat
  created : Bool

/-- `Get` from the closed check after the idle loop on. -/
def afterIdles (p : ListState) : Move :=
  if p.closed then ⟨p, .ready (some .ErrPoolClosed), none, false⟩
  else if p.conf.active = 0 ∨ p.active < p.conf.active.toNat then
    if !p.hasNew then ⟨p, .ready (some .ErrPoolNewFuncIsNull), none, false⟩
    -- the counter is bumped under the lock, before the factory runs
    else ⟨{ p with active := addUint64 p.active 1 }, .creating, none, false⟩
  else if p.conf.waitTimeout = 0 ∧ !p.conf.wait then
    ⟨p, .ready (some .ErrPoolExhausted), none, false⟩
  else ⟨p, .waiting p.generation, none, false⟩

/-- `Get` under the lock at iteration `i` of `for i, n := 0, l.idles.Len(); i < n; i++`: pop
the front idle and unlock to check it, or leave the loop. -/
def getLocked (p : ListState) (i n : Nat) : Move :=
  if i < n then
    match p.idles with
    | it :: rest => ⟨{ p with idles := rest }, .checking i n it p.conf.idleTimeout, none, false⟩
    | [] => afterIdles p
  else afterIdles p

/-- `Put` of `s` under the lock, at the instant `now`: the pool after it and the resource to
shut down after unlocking, if any. -/
def putLocked (p : ListState) (s : Nat) (forceClose : Bool) (now : Int) :
    ListState × Option Nat :=
  if !p.closed ∧ !forceClose then
    let idles := ⟨now, s⟩ :: p.idles
    if UInt64.ofNat idles.length > p.conf.idle then
      -- `s = l.idles.Remove(l.idles.Back()).(item).s`
      (releaseLocked { p with idles := idles.dropLast },
        some (idles.getLast (List.cons_ne_nil _ _)).s)
    else (notifyLocked { p with idles }, none)
  else (releaseLocked p, some s)

/-- `cleanExpired` under the lock, at the instant `now`: the pool after it and the resources
it detached, in the order it shuts them down. -/
def cleanLocked (p : ListState) (now : Int) : ListState × List Nat :=
  if p.closed ∨ p.conf.idleTimeout ≤ 0 then (p, [])
  else
    -- the loop removes idles from the back while they have expired
    let expired := fun it : Item => it.expire p.conf.idleTimeout now
    let removed := p.idles.reverse.takeWhile expired
    if removed.length > 0 then
      (notifyLocked { p with
          idles := (p.idles.reverse.dropWhile expired).reverse
          active := addUint64 p.active (complement (removed.length - 1)) },
        removed.map Item.s)
    else (p, [])

/-- `Shutdown` under the lock: `none` when the pool is already closed (`ErrPoolClosed`), else
the pool after it and the idles to shut down after unlocking. -/
def shutdownLocked (p : ListState) : Option (ListState × List Nat) :=
  if p.closed then none
  else
    let shutdowns := p.idles.map Item.s
    some (notifyLocked { p with
        closed := true
        active :=
          if shutdowns.length > 0 then addUint64 p.active (complement (shutdowns.length - 1))
          else p.active
        idles := [] },
      shutdowns)

/-- Where `Put` leaves its caller: about to shut the evicted or returned resource down, or done. -/
def afterPut : Option Nat → Client
  | some s => .putShutdown s
  | none => .ready none

/-- What a client does next. -/
inductive ClientAction where
  /-- Call `Get`. -/
  | Get
  /-- `ic.expire(idleTimeout)` on the popped idle. -/
  | check (now : Int)
  /-- `ic.s.Shutdown()` on an expired idle. -/
  | shutdownExpired
  /-- Re-lock and `releaseLocked` after that. -/
  | release
  /-- `<-generation`: re-lock and run the idle loop again. -/
  | wake
  /-- `<-ctx.Done()` or the wait timeout. -/
  | cancel
  /-- `newItem(ctx)`, which succeeds or fails. -/
  | factory (ok : Bool)
  /-- `releaseUnlocked` after the factory failed. -/
  | releaseFailed
  /-- Call `Put` on the held resource. -/
  | Put (forceClose : Bool) (now : Int)
  /-- `s.Shutdown()` at the end of `Put`. -/
  | shutdownPut

/-- A client's step, when its next action is the given one; `fresh` is the resource the
factory makes next. -/
def clientStep (p : ListState) (fresh : Nat) : Client → ClientAction → Option Move
  | .ready _, .Get =>
    some (if p.closed then ⟨p, .ready (some .ErrPoolClosed), none, false⟩
      else getLocked p 0 p.idles.length)
  | .checking i n it idleTimeout, .check now =>
    some ⟨p, if it.expire idleTimeout now then .shutting i n it.s else .holding it.s, none, false⟩
  | .shutting i n s, .shutdownExpired => some ⟨p, .releasing i n, some s, false⟩
  | .releasing i n, .release => some (getLocked (releaseLocked p) (i + 1) n)
  | .waiting generation, .wake =>
    -- the captured channel is closed once a later `notifyLocked` ran
    if p.generation ≠ generation then some (getLocked p 0 p.idles.length) else none
  | .waiting _, .cancel => some ⟨p, .ready (some .ContextDone), none, false⟩
  | .creating, .factory ok => some ⟨p, if ok then .holding fresh else .failed, none, ok⟩
  | .failed, .releaseFailed => some ⟨releaseLocked p, .ready (some .NewFailed), none, false⟩
  | .holding s, .Put forceClose now =>
    let r := putLocked p s forceClose now
    some ⟨r.1, afterPut r.2, none, false⟩
  | .putShutdown s, .shutdownPut => some ⟨p, .ready none, some s, false⟩
  | _, _ => none

/-- The pool and every thread that uses it. -/
structure Sys where
  pool : ListState
  clients : List Client
  /-- What the cleaner's `cleanExpired` detached and has still to shut down. -/
  cleaner : List Nat
  /-- For each `Shutdown` call past its critical section, the idles it has still to shut
  down. -/
  closers : List (List Nat)
  /-- The resource the factory makes next. -/
  nextId : Nat
  /-- Every `Shutdown` call made on a resource, in order. -/
  shut : List Nat
  deriving DecidableEq, Repr

/-- `NewList(options...)`: no factory yet, no clients. -/
def NewList (options : List ConfigOption) : Sys where
  pool :=
    { hasNew := false
      generation := 0
      active := 0
      conf := applyOptions options defaultConfig
      closed := false
      idles := [] }
  clients := []
  cleaner := []
  closers := []
  nextId := 0
  shut := []

inductive Action where
  /-- A new client starts. -/
  | spawn
  /-- `New(f)`, with `f` nil or not. -/
  | New (present : Bool)
  | Reload (options : List ConfigOption)
  /-- The client with the given index takes its next step. -/
  | client (t : Nat) (a : ClientAction)
  /-- The cleaner's timer or wake-up: `cleanExpired`'s critical section. -/
  | cleanExpired (now : Int)
  /-- The cleaner's next `Shutdown` call on a detached idle. -/
  | cleanerShutdown
  /-- A call of `Shutdown` on the pool: its critical section. -/
  | Shutdown
  /-- The next `Shutdown` call of the `j`-th successful pool `Shutdown`. -/
  | closerShutdown (j : Nat)

/-- A client's move, applied to the system. -/
def Sys.apply (s : Sys) (t : Nat) (m : Move) : Sys :=
  { s with
    pool := m.pool
    clients := s.clients.set t m.client
    shut := s.shut ++ m.shutdown.toList
    nextId := if m.created then s.nextId + 1 else s.nextId }

/-- One atomic step; an action that cannot be taken leaves the system as it is. -/
def step (s : Sys) : Action → Sys
  | .spawn => { s with clients := s.clients ++ [.ready none] }
  | .New present => { s with pool := { s.pool with hasNew := present } }
  | .Reload options =>
    { s with pool := notifyLocked { s.pool with conf := applyOptions options s.pool.conf } }
  | .client t a =>
    match s.clients[t]? with
    | none => s
    | some c =>
      match clientStep s.pool s.nextId c a with
      | none => s
      | some m => s.apply t m
  | .cleanExpired now =>
    -- the single cleaner goroutine finishes its shutdowns before it cleans again
    if s.cleaner = [] then
      let r := cleanLocked s.pool now
      { s with pool := r.1, cleaner := r.2 }
    else s
  | .cleanerShutdown =>
    match s.cleaner with
    | r :: rest => { s with cleaner := rest, shut := s.shut ++ [r] }
    | [] => s
  | .Shutdown =>
    match shutdownLocked s.pool with
    | some r => { s with pool := r.1, closers := s.closers ++ [r.2] }
    | none => s
  | .closerShutdown j =>
    match s.closers[j]? with
    | some (r :: rest) => { s with closers := s.closers.set j rest, shut := s.shut ++ [r] }
    | _ => s

/-- The states some interleaving reaches from `NewList`. -/
def PoolReachable (s : Sys) : Prop :=
  Runs.Reachable (fun s₀ => ∃ options, s₀ = NewList options) step s

end Gkit.Pool
