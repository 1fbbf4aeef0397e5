import TitanX.Model.MatchingEngine

/-!
# The event store

`titanx/persistence/EventStore`: any number of `append` calls, the writer thread and one
call of `close`, as an interleaving of their atomic steps. A step is one access of shared
state: the mutex, the queue, `running_`, the condition variable.

`queueCV_.wait` is the loop the standard defines it to be: test the predicate with the
mutex held; if it is false release the mutex and block, in one step; when woken take the
mutex back and test again. `notify_one` wakes the writer if it is blocked and is lost if it
is not, since the writer is the only thread that ever waits. A blocked writer may also wake
by itself (`Action.wake`).

`writeToDb` is the call; what the database does with the row is outside. `pushed` and
`written` are ghosts: the events in the order in which they were pushed, and in the order in
which they were passed to `writeToDb`.
-/

namespace TitanX

namespace EventStore

/-- A thread that can hold `queueMutex_`. -/
inductive Holder where
  | append (i : Nat)
  | writer
  deriving DecidableEq

/-- What an `append` call does next. -/
inductive AppendStage where
  | lock
  | push
  | unlock
  | notify
  | returned
  deriving DecidableEq

structure AppendCall where
  event : OrderEvent
  stage : AppendStage

/-- Where the writer stands in `writerLoop`. -/
inductive WriterStage where
  /-- At `while (running_)`. -/
  | looping
  | locking
  /-- In `wait`, about to test its predicate. -/
  | testing
  /-- The predicate was false. -/
  | blocking
  | waiting
  | woken
  /-- At `while (!queue_.empty())`. -/
  | draining
  | popped (event : OrderEvent)
  /-- The mutex is released for the write. -/
  | writing (event : OrderEvent)
  | relocking
  /-- `running_` was false. -/
  | leaving
  /-- At the second `while (!queue_.empty())`. -/
  | flushing
  /-- The front event is written and still in the queue. -/
  | flushed
  | ended
  deriving DecidableEq

/-- What the `close` call does next. -/
inductive CloseStage where
  | uncalled
  | store
  | notify
  | join
  | returned
  deriving DecidableEq

/-- `notify_one`, as the writer sees it. -/
def WriterStage.notified : WriterStage → WriterStage
  | .waiting => .woken
  | w => w

end EventStore

open EventStore

structure EventStore where
  queue : List OrderEvent
  queueMutex : Option Holder
  running : Bool
  /-- The `append` calls, in the order in which they began. -/
  appends : List AppendCall
  writer : WriterStage
  closer : CloseStage
  pushed : List OrderEvent
  written : List OrderEvent

namespace EventStore

/-- After the constructor: the writer thread is started. -/
def initial : EventStore := ⟨[], none, true, [], .looping, .uncalled, [], []⟩

inductive Action where
  /-- A call of `append` begins. -/
  | append (event : OrderEvent)
  /-- The `i`-th call of `append` takes its next step. -/
  | appendStep (i : Nat)
  | writerStep
  /-- The writer wakes up without a notification. -/
  | wake
  /-- `close` is called. -/
  | close
  | closeStep
  deriving DecidableEq

/-- The next step of `append`, for the `i`-th call; one that waits for the mutex stays
where it is. -/
def append (s : EventStore) (i : Nat) (call : AppendCall) : EventStore :=
  let next (stage : AppendStage) := s.appends.set i { call with stage }
  match call.stage with
  | .lock =>
      if s.queueMutex = none then
        { s with queueMutex := some (.append i), appends := next .push }
      else s
  | .push =>
      { s with
        queue := s.queue ++ [call.event]
        pushed := s.pushed ++ [call.event]
        appends := next .unlock }
  | .unlock => { s with queueMutex := none, appends := next .notify }
  | .notify => { s with writer := s.writer.notified, appends := next .returned }
  | .returned => s

/-- Take the mutex and go on, or wait for it. -/
def lockThen (s : EventStore) (w : WriterStage) : EventStore :=
  if s.queueMutex = none then { s with queueMutex := some .writer, writer := w } else s

/-- The next step of `writerLoop`. -/
def writerLoop (s : EventStore) : EventStore :=
  match s.writer with
  | .looping => { s with writer := if s.running then .locking else .leaving }
  | .locking => s.lockThen .testing
  | .testing =>
      { s with writer := if !s.queue.isEmpty || !s.running then .draining else .blocking }
  | .blocking => { s with queueMutex := none, writer := .waiting }
  | .waiting => s
  | .woken => s.lockThen .testing
  | .draining =>
      match s.queue with
      | event :: queue => { s with queue, writer := .popped event }
      | [] => { s with queueMutex := none, writer := .looping }
  | .popped event => { s with queueMutex := none, writer := .writing event }
  | .writing event => { s with written := s.written ++ [event], writer := .relocking }
  | .relocking => s.lockThen .draining
  | .leaving => s.lockThen .flushing
  | .flushing =>
      match s.queue with
      | event :: _ => { s with written := s.written ++ [event], writer := .flushed }
      | [] => { s with queueMutex := none, writer := .ended }
  | .flushed => { s with queue := s.queue.tail, writer := .flushing }
  | .ended => s

/-- The next step of `close`; `join` waits for the end of the writer. -/
def close (s : EventStore) : EventStore :=
  match s.closer with
  | .uncalled => s
  | .store => { s with running := false, closer := .notify }
  | .notify => { s with writer := s.writer.notified, closer := .join }
  | .join => if s.writer = .ended then { s with closer := .returned } else s
  | .returned => s

def step (s : EventStore) : Action → EventStore × Unit
  | .append event => ({ s with appends := s.appends ++ [⟨event, .lock⟩] }, ())
  | .appendStep i =>
      match s.appends[i]? with
      | some call => (s.append i call, ())
      | none => (s, ())
  | .writerStep => (s.writerLoop, ())
  | .wake => ({ s with writer := s.writer.notified }, ())
  | .close => (if s.closer = .uncalled then { s with closer := .store } else s, ())
  | .closeStep => (s.close, ())

end EventStore

end TitanX
