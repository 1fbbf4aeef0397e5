import TitanX.Model.EventStore

/-!
# The event store and its table

`connectToDb`, `writeToDb` and the end of `close` of `titanx/persistence/EventStore`. What libpq
and the server behind it do is not part of the repository, so it is a parameter: a `Database` is
any state with the four calls that the store makes, the rows of `order_events`, and whatever
else can happen to it. What a result needs of it is stated with the result (`Database.Lawful`,
`Database.Serves`).

A row is an event, with its own `event_id`. The text for `event_type` is not taken from the
event: `to_string(event.type).c_str()` points into a string that is gone when the row is sent, so
any text can stand there.
-/

namespace TitanX

/-- What `writeToDb` sends to `order_events`. -/
structure Row where
  event : OrderEvent
  /-- What is read for the column `event_type`. -/
  eventType : String
  deriving DecidableEq

structure Database where
  State : Type
  /-- What happens without a call of the store. -/
  Outside : Type
  /-- `order_events` in the order of its ids. -/
  rows : State → List Row
  /-- `PQconnectdb`, and whether `PQstatus` is then `CONNECTION_OK`. -/
  connect : State → State × Bool
  /-- `PQexecParams` with the `INSERT`, and whether the result is `PGRES_COMMAND_OK`. -/
  exec : State → Row → State × Bool
  /-- `PQfinish` -/
  finish : State → State
  outside : State → Outside → State

variable {d : Database}

structure EventTable (d : Database) where
  db : d.State
  /-- `conn_` is not null. -/
  conn : Bool

namespace EventTable

def connectToDb (t : EventTable d) : EventTable d × Bool :=
  let db := if t.conn then d.finish t.db else t.db
  let (db, ok) := d.connect db
  if ok then (⟨db, true⟩, true) else (⟨d.finish db, false⟩, false)

/-- After the constructor of the store. -/
def initial (db : d.State) : EventTable d := (connectToDb ⟨db, false⟩).1

/-- The rest of `writeToDb`, once there is a connection. -/
def insert (t : EventTable d) (row : Row) : EventTable d :=
  let (db, ok) := d.exec t.db row
  if ok then { t with db } else (connectToDb { t with db }).1

def writeToDb (t : EventTable d) (row : Row) : EventTable d :=
  if t.conn then t.insert row
  else
    let (t, ok) := t.connectToDb
    if ok then t.insert row else t

/-- The end of `close`. -/
def release (t : EventTable d) : EventTable d :=
  if t.conn then ⟨d.finish t.db, false⟩ else t

end EventTable

/-! ## The store with its table -/

structure PersistentStore (d : Database) where
  store : EventStore
  table : EventTable d
  /-- A ghost: the rows passed to `writeToDb` so far. -/
  sent : List Row

namespace PersistentStore

def initial (db : d.State) : PersistentStore d := ⟨EventStore.initial, EventTable.initial db, []⟩

inductive Action (d : Database) where
  /-- A step of the store; `eventType` is the text read if it writes. -/
  | store (action : EventStore.Action) (eventType : String)
  | outside (x : d.Outside)

/-- The event that a step passes to `writeToDb`. -/
def writes (s : EventStore) : EventStore.Action → Option OrderEvent
  | .writerStep =>
      match s.writer, s.queue with
      | .writing event, _ => some event
      | .flushing, event :: _ => some event
      | _, _ => none
  | _ => none

/-- `close` has joined the writer and goes on to its end. -/
def closes (s : EventStore) (action : EventStore.Action) : Bool :=
  s.closer = .join && (s.step action).1.closer = .returned

def step (p : PersistentStore d) : Action d → PersistentStore d × Unit
  | .store action eventType =>
      let store := (p.store.step action).1
      match writes p.store action with
      | some event =>
          let row := ⟨event, eventType⟩
          ({ store, table := p.table.writeToDb row, sent := p.sent ++ [row] }, ())
      | none =>
          ({ p with store, table := if closes p.store action then p.table.release else p.table }, ())
  | .outside x => ({ p with table := { p.table with db := d.outside p.table.db x } }, ())

end PersistentStore

end TitanX
