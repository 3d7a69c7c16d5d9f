import Mathlib.Data.List.Basic

/-!
# A POSIX message queue

A queue lives in the state of the mqueue volume, next to the records of delivered
notifications.  Every operation is one `Volume::change`: the state is read, what the dead
left behind is collected, the operation works on it, and the result is published unless
the operation fails.
-/

namespace Kinakaze.Mqueue

def EBUSY : Int := 16
def EINVAL : Int := 22
def EMSGSIZE : Int := 90
def EOPNOTSUPP : Int := 95

def MAX_PRIORITY : Nat := 32768

structure Notification where
  pid : Nat
  host : Nat
  method : Nat
  signal : Nat
  value : Nat
  sender : Nat
  uid : Nat

structure Message where
  priority : Nat
  data : List UInt8
  deriving DecidableEq

/-- A receiver is a process and the thread of it that waits. -/
structure Queue where
  maxmsg : Nat
  msgsize : Nat
  uid : Nat
  messages : List Message
  notify : Option Notification
  receivers : List (Nat × Nat)

/-- The part of the volume that concerns one queue. -/
structure Instance where
  queue : Queue
  delivered : List Notification

/-- What the liveness tests of a change say. -/
structure Live where
  process : Nat → Nat → Bool
  thread : Nat → Nat → Bool

def Live.notifies (live : Live) (n : Notification) : Bool := live.process n.pid n.host

def collect (live : Live) (i : Instance) : Instance where
  queue :=
    { i.queue with
      notify := i.queue.notify.filter live.notifies
      receivers := i.queue.receivers.filter fun w => live.thread w.1 w.2 }
  delivered := i.delivered.filter live.notifies

/-- What an operation makes of the collected state. -/
abbrev Outcome (α : Type) := Except Int (α × Instance)

/-- `Volume::change`: an operation that fails publishes nothing. -/
def change {α : Type} (live : Live) (op : Instance → Outcome α) (i : Instance) : Outcome α :=
  op (collect live i)

/-! ## The operations -/

/-- The messages with a new one, behind all of its priority or more. -/
def insertMessage (m : Message) (messages : List Message) : List Message :=
  messages.insertIdx (messages.findIdx fun other => decide (other.priority < m.priority)) m

/-- The record a send leaves for the notified process. -/
def Notification.deliveredBy (n : Notification) (sender uid : Nat) : Notification :=
  { n with sender, uid }

/-- `send`, by the process `sender` of user `uid`: `none` when the queue is full, else the
notification it has consumed. -/
def send (m : Message) (sender uid : Nat) (i : Instance) : Outcome (Option (Option Notification)) :=
  if i.queue.msgsize < m.data.length then .error EMSGSIZE
  else if i.queue.maxmsg ≤ i.queue.messages.length then .ok (none, i)
  else
    let notification :=
      if i.queue.messages.isEmpty && i.queue.receivers.isEmpty then i.queue.notify else none
    let queue :=
      { i.queue with
        messages := insertMessage m i.queue.messages
        notify :=
          if i.queue.messages.isEmpty && i.queue.receivers.isEmpty then none
          else i.queue.notify }
    let delivered :=
      match notification.filter fun n => n.method == 0 with
      | some n => i.delivered ++ [n.deliveredBy sender uid]
      | none => i.delivered
    .ok (some notification, { queue, delivered })

/-- `receive` by `waiter`; a blocking one registers when there is no message. -/
def receive (waiter : Nat × Nat) (length : Nat) (nonblock : Bool) (i : Instance) :
    Outcome (Option Message) :=
  if length < i.queue.msgsize then .error EMSGSIZE
  else
    match i.queue.messages with
    | m :: rest =>
      .ok (some m, { i with queue :=
            { i.queue with
              messages := rest
              receivers := i.queue.receivers.filter (· ≠ waiter) } })
    | [] =>
      let receivers :=
        if !nonblock && !i.queue.receivers.contains waiter then
          i.queue.receivers ++ [waiter]
        else i.queue.receivers
      .ok (none, { i with queue := { i.queue with receivers } })

/-- The change by which `receive` ends. -/
def leave (waiter : Nat × Nat) (i : Instance) : Outcome Unit :=
  .ok ((), { i with queue :=
    { i.queue with receivers := i.queue.receivers.filter (· ≠ waiter) } })

/-- `notify` by the process `pid`. -/
def notify (pid : Nat) (value : Option Notification) (i : Instance) : Outcome Unit :=
  match value with
  | some n =>
    if 1 < n.method then .error EOPNOTSUPP
    else if n.method = 0 ∧ (n.signal = 0 ∨ 65 ≤ n.signal) then .error EINVAL
    else if i.queue.notify.isSome then .error EBUSY
    else .ok ((), { i with queue := { i.queue with notify := some n } })
  | none =>
    .ok ((), { i with queue :=
      { i.queue with
        notify := if i.queue.notify.any fun n => n.pid == pid then none else i.queue.notify } })

/-- `closed`: a process that closes a descriptor of the queue is no longer notified. -/
def closed (pid : Nat) (i : Instance) : Outcome Unit := notify pid none i

/-- `getattr`, on what it reads of the queue: its bounds and the number of messages. -/
def getattr (i : Instance) : Outcome (Nat × Nat × Nat) :=
  .ok ((i.queue.maxmsg, i.queue.msgsize, i.queue.messages.length), i)

/-- `take_notification` by the process `pid`. -/
def takeNotification (pid signal : Nat) (i : Instance) : Outcome (Option Notification) :=
  match i.delivered.findIdx? fun n => n.pid == pid && n.signal == signal with
  | some at_ => .ok (i.delivered[at_]?, { i with delivered := i.delivered.eraseIdx at_ })
  | none => .ok (none, i)

end Kinakaze.Mqueue
