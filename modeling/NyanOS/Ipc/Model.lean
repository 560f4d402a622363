import NyanOS.Lib.Bytes
import NyanOS.Sched.Model
import NyanOS.UserPointer

/-!
# Message queues (`ipc/mq.c` and their system calls)

A call that blocks is split at `sched_block`: one turn of its loop is a function, and `call` holds
what the task goes on with when it runs again. `sent` and `received` record the messages of each
queue in order, and `touched` the queue pointers that were dereferenced.
-/
namespace NyanOS.Ipc

open Lib Sched Function

structure Message where
  data : List Byte
  size : Nat
  next : Nat

structure MessageQueue where
  name : List Byte
  head : Nat
  tail : Nat
  msgCount : Int
  maxMsgs : Int
  next : Nat
  waitingReceivers : Nat
  waitingSenders : Nat

/-- What a task that is blocked in a queue goes on with. -/
inductive Call
  | send (q : Nat) (data : List Byte)
  | receive (q len : Nat)
  deriving DecidableEq

structure State where
  kernel : Kernel
  queue : Nat → MessageQueue
  message : Nat → Message
  root : Nat
  opened : Nat
  queueLive : Nat → Bool
  messageLive : Nat → Bool
  call : Nat → Option Call
  sent : Nat → List (List Byte)
  received : Nat → List (Nat × List Byte)
  touched : List Nat

def State.setQueue (s : State) (q : Nat) (f : MessageQueue → MessageQueue) : State :=
  { s with queue := update s.queue q (f (s.queue q)) }

def State.setMessage (s : State) (m : Nat) (x : Message) : State :=
  { s with message := update s.message m x }

def State.setTask (s : State) (p : Nat) (f : Task → Task) : State :=
  { s with kernel := s.kernel.setTask p f }

def State.curr (s : State) : Nat := s.kernel.tasks.curr

/-- The loop over `g_mq_root`: the queue of a name, and the one before it in the list. -/
def State.findFrom (s : State) (name : List Byte) : Nat → Nat → Nat → Option (Nat × Nat)
  | 0, _, _ => none
  | n + 1, q, prev =>
    if q = 0 then none
    else if (s.queue q).name = name then some (q, prev)
    else s.findFrom name n (s.queue q).next q

def State.find (s : State) (name : List Byte) : Option (Nat × Nat) := s.findFrom name s.opened s.root 0

/-- `mq_open` with the block that `kmalloc` returns, 0 if it fails. -/
def mqOpen (s : State) (name : List Byte) (block : Nat) : State × Nat :=
  match s.find name with
  | some (q, _) => (s, q)
  | none =>
    if block = 0 then (s, 0)
    else
      ({ s with
          queue := update s.queue block
            { name := name.take 31
              head := 0
              tail := 0
              msgCount := 0
              maxMsgs := 10
              next := s.root
              waitingReceivers := 0
              waitingSenders := 0 }
          queueLive := update s.queueLive block true
          root := block
          opened := s.opened + 1 }, block)

/-- The task at the front of a wait list is set ready and taken off it. -/
def wakeFront (s : State) (t : Nat) : State :=
  s.setTask t fun x => { x with state := .ready, waitNext := 0 }

/-- The end of `mq_send`: a receiver is woken. -/
def wakeReceiver (s : State) (q : Nat) : State :=
  let t := (s.queue q).waitingReceivers
  if t = 0 then s
  else
    wakeFront (s.setQueue q fun x =>
      { x with waitingReceivers := (s.kernel.tasks.task t).waitNext }) t

def wakeSender (s : State) (q : Nat) : State :=
  let t := (s.queue q).waitingSenders
  if t = 0 then s
  else
    wakeFront (s.setQueue q fun x =>
      { x with waitingSenders := (s.kernel.tasks.task t).waitNext }) t

/-- The message at `m` becomes the last one. -/
def enqueue (s : State) (q m : Nat) (data : List Byte) : State :=
  let s := s.setMessage m { data := data, size := data.length, next := 0 }
  let s := if (s.queue q).head = 0 then s.setQueue q fun x => { x with head := m, tail := m }
    else
      (s.setMessage (s.queue q).tail { s.message (s.queue q).tail with next := m }).setQueue q
        fun x => { x with tail := m }
  let s := s.setQueue q fun x => { x with msgCount := x.msgCount + 1 }
  { s with
    messageLive := update s.messageLive m true
    sent := update s.sent q (s.sent q ++ [data]) }

/-- The first message is taken off; `len` bytes at most are copied. -/
def dequeue (s : State) (q len : Nat) : State × Int :=
  let m := (s.queue q).head
  let s := s.setQueue q fun x => { x with head := (s.message m).next }
  let s := s.setMessage m { s.message m with next := 0 }
  let s := if (s.queue q).head = 0 then s.setQueue q fun x => { x with tail := 0 } else s
  let s := s.setQueue q fun x => { x with msgCount := x.msgCount - 1 }
  let readSize := if (s.message m).size < len then (s.message m).size else len
  ({ s with
      messageLive := update s.messageLive m false
      received := update s.received q
        (s.received q ++ [(len, (s.message m).data.take readSize)]) }, readSize)

def touch (s : State) (q : Nat) : State := { s with touched := q :: s.touched }

def setCall (s : State) (c : Option Call) : State :=
  { s with call := update s.call s.curr c }

def block (s : State) : State :=
  { s with kernel := { s.kernel with tasks := schedBlock s.kernel.tasks } }

/-- `mq_send` from its start or from a wake-up to its next `sched_block` or its return. `m` is the
block of the message, 0 if an allocation fails; the result is `none` if the task blocks. -/
def mqSend (s : State) (q m : Nat) (data : List Byte) : State × Option Int :=
  let s := touch s q
  if (s.queue q).maxMsgs ≤ (s.queue q).msgCount then
    let s := s.setTask s.curr fun x => { x with waitNext := (s.queue q).waitingSenders }
    let s := s.setQueue q fun x => { x with waitingSenders := s.curr }
    (block (setCall s (some (.send q data))), none)
  else if m = 0 then (setCall s none, some (-1))
  else (wakeReceiver (enqueue (setCall s none) q m data) q, some 0)

/-- `mq_receive` up to its next `sched_block` or its return. -/
def mqReceive (s : State) (q len : Nat) : State × Option Int :=
  let s := touch s q
  if (s.queue q).head = 0 then
    let s := s.setTask s.curr fun x => { x with waitNext := (s.queue q).waitingReceivers }
    let s := s.setQueue q fun x => { x with waitingReceivers := s.curr }
    (block (setCall s (some (.receive q len))), none)
  else
    let r := dequeue (setCall s none) q len
    (wakeSender r.1 q, some r.2)

/-- The loop of `mq_unlink` that frees the messages from `m` on. -/
def freeMessages (next : Nat → Nat) : Nat → Nat → (Nat → Bool) → Nat → Bool
  | 0, _, live => live
  | n + 1, m, live => if m = 0 then live else freeMessages next n (next m) (update live m false)

/-- `mq_unlink`. The tasks in its wait lists stay there. -/
def mqUnlink (s : State) (name : List Byte) : State × Int :=
  match s.find name with
  | none => (s, -1)
  | some (q, prev) =>
    let s := if prev = 0 then { s with root := (s.queue s.root).next }
      else
        (s.setQueue prev fun x => { x with next := (s.queue q).next }).setQueue q
          fun x => { x with next := 0 }
    ({ s with
        messageLive := freeMessages (fun m => (s.message m).next) (s.sent q).length (s.queue q).head
          s.messageLive
        queueLive := update s.queueLive q false }, 0)

/-! System calls -/

def sizeofMessageQueue : Nat := 80

def maxMqMsgSize : Nat := 4096

/-- `sys_mq_send` with the bytes at `data` and the block of the message. -/
def sysMqSend (s : State) (mq data size : BitVec 64) (bytes : List Byte) (m : Nat) :
    State × Option Int :=
  if mq = 0#64 then (s, some (-1))
  else if size = 0#64 ∨ maxMqMsgSize < size.toNat then (s, some (-1))
  else if verifyUsrAccess mq (BitVec.ofNat 64 sizeofMessageQueue) then (s, some (-1))
  else if !verifyUsrAccess data size then (s, some (-1))
  else mqSend s mq.toNat m bytes

def sysMqReceive (s : State) (mq buf len : BitVec 64) : State × Option Int :=
  if mq = 0#64 then (s, some (-1))
  else if len = 0#64 ∨ maxMqMsgSize < len.toNat then (s, some (-1))
  else if !verifyUsrAccess buf len then (s, some (-1))
  else mqReceive s mq.toNat len.toNat

end NyanOS.Ipc
