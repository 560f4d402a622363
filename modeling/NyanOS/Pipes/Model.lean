import NyanOS.Lib.Run
import NyanOS.RingBuf

/-!
# Pipes (`fs/pipe.c`)

Every `cli` … `sti` section of `pipe_read`, `pipe_write`, `pipe_check_ready` and
the two close operations is one atomic step; between sections any other task may
run. `vfs_read` and `vfs_write` hold the lock of the one read handle and the one
write handle `sys_pipe` creates (`dup2` and `fork` only share them), so at most
one `pipe_read` and one `pipe_write` are in progress at any time.
-/

namespace NyanOS.Pipes

open Function

abbrev Pid := Nat

/-- The states of `sched.h`; a pid that is not in the task ring counts as `dead`. -/
inductive TaskState
  | ready | waiting | dead | zombie | sleeping
  deriving DecidableEq, Repr

def schedBlock (tasks : Pid → TaskState) (pid : Pid) : Pid → TaskState :=
  update tasks pid .waiting

def schedWakePid (tasks : Pid → TaskState) (pid : Pid) : Pid → TaskState :=
  if tasks pid ≠ .zombie ∧ tasks pid ≠ .dead then update tasks pid .ready else tasks

/-- `struct Pipe`; `none` stands for the pid -1, and the two flag bits are separate. -/
structure Pipe where
  buf : RingBuf UInt8
  readerPid : Option Pid
  writerPid : Option Pid
  readOpen : Bool
  writeOpen : Bool

/-- What the sections of all tasks share: the pipe and the scheduler's task states. -/
structure Shared where
  pipe : Pipe
  tasks : Pid → TaskState

/-- `if (pipe->reader_pid != -1)` wake it and forget it. -/
def Shared.wakeReader (k : Shared) : Shared :=
  match k.pipe.readerPid with
  | none => k
  | some pid =>
    { pipe := { k.pipe with readerPid := none }, tasks := schedWakePid k.tasks pid }

def Shared.wakeWriter (k : Shared) : Shared :=
  match k.pipe.writerPid with
  | none => k
  | some pid =>
    { pipe := { k.pipe with writerPid := none }, tasks := schedWakePid k.tasks pid }

/-- A `pipe_read` in progress: `got` is `buf[0..read_count)`, and the caller is
`get_curr_task()`, `none` when no task is running. -/
structure ReadCall where
  caller : Option Pid
  size : Nat
  got : List UInt8

/-- A `pipe_write` in progress: `sent` is the part already counted by `write_count`
and `rest` the remaining bytes of the buffer. `checked` is set between the test of
`READ_OPEN`, which runs with interrupts enabled, and the push it allows. -/
structure WriteCall where
  caller : Option Pid
  sent : List UInt8
  rest : List UInt8
  checked : Bool

/-- A section either leaves its call in progress (possibly blocked) or returns a count. -/
inductive Outcome (C : Type)
  | inside (call : C)
  | ret (n : Nat)

/-- One turn of the loop of `pipe_read`. -/
def pipeRead (k : Shared) (call : ReadCall) : Shared × Outcome ReadCall :=
  if call.got.length < call.size then
    match k.pipe.buf.rbPop with
    | some (c, buf) =>
      (Shared.wakeWriter { k with pipe := { k.pipe with buf := buf } },
        .inside { call with got := call.got ++ [c] })
    | none =>
      if k.pipe.writeOpen then
        if 0 < call.got.length then (k, .ret call.got.length)
        else
          match call.caller with
          | none => (k, .ret call.got.length)
          | some pid =>
            ({ pipe := { k.pipe with readerPid := some pid }, tasks := schedBlock k.tasks pid },
              .inside call)
      else (k, .ret call.got.length)
  else (k, .ret call.got.length)

/-- One section of `pipe_write`: the test of `READ_OPEN` at the top of the loop, or
one evaluation of `while (rb_is_full(..))` with what follows it. -/
def pipeWrite (k : Shared) (call : WriteCall) : Shared × Outcome WriteCall :=
  match call.rest with
  | [] => (k, .ret call.sent.length)
  | c :: rest =>
    if call.checked then
      if k.pipe.buf.rbIsFull then
        if k.pipe.readOpen then
          match call.caller with
          | none => (k, .ret call.sent.length)
          | some pid =>
            ({ pipe := { k.pipe with writerPid := some pid }, tasks := schedBlock k.tasks pid },
              .inside call)
        else (k, .ret call.sent.length)
      else
        (Shared.wakeReader { k with pipe := { k.pipe with buf := k.pipe.buf.rbPush c } },
          .inside { call with sent := call.sent ++ [c], rest := rest, checked := false })
    else if k.pipe.readOpen then (k, .inside { call with checked := true })
    else (k, .ret call.sent.length)

def pipeCloseReader (k : Shared) : Shared :=
  Shared.wakeWriter { k with pipe := { k.pipe with readOpen := false } }

def pipeCloseWriter (k : Shared) : Shared :=
  Shared.wakeReader { k with pipe := { k.pipe with writeOpen := false } }

/-- `pipe_check_ready` registers the caller when there is nothing to read yet. -/
def pipeCheckReady (k : Shared) (caller : Option Pid) : Shared × Bool :=
  if !k.pipe.buf.rbIsEmpty then (k, true)
  else if !k.pipe.writeOpen then (k, true)
  else
    match caller with
    | none => (k, false)
    | some pid => ({ k with pipe := { k.pipe with readerPid := some pid } }, false)

/-- The pipe, the scheduler and the calls in progress. `returned` and `counted` are
history: the bytes all finished reads returned and all finished writes counted. -/
structure State where
  shared : Shared
  reader : Option ReadCall
  writer : Option WriteCall
  returned : List UInt8
  counted : List UInt8

inductive Action
  | readCall (caller : Option Pid) (size : Nat)
  | read
  | writeCall (caller : Option Pid) (data : List UInt8)
  | write
  | closeReader
  | closeWriter
  | checkReady (caller : Option Pid)
  /-- A wake-up from anywhere else (signals, child exits, window events). -/
  | wake (pid : Pid)
  /-- A task outside this pipe's calls blocks, as `sys_await_io` does after polling. -/
  | block (pid : Pid)
  | spawn (pid : Pid)
  | exit (pid : Pid)
  | reap (pid : Pid)

def State.runnable (s : State) : Option Pid → Bool
  | none => true
  | some pid => s.shared.tasks pid = .ready

/-- The task is inside `pipe_read` or `pipe_write`. -/
def State.inCall (s : State) (pid : Pid) : Bool :=
  s.reader.any (·.caller = some pid) || s.writer.any (·.caller = some pid)

/-- A task that runs and is not inside a call of this pipe may enter the kernel. -/
def State.mayCall (s : State) : Option Pid → Bool
  | none => true
  | some pid => s.shared.tasks pid = .ready && !s.inCall pid

def State.setTask (s : State) (pid : Pid) (st : TaskState) : State :=
  { s with shared := { s.shared with tasks := update s.shared.tasks pid st } }

def next (s : State) : Action → Option State
  | .readCall caller size =>
    if s.reader.isNone && s.mayCall caller then
      some { s with reader := some ⟨caller, size, []⟩ }
    else none
  | .read =>
    match s.reader with
    | none => none
    | some call =>
      if s.runnable call.caller then
        match pipeRead s.shared call with
        | (k, .inside call') => some { s with shared := k, reader := some call' }
        | (k, .ret n) =>
          some { s with shared := k, reader := none, returned := s.returned ++ call.got.take n }
      else none
  | .writeCall caller data =>
    if s.writer.isNone && s.mayCall caller then
      some { s with writer := some ⟨caller, [], data, false⟩ }
    else none
  | .write =>
    match s.writer with
    | none => none
    | some call =>
      if s.runnable call.caller then
        match pipeWrite s.shared call with
        | (k, .inside call') => some { s with shared := k, writer := some call' }
        | (k, .ret n) =>
          some { s with shared := k, writer := none, counted := s.counted ++ call.sent.take n }
      else none
  | .closeReader => some { s with shared := pipeCloseReader s.shared }
  | .closeWriter => some { s with shared := pipeCloseWriter s.shared }
  | .checkReady caller =>
    if s.mayCall caller then some { s with shared := (pipeCheckReady s.shared caller).1 }
    else none
  | .wake pid =>
    some { s with shared := { s.shared with tasks := schedWakePid s.shared.tasks pid } }
  | .block pid => if s.mayCall (some pid) then some (s.setTask pid .waiting) else none
  | .spawn pid =>
    if s.shared.tasks pid = .dead && !s.inCall pid then some (s.setTask pid .ready) else none
  | .exit pid => some (s.setTask pid .zombie)
  | .reap pid => if s.shared.tasks pid = .zombie then some (s.setTask pid .dead) else none

/-- The pipe as `sys_pipe` sets it up, among tasks in any state. -/
def initial (tasks : Pid → TaskState) : State where
  shared := { pipe := ⟨RingBuf.rbInit 0, none, none, true, true⟩, tasks := tasks }
  reader := none
  writer := none
  returned := []
  counted := []

abbrev Step : State → Action → State → Prop := Lib.ofNext next

def Reachable (s : State) : Prop := ∃ tasks xs, Lib.Run Step (initial tasks) xs s

end NyanOS.Pipes
