import NyanOS.Pipes.Model

/-! No byte of a pipe is lost, duplicated or reordered, whatever the interleaving. -/
namespace NyanOS.Pipes

open Option

variable {s t : State} {k k' : Shared}

/-- The bytes a `pipe_read` in progress has already stored in its caller's buffer. -/
def State.stored (s : State) : List UInt8 :=
  match s.reader with
  | none => []
  | some call => call.got

/-- The bytes a `pipe_write` in progress has already counted. -/
def State.accepted (s : State) : List UInt8 :=
  match s.writer with
  | none => []
  | some call => call.sent

@[simp] theorem wakeReader_pipe (k : Shared) : k.wakeReader.pipe = { k.pipe with readerPid := none } := by
  unfold Shared.wakeReader
  split
  · next hnone => rw [← hnone]
  · rfl

@[simp] theorem wakeWriter_pipe (k : Shared) : k.wakeWriter.pipe = { k.pipe with writerPid := none } := by
  unfold Shared.wakeWriter
  split
  · next hnone => rw [← hnone]
  · rfl

@[simp] theorem pipeCheckReady_buf (k : Shared) (caller : Option Pid) :
    (pipeCheckReady k caller).1.pipe.buf = k.pipe.buf := by
  unfold pipeCheckReady
  repeat' split
  all_goals rfl

/-- What one section of `pipe_read` does: it pops and wakes the writer, registers and blocks on an empty ring, or
returns. Nothing is returned only at the end of file. -/
theorem pipeRead_cases (k : Shared) (call : ReadCall) : (∃ c buf, k.pipe.buf.rbPop = some (c, buf) ∧
      pipeRead k call = (Shared.wakeWriter { k with pipe := { k.pipe with buf := buf } },
        .inside { call with got := call.got ++ [c] })) ∨
    (∃ pid, k.pipe.buf.contents = [] ∧ k.pipe.writeOpen = true ∧ call.caller = some pid ∧ pipeRead k call =
        ({ pipe := { k.pipe with readerPid := some pid }, tasks := schedBlock k.tasks pid }, .inside call)) ∨
    pipeRead k call = (k, .ret call.got.length) ∧ (call.got.length = 0 → call.size ≠ 0 →
      (k.pipe.buf.contents = [] ∧ k.pipe.writeOpen = false) ∨ call.caller = none) := by
  unfold pipeRead
  split
  · split
    · rename_i c buf hpop
      exact .inl ⟨c, buf, hpop, rfl⟩
    rename_i hpop
    have hempty := RingBuf.pop_eq_none_iff.mp hpop
    split
    · rename_i hopen
      split
      · exact .inr (.inr ⟨rfl, fun _ _ => by omega⟩)
      split
      · rename_i hcaller
        exact .inr (.inr ⟨rfl, fun _ _ => .inr hcaller⟩)
      · rename_i pid hpid
        exact .inr (.inl ⟨pid, hempty, hopen, hpid, rfl⟩)
    · rename_i hopen
      exact .inr (.inr ⟨rfl, fun _ _ => .inl ⟨hempty, by simpa using hopen⟩⟩)
  · exact .inr (.inr ⟨rfl, fun _ _ => by omega⟩)

theorem pipeRead_ret_zero {call : ReadCall} (h : (pipeRead k call).2 = .ret 0) (hsize : call.size ≠ 0) :
    (k.pipe.buf.contents = [] ∧ k.pipe.writeOpen = false) ∨ call.caller = none := by
  rcases pipeRead_cases k call with ⟨c, buf, -, he⟩ | ⟨pid, -, -, -, he⟩ | ⟨he, hwhy⟩
  all_goals rw [he] at h
  · cases h
  · cases h
  · exact hwhy (Outcome.ret.inj h) hsize

/-- What one section of `pipe_write` does: it pushes into a ring with room and wakes the reader, registers and blocks
on a full ring, passes the test of `READ_OPEN`, or returns. -/
theorem pipeWrite_cases (k : Shared) (call : WriteCall) : (∃ c rest, k.pipe.buf.rbIsFull = false ∧ pipeWrite k call =
      (Shared.wakeReader { k with pipe := { k.pipe with buf := k.pipe.buf.rbPush c } },
        .inside { call with sent := call.sent ++ [c], rest := rest, checked := false })) ∨
    (∃ pid, k.pipe.buf.contents.length = 255 ∧ k.pipe.readOpen = true ∧ call.caller = some pid ∧ pipeWrite k call =
        ({ pipe := { k.pipe with writerPid := some pid }, tasks := schedBlock k.tasks pid }, .inside call)) ∨
    pipeWrite k call = (k, .inside { call with checked := true }) ∨
    pipeWrite k call = (k, .ret call.sent.length) := by
  unfold pipeWrite
  split
  · exact .inr (.inr (.inr rfl))
  rename_i c rest _
  split
  · split
    · rename_i hfull
      split
      · rename_i hopen
        split
        · exact .inr (.inr (.inr rfl))
        · rename_i pid hpid
          exact .inr (.inl ⟨pid, RingBuf.isFull_iff.mp hfull, hopen, hpid, rfl⟩)
      · exact .inr (.inr (.inr rfl))
    · rename_i hroom
      exact .inl ⟨c, rest, by simpa using hroom, rfl⟩
  · split
    · exact .inr (.inr (.inl rfl))
    · exact .inr (.inr (.inr rfl))

theorem read_step (h : next s .read = some t) : ∃ call, s.reader = some call ∧ s.runnable call.caller = true ∧
    ((∃ c buf, s.shared.pipe.buf.rbPop = some (c, buf) ∧
      t = { s with shared := Shared.wakeWriter { s.shared with pipe := { s.shared.pipe with buf := buf } },
                   reader := some { call with got := call.got ++ [c] } }) ∨
    (∃ pid, s.shared.pipe.buf.contents = [] ∧ s.shared.pipe.writeOpen = true ∧ call.caller = some pid ∧
      t = { s with shared := ⟨{ s.shared.pipe with readerPid := some pid }, schedBlock s.shared.tasks pid⟩ }) ∨
    t = { s with reader := none, returned := s.returned ++ call.got }) := by
  simp only [next] at h
  split at h
  · simp at h
  rename_i call hcall
  split at h
  · rename_i hrun
    refine ⟨call, hcall, hrun, ?_⟩
    rcases pipeRead_cases s.shared call with ⟨c, buf, hpop, he⟩ | ⟨pid, hempty, hopen, hpid, he⟩ | ⟨he, -⟩
    all_goals rw [he] at h; cases h
    · exact .inl ⟨c, buf, hpop, rfl⟩
    · exact .inr (.inl ⟨pid, hempty, hopen, hpid, by rw [← hcall]⟩)
    · exact .inr (.inr (by simp))
  · simp at h

theorem write_step (h : next s .write = some t) : ∃ call, s.writer = some call ∧ s.runnable call.caller = true ∧
    ((∃ c rest, s.shared.pipe.buf.rbIsFull = false ∧
      t = { s with shared := Shared.wakeReader { s.shared with pipe := { s.shared.pipe with buf := s.shared.pipe.buf.rbPush c } },
                   writer := some { call with sent := call.sent ++ [c], rest := rest, checked := false } }) ∨
    (∃ pid, s.shared.pipe.buf.contents.length = 255 ∧ s.shared.pipe.readOpen = true ∧ call.caller = some pid ∧
      t = { s with shared := ⟨{ s.shared.pipe with writerPid := some pid }, schedBlock s.shared.tasks pid⟩ }) ∨
    t = { s with writer := some { call with checked := true } } ∨
    t = { s with writer := none, counted := s.counted ++ call.sent }) := by
  simp only [next] at h
  split at h
  · simp at h
  rename_i call hcall
  split at h
  · rename_i hrun
    refine ⟨call, hcall, hrun, ?_⟩
    rcases pipeWrite_cases s.shared call with ⟨c, rest, hroom, he⟩ | ⟨pid, hfull, hopen, hpid, he⟩ | he | he
    all_goals rw [he] at h; cases h
    · exact .inl ⟨c, rest, hroom, rfl⟩
    · exact .inr (.inl ⟨pid, hfull, hopen, hpid, by rw [← hcall]⟩)
    · exact .inr (.inr (.inl rfl))
    · exact .inr (.inr (.inr (by simp)))
  · simp at h

/-- Every byte a write has counted is returned, stored by the read in progress, or
still in the ring, in the order it was written. -/
def Conserved (s : State) : Prop :=
  s.returned ++ s.stored ++ s.shared.pipe.buf.contents = s.counted ++ s.accepted

theorem conserved_initial (tasks : Pid → TaskState) : Conserved (initial tasks) := by
  simp [Conserved, initial, State.stored, State.accepted]

theorem conserved_read (h : next s .read = some t) (hs : Conserved s) : Conserved t := by
  obtain ⟨call, hcall, -, hcases⟩ := read_step h
  have hs' : s.returned ++ call.got ++ s.shared.pipe.buf.contents = s.counted ++ s.accepted := by
    simpa [Conserved, State.stored, hcall] using hs
  rcases hcases with ⟨c, buf, hpop, rfl⟩ | ⟨pid, -, -, -, rfl⟩ | rfl
  · simpa [Conserved, State.stored, State.accepted, RingBuf.contents_pop hpop] using hs'
  · exact hs
  · simpa [Conserved, State.stored, State.accepted] using hs'

theorem conserved_write (h : next s .write = some t) (hs : Conserved s) : Conserved t := by
  obtain ⟨call, hcall, -, hcases⟩ := write_step h
  have hs' : s.returned ++ s.stored ++ s.shared.pipe.buf.contents = s.counted ++ call.sent := by
    simpa [Conserved, State.accepted, hcall] using hs
  rcases hcases with ⟨c, rest, hroom, rfl⟩ | ⟨pid, -, -, -, rfl⟩ | rfl | rfl
  · simp only [Conserved, State.accepted, State.stored, wakeReader_pipe, RingBuf.contents_push hroom]
    rw [← List.append_assoc, ← List.append_assoc s.counted, ← hs']
    rfl
  · exact hs
  · exact hs'
  · simpa [Conserved, State.stored, State.accepted] using hs'

theorem conserved_step {a : Action} (h : Step s a t) (hs : Conserved s) : Conserved t := by
  change next s a = some t at h
  cases a with
  | read => exact conserved_read h hs
  | write => exact conserved_write h hs
  | readCall caller size =>
    simp only [next] at h
    split at h
    · rename_i hfree
      have hnone : s.reader = none := by simp_all
      cases h
      simpa [Conserved, State.stored, State.accepted, hnone] using hs
    · simp at h
  | writeCall caller data =>
    simp only [next] at h
    split at h
    · rename_i hfree
      have hnone : s.writer = none := by simp_all
      cases h
      simpa [Conserved, State.stored, State.accepted, hnone] using hs
    · simp at h
  | closeReader | closeWriter | wake =>
    cases h
    simpa [Conserved, State.stored, State.accepted, pipeCloseReader, pipeCloseWriter] using hs
  | checkReady caller =>
    simp only [next] at h
    split at h
    · cases h
      simpa [Conserved, State.stored, State.accepted] using hs
    · simp at h
  | exit pid =>
    cases h
    exact hs
  | block pid | spawn pid | reap pid =>
    simp only [next] at h
    split at h
    · cases h
      exact hs
    · simp at h

theorem conserved_reachable (h : Reachable s) : Conserved s := by
  obtain ⟨tasks, xs, hrun⟩ := h
  exact hrun.invariant (fun _ _ _ => conserved_step) (conserved_initial tasks)

/-- The bytes returned so far are a prefix of the bytes accepted so far; what is
missing is in the ring (at most 255 bytes), apart from the bytes a read in progress
has already stored. A read of a non-zero size returns 0 only at end of file. -/
theorem pipe_transfer (h : Reachable s) : s.returned <+: s.counted ++ s.accepted ∧
    s.counted ++ s.accepted = s.returned ++ s.stored ++ s.shared.pipe.buf.contents ∧
    (s.reader = none → s.counted ++ s.accepted = s.returned ++ s.shared.pipe.buf.contents) ∧
    s.shared.pipe.buf.contents.length ≤ 255 ∧
    ∀ call, s.reader = some call → (pipeRead s.shared call).2 = .ret 0 → call.size ≠ 0 →
      (s.shared.pipe.buf.contents = [] ∧ s.shared.pipe.writeOpen = false) ∨ call.caller = none := by
  have hc : s.returned ++ s.stored ++ s.shared.pipe.buf.contents = s.counted ++ s.accepted :=
    conserved_reachable h
  refine ⟨?_, hc.symm, ?_, ?_, ?_⟩
  · rw [← hc, List.append_assoc]
    exact List.prefix_append _ _
  · intro hnone
    simpa [State.stored, hnone] using hc.symm
  · rw [RingBuf.length_contents]
    exact RingBuf.count_le _
  · intro call _ hret hsize
    exact pipeRead_ret_zero hret hsize

/-- In the middle of a read of three bytes, one of the two written bytes is stored. -/
theorem pipe_transfer_mid_read : ∃ s, Reachable s ∧ s.accepted = [7, 8] ∧ s.stored = [7] ∧
      s.counted ++ s.accepted = s.returned ++ s.stored ++ s.shared.pipe.buf.contents := by
  have hrun : Lib.Run Step (initial fun _ => .ready)
      [.writeCall (some 1) [7, 8], .write, .write, .write, .write, .readCall (some 2) 3, .read] _ :=
    Lib.exec_run rfl
  exact ⟨_, ⟨_, _, hrun⟩, rfl, by decide, (pipe_transfer ⟨_, _, hrun⟩).2.1⟩

end NyanOS.Pipes
