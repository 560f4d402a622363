import NyanOS.Pipes.Transfer

/-!
Blocked readers and writers of a pipe are woken when they can go on, as long as no
task polls the read end while another one is blocked in `pipe_read`: the poll takes
over the only `reader_pid` slot.
-/
namespace NyanOS.Pipes

open Option

variable {s t : State} {k k' : Shared} {tasks : Pid → TaskState} {p q : Pid}

def BlockedInRead (s : State) (p : Pid) : Prop :=
  s.shared.tasks p = .waiting ∧ ∃ call, s.reader = some call ∧ call.caller = some p

def BlockedInWrite (s : State) (p : Pid) : Prop :=
  s.shared.tasks p = .waiting ∧ ∃ call, s.writer = some call ∧ call.caller = some p

/-- Nobody sleeps in `pipe_read` with bytes to read or at end of file, nor in
`pipe_write` with room in the ring or without a reader. -/
def NoLostWakeup (s : State) : Prop :=
  (∀ p, BlockedInRead s p →
    s.shared.pipe.buf.contents = [] ∧ s.shared.pipe.writeOpen = true) ∧
  ∀ p, BlockedInWrite s p →
    s.shared.pipe.buf.contents.length = 255 ∧ s.shared.pipe.readOpen = true

/-- The polls that do not displace a blocked reader. -/
def KeepsReader (s : State) : Action → Prop
  | .checkReady (some _) => ∀ p, ¬ BlockedInRead s p
  | _ => True

/-- Who is blocked is registered, and each task is inside at most one call. -/
structure Registered (s : State) : Prop where
  reader : ∀ p, BlockedInRead s p → s.shared.pipe.readerPid = some p ∧
    s.shared.pipe.buf.contents = [] ∧ s.shared.pipe.writeOpen = true
  writer : ∀ p, BlockedInWrite s p → s.shared.pipe.writerPid = some p ∧
    s.shared.pipe.buf.contents.length = 255 ∧ s.shared.pipe.readOpen = true
  apart : ∀ rc wc p, s.reader = some rc → s.writer = some wc → rc.caller = some p →
    wc.caller ≠ some p

theorem registered_noLostWakeup (h : Registered s) : NoLostWakeup s :=
  ⟨fun p hp => (h.reader p hp).2, fun p hp => (h.writer p hp).2⟩

theorem schedWakePid_waiting (h : schedWakePid tasks q p = .waiting) : tasks p = .waiting ∧ p ≠ q := by
  unfold schedWakePid at h
  by_cases hpq : p = q
  · subst q
    split at h
    · simp at h
    · simp_all
  · split at h
    · exact ⟨by simpa [hpq] using h, hpq⟩
    · exact ⟨h, hpq⟩

theorem wakeReader_waiting (h : k.wakeReader.tasks p = .waiting) :
    k.tasks p = .waiting ∧ k.pipe.readerPid ≠ some p := by
  unfold Shared.wakeReader at h
  split at h
  · rename_i hnone
    exact ⟨h, by simp [hnone]⟩
  rename_i q hq
  obtain ⟨hw, hne⟩ := schedWakePid_waiting h
  exact ⟨hw, by simpa [hq] using hne.symm⟩

theorem wakeWriter_waiting (h : k.wakeWriter.tasks p = .waiting) :
    k.tasks p = .waiting ∧ k.pipe.writerPid ≠ some p := by
  unfold Shared.wakeWriter at h
  split at h
  · rename_i hnone
    exact ⟨h, by simp [hnone]⟩
  rename_i q hq
  obtain ⟨hw, hne⟩ := schedWakePid_waiting h
  exact ⟨hw, by simpa [hq] using hne.symm⟩

theorem registered_initial (tasks : Pid → TaskState) : Registered (initial tasks) := by
  refine ⟨?_, ?_, ?_⟩
  · rintro p ⟨_, call, hcall, _⟩
    simp [initial] at hcall
  · rintro p ⟨_, call, hcall, _⟩
    simp [initial] at hcall
  · intro rc wc p hrc
    simp [initial] at hrc

theorem not_waiting_of_runnable {caller : Option Pid} (h : s.runnable caller = true)
    (hp : caller = some p) : s.shared.tasks p ≠ .waiting := by
  subst hp
  simp only [State.runnable, decide_eq_true_eq] at h
  simp [h]

theorem registered_read (h : next s .read = some t) (hs : Registered s) : Registered t := by
  obtain ⟨call, hcall, hrun, ⟨c, buf, -, rfl⟩ | ⟨pid, hempty, hopen, hpid, rfl⟩ | rfl⟩ := read_step h
  · refine ⟨?_, ?_, ?_⟩
    · rintro p ⟨hw, call', hcall', hp⟩
      obtain ⟨hw, _⟩ := wakeWriter_waiting hw
      cases hcall'
      exact (not_waiting_of_runnable hrun hp hw).elim
    -- a writer that still waits would have been registered, and so woken just now
    · rintro p ⟨hw, call', hcall', hp⟩
      obtain ⟨hw, hne⟩ := wakeWriter_waiting hw
      exact (hne (hs.writer p ⟨hw, call', hcall', hp⟩).1).elim
    · intro rc wc p hrc hwc hp
      cases hrc
      exact hs.apart call wc p hcall hwc hp
  · refine ⟨?_, ?_, hs.apart⟩
    · rintro p ⟨_, call', hcall', hp⟩
      obtain rfl : call = call' := some.inj (hcall.symm.trans hcall')
      exact ⟨by rw [← hp, hpid], hempty, hopen⟩
    · rintro p ⟨hw, wc, hwc, hp⟩
      have hne : p ≠ pid := by
        rintro rfl
        exact hs.apart call wc p hcall hwc hpid hp
      apply hs.writer p
      exact ⟨by simpa [schedBlock, hne] using hw, wc, hwc, hp⟩
  · refine ⟨?_, hs.writer, ?_⟩
    · rintro p ⟨_, call', hcall', _⟩
      simp at hcall'
    · intro rc wc p hrc
      simp at hrc

theorem registered_write (h : next s .write = some t) (hs : Registered s) : Registered t := by
  obtain ⟨call, hcall, hrun, ⟨c, rest, -, rfl⟩ | ⟨pid, hfull, hopen, hpid, rfl⟩ | rfl | rfl⟩ := write_step h
  · refine ⟨?_, ?_, ?_⟩
    · rintro p ⟨hw, call', hcall', hp⟩
      obtain ⟨hw, hne⟩ := wakeReader_waiting hw
      exact (hne (hs.reader p ⟨hw, call', hcall', hp⟩).1).elim
    · rintro p ⟨hw, call', hcall', hp⟩
      obtain ⟨hw, _⟩ := wakeReader_waiting hw
      cases hcall'
      exact (not_waiting_of_runnable hrun hp hw).elim
    · intro rc wc p hrc hwc hp
      cases hwc
      exact hs.apart rc call p hrc hcall hp
  · refine ⟨?_, ?_, hs.apart⟩
    · rintro p ⟨hw, rc, hrc, hp⟩
      have hne : p ≠ pid := by
        rintro rfl
        exact hs.apart rc call p hrc hcall hp hpid
      apply hs.reader p
      exact ⟨by simpa [schedBlock, hne] using hw, rc, hrc, hp⟩
    · rintro p ⟨_, call', hcall', hp⟩
      obtain rfl : call = call' := some.inj (hcall.symm.trans hcall')
      exact ⟨by rw [← hp, hpid], hfull, hopen⟩
  · refine ⟨hs.reader, ?_, ?_⟩
    · rintro p ⟨hw, call', hcall', hp⟩
      cases hcall'
      exact (not_waiting_of_runnable hrun hp hw).elim
    · intro rc wc p hrc hwc hp
      cases hwc
      exact hs.apart rc call p hrc hcall hp
  · refine ⟨hs.reader, ?_, ?_⟩
    · rintro p ⟨_, call', hcall', _⟩
      simp at hcall'
    · intro rc wc p _ hwc
      simp at hwc

theorem registered_closeReader (hs : Registered s) : Registered { s with shared := pipeCloseReader s.shared } := by
  refine ⟨?_, ?_, hs.apart⟩
  · rintro p ⟨hw, hcall⟩
    obtain ⟨hw, _⟩ := wakeWriter_waiting hw
    simpa [pipeCloseReader] using hs.reader p ⟨hw, hcall⟩
  · rintro p ⟨hw, hcall⟩
    obtain ⟨hw, hne⟩ := wakeWriter_waiting hw
    exact (hne (hs.writer p ⟨hw, hcall⟩).1).elim

theorem registered_closeWriter (hs : Registered s) : Registered { s with shared := pipeCloseWriter s.shared } := by
  refine ⟨?_, ?_, hs.apart⟩
  · rintro p ⟨hw, hcall⟩
    obtain ⟨hw, hne⟩ := wakeReader_waiting hw
    exact (hne (hs.reader p ⟨hw, hcall⟩).1).elim
  · rintro p ⟨hw, hcall⟩
    obtain ⟨hw, _⟩ := wakeReader_waiting hw
    simpa [pipeCloseWriter] using hs.writer p ⟨hw, hcall⟩

theorem registered_tasks (hs : Registered s)
    (h : ∀ p, tasks p = .waiting → s.inCall p = true → s.shared.tasks p = .waiting) :
    Registered { s with shared := { s.shared with tasks := tasks } } := by
  refine ⟨?_, ?_, hs.apart⟩
  · rintro p ⟨hw, call, hcall, hp⟩
    change s.reader = some call at hcall
    exact hs.reader p ⟨h p hw (by simp [State.inCall, hcall, hp]), call, hcall, hp⟩
  · rintro p ⟨hw, call, hcall, hp⟩
    change s.writer = some call at hcall
    exact hs.writer p ⟨h p hw (by simp [State.inCall, hcall, hp]), call, hcall, hp⟩

theorem registered_setTask {st : TaskState} (hs : Registered s)
    (h : st = .waiting → s.inCall q = false) : Registered (s.setTask q st) := by
  apply registered_tasks hs
  intro p hw hin
  by_cases hpq : p = q
  · subst q
    rw [h (by simpa using hw)] at hin
    simp at hin
  · simpa [hpq] using hw

theorem registered_checkReady {caller : Option Pid} (hk : KeepsReader s (.checkReady caller))
    (hs : Registered s) : Registered { s with shared := (pipeCheckReady s.shared caller).1 } := by
  unfold pipeCheckReady
  split
  · exact hs
  split
  · exact hs
  cases caller with
  | none => exact hs
  | some q =>
    refine ⟨?_, hs.writer, hs.apart⟩
    intro p hp
    exact (hk p hp).elim

theorem registered_step {a : Action} (hk : KeepsReader s a) (h : Step s a t) (hs : Registered s) : Registered t := by
  change next s a = some t at h
  cases a with
  | read => exact registered_read h hs
  | write => exact registered_write h hs
  | readCall caller size =>
    simp only [next] at h
    split at h
    · rename_i hmay
      cases h
      refine ⟨?_, hs.writer, ?_⟩
      · rintro p ⟨hw, call, hcall, hp⟩
        cases hcall
        cases hp
        simp_all [State.mayCall]
      · intro rc wc p hrc hwc hp
        cases hrc
        cases hp
        simp_all [State.mayCall, State.inCall]
    · simp at h
  | writeCall caller data =>
    simp only [next] at h
    split at h
    · rename_i hmay
      cases h
      refine ⟨hs.reader, ?_, ?_⟩
      · rintro p ⟨hw, call, hcall, hp⟩
        cases hcall
        cases hp
        simp_all [State.mayCall]
      · intro rc wc p hrc hwc hp hq
        cases hwc
        cases hq
        simp_all [State.mayCall, State.inCall]
    · simp at h
  | closeReader =>
    cases h
    exact registered_closeReader hs
  | closeWriter =>
    cases h
    exact registered_closeWriter hs
  | checkReady caller =>
    simp only [next] at h
    split at h
    · cases h
      exact registered_checkReady hk hs
    · simp at h
  | wake pid =>
    cases h
    exact registered_tasks hs fun p hw _ => (schedWakePid_waiting hw).1
  | block pid =>
    simp only [next] at h
    split at h
    · rename_i hmay
      cases h
      apply registered_setTask hs
      intro _
      simp_all [State.mayCall]
    · simp at h
  | spawn pid | reap pid =>
    simp only [next] at h
    split at h
    · cases h
      exact registered_setTask hs (by simp)
    · simp at h
  | exit pid =>
    cases h
    exact registered_setTask hs (by simp)

/-- In every run in which no task polls the pipe while another one is blocked in
`pipe_read`, nobody ever sleeps past a wake-up. -/
theorem noLostWakeup_of_keepsReader {tasks : Pid → TaskState} {xs : List Action}
    (h : Lib.Run (Lib.guarded Step KeepsReader) (initial tasks) xs s) : NoLostWakeup s := by
  apply registered_noLostWakeup
  exact h.invariant (fun _ _ _ hstep => registered_step hstep.1 hstep.2) (registered_initial tasks)

/-- A poll that comes before the blocking read is harmless. -/
theorem noLostWakeup_poll_then_read :
    ∃ s, Lib.Run (Lib.guarded Step KeepsReader) (initial fun _ => .ready)
        [.checkReady (some 2), .readCall (some 1) 4, .read] s ∧
      BlockedInRead s 1 ∧ NoLostWakeup s := by
  have hnone : ∀ p, ¬ BlockedInRead (initial fun _ => .ready) p := by
    rintro p ⟨hw, _⟩
    simp [initial] at hw
  have hrun : Lib.Run (Lib.guarded Step KeepsReader) (initial fun _ => .ready)
      [.checkReady (some 2), .readCall (some 1) 4, .read] _ :=
    .stepL ⟨hnone, rfl⟩ (.stepL ⟨trivial, rfl⟩ (.stepL ⟨trivial, rfl⟩ .refl))
  exact ⟨_, hrun, ⟨rfl, _, rfl, rfl⟩, noLostWakeup_of_keepsReader hrun⟩

/-- Task 1 blocks in `pipe_read`, task 2 polls the same read end, task 3 writes a byte:
only task 2 is woken. -/
theorem lost_wakeup_after_poll : ¬ ∀ s, Reachable s → NoLostWakeup s := by
  intro hall
  have hrun : Lib.Run Step (initial fun _ => .ready)
      [.readCall (some 1) 4, .read, .checkReady (some 2), .writeCall (some 3) [7], .write, .write] _ :=
    Lib.exec_run rfl
  have hempty := ((hall _ ⟨_, _, hrun⟩).1 1 ⟨rfl, _, rfl, rfl⟩).1
  revert hempty
  decide

end NyanOS.Pipes
