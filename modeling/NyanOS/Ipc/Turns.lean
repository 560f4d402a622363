import NyanOS.Ipc.Model

/-!
# One turn of a queue operation

A turn of `mq_send` or `mq_receive` leaves the tasks and the wait lists alone, or the running task goes
to the front of a list and blocks, or the task at a front is taken off and set ready.
-/
namespace NyanOS.Ipc

open Lib Sched Function

variable {s t u : State} {q m len v : Nat} {data : List Byte}

inductive Side
  | receivers
  | senders
  deriving DecidableEq

/-- The front of a wait list, 0 if nobody waits. -/
def State.front (s : State) : Nat × Side → Nat
  | (q, .receivers) => (s.queue q).waitingReceivers
  | (q, .senders) => (s.queue q).waitingSenders

def State.waitNext (s : State) (p : Nat) : Nat := (s.kernel.tasks.task p).waitNext

/-- The list in which a call waits. -/
def Call.place : Call → Nat × Side
  | .send q _ => (q, .senders)
  | .receive q _ => (q, .receivers)

inductive TurnEffect (s t : State) (q : Nat) : Prop
  | idle (hk : t.kernel = s.kernel) (hf : t.front = s.front)
  | push (c : Call) (hq : c.place.1 = q)
      (hk : t.kernel.tasks = schedBlock
        (s.kernel.tasks.set s.curr fun x => { x with waitNext := s.front c.place }))
      (hf : t.front = update s.front c.place s.curr) (hc : t.call s.curr = some c)
  | pop (d : Side) (h0 : s.front (q, d) ≠ 0)
      (hk : t.kernel.tasks =
        s.kernel.tasks.set (s.front (q, d)) fun x => { x with state := .ready, waitNext := 0 })
      (hf : t.front = update s.front (q, d) (s.waitNext (s.front (q, d))))

theorem setQueue_front_receivers : (s.setQueue q fun x => { x with waitingReceivers := v }).front =
      update s.front (q, .receivers) v := by
  funext ⟨q', d⟩
  by_cases hq : q' = q
  · subst hq
    cases d <;> simp [State.front, State.setQueue]
  · cases d <;> simp [State.front, State.setQueue, hq]

theorem setQueue_front_senders : (s.setQueue q fun x => { x with waitingSenders := v }).front =
      update s.front (q, .senders) v := by
  funext ⟨q', d⟩
  by_cases hq : q' = q
  · subst hq
    cases d <;> simp [State.front, State.setQueue]
  · cases d <;> simp [State.front, State.setQueue, hq]

theorem setQueue_front {f : MessageQueue → MessageQueue} (hr : ∀ x, (f x).waitingReceivers = x.waitingReceivers)
    (hs : ∀ x, (f x).waitingSenders = x.waitingSenders) : (s.setQueue q f).front = s.front := by
  funext ⟨q', d⟩
  by_cases hq : q' = q
  · subst hq
    cases d <;> simp [State.front, State.setQueue, hr, hs]
  · cases d <;> simp [State.front, State.setQueue, hq]

theorem enqueue_front : (enqueue s q m data).front = s.front := by
  have hcount : ∀ u : State, (u.setQueue q fun x => { x with msgCount := x.msgCount + 1 }).front = u.front :=
    fun u => setQueue_front (fun _ => rfl) fun _ => rfl
  unfold enqueue
  dsimp only
  refine (hcount _).trans ?_
  split <;> exact setQueue_front (fun _ => rfl) fun _ => rfl

theorem dequeue_front : (dequeue s q len).1.front = s.front := by
  have hcount : ∀ u : State, (u.setQueue q fun x => { x with msgCount := x.msgCount - 1 }).front = u.front :=
    fun u => setQueue_front (fun _ => rfl) fun _ => rfl
  have htail : ∀ u : State, (u.setQueue q fun x => { x with tail := 0 }).front = u.front :=
    fun u => setQueue_front (fun _ => rfl) fun _ => rfl
  have hhead : ∀ v, (s.setQueue q fun x => { x with head := v }).front = s.front :=
    fun v => setQueue_front (fun _ => rfl) fun _ => rfl
  unfold dequeue
  dsimp only
  refine (hcount _).trans ?_
  split
  · exact (htail _).trans (hhead _)
  · exact hhead _

theorem enqueue_frame : (enqueue s q m data).kernel = s.kernel ∧
    (enqueue s q m data).queueLive = s.queueLive ∧ (enqueue s q m data).call = s.call := by
  unfold enqueue
  dsimp only
  split <;> exact ⟨rfl, rfl, rfl⟩

theorem dequeue_frame : (dequeue s q len).1.kernel = s.kernel ∧
    (dequeue s q len).1.queueLive = s.queueLive ∧ (dequeue s q len).1.call = s.call := by
  unfold dequeue
  dsimp only
  split <;> exact ⟨rfl, rfl, rfl⟩

theorem wakeReceiver_frame : (wakeReceiver s q).queueLive = s.queueLive ∧ (wakeReceiver s q).call = s.call := by
  unfold wakeReceiver
  dsimp only
  split <;> exact ⟨rfl, rfl⟩

theorem wakeSender_frame : (wakeSender s q).queueLive = s.queueLive ∧ (wakeSender s q).call = s.call := by
  unfold wakeSender
  dsimp only
  split <;> exact ⟨rfl, rfl⟩

theorem wakeReceiver_effect : TurnEffect s (wakeReceiver s q) q := by
  unfold wakeReceiver
  dsimp only
  split
  · exact .idle rfl rfl
  · next h0 => exact .pop .receivers h0 rfl setQueue_front_receivers

theorem wakeSender_effect : TurnEffect s (wakeSender s q) q := by
  unfold wakeSender
  dsimp only
  split
  · exact .idle rfl rfl
  · next h0 => exact .pop .senders h0 rfl setQueue_front_senders

theorem TurnEffect.after (h : TurnEffect u t q) (hk : u.kernel = s.kernel)
    (hf : u.front = s.front) : TurnEffect s t q := by
  have hcurr : u.curr = s.curr := congrArg (fun k => k.tasks.curr) hk
  have hwait : u.waitNext = s.waitNext := by
    unfold State.waitNext
    rw [hk]
  cases h with
  | idle hk' hf' => exact .idle (hk'.trans hk) (hf'.trans hf)
  | push c hq hk' hf' hc =>
    rw [hk, hf, hcurr] at hk'
    rw [hf, hcurr] at hf'
    exact .push c hq hk' hf' (hcurr ▸ hc)
  | pop d h0 hk' hf' =>
    rw [hk, hf] at hk'
    rw [hf, hwait] at hf'
    exact .pop d (hf ▸ h0) hk' hf'

theorem mqSend_effect : TurnEffect s (mqSend s q m data).1 q := by
  unfold mqSend
  dsimp only
  split
  · refine .push (.send q data) rfl rfl setQueue_front_senders ?_
    exact update_self ..
  split
  · exact .idle rfl rfl
  · exact wakeReceiver_effect.after enqueue_frame.1 enqueue_front

theorem mqReceive_effect : TurnEffect s (mqReceive s q len).1 q := by
  unfold mqReceive
  dsimp only
  split
  · refine .push (.receive q len) rfl rfl setQueue_front_receivers ?_
    exact update_self ..
  · exact wakeSender_effect.after dequeue_frame.1 dequeue_front

theorem mqSend_frame : (mqSend s q m data).1.queueLive = s.queueLive ∧
    ∀ p, p ≠ s.curr → (mqSend s q m data).1.call p = s.call p := by
  unfold mqSend
  dsimp only
  split
  · exact ⟨rfl, fun p hp => update_of_ne hp ..⟩
  split
  · exact ⟨rfl, fun p hp => update_of_ne hp ..⟩
  · rw [wakeReceiver_frame.1, wakeReceiver_frame.2, enqueue_frame.2.1, enqueue_frame.2.2]
    exact ⟨rfl, fun p hp => update_of_ne hp ..⟩

theorem mqReceive_frame : (mqReceive s q len).1.queueLive = s.queueLive ∧
    ∀ p, p ≠ s.curr → (mqReceive s q len).1.call p = s.call p := by
  unfold mqReceive
  dsimp only
  split
  · exact ⟨rfl, fun p hp => update_of_ne hp ..⟩
  · rw [wakeSender_frame.1, wakeSender_frame.2, dequeue_frame.2.1, dequeue_frame.2.2]
    exact ⟨rfl, fun p hp => update_of_ne hp ..⟩

end NyanOS.Ipc
