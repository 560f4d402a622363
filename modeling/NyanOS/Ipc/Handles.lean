import NyanOS.Ipc.Model
import NyanOS.Sched.Runs

/-!
# Queue handles from user space

A queue handle is the address of the queue. The system calls look at the value only, so they do not
know whether it is the address of a queue.
-/
namespace NyanOS.Ipc

open Lib Sched

variable {s : State} {q m len p : Nat} {data : List Byte}

/-- The queues in the list from `g_mq_root`. -/
def State.queuesFrom (s : State) : Nat → Nat → List Nat
  | 0, _ => []
  | n + 1, q => if q = 0 then [] else q :: s.queuesFrom n (s.queue q).next

def State.queues (s : State) : List Nat := s.queuesFrom s.opened s.root

@[simp] theorem wakeReceiver_touched : (wakeReceiver s q).touched = s.touched := by
  unfold wakeReceiver
  dsimp only
  split <;> rfl

@[simp] theorem wakeSender_touched : (wakeSender s q).touched = s.touched := by
  unfold wakeSender
  dsimp only
  split <;> rfl

@[simp] theorem enqueue_touched : (enqueue s q m data).touched = s.touched := by
  unfold enqueue
  dsimp only
  split <;> rfl

@[simp] theorem dequeue_touched : (dequeue s q len).1.touched = s.touched := by
  unfold dequeue
  dsimp only
  split <;> rfl

theorem mqSend_touched : (mqSend s q m data).1.touched = q :: s.touched := by
  unfold mqSend
  dsimp only
  split
  · rfl
  split
  · rfl
  · rw [wakeReceiver_touched, enqueue_touched]
    rfl

theorem mqReceive_touched : (mqReceive s q len).1.touched = q :: s.touched := by
  unfold mqReceive
  dsimp only
  split
  · rfl
  · rw [wakeSender_touched, dequeue_touched]
    rfl

theorem mqSend_ne {r : Option Int} : mqSend s q m data ≠ (s, r) := by
  intro he
  have ht : (mqSend s q m data).1.touched = q :: s.touched := mqSend_touched
  rw [he] at ht
  exact List.cons_ne_self q s.touched ht.symm

theorem mqReceive_ne {r : Option Int} : mqReceive s q len ≠ (s, r) := by
  intro he
  have ht : (mqReceive s q len).1.touched = q :: s.touched := mqReceive_touched
  rw [he] at ht
  exact List.cons_ne_self q s.touched ht.symm

/-- The system calls refuse a value, and leave all memory alone, for these arguments only. -/
theorem handle_refused_iff (s : State) (mq data size buf len : BitVec 64) (bytes : List Byte) (m : Nat) :
    (sysMqSend s mq data size bytes m = (s, some (-1)) ↔
      mq = 0#64 ∨ (size = 0#64 ∨ maxMqMsgSize < size.toNat) ∨
        verifyUsrAccess mq (BitVec.ofNat 64 sizeofMessageQueue) = true ∨ verifyUsrAccess data size = false) ∧
    (sysMqReceive s mq buf len = (s, some (-1)) ↔
      mq = 0#64 ∨ (len = 0#64 ∨ maxMqMsgSize < len.toNat) ∨ verifyUsrAccess buf len = false) := by
  constructor
  · unfold sysMqSend
    split
    · next h => simp [h]
    next h0 =>
    split
    · next h => simp [h]
    next hsize =>
    split
    · next h => simp [h]
    next hfake =>
    split
    · next h => simp_all
    next hdata =>
    constructor
    · intro he
      exact absurd he mqSend_ne
    · rintro (h | h | h | h)
      · exact absurd h h0
      · exact absurd h hsize
      · exact absurd h hfake
      · simp [h] at hdata
  · unfold sysMqReceive
    split
    · next h => simp [h]
    next h0 =>
    split
    · next h => simp [h]
    next hlen =>
    split
    · next h => simp_all
    next hbuf =>
    constructor
    · intro he
      exact absurd he mqReceive_ne
    · rintro (h | h | h)
      · exact absurd h h0
      · exact absurd h hlen
      · simp [h] at hbuf

/-- No queue has been opened. -/
def noQueues : State where
  kernel := bootKernel
  queue := fun _ => ⟨[], 0, 0, 0, 0, 0, 0, 0⟩
  message := fun _ => ⟨[], 0, 0⟩
  root := 0
  opened := 0
  queueLive := fun _ => false
  messageLive := fun _ => false
  call := fun _ => none
  sent := fun _ => []
  received := fun _ => []
  touched := []

/-- An address of the kernel that is no queue is dereferenced by `sys_mq_send`, and an address of
the user by `sys_mq_receive`. -/
theorem handle_forged : (BitVec.toNat 0xFFFF800000000000#64 ∉ noQueues.queues ∧
      (sysMqSend noQueues 0xFFFF800000000000#64 0x1000#64 1#64 [7#8] 5).1.touched = [0xFFFF800000000000]) ∧
    (BitVec.toNat 0x400000#64 ∉ noQueues.queues ∧
      (sysMqReceive noQueues 0x400000#64 0x1000#64 1#64).1.touched = [0x400000]) := by
  decide +kernel

end NyanOS.Ipc
