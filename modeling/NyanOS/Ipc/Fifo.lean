import NyanOS.Ipc.Handles
import NyanOS.Lib.Run
import NyanOS.Lib.Segment

/-!
# A message queue is a bounded FIFO

The messages of a queue are a segment from its head, and the messages ever sent are those received
followed by those in the segment.
-/
namespace NyanOS.Ipc

open Lib Sched Function List Option

variable {s t u : State} {q m len p n : Nat} {l : List Nat} {data x name : List Byte}

def State.nextMessage (s : State) (m : Nat) : Nat := (s.message m).next

def State.dataOf (s : State) (m : Nat) : List Byte := (s.message m).data

/-- What a receiver with room for `len` bytes gets of a message. -/
def Delivered (r : Nat × List Byte) (x : List Byte) : Prop := r.2 = x.take (min x.length r.1)

/-- The queue holds the messages `l`, and the messages `old` have been received. -/
structure Holds (s : State) (q : Nat) (l : List Nat) (old : List (List Byte)) : Prop where
  seg : Seg (· ≠ 0) s.nextMessage (s.queue q).head l 0
  tail : (s.queue q).tail = l.getLastD 0
  count : (s.queue q).msgCount = l.length
  max : (s.queue q).maxMsgs = 10
  bound : l.length ≤ 10
  live : ∀ m ∈ l, s.messageLive m = true
  size : ∀ m ∈ l, (s.message m).size = (s.dataOf m).length
  sent : s.sent q = old ++ l.map s.dataOf
  received : List.Forall₂ Delivered (s.received q) old

/-- The messages and the counters of a queue are left alone. -/
structure SameQueue (s t : State) (q : Nat) : Prop where
  head : (t.queue q).head = (s.queue q).head
  tail : (t.queue q).tail = (s.queue q).tail
  count : (t.queue q).msgCount = (s.queue q).msgCount
  max : (t.queue q).maxMsgs = (s.queue q).maxMsgs
  message : t.message = s.message
  live : t.messageLive = s.messageLive
  sent : t.sent q = s.sent q
  received : t.received q = s.received q

variable {old : List (List Byte)}

theorem Holds.same (h : Holds s q l old) (he : SameQueue s t q) : Holds t q l old := by
  have hnext : t.nextMessage = s.nextMessage := by
    unfold State.nextMessage
    rw [he.message]
  have hdata : t.dataOf = s.dataOf := by
    unfold State.dataOf
    rw [he.message]
  refine ⟨?_, ?_, ?_, ?_, h.bound, ?_, ?_, ?_, ?_⟩
  · rw [hnext, he.head]
    exact h.seg
  · rw [he.tail]
    exact h.tail
  · rw [he.count]
    exact h.count
  · rw [he.max]
    exact h.max
  · rw [he.live]
    exact h.live
  · rw [he.message, hdata]
    exact h.size
  · rw [he.sent, hdata]
    exact h.sent
  · rw [he.received]
    exact h.received

theorem SameQueue.trans (hst : SameQueue s t q) (htu : SameQueue t u q) : SameQueue s u q where
  head := htu.head.trans hst.head
  tail := htu.tail.trans hst.tail
  count := htu.count.trans hst.count
  max := htu.max.trans hst.max
  message := htu.message.trans hst.message
  live := htu.live.trans hst.live
  sent := htu.sent.trans hst.sent
  received := htu.received.trans hst.received

theorem SameQueue.of_queue (hq : t.queue = s.queue) (hm : t.message = s.message)
    (hl : t.messageLive = s.messageLive) (hs : t.sent = s.sent) (hr : t.received = s.received) : SameQueue s t q := by
  refine ⟨?_, ?_, ?_, ?_, hm, hl, ?_, ?_⟩
  · rw [hq]
  · rw [hq]
  · rw [hq]
  · rw [hq]
  · rw [hs]
  · rw [hr]

theorem SameQueue.setWaiting {f : MessageQueue → MessageQueue} (hhead : ∀ x, (f x).head = x.head := by intro; rfl)
    (htail : ∀ x, (f x).tail = x.tail := by intro; rfl) (hcount : ∀ x, (f x).msgCount = x.msgCount := by intro; rfl)
    (hmax : ∀ x, (f x).maxMsgs = x.maxMsgs := by intro; rfl) : SameQueue s (s.setQueue q f) q := by
  refine ⟨?_, ?_, ?_, ?_, rfl, rfl, rfl, rfl⟩ <;> simp [State.setQueue, hhead, htail, hcount, hmax]

theorem SameQueue.wakeFront : SameQueue s (wakeFront s p) q := .of_queue rfl rfl rfl rfl rfl

theorem SameQueue.wakeReceiver : SameQueue s (wakeReceiver s q) q := by
  unfold Ipc.wakeReceiver
  dsimp only
  split
  · exact .of_queue rfl rfl rfl rfl rfl
  · refine SameQueue.trans (t := s.setQueue q _) ?_ .wakeFront
    exact setWaiting

theorem SameQueue.wakeSender : SameQueue s (wakeSender s q) q := by
  unfold Ipc.wakeSender
  dsimp only
  split
  · exact .of_queue rfl rfl rfl rfl rfl
  · refine SameQueue.trans (t := s.setQueue q _) ?_ .wakeFront
    exact setWaiting

/-! The two operations on the list -/

theorem Holds.head_eq_zero (h : Holds s q l old) : (s.queue q).head = 0 ↔ l = [] := by
  have hseg := h.seg
  cases l with
  | nil => simpa using hseg
  | cons x l =>
    obtain ⟨hx, hne, _⟩ := hseg
    simp [hx, hne]

theorem Holds.nodup (h : Holds s q l old) : l.Nodup := h.seg.nodup (by simp)

theorem Holds.snoc (data : List Byte) (h : Holds s q l old) (hroom : l.length < 10)
    (hseg : Seg (· ≠ 0) t.nextMessage (t.queue q).head (l ++ [m]) 0) (htail : (t.queue q).tail = m)
    (hcount : (t.queue q).msgCount = (s.queue q).msgCount + 1) (hmax : (t.queue q).maxMsgs = (s.queue q).maxMsgs)
    (hm : t.dataOf m = data ∧ (t.message m).size = data.length)
    (hold : ∀ y ∈ l, t.dataOf y = s.dataOf y ∧ (t.message y).size = (s.message y).size)
    (hlive : t.messageLive = update s.messageLive m true) (hsent : t.sent q = s.sent q ++ [data])
    (hreceived : t.received q = s.received q) : Holds t q (l ++ [m]) old where
  seg := hseg
  tail := by simp [htail]
  count := by simp [hcount, h.count]
  max := hmax.trans h.max
  bound := by
    rw [length_append, length_singleton]
    omega
  live y hy := by
    by_cases hym : y = m
    · rw [hlive, hym, update_self]
    · rw [hlive, update_of_ne hym]
      exact h.live y ((mem_append.mp hy).resolve_right (by simpa using hym))
  size y hy := by
    rcases mem_append.mp hy with hy | hy
    · rw [(hold y hy).1, (hold y hy).2, h.size y hy]
    · rw [mem_singleton.mp hy, hm.1, hm.2]
  sent := by
    rw [hsent, h.sent, map_append, map_congr_left fun y hy => (hold y hy).1, map_singleton, hm.1, append_assoc]
  received := hreceived ▸ h.received

theorem Holds.enqueue (h : Holds s q l old) (hm : m ≠ 0) (hfree : s.messageLive m = false)
    (hroom : l.length < 10) : Holds (enqueue s q m data) q (l ++ [m]) old := by
  have hnew : ∀ y ∈ l, y ≠ m := by
    rintro y hy rfl
    simp [h.live y hy] at hfree
  unfold Ipc.enqueue
  dsimp only
  rcases eq_nil_or_concat l with rfl | ⟨l, x, rfl⟩
  · rw [if_pos (by simpa [State.setMessage] using h.head_eq_zero.mpr rfl)]
    refine h.snoc data hroom ?_ ?_ ?_ ?_ ?_ nofun rfl ?_ rfl <;>
      simp [State.setQueue, State.setMessage, State.nextMessage, State.dataOf, hm]
  rw [concat_eq_append] at *
  have htail : (s.queue q).tail = x := by simpa using h.tail
  have hxm : x ≠ m := hnew x (by simp)
  have hxl : ∀ y ∈ l, y ≠ x := fun y hy => (nodup_append.mp h.nodup).2.2 y hy x (by simp)
  have hym : ∀ y ∈ l, y ≠ m := fun y hy => hnew y (mem_append_left _ hy)
  rw [if_neg (by simp [State.setMessage, h.head_eq_zero])]
  -- the new message is written first, then the link of the last one
  refine h.snoc data hroom ?_ ?_ ?_ ?_ ?_ ?_ rfl ?_ rfl
  · simp only [State.setQueue, State.setMessage, htail, update_self]
    refine h.seg.snoc hm ?_ ?_ fun z hz => ?_
    · simp [State.nextMessage]
    · simp [State.nextMessage, update_of_ne hxm.symm]
    · simp [State.nextMessage, update_of_ne (hxl z hz), update_of_ne (hym z hz)]
  · simp [State.setQueue]
  · simp [State.setQueue, State.setMessage]
  · simp [State.setQueue, State.setMessage]
  · simp [State.setQueue, State.setMessage, State.dataOf, htail, update_of_ne hxm.symm]
  · intro y hy
    by_cases hyx : y = x
    · simp [State.setQueue, State.setMessage, State.dataOf, htail, hyx, update_of_ne hxm]
    · have hy' : y ∈ l := (mem_append.mp hy).resolve_right (by simpa using hyx)
      simp [State.setQueue, State.setMessage, State.dataOf, htail, update_of_ne hyx, update_of_ne (hym y hy')]
  · simp [State.setQueue, State.setMessage]

theorem take_readSize (hn : n = x.length) :
    x.take (if n < len then n else len) = x.take (min x.length len) := by
  rw [hn]
  split <;> congr 1 <;> omega

theorem Holds.uncons (len : Nat) (h : Holds s q (m :: l) old) (hhead : (t.queue q).head = s.nextMessage m)
    (htail : (t.queue q).tail = if s.nextMessage m = 0 then 0 else (s.queue q).tail)
    (hcount : (t.queue q).msgCount = (s.queue q).msgCount - 1) (hmax : (t.queue q).maxMsgs = (s.queue q).maxMsgs)
    (hold : ∀ y, y ≠ m → t.message y = s.message y) (hlive : t.messageLive = update s.messageLive m false)
    (hsent : t.sent q = s.sent q) (hreceived : t.received q = s.received q ++ [(len, (s.dataOf m).take
      (if (s.message m).size < len then (s.message m).size else len))]) : Holds t q l (old ++ [s.dataOf m]) := by
  obtain ⟨-, hm, hseg⟩ := h.seg
  have hbound := h.bound
  have hne : ∀ y ∈ l, y ≠ m := fun y hy he => (nodup_cons.mp h.nodup).1 (he ▸ hy)
  have hdata : ∀ y ∈ l, t.dataOf y = s.dataOf y := fun y hy => by rw [State.dataOf, hold y (hne y hy), State.dataOf]
  refine ⟨?_, ?_, ?_, hmax.trans h.max, ?_, fun y hy => ?_, fun y hy => ?_, ?_, ?_⟩
  · rw [hhead]
    exact hseg.congr fun y hy => by rw [State.nextMessage, hold y (hne y hy), State.nextMessage]
  · cases l with
    | nil => rw [htail, if_pos (show s.nextMessage m = 0 from hseg), getLastD_nil]
    | cons y l =>
      rw [htail, if_neg (hseg.1 ▸ hseg.2.1), h.tail]
      rfl
  · simp [hcount, h.count]
  · rw [length_cons] at hbound
    omega
  · rw [hlive, update_of_ne (hne y hy)]
    exact h.live y (mem_cons_of_mem _ hy)
  · rw [hdata y hy, hold y (hne y hy)]
    exact h.size y (mem_cons_of_mem _ hy)
  · rw [hsent, h.sent, map_cons, map_congr_left hdata, append_assoc, singleton_append]
  · rw [hreceived]
    exact rel_append h.received (.cons (take_readSize (h.size m (by simp))) .nil)

theorem Holds.dequeue (h : Holds s q (m :: l) old) : Holds (dequeue s q len).1 q l (old ++ [s.dataOf m]) := by
  have hhead : (s.queue q).head = m := h.seg.1
  unfold Ipc.dequeue
  simp only [State.setQueue, State.setMessage, hhead, update_self]
  by_cases hz : (s.message m).next = 0
  · rw [if_pos hz]
    refine h.uncons len ?_ ?_ ?_ ?_ ?_ rfl rfl ?_ <;> simp +contextual [State.nextMessage, State.dataOf, hz]
  · rw [if_neg hz]
    refine h.uncons len ?_ ?_ ?_ ?_ ?_ rfl rfl ?_ <;> simp +contextual [State.nextMessage, State.dataOf, hz]

/-! Runs -/

/-- What happens between two blocking points: the running task sends or receives, or goes on with
that after a wake-up, and the kernel schedules and wakes tasks in any way. -/
inductive Turn
  | send (m : Nat) (data : List Byte)
  | receive (len : Nat)
  | kernel (k : Kernel)

/-- The sizes are those the system calls let through, and allocations succeed. -/
def turnTo (q : Nat) (s : State) : Turn → Option State
  | .send m data =>
    if (0 < data.length ∧ data.length ≤ maxMqMsgSize) ∧ (m ≠ 0 ∧ s.messageLive m = false) ∧
        (s.call s.curr = none ∨ s.call s.curr = some (.send q data)) then
      some (mqSend s q m data).1
    else none
  | .receive len =>
    if (0 < len ∧ len ≤ maxMqMsgSize) ∧
        (s.call s.curr = none ∨ s.call s.curr = some (.receive q len)) then
      some (mqReceive s q len).1
    else none
  | .kernel k => some { s with kernel := k }

theorem SameQueue.waitSender : SameQueue s (block (setCall
    ((s.setTask s.curr fun x => { x with waitNext := (s.queue q).waitingSenders }).setQueue q
      fun x => { x with waitingSenders := s.curr }) (some (.send q data)))) q := by
  refine SameQueue.trans (t := s.setQueue q fun x => { x with waitingSenders := s.curr }) ?_ ?_
  · exact setWaiting
  · exact .of_queue rfl rfl rfl rfl rfl

theorem SameQueue.waitReceiver : SameQueue s (block (setCall
    ((s.setTask s.curr fun x => { x with waitNext := (s.queue q).waitingReceivers }).setQueue q
      fun x => { x with waitingReceivers := s.curr }) (some (.receive q len)))) q := by
  refine SameQueue.trans (t := s.setQueue q fun x => { x with waitingReceivers := s.curr }) ?_ ?_
  · exact setWaiting
  · exact .of_queue rfl rfl rfl rfl rfl

theorem Holds.mqSend (h : Holds s q l old) (hm : m ≠ 0) (hfree : s.messageLive m = false) :
    ∃ l', Holds (mqSend s q m data).1 q l' old := by
  have htouch : Holds (touch s q) q l old := h.same (.of_queue rfl rfl rfl rfl rfl)
  unfold Ipc.mqSend
  dsimp only
  split
  · exact ⟨l, htouch.same .waitSender⟩
  next hfull =>
  have hroom : l.length < 10 := by
    have hmax : ((touch s q).queue q).maxMsgs = 10 := h.max
    have hcount : ((touch s q).queue q).msgCount = l.length := h.count
    omega
  have hcall : Holds (setCall (touch s q) none) q l old := htouch.same (.of_queue rfl rfl rfl rfl rfl)
  exact ⟨l ++ [m], (hcall.enqueue hm hfree hroom).same .wakeReceiver⟩

theorem Holds.mqReceive (h : Holds s q l old) : ∃ l' old', Holds (mqReceive s q len).1 q l' old' := by
  have htouch : Holds (touch s q) q l old := h.same (.of_queue rfl rfl rfl rfl rfl)
  unfold Ipc.mqReceive
  dsimp only
  split
  · exact ⟨l, old, htouch.same .waitReceiver⟩
  next hne =>
  have hcall : Holds (setCall (touch s q) none) q l old := htouch.same (.of_queue rfl rfl rfl rfl rfl)
  cases l with
  | nil => exact absurd (h.head_eq_zero.mpr rfl) hne
  | cons m l => exact ⟨l, _, hcall.dequeue.same .wakeSender⟩

theorem holds_turn {a : Turn} (h : ∃ l old, Holds s q l old) (hs : turnTo q s a = some t) :
    ∃ l old, Holds t q l old := by
  obtain ⟨l, old, h⟩ := h
  cases a with
  | send m data =>
    simp only [turnTo, ite_none_right_eq_some, some.injEq] at hs
    obtain ⟨⟨_, ⟨hm, hfree⟩, _⟩, rfl⟩ := hs
    obtain ⟨l', h'⟩ := h.mqSend hm hfree
    exact ⟨l', old, h'⟩
  | receive len =>
    simp only [turnTo, ite_none_right_eq_some, some.injEq] at hs
    obtain ⟨_, rfl⟩ := hs
    exact h.mqReceive
  | kernel k =>
    cases hs
    exact ⟨l, old, h.same (.of_queue rfl rfl rfl rfl rfl)⟩

theorem holds_mqOpen (hnew : s.find name = none) (hq : q ≠ 0)
    (hsent : s.sent q = []) (hreceived : s.received q = []) : Holds (mqOpen s name q).1 q [] [] := by
  unfold mqOpen
  rw [hnew]
  simp only [hq, if_false]
  constructor <;> simp [hsent, hreceived]

/-- A queue that is opened and then used in any order of turns holds the messages that are sent and
not yet received, in order and ten at most. The k-th message received is the k-th one sent, cut to
the room of the receiver. -/
theorem mq_fifo {name : List Byte} {ts : List Turn} (hnew : s.find name = none) (hq : q ≠ 0)
    (hsent : s.sent q = []) (hreceived : s.received q = []) (hrun : Run (ofNext (turnTo q)) (mqOpen s name q).1 ts t) :
    ∃ l, Seg (· ≠ 0) t.nextMessage (t.queue q).head l 0 ∧ l.Nodup ∧
      (t.queue q).msgCount = l.length ∧ (t.queue q).msgCount ≤ (t.queue q).maxMsgs ∧
      (t.queue q).tail = l.getLastD 0 ∧ ((t.queue q).tail = 0 ↔ (t.queue q).head = 0) ∧
      (t.received q).length ≤ (t.sent q).length ∧
      l.map t.dataOf = (t.sent q).drop (t.received q).length ∧
      ∀ k (hr : k < (t.received q).length) (hk : k < (t.sent q).length), ((t.received q)[k]).2 =
          ((t.sent q)[k]).take (min ((t.sent q)[k]).length ((t.received q)[k]).1) := by
  obtain ⟨l, old, h⟩ : ∃ l old, Holds t q l old := by
    refine hrun.invariant (P := fun s => ∃ l old, Holds s q l old) ?_
      ⟨[], [], holds_mqOpen hnew hq hsent hreceived⟩
    intro s a t hs hh
    exact holds_turn hh hs
  have hlen := h.received.length_eq
  refine ⟨l, h.seg, h.nodup, h.count, ?_, h.tail, ?_, ?_, ?_, ?_⟩
  · rw [h.count, h.max]
    exact_mod_cast h.bound
  · rw [h.tail, h.head_eq_zero]
    constructor
    · intro hz
      by_contra hne
      have hlast : l.getLastD 0 ∈ l := by
        rw [getLastD_eq_getLast?, getLast?_eq_some_getLast hne]
        exact getLast_mem hne
      exact h.seg.node_of_mem hlast hz
    · rintro rfl
      rfl
  · rw [h.sent, hlen]
    simp
  · rw [h.sent, hlen, drop_left]
  · intro k hr hk
    have hold : k < old.length := hlen ▸ hr
    have hget : (t.sent q)[k] = old[k] := by
      simp only [h.sent]
      exact getElem_append_left hold
    rw [hget]
    exact List.forall₂_iff_get.mp h.received |>.2 k hr hold

/-- Two messages are sent, one is received into one byte, and the empty queue blocks a receiver. -/
def twoMessages : List Turn :=
  [.send 7 [1#8, 2#8], .send 8 [3#8], .receive 1, .receive 4, .receive 4]

theorem mq_fifo_twoMessages : ∃ t, Run (ofNext (turnTo 5)) (mqOpen noQueues [65#8] 5).1 twoMessages t ∧
    (t.queue 5).msgCount ≤ (t.queue 5).maxMsgs := by
  have hsome : (exec (turnTo 5) (mqOpen noQueues [65#8] 5).1 twoMessages).isSome = true := by
    decide +kernel
  obtain ⟨t, ht⟩ := isSome_iff_exists.mp hsome
  obtain ⟨l, _, _, _, hmax, _⟩ := mq_fifo (s := noQueues) rfl (by decide) rfl rfl (exec_run ht)
  exact ⟨t, exec_run ht, hmax⟩

end NyanOS.Ipc
