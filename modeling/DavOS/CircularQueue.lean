import DavOS.RingWindow

/-! `CircularQueue.hpp`: a queue in an array that is used around its end. An item
that arrives at a full queue is dropped; an empty queue hands out `T()`. -/
namespace DavOS
open RingWindow

structure CircularQueue (T : Type) (capacity : Nat) where
  data : Nat → T
  front : Nat := 0
  back : Nat := 0
  size : Nat := 0

namespace CircularQueue

variable {T : Type} {capacity : Nat}

def isEmpty (q : CircularQueue T capacity) : Bool := q.size == 0

def isFull (q : CircularQueue T capacity) : Bool := q.size == capacity

def enqueue (q : CircularQueue T capacity) (item : T) : CircularQueue T capacity :=
  if q.isFull then q
  else
    { data := Function.update q.data q.back item
      front := q.front
      back := (q.back + 1) % capacity
      size := q.size + 1 }

def dequeue [Inhabited T] (q : CircularQueue T capacity) : T × CircularQueue T capacity :=
  if q.isEmpty then (default, q)
  else (q.data q.front, { q with front := (q.front + 1) % capacity, size := q.size - 1 })

/-- What the three counters of a queue say about each other. -/
structure Valid (q : CircularQueue T capacity) : Prop where
  size_le : q.size ≤ capacity
  front_lt : q.front < capacity
  back_eq : q.back = (q.front + q.size) % capacity

/-- The items in the order in which they leave. -/
def contents (q : CircularQueue T capacity) : List T := window q.data capacity q.front q.size

variable {q : CircularQueue T capacity} {item : T}

theorem valid_empty (data : Nat → T) (hcap : 0 < capacity) : Valid (⟨data, 0, 0, 0⟩ : CircularQueue T capacity) :=
  ⟨Nat.zero_le _, hcap, by simp⟩

theorem Valid.enqueue (h : q.Valid) : (q.enqueue item).Valid := by
  unfold CircularQueue.enqueue
  split
  · exact h
  · rename_i hfull
    have hlt : q.size < capacity := Nat.lt_of_le_of_ne h.size_le (by simpa [isFull] using hfull)
    refine ⟨hlt, h.front_lt, ?_⟩
    rw [h.back_eq, Nat.mod_add_mod, Nat.add_assoc]

theorem Valid.dequeue [Inhabited T] (h : q.Valid) : q.dequeue.2.Valid := by
  unfold CircularQueue.dequeue
  split
  · exact h
  · rename_i hempty
    have hpos : q.size ≠ 0 := by simpa [isEmpty] using hempty
    refine ⟨Nat.le_trans (Nat.sub_le _ _) h.size_le, Nat.mod_lt _ (Nat.zero_lt_of_lt h.front_lt), ?_⟩
    rw [h.back_eq, Nat.mod_add_mod, Nat.add_assoc, Nat.add_comm 1, Nat.sub_add_cancel (Nat.pos_of_ne_zero hpos)]

theorem enqueue_full (h : q.isFull = true) : q.enqueue item = q := if_pos h

theorem contents_enqueue (h : q.Valid) (hfull : q.isFull = false) :
    (q.enqueue item).contents = q.contents ++ [item] := by
  have hlt : q.size < capacity := Nat.lt_of_le_of_ne h.size_le (by simpa [isFull] using hfull)
  unfold contents CircularQueue.enqueue
  rw [if_neg (by simp [hfull]), h.back_eq]
  exact window_push hlt item

theorem dequeue_nil [Inhabited T] (h : q.contents = []) : q.dequeue = (default, q) := by
  have hsize : q.size = 0 := by simpa [contents] using congrArg List.length h
  exact if_pos (by simp [isEmpty, hsize])

theorem dequeue_cons [Inhabited T] (hv : q.Valid) {rest : List T} (h : q.contents = item :: rest) :
    q.dequeue.1 = item ∧ q.dequeue.2.contents = rest := by
  have hsize : q.size = rest.length + 1 := by simpa [contents] using congrArg List.length h
  have hne : q.isEmpty = false := by simp [isEmpty, hsize]
  unfold contents at h
  rw [hsize, window_pop hv.front_lt] at h
  obtain ⟨hitem, hrest⟩ := List.cons.inj h
  unfold CircularQueue.dequeue contents
  rw [if_neg (by simp [hne]), hsize]
  exact ⟨hitem, hrest⟩

theorem isEmpty_iff : q.isEmpty = true ↔ q.contents = [] := by
  rw [← List.length_eq_zero_iff]
  simp [isEmpty, contents]

theorem isFull_iff (h : q.Valid) : q.isFull = true ↔ ¬ q.contents.length < capacity := by
  have hlength : q.contents.length = q.size := window_length _ _ _ _
  rw [hlength, isFull, beq_iff_eq]
  constructor
  · exact fun hsize => Nat.not_lt_of_ge (Nat.le_of_eq hsize.symm)
  · exact fun hge => Nat.le_antisymm h.size_le (Nat.le_of_not_lt hge)

/-- The capacity is a `size_t`, so no counter wraps before it is reduced. -/
theorem Valid.next_le (h : q.Valid) : q.front + 1 ≤ capacity ∧ q.back + 1 ≤ capacity := by
  refine ⟨h.front_lt, ?_⟩
  rw [h.back_eq]
  exact Nat.mod_lt _ (Nat.zero_lt_of_lt h.front_lt)

end CircularQueue

/-! ### A list as a queue -/

/-- A list that takes an item at its end as long as it is shorter than `capacity`. -/
def listEnqueue {T : Type} (capacity : Nat) (items : List T) (item : T) : List T :=
  if items.length < capacity then items ++ [item] else items

/-- The first item and the rest; an empty list hands out the default. -/
def listDequeue {T : Type} [Inhabited T] (items : List T) : T × List T := (items.headD default, items.tail)

namespace CircularQueue

variable {T : Type} {capacity : Nat} {q : CircularQueue T capacity}

theorem contents_enqueue_eq (h : q.Valid) (item : T) :
    (q.enqueue item).contents = listEnqueue capacity q.contents item := by
  unfold listEnqueue
  by_cases hfull : q.isFull = true
  · rw [if_neg ((isFull_iff h).mp hfull), enqueue_full hfull]
  · have hroom : q.contents.length < capacity := Classical.not_not.mp fun hge => hfull ((isFull_iff h).mpr hge)
    rw [if_pos hroom]
    exact contents_enqueue h (Bool.eq_false_iff.mpr hfull)

theorem dequeue_eq [Inhabited T] (h : q.Valid) : (q.dequeue.1, q.dequeue.2.contents) = listDequeue q.contents := by
  unfold listDequeue
  cases hc : q.contents with
  | nil =>
      rw [dequeue_nil hc, hc]
      rfl
  | cons item rest =>
      obtain ⟨hitem, hrest⟩ := dequeue_cons h hc
      rw [hitem, hrest]
      rfl

end CircularQueue

/-! ### Sequences of calls -/

inductive QueueCall (T : Type) where
  | enqueue (item : T)
  | dequeue

/-- A queue, what its `dequeue` has returned so far, and next to it which items
were taken in and which of them were handed out. -/
structure QueueRun (T : Type) (capacity : Nat) where
  queue : CircularQueue T capacity
  returned : List T := []
  accepted : List T := []
  removed : List T := []

section

variable {T : Type} {capacity : Nat} [Inhabited T]

def queueCall (r : QueueRun T capacity) : QueueCall T → QueueRun T capacity
  | .enqueue item =>
      { r with
        queue := r.queue.enqueue item
        accepted := if r.queue.isFull then r.accepted else r.accepted ++ [item] }
  | .dequeue =>
      { r with
        queue := r.queue.dequeue.2
        returned := r.returned ++ [r.queue.dequeue.1]
        removed := if r.queue.isEmpty then r.removed else r.removed ++ [r.queue.dequeue.1] }

/-- The calls on a new queue. Its array is not initialised: `data` is what it happens to hold. -/
def queueCalls (capacity : Nat) (data : Nat → T) (calls : List (QueueCall T)) : QueueRun T capacity :=
  calls.foldl queueCall { queue := ⟨data, 0, 0, 0⟩ }

/-- The same call on a list, with what was returned so far. -/
def listQueueCall (capacity : Nat) (l : List T × List T) : QueueCall T → List T × List T
  | .enqueue item => (listEnqueue capacity l.1 item, l.2)
  | .dequeue => ((listDequeue l.1).2, l.2 ++ [(listDequeue l.1).1])

def listQueueCalls (capacity : Nat) (calls : List (QueueCall T)) : List T × List T :=
  calls.foldl (listQueueCall capacity) ([], [])

/-- A run stands for the list and the returned values `l`, and what it took in is
what it handed out followed by what it holds. -/
structure QueueRun.Refines (r : QueueRun T capacity) (l : List T × List T) : Prop where
  valid : r.queue.Valid
  contents_eq : r.queue.contents = l.1
  returned_eq : r.returned = l.2
  in_order : r.accepted = r.removed ++ r.queue.contents

theorem QueueRun.Refines.step {r : QueueRun T capacity} {l : List T × List T} (h : r.Refines l) (call : QueueCall T) :
    (queueCall r call).Refines (listQueueCall capacity l call) := by
  cases call with
  | enqueue item =>
      refine ⟨h.valid.enqueue, ?_, h.returned_eq, ?_⟩
      · exact (CircularQueue.contents_enqueue_eq h.valid item).trans (by rw [h.contents_eq]; rfl)
      · simp only [queueCall]
        split
        · rename_i hfull
          rw [CircularQueue.enqueue_full hfull]
          exact h.in_order
        · rename_i hroom
          rw [CircularQueue.contents_enqueue h.valid (Bool.eq_false_iff.mpr hroom), h.in_order, List.append_assoc]
  | dequeue =>
      have hlist := CircularQueue.dequeue_eq h.valid
      rw [h.contents_eq] at hlist
      refine ⟨h.valid.dequeue, congrArg Prod.snd hlist, ?_, ?_⟩
      · simp only [queueCall, listQueueCall, h.returned_eq]
        rw [← congrArg Prod.fst hlist]
      · simp only [queueCall]
        cases hc : r.queue.contents with
        | nil =>
            rw [if_pos (CircularQueue.isEmpty_iff.mpr hc), CircularQueue.dequeue_nil hc]
            exact h.in_order
        | cons item rest =>
            have hnonempty : ¬ r.queue.isEmpty = true := by
              rw [CircularQueue.isEmpty_iff, hc]
              exact List.cons_ne_nil item rest
            obtain ⟨hitem, hrest⟩ := CircularQueue.dequeue_cons h.valid hc
            rw [if_neg hnonempty, hitem, hrest, h.in_order, hc, List.append_assoc]
            rfl

/-- A queue is a bounded list: whatever is called, its counters stay consistent,
it holds and returns what the list does, and the items it took in are the ones it
handed out followed by the ones it holds, in the order of their arrival. -/
theorem circularQueue_is_bounded_list (hcap : 0 < capacity) (data : Nat → T) (calls : List (QueueCall T)) :
    (queueCalls capacity data calls).queue.Valid ∧
    (queueCalls capacity data calls).queue.contents = (listQueueCalls capacity calls).1 ∧
    (queueCalls capacity data calls).returned = (listQueueCalls capacity calls).2 ∧
    (queueCalls capacity data calls).accepted =
      (queueCalls capacity data calls).removed ++ (queueCalls capacity data calls).queue.contents := by
  have hstart : ({ queue := ⟨data, 0, 0, 0⟩ } : QueueRun T capacity).Refines ([], []) :=
    ⟨CircularQueue.valid_empty data hcap, rfl, rfl, rfl⟩
  have hrun : (queueCalls capacity data calls).Refines (listQueueCalls capacity calls) :=
    List.foldl_rel hstart fun call _ r l h => h.step call
  exact ⟨hrun.valid, hrun.contents_eq, hrun.returned_eq, hrun.in_order⟩

end

/-- Calls that fill two slots, come round to the first of them and run the queue empty. -/
def aroundTheEnd : List (QueueCall Nat) :=
  [.enqueue 1, .enqueue 2, .enqueue 3, .dequeue, .enqueue 4, .dequeue, .dequeue, .dequeue]

theorem circularQueue_is_bounded_list_two_slots :
    0 < 2 ∧ (queueCalls 2 (fun _ => 9) aroundTheEnd).queue.contents = [] ∧
    (queueCalls 2 (fun _ => 9) aroundTheEnd).returned = [1, 2, 4, 0] := by
  have h := circularQueue_is_bounded_list (by decide : 0 < 2) (fun _ => 9) aroundTheEnd
  exact ⟨by decide, h.2.1, h.2.2.1⟩

end DavOS
