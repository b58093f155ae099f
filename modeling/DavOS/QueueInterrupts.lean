import DavOS.CircularQueue
import DavOS.EventHistory

/-! `dequeue` with interrupts in the middle of it. The handler of the keyboard is entered
with interrupts off, so its `enqueue` is one step; the loop that calls `dequeue` is
interrupted between any two of its accesses to the queue. -/
namespace DavOS
open RingWindow EventHistory

/-- Where a call of `dequeue` stands. `--m_size` loads the counter before it stores it. -/
inductive DequeuePoint (T : Type) where
  | entry
  | tested
  | read (item : T)
  | advanced (item : T)
  | loaded (item : T) (size : Nat)

inductive ReaderEvent (T : Type) where
  | interrupt (item : T)
  | step

/-- The queue, the call of `dequeue` that is under way and what earlier ones returned,
and next to it which items were stored and which were read out. -/
structure ReaderRun (T : Type) (capacity : Nat) where
  queue : CircularQueue T capacity
  point : DequeuePoint T := .entry
  returned : List T := []
  accepted : List T := []
  removed : List T := []

def DequeuePoint.item? {T : Type} : DequeuePoint T → Option T
  | .entry => none
  | .tested => none
  | .read item => some item
  | .advanced item => some item
  | .loaded item _ => some item

/-- A call is under way, and has found the queue not to be empty. -/
def DequeuePoint.busy {T : Type} : DequeuePoint T → Bool
  | .entry => false
  | .tested => true
  | .read _ => true
  | .advanced _ => true
  | .loaded _ _ => true

/-- How far the front of the queue is ahead of its size. -/
def DequeuePoint.ahead {T : Type} : DequeuePoint T → Nat
  | .entry => 0
  | .tested => 0
  | .read _ => 0
  | .advanced _ => 1
  | .loaded _ _ => 1

/-- The size from which the call under way is going to take one. -/
def DequeuePoint.count {T : Type} (size : Nat) : DequeuePoint T → Nat
  | .entry => size
  | .tested => size
  | .read _ => size
  | .advanced _ => size
  | .loaded _ old => old

section

variable {T : Type} {capacity : Nat}

theorem CircularQueue.enqueue_room {q : CircularQueue T capacity} (hfull : ¬ q.isFull = true) (item : T) :
    q.enqueue item = ⟨Function.update q.data q.back item, q.front, (q.back + 1) % capacity, q.size + 1⟩ :=
  if_neg hfull

theorem CircularQueue.Valid.back_ne_front {q : CircularQueue T capacity} (h : q.Valid) (hpos : 0 < q.size)
    (hfull : ¬ q.isFull = true) : q.back ≠ q.front := by
  intro hsame
  have hlt : q.size < capacity := Nat.lt_of_le_of_ne h.size_le (by simpa [CircularQueue.isFull] using hfull)
  rw [h.back_eq] at hsame
  have hzero : (q.front + q.size) % capacity = (q.front + 0) % capacity := by
    rw [hsame, Nat.add_zero, Nat.mod_eq_of_lt h.front_lt]
  exact Nat.ne_of_gt hpos (slot_inj hlt (Nat.zero_lt_of_lt hlt) hzero)

end

section

variable {T : Type} {capacity : Nat} [Inhabited T]

/-- The next access of the call of `dequeue` that is under way, or the first of a new one. -/
def dequeueStep (r : ReaderRun T capacity) : ReaderRun T capacity :=
  match r.point with
  | .entry =>
      if r.queue.isEmpty then { r with returned := r.returned ++ [default] } else { r with point := .tested }
  | .tested => { r with point := .read (r.queue.data r.queue.front) }
  | .read item =>
      { r with queue := { r.queue with front := (r.queue.front + 1) % capacity }, point := .advanced item }
  | .advanced item => { r with point := .loaded item r.queue.size }
  | .loaded item size =>
      { r with
        queue := { r.queue with size := size - 1 }
        point := .entry
        returned := r.returned ++ [item]
        removed := r.removed ++ [item] }

def readerEvent (r : ReaderRun T capacity) : ReaderEvent T → ReaderRun T capacity
  | .interrupt item =>
      { r with
        queue := r.queue.enqueue item
        accepted := if r.queue.isFull then r.accepted else r.accepted ++ [item] }
  | .step => dequeueStep r

/-- The start: the array of the queue holds `data`. -/
def readerStart (capacity : Nat) (data : Nat → T) : ReaderRun T capacity := { queue := ⟨data, 0, 0, 0⟩ }

def readerRun (capacity : Nat) (data : Nat → T) (events : List (ReaderEvent T)) : ReaderRun T capacity :=
  events.foldl readerEvent (readerStart capacity data)

/-- The call that an event completes: a `dequeue` counts from its last access on. -/
def completes (r : ReaderRun T capacity) : ReaderEvent T → List (QueueCall T)
  | .interrupt item => [.enqueue item]
  | .step =>
      match r.point with
      | .entry => if r.queue.isEmpty then [.dequeue] else []
      | .loaded _ _ => [.dequeue]
      | _ => []

/-- An item that is stored between the load and the store of `--m_size`: the store takes its count back. -/
def uncounts (r : ReaderRun T capacity) : ReaderEvent T → List T
  | .interrupt item =>
      match r.point with
      | .loaded _ _ => if r.queue.isFull then [] else [item]
      | _ => []
  | .step => []

def completed (capacity : Nat) (data : Nat → T) (events : List (ReaderEvent T)) : List (QueueCall T) :=
  history readerEvent completes (readerStart capacity data) events

def uncounted (capacity : Nat) (data : Nat → T) (events : List (ReaderEvent T)) : List T :=
  history readerEvent uncounts (readerStart capacity data) events

/-! ### The counters -/

/-- What the counters say after the counts of `lost` have been taken back. -/
structure ReaderRun.Drifted (r : ReaderRun T capacity) (lost : List T) : Prop where
  size_le : r.queue.size ≤ capacity
  count_le : r.point.count r.queue.size ≤ r.queue.size
  nonempty : r.point.busy = true → 0 < r.point.count r.queue.size
  front_eq : r.queue.front = (r.removed.length + r.point.ahead) % capacity
  back_eq : r.queue.back = r.accepted.length % capacity
  accepted_eq : r.accepted.length = r.removed.length + r.point.count r.queue.size + lost.length

variable {r : ReaderRun T capacity} {lost : List T}

theorem ReaderRun.Drifted.dequeueStep (h : r.Drifted lost) : (dequeueStep r).Drifted lost := by
  obtain ⟨queue, point, returned, accepted, removed⟩ := r
  obtain ⟨hsize, hcount, hnonempty, hfront, hback, haccepted⟩ := h
  cases point with
  | entry =>
      unfold DavOS.dequeueStep
      dsimp only
      split
      · exact ⟨hsize, hcount, hnonempty, hfront, hback, haccepted⟩
      · rename_i hne
        have hpos : 0 < queue.size := Nat.pos_of_ne_zero fun hzero => hne (by simp [CircularQueue.isEmpty, hzero])
        exact ⟨hsize, hcount, fun _ => hpos, hfront, hback, haccepted⟩
  | tested =>
      have hpos := hnonempty rfl
      exact ⟨hsize, hcount, fun _ => hpos, hfront, hback, haccepted⟩
  | read item =>
      have hpos := hnonempty rfl
      refine ⟨hsize, hcount, fun _ => hpos, ?_, hback, haccepted⟩
      change (queue.front + 1) % capacity = (removed.length + 1) % capacity
      rw [show queue.front = removed.length % capacity from hfront, Nat.mod_add_mod]
  | advanced item =>
      have hpos := hnonempty rfl
      exact ⟨hsize, Nat.le_refl _, fun _ => hpos, hfront, hback, haccepted⟩
  | loaded item old =>
      have hpos : 0 < old := hnonempty rfl
      have hold : old ≤ queue.size := hcount
      have hsum : accepted.length = removed.length + old + lost.length := haccepted
      refine ⟨?_, Nat.le_refl _, fun hbusy => absurd hbusy Bool.false_ne_true, ?_, hback, ?_⟩
      · exact Nat.le_trans (Nat.le_trans (Nat.sub_le old 1) hold) hsize
      · change queue.front = ((removed ++ [item]).length + 0) % capacity
        rw [List.length_append]
        exact hfront
      · change accepted.length = (removed ++ [item]).length + (old - 1) + lost.length
        rw [List.length_append, List.length_singleton, hsum]
        omega

theorem ReaderRun.Drifted.interrupt (h : r.Drifted lost) (item : T) :
    (readerEvent r (.interrupt item)).Drifted (lost ++ uncounts r (.interrupt item)) := by
  by_cases hfull : r.queue.isFull = true
  · have hnone : uncounts r (.interrupt item) = [] := by
      unfold uncounts
      cases r.point <;> simp [hfull]
    rw [hnone, List.append_nil, readerEvent, CircularQueue.enqueue_full hfull, if_pos hfull]
    exact h
  · obtain ⟨queue, point, returned, accepted, removed⟩ := r
    obtain ⟨hsize, hcount, hnonempty, hfront, hback, haccepted⟩ := h
    have hlt : queue.size < capacity := Nat.lt_of_le_of_ne hsize (by simpa [CircularQueue.isFull] using hfull)
    have hnext : (queue.back + 1) % capacity = (accepted ++ [item]).length % capacity := by
      rw [show queue.back = accepted.length % capacity from hback, Nat.mod_add_mod, List.length_append,
        List.length_singleton]
    rw [readerEvent, if_neg hfull, CircularQueue.enqueue, if_neg hfull]
    cases point with
    | loaded first old =>
        have hlost : uncounts ⟨queue, .loaded first old, returned, accepted, removed⟩ (.interrupt item) = [item] :=
          if_neg hfull
        rw [hlost]
        refine ⟨hlt, Nat.le_succ_of_le hcount, hnonempty, hfront, hnext, ?_⟩
        have hsum : accepted.length = removed.length + old + lost.length := haccepted
        change (accepted ++ [item]).length = removed.length + old + (lost ++ [item]).length
        rw [List.length_append, List.length_append, hsum, Nat.add_assoc]
    | _ =>
        refine ⟨hlt, Nat.le_refl _, fun _ => Nat.succ_pos _, hfront, hnext, ?_⟩
        have hsum : accepted.length = removed.length + queue.size + lost.length := haccepted
        change (accepted ++ [item]).length = removed.length + (queue.size + 1) + (lost ++ []).length
        rw [List.length_append, List.append_nil, hsum, List.length_singleton]
        omega

theorem readerRun_drifted (capacity : Nat) (data : Nat → T) (events : List (ReaderEvent T)) :
    (readerRun capacity data events).Drifted (uncounted capacity data events) := by
  apply EventHistory.invariant (I := fun (r : ReaderRun T capacity) lost => r.Drifted lost)
  · intro r lost event h
    cases event with
    | interrupt item => exact h.interrupt item
    | step =>
        rw [show uncounts r .step = [] from rfl, List.append_nil]
        exact h.dequeueStep
  · exact ⟨Nat.zero_le _, Nat.le_refl _, fun hbusy => absurd hbusy Bool.false_ne_true, (Nat.zero_mod _).symm,
      (Nat.zero_mod _).symm, rfl⟩

/-- Between two calls the size is short by the items that were stored inside of
`--m_size`, and the counters agree exactly when the capacity divides their number. -/
theorem queue_counters_after_interrupts (hcap : 0 < capacity) (data : Nat → T) (events : List (ReaderEvent T))
    (hidle : (readerRun capacity data events).point = .entry) :
    (readerRun capacity data events).accepted.length = (readerRun capacity data events).removed.length +
      (readerRun capacity data events).queue.size + (uncounted capacity data events).length ∧
    ((readerRun capacity data events).queue.Valid ↔ capacity ∣ (uncounted capacity data events).length) := by
  obtain ⟨hsize, _, _, hfront, hback, haccepted⟩ := readerRun_drifted capacity data events
  rw [hidle] at hfront haccepted
  generalize readerRun capacity data events = r at *
  generalize (uncounted capacity data events).length = lost at *
  have hsum : r.accepted.length = r.removed.length + r.queue.size + lost := haccepted
  have hread : r.queue.front = r.removed.length % capacity := hfront
  refine ⟨hsum, ?_⟩
  have hvalid : r.queue.Valid ↔ r.queue.back = (r.queue.front + r.queue.size) % capacity := by
    refine ⟨fun h => h.back_eq, fun h => ⟨hsize, ?_, h⟩⟩
    rw [hread]
    exact Nat.mod_lt _ hcap
  rw [hvalid, hback, hsum, hread, Nat.mod_add_mod]
  exact Nat.add_modEq_left_iff

/-- A second item comes in while the first is read out, after `--m_size` has loaded the 1. -/
def insideTheDecrement : List (ReaderEvent Nat) :=
  [.interrupt 7, .step, .step, .step, .step, .interrupt 8, .step]

theorem queue_counters_after_interrupts_two_items :
    (readerRun 4 (fun _ => 0) insideTheDecrement).accepted.length = 2 ∧
    (readerRun 4 (fun _ => 0) insideTheDecrement).removed.length = 1 ∧
    (readerRun 4 (fun _ => 0) insideTheDecrement).queue.size = 0 ∧
    ¬ (readerRun 4 (fun _ => 0) insideTheDecrement).queue.Valid := by
  have h := queue_counters_after_interrupts (by decide : 0 < 4) (fun _ => 0) insideTheDecrement rfl
  refine ⟨h.1, rfl, rfl, fun hvalid => ?_⟩
  exact absurd (h.2.mp hvalid) (by decide)

/-! ### The calls that a run amounts to -/

/-- A run with a call under way, and the calls that were completed: the queue differs
by the access that the call has made to the front. -/
structure ReaderRun.Between (r : ReaderRun T capacity) (s : QueueRun T capacity) : Prop where
  valid : s.queue.Valid
  queue_eq : r.queue = { s.queue with front := (s.queue.front + r.point.ahead) % capacity }
  count_eq : r.point.count r.queue.size = s.queue.size
  nonempty : r.point.busy = true → 0 < s.queue.size
  item_eq : ∀ item, r.point.item? = some item → item = s.queue.data s.queue.front
  returned_eq : r.returned = s.returned
  accepted_eq : r.accepted = s.accepted
  removed_eq : r.removed = s.removed

variable {s : QueueRun T capacity}

omit [Inhabited T] in
theorem ReaderRun.Between.isFull_eq (h : r.Between s) : r.queue.isFull = s.queue.isFull := by
  rw [h.queue_eq]
  rfl

theorem ReaderRun.Between.interrupt (h : r.Between s) (item : T) (hquiet : uncounts r (.interrupt item) = []) :
    (readerEvent r (.interrupt item)).Between (queueCall s (.enqueue item)) := by
  by_cases hfull : s.queue.isFull = true
  · have hfull' : r.queue.isFull = true := h.isFull_eq.trans hfull
    rw [readerEvent, queueCall, if_pos hfull, if_pos hfull', CircularQueue.enqueue_full hfull,
      CircularQueue.enqueue_full hfull']
    exact h
  · have hfull' : ¬ r.queue.isFull = true := h.isFull_eq ▸ hfull
    have hsize : r.queue.size = s.queue.size := by rw [h.queue_eq]
    have hstored : (r.queue.enqueue item) =
        { s.queue.enqueue item with front := (s.queue.front + r.point.ahead) % capacity } := by
      rw [CircularQueue.enqueue_room hfull', CircularQueue.enqueue_room hfull, h.queue_eq]
    rw [readerEvent, queueCall, if_neg hfull, if_neg hfull']
    refine ⟨h.valid.enqueue, ?_, ?_, ?_, ?_, h.returned_eq, ?_, h.removed_eq⟩
    · rw [hstored, CircularQueue.enqueue_room hfull]
    · -- the window of `--m_size` is the only place where the count would not follow
      rw [CircularQueue.enqueue_room hfull', CircularQueue.enqueue_room hfull, ← hsize]
      cases hpoint : r.point with
      | loaded first old => simp [uncounts, hpoint, hfull'] at hquiet
      | _ => rfl
    · rw [CircularQueue.enqueue_room hfull]
      exact fun _ => Nat.succ_pos _
    · intro first hfirst
      have hbusy : r.point.busy = true := by
        cases hpoint : r.point with
        | entry =>
            rw [hpoint] at hfirst
            cases hfirst
        | _ => rfl
      rw [CircularQueue.enqueue_room hfull]
      dsimp only
      rw [Function.update_of_ne (h.valid.back_ne_front (h.nonempty hbusy) hfull).symm]
      exact h.item_eq first hfirst
    · exact congrArg (· ++ [item]) h.accepted_eq

theorem CircularQueue.dequeue_nonempty {q : CircularQueue T capacity} (hpos : 0 < q.size) :
    q.isEmpty = false ∧
      q.dequeue = (q.data q.front, { q with front := (q.front + 1) % capacity, size := q.size - 1 }) := by
  have hempty : q.isEmpty = false := by simpa [CircularQueue.isEmpty] using Nat.ne_of_gt hpos
  exact ⟨hempty, if_neg (by simp [hempty])⟩

theorem ReaderRun.Between.step (h : r.Between s) :
    (dequeueStep r).Between ((completes r .step).foldl queueCall s) := by
  have hfront : (s.queue.front + 0) % capacity = s.queue.front := Nat.mod_eq_of_lt h.valid.front_lt
  obtain ⟨queue, point, returned, accepted, removed⟩ := r
  obtain ⟨hvalid, hqueue, hcount, hnonempty, hitem, hreturned, haccepted, hremoved⟩ := h
  cases point with
  | entry =>
      have hsame : queue = s.queue := by
        rw [show queue = { s.queue with front := (s.queue.front + 0) % capacity } from hqueue, hfront]
      subst hsame
      by_cases hempty : s.queue.isEmpty = true
      · have hnil : s.queue.dequeue = (default, s.queue) := if_pos hempty
        simp only [DavOS.dequeueStep, completes, if_pos hempty, List.foldl_cons, List.foldl_nil, queueCall, hnil]
        exact ⟨hvalid, hqueue, hcount, hnonempty, hitem, congrArg (· ++ [default]) hreturned, haccepted, hremoved⟩
      · have hpos : 0 < s.queue.size := Nat.pos_of_ne_zero fun hzero => hempty (by simp [CircularQueue.isEmpty, hzero])
        simp only [DavOS.dequeueStep, completes, if_neg hempty, List.foldl_nil]
        exact ⟨hvalid, hqueue, hcount, fun _ => hpos, fun item h => absurd h.symm (Option.some_ne_none item),
          hreturned, haccepted, hremoved⟩
  | tested =>
      have hread : queue.data queue.front = s.queue.data s.queue.front := by
        rw [show queue = { s.queue with front := (s.queue.front + 0) % capacity } from hqueue, hfront]
      refine ⟨hvalid, hqueue, hcount, fun _ => hnonempty rfl, ?_, hreturned, haccepted, hremoved⟩
      rintro item ⟨⟩
      exact hread
  | read item =>
      refine ⟨hvalid, ?_, hcount, fun _ => hnonempty rfl, hitem, hreturned, haccepted, hremoved⟩
      change { queue with front := (queue.front + 1) % capacity } =
        { s.queue with front := (s.queue.front + 1) % capacity }
      rw [show queue = { s.queue with front := (s.queue.front + 0) % capacity } from hqueue, hfront]
  | advanced item =>
      exact ⟨hvalid, hqueue, hcount, fun _ => hnonempty rfl, hitem, hreturned, haccepted, hremoved⟩
  | loaded item old =>
      -- the last access makes of the queue what `dequeue` in one step makes of it
      have hold : old = s.queue.size := hcount
      have hfirst : item = s.queue.data s.queue.front := hitem item rfl
      obtain ⟨hempty, hcall⟩ := CircularQueue.dequeue_nonempty (hnonempty rfl)
      simp only [DavOS.dequeueStep, completes, List.foldl_cons, List.foldl_nil, queueCall, hcall, hempty, hfirst, hold]
      refine ⟨?_, ?_, rfl, fun hbusy => absurd hbusy Bool.false_ne_true,
        fun item h => absurd h.symm (Option.some_ne_none item), ?_, haccepted, ?_⟩
      · have hvalid' := hvalid.dequeue
        rw [hcall] at hvalid'
        exact hvalid'
      · rw [show queue = { s.queue with front := (s.queue.front + 1) % capacity } from hqueue]
        simp [DequeuePoint.ahead]
      · exact congrArg (· ++ [_]) hreturned
      · exact congrArg (· ++ [_]) hremoved

/-- The item that an event brings. -/
def ReaderEvent.item? {T : Type} : ReaderEvent T → Option T
  | .interrupt item => some item
  | .step => none

def QueueCall.item? {T : Type} : QueueCall T → Option T
  | .enqueue item => some item
  | .dequeue => none

omit [Inhabited T] in
theorem completes_items (r : ReaderRun T capacity) (event : ReaderEvent T) :
    (completes r event).filterMap QueueCall.item? = event.item?.toList := by
  cases event with
  | interrupt item => rfl
  | step =>
      unfold completes
      dsimp only
      split
      · split <;> rfl
      · rfl
      · rfl

theorem history_completes_items (r : ReaderRun T capacity) (events : List (ReaderEvent T)) :
    (history readerEvent completes r events).filterMap QueueCall.item? = events.filterMap ReaderEvent.item? := by
  induction events generalizing r with
  | nil => rfl
  | cons event events ih =>
      rw [history, List.filterMap_append, ih, completes_items]
      cases event with
      | interrupt item => rfl
      | step => rfl

omit [Inhabited T] in
theorem readerStart_between (hcap : 0 < capacity) (data : Nat → T) :
    (readerStart capacity data).Between { queue := ⟨data, 0, 0, 0⟩ } :=
  { valid := CircularQueue.valid_empty data hcap
    queue_eq := by simp [readerStart, DequeuePoint.ahead]
    count_eq := rfl
    nonempty := fun hbusy => absurd hbusy Bool.false_ne_true
    item_eq := fun item h => absurd h.symm (Option.some_ne_none item)
    returned_eq := rfl
    accepted_eq := rfl
    removed_eq := rfl }

/-- As long as no item is stored inside of `--m_size`, interrupted calls of `dequeue` do
what whole ones do: the run returns, accepts and reads out what it would if each call
were made at the moment of its last access, with the items coming in in their order. -/
theorem interrupted_dequeue_is_atomic (hcap : 0 < capacity) (data : Nat → T) (events : List (ReaderEvent T))
    (hquiet : uncounted capacity data events = []) :
    (completed capacity data events).filterMap QueueCall.item? = events.filterMap ReaderEvent.item? ∧
    (readerRun capacity data events).returned = (queueCalls capacity data (completed capacity data events)).returned ∧
    (readerRun capacity data events).accepted = (queueCalls capacity data (completed capacity data events)).accepted ∧
    (readerRun capacity data events).removed = (queueCalls capacity data (completed capacity data events)).removed ∧
    ((readerRun capacity data events).point = .entry →
      (readerRun capacity data events).queue = (queueCalls capacity data (completed capacity data events)).queue) := by
  have hstart := readerStart_between hcap data
  have hrun : (readerRun capacity data events).Between (queueCalls capacity data (completed capacity data events)) := by
    refine EventHistory.simulation (fun r s event h (hquiet : uncounts r event = []) => ?_) hstart hquiet
    cases event with
    | interrupt item => exact h.interrupt item hquiet
    | step => exact h.step
  refine ⟨history_completes_items _ events, hrun.returned_eq, hrun.accepted_eq, hrun.removed_eq, fun hidle => ?_⟩
  have hqueue := hrun.queue_eq
  rw [hidle] at hqueue
  rw [hqueue]
  simp [DequeuePoint.ahead, Nat.mod_eq_of_lt hrun.valid.front_lt]

end

/-- Two items come in while the first call is under way, a third between the two calls. -/
def betweenTheAccesses : List (ReaderEvent Nat) :=
  [.interrupt 7, .step, .interrupt 8, .step, .step, .interrupt 9, .step, .step, .interrupt 10, .step]

theorem interrupted_dequeue_is_atomic_two_slots :
    uncounted 2 (fun _ => 0) betweenTheAccesses = [] ∧
    (readerRun 2 (fun _ => 0) betweenTheAccesses).returned = [7] ∧
    (readerRun 2 (fun _ => 0) betweenTheAccesses).accepted = [7, 8, 10] := by
  have h := interrupted_dequeue_is_atomic (by decide : 0 < 2) (fun _ => 0) betweenTheAccesses rfl
  exact ⟨rfl, h.2.1, h.2.2.1⟩

end DavOS
