import DavOS.HandleCommand
import DavOS.QueueInterrupts

/-! `kernel_main` after its initialisation: the loop that reads keys and carries out
lines, and the keyboard interrupts that come in between any two of its accesses to
the buffer. The handler and the rest of the loop share nothing else. -/
namespace DavOS
open EventHistory

/-- What the loop does to the terminal. -/
inductive KernelOutput where
  | terminal (op : TerminalOp)
  | effect (effect : ShellEffect)
  deriving DecidableEq

/-- The variables of the loop, what it has put out, and whether it is in `kernel_hang`. -/
structure KernelLoop where
  shell : Shell
  output : List KernelOutput := []
  hung : Bool := false

namespace KernelLoop

/-- The head of the outer loop: `pos = 0` and the prompt. -/
def prompt (fuel : Nat) (l : KernelLoop) : Option KernelLoop :=
  (printf fuel "davOS> " []).map fun printed =>
    { l with shell := { l.shell with pos := 0 }, output := l.output ++ [.effect printed] }

/-- A key in the inner loop. -/
def type (l : KernelLoop) (key : Key) : KernelLoop :=
  { l with
    shell := (l.shell.handleKey key).1
    output := l.output ++ (l.shell.handleKey key).2.map KernelOutput.terminal }

def carryOut (l : KernelLoop) (effects : List ShellEffect) : KernelLoop :=
  { l with output := l.output ++ effects.map KernelOutput.effect }

/-- One key: Enter leaves the inner loop, runs the command and comes back to the prompt. -/
def round (fuel : Nat) (l : KernelLoop) (key : Key) : Option KernelLoop :=
  if key = .enter then
    (handleCommand fuel (l.type key).shell.input (l.type key).shell.pos).bind fun effects =>
      if .hang ∈ effects then some { (l.type key).carryOut effects with hung := true }
      else ((l.type key).carryOut effects).prompt fuel
  else some (l.type key)

end KernelLoop

/-- The decoder's flag, the keyboard buffer with the read that is under way, and the loop. -/
structure KernelState where
  extended : Bool := false
  reader : ReaderRun Key 256
  loop : KernelLoop

/-- What a step of `dequeue` returns, if it is the last one of its call. -/
def dequeueReturns {T : Type} {capacity : Nat} [Inhabited T] (r : ReaderRun T capacity) : Option T :=
  match r.point with
  | .entry => if r.queue.isEmpty then some default else none
  | .loaded item _ => some item
  | _ => none

/-- A keyboard interrupt, or the next step of the loop. `kernel_hang` leaves interrupts on. -/
def kernelEvent (fuel : Nat) (k : KernelState) : ReaderEvent Byte → Option KernelState
  | .interrupt scancode =>
      some
        { k with
          extended := (scancodeToKey k.extended scancode).2
          reader := readerEvent k.reader (.interrupt (scancodeToKey k.extended scancode).1) }
  | .step =>
      if k.loop.hung then some k
      else
        match dequeueReturns k.reader with
        | none => some { k with reader := dequeueStep k.reader }
        | some key => (k.loop.round fuel key).map fun loop => { k with reader := dequeueStep k.reader, loop := loop }

/-- The start: the arrays hold what the memory held, and the first prompt is printed. -/
def kernelStart (fuel : Nat) (data : Nat → Key) (input : Nat → Byte) : Option KernelState :=
  (KernelLoop.prompt fuel ⟨⟨input, 0⟩, [], false⟩).map fun loop => ⟨false, readerStart 256 data, loop⟩

def kernelRun (fuel : Nat) (data : Nat → Key) (input : Nat → Byte) (events : List (ReaderEvent Byte)) :
    Option KernelState :=
  (kernelStart fuel data input).bind fun k => events.foldlM (kernelEvent fuel) k

/-! ### The loop with its commands as texts -/

/-- What the line in the array does when Enter has ended it. -/
def Shell.lineEffects (s : Shell) : List ShellEffect := if s.pos = 0 then [] else commandEffects (cstring s.input 0 256)

namespace KernelLoop

def prompted (l : KernelLoop) : KernelLoop :=
  { l with
    shell := { l.shell with pos := 0 }
    output := l.output ++ [.effect (.print (bytesOf "davOS> "))] }

/-- A key that reaches the loop; none does once it hangs. -/
def next (l : KernelLoop) (key : Key) : KernelLoop :=
  if l.hung then l
  else if key = .enter then
    if .hang ∈ (l.type key).shell.lineEffects then
      { (l.type key).carryOut (l.type key).shell.lineEffects with hung := true }
    else ((l.type key).carryOut (l.type key).shell.lineEffects).prompted
  else l.type key

/-- The loop after the keys `keys`, from the first prompt on. -/
def typed (input : Nat → Byte) (keys : List Key) : KernelLoop :=
  keys.foldl next (prompted ⟨⟨input, 0⟩, [], false⟩)

/-- The index of the loop stays inside of the array. -/
def InBounds (l : KernelLoop) : Prop := 0 ≤ l.shell.pos ∧ l.shell.pos ≤ 255

variable {l : KernelLoop} {key : Key}

theorem prompt_eq (l : KernelLoop) : ∃ enough, ∀ fuel, enough ≤ fuel → l.prompt fuel = some l.prompted := by
  obtain ⟨enough, hputs⟩ := puts_plain "davOS> " (by decide) (by decide)
  refine ⟨enough, fun fuel hfuel => ?_⟩
  rw [prompt, hputs fuel hfuel]
  rfl

theorem InBounds.next (h : l.InBounds) (key : Key) : (l.next key).InBounds := by
  have hkey : (l.type key).InBounds := Shell.handleKey_pos l.shell key h
  unfold KernelLoop.next
  split
  · exact h
  · split
    · split
      · exact hkey
      · exact ⟨Int.le_refl 0, (by decide : (0 : Int) ≤ 255)⟩
    · exact hkey

theorem handleCommand_lineEffects {s : Shell} (h : 0 ≤ s.pos ∧ s.pos ≤ 255) (hend : s.input s.pos.toNat = 0) :
    ∃ enough, ∀ fuel, enough ≤ fuel → handleCommand fuel s.input s.pos = some s.lineEffects := by
  unfold Shell.lineEffects
  by_cases hlength : s.pos = 0
  · refine ⟨0, fun fuel _ => ?_⟩
    rw [handleCommand, if_pos hlength, if_pos hlength]
  · rw [if_neg hlength]
    apply handleCommand_eq _ hlength
    apply holdsText_cstring
    refine ⟨s.pos.toNat, by omega, ?_⟩
    rw [Nat.zero_add, hend]

theorem round_eq (h : l.InBounds) (hhung : l.hung = false) (key : Key) :
    ∃ enough, ∀ fuel, enough ≤ fuel → l.round fuel key = some (l.next key) := by
  have hkey : (l.type key).InBounds := Shell.handleKey_pos l.shell key h
  by_cases henter : key = .enter
  · have hend : (l.type key).shell.input (l.type key).shell.pos.toNat = 0 := by
      subst henter
      exact Function.update_self _ _ _
    obtain ⟨enough, hcommand⟩ := handleCommand_lineEffects hkey hend
    obtain ⟨enough', hprompt⟩ := prompt_eq ((l.type key).carryOut (l.type key).shell.lineEffects)
    refine ⟨max enough enough', fun fuel hfuel => ?_⟩
    rw [round, if_pos henter, hcommand fuel (by omega), next, hhung, if_neg Bool.false_ne_true, if_pos henter,
      Option.bind_some]
    split
    · rfl
    · exact hprompt fuel (by omega)
  · refine ⟨0, fun fuel _ => ?_⟩
    rw [round, if_neg henter, next, hhung, if_neg Bool.false_ne_true, if_neg henter]

end KernelLoop

/-! ### The whole machine -/

namespace KernelState

/-- One event, with the commands as texts. -/
def step (k : KernelState) : ReaderEvent Byte → KernelState
  | .interrupt scancode =>
      { k with
        extended := (scancodeToKey k.extended scancode).2
        reader := readerEvent k.reader (.interrupt (scancodeToKey k.extended scancode).1) }
  | .step =>
      if k.loop.hung then k
      else
        { k with
          reader := dequeueStep k.reader
          loop := (dequeueReturns k.reader).toList.foldl KernelLoop.next k.loop }

def start (data : Nat → Key) (input : Nat → Byte) : KernelState :=
  ⟨false, readerStart 256 data, .typed input []⟩

variable {k : KernelState} {event : ReaderEvent Byte}

theorem step_inBounds (h : k.loop.InBounds) (event : ReaderEvent Byte) : (k.step event).loop.InBounds := by
  cases event with
  | interrupt scancode => exact h
  | step =>
      rw [step]
      split
      · exact h
      · cases hreturns : dequeueReturns k.reader with
        | none => exact h
        | some key => exact h.next key

theorem kernelEvent_eq (h : k.loop.InBounds) (event : ReaderEvent Byte) :
    ∃ enough, ∀ fuel, enough ≤ fuel → kernelEvent fuel k event = some (k.step event) := by
  cases event with
  | interrupt scancode => exact ⟨0, fun _ _ => rfl⟩
  | step =>
      cases hhung : k.loop.hung with
      | true =>
          refine ⟨0, fun fuel _ => ?_⟩
          rw [kernelEvent, step, if_pos hhung, if_pos hhung]
      | false =>
          cases hreturns : dequeueReturns k.reader with
          | none =>
              refine ⟨0, fun fuel _ => ?_⟩
              simp [kernelEvent, step, hhung, hreturns]
          | some key =>
              obtain ⟨enough, hround⟩ := KernelLoop.round_eq h hhung key
              refine ⟨enough, fun fuel hfuel => ?_⟩
              simp [kernelEvent, step, hhung, hreturns, hround fuel hfuel]

theorem foldlM_eq (h : k.loop.InBounds) (events : List (ReaderEvent Byte)) :
    ∃ enough, ∀ fuel, enough ≤ fuel → events.foldlM (kernelEvent fuel) k = some (events.foldl step k) := by
  induction events generalizing k with
  | nil => exact ⟨0, fun _ _ => rfl⟩
  | cons event events ih =>
      obtain ⟨enough, hfirst⟩ := kernelEvent_eq h event
      obtain ⟨enough', hrest⟩ := ih (step_inBounds h event)
      refine ⟨max enough enough', fun fuel hfuel => ?_⟩
      rw [List.foldlM_cons, hfirst fuel (by omega)]
      exact hrest fuel (by omega)

end KernelState

theorem kernelRun_eq (data : Nat → Key) (input : Nat → Byte) (events : List (ReaderEvent Byte)) :
    ∃ enough, ∀ fuel, enough ≤ fuel →
      kernelRun fuel data input events = some (events.foldl KernelState.step (.start data input)) := by
  have hbounds : (KernelState.start data input).loop.InBounds := ⟨Int.le_refl 0, (by decide : (0 : Int) ≤ 255)⟩
  obtain ⟨enough, hprompt⟩ := KernelLoop.prompt_eq ⟨⟨input, 0⟩, [], false⟩
  obtain ⟨enough', hrun⟩ := KernelState.foldlM_eq hbounds events
  refine ⟨max enough enough', fun fuel hfuel => ?_⟩
  rw [kernelRun, kernelStart, hprompt fuel (by omega)]
  exact hrun fuel (by omega)

/-! ### Keys on their way to the loop -/

/-- An interrupt that is lost on the loop: its key is stored inside of `--m_size`, or it is
a press that finds the buffer full. -/
def Disturbs (k : KernelState) : ReaderEvent Byte → Prop
  | .interrupt scancode =>
      uncounts k.reader (.interrupt (scancodeToKey k.extended scancode).1) ≠ [] ∨
        (scancodeToKey k.extended scancode).1 ≠ .none ∧ k.reader.queue.isFull = true
  | .step => False

/-- No event of the run disturbs the buffer. -/
def Undisturbed (data : Nat → Key) (input : Nat → Byte) (events : List (ReaderEvent Byte)) : Prop :=
  ∀ before event after fuel k, events = before ++ event :: after →
    kernelRun fuel data input before = some k → ¬ Disturbs k event

def scancodes (events : List (ReaderEvent Byte)) : List Byte := events.filterMap ReaderEvent.item?

/-- The state of a run after the scancodes `codes`, and the calls `s` that it amounts to:
what the buffer accepted are the presses, and the loop has seen what was read out. -/
structure KernelState.Serves (input : Nat → Byte) (codes : List Byte) (k : KernelState) (s : QueueRun Key 256) : Prop where
  between : k.reader.Between s
  in_order : s.accepted = s.removed ++ s.queue.contents
  pressed : s.accepted.filter (· ≠ .none) = pressedKeys false codes
  extended_eq : k.extended = codes.foldl (fun e c => (scancodeToKey e c).2) false
  loop_eq : k.loop = .typed input s.removed

section

variable {input : Nat → Byte} {codes : List Byte} {k : KernelState} {s : QueueRun Key 256}

theorem KernelLoop.next_none (l : KernelLoop) : l.next .none = l := by
  have htype : l.type .none = l := by simp [KernelLoop.type, Shell.handleKey]
  rw [KernelLoop.next, htype, if_neg (by decide : Key.none ≠ .enter), ite_self]

theorem KernelLoop.typed_snoc (input : Nat → Byte) (keys : List Key) (key : Key) :
    KernelLoop.typed input (keys ++ [key]) = (KernelLoop.typed input keys).next key := by
  simp [KernelLoop.typed]

theorem KernelState.Serves.call (h : k.Serves input codes s) (call : QueueCall Key) :
    (queueCall s call).accepted = (queueCall s call).removed ++ (queueCall s call).queue.contents := by
  have hrefines : s.Refines (s.queue.contents, s.returned) := ⟨h.between.valid, rfl, rfl, h.in_order⟩
  exact (hrefines.step call).in_order

theorem KernelState.Serves.interrupt (h : k.Serves input codes s) {code : Byte} (hquiet : ¬ Disturbs k (.interrupt code)) :
    (k.step (.interrupt code)).Serves input (codes ++ [code])
      (queueCall s (.enqueue (scancodeToKey k.extended code).1)) := by
  obtain ⟨hcounted, hroom⟩ := not_or.mp hquiet
  refine ⟨h.between.interrupt _ (Classical.not_not.mp hcounted), h.call _, ?_, ?_, h.loop_eq⟩
  · rw [pressedKeys_append, ← h.extended_eq, ← h.pressed, pressedKeys, pressedKeys, List.append_nil, queueCall]
    dsimp only
    split
    · -- what a full buffer refuses is no press
      rename_i hfull
      have hnone : (scancodeToKey k.extended code).1 = .none := by
        by_contra hpress
        exact hroom ⟨hpress, h.between.isFull_eq.trans hfull⟩
      rw [hnone]
      simp
    · rw [List.filter_append]
  · rw [List.foldl_append, ← h.extended_eq]
    rfl

theorem KernelState.Serves.step (h : k.Serves input codes s) :
    ∃ s', (k.step .step).Serves input codes s' := by
  rw [KernelState.step]
  split
  · exact ⟨s, h⟩
  · have hbetween := h.between.step
    cases hpoint : k.reader.point with
    | entry =>
        by_cases hempty : k.reader.queue.isEmpty = true
        · have hcalls : completes k.reader .step = [.dequeue] := by simp [completes, hpoint, hempty]
          have hreturns : dequeueReturns k.reader = some .none := by
            simp only [dequeueReturns, hpoint, if_pos hempty]
            rfl
          have hsame : s.queue.isEmpty = true := by
            rw [CircularQueue.isEmpty, ← h.between.count_eq, hpoint]
            exact hempty
          rw [hcalls] at hbetween
          refine ⟨_, hbetween, h.call .dequeue, h.pressed, h.extended_eq, ?_⟩
          rw [hreturns, List.foldl_cons, List.foldl_nil, queueCall, if_pos hsame]
          exact (KernelLoop.next_none _).trans h.loop_eq
        · have hcalls : completes k.reader .step = [] := by simp [completes, hpoint, hempty]
          have hreturns : dequeueReturns k.reader = none := by simp [dequeueReturns, hpoint, hempty]
          rw [hcalls] at hbetween
          exact ⟨s, hbetween, h.in_order, h.pressed, h.extended_eq, by rw [hreturns]; exact h.loop_eq⟩
    | loaded item old =>
        have hcalls : completes k.reader .step = [.dequeue] := by simp [completes, hpoint]
        have hreturns : dequeueReturns k.reader = some item := by simp [dequeueReturns, hpoint]
        have hbusy : k.reader.point.busy = true := by
          rw [hpoint]
          rfl
        obtain ⟨hempty, hcall⟩ := CircularQueue.dequeue_nonempty (h.between.nonempty hbusy)
        have hitem : item = s.queue.data s.queue.front := by
          apply h.between.item_eq
          rw [hpoint]
          rfl
        rw [hcalls] at hbetween
        refine ⟨_, hbetween, h.call .dequeue, h.pressed, h.extended_eq, ?_⟩
        rw [hreturns, List.foldl_cons, List.foldl_nil, queueCall, hempty, hcall, ← hitem]
        exact (congrArg (·.next item) h.loop_eq).trans (KernelLoop.typed_snoc input s.removed item).symm
    | _ =>
        have hcalls : completes k.reader .step = [] := by simp [completes, hpoint]
        have hreturns : dequeueReturns k.reader = none := by simp [dequeueReturns, hpoint]
        rw [hcalls] at hbetween
        exact ⟨s, hbetween, h.in_order, h.pressed, h.extended_eq, by rw [hreturns]; exact h.loop_eq⟩

theorem KernelLoop.typed_presses (input : Nat → Byte) (keys : List Key) :
    KernelLoop.typed input (keys.filter (· ≠ .none)) = KernelLoop.typed input keys := by
  induction keys using List.reverseRecOn with
  | nil => rfl
  | append_singleton keys key ih =>
      rw [KernelLoop.typed_snoc, ← ih, List.filter_append]
      by_cases hnone : key = .none
      · rw [hnone, KernelLoop.next_none]
        simp
      · rw [← KernelLoop.typed_snoc]
        simp [hnone]

theorem KernelLoop.typed_hung {keys : List Key} (h : (KernelLoop.typed input keys).hung = true) (more : List Key) :
    KernelLoop.typed input (keys ++ more) = KernelLoop.typed input keys := by
  induction more using List.reverseRecOn with
  | nil => rw [List.append_nil]
  | append_singleton more key ih =>
      rw [← List.append_assoc, KernelLoop.typed_snoc, ih]
      exact if_pos h

theorem KernelState.Serves.run {data : Nat → Key} {events : List (ReaderEvent Byte)}
    (hquiet : Undisturbed data input events) :
    ∃ s, (events.foldl KernelState.step (.start data input)).Serves input (scancodes events) s := by
  induction events using List.reverseRecOn with
  | nil =>
      have hbetween : (readerStart 256 data).Between { queue := ⟨data, 0, 0, 0⟩ } := readerStart_between (by decide) data
      exact ⟨_, hbetween, rfl, rfl, rfl, rfl⟩
  | append_singleton events event ih =>
      have hbefore : Undisturbed data input events := by
        intro before event' after fuel k hevents
        exact hquiet before event' (after ++ [event]) fuel k (by rw [hevents]; simp)
      obtain ⟨s, hserves⟩ := ih hbefore
      rw [List.foldl_append, List.foldl_cons, List.foldl_nil, scancodes, List.filterMap_append]
      cases event with
      | interrupt code =>
          obtain ⟨enough, hrun⟩ := kernelRun_eq data input events
          exact ⟨_, hserves.interrupt (hquiet events _ [] enough _ rfl (hrun enough (Nat.le_refl _)))⟩
      | step =>
          rw [List.filterMap_cons_none rfl, List.filterMap_nil, List.append_nil]
          exact hserves.step

/-- However interrupts and the loop alternate, as long as none disturbs the buffer, the
loop has typed the presses in their order up to some point, and all of them as soon
as it waits at an empty buffer or hangs. -/
theorem kernel_carries_out_presses (data : Nat → Key) (input : Nat → Byte) (events : List (ReaderEvent Byte))
    (hquiet : Undisturbed data input events) :
    ∃ enough k, (∀ fuel, enough ≤ fuel → kernelRun fuel data input events = some k) ∧
      (∃ keys, keys <+: pressedKeys false (scancodes events) ∧ k.loop = .typed input keys) ∧
      (k.reader.point = .entry ∧ k.reader.queue.isEmpty = true ∨ k.loop.hung = true →
        k.loop = .typed input (pressedKeys false (scancodes events))) := by
  obtain ⟨enough, hrun⟩ := kernelRun_eq data input events
  obtain ⟨s, hserves⟩ := KernelState.Serves.run hquiet
  have hsplit : pressedKeys false (scancodes events) =
      s.removed.filter (· ≠ .none) ++ s.queue.contents.filter (· ≠ .none) := by
    rw [← hserves.pressed, hserves.in_order, List.filter_append]
  have hloop := hserves.loop_eq.trans (KernelLoop.typed_presses input s.removed).symm
  refine ⟨enough, _, hrun, ⟨_, ⟨_, hsplit.symm⟩, hloop⟩, ?_⟩
  rintro (⟨hidle, hempty⟩ | hhung)
  · have hnil : s.queue.contents = [] := by
      apply CircularQueue.isEmpty_iff.mp
      rw [CircularQueue.isEmpty, ← hserves.between.count_eq, hidle]
      exact hempty
    rw [hsplit, hnil, List.filter_nil, List.append_nil]
    exact hloop
  · rw [hloop] at hhung ⊢
    rw [hsplit, KernelLoop.typed_hung hhung]

end

/-- The A key and Enter, and then the ten accesses that read them. -/
def lineThenSteps : List (ReaderEvent Byte) :=
  [.interrupt 0x1E, .interrupt 0x1C] ++ List.replicate 10 .step

theorem kernel_carries_out_presses_one_line :
    ∃ enough k, (∀ fuel, enough ≤ fuel → kernelRun fuel (fun _ => .none) (fun _ => 0) lineThenSteps = some k) ∧
      k.loop = .typed (fun _ => 0) (pressedKeys false [0x1E, 0x1C]) := by
  have hquiet : Undisturbed (fun _ => .none) (fun _ => 0) lineThenSteps := by
    intro before event after fuel k hevents hrun hdisturbs
    unfold kernelRun kernelStart at hrun
    cases hprompt : KernelLoop.prompt fuel ⟨⟨fun _ => 0, 0⟩, [], false⟩ with
    | none =>
        rw [hprompt] at hrun
        cases hrun
    | some loop =>
        rw [hprompt] at hrun
        match before, hevents with
        | [], hevents =>
            cases hevents
            cases hrun
            exact absurd hdisturbs (by simp [Disturbs, uncounts, readerStart, CircularQueue.isFull])
        | [_], hevents =>
            cases hevents
            cases hrun
            revert hdisturbs
            simp [Disturbs, uncounts, readerEvent, readerStart, CircularQueue.isFull, CircularQueue.enqueue]
        | _ :: _ :: before, hevents =>
            have hrest : List.replicate 10 ReaderEvent.step = before ++ event :: after :=
              (List.cons.inj (List.cons.inj hevents).2).2
            have hmem : event ∈ List.replicate 10 ReaderEvent.step := hrest ▸ List.mem_append_cons_self
            rw [List.eq_of_mem_replicate hmem] at hdisturbs
            exact hdisturbs
  obtain ⟨enough, k, hrun, -, hloop⟩ := kernel_carries_out_presses _ _ _ hquiet
  refine ⟨enough, k, hrun, hloop (.inl ?_)⟩
  obtain ⟨enough', hrun'⟩ := kernelRun_eq (fun _ => .none) (fun _ => 0) lineThenSteps
  have hsame := (hrun (max enough enough') (by omega)).symm.trans (hrun' (max enough enough') (by omega))
  rw [Option.some.inj hsame]
  exact ⟨rfl, rfl⟩

end DavOS
