import Mathlib.Logic.Function.Iterate
import DavOS.CString

/-! `initKeyboardController` of `processor.cpp`, on a PS/2 controller that takes its time
for each byte it is sent, and into whose output buffer the keyboard puts scancodes
whenever it likes. -/
namespace DavOS

/-- A byte in the input buffer, sent to port 0x64 or to port 0x60. -/
inductive Ps2Input where
  | command (value : Byte)
  | data (value : Byte)
  deriving DecidableEq

/-- The controller: its command byte, whether a new one is expected, the byte in its
input buffer with the number of port accesses for which it stays there, and the bytes for port 0x60. -/
structure Ps2Controller where
  commandByte : Byte
  expected : Bool := false
  pending : Option (Nat × Ps2Input) := none
  output : List Byte := []
  time : Nat := 0

/-- What the program has no hand in: how long a byte stays in the input buffer, and which
scancodes come in, both by the number of the port access. -/
structure Ps2Environment where
  latency : Nat → Nat
  arrivals : Nat → List Byte

namespace Ps2Controller

/-- The controller takes a byte from its input buffer. -/
def execute (c : Ps2Controller) : Ps2Input → Ps2Controller
  | .command value =>
      if value = 0xAE then { c with commandByte := c.commandByte &&& ~~~0x10 }
      else if value = 0x20 then { c with output := c.output ++ [c.commandByte] }
      else if value = 0x60 then { c with expected := true }
      else c
  | .data value => if c.expected then { c with commandByte := value, expected := false } else c

/-- Bit 1 is set while the input buffer is full, bit 0 while the output buffer is. -/
def status (c : Ps2Controller) : Byte := (if c.pending.isSome then 0x02 else 0) ||| (if c.output = [] then 0 else 0x01)

variable (env : Ps2Environment)

/-- One access to a port. -/
def tick (c : Ps2Controller) : Ps2Controller :=
  let c' := { c with output := c.output ++ env.arrivals c.time, time := c.time + 1 }
  match c.pending with
  | none => c'
  | some (0, input) => { c'.execute input with pending := none }
  | some (n + 1, input) => { c' with pending := some (n, input) }

def outb (c : Ps2Controller) (port : Nat) (value : Byte) : Ps2Controller :=
  if port = 0x64 then tick env { c with pending := some (env.latency c.time, .command value) }
  else if port = 0x60 then tick env { c with pending := some (env.latency c.time, .data value) }
  else tick env c

def ioWait (c : Ps2Controller) : Ps2Controller := c.outb env 0x80 0

/-- Read port 0x60. -/
def inb60 (c : Ps2Controller) : Byte × Ps2Controller :=
  (c.output.headD 0, tick env { c with output := c.output.tail })

/-- A loop that reads port 0x64 until its test fails; `none` means that the fuel ran out. -/
def poll (test : Byte → Bool) : Nat → Ps2Controller → Option Ps2Controller
  | 0, _ => none
  | fuel + 1, c => if test c.status then poll test fuel (tick env c) else some (tick env c)

/-- `while (inb(0x64) & 0x02);` -/
def waitInput (fuel : Nat) (c : Ps2Controller) : Option Ps2Controller := poll env (fun s => s &&& 0x02 ≠ 0) fuel c

/-- `while (!(inb(0x64) & 0x01));` -/
def waitOutput (fuel : Nat) (c : Ps2Controller) : Option Ps2Controller := poll env (fun s => s &&& 0x01 = 0) fuel c

def initKeyboardController (fuel : Nat) (c : Ps2Controller) : Option Ps2Controller := do
  let c ← c.waitInput env fuel
  let c := (c.outb env 0x64 0xAE).ioWait env
  let c ← c.waitInput env fuel
  let c := (c.outb env 0x64 0x20).ioWait env
  let c ← c.waitOutput env fuel
  let (commandByte, c) := c.inb60 env
  let commandByte := (commandByte ||| 0x01) &&& ~~~0x10
  let c ← c.waitInput env fuel
  let c := (c.outb env 0x64 0x60).ioWait env
  let c ← c.waitInput env fuel
  some ((c.outb env 0x60 commandByte).ioWait env)

/-! ### The command byte -/

/-- What a byte makes of the command byte and of the expectation of a new one. -/
def effect (config : Byte × Bool) : Ps2Input → Byte × Bool
  | .command value =>
      if value = 0xAE then (config.1 &&& ~~~0x10, config.2)
      else if value = 0x20 then config
      else if value = 0x60 then (config.1, true)
      else config
  | .data value => if config.2 then (value, false) else config

/-- The command byte as it is going to be when the input buffer is empty. -/
def settled (c : Ps2Controller) : Byte × Bool :=
  match c.pending with
  | none => (c.commandByte, c.expected)
  | some (_, input) => effect (c.commandByte, c.expected) input

variable {env} {c : Ps2Controller}

theorem execute_config (c : Ps2Controller) (input : Ps2Input) :
    ((c.execute input).commandByte, (c.execute input).expected) = effect (c.commandByte, c.expected) input := by
  cases input with
  | command value =>
      unfold execute effect
      dsimp only
      split_ifs
      all_goals rfl
  | data value =>
      unfold execute effect
      dsimp only
      split_ifs
      all_goals rfl

theorem settled_tick (c : Ps2Controller) : (c.tick env).settled = c.settled := by
  unfold tick settled
  cases hpending : c.pending with
  | none => simp only
  | some entry =>
      obtain ⟨n, input⟩ := entry
      cases n with
      | zero => exact execute_config _ input
      | succ n => rfl

theorem settled_iterate (k : Nat) (c : Ps2Controller) : ((tick env)^[k] c).settled = c.settled :=
  Function.Iterate.rec (fun c' : Ps2Controller => c'.settled = c.settled) rfl (fun _ h => (settled_tick _).trans h) k

/-! ### Waiting -/

/-- A polling loop ends once its test fails, after one more access. -/
theorem poll_eq (test : Byte → Bool) {k : Nat} (h : test ((tick env)^[k] c).status = false) :
    ∃ j, test ((tick env)^[j] c).status = false ∧
      ∀ fuel, k < fuel → poll env test fuel c = some ((tick env)^[j + 1] c) := by
  induction k generalizing c with
  | zero =>
      refine ⟨0, h, fun fuel hfuel => ?_⟩
      obtain ⟨fuel, rfl⟩ := Nat.exists_eq_succ_of_ne_zero (Nat.ne_of_gt hfuel)
      have hstop : test c.status = false := h
      rw [poll, hstop]
      rfl
  | succ k ih =>
      cases hstop : test c.status with
      | false =>
          refine ⟨0, hstop, fun fuel hfuel => ?_⟩
          obtain ⟨fuel, rfl⟩ := Nat.exists_eq_succ_of_ne_zero (Nat.ne_of_gt (Nat.zero_lt_of_lt hfuel))
          rw [poll, hstop]
          rfl
      | true =>
          obtain ⟨j, hj, hpoll⟩ := ih (c := c.tick env) (by rwa [Function.iterate_succ_apply] at h)
          refine ⟨j + 1, by rwa [Function.iterate_succ_apply], fun fuel hfuel => ?_⟩
          obtain ⟨fuel, rfl⟩ := Nat.exists_eq_succ_of_ne_zero (Nat.ne_of_gt (Nat.zero_lt_of_lt hfuel))
          rw [poll, hstop, if_pos rfl, hpoll fuel (Nat.lt_of_succ_lt_succ hfuel), ← Function.iterate_succ_apply]

theorem status_input (c : Ps2Controller) : decide (c.status &&& 0x02 ≠ 0) = c.pending.isSome := by
  unfold status
  generalize c.pending.isSome = full
  by_cases hempty : c.output = []
  · rw [if_pos hempty]
    cases full <;> decide
  · rw [if_neg hempty]
    cases full <;> decide

theorem status_output (c : Ps2Controller) : decide (c.status &&& 0x01 = 0) = decide (c.output = []) := by
  unfold status
  generalize c.pending.isSome = full
  by_cases hempty : c.output = []
  · rw [if_pos hempty, decide_eq_true hempty]
    cases full <;> decide
  · rw [if_neg hempty, decide_eq_false hempty]
    cases full <;> decide

theorem pending_none (env : Ps2Environment) (c : Ps2Controller) : ∃ k, ((tick env)^[k] c).pending = none := by
  cases hpending : c.pending with
  | none => exact ⟨0, hpending⟩
  | some entry =>
      obtain ⟨n, input⟩ := entry
      induction n generalizing c with
      | zero =>
          refine ⟨1, ?_⟩
          rw [Function.iterate_one, tick, hpending]
      | succ n ih =>
          obtain ⟨k, hk⟩ := ih (c.tick env) (by rw [tick, hpending])
          exact ⟨k + 1, by rwa [Function.iterate_succ_apply]⟩

theorem tick_pending_none (h : c.pending = none) : (c.tick env).pending = none := by
  rw [tick, h]

theorem waitInput_eq (env : Ps2Environment) (c : Ps2Controller) :
    ∃ j enough, ((tick env)^[j] c).pending = none ∧
      ∀ fuel, enough ≤ fuel → c.waitInput env fuel = some ((tick env)^[j] c) := by
  obtain ⟨k, hk⟩ := pending_none env c
  obtain ⟨j, hj, hpoll⟩ := poll_eq (fun s => s &&& 0x02 ≠ 0) (k := k) (by rw [status_input, hk]; rfl)
  rw [status_input] at hj
  have hempty := Option.not_isSome_iff_eq_none.mp (Bool.eq_false_iff.mp hj)
  refine ⟨j + 1, k + 1, ?_, fun fuel hfuel => hpoll fuel hfuel⟩
  rw [Function.iterate_succ_apply']
  exact tick_pending_none hempty

/-! ### Sending -/

theorem send_command (env : Ps2Environment) (h : c.pending = none) (value : Byte) :
    ((c.outb env 0x64 value).ioWait env).settled = effect c.settled (.command value) ∧
    (c.outb env 0x64 value).ioWait env =
      (tick env)^[2] { c with pending := some (env.latency c.time, .command value) } := by
  have hsettled : c.settled = (c.commandByte, c.expected) := by rw [settled, h]
  have hcall : (c.outb env 0x64 value).ioWait env =
      (tick env)^[2] { c with pending := some (env.latency c.time, .command value) } := rfl
  refine ⟨?_, hcall⟩
  rw [hcall, settled_iterate, hsettled]
  rfl

theorem send_data (h : c.pending = none) (value : Byte) :
    ((c.outb env 0x60 value).ioWait env).settled = effect c.settled (.data value) := by
  have hsettled : c.settled = (c.commandByte, c.expected) := by rw [settled, h]
  have hcall : (c.outb env 0x60 value).ioWait env =
      (tick env)^[2] { c with pending := some (env.latency c.time, .data value) } := rfl
  rw [hcall, settled_iterate, hsettled]
  rfl

/-! ### The output buffer -/

/-- Bytes that the keyboard sends at some time. -/
def Arrives (env : Ps2Environment) (bytes : List Byte) : Prop := ∀ b ∈ bytes, ∃ t, b ∈ env.arrivals t

theorem Arrives.append {l l' : List Byte} (h : Arrives env l) (h' : Arrives env l') : Arrives env (l ++ l') := by
  intro b hb
  rcases List.mem_append.mp hb with hb | hb
  · exact h b hb
  · exact h' b hb

theorem arrives_now (env : Ps2Environment) (t : Nat) : Arrives env (env.arrivals t) := fun _ hb => ⟨t, hb⟩

theorem arrives_nil (env : Ps2Environment) : Arrives env [] := fun _ hb => absurd hb List.not_mem_nil

/-- Since the output buffer held `before`, only scancodes have been put into it. -/
structure Gathers (env : Ps2Environment) (before : List Byte) (c : Ps2Controller) : Prop where
  silent : ∀ n, c.pending ≠ some (n, .command 0x20)
  bytes : ∃ l, Arrives env l ∧ c.output = before ++ l

theorem execute_output {input : Ps2Input} (h : input ≠ .command 0x20) : (c.execute input).output = c.output := by
  cases input with
  | command value =>
      have hvalue : value ≠ 0x20 := fun hsame => h (congrArg Ps2Input.command hsame)
      unfold execute
      dsimp only
      rw [if_neg hvalue]
      split_ifs
      all_goals rfl
  | data value =>
      unfold execute
      dsimp only
      split_ifs
      all_goals rfl

theorem Gathers.tick {before : List Byte} (h : Gathers env before c) : Gathers env before (c.tick env) := by
  obtain ⟨hsilent, l, hl, houtput⟩ := h
  have hmore : Arrives env (l ++ env.arrivals c.time) := hl.append (arrives_now env c.time)
  unfold Ps2Controller.tick
  cases hpending : c.pending with
  | none => exact ⟨fun n => by simp, _, hmore, by simp [houtput]⟩
  | some entry =>
      obtain ⟨n, input⟩ := entry
      have hinput : input ≠ .command 0x20 := by
        rintro rfl
        exact hsilent n hpending
      cases n with
      | zero =>
          exact ⟨fun _ hsame => absurd hsame.symm (Option.some_ne_none _), _, hmore,
            by simp [execute_output hinput, houtput]⟩
      | succ n => exact ⟨fun n' hsame => hinput (Prod.ext_iff.mp (Option.some.inj hsame)).2, _, hmore, by simp [houtput]⟩

theorem tick_output_ne_nil (h : c.output ≠ []) : (c.tick env).output ≠ [] := by
  unfold Ps2Controller.tick
  cases c.pending with
  | none => simp [h]
  | some entry =>
      obtain ⟨n, input⟩ := entry
      cases n with
      | succ n => simp [h]
      | zero =>
          by_cases hinput : input = .command 0x20
          · simp [hinput, execute]
          · simp [execute_output hinput, h]

/-- The command byte has been asked for when the output buffer held `early`: it comes
behind the scancodes that are there at the time. -/
inductive Responds (env : Ps2Environment) (early : List Byte) (response : Byte) (c : Ps2Controller) : Prop
  | waiting (n : Nat) (l : List Byte) (hl : Arrives env l) (hpending : c.pending = some (n, .command 0x20))
      (hbyte : c.commandByte = response) (houtput : c.output = early ++ l)
  | done (l l' : List Byte) (hl : Arrives env l) (hpending : c.pending = none)
      (houtput : c.output = early ++ l ++ [response] ++ l')

theorem Responds.tick {early : List Byte} {response : Byte} (h : Responds env early response c) :
    Responds env early response (c.tick env) := by
  cases h with
  | waiting n l hl hpending hbyte houtput =>
      have hmore : Arrives env (l ++ env.arrivals c.time) := hl.append (arrives_now env c.time)
      cases n with
      | zero =>
          refine .done (l ++ env.arrivals c.time) [] hmore ?_ ?_
          · rw [Ps2Controller.tick, hpending]
          · simp [Ps2Controller.tick, hpending, execute, houtput, hbyte]
      | succ n =>
          refine .waiting n (l ++ env.arrivals c.time) hmore ?_ ?_ ?_
          · rw [Ps2Controller.tick, hpending]
          · rw [Ps2Controller.tick, hpending]
            exact hbyte
          · simp [Ps2Controller.tick, hpending, houtput]
  | done l l' hl hpending houtput =>
      refine .done l (l' ++ env.arrivals c.time) hl (tick_pending_none hpending) ?_
      simp [Ps2Controller.tick, hpending, houtput]

/-- The first byte is a scancode, if one was early, and the command byte else. -/
theorem Responds.head {early : List Byte} {response : Byte} (h : Responds env early response c) (hne : c.output ≠ []) :
    ∃ l, Arrives env l ∧ c.output.headD 0 = (early ++ l).headD response := by
  cases h with
  | waiting n l hl hpending hbyte houtput =>
      refine ⟨l, hl, ?_⟩
      rw [houtput] at hne ⊢
      cases hbytes : early ++ l with
      | nil => exact absurd hbytes hne
      | cons b bs => rfl
  | done l l' hl hpending houtput =>
      refine ⟨l, hl, ?_⟩
      rw [houtput]
      cases early ++ l with
      | nil => rfl
      | cons b bs => rfl

theorem waitOutput_eq {early : List Byte} {response : Byte} (h : Responds env early response c) :
    ∃ j enough, ((tick env)^[j] c).output ≠ [] ∧
      ∀ fuel, enough ≤ fuel → c.waitOutput env fuel = some ((tick env)^[j] c) := by
  have hresponds : ∀ k, Responds env early response ((tick env)^[k] c) := fun k =>
    Function.Iterate.rec (Responds env early response) h (fun _ h => h.tick) k
  obtain ⟨k, hk⟩ := pending_none env c
  have hfilled : ((tick env)^[k] c).output ≠ [] := by
    cases hresponds k with
    | waiting n l hl hpending hbyte houtput =>
        rw [hk] at hpending
        cases hpending
    | done l l' hl hpending houtput =>
        rw [houtput]
        simp
  obtain ⟨j, hj, hpoll⟩ := poll_eq (fun s => s &&& 0x01 = 0) (k := k)
    (by rw [status_output, decide_eq_false hfilled])
  rw [status_output] at hj
  refine ⟨j + 1, k + 1, ?_, fun fuel hfuel => hpoll fuel hfuel⟩
  rw [Function.iterate_succ_apply']
  exact tick_output_ne_nil (of_decide_eq_false hj)

theorem Gathers.iterate {before : List Byte} (h : Gathers env before c) (k : Nat) :
    Gathers env before ((Ps2Controller.tick env)^[k] c) :=
  Function.Iterate.rec (Gathers env before) h (fun _ h => h.tick) k

theorem Gathers.enableKeyboard {before : List Byte} (h : Gathers env before c) :
    Gathers env before { c with pending := some (env.latency c.time, .command 0xAE) } :=
  ⟨fun _ hsame => absurd (Prod.ext_iff.mp (Option.some.inj hsame)).2 (by simp), h.bytes⟩

-- a scancode that waits in the output buffer is taken for the command byte 0x65
example : (initKeyboardController ⟨fun _ => 1, fun _ => []⟩ 5 { commandByte := 0x65, output := [0x1E] }).map
    (fun c => c.settled.1) = some 0x0F := by
  decide +kernel

end Ps2Controller

end DavOS
