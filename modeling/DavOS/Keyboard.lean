import Mathlib.Data.List.Basic
import Mathlib.Data.List.Induction
import DavOS.CString
import DavOS.CircularQueue

/-! The keyboard: `isr_keyboard` of `idt.cpp` decodes scancode bytes and puts a
key into `KeyboardBuffer` for each byte, also for those that are no press. -/
namespace DavOS
open RingWindow

/-- `KeyboardBuffer::Key`. The printable keys have the value of their character;
`function` stands for F1 to RightAlt, to which no scancode decodes. -/
inductive Key where
  | none
  | ascii (code : Byte) (nonzero : code ≠ 0)
  | upArrow
  | downArrow
  | leftArrow
  | rightArrow
  | function (n : Fin 18)
  deriving DecidableEq

instance : Inhabited Key := ⟨.none⟩

/-- The table of `scancode_to_key`; the entries from 0x40 on are zero. -/
def scancodeToAscii : List Char :=
  ['\x00', '\x1b', '1', '2', '3', '4', '5', '6',
    '7', '8', '9', '0', '-', '=', '\x08', '\t',
    'q', 'w', 'e', 'r', 't', 'y', 'u', 'i',
    'o', 'p', '[', ']', '\n', '\x00', 'a', 's',
    'd', 'f', 'g', 'h', 'j', 'k', 'l', ';',
    '\x27', '\x60', '\x00', '\\', 'z', 'x', 'c', 'v',
    'b', 'n', 'm', ',', '.', '/', '\x00', '*',
    '\x00', ' ', '\x00', '\x00', '\x00', '\x00', '\x00', '\x00']

/-- A `char` value cast to a key: the value 0 is `Key::None`. -/
def Key.ofAscii (code : Byte) : Key := if h : code ≠ 0 then .ascii code h else .none

/-- `scancode_to_key` with its static flag `extended`, which it returns along with the key. -/
def scancodeToKey (extended : Bool) (scancode : Byte) : Key × Bool :=
  if extended then
    if scancode = 0x48 then (.upArrow, false)
    else if scancode = 0x50 then (.downArrow, false)
    else if scancode = 0x4B then (.leftArrow, false)
    else if scancode = 0x4D then (.rightArrow, false)
    else (.none, false)
  else if scancode = 0xE0 then (.none, true)
  -- key release
  else if scancode &&& 0x80 ≠ 0 then (.none, false)
  else if scancode.toNat < 128 then
    (.ofAscii (BitVec.ofNat 8 (scancodeToAscii.getD scancode.toNat '\x00').toNat), false)
  else (.none, false)

/-- The static flag of the decoder and `kernel::keyboardBuffer`. -/
structure Keyboard where
  extended : Bool := false
  buffer : CircularQueue Key 256

namespace Keyboard

/-- The keyboard at the start: the array of the buffer is not initialised. -/
def fresh (data : Nat → Key) : Keyboard := ⟨false, ⟨data, 0, 0, 0⟩⟩

def put (k : Keyboard) (key : Key) : Keyboard := { k with buffer := k.buffer.enqueue key }

def get (k : Keyboard) : Key × Keyboard := (k.buffer.dequeue.1, { k with buffer := k.buffer.dequeue.2 })

def hasData (k : Keyboard) : Bool := !k.buffer.isEmpty

def isrKeyboard (k : Keyboard) (scancode : Byte) : Keyboard :=
  { k with extended := (scancodeToKey k.extended scancode).2 }.put (scancodeToKey k.extended scancode).1

end Keyboard

inductive KeyboardOp where
  | interrupt (scancode : Byte)
  | get
  deriving DecidableEq

def keyboardStep (s : Keyboard × List Key) : KeyboardOp → Keyboard × List Key
  | .interrupt scancode => (s.1.isrKeyboard scancode, s.2)
  | .get => (s.1.get.2, s.2 ++ [s.1.get.1])

def keyboardRun (k : Keyboard) (ops : List KeyboardOp) : Keyboard × List Key := ops.foldl keyboardStep (k, [])

def KeyboardOp.scancode? : KeyboardOp → Option Byte
  | .interrupt scancode => some scancode
  | .get => none

/-- The presses that a stream of scancodes decodes to. -/
def pressedKeys (extended : Bool) : List Byte → List Key
  | [] => []
  | scancode :: rest =>
      [(scancodeToKey extended scancode).1].filter (· ≠ .none) ++ pressedKeys (scancodeToKey extended scancode).2 rest

def presses (k : Keyboard) (ops : List KeyboardOp) : List Key :=
  pressedKeys k.extended (ops.filterMap KeyboardOp.scancode?)

def delivered (k : Keyboard) (ops : List KeyboardOp) : List Key := (keyboardRun k ops).2.filter (· ≠ .none)

/-- Presses are delivered in order, and all of them once the buffer is empty. -/
def Delivered (k : Keyboard) (ops : List KeyboardOp) : Prop :=
  delivered k ops <+: presses k ops ∧
    ((keyboardRun k ops).1.hasData = false → delivered k ops = presses k ops)

def NoneDropped (k : Keyboard) (ops : List KeyboardOp) : Prop :=
  ∀ before scancode after, ops = before ++ .interrupt scancode :: after →
    (scancodeToKey (keyboardRun k before).1.extended scancode).1 ≠ .none →
      (keyboardRun k before).1.buffer.isFull = false

/-! ### One step -/

section

variable {k : Keyboard} {ops : List KeyboardOp} {op : KeyboardOp} {scancode : Byte}

theorem keyboardRun_snoc (k : Keyboard) (ops : List KeyboardOp) (op : KeyboardOp) :
    keyboardRun k (ops ++ [op]) = keyboardStep (keyboardRun k ops) op := by
  simp [keyboardRun]

theorem pressedKeys_append (extended : Bool) (as bs : List Byte) :
    pressedKeys extended (as ++ bs) =
      pressedKeys extended as ++ pressedKeys (as.foldl (fun e c => (scancodeToKey e c).2) extended) bs := by
  induction as generalizing extended with
  | nil => rfl
  | cons a as ih => simp [pressedKeys, ih]

theorem keyboardRun_extended (k : Keyboard) (ops : List KeyboardOp) :
    (keyboardRun k ops).1.extended =
      (ops.filterMap KeyboardOp.scancode?).foldl (fun e c => (scancodeToKey e c).2) k.extended := by
  induction ops using List.reverseRecOn with
  | nil => rfl
  | append_singleton ops op ih =>
      rw [keyboardRun_snoc, List.filterMap_append, List.foldl_append, ← ih]
      cases op with
      | interrupt scancode => rfl
      | get => rfl

theorem presses_interrupt (k : Keyboard) (ops : List KeyboardOp) (scancode : Byte) :
    presses k (ops ++ [.interrupt scancode]) = presses k ops ++
      [(scancodeToKey (keyboardRun k ops).1.extended scancode).1].filter (· ≠ .none) := by
  unfold presses
  rw [List.filterMap_append, pressedKeys_append, keyboardRun_extended]
  simp [KeyboardOp.scancode?, pressedKeys]

theorem presses_get (k : Keyboard) (ops : List KeyboardOp) : presses k (ops ++ [.get]) = presses k ops := by
  unfold presses
  rw [List.filterMap_append, List.filterMap_cons_none rfl, List.filterMap_nil, List.append_nil]

theorem noneDropped_get : NoneDropped k (ops ++ [.get]) ↔ NoneDropped k ops := by
  constructor
  · intro h before scancode after hops
    exact h before scancode (after ++ [.get]) (by simp [hops])
  · intro h before scancode after hops
    rcases List.eq_nil_or_concat' after with rfl | ⟨init, last, rfl⟩
    · have hlast := congrArg List.getLast? hops
      simp at hlast
    · rw [← List.cons_append, ← List.append_assoc] at hops
      exact h before scancode init (List.append_inj_left' hops rfl)

theorem noneDropped_interrupt : NoneDropped k (ops ++ [.interrupt scancode]) ↔ NoneDropped k ops ∧
    ((scancodeToKey (keyboardRun k ops).1.extended scancode).1 ≠ .none →
      (keyboardRun k ops).1.buffer.isFull = false) := by
  constructor
  · intro h
    refine ⟨?_, h ops scancode [] rfl⟩
    intro before scancode' after hops
    exact h before scancode' (after ++ [.interrupt scancode]) (by simp [hops])
  · rintro ⟨h, hlast⟩ before scancode' after hops
    rcases List.eq_nil_or_concat' after with rfl | ⟨init, last, rfl⟩
    · obtain ⟨rfl, hop⟩ := List.append_inj' hops rfl
      cases hop
      exact hlast
    · rw [← List.cons_append, ← List.append_assoc] at hops
      exact h before scancode' init (List.append_inj_left' hops rfl)

/-! ### Whole runs -/

theorem keyboardRun_valid (hk : k.buffer.Valid) (ops : List KeyboardOp) : (keyboardRun k ops).1.buffer.Valid := by
  induction ops using List.reverseRecOn with
  | nil => exact hk
  | append_singleton ops op ih =>
      rw [keyboardRun_snoc]
      cases op with
      | interrupt scancode => exact ih.enqueue
      | get => exact ih.dequeue

def pending (k : Keyboard) (ops : List KeyboardOp) : List Key :=
  (keyboardRun k ops).1.buffer.contents.filter (· ≠ .none)

theorem delivered_pending_get (hk : k.buffer.Valid) (ops : List KeyboardOp) :
    delivered k (ops ++ [.get]) ++ pending k (ops ++ [.get]) = delivered k ops ++ pending k ops := by
  have hv := keyboardRun_valid hk ops
  unfold delivered pending
  rw [keyboardRun_snoc]
  simp only [keyboardStep, Keyboard.get, List.filter_append]
  cases hc : (keyboardRun k ops).1.buffer.contents with
  | nil =>
      rw [CircularQueue.dequeue_nil hc, hc]
      simp [show (default : Key) = .none from rfl]
  | cons key rest =>
      obtain ⟨hfirst, hrest⟩ := CircularQueue.dequeue_cons hv hc
      rw [hfirst, hrest, List.append_assoc, ← List.filter_append, List.singleton_append]

theorem delivered_pending_interrupt (hk : k.buffer.Valid) (hfull : (keyboardRun k ops).1.buffer.isFull = false) :
    delivered k (ops ++ [.interrupt scancode]) ++ pending k (ops ++ [.interrupt scancode]) =
      delivered k ops ++ pending k ops ++
        [(scancodeToKey (keyboardRun k ops).1.extended scancode).1].filter (· ≠ .none) := by
  have hv := keyboardRun_valid hk ops
  unfold delivered pending
  rw [keyboardRun_snoc]
  simp only [keyboardStep, Keyboard.isrKeyboard, Keyboard.put, CircularQueue.contents_enqueue hv hfull,
    List.filter_append, List.append_assoc]

theorem delivered_pending_full (hfull : (keyboardRun k ops).1.buffer.isFull = true) :
    delivered k (ops ++ [.interrupt scancode]) ++ pending k (ops ++ [.interrupt scancode]) =
      delivered k ops ++ pending k ops := by
  unfold delivered pending
  rw [keyboardRun_snoc]
  simp only [keyboardStep, Keyboard.isrKeyboard, Keyboard.put, CircularQueue.enqueue_full hfull]

/-- As long as no press is dropped, each is with the reader or in the buffer. -/
theorem delivered_pending_eq (hk : k.buffer.Valid) (hempty : k.buffer.contents = []) (h : NoneDropped k ops) :
    delivered k ops ++ pending k ops = presses k ops := by
  induction ops using List.reverseRecOn with
  | nil => simp [delivered, pending, presses, keyboardRun, pressedKeys, hempty]
  | append_singleton ops op ih =>
      cases op with
      | get =>
          rw [delivered_pending_get hk, presses_get]
          exact ih (noneDropped_get.mp h)
      | interrupt scancode =>
          obtain ⟨hold, hlast⟩ := noneDropped_interrupt.mp h
          rw [presses_interrupt, ← ih hold]
          cases hfull : (keyboardRun k ops).1.buffer.isFull with
          | false => exact delivered_pending_interrupt hk hfull
          | true =>
              have hnone : (scancodeToKey (keyboardRun k ops).1.extended scancode).1 = .none := by
                by_contra hpress
                have hfree := hlast hpress
                rw [hfull] at hfree
                cases hfree
              rw [delivered_pending_full hfull, hnone]
              simp

theorem delivered_pending_lt (hk : k.buffer.Valid) (hempty : k.buffer.contents = []) (ops : List KeyboardOp) :
    (delivered k ops ++ pending k ops).length ≤ (presses k ops).length ∧
      (¬ NoneDropped k ops → (delivered k ops ++ pending k ops).length < (presses k ops).length) := by
  induction ops using List.reverseRecOn with
  | nil =>
      have hnone : NoneDropped k [] := fun before scancode after h => by simp at h
      refine ⟨?_, fun h => absurd hnone h⟩
      simp [delivered, pending, keyboardRun, hempty]
  | append_singleton ops op ih =>
      cases op with
      | get =>
          rw [delivered_pending_get hk, presses_get, noneDropped_get]
          exact ih
      | interrupt scancode =>
          have hlength : (presses k (ops ++ [.interrupt scancode])).length = (presses k ops).length +
              ([(scancodeToKey (keyboardRun k ops).1.extended scancode).1].filter (· ≠ .none)).length := by
            rw [presses_interrupt, List.length_append]
          rw [hlength, noneDropped_interrupt]
          cases hfull : (keyboardRun k ops).1.buffer.isFull with
          | false =>
              rw [delivered_pending_interrupt hk hfull, List.length_append]
              refine ⟨Nat.add_le_add_right ih.1 _, fun h => Nat.add_lt_add_right (ih.2 ?_) _⟩
              exact fun hold => h ⟨hold, fun _ => rfl⟩
          | true =>
              rw [delivered_pending_full hfull]
              refine ⟨Nat.le_trans ih.1 (Nat.le_add_right _ _), fun h => ?_⟩
              by_cases hpress : (scancodeToKey (keyboardRun k ops).1.extended scancode).1 = .none
              · have hold : ¬ NoneDropped k ops := fun hold => h ⟨hold, fun hne => absurd hpress hne⟩
                exact Nat.lt_of_lt_of_le (ih.2 hold) (Nat.le_add_right _ _)
              · have hone : ([(scancodeToKey (keyboardRun k ops).1.extended scancode).1].filter (· ≠ .none)).length = 1 := by
                  simp [hpress]
                rw [hone]
                exact Nat.lt_succ_of_le ih.1

theorem noneDropped_gets (n : Nat) : NoneDropped k (ops ++ List.replicate n .get) ↔ NoneDropped k ops := by
  induction n with
  | zero => simp
  | succ n ih => rw [List.replicate_succ', ← List.append_assoc, noneDropped_get, ih]

theorem contents_gets (hk : k.buffer.Valid) (ops : List KeyboardOp) (n : Nat) :
    (keyboardRun k (ops ++ List.replicate n .get)).1.buffer.contents =
      (keyboardRun k ops).1.buffer.contents.drop n := by
  induction n with
  | zero => simp
  | succ n ih =>
      have hv := keyboardRun_valid hk (ops ++ List.replicate n .get)
      rw [List.replicate_succ', ← List.append_assoc, keyboardRun_snoc, ← List.drop_drop, ← ih]
      simp only [keyboardStep, Keyboard.get]
      cases hc : (keyboardRun k (ops ++ List.replicate n .get)).1.buffer.contents with
      | nil => rw [CircularQueue.dequeue_nil hc, hc, List.drop_nil]
      | cons key rest => exact (CircularQueue.dequeue_cons hv hc).2

/-- 256 reads empty the buffer, so what has not been delivered then is lost. -/
theorem Delivered.noneDropped (hk : k.buffer.Valid) (hempty : k.buffer.contents = [])
    (h : Delivered k (ops ++ List.replicate 256 .get)) : NoneDropped k ops := by
  by_contra hdropped
  have hlost := (delivered_pending_lt hk hempty (ops ++ List.replicate 256 .get)).2
    (fun hnone => hdropped ((noneDropped_gets 256).mp hnone))
  have hdrained : (keyboardRun k (ops ++ List.replicate 256 .get)).1.buffer.contents = [] := by
    rw [contents_gets hk]
    apply List.drop_eq_nil_of_le
    exact Nat.le_trans (Nat.le_of_eq (window_length _ _ _ _)) (keyboardRun_valid hk ops).size_le
  have hdata : (keyboardRun k (ops ++ List.replicate 256 .get)).1.hasData = false := by
    rw [Keyboard.hasData, CircularQueue.isEmpty_iff.mpr hdrained]
    rfl
  rw [pending, hdrained, h.2 hdata, List.filter_nil, List.append_nil] at hlost
  exact Nat.lt_irrefl _ hlost

theorem NoneDropped.delivered (hk : k.buffer.Valid) (hempty : k.buffer.contents = []) (h : NoneDropped k ops) :
    Delivered k ops := by
  have hall := delivered_pending_eq hk hempty h
  refine ⟨⟨_, hall⟩, fun hdata => ?_⟩
  have hdrained : (keyboardRun k ops).1.buffer.contents = [] := by
    apply CircularQueue.isEmpty_iff.mp
    simpa [Keyboard.hasData] using hdata
  rw [← hall, pending, hdrained, List.filter_nil, List.append_nil]

end

theorem Keyboard.fresh_valid (data : Nat → Key) : (Keyboard.fresh data).buffer.Valid :=
  CircularQueue.valid_empty data (by decide)

/-- However many reads follow, presses are delivered in order and completely
exactly when none of them arrives while the buffer holds 256 entries, be they
keys or the `None` entries of releases and prefix bytes. A read is one step here:
no byte arrives between its load of `m_size` and its store. -/
theorem presses_delivered_iff (data : Nat → Key) (ops : List KeyboardOp) :
    (∀ n, Delivered (.fresh data) (ops ++ List.replicate n .get)) ↔ NoneDropped (.fresh data) ops := by
  have hk := Keyboard.fresh_valid data
  constructor
  · exact fun h => (h 256).noneDropped hk rfl
  · exact fun h n => ((noneDropped_gets n).mpr h).delivered hk rfl

/-- 256 releases of the A key, one press of it and as many reads as the buffer has room. -/
def releasesFirst : List KeyboardOp :=
  List.replicate 256 (.interrupt 0x9E) ++ [.interrupt 0x1E] ++ List.replicate 256 .get

/-- The only press of the stream is lost, since releases fill the buffer. -/
theorem press_lost_to_releases : (presses (.fresh fun _ => .none) releasesFirst).length = 1 ∧
    ¬ Delivered (.fresh fun _ => .none) releasesFirst := by
  refine ⟨by decide +kernel, fun h => ?_⟩
  have hfree := h.noneDropped (Keyboard.fresh_valid _) rfl (List.replicate 256 (.interrupt 0x9E)) 0x1E [] rfl
    (by decide +kernel)
  revert hfree
  decide +kernel

end DavOS
