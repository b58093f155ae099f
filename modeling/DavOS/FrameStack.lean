import Mathlib.Logic.Function.Basic
import DavOS.Kernel

/-! `kpp::NonOwningStack`, the array of frame pointers behind the frame
allocator, and the bounded list of frames that it stands for. -/
namespace DavOS

/-- The stack keeps its slots in memory that somebody else set aside. -/
structure NonOwningStack where
  stack : Nat
  maxSize : Nat
  size : Nat := 0

namespace NonOwningStack

def empty (st : NonOwningStack) : Bool := st.size == 0

def full (st : NonOwningStack) : Bool := st.size == st.maxSize

/-- Address of `m_stack[i]`. -/
def slot (st : NonOwningStack) (i : Nat) : Nat := st.stack + 8 * i

/-- A push on a full stack returns silently. -/
def push (m : Nat → BitVec 64) (st : NonOwningStack) (frame : Nat) :
    (Nat → BitVec 64) × NonOwningStack :=
  if st.full then (m, st)
  else (Function.update m (st.slot st.size) (BitVec.ofNat 64 frame), { st with size := st.size + 1 })

def pop (st : NonOwningStack) : NonOwningStack :=
  if st.empty then st else { st with size := st.size - 1 }

def top (m : Nat → BitVec 64) (st : NonOwningStack) : Nat := (m (st.slot (st.size - 1))).toNat

/-- The `n` lowest slots, the highest of them first. -/
def slots (m : Nat → BitVec 64) (st : NonOwningStack) : Nat → List Nat
  | 0 => []
  | n + 1 => (m (st.slot n)).toNat :: slots m st n

/-- The frames on the stack, the top first. -/
def contents (m : Nat → BitVec 64) (st : NonOwningStack) : List Nat := slots m st st.size

@[simp] theorem slots_length (m : Nat → BitVec 64) (st : NonOwningStack) (n : Nat) :
    (slots m st n).length = n := by
  induction n with
  | zero => rfl
  | succ n ih => simp only [slots, List.length_cons, ih]

@[simp] theorem contents_length (m : Nat → BitVec 64) (st : NonOwningStack) :
    (contents m st).length = st.size := slots_length m st st.size

theorem slots_congr {m m' : Nat → BitVec 64} {st st' : NonOwningStack} {n : Nat}
    (h : ∀ i < n, m' (st'.slot i) = m (st.slot i)) : slots m' st' n = slots m st n := by
  induction n with
  | zero => rfl
  | succ n ih =>
      simp only [slots, h n (Nat.lt_succ_self n), ih fun i hi => h i (Nat.lt_succ_of_lt hi)]

theorem push_full {m : Nat → BitVec 64} {st : NonOwningStack} (h : st.size = st.maxSize) (frame : Nat) :
    push m st frame = (m, st) := by
  simp [push, full, h]

theorem push_not_full {m : Nat → BitVec 64} {st : NonOwningStack} (h : st.size ≠ st.maxSize) (frame : Nat) :
    push m st frame = (Function.update m (st.slot st.size) (BitVec.ofNat 64 frame),
      { st with size := st.size + 1 }) := by
  simp [push, full, h]

theorem contents_push {m : Nat → BitVec 64} {st : NonOwningStack} (h : st.size ≠ st.maxSize)
    {frame : Nat} (hf : frame < 2 ^ 64) :
    contents (push m st frame).1 (push m st frame).2 = frame :: contents m st := by
  rw [push_not_full h]
  have hrest : slots (Function.update m (st.slot st.size) (BitVec.ofNat 64 frame))
      { st with size := st.size + 1 } st.size = slots m st st.size := by
    apply slots_congr
    intro i hi
    apply Function.update_of_ne
    simp only [slot]
    omega
  have htop : (Function.update m (st.slot st.size) (BitVec.ofNat 64 frame)
      (slot { st with size := st.size + 1 } st.size)).toNat = frame := by
    change (Function.update m (st.slot st.size) (BitVec.ofNat 64 frame) (st.slot st.size)).toNat = frame
    rw [Function.update_self, BitVec.toNat_ofNat, Nat.mod_eq_of_lt hf]
  simp only [contents, slots, hrest, htop]

theorem contents_pop {m : Nat → BitVec 64} {st : NonOwningStack} (h : st.size ≠ 0) :
    contents m st = top m st :: contents m st.pop := by
  obtain ⟨n, hn⟩ := Nat.exists_eq_succ_of_ne_zero h
  have hrest : slots m { st with size := st.size - 1 } n = slots m st n :=
    slots_congr fun i _ => rfl
  simp [contents, top, pop, empty, hn, slots] at hrest ⊢
  exact hrest.symm

end NonOwningStack

/-- What the stack is for: a list of free frames, the next one first, that holds
no more than its capacity. -/
structure FreeStack where
  frames : List Nat
  capacity : Nat
  bounded : frames.length ≤ capacity
  deriving DecidableEq

def noFrames : FreeStack := ⟨[], 0, Nat.le_refl 0⟩

namespace FreeStack

def allocateFrame (free : FreeStack) : Except Stop (Nat × FreeStack) :=
  match free with
  | ⟨[], _, _⟩ => .error (.panic "ran out of physical memory to allocate!")
  | ⟨frame :: rest, capacity, bounded⟩ => .ok (frame, ⟨rest, capacity, Nat.le_of_succ_le bounded⟩)

def deallocateFrame (free : FreeStack) (frame : Nat) : FreeStack :=
  if h : free.frames.length < free.capacity then ⟨frame :: free.frames, free.capacity, h⟩ else free

def availableFrames (free : FreeStack) : Nat := free.frames.length

theorem allocateFrame_ok {free free' : FreeStack} {frame : Nat}
    (h : free.allocateFrame = .ok (frame, free')) :
    free.frames = frame :: free'.frames ∧ free'.capacity = free.capacity := by
  obtain ⟨frames, capacity, bounded⟩ := free
  cases frames with
  | nil => cases h
  | cons f rest =>
      simp only [allocateFrame, Except.ok.injEq, Prod.mk.injEq] at h
      obtain ⟨rfl, rfl⟩ := h
      exact ⟨rfl, rfl⟩

theorem allocateFrame_isOk {free : FreeStack} (h : free.frames ≠ []) :
    ∃ frame free', free.allocateFrame = .ok (frame, free') := by
  obtain ⟨frames, capacity, bounded⟩ := free
  cases frames with
  | nil => exact absurd rfl h
  | cons f rest => exact ⟨f, _, rfl⟩

end FreeStack

end DavOS
