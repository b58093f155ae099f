import DavOS.CString
import DavOS.MachineWord
import DavOS.MoveSequence

/-! `kpp::memmove`. The two ranges may overlap; the direction of the loop decides
which bytes of the source are overwritten before they are read. -/
namespace DavOS
open MachineWord MoveSequence

def copyByte (m : Nat → Byte) (dst src i : Nat) : Nat → Byte :=
  Function.update m (wrap (dst + i)) (m (wrap (src + i)))

/-- The loop from index `i` upwards, with `n` bytes left. -/
def memmoveUp (m : Nat → Byte) (dst src i : Nat) : Nat → Nat → Byte
  | 0 => m
  | n + 1 => memmoveUp (copyByte m dst src i) dst src (i + 1) n

/-- The loop downwards: the byte it copies is the one below its index. -/
def memmoveDown (m : Nat → Byte) (dst src : Nat) : Nat → Nat → Byte
  | 0 => m
  | i + 1 => memmoveDown (copyByte m dst src i) dst src i

def memmove (m : Nat → Byte) (dst src size : Nat) : Nat × (Nat → Byte) :=
  if dst < src then (dst, memmoveUp m dst src 0 size) else (dst, memmoveDown m dst src size)

/-! ### The loops as moves -/

def byteMove (dst src i : Nat) : Nat × Nat := (wrap (dst + i), wrap (src + i))

section

variable {m : Nat → Byte} {dst src size i n : Nat}

theorem memmoveUp_eq (m : Nat → Byte) (dst src i n : Nat) :
    memmoveUp m dst src i n = perform m ((List.range' i n).map (byteMove dst src)) := by
  induction n generalizing m i with
  | zero => rfl
  | succ n ih =>
      rw [memmoveUp, ih, List.range'_succ, List.map_cons, perform_cons]
      rfl

theorem memmoveDown_eq (m : Nat → Byte) (dst src n : Nat) :
    memmoveDown m dst src n = perform m ((List.range n).reverse.map (byteMove dst src)) := by
  induction n generalizing m with
  | zero => rfl
  | succ n ih =>
      rw [memmoveDown, ih, List.range_succ, List.reverse_append, List.reverse_singleton, List.singleton_append,
        List.map_cons, perform_cons]
      rfl

theorem byteMove_eq (hdst : dst + size ≤ 2 ^ 64) (hsrc : src + size ≤ 2 ^ 64) (hi : i < size) :
    byteMove dst src i = (dst + i, src + i) := by
  rw [byteMove, wrap_of_lt (by omega), wrap_of_lt (by omega)]

/-- Upwards, a byte is written below the ones that are still to be read. -/
theorem serial_up (hdst : dst + size ≤ 2 ^ 64) (hsrc : src + size ≤ 2 ^ 64) (h : dst < src) :
    Serial ((List.range' 0 size).map (byteMove dst src)) := by
  apply List.pairwise_map.mpr
  apply List.Pairwise.imp_of_mem _ List.pairwise_lt_range'
  intro i j hi hj hij
  have hj' : j < size := by simpa using hj
  rw [byteMove_eq hdst hsrc (Nat.lt_trans hij hj'), byteMove_eq hdst hsrc hj']
  exact ⟨by dsimp only; omega, by dsimp only; omega⟩

/-- Downwards, a byte is written above the ones that are still to be read, or in
the place of the one just read. -/
theorem serial_down (hdst : dst + size ≤ 2 ^ 64) (hsrc : src + size ≤ 2 ^ 64) (h : src ≤ dst) :
    Serial ((List.range size).reverse.map (byteMove dst src)) := by
  apply List.pairwise_map.mpr
  apply List.pairwise_reverse.mpr
  apply List.Pairwise.imp_of_mem _ List.pairwise_lt_range
  intro j i hj hi hij
  have hi' : i < size := List.mem_range.mp hi
  rw [byteMove_eq hdst hsrc hi', byteMove_eq hdst hsrc (Nat.lt_trans hij hi')]
  exact ⟨by dsimp only; omega, by dsimp only; omega⟩

theorem memmove_moves (hdst : dst + size ≤ 2 ^ 64) (hsrc : src + size ≤ 2 ^ 64) (m : Nat → Byte) :
    ∃ order : List Nat, (∀ i, i ∈ order ↔ i < size) ∧ Serial (order.map (byteMove dst src)) ∧
      memmove m dst src size = (dst, perform m (order.map (byteMove dst src))) := by
  unfold memmove
  split
  · rename_i h
    refine ⟨List.range' 0 size, fun i => by simp, serial_up hdst hsrc h, ?_⟩
    rw [memmoveUp_eq]
  · rename_i h
    refine ⟨(List.range size).reverse, fun i => by simp, serial_down hdst hsrc (Nat.le_of_not_lt h), ?_⟩
    rw [memmoveDown_eq]

end

/-- However the ranges lie to each other, the destination holds what the source
held before the call, and no other byte changes. -/
theorem memmove_copies {dst src size : Nat} (hdst : dst + size ≤ 2 ^ 64) (hsrc : src + size ≤ 2 ^ 64) (m : Nat → Byte) :
    (memmove m dst src size).1 = dst ∧
    (∀ i < size, (memmove m dst src size).2 (dst + i) = m (src + i)) ∧
    ∀ x, x < dst ∨ dst + size ≤ x → (memmove m dst src size).2 x = m x := by
  obtain ⟨order, hall, hserial, hmoves⟩ := memmove_moves hdst hsrc m
  rw [hmoves]
  refine ⟨rfl, ?_, ?_⟩
  · intro i hi
    have hmem : (dst + i, src + i) ∈ order.map (byteMove dst src) := by
      rw [← byteMove_eq hdst hsrc hi]
      exact List.mem_map_of_mem ((hall i).mpr hi)
    exact perform_mem hserial hmem
  · intro x hx
    apply perform_other
    intro p hp
    obtain ⟨i, hi, rfl⟩ := List.mem_map.mp hp
    have hi' := (hall i).mp hi
    rw [byteMove_eq hdst hsrc hi']
    dsimp only
    omega

/-- Three bytes moved up by one, over two of their own. -/
theorem memmove_copies_upwards : 2 + 3 ≤ 2 ^ 64 ∧ 1 + 3 ≤ 2 ^ 64 ∧
    (memmove (fun x => BitVec.ofNat 8 x) 2 1 3).2 (2 + 2) = 3 ∧ (memmove (fun x => BitVec.ofNat 8 x) 2 1 3).2 1 = 1 := by
  have h := memmove_copies (by decide : 2 + 3 ≤ 2 ^ 64) (by decide : 1 + 3 ≤ 2 ^ 64) fun x => BitVec.ofNat 8 x
  exact ⟨by decide, by decide, h.2.1 2 (by decide), h.2.2 1 (Or.inl (by decide))⟩

end DavOS
