import DavOS.PageTree
import DavOS.PathGraph

/-! The page tree as a tree: which tables the root reaches, why no two paths
share one, and what a single round of the mapping loop does to them. The
direct-map offset is a constant here. -/
namespace DavOS
open MachineWord PathGraph

/-- The nine index bits of one level. -/
abbrev Index := Fin 512

/-- A physical address a table can have. -/
def IsTable (n : Nat) : Prop := n % 4096 = 0 ∧ n < 2 ^ 52

instance (n : Nat) : Decidable (IsTable n) := inferInstanceAs (Decidable (_ ∧ _))

/-- A frame that the page tree can use as a node: its address survives the
32-bit mask of the getter, and is not taken for a missing child. -/
def IsFrame (f : Nat) : Prop := f % 4096 = 0 ∧ f ≠ 0 ∧ f < 2 ^ 32

instance (f : Nat) : Decidable (IsFrame f) := inferInstanceAs (Decidable (_ ∧ _ ∧ _))

theorem IsFrame.isTable {f : Nat} (h : IsFrame f) : IsTable f :=
  ⟨h.1, lt_trans h.2.2 (by decide)⟩

/-- The index of an address at a depth, as a bounded number. -/
def indexAt (v depth : Nat) : Index := ⟨v / 2 ^ (39 - 9 * depth) % 512, Nat.mod_lt _ (by decide)⟩

theorem shift_mask (v s : Nat) : (v >>> s) &&& 0x1ff = v / 2 ^ s % 512 := by
  rw [Nat.shiftRight_eq_div_pow]
  exact Nat.and_two_pow_sub_one_eq_mod (v / 2 ^ s) 9

theorem getTableIndex_eq (v : Nat) {depth : Nat} (h : depth < 4) :
    getTableIndex v depth = .ok (indexAt v depth).val := by
  have h4 : depth = 0 ∨ depth = 1 ∨ depth = 2 ∨ depth = 3 := by omega
  rcases h4 with rfl | rfl | rfl | rfl <;> simp only [getTableIndex, shift_mask, indexAt]

/-- The three upper-level indices of an address, from the root down. -/
def path (v : Nat) : List Index := [indexAt v 0, indexAt v 1, indexAt v 2]

/-- Two addresses that no walk can tell apart: bits 12 to 47 agree. -/
def SamePage (v w : Nat) : Prop := v / 4096 % 2 ^ 36 = w / 4096 % 2 ^ 36

instance (v w : Nat) : Decidable (SamePage v w) := inferInstanceAs (Decidable (_ = _))

theorem samePage_iff {v w : Nat} :
    SamePage v w ↔ path v = path w ∧ indexAt v 3 = indexAt w 3 := by
  simp only [SamePage, path, indexAt, List.cons.injEq, Fin.mk.injEq, and_true]
  norm_num
  omega

/-! ### Entries of a table -/

section Cells

variable {offset : Nat}

/-- The entry `i` of the table at physical address `n`. -/
def entryAt (offset : Nat) (m : Memory) (n : Nat) (i : Index) : BitVec 64 :=
  m (PageTreeNode.entryAddress (wrap (n + offset)) i)

theorem cell_inj {n n' : Nat} {i i' : Index} (hn : IsTable n) (hn' : IsTable n')
    (h : PageTreeNode.entryAddress (wrap (n + offset)) i =
      PageTreeNode.entryAddress (wrap (n' + offset)) i') : n = n' ∧ i = i' := by
  have hi := i.isLt
  have hi' := i'.isLt
  simp only [PageTreeNode.entryAddress, wrap, IsTable] at *
  have : n = n' ∧ i.val = i'.val := by omega
  exact ⟨this.1, Fin.ext this.2⟩

theorem entryAt_update {m : Memory} {n n' : Nat} {i i' : Index} (hn : IsTable n)
    (hn' : IsTable n') (w : BitVec 64) :
    entryAt offset (Function.update m (PageTreeNode.entryAddress (wrap (n + offset)) i) w) n' i' =
      if n' = n ∧ i' = i then w else entryAt offset m n' i' := by
  unfold entryAt
  split
  · rename_i h
    rw [h.1, h.2, Function.update_self]
  · rename_i h
    apply Function.update_of_ne
    intro hc
    exact h (cell_inj hn' hn hc)

theorem foldl_clear (m : Memory) (addr : Nat → Nat) (indices : List Nat) (a : Nat) :
    (a ∈ indices.map addr →
      indices.foldl (fun m k => Function.update m (addr k) 0#64) m a = 0#64) ∧
    (a ∉ indices.map addr →
      indices.foldl (fun m k => Function.update m (addr k) 0#64) m a = m a) := by
  induction indices generalizing m with
  | nil => simp
  | cons k indices ih =>
      obtain ⟨hin, hout⟩ := ih (Function.update m (addr k) 0#64)
      simp only [List.foldl_cons, List.map_cons, List.mem_cons, not_or]
      constructor
      · intro h
        by_cases hrest : a ∈ indices.map addr
        · exact hin hrest
        · have hk : a = addr k := h.resolve_right hrest
          rw [hout hrest, hk, Function.update_self]
      · intro h
        rw [hout h.2, Function.update_of_ne h.1]

theorem entryAt_construct_self {m : Memory} {f : Nat} {i : Index} :
    entryAt offset (PageTreeNode.construct m (wrap (f + offset))) f i = 0#64 := by
  have hmem : PageTreeNode.entryAddress (wrap (f + offset)) i ∈
      (List.range 512).map (PageTreeNode.entryAddress (wrap (f + offset))) :=
    List.mem_map.mpr ⟨i.val, List.mem_range.mpr i.isLt, rfl⟩
  simpa only [entryAt, PageTreeNode.construct] using (foldl_clear m _ (List.range 512) _).1 hmem

theorem entryAt_construct_of_ne {m : Memory} {f n : Nat} {i : Index} (hf : IsTable f)
    (hn : IsTable n) (h : n ≠ f) :
    entryAt offset (PageTreeNode.construct m (wrap (f + offset))) n i = entryAt offset m n i := by
  have hmem : PageTreeNode.entryAddress (wrap (n + offset)) i ∉
      (List.range 512).map (PageTreeNode.entryAddress (wrap (f + offset))) := by
    intro hmem
    obtain ⟨k, hk, hc⟩ := List.mem_map.mp hmem
    have hc' : PageTreeNode.entryAddress (wrap (n + offset)) i =
        PageTreeNode.entryAddress (wrap (f + offset)) (⟨k, List.mem_range.mp hk⟩ : Index) := hc.symm
    exact h (cell_inj hn hf hc').1
  simpa only [entryAt, PageTreeNode.construct] using (foldl_clear m _ (List.range 512) _).2 hmem

/-- The table below entry `i` of table `n`, as the processor sees it. -/
def edge (offset : Nat) (m : Memory) (n : Nat) (i : Index) : Option Nat :=
  if Ia32e.isPresent (entryAt offset m n i) then some (Ia32e.addressField (entryAt offset m n i))
  else none

theorem edge_of_zero {m : Memory} {n : Nat} {i : Index} (h : entryAt offset m n i = 0#64) :
    edge offset m n i = none := by
  have h0 : Ia32e.isPresent 0#64 = false := by decide
  simp only [edge, h, h0, Bool.false_eq_true, if_false]

theorem edge_of_entryWord {m : Memory} {n c : Nat} {i : Index} {flags : FlagSet} (hc : IsTable c)
    (h : entryAt offset m n i = entryWord c flags.bits) : edge offset m n i = some c := by
  simp only [edge, h, entryWord_isPresent, if_true, entryWord_addressField hc.1 hc.2]

theorem edge_congr {m m' : Memory} {n : Nat} {i : Index}
    (h : entryAt offset m' n i = entryAt offset m n i) : edge offset m' n i = edge offset m n i := by
  simp only [edge, h]

end Cells

/-! ### The invariant -/

/-- The representation invariant of a page tree and the frames it can still
take. An entry is clear or written by `map_page_to_frame`; above the last level
it holds the address of a frame. -/
structure Intact (offset root : Nat) (s : PagingState) : Prop where
  rootTable : IsTable root
  unshared : Unshared (edge offset s.mem) root 3
  nodes : ∀ ρ n, ρ.length ≤ 3 → follow (edge offset s.mem) root ρ = some n →
    IsTable n ∧ n ∉ s.free.frames
  entries : ∀ ρ n i, ρ.length ≤ 3 → follow (edge offset s.mem) root ρ = some n →
    entryAt offset s.mem n i = 0#64 ∨ ∃ a flags, IsTable a ∧ (ρ.length < 3 → IsFrame a) ∧
      entryAt offset s.mem n i = entryWord a (FlagSet.bits flags)
  nodup : s.free.frames.Nodup
  frames : ∀ f ∈ s.free.frames, IsFrame f

theorem Intact.shrink {offset root : Nat} {s : PagingState} (h : Intact offset root s) {free : FreeStack}
    (hfree : free.frames.Sublist s.free.frames) : Intact offset root ⟨s.mem, free⟩ :=
  ⟨h.rootTable, h.unshared,
    fun ρ n hρ hn => ⟨(h.nodes ρ n hρ hn).1, fun hmem => (h.nodes ρ n hρ hn).2 (hfree.subset hmem)⟩,
    h.entries, hfree.nodup h.nodup, fun f hf => h.frames f (hfree.subset hf)⟩

theorem follow_fresh {offset root : Nat} {m : Memory} (hzero : ∀ i, entryAt offset m root i = 0#64)
    {ρ : List Index} {n : Nat} (h : follow (edge offset m) root ρ = some n) : ρ = [] ∧ n = root := by
  cases ρ with
  | nil => exact ⟨rfl, (Option.some.inj h).symm⟩
  | cons i ρ =>
      simp only [follow, edge_of_zero (hzero i), Option.bind_none] at h
      cases h

theorem intact_fresh {offset root : Nat} {m : Memory} {free : FreeStack} (hroot : IsTable root)
    (hzero : ∀ i, entryAt offset m root i = 0#64) (hfresh : root ∉ free.frames)
    (hnodup : free.frames.Nodup) (hframes : ∀ f ∈ free.frames, IsFrame f) :
    Intact offset root ⟨m, free⟩ := by
  refine ⟨hroot, ?_, ?_, ?_, hnodup, hframes⟩
  · intro π ρ n _ _ hπ hρ
    rw [(follow_fresh hzero hπ).1, (follow_fresh hzero hρ).1]
  · intro ρ n _ h
    obtain ⟨rfl, rfl⟩ := follow_fresh hzero h
    exact ⟨hroot, hfresh⟩
  · intro ρ n i _ h
    obtain ⟨rfl, rfl⟩ := follow_fresh hzero h
    exact Or.inl (hzero i)

end DavOS
