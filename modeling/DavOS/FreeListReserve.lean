import DavOS.FreeListRelease

/-! `allocate` on a well-ordered free list: which block first fit takes, and
what the two ways of reserving it leave behind. -/
namespace DavOS
open MachineWord ByteMemory LinkedSegment FreeBlockHeader

section

variable {m : VirtualMemory} {head : Nat} {L before after : List Block} {b q : Block} {request : Nat}

theorem first_fit_cases (L : List Block) (k : Nat) :
    (∃ before b after, L = before ++ b :: after ∧ (∀ d ∈ before, d.size < k) ∧ k ≤ b.size) ∨
      ∀ d ∈ L, d.size < k := by
  cases hfind : L.find? fun d => decide (k ≤ d.size) with
  | none =>
      refine Or.inr fun d hd => ?_
      have := List.find?_eq_none.mp hfind d hd
      simpa using this
  | some b =>
      obtain ⟨hb, before, after, rfl, hbefore⟩ := List.find?_eq_some_iff_append.mp hfind
      refine Or.inl ⟨before, b, after, rfl, fun d hd => ?_, of_decide_eq_true hb⟩
      have := hbefore d hd
      simpa using this

/-- First fit passes the blocks that are too small and stands at the next one, or at the null pointer. -/
theorem findFit_eq (h : Chained m head (before ++ after)) (ho : Ordered (before ++ after))
    (hbefore : ∀ d ∈ before, d.size < wrap (request + 16))
    (hafter : ∀ b rest, after = b :: rest → wrap (request + 16) ≤ b.size) {fuel : Nat} (hfuel : before.length < fuel) :
    findFit m request fuel head = some (firstAddr after) := by
  induction before generalizing head fuel with
  | nil =>
      obtain ⟨fuel, rfl⟩ := Nat.exists_eq_succ_of_ne_zero (Nat.ne_of_gt hfuel)
      have hhead : head = firstAddr after := h.head_eq
      have hstop : ¬ (head ≠ 0 ∧ ¬ canFit m head request = true) := by
        rintro ⟨hne, hsmall⟩
        rcases firstAddr_cases after with ⟨_, h0⟩ | ⟨b, rest, rfl, hb⟩
        · exact hne (hhead.trans h0)
        · have hsize : size m b.addr = b.size := h.sizes b (by simp)
          apply hsmall
          rw [hhead, hb]
          simp only [canFit, UsedBlockHeader.bytes, hsize, decide_eq_true_eq]
          exact hafter b rest rfl
      rw [findFit, if_neg hstop, hhead]
  | cons b before ih =>
      obtain ⟨fuel, rfl⟩ := Nat.exists_eq_succ_of_ne_zero (Nat.ne_of_gt (Nat.zero_lt_of_lt hfuel))
      have hb : head = b.addr := h.head_eq
      have hsize : size m b.addr = b.size := h.sizes b (by simp)
      have hsmall := hbefore b List.mem_cons_self
      have hgo : head ≠ 0 ∧ ¬ canFit m head request = true := by
        rw [hb]
        refine ⟨ho.nonnull b (by simp), ?_⟩
        simp only [canFit, UsedBlockHeader.bytes, hsize, decide_eq_true_eq]
        omega
      have hrest : Chained m (next m b.addr) (before ++ after) := Chained.tail h
      rw [findFit, if_pos hgo, hb]
      exact ih hrest (ho.sublist (List.sublist_cons_self b _))
        (fun d hd => hbefore d (List.mem_cons_of_mem b hd)) (Nat.lt_of_succ_lt_succ hfuel)

theorem findFit_first (h : Chained m head (before ++ b :: after)) (ho : Ordered (before ++ b :: after))
    (hbefore : ∀ d ∈ before, d.size < wrap (request + 16)) (hfit : wrap (request + 16) ≤ b.size) :
    findFit m request loopFuel head = some b.addr := by
  have hlength := ho.length_lt
  rw [List.length_append] at hlength
  refine findFit_eq h ho hbefore ?_ (by omega)
  intro c rest hc
  rw [← (List.cons.inj hc).1]
  exact hfit

theorem findFit_none (h : Chained m head L) (ho : Ordered L) (hnone : ∀ d ∈ L, d.size < wrap (request + 16)) :
    findFit m request loopFuel head = some 0 := by
  have hlength := ho.length_lt
  rw [← List.append_nil L] at h ho
  exact findFit_eq h ho hnone (fun b rest hnil => nomatch hnil) hlength

/-! ### Used headers -/

theorem used_construct_self (block : Nat) (hr : request < 2 ^ 64) :
    UsedBlockHeader.size (UsedBlockHeader.construct m block request) block = request ∧
      UsedBlockHeader.magic (UsedBlockHeader.construct m block request) block = UsedBlockHeader.magicConstant := by
  unfold UsedBlockHeader.construct UsedBlockHeader.size UsedBlockHeader.magic
  constructor
  · rw [load64_store64_of_disjoint _ (by omega), load64_store64 _ hr]
  · rw [load64_store64 _ (by decide)]

theorem used_construct_other {block x : Nat} (h : x < block ∨ block + 16 ≤ x) :
    UsedBlockHeader.construct m block request x = m x := by
  unfold UsedBlockHeader.construct
  rw [store64_other _ (by omega), store64_other _ (by omega)]

theorem used_construct_clear (request : Nat) {block x : Nat} (h : x + 24 ≤ block ∨ block + 16 ≤ x) :
    size (UsedBlockHeader.construct m block request) x = size m x ∧
      next (UsedBlockHeader.construct m block request) x = next m x := by
  constructor
  · exact load64_congr fun y hy hy' => used_construct_other (by omega)
  · exact load64_congr fun y hy hy' => used_construct_other (by omega)

/-! ### Taking the end of a block -/

theorem reserveEnd_spec (h : Chained m head (before ++ b :: after)) (ho : Ordered (before ++ b :: after))
    (hfit : request + 16 < b.size) :
    ∃ m', reserveEnd m b.addr request = (b.stop - (request + 16), m') ∧
      Chained m' head (before ++ ⟨b.addr, b.size - (request + 16)⟩ :: after) ∧
      UsedBlockHeader.size m' (b.stop - (request + 16)) = request ∧
      UsedBlockHeader.magic m' (b.stop - (request + 16)) = UsedBlockHeader.magicConstant ∧
      ∀ x, ¬ b.Has x → m' x = m x := by
  obtain ⟨_, hnull, hstop, hlow, hhigh⟩ := ordered_append_cons.mp ho
  have hsize : size m b.addr = b.size := h.sizes b (by simp)
  have hsizeLt : b.size < 2 ^ 64 := by
    unfold Block.stop at hstop
    omega
  have halloc : wrap (request + UsedBlockHeader.bytes) = request + 16 := wrap_of_lt (by
    simp only [UsedBlockHeader.bytes]
    omega)
  have haddr : wrapSub (wrap (b.addr + FreeBlockHeader.bytes + b.size)) (request + 16) =
      b.stop - (request + 16) := by
    simp only [Block.stop, FreeBlockHeader.bytes, wrap, wrapSub] at hstop ⊢
    omega
  have hroom : b.addr + 24 ≤ b.stop - (request + 16) := by
    unfold Block.stop
    omega
  -- the used header lies in the body of the block, so every free header keeps its fields
  have hfields : ∀ d ∈ before ++ b :: after,
      size (UsedBlockHeader.construct m (b.stop - (request + 16)) request) d.addr = size m d.addr ∧
      next (UsedBlockHeader.construct m (b.stop - (request + 16)) request) d.addr = next m d.addr := by
    intro d hd
    apply used_construct_clear
    rcases List.mem_append.mp hd with hd | hd
    · have := hlow d hd
      unfold Block.stop at this
      omega
    · rcases List.mem_cons.mp hd with rfl | hd
      · omega
      · have := hhigh d hd
        omega
  have hnew : wrapSub (size (UsedBlockHeader.construct m (b.stop - (request + 16)) request) b.addr)
      (request + 16) = b.size - (request + 16) := by
    rw [(hfields b (by simp)).1, hsize, wrapSub_of_le hsizeLt (by omega)]
  refine ⟨setSize (UsedBlockHeader.construct m (b.stop - (request + 16)) request) b.addr
    (b.size - (request + 16)), ?_, ?_, ?_, ?_, ?_⟩
  · unfold reserveEnd
    simp only [halloc, hsize, haddr, hnew]
  · refine (h.congr hfields).edit rfl (size_setSize (by omega)) ?_ ?_
    · intro d hd
      have hd' := ho.clear_of_mem hd
      exact ⟨size_setSize_of_clear hd', next_setSize (Or.inr hd')⟩
    · rw [next_setSize (Or.inl rfl)]
      exact (chained_append_cons.mp (h.congr hfields)).2.2.2
  · unfold UsedBlockHeader.size setSize
    rw [load64_store64_of_disjoint _ (by omega)]
    exact (used_construct_self _ (by omega)).1
  · unfold UsedBlockHeader.magic setSize
    rw [load64_store64_of_disjoint _ (by omega)]
    exact (used_construct_self _ (by omega)).2
  · intro x hx
    unfold Block.Has at hx
    rw [(set_other (by unfold Block.stop at hx; omega)).1, used_construct_other (by omega)]

/-! ### Taking a whole block -/

theorem Chained.successor (h : Chained m head (before ++ b :: after)) (ho : Ordered (before ++ b :: after))
    (hne : next m b.addr ≠ 0) :
    b.stop ≤ next m b.addr ∧ ∀ d ∈ before ++ b :: after, d.addr ≤ b.addr ∨ next m b.addr ≤ d.addr := by
  obtain ⟨_, _, _, hlow, hhigh⟩ := ordered_append_cons.mp ho
  have hnext := h.next_eq
  cases after with
  | nil => exact absurd hnext hne
  | cons c rest =>
      have hc : next m b.addr = c.addr := hnext
      have hsorted := List.pairwise_cons.mp (List.pairwise_cons.mp (List.pairwise_append.mp ho.sorted).2.1).2
      rw [hc]
      refine ⟨hhigh c List.mem_cons_self, ?_⟩
      intro d hd
      rcases List.mem_append.mp hd with hd | hd
      · have := hlow d hd
        unfold Block.stop at this
        omega
      · rcases List.mem_cons.mp hd with rfl | hd
        · omega
        · rcases List.mem_cons.mp hd with rfl | hd
          · omega
          · have := hsorted.1 d hd
            unfold Block.stop at this
            omega

theorem Chained.pred_unique (h : Chained m head (before ++ q :: b :: after))
    (ho : Ordered (before ++ q :: b :: after)) {d : Block} (hd : d ∈ before ++ q :: b :: after)
    (hnext : next m d.addr = b.addr) : d.addr = q.addr := by
  have hbnull : b.addr ≠ 0 := ho.nonnull b (by simp)
  have hq : next m q.addr = b.addr := h.next_eq
  obtain ⟨_, hqnear⟩ := h.successor ho (by rw [hq]; exact hbnull)
  obtain ⟨L₁, L₂, hsplit⟩ := List.append_of_mem hd
  have hq' : q ∈ L₁ ++ d :: L₂ := hsplit ▸ (by simp)
  have hd' := hqnear d hd
  rw [hsplit] at h ho
  obtain ⟨hdstop, hdnear⟩ := h.successor ho (by rw [hnext]; exact hbnull)
  have hqd := hdnear q hq'
  rw [hnext] at hdstop hqd
  rw [hq] at hd'
  have hqlt : q.addr < b.addr := by
    rw [← hsplit] at ho
    have := (ordered_append_cons.mp ho).2.2.2.2 b List.mem_cons_self
    unfold Block.stop at this
    omega
  unfold Block.stop at hdstop
  omega

theorem unlink_eq (ho : Ordered (before ++ q :: b :: after)) (hprev : prev m b.addr = q.addr) :
    unlink m b.addr = if next m b.addr ≠ 0 then
      setPrev (setNext m q.addr (next m b.addr)) (next m b.addr) q.addr
    else setNext m q.addr (next m b.addr) := by
  have hqnull : q.addr ≠ 0 := ho.nonnull q (by simp)
  have hclear : Clear b.addr q.addr := ho.clear_of_mem (by simp)
  unfold unlink
  simp only [hprev, ne_eq, hqnull, not_false_iff, if_true, next_setNext_of_clear hclear,
    prev_setNext (Or.inr hclear)]

theorem sublist_skip (before : List Block) (q b : Block) (after : List Block) :
    (before ++ q :: after).Sublist (before ++ q :: b :: after) :=
  List.Sublist.append_left ((List.sublist_cons_self b after).cons_cons q) before

theorem Chained.next_second (h : Chained m head (before ++ q :: b :: after)) : next m b.addr = firstAddr after := by
  rw [← List.singleton_append, ← List.append_assoc] at h
  rw [h.next_eq]
  cases after <;> rfl

theorem Ordered.clear_second (ho : Ordered (before ++ q :: b :: after)) {d : Block} (hd : d ∈ before ++ q :: after) :
    Clear d.addr b.addr := by
  rw [← List.singleton_append, ← List.append_assoc] at ho hd
  exact ho.clear_of_mem hd

theorem reserveEntire_spec (h : Chained m head (before ++ q :: b :: after))
    (ho : Ordered (before ++ q :: b :: after)) (hprev : prev m b.addr = q.addr) (hr : request < 2 ^ 64) :
    ∃ m', reserveEntire m b.addr request = (b.addr, m') ∧ Chained m' head (before ++ q :: after) ∧
      UsedBlockHeader.size m' b.addr = request ∧
      UsedBlockHeader.magic m' b.addr = UsedBlockHeader.magicConstant ∧
      ∀ x, (∀ d ∈ before ++ q :: b :: after, x < d.addr ∨ d.addr + 24 ≤ x) → m' x = m x := by
  have hnextEq := h.next_second
  have hmem : ∀ d ∈ before ++ q :: after, d ∈ before ++ q :: b :: after :=
    fun d hd => (sublist_skip before q b after).subset hd
  have hqclear : ∀ d ∈ before ++ after, Clear d.addr q.addr := by
    intro d hd
    exact ho.clear_of_mem ((List.Sublist.append_left (List.sublist_cons_self b after) before).subset hd)
  have hfirst : ∀ d ∈ before ++ q :: after, firstAddr after = 0 ∨ d.addr = firstAddr after ∨
      Clear d.addr (firstAddr after) := by
    intro d hd
    rcases firstAddr_cases after with ⟨_, h0⟩ | ⟨c, rest, rfl, hc⟩
    · exact Or.inl h0
    · rw [hc]
      exact Or.inr (ho.clear (hmem d hd) (by simp))
  refine ⟨UsedBlockHeader.construct (unlink m b.addr) b.addr request, rfl, ?_, (used_construct_self _ hr).1,
    (used_construct_self _ hr).2, ?_⟩
  · -- sizes stay, and only the predecessor's next pointer moves
    have hused : ∀ d ∈ before ++ q :: after,
        size (UsedBlockHeader.construct (unlink m b.addr) b.addr request) d.addr = size m d.addr ∧
        next (UsedBlockHeader.construct (unlink m b.addr) b.addr request) d.addr =
          next (setNext m q.addr (firstAddr after)) d.addr := by
      intro d hd
      have hclear := ho.clear_second hd
      have hoff : d.addr + 24 ≤ b.addr ∨ b.addr + 16 ≤ d.addr := by
        unfold Clear at hclear
        omega
      obtain ⟨hsize, hnext⟩ := used_construct_clear (m := unlink m b.addr) request hoff
      have hqd := ho.clear (hmem d hd) (show q ∈ before ++ q :: b :: after by simp)
      rw [hsize, hnext, unlink_eq ho hprev, hnextEq]
      by_cases h0 : firstAddr after = 0
      · rw [if_neg (by simp [h0]), size_setNext hqd]
        exact ⟨rfl, rfl⟩
      · have hf := (hfirst d hd).resolve_left h0
        rw [if_pos h0, size_setPrev hf, next_setPrev hf, size_setNext hqd]
        exact ⟨rfl, rfl⟩
    have hlt : firstAddr after < 2 ^ 64 := by
      rw [← hnextEq]
      exact load64_lt m _
    have hqnext := (hused q (by simp)).2
    rw [next_setNext hlt] at hqnext
    refine h.edit rfl ((hused q (by simp)).1.trans (h.sizes q (by simp))) ?_ ?_
    · intro d hd
      obtain ⟨hsize, hnext⟩ := hused d (by
        simp only [List.mem_append, List.mem_cons] at hd ⊢
        exact hd.imp_right Or.inr)
      exact ⟨hsize, hnext.trans (next_setNext_of_clear (hqclear d hd))⟩
    · rw [hqnext, ← hnextEq]
      rw [← List.singleton_append, ← List.append_assoc] at h
      exact (chained_append_cons.mp h).2.2.2
  · intro x hx
    have hxb := hx b (by simp)
    rw [used_construct_other (by omega), unlink_eq ho hprev, hnextEq]
    rcases firstAddr_cases after with ⟨_, h0⟩ | ⟨c, rest, rfl, hc⟩
    · rw [if_neg (by simp [h0]), (set_other (hx q (by simp))).2.1]
    · have hcnull : c.addr ≠ 0 := ho.nonnull c (by simp)
      rw [hc, if_pos hcnull, (set_other (hx c (by simp))).2.2, (set_other (hx q (by simp))).2.1]

/-- The head block taken whole: the blocks after it stay as they are, and the
next pointer read from it afterwards is the magic word. -/
theorem reserveEntire_head (h : Chained m head (b :: after)) (ho : Ordered (b :: after))
    (hprev : prev m b.addr = 0) (hr : request < 2 ^ 64) :
    ∃ m', reserveEntire m b.addr request = (b.addr, m') ∧ Chained m' (firstAddr after) after ∧
      next m' b.addr = UsedBlockHeader.magicConstant ∧ UsedBlockHeader.size m' b.addr = request ∧
      ∀ x, (∀ d ∈ b :: after, x < d.addr ∨ d.addr + 24 ≤ x) → m' x = m x := by
  have hsplit : Chained m head ([b] ++ after) := h
  have hafter : Chained m (firstAddr after) after := hsplit.suffix
  have hnextEq : next m b.addr = firstAddr after := h.tail.head_eq
  have hunlink : unlink m b.addr = if firstAddr after ≠ 0 then setPrev m (firstAddr after) 0 else m := by
    unfold unlink
    simp only [hprev, hnextEq, ne_eq, not_true, if_false]
  refine ⟨UsedBlockHeader.construct (unlink m b.addr) b.addr request, rfl, ?_, (used_construct_self _ hr).2,
    (used_construct_self _ hr).1, ?_⟩
  · refine hafter.congr fun d hd => ?_
    have hclear : d.addr + 24 ≤ b.addr ∨ b.addr + 16 ≤ d.addr := by
      have := (List.pairwise_cons.mp ho.sorted).1 d hd
      unfold Block.stop at this
      omega
    obtain ⟨hsize, hnext⟩ := used_construct_clear (m := unlink m b.addr) request hclear
    rw [hsize, hnext, hunlink]
    rcases firstAddr_cases after with ⟨_, h0⟩ | ⟨c, rest, rfl, hc⟩
    · rw [if_neg (by simp [h0])]
      exact ⟨rfl, rfl⟩
    · have hdc := ho.clear (List.mem_cons_of_mem b hd) (show c ∈ b :: c :: rest by simp)
      rw [hc, if_pos (ho.nonnull c (by simp)), size_setPrev hdc, next_setPrev hdc]
      exact ⟨rfl, rfl⟩
  · intro x hx
    have hxb := hx b (by simp)
    rw [used_construct_other (by omega), hunlink]
    rcases firstAddr_cases after with ⟨_, h0⟩ | ⟨c, rest, rfl, hc⟩
    · rw [if_neg (by simp [h0])]
    · rw [hc, if_pos (ho.nonnull c (by simp)), (set_other (hx c (by simp))).2.2]

end

/-! ### The whole of `allocate` -/

/-- A block handed out to a client: the pointer it got and the size it asked for. -/
structure LiveBlock where
  base : Nat
  request : Nat
  deriving DecidableEq

/-- The bytes of a live block, its header included. -/
def LiveBlock.Has (l : LiveBlock) (x : Nat) : Prop := l.base ≤ x + 16 ∧ x < l.base + l.request

/-- When the first block that fits does so perfectly, it is not the head of the
list and its previous pointer is the block before it. -/
def PerfectFitLinked (s : FreeListAllocator) (request : Nat) : Prop :=
  ∀ b, findFit s.mem request loopFuel s.head = some b → b ≠ 0 → perfectFit s.mem b request = true →
    b ≠ s.head ∧ Reachable (next s.mem) s.head (prev s.mem b) ∧ next s.mem (prev s.mem b) = b

section

variable {s s' : FreeListAllocator} {L : List Block} {request p : Nat}

theorem Chained.mem_reachable (h : Chained s.mem s.head L) (ho : Ordered L) {x : Nat} :
    Reachable (next s.mem) s.head x ↔ ∃ b ∈ L, b.addr = x := by
  rw [h.links.reachable_iff]
  · exact List.mem_map
  · intro y hy
    obtain ⟨b, hb, rfl⟩ := List.mem_map.mp hy
    exact ho.nonnull b hb

theorem allocate_eq {before after : List Block} {b : Block} (h : Chained s.mem s.head (before ++ b :: after))
    (ho : Ordered (before ++ b :: after)) (hbefore : ∀ d ∈ before, d.size < wrap (request + 16))
    (hfit : wrap (request + 16) ≤ b.size) :
    findFit s.mem request loopFuel s.head = some b.addr ∧
      s.allocate request = .ok (if wrap (request + 16) = b.size then
        (wrap (b.addr + 16), ⟨(reserveEntire s.mem b.addr request).2,
          if b.addr = s.head then next (reserveEntire s.mem b.addr request).2 b.addr else s.head⟩)
      else (wrap ((reserveEnd s.mem b.addr request).1 + 16), ⟨(reserveEnd s.mem b.addr request).2, s.head⟩)) := by
  have hfind := findFit_first h ho hbefore hfit
  have hnull : b.addr ≠ 0 := ho.nonnull b (by simp)
  have hsize : size s.mem b.addr = b.size := h.sizes b (by simp)
  refine ⟨hfind, ?_⟩
  unfold FreeListAllocator.allocate
  rw [hfind]
  change (if b.addr = 0 then _ else _) = _
  rw [if_neg hnull]
  by_cases hperfect : wrap (request + 16) = b.size
  · have hp : perfectFit s.mem b.addr request = true := by
      simp only [perfectFit, UsedBlockHeader.bytes, hsize, decide_eq_true_eq]
      exact hperfect
    rw [if_pos hp, if_pos hperfect]
    rfl
  · have hp : ¬ perfectFit s.mem b.addr request = true := by
      simp only [perfectFit, UsedBlockHeader.bytes, hsize, decide_eq_true_eq]
      exact hperfect
    rw [if_neg hp, if_neg hperfect]
    rfl

theorem allocate_none (h : Chained s.mem s.head L) (ho : Ordered L) (hnone : ∀ d ∈ L, d.size < wrap (request + 16)) :
    s.allocate request = .error (.panic "ran out of virtual memory!\n") := by
  unfold FreeListAllocator.allocate
  rw [findFit_none h ho hnone]
  rfl

theorem allocate_cases (h : Chained s.mem s.head L) (ho : Ordered L) (hr : request + 16 < 2 ^ 64)
    (hs : s.allocate request = .ok (p, s')) :
    ∃ before b after, L = before ++ b :: after ∧ findFit s.mem request loopFuel s.head = some b.addr ∧
      ((request + 16 < b.size ∧ p = wrap ((reserveEnd s.mem b.addr request).1 + 16) ∧
          s' = ⟨(reserveEnd s.mem b.addr request).2, s.head⟩) ∨
        (request + 16 = b.size ∧ p = wrap (b.addr + 16) ∧
          s' = ⟨(reserveEntire s.mem b.addr request).2,
            if b.addr = s.head then next (reserveEntire s.mem b.addr request).2 b.addr else s.head⟩)) := by
  have hwrap : wrap (request + 16) = request + 16 := wrap_of_lt hr
  rcases first_fit_cases L (wrap (request + 16)) with ⟨before, b, after, rfl, hbefore, hfit⟩ | hnone
  · obtain ⟨hfind, hok⟩ := allocate_eq h ho hbefore hfit
    refine ⟨before, b, after, rfl, hfind, ?_⟩
    rw [hok, hwrap] at hs
    rw [hwrap] at hfit
    split at hs
    · rename_i hperfect
      cases hs
      exact Or.inr ⟨hperfect, rfl, rfl⟩
    · rename_i hlarger
      cases hs
      exact Or.inl ⟨by omega, rfl, rfl⟩
  · rw [allocate_none h ho hnone] at hs
    cases hs

/-- What is left of the list after an allocation, and what the client gets. -/
structure Taken (L L' : List Block) (s s' : FreeListAllocator) (l : LiveBlock) : Prop where
  chained : Chained s'.mem s'.head L'
  ordered : Ordered L'
  inside : ∀ x, l.Has x → Covered L x
  remaining : ∀ x, Covered L' x → Covered L x ∧ ¬ l.Has x
  headers : ∀ b ∈ L', ∃ d ∈ L, d.addr = b.addr
  header : 16 < l.base ∧ UsedBlockHeader.size s'.mem (l.base - 16) = l.request ∧
    UsedBlockHeader.magic s'.mem (l.base - 16) = UsedBlockHeader.magicConstant
  bounded : l.base + l.request ≤ 2 ^ 64
  frame : ∀ x, ¬ Covered L x → s'.mem x = s.mem x

theorem not_header_of_not_covered {x : Nat} (hx : ¬ Covered L x) :
    ∀ d ∈ L, x < d.addr ∨ d.addr + 24 ≤ x := by
  intro d hd
  by_contra hc
  refine hx ⟨d, hd, ?_⟩
  unfold Block.Has Block.stop
  omega

theorem Ordered.shrink {before after : List Block} {b : Block} {k : Nat} (ho : Ordered (before ++ b :: after)) :
    Ordered (before ++ ⟨b.addr, b.size - k⟩ :: after) := by
  obtain ⟨hrest, hnull, hstop, hlow, hhigh⟩ := ordered_append_cons.mp ho
  refine ordered_append_cons.mpr ⟨hrest, hnull, ?_, hlow, ?_⟩
  · simp only [Block.stop] at hstop ⊢
    omega
  · intro d hd
    have := hhigh d hd
    simp only [Block.stop] at this ⊢
    omega

theorem covered_shrink {before after : List Block} {b : Block} {k x : Nat} (ho : Ordered (before ++ b :: after))
    (hk : k ≤ b.size) : Covered (before ++ ⟨b.addr, b.size - k⟩ :: after) x ↔
      Covered (before ++ b :: after) x ∧ ¬ (b.stop ≤ x + k ∧ x < b.stop) := by
  obtain ⟨_, _, _, hlow, hhigh⟩ := ordered_append_cons.mp ho
  have hbelow : Covered before x → ¬ (b.stop ≤ x + k ∧ x < b.stop) := by
    rintro ⟨d, hd, hx⟩
    have := hlow d hd
    unfold Block.Has at hx
    unfold Block.stop at hx this ⊢
    omega
  have habove : Covered after x → ¬ (b.stop ≤ x + k ∧ x < b.stop) := by
    rintro ⟨d, hd, hx⟩
    have := hhigh d hd
    unfold Block.Has at hx
    omega
  have hself : Block.Has ⟨b.addr, b.size - k⟩ x ↔ b.Has x ∧ ¬ (b.stop ≤ x + k ∧ x < b.stop) := by
    simp only [Block.Has, Block.stop]
    omega
  rw [covered_append, covered_cons, covered_append, covered_cons, hself, or_and_right, or_and_right,
    and_iff_left_of_imp hbelow, and_iff_left_of_imp habove]

theorem covered_remove {before after : List Block} {b : Block} {x : Nat} (ho : Ordered (before ++ b :: after))
    (hx : Covered (before ++ after) x) : Covered (before ++ b :: after) x ∧ ¬ b.Has x := by
  obtain ⟨_, _, _, hlow, hhigh⟩ := ordered_append_cons.mp ho
  obtain ⟨d, hd, hx⟩ := hx
  refine ⟨⟨d, (List.Sublist.append_left (List.sublist_cons_self b after) before).subset hd, hx⟩, ?_⟩
  unfold Block.Has at hx ⊢
  rcases List.mem_append.mp hd with hd | hd
  · have := hlow d hd
    omega
  · have := hhigh d hd
    omega

theorem reserveEnd_taken {before after : List Block} {b : Block} (h : Chained s.mem s.head (before ++ b :: after))
    (ho : Ordered (before ++ b :: after)) (hend : b.stop < 2 ^ 64 + request) (hlt : request + 16 < b.size) :
    ∃ L', Taken (before ++ b :: after) L' s ⟨(reserveEnd s.mem b.addr request).2, s.head⟩
      ⟨wrap ((reserveEnd s.mem b.addr request).1 + 16), request⟩ := by
  obtain ⟨_, _, hstop, _, _⟩ := ordered_append_cons.mp ho
  have hmemb : ∀ x, b.Has x → Covered (before ++ b :: after) x := fun x hx => ⟨b, by simp, hx⟩
  obtain ⟨m', hreserve, hchained, hused, hmagic, hframe⟩ := reserveEnd_spec h ho hlt
  have hp : wrap (b.stop - (request + 16) + 16) = b.stop - request := by
    unfold Block.stop at hend ⊢
    rw [wrap_of_lt (by omega)]
    omega
  have hp16 : b.stop - request - 16 = b.stop - (request + 16) := by omega
  rw [hreserve]
  dsimp only
  rw [hp]
  refine ⟨before ++ ⟨b.addr, b.size - (request + 16)⟩ :: after, hchained, ho.shrink, ?_, ?_, ?_, ?_, ?_, ?_⟩
  · intro x hx
    apply hmemb
    simp only [LiveBlock.Has, Block.Has, Block.stop] at hx ⊢
    omega
  · intro x hx
    obtain ⟨hcovered, hlost⟩ := (covered_shrink ho (Nat.le_of_lt hlt)).mp hx
    refine ⟨hcovered, fun hlive => hlost ?_⟩
    simp only [LiveBlock.Has, Block.stop] at hlive ⊢
    omega
  · intro c hc
    rcases List.mem_append.mp hc with hc | hc
    · exact ⟨c, List.mem_append_left _ hc, rfl⟩
    · rcases List.mem_cons.mp hc with rfl | hc
      · exact ⟨b, by simp, rfl⟩
      · exact ⟨c, by simp [hc], rfl⟩
  · dsimp only
    rw [hp16]
    refine ⟨?_, hused, hmagic⟩
    unfold Block.stop
    omega
  · dsimp only
    unfold Block.stop at hstop ⊢
    omega
  · exact fun x hx => hframe x fun hb => hx (hmemb x hb)

theorem reserveEntire_taken {before after : List Block} {b q : Block}
    (h : Chained s.mem s.head (before ++ q :: b :: after)) (ho : Ordered (before ++ q :: b :: after))
    (hprev : prev s.mem b.addr = q.addr) (hperfect : request + 16 = b.size) :
    ∃ L', Taken (before ++ q :: b :: after) L' s ⟨(reserveEntire s.mem b.addr request).2, s.head⟩
      ⟨wrap (b.addr + 16), request⟩ := by
  have hsplit : before ++ q :: b :: after = (before ++ [q]) ++ b :: after := by simp
  have hsplit' : before ++ q :: after = (before ++ [q]) ++ after := by simp
  have hstop : b.stop ≤ 2 ^ 64 ∧ b.addr ≠ 0 := by
    rw [hsplit] at ho
    obtain ⟨_, hnull, hstop, _, _⟩ := ordered_append_cons.mp ho
    exact ⟨hstop, hnull⟩
  unfold Block.stop at hstop
  have hr64 : request < 2 ^ 64 := by omega
  obtain ⟨m', hreserve, hchained, hused, hmagic, hframe⟩ := reserveEntire_spec h ho hprev hr64
  have hp : wrap (b.addr + 16) = b.addr + 16 := wrap_of_lt (by omega)
  have hsub := sublist_skip before q b after
  rw [hreserve, hp]
  refine ⟨before ++ q :: after, hchained, ho.sublist hsub, ?_, ?_, ?_, ⟨?_, hused, hmagic⟩, ?_, ?_⟩
  · intro x hx
    refine ⟨b, by simp, ?_⟩
    simp only [LiveBlock.Has, Block.Has, Block.stop] at hx ⊢
    omega
  · intro x hx
    rw [hsplit] at ho ⊢
    rw [hsplit'] at hx
    obtain ⟨hcovered, hlost⟩ := covered_remove ho hx
    refine ⟨hcovered, fun hlive => hlost ?_⟩
    simp only [LiveBlock.Has, Block.Has, Block.stop] at hlive ⊢
    omega
  · exact fun c hc => ⟨c, hsub.subset hc, rfl⟩
  · dsimp only
    omega
  · dsimp only
    omega
  · exact fun x hx => hframe x (not_header_of_not_covered hx)

theorem allocate_spec (h : Chained s.mem s.head L) (ho : Ordered L) (hend : ∀ b ∈ L, b.stop < 2 ^ 64 + request)
    (hr : request + 16 < 2 ^ 64) (hlinked : PerfectFitLinked s request)
    (hs : s.allocate request = .ok (p, s')) : ∃ L', Taken L L' s s' ⟨p, request⟩ := by
  obtain ⟨before, b, after, rfl, hfind, hcases⟩ := allocate_cases h ho hr hs
  have hnull : b.addr ≠ 0 := ho.nonnull b (by simp)
  have hbsize : size s.mem b.addr = b.size := h.sizes b (by simp)
  rcases hcases with ⟨hlt, rfl, rfl⟩ | ⟨hperfect, rfl, rfl⟩
  · exact reserveEnd_taken h ho (hend b (by simp)) hlt
  · obtain ⟨hhead, hreach, hnext⟩ := hlinked b.addr hfind hnull (by
      simp only [perfectFit, UsedBlockHeader.bytes, hbsize, wrap_of_lt hr, decide_eq_true_eq]
      exact hperfect)
    -- the block is not the first, so it has a predecessor, and the previous pointer is that one
    rcases List.eq_nil_or_concat' before with rfl | ⟨init, q, rfl⟩
    · exact absurd h.links.1.symm hhead
    · rw [List.append_assoc, List.singleton_append] at h ho ⊢
      obtain ⟨d, hd, hdprev⟩ := (h.mem_reachable ho).mp hreach
      have hprev : prev s.mem b.addr = q.addr := by
        rw [← hdprev] at hnext ⊢
        exact h.pred_unique ho hd hnext
      rw [if_neg hhead]
      exact reserveEntire_taken h ho hprev hperfect

/-- Where in the first fitting block the client's bytes lie: at its end, or at
its start when it is taken whole. -/
theorem allocate_place (h : Chained s.mem s.head L) (ho : Ordered L) (hend : ∀ b ∈ L, b.stop < 2 ^ 64 + request)
    (hr : request + 16 < 2 ^ 64) (hs : s.allocate request = .ok (p, s')) :
    ∃ b, findFit s.mem request loopFuel s.head = some b ∧ b ≠ 0 ∧
      p = if perfectFit s.mem b request then b + 16 else b + 24 + size s.mem b - request := by
  obtain ⟨before, b, after, rfl, hfind, hcases⟩ := allocate_cases h ho hr hs
  obtain ⟨_, hnull, hstop, _, _⟩ := ordered_append_cons.mp ho
  have hbend := hend b (by simp)
  have hbsize : size s.mem b.addr = b.size := h.sizes b (by simp)
  refine ⟨b.addr, hfind, hnull, ?_⟩
  simp only [perfectFit, UsedBlockHeader.bytes, hbsize, wrap_of_lt hr, decide_eq_true_eq]
  rcases hcases with ⟨hlt, rfl, rfl⟩ | ⟨hperfect, rfl, rfl⟩
  · obtain ⟨m', hreserve, _⟩ := reserveEnd_spec h ho hlt
    rw [if_neg (by omega), hreserve]
    unfold Block.stop at hbend ⊢
    rw [wrap_of_lt (by dsimp only; omega)]
    dsimp only
    omega
  · rw [if_pos hperfect]
    unfold Block.stop at hstop
    exact wrap_of_lt (by omega)

end

end DavOS
