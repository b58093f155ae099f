import DavOS.FreeBlocks

/-! `deallocate` on a well-ordered free list: the freed block is linked in at
its place and joined with the neighbours that it touches. -/
namespace DavOS
open MachineWord ByteMemory LinkedSegment FreeBlockHeader

/-! ### Joining two blocks -/

/-- `b` followed by `rest`, joined with the first of them if it begins where `b` stops. -/
def absorbNext (b : Block) : List Block → List Block
  | [] => [b]
  | c :: rest => if b.stop = c.addr then ⟨b.addr, b.size + 24 + c.size⟩ :: rest else b :: c :: rest

section

variable {m : VirtualMemory} {head : Nat} {before after rest : List Block} {a b c u : Block}

theorem absorbNext_cons : absorbNext b (c :: rest) =
    if b.stop = c.addr then ⟨b.addr, b.size + 24 + c.size⟩ :: rest else b :: c :: rest := rfl

theorem covered_append {L M : List Block} {x : Nat} : Covered (L ++ M) x ↔ Covered L x ∨ Covered M x := by
  simp only [Covered, List.mem_append, or_and_right, exists_or]

theorem covered_cons {L : List Block} {x : Nat} : Covered (b :: L) x ↔ b.Has x ∨ Covered L x := by
  simp only [Covered, List.mem_cons, exists_eq_or_imp]

theorem covered_absorbNext {x : Nat} : Covered (absorbNext b after) x ↔ Covered (b :: after) x := by
  cases after with
  | nil => rfl
  | cons c rest =>
      rw [absorbNext_cons]
      split
      · rename_i hstop
        rw [covered_cons, covered_cons, covered_cons, ← or_assoc]
        apply or_congr_left
        simp only [Block.Has, Block.stop] at hstop ⊢
        omega
      · rfl

theorem Ordered.absorbNext (h : Ordered (before ++ b :: after)) : Ordered (before ++ absorbNext b after) := by
  cases after with
  | nil => exact h
  | cons c rest =>
      rw [absorbNext_cons]
      split
      · rename_i hstop
        obtain ⟨h, hnull, _, hbefore, _⟩ := ordered_append_cons.mp h
        obtain ⟨h, _, hcstop, _, hcrest⟩ := ordered_append_cons.mp h
        refine ordered_append_cons.mpr ⟨h, hnull, ?_, hbefore, ?_⟩
        · simp only [Block.stop] at hstop hcstop ⊢
          omega
        · intro d hd
          have := hcrest d hd
          simp only [Block.stop] at hstop this ⊢
          omega
      · exact h

theorem chained_append_cons : Chained m head (before ++ b :: after) ↔
    Segment (next m) head (before.map Block.addr) b.addr ∧ (∀ d ∈ before, size m d.addr = d.size) ∧
      size m b.addr = b.size ∧ Chained m (next m b.addr) after := by
  constructor
  · rintro ⟨hlinks, hsizes⟩
    rw [List.map_append, List.map_cons, segment_append] at hlinks
    obtain ⟨x, hbefore, rfl, hafter⟩ := hlinks
    exact ⟨hbefore, fun d hd => hsizes d (List.mem_append_left _ hd), hsizes b (by simp),
      hafter, fun d hd => hsizes d (by simp [hd])⟩
  · rintro ⟨hbefore, hsizes, hsize, hafter⟩
    refine ⟨?_, ?_⟩
    · rw [List.map_append, List.map_cons, segment_append]
      exact ⟨b.addr, hbefore, rfl, hafter.links⟩
    · intro d hd
      rcases List.mem_append.mp hd with hd | hd
      · exact hsizes d hd
      · rcases List.mem_cons.mp hd with rfl | hd
        · exact hsize
        · exact hafter.sizes d hd

theorem Chained.tail (h : Chained m head (b :: after)) : Chained m (next m b.addr) after := by
  have hnil : Chained m head ([] ++ b :: after) := h
  exact (chained_append_cons.mp hnil).2.2.2

theorem Ordered.clear_of_mem (ho : Ordered (before ++ b :: after)) {d : Block} (hd : d ∈ before ++ after) :
    Clear d.addr b.addr := by
  obtain ⟨_, _, _, hlow, hhigh⟩ := ordered_append_cons.mp ho
  rcases List.mem_append.mp hd with hd | hd
  · have := hlow d hd
    unfold Block.stop at this
    exact Or.inl (by omega)
  · have := hhigh d hd
    unfold Block.stop at this
    exact Or.inr (by omega)

theorem Chained.edit (h : Chained m head (before ++ b :: after)) {m' : VirtualMemory} {b' : Block}
    {after' : List Block} (haddr : b'.addr = b.addr) (hsize : size m' b.addr = b'.size)
    (hkeep : ∀ d ∈ before ++ after', size m' d.addr = size m d.addr ∧ next m' d.addr = next m d.addr)
    (hafter : Chained m (next m' b.addr) after') : Chained m' head (before ++ b' :: after') := by
  obtain ⟨hbefore, hsizes, _, _⟩ := chained_append_cons.mp h
  refine chained_append_cons.mpr ⟨?_, ?_, ?_, ?_⟩
  · rw [haddr]
    refine hbefore.congr ?_
    intro x hx
    obtain ⟨d, hd, rfl⟩ := List.mem_map.mp hx
    exact (hkeep d (List.mem_append_left _ hd)).2
  · exact fun d hd => ((hkeep d (List.mem_append_left _ hd)).1).trans (hsizes d hd)
  · rw [haddr]
    exact hsize
  · rw [haddr]
    exact hafter.congr fun d hd => hkeep d (List.mem_append_right _ hd)

theorem Chained.rewrite (h : Chained m head (before ++ b :: after)) (ho : Ordered (before ++ b :: after))
    {size' next' : Nat} (hsize : size' < 2 ^ 64) (hnext : next' < 2 ^ 64) {after' : List Block}
    (hafter : Chained m next' after') (hsub : after'.Sublist after) :
    Chained (setNext (setSize m b.addr size') b.addr next') head (before ++ ⟨b.addr, size'⟩ :: after') := by
  refine h.edit rfl ?_ ?_ ?_
  · rw [size_setNext (Or.inl rfl), size_setSize hsize]
  · intro d hd
    have hd' := ho.clear_of_mem ((List.Sublist.append_left hsub before).subset hd)
    rw [size_setNext (Or.inr hd'), size_setSize_of_clear hd', next_setNext_of_clear hd',
      next_setSize (Or.inr hd')]
    exact ⟨rfl, rfl⟩
  · rw [next_setNext hnext]
    exact hafter

/-- The two writes by which both coalescing functions join `a` with the block after it. -/
theorem Chained.join (h : Chained m head (before ++ a :: b :: rest)) (ho : Ordered (before ++ a :: b :: rest))
    (hstop : a.stop = b.addr) :
    Chained (setNext (setSize m a.addr (a.size + 24 + b.size)) a.addr (next m b.addr)) head
      (before ++ absorbNext a (b :: rest)) := by
  have hrest : Chained m (next m b.addr) rest := by
    have := (chained_append_cons.mp h).2.2.2
    exact this.tail
  have hbound : b.stop ≤ 2 ^ 64 := ho.bounded b (by simp)
  have ha : a.addr ≠ 0 := ho.nonnull a (by simp)
  have hsize : a.size + 24 + b.size < 2 ^ 64 := by
    simp only [Block.stop] at hstop hbound
    omega
  rw [absorbNext_cons, if_pos hstop]
  exact h.rewrite ho hsize (load64_lt m _) hrest (List.sublist_cons_self b rest)

end

/-! ### The two coalescing steps -/

section

variable {m : VirtualMemory} {head : Nat} {before after : List Block} {b u : Block}

theorem Chained.next_eq (h : Chained m head (before ++ b :: after)) :
    next m b.addr = ((after.map Block.addr).head?).getD 0 := by
  have hlinks := (chained_append_cons.mp h).2.2.2.links
  cases after with
  | nil => exact hlinks
  | cons c rest => exact hlinks.1

theorem realSize_eq (h : size m b.addr = b.size) (hnull : b.addr ≠ 0) (hstop : b.stop ≤ 2 ^ 64) :
    realSize m b.addr = b.size + 24 := by
  unfold realSize
  rw [h, wrap_of_lt]
  simp only [Block.stop] at hstop
  simp only [FreeBlockHeader.bytes]
  omega

/-- Only the header of block `u` differs. -/
def OnlyHeader (u : Nat) (m m' : VirtualMemory) : Prop := ∀ x, x < u ∨ u + 24 ≤ x → m' x = m x

theorem coalesceNext_spec (h : Chained m head (before ++ u :: after)) (ho : Ordered (before ++ u :: after)) :
    Chained (coalesceNext m u.addr) head (before ++ absorbNext u after) ∧
      prev (coalesceNext m u.addr) u.addr = prev m u.addr ∧
      OnlyHeader u.addr m (coalesceNext m u.addr) := by
  have hu := (ordered_append_cons.mp ho).2
  have hreal := realSize_eq (chained_append_cons.mp h).2.2.1 hu.1 hu.2.1
  unfold coalesceNext
  cases after with
  | nil =>
      have hnext : next m u.addr = 0 := h.next_eq
      rw [if_neg (by simp [hnext])]
      exact ⟨h, rfl, fun x _ => rfl⟩
  | cons c rest =>
      have hnext : next m u.addr = c.addr := h.next_eq
      have hcnull : c.addr ≠ 0 := ho.nonnull c (by simp)
      have hcstop : c.stop ≤ 2 ^ 64 := ho.bounded c (by simp)
      have hcsize : size m c.addr = c.size := h.sizes c (by simp)
      have hle : u.stop ≤ c.addr := hu.2.2.2 c (by simp)
      have hend : wrap (u.addr + realSize m u.addr) = u.stop := by
        rw [hreal, wrap_of_lt]
        · unfold Block.stop
          omega
        · simp only [Block.stop] at hcstop hle
          omega
      have hcreal := realSize_eq hcsize hcnull hcstop
      rw [hnext, hend, hcreal]
      by_cases hstop : u.stop = c.addr
      · have hsize : wrap (size m u.addr + (c.size + 24)) = u.size + 24 + c.size := by
          rw [(chained_append_cons.mp h).2.2.1, wrap_of_lt]
          · omega
          · simp only [Block.stop] at hcstop hstop
            omega
        have hclear : Clear c.addr u.addr := by
          unfold Block.stop at hle
          exact Or.inr (by omega)
        rw [if_pos ⟨hcnull, hstop.symm⟩, hsize]
        simp only [next_setSize (m := m) (v := u.size + 24 + c.size) (Or.inl (rfl : u.addr = u.addr)), hnext,
          next_setSize (m := m) (v := u.size + 24 + c.size) (Or.inr hclear)]
        refine ⟨h.join ho hstop, ?_, ?_⟩
        · rw [prev_setNext (Or.inl rfl), prev_setSize (Or.inl rfl)]
        · intro x hx
          rw [(set_other hx).2.1, (set_other hx).1]
      · rw [if_neg (fun hc => hstop hc.2.symm), absorbNext_cons, if_neg hstop]
        exact ⟨h, rfl, fun x _ => rfl⟩

theorem coalescePrev_head (h : prev m u.addr = 0) : coalescePrev m u.addr = m := by
  unfold coalescePrev
  rw [if_neg (by simp [h])]

theorem coalescePrev_spec (h : Chained m head (before ++ b :: u :: after))
    (ho : Ordered (before ++ b :: u :: after)) (hprev : prev m u.addr = b.addr) :
    Chained (coalescePrev m u.addr) head (before ++ absorbNext b (u :: after)) ∧
      OnlyHeader b.addr m (coalescePrev m u.addr) := by
  have hb := (ordered_append_cons.mp ho).2
  have hunull : u.addr ≠ 0 := ho.nonnull u (by simp)
  have hustop : u.stop ≤ 2 ^ 64 := ho.bounded u (by simp)
  have husize : size m u.addr = u.size := h.sizes u (by simp)
  have hbsize := (chained_append_cons.mp h).2.2.1
  have hle : b.stop ≤ u.addr := hb.2.2.2 u (by simp)
  have hend : wrap (b.addr + realSize m b.addr) = b.stop := by
    rw [realSize_eq hbsize hb.1 hb.2.1, wrap_of_lt]
    · unfold Block.stop
      omega
    · simp only [Block.stop] at hustop hle
      omega
  unfold coalescePrev
  rw [hprev, hend, realSize_eq husize hunull hustop]
  by_cases hstop : b.stop = u.addr
  · have hsize : wrap (size m b.addr + (u.size + 24)) = b.size + 24 + u.size := by
      rw [hbsize, wrap_of_lt]
      · omega
      · simp only [Block.stop] at hustop hstop
        omega
    have hclear : Clear u.addr b.addr := by
      unfold Block.stop at hle
      exact Or.inr (by omega)
    rw [if_pos ⟨hb.1, hstop.symm⟩, hsize]
    simp only [prev_setSize (m := m) (v := b.size + 24 + u.size) (Or.inr hclear), hprev,
      next_setSize (m := m) (v := b.size + 24 + u.size) (Or.inr hclear)]
    refine ⟨h.join ho hstop, ?_⟩
    intro x hx
    rw [(set_other hx).2.1, (set_other hx).1]
  · rw [if_neg (fun hc => hstop hc.2.symm), absorbNext_cons, if_neg hstop]
    exact ⟨h, fun x _ => rfl⟩

end

/-! ### Linking the freed block in -/

/-- The address of the first block, null if there is none. -/
def firstAddr (L : List Block) : Nat := (L.head?.map Block.addr).getD 0

/-- The address of the last block, null if there is none. -/
def lastAddr (L : List Block) : Nat := (L.getLast?.map Block.addr).getD 0

/-- The three writes of `deallocate` before it coalesces. -/
def linkBetween (m : VirtualMemory) (block size prev curr : Nat) : VirtualMemory :=
  let m := construct m block size curr prev
  let m := if prev = 0 then m else setNext m prev block
  if curr ≠ 0 then setPrev m curr block else m

section

variable {m : VirtualMemory} {head : Nat} {before after : List Block} {u : Block}

theorem Chained.head_eq {L : List Block} (h : Chained m head L) : head = firstAddr L := by
  have hlinks := h.links
  cases L with
  | nil => exact hlinks
  | cons b L => exact hlinks.1

theorem Chained.suffix (h : Chained m head (before ++ after)) : Chained m (firstAddr after) after := by
  obtain ⟨x, _, hlinks⟩ := (segment_append _ _ _ _ _).mp (List.map_append ▸ h.links)
  have hchained : Chained m x after := ⟨hlinks, fun d hd => h.sizes d (List.mem_append_right _ hd)⟩
  exact hchained.head_eq ▸ hchained

theorem findSpot_eq (h : Chained m head (before ++ after)) (ho : Ordered (before ++ after)) {addr : Nat}
    (hbefore : ∀ b ∈ before, b.addr < addr) (hafter : ∀ b ∈ after, addr ≤ b.addr) {fuel : Nat}
    (hfuel : before.length < fuel) (prev : Nat) :
    findSpot m addr fuel prev head =
      some ((before.getLast?.map Block.addr).getD prev, firstAddr after) := by
  induction before generalizing head fuel prev with
  | nil =>
      obtain ⟨fuel, rfl⟩ := Nat.exists_eq_succ_of_ne_zero (Nat.ne_of_gt hfuel)
      have hhead : head = firstAddr after := h.head_eq
      have hstop : ¬ (head ≠ 0 ∧ head < addr) := by
        rintro ⟨hne, hlt⟩
        cases after with
        | nil => exact hne hhead
        | cons c rest =>
            have := hafter c List.mem_cons_self
            rw [hhead] at hlt
            simp only [firstAddr, List.head?_cons, Option.map_some, Option.getD_some] at hlt
            omega
      rw [findSpot, if_neg hstop, hhead]
      rfl
  | cons b before ih =>
      obtain ⟨fuel, rfl⟩ := Nat.exists_eq_succ_of_ne_zero (Nat.ne_of_gt (Nat.zero_lt_of_lt hfuel))
      have hb : head = b.addr := h.head_eq
      have hgo : head ≠ 0 ∧ head < addr := by
        rw [hb]
        exact ⟨ho.nonnull b (by simp), hbefore b List.mem_cons_self⟩
      have hrest : Chained m (next m b.addr) (before ++ after) :=
        Chained.tail h
      rw [findSpot, if_pos hgo, hb, ih hrest (ho.sublist (List.sublist_cons_self b _))
        (fun c hc => hbefore c (List.mem_cons_of_mem b hc)) (Nat.lt_of_succ_lt_succ hfuel)]
      cases before with
      | nil => rfl
      | cons c before => rfl

theorem size_linkBetween {x block sz p c : Nat} (hp : p = 0 ∨ x = p ∨ Clear x p) (hc : c = 0 ∨ x = c ∨ Clear x c) :
    size (linkBetween m block sz p c) x = size (construct m block sz c p) x := by
  unfold linkBetween
  by_cases hp0 : p = 0 <;> by_cases hc0 : c = 0 <;>
    simp only [hp0, hc0, if_true, if_false, ne_eq, not_true, not_false_iff]
  · rw [size_setPrev (hc.resolve_left hc0)]
  · rw [size_setNext (hp.resolve_left hp0)]
  · rw [size_setPrev (hc.resolve_left hc0), size_setNext (hp.resolve_left hp0)]

theorem next_linkBetween {x block sz p c : Nat} (hp : p = 0 ∨ Clear x p) (hc : c = 0 ∨ x = c ∨ Clear x c) :
    next (linkBetween m block sz p c) x = next (construct m block sz c p) x := by
  unfold linkBetween
  by_cases hp0 : p = 0 <;> by_cases hc0 : c = 0 <;>
    simp only [hp0, hc0, if_true, if_false, ne_eq, not_true, not_false_iff]
  · rw [next_setPrev (hc.resolve_left hc0)]
  · rw [next_setNext_of_clear (hp.resolve_left hp0)]
  · rw [next_setPrev (hc.resolve_left hc0), next_setNext_of_clear (hp.resolve_left hp0)]

theorem next_linkBetween_prev {block sz p c : Nat} (hp : p ≠ 0) (hblock : block < 2 ^ 64)
    (hc : c = 0 ∨ p = c ∨ Clear p c) : next (linkBetween m block sz p c) p = block := by
  unfold linkBetween
  by_cases hc0 : c = 0 <;> simp only [hp, hc0, if_true, if_false, ne_eq, not_true, not_false_iff]
  · rw [next_setNext hblock]
  · rw [next_setPrev (hc.resolve_left hc0), next_setNext hblock]

theorem prev_linkBetween {x block sz p c : Nat} (hp : p = 0 ∨ x = p ∨ Clear x p) (hc : c = 0 ∨ Clear x c) :
    prev (linkBetween m block sz p c) x = prev (construct m block sz c p) x := by
  unfold linkBetween
  by_cases hp0 : p = 0 <;> by_cases hc0 : c = 0 <;>
    simp only [hp0, hc0, if_true, if_false, ne_eq, not_true, not_false_iff]
  · rw [prev_setPrev_of_clear (hc.resolve_left hc0)]
  · rw [prev_setNext (hp.resolve_left hp0)]
  · rw [prev_setPrev_of_clear (hc.resolve_left hc0), prev_setNext (hp.resolve_left hp0)]

theorem linkBetween_other {x block sz p c : Nat} (hblock : x < block ∨ block + 24 ≤ x)
    (hp : p = 0 ∨ x < p ∨ p + 24 ≤ x) (hc : c = 0 ∨ x < c ∨ c + 24 ≤ x) :
    linkBetween m block sz p c x = m x := by
  have hconstruct : ∀ nxt prv, construct m block sz nxt prv x = m x := by
    intro nxt prv
    unfold construct
    rw [(set_other hblock).2.2, (set_other hblock).2.1, (set_other hblock).1]
  unfold linkBetween
  by_cases hp0 : p = 0 <;> by_cases hc0 : c = 0 <;>
    simp only [hp0, hc0, if_true, if_false, ne_eq, not_true, not_false_iff]
  · exact hconstruct 0 0
  · rw [(set_other (hc.resolve_left hc0)).2.2, hconstruct]
  · rw [(set_other (hp.resolve_left hp0)).2.1, hconstruct]
  · rw [(set_other (hc.resolve_left hc0)).2.2, (set_other (hp.resolve_left hp0)).2.1, hconstruct]

theorem construct_self (block : Nat) {sz nxt prv : Nat} (hs : sz < 2 ^ 64) (hn : nxt < 2 ^ 64) (hp : prv < 2 ^ 64) :
    size (construct m block sz nxt prv) block = sz ∧ next (construct m block sz nxt prv) block = nxt ∧
      prev (construct m block sz nxt prv) block = prv := by
  unfold construct
  refine ⟨?_, ?_, prev_setPrev hp⟩
  · rw [size_setPrev (Or.inl rfl), size_setNext (Or.inl rfl), size_setSize hs]
  · rw [next_setPrev (Or.inl rfl), next_setNext hn]

theorem construct_clear {x block sz nxt prv : Nat} (h : Clear x block) :
    size (construct m block sz nxt prv) x = size m x ∧ next (construct m block sz nxt prv) x = next m x := by
  unfold construct
  constructor
  · rw [size_setPrev (Or.inr h), size_setNext (Or.inr h), size_setSize_of_clear h]
  · rw [next_setPrev (Or.inr h), next_setNext_of_clear h, next_setSize (Or.inr h)]

theorem lastAddr_cases (L : List Block) : L = [] ∧ lastAddr L = 0 ∨ ∃ init b, L = init ++ [b] ∧ lastAddr L = b.addr := by
  rcases List.eq_nil_or_concat' L with rfl | ⟨init, b, rfl⟩
  · exact Or.inl ⟨rfl, rfl⟩
  · exact Or.inr ⟨init, b, rfl, by simp [lastAddr]⟩

theorem firstAddr_cases (L : List Block) : L = [] ∧ firstAddr L = 0 ∨ ∃ b rest, L = b :: rest ∧ firstAddr L = b.addr := by
  cases L with
  | nil => exact Or.inl ⟨rfl, rfl⟩
  | cons b rest => exact Or.inr ⟨b, rest, rfl, rfl⟩

theorem Ordered.neighbours (ho : Ordered (before ++ u :: after)) :
    (∀ d ∈ before ++ after, Clear d.addr u.addr) ∧
      (∀ d ∈ before ++ u :: after, lastAddr before = 0 ∨ d.addr = lastAddr before ∨ Clear d.addr (lastAddr before)) ∧
      (∀ d ∈ before ++ u :: after, firstAddr after = 0 ∨ d.addr = firstAddr after ∨ Clear d.addr (firstAddr after)) := by
  refine ⟨fun d hd => ho.clear_of_mem hd, ?_, ?_⟩
  · intro d hd
    rcases lastAddr_cases before with ⟨_, h0⟩ | ⟨init, b, rfl, hb⟩
    · exact Or.inl h0
    · rw [hb]
      exact Or.inr (ho.clear hd (by simp))
  · intro d hd
    rcases firstAddr_cases after with ⟨_, h0⟩ | ⟨b, rest, rfl, hb⟩
    · exact Or.inl h0
    · rw [hb]
      exact Or.inr (ho.clear hd (by simp))

theorem Ordered.first_clear (ho : Ordered (before ++ u :: after)) :
    ∀ d ∈ before ++ [u], firstAddr after = 0 ∨ Clear d.addr (firstAddr after) := by
  intro d hd
  rcases firstAddr_cases after with ⟨_, h0⟩ | ⟨c, rest, rfl, hc⟩
  · exact Or.inl h0
  · have hsorted := List.pairwise_append.mp ho.sorted
    have hle : d.stop ≤ c.addr := by
      rcases List.mem_append.mp hd with hd | hd
      · exact hsorted.2.2 d hd c (by simp)
      · rw [List.mem_singleton.mp hd]
        exact (List.pairwise_cons.mp hsorted.2.1).1 c (by simp)
    unfold Block.stop at hle
    rw [hc]
    exact Or.inr (Or.inl (by omega))

theorem firstAddr_lt (ho : Ordered (before ++ u :: after)) : firstAddr after < 2 ^ 64 := by
  rcases firstAddr_cases after with ⟨_, h0⟩ | ⟨c, rest, rfl, hc⟩
  · rw [h0]
    decide
  · have := ho.bounded c (by simp)
    unfold Block.stop at this
    omega

theorem lastAddr_lt (ho : Ordered (before ++ u :: after)) : lastAddr before < 2 ^ 64 := by
  rcases lastAddr_cases before with ⟨_, h0⟩ | ⟨init, b, rfl, hb⟩
  · rw [h0]
    decide
  · have := ho.bounded b (by simp)
    unfold Block.stop at this
    omega

theorem linkBetween_chained (h : Chained m head (before ++ after)) (ho : Ordered (before ++ u :: after)) :
    Chained (linkBetween m u.addr u.size (lastAddr before) (firstAddr after))
        (if lastAddr before = 0 then u.addr else head) (before ++ u :: after) ∧
      prev (linkBetween m u.addr u.size (lastAddr before) (firstAddr after)) u.addr = lastAddr before := by
  obtain ⟨hclear, hlast, hfirst⟩ := ho.neighbours
  have hustop : u.stop ≤ 2 ^ 64 := ho.bounded u (by simp)
  have husize : u.size < 2 ^ 64 := by
    unfold Block.stop at hustop
    omega
  obtain ⟨hsize, hnext, hprev⟩ := construct_self (m := m) u.addr husize (firstAddr_lt ho) (lastAddr_lt ho)
  have hmem : ∀ {d}, d ∈ before ++ after → d ∈ before ++ u :: after := fun hd =>
    (List.Sublist.append_left (List.sublist_cons_self u after) before).subset hd
  have hulast : lastAddr before = 0 ∨ Clear u.addr (lastAddr before) := by
    rcases lastAddr_cases before with ⟨_, h0⟩ | ⟨init, b, rfl, hb⟩
    · exact Or.inl h0
    · rw [hb]
      exact Or.inr (hclear b (by simp)).symm
  have hufirst := ho.first_clear u (by simp)
  -- every block but the freed one keeps its size, and all but its predecessor their next pointer
  have hsizes : ∀ d ∈ before ++ after,
      size (linkBetween m u.addr u.size (lastAddr before) (firstAddr after)) d.addr = d.size := by
    intro d hd
    rw [size_linkBetween (hlast d (hmem hd)) (hfirst d (hmem hd)), (construct_clear (hclear d hd)).1]
    exact h.sizes d hd
  have hnexts : ∀ d ∈ before ++ after, (lastAddr before = 0 ∨ Clear d.addr (lastAddr before)) →
      next (linkBetween m u.addr u.size (lastAddr before) (firstAddr after)) d.addr = next m d.addr := by
    intro d hd hne
    rw [next_linkBetween hne (hfirst d (hmem hd)), (construct_clear (hclear d hd)).2]
  have hafter : Chained m (firstAddr after) after := h.suffix
  refine ⟨chained_append_cons.mpr ⟨?_, fun d hd => hsizes d (List.mem_append_left _ hd), ?_, ?_⟩, ?_⟩
  · rcases lastAddr_cases before with ⟨rfl, h0⟩ | ⟨init, b, rfl, hb⟩
    · rw [if_pos h0]
      exact rfl
    · have hbnull : b.addr ≠ 0 := ho.nonnull b (by simp)
      rw [hb, if_neg hbnull]
      rw [hb] at hnexts
      rw [List.append_assoc, List.singleton_append] at h
      obtain ⟨hinit, _, _, _⟩ := chained_append_cons.mp h
      rw [List.map_append, segment_append]
      refine ⟨b.addr, hinit.congr ?_, rfl, ?_⟩
      · intro x hx
        obtain ⟨d, hd, rfl⟩ := List.mem_map.mp hx
        refine hnexts d (by simp [hd]) (Or.inr ?_)
        have hsorted := List.pairwise_append.mp (List.pairwise_append.mp ho.sorted).1
        have := hsorted.2.2 d hd b (by simp)
        unfold Block.stop at this
        exact Or.inl (by omega)
      · have := hfirst b (by simp)
        rw [next_linkBetween_prev hbnull (by unfold Block.stop at hustop; omega) this]
        rfl
  · rw [size_linkBetween (hlast u (by simp)) (hfirst u (by simp))]
    exact hsize
  · rw [next_linkBetween hulast (hufirst.imp_right Or.inr), hnext]
    refine hafter.congr ?_
    intro d hd
    have hd' : d ∈ before ++ after := List.mem_append_right _ hd
    rw [hsizes d hd', h.sizes d hd', hnexts d hd' ?_]
    · exact ⟨rfl, rfl⟩
    · rcases lastAddr_cases before with ⟨_, h0⟩ | ⟨init, b, rfl, hb⟩
      · exact Or.inl h0
      · have hsorted := List.pairwise_append.mp ho.sorted
        have := hsorted.2.2 b (by simp) d (List.mem_cons_of_mem u hd)
        unfold Block.stop at this
        rw [hb]
        exact Or.inr (Or.inr (by omega))
  · rw [prev_linkBetween (hulast.imp_right Or.inr) hufirst]
    exact hprev

end

/-! ### The whole of `deallocate` -/

/-- The list after `u` has been freed between `before` and `after`. -/
def released (before : List Block) (u : Block) (after : List Block) : List Block :=
  match before.getLast? with
  | none => absorbNext u after
  | some b => before.dropLast ++ absorbNext b (absorbNext u after)

section

variable {s : FreeListAllocator} {m : VirtualMemory} {L before after : List Block} {b u : Block}

theorem released_nil : released [] u after = absorbNext u after := rfl

theorem released_snoc : released (before ++ [b]) u after = before ++ absorbNext b (absorbNext u after) := by
  simp [released]

theorem absorbNext_shape (u : Block) (after : List Block) :
    ∃ u' after', absorbNext u after = u' :: after' ∧ u'.addr = u.addr := by
  cases after with
  | nil => exact ⟨u, [], rfl, rfl⟩
  | cons c rest =>
      rw [absorbNext_cons]
      split
      · exact ⟨_, _, rfl, rfl⟩
      · exact ⟨_, _, rfl, rfl⟩

theorem Ordered.released (h : Ordered (before ++ u :: after)) : Ordered (released before u after) := by
  rcases List.eq_nil_or_concat' before with rfl | ⟨init, b, rfl⟩
  · have hnil : Ordered ([] ++ u :: after) := h
    exact hnil.absorbNext
  · rw [released_snoc]
    have hnext := h.absorbNext
    rw [List.append_assoc, List.singleton_append] at hnext
    exact hnext.absorbNext

theorem covered_released {x : Nat} : Covered (released before u after) x ↔ Covered (before ++ after) x ∨ u.Has x := by
  have hold : Covered (released before u after) x ↔ Covered (before ++ u :: after) x := by
    rcases List.eq_nil_or_concat' before with rfl | ⟨init, b, rfl⟩
    · rw [released_nil, covered_absorbNext]
      rfl
    · rw [released_snoc, covered_append, covered_absorbNext, covered_cons, covered_absorbNext,
        ← covered_cons, ← covered_append, List.append_assoc, List.singleton_append]
  rw [hold, covered_append, covered_cons, covered_append]
  tauto

theorem mem_absorbNext (ho : Ordered (before ++ u :: after)) (hb : b ∈ absorbNext u after) :
    b.addr = u.addr ∨ (b ∈ after ∧ b.addr ≠ u.stop) := by
  have hsorted := List.pairwise_cons.mp (List.pairwise_append.mp ho.sorted).2.1
  cases after with
  | nil => exact Or.inl (congrArg Block.addr (List.mem_singleton.mp hb))
  | cons c rest =>
      have hrest := (List.pairwise_cons.mp hsorted.2).1
      have hc := hsorted.1 c List.mem_cons_self
      have habove : ∀ d ∈ rest, d.addr ≠ u.stop := by
        intro d hd
        have := hrest d hd
        unfold Block.stop at this hc ⊢
        omega
      rw [absorbNext_cons] at hb
      split at hb
      · rcases List.mem_cons.mp hb with rfl | hb
        · exact Or.inl rfl
        · exact Or.inr ⟨List.mem_cons_of_mem c hb, habove b hb⟩
      · rename_i hne
        rcases List.mem_cons.mp hb with rfl | hb
        · exact Or.inl rfl
        · rcases List.mem_cons.mp hb with rfl | hb
          · exact Or.inr ⟨List.mem_cons_self, fun h => hne h.symm⟩
          · exact Or.inr ⟨List.mem_cons_of_mem c hb, habove b hb⟩

/-- The headers of the list afterwards: those of before, less the one that the
freed block absorbs, and that of the freed block unless a block before absorbs it. -/
theorem mem_released (ho : Ordered (before ++ u :: after)) (hb : b ∈ released before u after) :
    (b.addr = u.addr ∧ ∀ d ∈ before ++ after, d.stop ≠ u.addr) ∨
      ∃ d ∈ before ++ after, d.addr = b.addr ∧ b.addr ≠ u.stop := by
  obtain ⟨_, _, _, hlow, hhigh⟩ := ordered_append_cons.mp ho
  have hafter : ∀ d ∈ after, d.stop ≠ u.addr := by
    intro d hd
    have := hhigh d hd
    unfold Block.stop at this ⊢
    omega
  have hbelow : ∀ d ∈ before, d.addr ≠ u.stop := by
    intro d hd
    have := hlow d hd
    unfold Block.stop at this ⊢
    omega
  rcases List.eq_nil_or_concat' before with rfl | ⟨init, q, rfl⟩
  · rcases mem_absorbNext ho hb with heq | ⟨hmem, hne⟩
    · exact Or.inl ⟨heq, hafter⟩
    · exact Or.inr ⟨b, hmem, rfl, hne⟩
  · rw [released_snoc] at hb
    have hnext := ho.absorbNext
    rw [List.append_assoc, List.singleton_append] at hnext
    rcases List.mem_append.mp hb with hb | hb
    · exact Or.inr ⟨b, by simp [hb], rfl, hbelow b (by simp [hb])⟩
    · rcases mem_absorbNext hnext hb with heq | ⟨hb, hne⟩
      · exact Or.inr ⟨q, by simp, heq.symm, heq ▸ hbelow q (by simp)⟩
      · rcases mem_absorbNext ho hb with heq | ⟨hmem, hne'⟩
        · refine Or.inl ⟨heq, ?_⟩
          intro d hd
          rcases List.mem_append.mp hd with hd | hd
          · rcases List.mem_append.mp hd with hd | hd
            · have hq := (List.pairwise_append.mp (List.pairwise_append.mp ho.sorted).1).2.2 d hd q (by simp)
              have hqu := hlow q (by simp)
              unfold Block.stop at hqu
              omega
            · obtain rfl := List.mem_singleton.mp hd
              rw [← heq]
              exact hne.symm
          · exact hafter d hd
        · exact Or.inr ⟨b, by simp [hmem], rfl, hne'⟩

/-- After the magic word has been accepted, `deallocate` always returns. -/
theorem deallocate_eq {base : Nat} (hbase : wrapSub base UsedBlockHeader.bytes = u.addr)
    (hmagic : UsedBlockHeader.magic s.mem u.addr = UsedBlockHeader.magicConstant)
    (hsize : UsedBlockHeader.size s.mem u.addr = u.size + 8)
    (h : Chained s.mem s.head (before ++ after)) (ho : Ordered (before ++ u :: after)) :
    s.deallocate base = .ok
      ⟨coalescePrev (coalesceNext (linkBetween s.mem u.addr u.size (lastAddr before) (firstAddr after))
        u.addr) u.addr, if lastAddr before = 0 then u.addr else s.head⟩ := by
  obtain ⟨hold, hunull, hustop, hlow, hhigh⟩ := ordered_append_cons.mp ho
  have hlength := hold.length_lt
  rw [List.length_append] at hlength
  have hbelow : ∀ d ∈ before, d.addr < u.addr := by
    intro d hd
    have := hlow d hd
    unfold Block.stop at this
    omega
  have habove : ∀ d ∈ after, u.addr ≤ d.addr := by
    intro d hd
    have := hhigh d hd
    unfold Block.stop at this
    omega
  have hfuel : before.length < loopFuel := by omega
  have hspot := findSpot_eq h hold hbelow habove hfuel 0
  have hfree : wrapSub (wrap (u.size + 8 + UsedBlockHeader.bytes)) FreeBlockHeader.bytes = u.size := by
    unfold Block.stop at hustop
    simp only [UsedBlockHeader.bytes, FreeBlockHeader.bytes]
    rw [wrap_of_lt (by omega), wrapSub_of_le (by omega) (by omega)]
    omega
  unfold FreeListAllocator.deallocate
  simp only [hbase, hmagic, hspot, hsize, hfree, ne_eq, not_true, if_false, orHang_some]
  rfl

theorem deallocate_spec {base : Nat} (hbase : wrapSub base UsedBlockHeader.bytes = u.addr)
    (hmagic : UsedBlockHeader.magic s.mem u.addr = UsedBlockHeader.magicConstant)
    (hsize : UsedBlockHeader.size s.mem u.addr = u.size + 8)
    (h : Chained s.mem s.head (before ++ after)) (ho : Ordered (before ++ u :: after)) :
    ∃ s', s.deallocate base = .ok s' ∧ Chained s'.mem s'.head (released before u after) ∧
      ∀ x, (∀ d ∈ before ++ u :: after, x < d.addr ∨ d.addr + 24 ≤ x) → s'.mem x = s.mem x := by
  refine ⟨_, deallocate_eq hbase hmagic hsize h ho, ?_⟩
  obtain ⟨hlink, hprev⟩ := linkBetween_chained h ho
  obtain ⟨hnext, hprevNext, hnextOnly⟩ := coalesceNext_spec hlink ho
  rw [hprev] at hprevNext
  have hother : ∀ x, (∀ d ∈ before ++ u :: after, x < d.addr ∨ d.addr + 24 ≤ x) →
      coalesceNext (linkBetween s.mem u.addr u.size (lastAddr before) (firstAddr after)) u.addr x = s.mem x := by
    intro x hx
    have hu := hx u (by simp)
    rw [hnextOnly x hu, linkBetween_other hu]
    · rcases lastAddr_cases before with ⟨_, h0⟩ | ⟨init, b, rfl, hb⟩
      · exact Or.inl h0
      · rw [hb]
        exact Or.inr (hx b (by simp))
    · rcases firstAddr_cases after with ⟨_, h0⟩ | ⟨c, rest, rfl, hc⟩
      · exact Or.inl h0
      · rw [hc]
        exact Or.inr (hx c (by simp))
  dsimp only
  generalize coalesceNext (linkBetween s.mem u.addr u.size (lastAddr before) (firstAddr after)) u.addr = m₂
    at hnext hprevNext hother ⊢
  generalize (if lastAddr before = 0 then u.addr else s.head) = head' at hnext ⊢
  rcases lastAddr_cases before with ⟨rfl, h0⟩ | ⟨init, b, rfl, hb⟩
  · rw [coalescePrev_head (hprevNext.trans h0), released_nil]
    exact ⟨hnext, hother⟩
  · -- the merged block still starts at the freed address, which is all `coalesce_prev` looks at
    obtain ⟨u', after', hshape, haddr⟩ := absorbNext_shape u after
    have hnextOrdered := ho.absorbNext
    rw [hshape, List.append_assoc, List.singleton_append] at hnext hnextOrdered
    obtain ⟨hdone, hprevOnly⟩ := coalescePrev_spec hnext hnextOrdered
      (by rw [haddr]; exact hprevNext.trans hb)
    rw [released_snoc, hshape]
    rw [haddr] at hdone hprevOnly
    exact ⟨hdone, fun x hx => (hprevOnly x (hx b (by simp))).trans (hother x hx)⟩

theorem Block.apart_iff {b u : Block} : (∀ x, ¬ (b.Has x ∧ u.Has x)) ↔ b.stop ≤ u.addr ∨ u.stop ≤ b.addr := by
  constructor
  · intro h
    by_contra hc
    apply h (max b.addr u.addr)
    unfold Block.Has Block.stop at *
    omega
  · rintro h x ⟨hb, hu⟩
    unfold Block.Has at hb hu
    omega

/-- What the list and the memory are after a block has been freed. -/
structure Released (L L' : List Block) (s s' : FreeListAllocator) (u : Block) : Prop where
  chained : Chained s'.mem s'.head L'
  ordered : Ordered L'
  covered : ∀ x, Covered L' x ↔ Covered L x ∨ u.Has x
  headers : ∀ b ∈ L', (b.addr = u.addr ∧ ∀ d ∈ L, d.stop ≠ u.addr) ∨
    ∃ d ∈ L, d.addr = b.addr ∧ b.addr ≠ u.stop
  frame : ∀ x, ¬ Covered L x → ¬ u.Has x → s'.mem x = s.mem x

/-- A used block that `deallocate` can take back into the list `L`. -/
structure Freeable (s : FreeListAllocator) (L : List Block) (base : Nat) (u : Block) : Prop where
  base : wrapSub base UsedBlockHeader.bytes = u.addr
  magic : UsedBlockHeader.magic s.mem u.addr = UsedBlockHeader.magicConstant
  size : UsedBlockHeader.size s.mem u.addr = u.size + 8
  chained : Chained s.mem s.head L
  nonnull : u.addr ≠ 0
  bounded : u.stop ≤ 2 ^ 64
  fresh : ∀ x, u.Has x → ¬ Covered L x

theorem Freeable.split {base : Nat} (h : Freeable s L base u) (ho : Ordered L) :
    ∃ before after, L = before ++ after ∧ Ordered (before ++ u :: after) := by
  obtain ⟨before, after, rfl, hlow, hhigh⟩ := ho.split (u := u) fun b hb =>
    Block.apart_iff.mp fun x hx => h.fresh x hx.2 ⟨b, hb, hx.1⟩
  exact ⟨before, after, rfl, ordered_append_cons.mpr ⟨ho, h.nonnull, h.bounded, hlow, hhigh⟩⟩

theorem deallocate_between {base : Nat} (h : Freeable s (before ++ after) base u) (ho : Ordered (before ++ u :: after)) :
    ∃ s', s.deallocate base = .ok s' ∧ Released (before ++ after) (released before u after) s s' u := by
  obtain ⟨s', hs', hchained, hframe⟩ := deallocate_spec h.base h.magic h.size h.chained ho
  refine ⟨s', hs', hchained, ho.released, fun x => covered_released, fun b hb => mem_released ho hb, ?_⟩
  intro x hx hu
  apply hframe
  intro d hd
  by_contra hc
  have hdx : d.Has x := by
    unfold Block.Has Block.stop
    omega
  rcases List.mem_append.mp hd with hd | hd
  · exact hx ⟨d, List.mem_append_left _ hd, hdx⟩
  · rcases List.mem_cons.mp hd with rfl | hd
    · exact hu hdx
    · exact hx ⟨d, List.mem_append_right _ hd, hdx⟩

theorem deallocate_release {base : Nat} (h : Freeable s L base u) (ho : Ordered L) :
    ∃ s' L', s.deallocate base = .ok s' ∧ Released L L' s s' u := by
  obtain ⟨before, after, rfl, ho'⟩ := h.split ho
  obtain ⟨s', hs', hreleased⟩ := deallocate_between h ho'
  exact ⟨s', released before u after, hs', hreleased⟩

end

end DavOS
