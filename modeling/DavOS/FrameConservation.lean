import DavOS.FrameOwnership

/-! How many frames there are over a run of the allocator. A push on a full
stack returns silently and the capacity counts usable frames only, so the
bootloader's frames find room only in the place of the stack's own. -/
namespace DavOS
open MachineWord GuardedRun

def FrameRun.total (r : FrameRun) : Nat := r.allocator.freeStack.size + r.outstanding.length

/-- No frame is lost: everything but the stack's own frames is accounted for. -/
def Conserved (map : LimineMap) (r : FrameRun) : Prop :=
  r.total = map.usableFrames.length - (map.usableFrames.length + 511) / 512 +
    if r.reclaimed then map.reclaimableFrames.length else 0

def FrameOp.Fits (map : LimineMap) (r : FrameRun) : FrameOp → Prop
  | .allocate => True
  | .deallocate _ => r.allocator.freeStack.size < map.usableFrames.length
  | .reclaim => r.allocator.freeStack.size + map.reclaimableFrames.length ≤ map.usableFrames.length

section

variable {map : LimineMap} {r r' : FrameRun} {free : FreeStack}

/-- `n` frames of the pool are neither on the stack nor outstanding. -/
def Short (map : LimineMap) (r : FrameRun) (n : Nat) : Prop := r.total + n = (map.pool r.reclaimed).length

theorem pool_length (map : LimineMap) (reclaimed : Bool) :
    (map.pool reclaimed).length =
      map.unreservedFrames.length + if reclaimed then map.reclaimableFrames.length else 0 := by
  cases reclaimed <;> simp [LimineMap.pool]

theorem Short.conserved_iff (hregion : freeStackFramesBegin map.entries ≠ 0) {n : Nat} (h : Short map r n) :
    Conserved map r ↔ n = 0 := by
  have hlength := map.unreservedFrames_length hregion
  rw [numFreeStackFrames_eq, map.getNumAllocatableFrames_eq] at hlength
  unfold Short at h
  rw [pool_length] at h
  unfold Conserved
  omega

theorem frameStep_short (h : Owns map r free) {op : FrameOp} (hop : op.Allowed r)
    (hs : frameStep map.entries r op = .ok r') {n : Nat} (hn : Short map r n) :
    ∃ n', Short map r' n' ∧ n ≤ n' ∧ (n' = n ↔ op.Fits map r) := by
  obtain ⟨free', hbacks, hcapacity, hstep⟩ := frameStep_free h hop hs
  have hbounded := free.bounded
  have hcap := h.capacity
  simp only [Short, FrameRun.total, h.backs.size, hbacks.size, pool_length, FrameOp.Fits] at hn ⊢
  cases op with
  | allocate =>
      obtain ⟨f, hframes, hout, hreclaimed⟩ := hstep
      have hlength := congrArg List.length hframes
      simp only [List.length_cons] at hlength
      refine ⟨n, ?_, le_refl n, by simp⟩
      rw [hout, hreclaimed, List.length_cons]
      omega
  | deallocate f =>
      obtain ⟨rfl, hout, hreclaimed⟩ := hstep
      have herase : r'.outstanding.length + 1 = r.outstanding.length := by
        rw [hout, List.length_erase_of_mem hop]
        exact Nat.succ_pred_eq_of_pos (List.length_pos_of_mem hop)
      rw [hreclaimed]
      unfold FreeStack.deallocateFrame
      split
      · exact ⟨n, by rw [List.length_cons]; omega, le_refl n, by simp; omega⟩
      · exact ⟨n + 1, by omega, Nat.le_succ n, by simp; omega⟩
  | reclaim =>
      obtain ⟨hframes, hout, hreclaimed⟩ := hstep
      have hr : r.reclaimed = false := hop
      have hlength := congrArg List.length hframes
      simp only [List.length_append, List.length_reverse, List.length_take] at hlength
      rw [hout, hreclaimed]
      rw [hr] at hn
      simp only [Bool.false_eq_true, if_false, if_true] at hn ⊢
      refine ⟨n + (map.reclaimableFrames.length - (free.capacity - free.frames.length)), ?_, ?_, ?_⟩ <;> omega

/-- What is lost stays lost, so the end of a run tells whether every step fitted. -/
theorem run_short (h : Owns map r free) {ops : List FrameOp}
    (hrun : Run (frameStep map.entries) FrameOp.Allowed r ops r') {n : Nat} (hn : Short map r n) :
    ∃ n', Short map r' n' ∧ n ≤ n' ∧
      (n' = n ↔ Run (frameStep map.entries) (fun r op => op.Allowed r ∧ op.Fits map r) r ops r') := by
  induction hrun generalizing free n with
  | nil r => exact ⟨n, hn, le_refl n, iff_of_true rfl (.nil r)⟩
  | cons hop hs _ ih =>
      obtain ⟨free₁, h₁⟩ := frameStep_owns h hop hs
      obtain ⟨n₁, hn₁, hle₁, hiff₁⟩ := frameStep_short h hop hs hn
      obtain ⟨n₂, hn₂, hle₂, hiff₂⟩ := ih h₁ hn₁
      refine ⟨n₂, hn₂, hle₁.trans hle₂, ?_⟩
      constructor
      · intro heq
        exact .cons ⟨hop, hiff₁.mp (by omega)⟩ hs (hiff₂.mp (by omega))
      · intro hfits
        cases hfits with
        | cons hfit hs' hrest =>
            obtain rfl := Except.ok.inj (hs.symm.trans hs')
            exact (hiff₂.mpr hrest).trans (hiff₁.mpr hfit.2)

theorem FrameOp.fits_of_le (hregion : freeStackFramesBegin map.entries ≠ 0)
    (hle : map.reclaimableFrames.length ≤ numFreeStackFrames map.entries) (h : Owns map r free)
    {op : FrameOp} (hop : op.Allowed r) : op.Fits map r := by
  have hpool : (free.frames ++ r.outstanding).length ≤ (map.pool r.reclaimed).length :=
    (List.subperm_of_subset h.nodup h.owned).length_le
  have hunreserved := map.unreservedFrames_length hregion
  have hsize := h.backs.size
  rw [List.length_append, pool_length] at hpool
  cases op with
  | allocate => trivial
  | deallocate f =>
      have hout : 0 < r.outstanding.length := List.length_pos_of_mem hop
      unfold FrameOp.Fits
      split at hpool <;> omega
  | reclaim =>
      have hr : r.reclaimed = false := hop
      rw [hr] at hpool
      simp only [Bool.false_eq_true, if_false] at hpool
      unfold FrameOp.Fits
      omega

end

/-- Frames are conserved in a run exactly when every step of it finds room on
the stack; and in all runs exactly when the bootloader's frames are no more
than the frames of the stack itself. -/
theorem frames_conserved_iff (map : LimineMap) (m : Nat → BitVec 64)
    (hregion : freeStackFramesBegin map.entries ≠ 0) :
    ∃ a, frameAllocatorInit map.entries m = .ok a ∧
      (∀ ops r, Run (frameStep map.entries) FrameOp.Allowed { allocator := a } ops r →
        (Conserved map r ↔ Run (frameStep map.entries) (fun r op => op.Allowed r ∧ op.Fits map r)
          { allocator := a } ops r)) ∧
      ((∀ ops r, Run (frameStep map.entries) FrameOp.Allowed { allocator := a } ops r → Conserved map r) ↔
        map.reclaimableFrames.length ≤ (map.usableFrames.length + 511) / 512) := by
  obtain ⟨a, free, hinit, hbacks, hframes, hcapacity⟩ := frameAllocatorInit_spec map m hregion
  have hk : numFreeStackFrames map.entries = (map.usableFrames.length + 511) / 512 := by
    rw [numFreeStackFrames_eq, map.getNumAllocatableFrames_eq]
  obtain ⟨free₀, hstart⟩ := run_owns hbacks hframes hcapacity (.nil (FrameRun.mk a [] false))
  have hshort : Short map { allocator := a } 0 := by
    simp only [Short, FrameRun.total, hbacks.size, hframes, List.length_reverse, pool_length]
    simp
  have hrun : ∀ ops r, Run (frameStep map.entries) FrameOp.Allowed { allocator := a } ops r →
      (Conserved map r ↔ Run (frameStep map.entries) (fun r op => op.Allowed r ∧ op.Fits map r)
        { allocator := a } ops r) := by
    intro ops r h
    obtain ⟨n, hn, _, hiff⟩ := run_short hstart h hshort
    rw [hn.conserved_iff hregion, hiff]
  refine ⟨a, hinit, hrun, ?_⟩
  rw [← hk]
  constructor
  · intro hall
    by_contra hlt
    -- the reclaim right after initialisation already drops a frame
    obtain ⟨r, hr⟩ : ∃ r, frameStep map.entries { allocator := a } .reclaim = .ok r := by
      simp only [frameStep, FrameAllocator.freeLimineBootloaderMemory,
        sweepFrames_eq _ (fun e he hc => map.regular e he (Or.inr hc))]
      exact ⟨_, rfl⟩
    have hone : Run (frameStep map.entries) FrameOp.Allowed { allocator := a } [.reclaim] r :=
      .cons rfl hr (.nil r)
    cases (hrun _ _ hone).mp (hall _ _ hone) with
    | cons hfit _ _ =>
        have hroom : a.freeStack.size + map.reclaimableFrames.length ≤ map.usableFrames.length := hfit.2
        have hlength := map.unreservedFrames_length hregion
        rw [hbacks.size, hframes, List.length_reverse] at hroom
        omega
  · intro hle ops r h
    rw [hrun ops r h]
    exact h.mono (I := fun r => ∃ free, Owns map r free)
      (fun s op t hs hop ht => hs.elim fun free howns => frameStep_owns howns hop ht)
      (fun s op hs hop => hs.elim fun free howns => ⟨hop, FrameOp.fits_of_le hregion hle howns hop⟩)
      ⟨free₀, hstart⟩

def tightMap : LimineMap where
  entries := [⟨0x1000, 0x3000, .usable⟩, ⟨0x4000, 0x1000, .bootloaderReclaimable⟩]
  regular := by
    simp only [List.forall_mem_cons]
    unfold LimineMemmapEntry.Regular
    decide
  apart := by
    have h : [(⟨0x1000, 0x3000, .usable⟩ : LimineMemmapEntry), ⟨0x4000, 0x1000, .bootloaderReclaimable⟩].Pairwise
        fun a b => a.base + a.length ≤ b.base ∨ b.base + b.length ≤ a.base := by decide
    exact h.imp fun hab _ _ => LimineMemmapEntry.Apart.of_le hab

theorem frames_conserved_tight_map : ∃ a, frameAllocatorInit tightMap.entries (fun _ => 0#64) = .ok a ∧
    ∀ ops r, Run (frameStep tightMap.entries) FrameOp.Allowed { allocator := a } ops r → Conserved tightMap r := by
  obtain ⟨a, hinit, _, hall⟩ := frames_conserved_iff tightMap (fun _ => 0#64) (by decide)
  exact ⟨a, hinit, hall.mpr (by decide)⟩

def totalAfter (map : List LimineMemmapEntry) (m : Nat → BitVec 64) (op : FrameOp) : Option Nat :=
  match frameAllocatorInit map m >>= fun a => frameStep map { allocator := a } op with
  | .ok r => some r.total
  | .error _ => none

/-- Five usable frames and two of the bootloader's, one of which is dropped. -/
theorem reclaim_drops_a_frame : ∃ a r, frameAllocatorInit smallMap.entries (fun _ => 0#64) = .ok a ∧
    Run (frameStep smallMap.entries) FrameOp.Allowed { allocator := a } [.reclaim] r ∧
    r.total = 5 ∧ ¬ Conserved smallMap r := by
  have htotal : totalAfter smallMap.entries (fun _ => 0#64) .reclaim = some 5 := by decide +kernel
  unfold totalAfter at htotal
  split at htotal
  · rename_i r hr
    obtain ⟨a, hinit, hstep⟩ := bind_ok hr
    have hr5 : r.total = 5 := Option.some.inj htotal
    have hreclaimed : r.reclaimed = true := by
      obtain ⟨a', _, hs⟩ := bind_ok hstep
      cases hs
      rfl
    refine ⟨a, r, hinit, .cons rfl hstep (.nil r), hr5, ?_⟩
    rw [Conserved, hr5, hreclaimed]
    decide
  · cases htotal

end DavOS
