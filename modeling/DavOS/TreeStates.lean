import DavOS.PageWalk

/-! The page trees that the kernel can have built, apart from the stack of free
frames: what a stack has to be for a tree, and which addresses a walk can be for. -/
namespace DavOS
open MachineWord PathGraph PageTreeNode

/-- A table of the tree. -/
def IsNode (offset root : Nat) (m : Memory) (n : Nat) : Prop :=
  ∃ ρ : List Index, ρ.length ≤ 3 ∧ follow (edge offset m) root ρ = some n

/-- A stack of distinct frames, none of them a table of the tree, that can all become tables. -/
structure Spare (offset root : Nat) (m : Memory) (free : FreeStack) : Prop where
  nodup : free.frames.Nodup
  frames : ∀ f ∈ free.frames, IsFrame f
  unused : ∀ f ∈ free.frames, ¬ IsNode offset root m f

/-- The memories in which the kernel has built a tree below `root`: by constructing
the root, by mapping pages with whatever spare frames there are at the time, and
with any writes in between to memory that is not part of a table. -/
inductive ReachableTree (offset root : Nat) : Memory → Prop
  | fresh (m : Memory) : IsTable root → ReachableTree offset root (construct m (wrap (root + offset)))
  | map {s s' : PagingState} (call : MapCall) : ReachableTree offset root s.mem → Spare offset root s.mem s.free →
      PageTree.mapPageToFrame (fun _ => offset) (wrap (root + offset)) s call.page call.frame call.flags.bits = .ok s' →
      ReachableTree offset root s'.mem
  | write {m m' : Memory} : ReachableTree offset root m →
      (∀ n i, IsNode offset root m n → entryAt offset m' n i = entryAt offset m n i) → ReachableTree offset root m'

section

variable {offset root : Nat} {m m' : Memory} {s : PagingState} {free : FreeStack}

theorem Intact.restock (h : Intact offset root ⟨m, free⟩) {spare : FreeStack} (hspare : Spare offset root m spare) :
    Intact offset root ⟨m, spare⟩ :=
  ⟨h.rootTable, h.unshared,
    fun ρ n hρ hn => ⟨(h.nodes ρ n hρ hn).1, fun hfree => hspare.unused n hfree ⟨ρ, hρ, hn⟩⟩,
    h.entries, hspare.nodup, hspare.frames⟩

theorem Intact.spare (h : Intact offset root s) : Spare offset root s.mem s.free := by
  refine ⟨h.nodup, h.frames, fun f hf hnode => ?_⟩
  obtain ⟨ρ, hρ, hn⟩ := hnode
  exact (h.nodes ρ f hρ hn).2 hf

theorem Intact.write (h : Intact offset root ⟨m, noFrames⟩)
    (hsame : ∀ n i, IsNode offset root m n → entryAt offset m' n i = entryAt offset m n i) :
    Intact offset root ⟨m', noFrames⟩ := by
  have hfollow : ∀ ρ : List Index, ρ.length ≤ 3 →
      follow (edge offset m') root ρ = follow (edge offset m) root ρ := by
    intro ρ hρ
    apply follow_congr
    intro τ n i hτ hn
    have hlength := hτ.length_le
    rw [List.length_append] at hlength
    exact edge_congr (hsame n i ⟨τ, by omega, hn⟩)
  refine ⟨h.rootTable, ?_, ?_, ?_, h.nodup, h.frames⟩
  · intro ρ τ n hρ hτ hn hn'
    exact h.unshared ρ τ n hρ hτ ((hfollow ρ hρ).symm.trans hn) ((hfollow τ hτ).symm.trans hn')
  · intro ρ n hρ hn
    exact h.nodes ρ n hρ ((hfollow ρ hρ).symm.trans hn)
  · intro ρ n i hρ hn
    have hold := (hfollow ρ hρ).symm.trans hn
    rw [show entryAt offset m' n i = entryAt offset m n i from hsame n i ⟨ρ, hρ, hold⟩]
    exact h.entries ρ n i hρ hold

theorem ReachableTree.intact_noFrames (h : ReachableTree offset root m) : Intact offset root ⟨m, noFrames⟩ := by
  induction h with
  | fresh m hroot => exact (fresh_tree offset m hroot (by simp [noFrames]) (by simp [noFrames])).1
  | @map s s' call _ hspare hs ih =>
      have hs' := (mapPageToFrame_spec (ih.restock hspare) call.aligned hs).intact
      exact hs'.shrink (List.nil_sublist _)
  | write _ hsame ih => exact ih.write hsame

theorem ReachableTree.intact (h : ReachableTree offset root s.mem) (hspare : Spare offset root s.mem s.free) :
    Intact offset root s := h.intact_noFrames.restock hspare

end

/-- A kernel that has just built its tree, with six frames left. -/
def sixFrames : PagingState :=
  ⟨PageTreeNode.construct (fun _ => 0#64) (wrap (0x1000 + 0)),
    ⟨[0x2000, 0x3000, 0x4000, 0x5000, 0x6000, 0x7000], 6, by decide⟩⟩

theorem sixFrames_reachable : ReachableTree 0 0x1000 sixFrames.mem := by
  have hroot : IsTable 0x1000 := by decide
  unfold sixFrames
  dsimp only
  exact .fresh (fun _ => 0#64) hroot

theorem sixFrames_spare : Spare 0 0x1000 sixFrames.mem sixFrames.free :=
  Intact.spare (fresh_tree 0 (fun _ => 0#64) (by decide) (by decide) (by decide)).1

/-! ### Addresses -/

/-- An address that the processor accepts: bits 47 to 63 are equal. -/
def Canonical (v : Nat) : Prop := v < 2 ^ 47 ∨ (2 ^ 64 - 2 ^ 47 ≤ v ∧ v < 2 ^ 64)

/-- A region inside one canonical half. -/
def InOneHalf (virtualBase length : Nat) : Prop :=
  virtualBase + length ≤ 2 ^ 47 ∨ (2 ^ 64 - 2 ^ 47 ≤ virtualBase ∧ virtualBase + length ≤ 2 ^ 64)

/-- A walk tells canonical addresses of different pages apart. -/
theorem samePage_canonical {v w : Nat} (hv : Canonical v) (hw : Canonical w) :
    SamePage v w ↔ v / 4096 = w / 4096 := by
  unfold SamePage Canonical at *
  omega

end DavOS
