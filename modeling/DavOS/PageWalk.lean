import DavOS.PageMapping

/-! The processor's walk of the tree: it meets the tables of `follow`, and ends
in the leaf entry. From this the page tree is a last-write-wins map. -/
namespace DavOS
open MachineWord PathGraph PageTreeNode

/-- The entries on a path of indices, as long as each is present. -/
def entriesOn (offset : Nat) (m : Memory) : Nat → List Index → Option (List (BitVec 64))
  | _, [] => some []
  | n, i :: π =>
      if Ia32e.isPresent (entryAt offset m n i) then
        (entriesOn offset m (Ia32e.addressField (entryAt offset m n i)) π).map (entryAt offset m n i :: ·)
      else none

section

variable {offset root : Nat} {m : Memory}

theorem physical_entry (offset : Nat) (m : Memory) (n v depth : Nat) :
    physical offset m (n + 8 * ((v >>> (39 - 9 * depth)) % 512)) = entryAt offset m n (indexAt v depth) := by
  rw [Nat.shiftRight_eq_div_pow]
  unfold physical entryAt entryAddress indexAt
  congr 1
  simp only [wrap]
  omega

theorem walk_eq_entriesOn (v : Nat) :
    Ia32e.walk (physical offset m) root v = entriesOn offset m root (path v ++ [indexAt v 3]) := by
  have h := fun n depth => physical_entry offset m n v depth
  simp only [Ia32e.walk, Ia32e.walkFrom, path, List.cons_append, List.nil_append, entriesOn,
    ← h _ 0, ← h _ 1, ← h _ 2, ← h _ 3]

theorem entriesOn_snoc (n : Nat) (π : List Index) (i : Index) :
    entriesOn offset m n (π ++ [i]) = (entriesOn offset m n π).bind fun es =>
      (follow (edge offset m) n π).bind fun k =>
        if Ia32e.isPresent (entryAt offset m k i) then some (es ++ [entryAt offset m k i]) else none := by
  induction π generalizing n with
  | nil => cases h : Ia32e.isPresent (entryAt offset m n i) <;> simp [entriesOn, h]
  | cons j π ih =>
      by_cases hj : Ia32e.isPresent (entryAt offset m n j) = true
      · simp only [List.cons_append, entriesOn, follow, edge, hj, if_true, Option.bind_some, ih]
        cases entriesOn offset m (Ia32e.addressField (entryAt offset m n j)) π with
        | none => rfl
        | some es =>
            cases follow (edge offset m) (Ia32e.addressField (entryAt offset m n j)) π with
            | none => rfl
            | some k => cases h : Ia32e.isPresent (entryAt offset m k i) <;> simp [h]
      · simp only [List.cons_append, entriesOn, hj, if_false, Option.bind_none, Bool.false_eq_true]

theorem entriesOn_isSome (offset : Nat) (m : Memory) (n : Nat) (π : List Index) :
    (entriesOn offset m n π).isSome = (follow (edge offset m) n π).isSome := by
  induction π generalizing n with
  | nil => rfl
  | cons i π ih =>
      by_cases hi : Ia32e.isPresent (entryAt offset m n i) = true
      · simp only [entriesOn, follow, edge, hi, if_true, Option.bind_some, Option.isSome_map, ih]
      · simp [entriesOn, follow, edge, hi]

theorem leaf_eq_leafEntry (offset root : Nat) (m : Memory) (v : Nat) :
    Ia32e.leaf (physical offset m) root v =
      if Ia32e.isPresent (leafEntry offset root m v) then some (leafEntry offset root m v) else none := by
  rw [Ia32e.leaf, walk_eq_entriesOn, entriesOn_snoc]
  have hsome := entriesOn_isSome offset m root (path v)
  cases hf : follow (edge offset m) root (path v) with
  | none =>
      rw [leafEntry_of_missing hf, if_neg (by decide)]
      cases entriesOn offset m root (path v) <;> rfl
  | some k =>
      rw [leafEntry_of_follow hf]
      rw [hf] at hsome
      obtain ⟨es, hes⟩ := Option.isSome_iff_exists.mp hsome
      rw [hes]
      simp only [Option.bind_some]
      split <;> simp

end

/-! ### The last-write-wins map -/

/-- A call of `map_page_to_frame` as its callers make it. -/
structure MapCall where
  page : Nat
  frame : Nat
  flags : FlagSet
  aligned : IsTable frame

def runCalls (offset root : Nat) (s : PagingState) (calls : List MapCall) : Except Stop PagingState :=
  calls.foldlM (fun s c => PageTree.mapPageToFrame (fun _ => offset) (wrap (root + offset)) s
    c.page c.frame c.flags.bits) s

def lastCall (calls : List MapCall) (v : Nat) : Option MapCall :=
  calls.reverse.find? fun c => SamePage v c.page

theorem lastCall_snoc (calls : List MapCall) (c : MapCall) (v : Nat) :
    lastCall (calls ++ [c]) v = if SamePage v c.page then some c else lastCall calls v := by
  simp only [lastCall, List.reverse_append, List.reverse_singleton, List.singleton_append, List.find?_cons]
  split <;> simp_all

section

variable {offset root : Nat} {s s' : PagingState}

theorem runCalls_append (calls later : List MapCall) :
    runCalls offset root s (calls ++ later) =
      (runCalls offset root s calls >>= fun t => runCalls offset root t later) := by
  simp only [runCalls, List.foldlM_append]

theorem runCalls_singleton (c : MapCall) :
    runCalls offset root s [c] =
      PageTree.mapPageToFrame (fun _ => offset) (wrap (root + offset)) s c.page c.frame c.flags.bits := by
  simp only [runCalls, List.foldlM_cons, List.foldlM_nil, bind_pure]

/-- After any calls the tree is intact and holds, for each page, the entry of
the last call for it. -/
theorem runCalls_spec (h : Intact offset root s) (calls : List MapCall)
    (hs : runCalls offset root s calls = .ok s') :
    Intact offset root s' ∧ ∀ v, leafEntry offset root s'.mem v =
      match lastCall calls v with
      | some c => entryWord c.frame c.flags.bits
      | none => leafEntry offset root s.mem v := by
  induction calls using List.reverseRecOn generalizing s' with
  | nil =>
      cases hs
      exact ⟨h, fun v => rfl⟩
  | append_singleton calls c ih =>
      rw [runCalls_append] at hs
      obtain ⟨t, hcalls, hlast⟩ := bind_ok hs
      rw [runCalls_singleton] at hlast
      obtain ⟨ht, hleaves⟩ := ih hcalls
      have hmap := mapPageToFrame_spec ht c.aligned hlast
      refine ⟨hmap.intact, fun v => ?_⟩
      rw [hmap.leaves, lastCall_snoc]
      by_cases hv : SamePage v c.page
      · simp only [hv, if_true]
      · simp only [hv, if_false, hleaves]

theorem runCalls_isOk (h : Intact offset root s) (calls : List MapCall)
    (hfree : 3 * calls.length ≤ s.free.frames.length) :
    ∃ s', runCalls offset root s calls = .ok s' ∧
      s.free.frames.length ≤ s'.free.frames.length + 3 * calls.length := by
  induction calls using List.reverseRecOn with
  | nil => exact ⟨s, rfl, by simp⟩
  | append_singleton calls c ih =>
      simp only [List.length_append, List.length_singleton] at hfree ⊢
      obtain ⟨t, hcalls, hleft⟩ := ih (by omega)
      have ht := (runCalls_spec h calls hcalls).1
      have hlack : missing (edge offset t.mem) root (path c.page) ≤ 3 := missing_path_le t.mem c.page
      obtain ⟨s', hlast⟩ := mapPageToFrame_isOk ht c.page c.frame c.flags (by omega)
      have htaken := (mapPageToFrame_spec ht c.aligned hlast).frames_le
      exact ⟨s', by rw [runCalls_append, hcalls]; exact (runCalls_singleton c).trans hlast, by omega⟩

end

theorem fresh_tree (offset : Nat) {root : Nat} (m : Memory) {free : FreeStack} (hroot : IsTable root)
    (hdistinct : (root :: free.frames).Nodup) (hframes : ∀ f ∈ free.frames, IsFrame f) :
    Intact offset root ⟨construct m (wrap (root + offset)), free⟩ ∧
      ∀ v, leafEntry offset root (construct m (wrap (root + offset))) v = 0#64 := by
  obtain ⟨hfresh, hnodup⟩ := List.nodup_cons.mp hdistinct
  have hzero : ∀ i, entryAt offset (construct m (wrap (root + offset))) root i = 0#64 :=
    fun i => entryAt_construct_self
  refine ⟨intact_fresh hroot hzero hfresh hnodup hframes, fun v => ?_⟩
  apply leafEntry_of_missing
  simp only [path, follow, edge_of_zero (hzero _), Option.bind_none]

/-- The page tree refines a last-write-wins page map: the walk of any address
ends in the entry of the most recent call for its page, and in an entry that is
not present if there was none. Three free frames a call are always enough. -/
theorem page_tree_last_write_wins (offset root : Nat) (m : Memory) (free : FreeStack)
    (hroot : IsTable root) (hdistinct : (root :: free.frames).Nodup)
    (hframes : ∀ f ∈ free.frames, IsFrame f) (calls : List MapCall) :
    (∀ s', runCalls offset root ⟨construct m (wrap (root + offset)), free⟩ calls = .ok s' → ∀ v,
      Ia32e.leaf (physical offset s'.mem) root v =
        (lastCall calls v).map fun c => BitVec.ofNat 64 c.frame ||| (c.flags.bits ||| PageFlags.present)) ∧
    (3 * calls.length ≤ free.frames.length →
      ∃ s', runCalls offset root ⟨construct m (wrap (root + offset)), free⟩ calls = .ok s') := by
  obtain ⟨hintact, hnone⟩ := fresh_tree offset m hroot hdistinct hframes
  constructor
  · intro s' hs v
    obtain ⟨_, hleaves⟩ := runCalls_spec hintact calls hs
    rw [leaf_eq_leafEntry, hleaves]
    cases lastCall calls v with
    | some c =>
        simp only [entryWord_isPresent, if_true, Option.map_some]
        rfl
    | none =>
        simp only [hnone, Option.map_none]
        rfl
  · intro hfree
    obtain ⟨s', hs, _⟩ := runCalls_isOk hintact calls hfree
    exact ⟨s', hs⟩

/-- Two calls for one page, and a third for its neighbour, with nine frames to spare. -/
theorem page_tree_last_write_wins_three_calls :
    ∃ s', runCalls 0xffff800000000000 0x1000
        ⟨construct (fun _ => 0#64) (wrap (0x1000 + 0xffff800000000000)),
          ⟨[0x2000, 0x3000, 0x4000, 0x5000, 0x6000, 0x7000, 0x8000, 0x9000, 0xa000], 9, by decide⟩⟩
        [⟨0x400000, 0x20000, FlagSet.write, by decide⟩,
          ⟨0x400000, 0x8000021000, FlagSet.none, by decide⟩,
          ⟨0x401000, 0x22000, ⟨PageFlags.user, by decide⟩, by decide⟩] = .ok s' ∧
      Ia32e.leaf (physical 0xffff800000000000 s'.mem) 0x1000 0x400abc = some 0x8000021001#64 := by
  obtain ⟨hleaf, hok⟩ := page_tree_last_write_wins 0xffff800000000000 0x1000 (fun _ => 0#64)
    ⟨[0x2000, 0x3000, 0x4000, 0x5000, 0x6000, 0x7000, 0x8000, 0x9000, 0xa000], 9, by decide⟩
    (by decide) (by decide) (by decide)
    [⟨0x400000, 0x20000, FlagSet.write, by decide⟩,
      ⟨0x400000, 0x8000021000, FlagSet.none, by decide⟩,
      ⟨0x401000, 0x22000, ⟨PageFlags.user, by decide⟩, by decide⟩]
  obtain ⟨s', hs⟩ := hok (by decide)
  exact ⟨s', hs, (hleaf s' hs 0x400abc).trans (by decide)⟩

end DavOS
