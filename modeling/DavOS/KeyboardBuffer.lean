import DavOS.GuardedRun
import DavOS.Keyboard

/-! `KeyboardBuffer.hpp` against its own documentation: a key that is put into a
full buffer shall overwrite the oldest one. `put` hands the key to
`CircularQueue::enqueue`, which drops it instead. -/
namespace DavOS
open RingWindow GuardedRun

inductive KeyboardCall where
  | put (key : Key)
  | get
  deriving DecidableEq

/-- The buffer and the keys that `get` has returned so far. -/
def keyboardCall (s : Keyboard × List Key) : KeyboardCall → Keyboard × List Key
  | .put key => (s.1.put key, s.2)
  | .get => (s.1.get.2, s.2 ++ [s.1.get.1])

def keyboardCalls (k : Keyboard) (calls : List KeyboardCall) : Keyboard × List Key := calls.foldl keyboardCall (k, [])

/-! ### The documented buffer -/

/-- A full buffer gives up its oldest key for the new one. -/
def documentedPut (keys : List Key) (key : Key) : List Key :=
  if keys.length < 256 then keys ++ [key] else keys.tail ++ [key]

def documentedCall (s : List Key × List Key) : KeyboardCall → List Key × List Key
  | .put key => (documentedPut s.1 key, s.2)
  -- an empty buffer returns `Key::None`
  | .get => (s.1.tail, s.2 ++ [s.1.headD .none])

def documentedCalls (calls : List KeyboardCall) : List Key × List Key := calls.foldl documentedCall ([], [])

/-- The calls leave the keys in the buffer, and have returned the keys, that the documentation says. -/
def AsDocumented (k : Keyboard) (calls : List KeyboardCall) : Prop :=
  ((keyboardCalls k calls).1.buffer.contents, (keyboardCalls k calls).2) = documentedCalls calls

instance (k : Keyboard) (calls : List KeyboardCall) : Decidable (AsDocumented k calls) :=
  inferInstanceAs (Decidable (_ = _))

/-- A key that finds the buffer full finds nothing but itself in it, so that it
makes no difference which of the 257 keys is dropped. -/
def NoneDisplaced (k : Keyboard) (before : List KeyboardCall) : KeyboardCall → Prop
  | .put key => (keyboardCalls k before).1.buffer.isFull = true →
      (keyboardCalls k before).1.buffer.contents = List.replicate 256 key
  | .get => True

section

variable {k : Keyboard} {calls before : List KeyboardCall} {key x : Key}

theorem keyboardCalls_snoc (k : Keyboard) (calls : List KeyboardCall) (call : KeyboardCall) :
    keyboardCalls k (calls ++ [call]) = keyboardCall (keyboardCalls k calls) call := by
  simp [keyboardCalls]

theorem documentedCalls_snoc (calls : List KeyboardCall) (call : KeyboardCall) :
    documentedCalls (calls ++ [call]) = documentedCall (documentedCalls calls) call := by
  simp [documentedCalls]

theorem keyboardCalls_valid (hk : k.buffer.Valid) (calls : List KeyboardCall) :
    (keyboardCalls k calls).1.buffer.Valid := by
  induction calls using List.reverseRecOn with
  | nil => exact hk
  | append_singleton calls call ih =>
      rw [keyboardCalls_snoc]
      cases call with
      | put key => exact ih.enqueue
      | get => exact ih.dequeue

theorem cons_eq_snoc_iff (x key : Key) (keys : List Key) :
    x :: keys = keys ++ [key] ↔ x :: keys = List.replicate (keys.length + 1) key := by
  induction keys generalizing x with
  | nil => simp
  | cons y keys ih =>
      rw [List.cons_append, List.cons.injEq, ih, List.length_cons, List.replicate_succ (n := keys.length + 1),
        List.cons.injEq]
      constructor
      · rintro ⟨rfl, hrest⟩
        exact ⟨(List.cons.inj hrest).1, hrest⟩
      · rintro ⟨rfl, hrest⟩
        exact ⟨(List.cons.inj hrest).1.symm, hrest⟩

theorem get_contents (hk : k.buffer.Valid) :
    k.get.1 = k.buffer.contents.headD .none ∧ k.get.2.buffer.contents = k.buffer.contents.tail := by
  have h := CircularQueue.dequeue_eq hk
  exact ⟨congrArg Prod.fst h, congrArg Prod.snd h⟩

/-- A put does as documented when there is room, or when the key displaces its like. -/
theorem put_contents_iff (hk : k.buffer.Valid) (key : Key) :
    (k.put key).buffer.contents = documentedPut k.buffer.contents key ↔
      (k.buffer.isFull = true → k.buffer.contents = List.replicate 256 key) := by
  have hlength : k.buffer.contents.length = k.buffer.size := window_length _ _ _ _
  unfold documentedPut Keyboard.put
  rw [hlength]
  by_cases hfull : k.buffer.isFull = true
  · have hsize : k.buffer.size = 256 := by simpa [CircularQueue.isFull] using hfull
    rw [CircularQueue.enqueue_full hfull, if_neg (by omega)]
    cases hc : k.buffer.contents with
    | nil =>
        rw [hc, hsize] at hlength
        cases hlength
    | cons oldest keys =>
        have hkeys : keys.length + 1 = 256 := by
          rw [hc, hsize] at hlength
          exact hlength
        rw [List.tail_cons, cons_eq_snoc_iff, hkeys]
        exact ⟨fun h _ => h, fun h => h hfull⟩
  · have hroom : k.buffer.isFull = false := Bool.eq_false_iff.mpr hfull
    have hlt : k.buffer.size < 256 := Nat.lt_of_le_of_ne hk.size_le (by simpa [CircularQueue.isFull] using hfull)
    rw [if_pos hlt]
    exact iff_of_true (CircularQueue.contents_enqueue hk hroom) fun h => absurd h hfull

theorem asDocumented_snoc (hk : k.buffer.Valid) (h : AsDocumented k before) (call : KeyboardCall) :
    AsDocumented k (before ++ [call]) ↔ NoneDisplaced k before call := by
  have hvalid := keyboardCalls_valid hk before
  unfold AsDocumented at h ⊢
  rw [keyboardCalls_snoc, documentedCalls_snoc, ← h]
  cases call with
  | put key =>
      simp only [keyboardCall, documentedCall, Prod.mk.injEq, and_true]
      exact put_contents_iff hvalid key
  | get =>
      obtain ⟨hkey, hrest⟩ := get_contents hvalid
      simp only [keyboardCall, documentedCall, hkey, hrest]
      exact iff_of_true trivial trivial

end

/-- A sequence of calls keeps the newest 256 keys, as documented, exactly when no
put on a full buffer would displace a different key. -/
theorem newest_keys_kept_iff (data : Nat → Key) (calls : List KeyboardCall) :
    (∀ before, before <+: calls → AsDocumented (.fresh data) before) ↔
      ∀ before call after, calls = before ++ call :: after → NoneDisplaced (.fresh data) before call := by
  have hk := Keyboard.fresh_valid data
  rw [forall_prefix_iff fun before call _ _ h => asDocumented_snoc hk h call]
  exact ⟨fun h => h.2, fun h => ⟨rfl, h⟩⟩

theorem size_of_contents {k : Keyboard} {n : Nat} {key : Key} (h : k.buffer.contents = List.replicate n key) :
    k.buffer.size = n := by
  have hlength : k.buffer.contents.length = k.buffer.size := window_length _ _ _ _
  rw [← hlength, h, List.length_replicate]

theorem contents_put_full {k : Keyboard} {calls : List KeyboardCall}
    (hfull : (keyboardCalls k calls).1.buffer.isFull = true) (key : Key) :
    (keyboardCalls k (calls ++ [.put key])).1.buffer.contents = (keyboardCalls k calls).1.buffer.contents := by
  rw [keyboardCalls_snoc]
  exact congrArg CircularQueue.contents (CircularQueue.enqueue_full hfull)

theorem mem_documentedCalls (calls : List KeyboardCall) (key : Key) :
    key ∈ (documentedCalls (calls ++ [.put key])).1 := by
  rw [documentedCalls_snoc]
  change key ∈ documentedPut (documentedCalls calls).1 key
  unfold documentedPut
  split
  · exact List.mem_append_right _ (List.mem_singleton_self key)
  · exact List.mem_append_right _ (List.mem_singleton_self key)

theorem contents_puts (data : Nat → Key) (key : Key) {n : Nat} (hn : n ≤ 256) :
    (keyboardCalls (.fresh data) (List.replicate n (.put key))).1.buffer.contents = List.replicate n key := by
  induction n with
  | zero => rfl
  | succ n ih =>
      have hbefore := ih (Nat.le_of_succ_le hn)
      have hvalid := keyboardCalls_valid (Keyboard.fresh_valid data) (List.replicate n (.put key))
      have hroom : (keyboardCalls (.fresh data) (List.replicate n (.put key))).1.buffer.isFull = false := by
        rw [CircularQueue.isFull, size_of_contents hbefore]
        exact beq_false_of_ne (Nat.ne_of_lt hn)
      rw [List.replicate_succ', keyboardCalls_snoc, List.replicate_succ', ← hbefore]
      exact CircularQueue.contents_enqueue hvalid hroom

/-- 256 times the key `a`, then the key `b`. -/
def oneTooMany : List KeyboardCall :=
  List.replicate 256 (.put (.ofAscii 97)) ++ [.put (.ofAscii 98)]

/-- The oldest keys stay and the new one is lost. -/
theorem newest_key_dropped :
    (keyboardCalls (.fresh fun _ => .none) oneTooMany).1.buffer.contents = List.replicate 256 (.ofAscii 97) ∧
    ¬ AsDocumented (.fresh fun _ => .none) oneTooMany := by
  have hbefore := contents_puts (fun _ => .none) (.ofAscii 97) (Nat.le_refl 256)
  have hfull : (keyboardCalls (.fresh fun _ => .none)
      (List.replicate 256 (.put (.ofAscii 97)))).1.buffer.isFull = true := by
    rw [CircularQueue.isFull, size_of_contents hbefore]
    rfl
  have hkept : (keyboardCalls (.fresh fun _ => .none) oneTooMany).1.buffer.contents = List.replicate 256 (.ofAscii 97) := by
    rw [oneTooMany, contents_put_full hfull, hbefore]
  refine ⟨hkept, fun h => ?_⟩
  have hnew : Key.ofAscii 98 ∈ (documentedCalls oneTooMany).1 := mem_documentedCalls _ _
  rw [← congrArg Prod.fst h, hkept] at hnew
  exact absurd (List.eq_of_mem_replicate hnew) (by decide)

end DavOS
