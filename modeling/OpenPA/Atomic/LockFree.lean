/-
The operations emulated by load-link and store-conditional, by compare-and-swap, and by a compiler's or a system's
atomic functions are lock-free: whatever the others do, in any window in which one thread makes three accesses that do
not fail spuriously, some call returns, from any state on (`llsc_lock_free`, `cas_lock_free`). A thread may starve, but
not all of them.
-/
import OpenPA.Atomic.Intrinsics
import OpenPA.Machine.LockFree

namespace OpenPA.Atomic

open OpenPA.Machine

variable {w : Nat} {A B T : Type} [DecidableEq A] [DecidableEq B] [DecidableEq T]

/-- The emulation by load-link and store-conditional is lock-free, for any number of threads, calls and cells. In any
window without spurious failures in which a thread makes three accesses some call returns; and in an infinite
execution in which a thread makes infinitely many accesses, only finitely many of all of which fail spuriously,
infinitely many calls return. -/
theorem llsc_lock_free (t : T) :
    (∀ (s s' : System T (Linked T (Loc A B) (Val w)) (LlscPc (Loc A B) (Val w) (Ret w)) (Op w A B) (Ret w)) as,
      run (systemStep (llscObject llscCode)) s as = some s' → (∀ a ∈ as, a.Steady) → 3 ≤ steps t as →
      s.done.length < s'.done.length) ∧
    ∀ (state : Nat → System T (Linked T (Loc A B) (Val w)) (LlscPc (Loc A B) (Val w) (Ret w)) (Op w A B) (Ret w)) act,
      Execution (systemStep (llscObject llscCode)) state act → (∀ N, ∃ n b, N ≤ n ∧ act n = some (.step t b)) →
      (∃ N, ∀ n a, N ≤ n → act n = some a → a.Steady) → ∀ k, ∃ n, k ≤ (state n).done.length := by
  have hfree := llsc_lockFree (T := T) (llscCode (w := w) (A := A) (B := B))
  constructor
  · intro s s' as hrun hsteady hsteps
    exact hfree.window hrun hsteady hsteps
  · intro state act hexec hoften hsteady k
    exact hfree.forever hexec hoften hsteady k

/-- One thread has read a cell, and the other one changes it and returns: after it, the first one makes three
accesses, of which the last one stores. -/
def staleActs : List (SystemAct Bool (Op 8 Bool Bool)) :=
  [.call true (.fetchAndAddInt true 5), .step true false, .call false (.storeInt true 7), .step false false]

theorem llsc_lock_free_demo : ∃ s s' : System Bool (Linked Bool (Loc Bool Bool) (Val 8))
      (LlscPc (Loc Bool Bool) (Val 8) (Ret 8)) (Op 8 Bool Bool) (Ret 8),
    run (systemStep (llscObject llscCode)) (System.init ⟨zeroCells, fun _ _ => false⟩) staleActs = some s ∧
    run (systemStep (llscObject llscCode)) s (List.replicate 3 (.step true false)) = some s' ∧
    s.done.length < s'.done.length := by
  have h : ((run (systemStep (llscObject llscCode)) (System.init ⟨zeroCells, fun _ _ => false⟩) staleActs).bind
      fun s => run (systemStep (llscObject llscCode)) s (List.replicate 3 (.step true false))).isSome = true := by
    decide
  obtain ⟨s', hs'⟩ := Option.isSome_iff_exists.1 h
  obtain ⟨s, hs, hs'⟩ := Option.bind_eq_some_iff.1 hs'
  refine ⟨s, s', hs, hs', (llsc_lock_free true).1 s s' _ hs' ?_ (by decide)⟩
  intro a ha
  rw [List.eq_of_mem_replicate ha]
  exact rfl

/-- The ports of atomic functions are lock-free, and so is the emulation by compare-and-swap, for any number of threads,
calls and cells. In any window in which a thread makes three accesses some call returns; and in an infinite execution
in which a thread makes infinitely many, infinitely many calls return. -/
theorem cas_lock_free {Op' : Type} (code : Op' → Code (Loc A B) (Val w) (Ret w)) (t : T) :
    (∀ (s s' : System T (Cells w A B) (CasPc (Loc A B) (Val w) (Ret w)) Op' (Ret w)) as,
      run (systemStep (casObject code)) s as = some s' → 3 ≤ steps t as → s.done.length < s'.done.length) ∧
    ∀ (state : Nat → System T (Cells w A B) (CasPc (Loc A B) (Val w) (Ret w)) Op' (Ret w)) act,
      Execution (systemStep (casObject code)) state act → (∀ N, ∃ n b, N ≤ n ∧ act n = some (.step t b)) →
      ∀ k, ∃ n, k ≤ (state n).done.length := by
  have hfree := casObject_lockFree (T := T) code
  constructor
  · intro s s' as hrun hsteps
    exact hfree.window hrun (fun _ _ => trivial) hsteps
  · intro state act hexec hoften k
    exact hfree.forever hexec hoften ⟨0, fun _ _ _ _ => trivial⟩ k

/-- With gcc's intrinsics a thread has loaded a cell for its swap, and the other one changes it and returns: after it,
the first one makes three accesses, of which the second one is the compare-and-swap that succeeds. -/
theorem cas_lock_free_demo : ∃ s s' : System Bool (Cells 8 Bool Bool) (CasPc (Loc Bool Bool) (Val 8) (Ret 8))
      (Op 8 Bool Bool) (Ret 8),
    run (systemStep (casObject (IntrinsicPort.gcc false).code)) (System.init zeroCells) [.call true (.swapInt true 5),
      .step true false, .call false (.storeInt true 7), .step false false] = some s ∧
    run (systemStep (casObject (IntrinsicPort.gcc false).code)) s [.step true false, .step true false,
      .call true (.loadInt true), .step true false] = some s' ∧
    s.done.length < s'.done.length := by
  have h : ((run (systemStep (casObject (IntrinsicPort.gcc false).code)) (System.init (zeroCells : Cells 8 Bool Bool))
      [.call true (Op.swapInt true 5), .step true false, .call false (.storeInt true 7), .step false false]).bind
      fun s => run (systemStep (casObject (IntrinsicPort.gcc false).code)) s [.step true false, .step true false,
        .call true (.loadInt true), .step true false]).isSome = true := by
    decide
  obtain ⟨s', hs'⟩ := Option.isSome_iff_exists.1 h
  obtain ⟨s, hs, hs'⟩ := Option.bind_eq_some_iff.1 hs'
  exact ⟨s, s', hs, hs', (cas_lock_free _ true).1 s s' _ hs' (by decide)⟩

end OpenPA.Atomic
