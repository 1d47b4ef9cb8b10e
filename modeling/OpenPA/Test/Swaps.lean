/-
The threads of `test_threaded_swap_int` and `test_threaded_swap_ptr`: each swaps a shared value with one of its own,
again and again. Swaps only move values about: on every port the values at the end are those at first, in other
places (`threaded_swaps`), which is what the tests check.
-/
import Mathlib.Logic.Equiv.Basic
import OpenPA.Atomic.Primitives

namespace OpenPA.Test

open OpenPA.Machine OpenPA.Atomic

variable {w : Nat} {A B T V : Type}

/-- The thread's own value, and how often it has swapped. -/
structure SwapData (V : Type) where
  local_val : V
  i : Nat

/-- The loop around a swap of the thread's own value. -/
def swapLoop (niter : Nat) (swap : V → Op w A B) (val : Ret w → Option V) :
    Client T (Op w A B) (Ret w) (SwapData V) where
  next _ c := if c.i < niter then some (swap c.local_val) else none
  resume _ c r := match val r with
    | some v => ⟨v, c.i + 1⟩
    | none => c

def threadedSwapIntHelper (shared_val : A) (niter : Nat) : Client T (Op w A B) (Ret w) (SwapData (BitVec 32)) :=
  swapLoop niter (.swapInt shared_val) Ret.asInt

def threadedSwapPtrHelper (shared_val : B) (niter : Nat) : Client T (Op w A B) (Ret w) (SwapData (BitVec w)) :=
  swapLoop niter (.swapPtr shared_val) Ret.asPtr

/-- The values: the shared one, and the threads' own. -/
def held (shared : V) (own : T → SwapData V) : Option T → V
  | none => shared
  | some t => (own t).local_val

/-- The values are those at first, in other places. -/
def Permuted (first now : Option T → V) : Prop := ∃ places : Equiv.Perm (Option T), ∀ x, now x = first (places x)

/-- They are, and so values that are pairwise different at first are each in one place, as the tests check. -/
def SwapPasses (first now : Option T → V) : Prop :=
  Permuted first now ∧ (Function.Injective first → ∀ y, ∃ x, now x = first y ∧ ∀ x', now x' = first y → x' = x)

theorem Permuted.passes {first now : Option T → V} (h : Permuted first now) : SwapPasses first now := by
  refine ⟨h, fun hfirst y => ?_⟩
  obtain ⟨places, hplaces⟩ := h
  refine ⟨places.symm y, ?_, ?_⟩
  · rw [hplaces, Equiv.apply_symm_apply]
  · intro x' hx'
    rw [hplaces] at hx'
    rw [← hfirst hx', Equiv.symm_apply_apply]

section

variable [DecidableEq A] [DecidableEq B] [DecidableEq T]

/-- A swap exchanges the shared value with the thread's own. -/
theorem swapLoop_step {niter : Nat} {swap : V → Op w A B} {val : Ret w → Option V} {cell : Cells w A B → V}
    (hcell : ∀ m v, cell (byLock m (swap v)).1 = v) (hval : ∀ m v, val (byLock m (swap v)).2 = some (cell m))
    {first : Option T → V} {v v' : Clients (Cells w A B) T (SwapData V)} {t : T}
    (hv : Permuted first (held (cell v.shared) v.own))
    (hstep : callStep (swapLoop niter swap val) byLock v t = some v') :
    Permuted first (held (cell v'.shared) v'.own) := by
  obtain ⟨op, hop, rfl⟩ := Option.map_eq_some_iff.1 hstep
  obtain ⟨places, hplaces⟩ := hv
  simp only [swapLoop] at hop
  split at hop
  · cases hop
    refine ⟨(Equiv.swap none (some t)).trans places, fun x => ?_⟩
    rw [Equiv.trans_apply, ← hplaces]
    have hresume : (swapLoop niter swap val).resume t (v.own t) (byLock v.shared (swap (v.own t).local_val)).2 =
        ⟨cell v.shared, (v.own t).i + 1⟩ := by
      simp only [swapLoop, hval]
    rw [hresume]
    rcases x with _ | t'
    · rw [Equiv.swap_apply_left]
      exact hcell _ _
    · show (Function.update v.own t _ t').local_val = _
      by_cases ht : t' = t
      · subst ht
        rw [Function.update_self, Equiv.swap_apply_right]
        rfl
      · rw [Function.update_of_ne ht, Equiv.swap_apply_of_ne_of_ne (Option.some_ne_none t')
          fun h => ht (Option.some.inj h)]
        rfl
  · cases hop

theorem swapLoop_permuted (P : Primitives T w A B) {niter : Nat} {swap : V → Op w A B} {val : Ret w → Option V}
    {cell : Cells w A B → V} (hcell : ∀ m v, cell (byLock m (swap v)).1 = v)
    (hval : ∀ m v, val (byLock m (swap v)).2 = some (cell m)) {m : Cells w A B} {own : T → SwapData V}
    {as : List (T × Bool)} {s : Served T P.State P.Pc (Op w A B) (SwapData V)}
    (hrun : run (servedStep (swapLoop niter swap val) P.object) (Served.init (P.init m) own) as = some s)
    (hidle : ∀ t, s.running t = none) : Permuted (held (cell m) own) (held (cell (P.mem s.shared)) s.own) := by
  have hs := P.invariant (I := fun v => Permuted (held (cell m) own) (held (cell v.shared) v.own))
    (fun _ _ _ hv hstep => swapLoop_step hcell hval hv hstep) ⟨Equiv.refl _, fun _ => rfl⟩ hrun
  rw [Served.atOnce_idle hidle] at hs
  exact hs

/-- The two tests, on any port, for any threads, numbers of iterations, values and interleaving: when no call is under
way, the shared value and the threads' own are those at first, in other places; so that values which are pairwise
different at first are each in one place. -/
theorem threaded_swaps (P : Primitives T w A B) (niter : Nat) (m : Cells w A B) (as : List (T × Bool)) :
    (∀ (shared_val : A) own s,
      run (servedStep (threadedSwapIntHelper shared_val niter) P.object) (Served.init (P.init m) own) as = some s →
      (∀ t, s.running t = none) →
      SwapPasses (held (intAt shared_val m) own) (held (intAt shared_val (P.mem s.shared)) s.own)) ∧
    (∀ (shared_val : B) own s,
      run (servedStep (threadedSwapPtrHelper shared_val niter) P.object) (Served.init (P.init m) own) as = some s →
      (∀ t, s.running t = none) →
      SwapPasses (held (ptrAt shared_val m) own) (held (ptrAt shared_val (P.mem s.shared)) s.own)) := by
  constructor
  · intro shared_val own s hrun hidle
    have hcell : ∀ (m : Cells w A B) v, intAt shared_val (byLock m (.swapInt shared_val v)).1 = v := by
      intro m v
      exact atCell_self m (l := .int shared_val) (ByLock.swapInt v) .int
    exact (swapLoop_permuted P hcell (fun _ _ => rfl) hrun hidle).passes
  · intro shared_val own s hrun hidle
    have hcell : ∀ (m : Cells w A B) v, ptrAt shared_val (byLock m (.swapPtr shared_val v)).1 = v := by
      intro m v
      exact atCell_self m (l := .ptr shared_val) (ByLock.swapPtr v) .ptr
    exact (swapLoop_permuted P hcell (fun _ _ => rfl) hrun hidle).passes

end

/-- Two threads swap their numbers with a pointer, which is swapped by compare-and-swap; the first one's fails once. -/
def swapActs : List (Bool × Bool) :=
  [(true, false), (true, false), (false, false), (false, false), (false, false), (true, false), (true, false)]

def numbers (t : Bool) : SwapData (BitVec 8) := ⟨if t then 1 else 2, 0⟩

theorem threaded_swaps_demo : ∃ s : Served Bool _ _ (Op 8 Bool Bool) (SwapData (BitVec 8)),
    run (servedStep (threadedSwapPtrHelper true 1) Primitives.cas.object)
      (Served.init (Primitives.cas.init zeroCells) numbers) swapActs = some s ∧
    SwapPasses (held 0 numbers) (held (ptrAt true (Primitives.cas.mem s.shared)) s.own) := by
  have h : (run (servedStep (threadedSwapPtrHelper (A := Bool) true 1) Primitives.cas.object)
      (Served.init (Primitives.cas.init zeroCells) numbers) swapActs).map
      (fun s => decide (∀ t, (s.running t).isNone = true)) = some true := by decide
  obtain ⟨s, hs, hd⟩ := Option.map_eq_some_iff.1 h
  simp only [decide_eq_true_eq, Option.isNone_iff_eq_none] at hd
  exact ⟨s, hs, (threaded_swaps Primitives.cas 1 zeroCells swapActs).2 true numbers s hs hd⟩

end OpenPA.Test
