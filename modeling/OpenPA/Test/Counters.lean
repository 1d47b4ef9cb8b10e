/-
The threads of `test_primitives.c` that count. Those of `test_threaded_add`, `test_threaded_faa`,
`test_threaded_incr_decr` and `test_threaded_fai_fad` change a shared value and do not look at it: on every port it
ends as the tests expect (`threaded_sums`). Those of `test_threaded_faa_ret`, `test_threaded_fad_ret` and
`test_threaded_fai_ret` check what is returned: on every port none of them finds an error, and the value that the
test waits for is returned to one of them, once (`threaded_rets`). Those of `test_threaded_decr_and_test` count how
often they are told that the value is 0: on every port one of them is, once (`threaded_decr_and_test`).
-/
import Mathlib.Algebra.BigOperators.Fin
import Mathlib.Algebra.BigOperators.Intervals
import Mathlib.Algebra.BigOperators.Ring.Finset
import Mathlib.Algebra.Order.BigOperators.Group.Finset
import Mathlib.Tactic.Linarith
import OpenPA.Atomic.Addends

namespace OpenPA.Test

open OpenPA.Machine OpenPA.Atomic

variable {w : Nat} {A B T C : Type}

/-! ## Sums over the threads -/

/-- One thread's term changes. -/
theorem sum_move [DecidableEq T] [Fintype T] {M : Type} [AddCommMonoid M] (F : T → C → M) (own : T → C) (t : T)
    (c : C) :
    ∑ t', F t' (Function.update own t c t') + F t (own t) = ∑ t', F t' (own t') + F t c := by
  have hrest : ∑ t' ∈ Finset.univ.erase t, F t' (Function.update own t c t') =
      ∑ t' ∈ Finset.univ.erase t, F t' (own t') := by
    apply Finset.sum_congr rfl
    intro t' ht'
    rw [Function.update_of_ne (Finset.ne_of_mem_erase ht')]
  rw [← Finset.sum_erase_add _ _ (Finset.mem_univ t),
    ← Finset.sum_erase_add _ (fun t' => F t' (own t')) (Finset.mem_univ t), hrest, Function.update_self, add_right_comm]

/-- While one thread has still to call, not all calls have been made. -/
theorem sum_lt_all [Fintype T] {i : T → Nat} {niter : Nat} {t : T} (hbound : ∀ t, i t ≤ niter) (hlt : i t < niter) :
    ∑ t, i t < Fintype.card T * niter := by
  rw [← smul_eq_mul, ← Finset.card_univ, ← Finset.sum_const]
  exact Finset.sum_lt_sum (fun t _ => hbound t) ⟨t, Finset.mem_univ t, hlt⟩

/-! ## Threads that do not look at the value -/

/-- `for(i=0; i<niter; i++)` around one call; a thread has its `i`. -/
def callLoop (niter : Nat) (op : T → Op w A B) : Client T (Op w A B) (Ret w) Nat where
  next t i := if i < niter then some (op t) else none
  resume _ i _ := i + 1

variable {nthreads : Nat}

section

variable [DecidableEq A] [DecidableEq B] [DecidableEq T] [Fintype T]

/-- The shared value of the loops: what it was at first, and what the threads have added. -/
structure LoopOk (ptr : A) (niter : Nat) (d : T → BitVec 32) (x : BitVec 32) (v : Clients (Cells w A B) T Nat) :
    Prop where
  sum : intAt ptr v.shared = x + ∑ t, (v.own t : BitVec 32) * d t
  bound : ∀ t, v.own t ≤ niter

theorem LoopOk.step {ptr : A} {niter : Nat} {op : T → Op w A B} {d : T → BitVec 32} {x : BitVec 32}
    (hd : ∀ t, (op t).addend ptr = some (d t)) {v v' : Clients (Cells w A B) T Nat} {t : T}
    (hv : LoopOk ptr niter d x v) (hstep : callStep (callLoop niter op) byLock v t = some v') :
    LoopOk ptr niter d x v' := by
  obtain ⟨op', hop, rfl⟩ := Option.map_eq_some_iff.1 hstep
  simp only [callLoop] at hop
  split at hop
  · rename_i hlt
    cases hop
    constructor
    · have hsum := sum_move (fun t i => ((i : Nat) : BitVec 32) * d t) v.own t (v.own t + 1)
      show intAt ptr (byLock v.shared (op t)).1 =
        x + ∑ t', (Function.update v.own t (v.own t + 1) t' : BitVec 32) * d t'
      rw [byLock_addend (hd t), hv.sum]
      rw [Nat.cast_succ, add_mul, one_mul, ← add_assoc, add_right_comm] at hsum
      rw [add_assoc, ← add_right_cancel hsum]
    · intro t'
      show Function.update v.own t (v.own t + 1) t' ≤ niter
      by_cases ht : t' = t
      · subst ht
        rw [Function.update_self]
        exact hlt
      · rw [Function.update_of_ne ht]
        exact hv.bound t'
  · cases hop

end

section

variable [DecidableEq A] [DecidableEq B]

end

/-! ## Threads that check what is returned -/

/-- The locals of such a thread, and what it reports. -/
structure RetData where
  i : Nat
  prev : BitVec 32
  nerrors : Nat
  n1 : Nat

/-- The loop around a call that fetches: `unexpected` compares what it returns with what the one before returned, and
`awaited` is the value that is counted. -/
def retLoop (niter : Nat) (op : Op w A B) (unexpected : BitVec 32 → BitVec 32 → Bool) (awaited : BitVec 32) :
    Client T (Op w A B) (Ret w) RetData where
  next _ c := if c.i < niter then some op else none
  resume _ c
    | .int ret =>
      { i := c.i + 1
        prev := ret
        nerrors := if unexpected ret c.prev then c.nerrors + 1 else c.nerrors
        n1 := if ret = awaited then c.n1 + 1 else c.n1 }
    | _ => c

/-- `ret >= prev` -/
def threadedFaaRetHelper (shared_val : A) (niter : Nat) : Client T (Op w A B) (Ret w) RetData :=
  retLoop niter (.fetchAndAddInt shared_val (-1)) (fun ret prev => prev.sle ret) 1

/-- `ret >= prev` -/
def threadedFadRetHelper (shared_val : A) (niter : Nat) : Client T (Op w A B) (Ret w) RetData :=
  retLoop niter (.fetchAndDecrInt shared_val) (fun ret prev => prev.sle ret) 1

/-- `ret <= prev` -/
def threadedFaiRetHelper (shared_val : A) (niter : Nat) : Client T (Op w A B) (Ret w) RetData :=
  retLoop niter (.fetchAndIncrInt shared_val) (fun ret prev => ret.sle prev) (-1)

/-- A thread that goes down starts with `prev` at `INT_MAX`. -/
def RetData.down : RetData := ⟨0, BitVec.intMax 32, 0, 0⟩

/-- A thread that goes up starts with `prev` at `INT_MIN`. -/
def RetData.up : RetData := ⟨0, BitVec.intMin 32, 0, 0⟩

/-- What such threads do to a value that starts at `S` and goes up by one or down by one (`σ`): it has gone as far as
they have called, each has last got one that it has left behind, and the awaited one has been returned if it has been
passed. -/
structure RetOk [Fintype T] (ptr : A) (niter : Nat) (S σ awaited : Int) (v : Clients (Cells w A B) T RetData) :
    Prop where
  value : (intAt ptr v.shared).toInt = S + σ * ∑ t, ((v.own t).i : Int)
  bound : ∀ t, (v.own t).i ≤ niter
  prev : ∀ t, σ * (v.own t).prev.toInt < σ * (intAt ptr v.shared).toInt
  errors : ∀ t, (v.own t).nerrors = 0
  once : ∑ t, (v.own t).n1 =
    if σ * S ≤ σ * awaited ∧ σ * awaited < σ * (intAt ptr v.shared).toInt then 1 else 0

section

variable [DecidableEq A] [DecidableEq B] [DecidableEq T] [Fintype T]

omit [DecidableEq A] [DecidableEq B] [DecidableEq T] [Fintype T] in
theorem toInt_add_of_range {x d : BitVec 32} (hlo : -2 ^ 31 ≤ x.toInt + d.toInt) (hhi : x.toInt + d.toInt < 2 ^ 31) :
    (x + d).toInt = x.toInt + d.toInt := by
  rw [BitVec.toInt_add]
  apply Int.bmod_eq_of_le
  · omega
  · omega

theorem RetOk.step {ptr : A} {niter : Nat} {op : Op w A B} {unexpected : BitVec 32 → BitVec 32 → Bool}
    {awaited d : BitVec 32} {S σ : Int} (hσ : σ = 1 ∨ σ = -1) (hd : op.addend ptr = some d) (hdσ : d.toInt = σ)
    (hfetch : op.fetches ptr = true)
    (hexpected : ∀ ret prev : BitVec 32, σ * prev.toInt < σ * ret.toInt → unexpected ret prev = false)
    (hrange : ∀ k : Nat, k ≤ Fintype.card T * niter → -2 ^ 31 ≤ S + σ * k ∧ S + σ * k < 2 ^ 31)
    {v v' : Clients (Cells w A B) T RetData} {t : T} (hv : RetOk ptr niter S σ awaited.toInt v)
    (hstep : callStep (retLoop niter op unexpected awaited) byLock v t = some v') :
    RetOk ptr niter S σ awaited.toInt v' := by
  obtain ⟨op', hop, rfl⟩ := Option.map_eq_some_iff.1 hstep
  simp only [retLoop] at hop
  split at hop
  · rename_i hlt
    cases hop
    rw [byLock_fetches hfetch]
    -- the thread after the call, which returned `x`
    set x := intAt ptr v.shared with hx
    have hret : (retLoop niter op unexpected awaited).resume t (v.own t) (.int x : Ret w) =
        ⟨(v.own t).i + 1, x, 0, if x = awaited then (v.own t).n1 + 1 else (v.own t).n1⟩ := by
      show RetData.mk _ _ (if unexpected x (v.own t).prev = true then _ else _) _ = _
      rw [hexpected _ _ (hv.prev t), if_neg (by decide), hv.errors t]
    rw [hret]
    set c : RetData := ⟨(v.own t).i + 1, x, 0, if x = awaited then (v.own t).n1 + 1 else (v.own t).n1⟩ with hc
    have hcount : ∑ t', ((Function.update v.own t c t').i : Int) = ∑ t', ((v.own t').i : Int) + 1 := by
      have := sum_move (fun _ (c : RetData) => (c.i : Int)) v.own t c
      simp only [hc, Nat.cast_succ] at this ⊢
      omega
    have hroom : ∑ t', (v.own t').i + 1 ≤ Fintype.card T * niter := sum_lt_all hv.bound hlt
    have hnew : (intAt ptr (byLock v.shared op).1).toInt = x.toInt + σ := by
      have hr := hrange _ hroom
      have hval := hv.value
      rw [byLock_addend hd, toInt_add_of_range, hdσ]
      all_goals
        rw [hdσ, ← hx, hval]
        push_cast at hr
        rcases hσ with rfl | rfl <;> omega
    -- the threads other than `t` have what they had
    have hother : ∀ Q : RetData → Prop, Q c → (∀ t', Q (v.own t')) → ∀ t', Q (Function.update v.own t c t') := by
      intro Q hself hrest t'
      by_cases ht : t' = t
      · rw [ht, Function.update_self]
        exact hself
      · rw [Function.update_of_ne ht]
        exact hrest t'
    constructor
    · show (intAt ptr (byLock v.shared op).1).toInt = S + σ * ∑ t', ((Function.update v.own t c t').i : Int)
      rw [hnew, hcount, mul_add, mul_one, ← add_assoc, hx, hv.value]
    · exact hother (fun c => c.i ≤ niter) hlt hv.bound
    · show ∀ t', σ * (Function.update v.own t c t').prev.toInt < σ * (intAt ptr (byLock v.shared op).1).toInt
      rw [hnew]
      apply hother (fun c => σ * c.prev.toInt < σ * (x.toInt + σ))
      · show σ * x.toInt < σ * (x.toInt + σ)
        rcases hσ with rfl | rfl <;> omega
      · intro t'
        have hprev := hv.prev t'
        rw [← hx] at hprev
        rcases hσ with rfl | rfl <;> omega
    · exact hother (fun c => c.nerrors = 0) rfl hv.errors
    · have hmoved := sum_move (fun _ (c : RetData) => c.n1) v.own t c
      show ∑ t', (Function.update v.own t c t').n1 =
        if _ ∧ σ * _ < σ * (intAt ptr (byLock v.shared op).1).toInt then 1 else 0
      have honce := hv.once
      have hS : σ * S ≤ σ * x.toInt := by
        rw [hx, hv.value]
        have hnonneg : 0 ≤ ∑ t', ((v.own t').i : Int) := Finset.sum_nonneg fun _ _ => Int.natCast_nonneg _
        rcases hσ with rfl | rfl <;> omega
      have hn1 : c.n1 = (v.own t).n1 + if x.toInt = awaited.toInt then 1 else 0 := by
        simp only [hc, BitVec.toInt_inj]
        split <;> rfl
      rw [hn1] at hmoved
      rw [← hx] at honce
      rw [hnew]
      rcases hσ with rfl | rfl <;> split at hmoved <;> split at honce <;> split <;> omega
  · cases hop

/-- What such threads report: none of them an error, and when all have come to their end, that the awaited value was
returned once and that the shared value is `expected`. -/
def RetPasses (P : Primitives T w A B) (shared_val : A) (niter : Nat) (expected : Int)
    (s : Served T P.State P.Pc (Op w A B) RetData) : Prop :=
  (∀ t, s.running t = none → (s.own t).nerrors = 0) ∧
  ((∀ t, s.running t = none ∧ (s.own t).i = niter) →
    ∑ t, (s.own t).n1 = 1 ∧ (intAt shared_val (P.mem s.shared)).toInt = expected)

theorem ret_passes (P : Primitives T w A B) {shared_val : A} {niter : Nat} {op : Op w A B}
    {unexpected : BitVec 32 → BitVec 32 → Bool} {awaited d : BitVec 32} {S σ : Int} {first : RetData}
    (hσ : σ = 1 ∨ σ = -1) (hd : op.addend shared_val = some d) (hdσ : d.toInt = σ)
    (hfetch : op.fetches shared_val = true)
    (hexpected : ∀ ret prev : BitVec 32, σ * prev.toInt < σ * ret.toInt → unexpected ret prev = false)
    (hrange : ∀ k : Nat, k ≤ Fintype.card T * niter → -2 ^ 31 ≤ S + σ * k ∧ S + σ * k < 2 ^ 31)
    (hfirst : first.i = 0 ∧ first.nerrors = 0 ∧ first.n1 = 0 ∧ σ * first.prev.toInt < σ * S)
    (hpassed : σ * S ≤ σ * awaited.toInt ∧ σ * awaited.toInt < σ * S + Fintype.card T * niter)
    {m : Cells w A B} (hS : (intAt shared_val m).toInt = S) {as : List (T × Bool)}
    {s : Served T P.State P.Pc (Op w A B) RetData}
    (hrun : run (servedStep (retLoop niter op unexpected awaited) P.object)
      (Served.init (P.init m) fun _ => first) as = some s) :
    RetPasses P shared_val niter (S + σ * (Fintype.card T * niter)) s := by
  obtain ⟨hi, herr, hn1, hprev⟩ := hfirst
  have hstart : RetOk shared_val niter S σ awaited.toInt (⟨m, fun _ => first⟩ : Clients (Cells w A B) T RetData) := by
    refine ⟨?_, fun _ => ?_, fun _ => ?_, fun _ => herr, ?_⟩
    · show (intAt shared_val m).toInt = S + σ * ∑ t : T, (first.i : Int)
      rw [hS, hi, Nat.cast_zero, Finset.sum_const_zero, mul_zero, add_zero]
    · show first.i ≤ niter
      rw [hi]
      exact Nat.zero_le _
    · show σ * first.prev.toInt < σ * (intAt shared_val m).toInt
      rw [hS]
      exact hprev
    · show ∑ t : T, first.n1 = if _ ∧ σ * _ < σ * (intAt shared_val m).toInt then 1 else 0
      rw [hn1, Finset.sum_const_zero, hS, if_neg (by omega)]
  have hs := P.invariant (fun _ _ _ hv hstep => hv.step hσ hd hdσ hfetch hexpected hrange hstep) hstart hrun
  constructor
  · intro t ht
    rw [← Served.atOnce_own ht]
    exact hs.errors t
  · intro hend
    rw [Served.atOnce_idle fun t => (hend t).1] at hs
    have hvalue := hs.value
    have honce := hs.once
    have hown : ∀ t, (s.own t).i = niter := fun t => (hend t).2
    simp only [hown, Finset.sum_const, Finset.card_univ, nsmul_eq_mul] at hvalue
    refine ⟨?_, hvalue⟩
    rw [honce, hvalue, if_pos]
    rcases hσ with rfl | rfl <;> omega

/-- The three tests, on any port, for any number of threads and iterations and any interleaving, as long as the shared
value stays an `int`: no thread finds a value that is not below the one it got before (not above it, where they count
up), and when all have come to their end, 1 (or -1) has been returned to one of them, once, and the shared value is
the one that the test expects. -/
theorem threaded_rets (P : Primitives T w A B) (shared_val : A) (niter : Nat) (m : Cells w A B) (as : List (T × Bool))
    (s : Served T P.State P.Pc (Op w A B) RetData) (hpos : 0 < Fintype.card T * niter)
    (hrange : (Fintype.card T - 1) * niter < 2 ^ 31) (hniter : niter < 2 ^ 31 - 1) :
    ((intAt shared_val m).toInt = niter →
      run (servedStep (threadedFaaRetHelper shared_val niter) P.object) (Served.init (P.init m) fun _ => RetData.down)
        as = some s → RetPasses P shared_val niter (-((Fintype.card T - 1 : Int) * niter)) s) ∧
    ((intAt shared_val m).toInt = niter →
      run (servedStep (threadedFadRetHelper shared_val niter) P.object) (Served.init (P.init m) fun _ => RetData.down)
        as = some s → RetPasses P shared_val niter (-((Fintype.card T - 1 : Int) * niter)) s) ∧
    ((intAt shared_val m).toInt = -niter →
      run (servedStep (threadedFaiRetHelper shared_val niter) P.object) (Served.init (P.init m) fun _ => RetData.up)
        as = some s → RetPasses P shared_val niter ((Fintype.card T - 1 : Int) * niter) s) := by
  have hself : ∀ val : BitVec 32, some (if shared_val = shared_val then val else 0) = some val := by
    intro val
    rw [if_pos rfl]
  have hfetch : decide (shared_val = shared_val) = true := decide_eq_true rfl
  obtain ⟨n, hn⟩ := Nat.exists_eq_succ_of_ne_zero (Nat.pos_of_mul_pos_right hpos).ne'
  have hniter0 : 0 < niter := Nat.pos_of_mul_pos_left hpos
  rw [hn, Nat.succ_sub_one] at hrange
  have hall : Fintype.card T * niter = n * niter + niter := by rw [hn, Nat.succ_mul]
  have hallInt : (Fintype.card T : Int) * niter = (n * niter : Nat) + niter := by exact_mod_cast hall
  have hexpected : (Fintype.card T - 1 : Int) * niter = (n * niter : Nat) := by
    rw [sub_mul, one_mul, hallInt, add_sub_cancel_right]
  have hmax : (BitVec.intMax 32).toInt = 2 ^ 31 - 1 := by decide
  have hmin : (BitVec.intMin 32).toInt = -2 ^ 31 := by decide
  have hone : (1 : BitVec 32).toInt = 1 := by decide
  have hneg : (-1 : BitVec 32).toInt = -1 := by decide
  -- downwards: fetch-and-add of -1, and fetch-and-decrement
  have hdown : ∀ op : Op w A B, op.addend shared_val = some (-1) → op.fetches shared_val = true →
      (intAt shared_val m).toInt = niter →
      run (servedStep (retLoop niter op (fun ret prev => prev.sle ret) 1) P.object)
        (Served.init (P.init m) fun _ => RetData.down) as = some s →
      RetPasses P shared_val niter (-((Fintype.card T - 1 : Int) * niter)) s := by
    intro op hadd hfetch hS hrun
    rw [hexpected]
    have hend : -((n * niter : Nat) : Int) = niter + -1 * (Fintype.card T * niter) := by
      rw [hallInt]
      omega
    rw [hend]
    apply ret_passes P (.inr rfl) hadd hneg hfetch _ _ _ _ hS hrun
    · intro ret prev hlt
      rw [BitVec.sle_eq_decide, decide_eq_false_iff_not]
      omega
    · intro k hk
      omega
    · refine ⟨rfl, rfl, rfl, ?_⟩
      show -1 * (BitVec.intMax 32).toInt < -1 * (niter : Int)
      rw [hmax]
      omega
    · rw [hone, hallInt]
      omega
  refine ⟨hdown _ (hself (-1)) hfetch, hdown _ (hself (-1)) hfetch, ?_⟩
  intro hS hrun
  rw [hexpected]
  have hend : ((n * niter : Nat) : Int) = -niter + 1 * (Fintype.card T * niter) := by
    rw [hallInt]
    omega
  rw [hend]
  have hadd : (Op.fetchAndIncrInt shared_val : Op w A B).addend shared_val = some 1 := hself 1
  -- upwards: the same with the signs the other way
  apply ret_passes P (.inl rfl) hadd hone hfetch _ _ _ _ hS hrun
  · intro ret prev hlt
    rw [BitVec.sle_eq_decide, decide_eq_false_iff_not]
    omega
  · intro k hk
    omega
  · refine ⟨rfl, rfl, rfl, ?_⟩
    show 1 * (BitVec.intMin 32).toInt < 1 * (-niter : Int)
    rw [hmin]
    omega
  · rw [hneg, hallInt]
    omega

end

/-- Two threads count down from 2 twice each, on x86. -/
def retActs : List (Bool × Bool) :=
  [(true, false), (false, false), (false, false), (true, false), (true, false), (false, false), (false, false),
    (false, false), (true, false), (true, false), (false, false), (true, false)]

def twoAt : Cells 8 Bool Bool := Function.update zeroCells (.int true) (2#32 : BitVec 32)

theorem threaded_rets_demo : ∃ s : Served Bool _ _ (Op 8 Bool Bool) RetData,
    run (servedStep (threadedFadRetHelper true 2) Primitives.intel.object)
      (Served.init (Primitives.intel.init twoAt) fun _ => RetData.down) retActs = some s ∧
    RetPasses Primitives.intel true 2 (-2) s ∧ ∑ t, (s.own t).n1 = 1 := by
  have h : (run (servedStep (threadedFadRetHelper true 2) Primitives.intel.object)
      (Served.init (Primitives.intel.init twoAt) fun _ => RetData.down) retActs).map
      (fun s => decide (∀ t, (s.running t).isNone = true ∧ (s.own t).i = 2)) = some true := by decide
  obtain ⟨s, hs, hd⟩ := Option.map_eq_some_iff.1 h
  simp only [decide_eq_true_eq, Option.isNone_iff_eq_none] at hd
  have hpass := (threaded_rets Primitives.intel true 2 twoAt retActs s (by decide) (by decide) (by decide)).2.1
    (by decide) hs
  exact ⟨s, hs, hpass, (hpass.2 hd).1⟩

/-! ## Threads that test for zero -/

/-- The loop's `i`, and how often the call has returned true. -/
structure DecrTest where
  i : Nat
  ntrue : Nat

def threadedDecrAndTestHelper (shared_val : A) (niter : Nat) : Client T (Op w A B) (Ret w) DecrTest where
  next _ c := if c.i < niter then some (.decrAndTestInt shared_val) else none
  resume _ c
    | .int ret => ⟨c.i + 1, if ret ≠ 0 then c.ntrue + 1 else c.ntrue⟩
    | _ => c

/-- The errors that `test_threaded_decr_and_test` counts in one iteration of its outer loop. -/
def decrAndTestErrors (starting_val : Nat) (ntrue : Fin nthreads → Nat) (shared_val : BitVec 32) : Nat :=
  let ntrue_total := ∑ j, ntrue j
  (∑ j, if 1 < ntrue j then 1 else 0) + (if ntrue_total ≠ 1 then 1 else 0) +
    if shared_val ≠ -BitVec.ofNat 32 starting_val then 1 else 0

/-- What such threads do to a value that starts at `S`: it has gone down as often as they have called, and one call has
returned true if it has passed 0. -/
structure DecrOk [Fintype T] (ptr : A) (niter S : Nat) (v : Clients (Cells w A B) T DecrTest) : Prop where
  value : intAt ptr v.shared = BitVec.ofNat 32 S - BitVec.ofNat 32 (∑ t, (v.own t).i)
  bound : ∀ t, (v.own t).i ≤ niter
  once : ∑ t, (v.own t).ntrue = if 0 < S ∧ S ≤ ∑ t, (v.own t).i then 1 else 0

section

variable [DecidableEq A] [DecidableEq B]

theorem DecrOk.step [DecidableEq T] [Fintype T] {ptr : A} {niter S : Nat} (hS : S < 2 ^ 32)
    (hall : Fintype.card T * niter < 2 ^ 32) {v v' : Clients (Cells w A B) T DecrTest} {t : T}
    (hv : DecrOk ptr niter S v)
    (hstep : callStep (threadedDecrAndTestHelper ptr niter) byLock v t = some v') : DecrOk ptr niter S v' := by
  obtain ⟨op, hop, rfl⟩ := Option.map_eq_some_iff.1 hstep
  simp only [threadedDecrAndTestHelper] at hop
  split at hop
  · rename_i hlt
    cases hop
    obtain ⟨k, hk⟩ : ∃ k, k = ∑ t', (v.own t').i := ⟨_, rfl⟩
    have hroom : k + 1 ≤ Fintype.card T * niter := hk ▸ sum_lt_all hv.bound hlt
    have hvalue := hv.value
    have honce := hv.once
    rw [← hk] at hvalue honce
    have hnew : intAt ptr v.shared - 1 = BitVec.ofNat 32 S - BitVec.ofNat 32 (k + 1) := by
      rw [hvalue, BitVec.ofNat_add, BitVec.sub_sub]
      rfl
    -- nothing wraps around before all have called
    have hzero : 0 = intAt ptr v.shared - 1 ↔ S = k + 1 := by
      rw [hnew, eq_comm, sub_eq_zero]
      constructor
      · intro h
        have hnat := congrArg BitVec.toNat h
        rw [BitVec.toNat_ofNat, BitVec.toNat_ofNat, Nat.mod_eq_of_lt hS, Nat.mod_eq_of_lt (by omega)] at hnat
        exact hnat
      · intro h
        rw [h]
    have hret : (byLock v.shared (.decrAndTestInt ptr)).2 = .int (if S = k + 1 then 1 else 0) := by
      show Ret.int (if 0 = intAt ptr v.shared - 1 then 1 else 0) = _
      simp only [hzero]
    obtain ⟨c, hc, hi, htrue⟩ : ∃ c, (threadedDecrAndTestHelper (B := B) ptr niter).resume t (v.own t)
        (byLock v.shared (.decrAndTestInt ptr)).2 = c ∧ c.i = (v.own t).i + 1 ∧
        c.ntrue = (v.own t).ntrue + if S = k + 1 then 1 else 0 := by
      rw [hret]
      refine ⟨_, rfl, rfl, ?_⟩
      show (if (if S = k + 1 then (1 : BitVec 32) else 0) ≠ 0 then _ else _) = _
      split <;> rfl
    rw [hc]
    have hmovei := sum_move (fun _ (c : DecrTest) => c.i) v.own t c
    have hmovetrue := sum_move (fun _ (c : DecrTest) => c.ntrue) v.own t c
    have hcount : ∑ t', (Function.update v.own t c t').i = k + 1 := by omega
    constructor
    · show intAt ptr (byLock v.shared (.decrAndTestInt ptr)).1 = _
      rw [hcount, ← hnew, byLock, intAt_atCell, if_pos rfl]
      rfl
    · show ∀ t', (Function.update v.own t c t').i ≤ niter
      rw [Function.forall_update_iff v.own fun _ c => DecrTest.i c ≤ niter, hi]
      exact ⟨hlt, fun t' _ => hv.bound t'⟩
    · show ∑ t', (Function.update v.own t c t').ntrue = if _ ∧ _ ≤ ∑ t', (Function.update v.own t c t').i then 1 else 0
      rw [hcount]
      rw [honce, htrue] at hmovetrue
      split at hmovetrue <;> split at hmovetrue <;> split <;> omega
  · cases hop

/-- The test, on any port, for any number of threads, any number of iterations that is even, as the test says it must
be, with a product that is an `unsigned`, and any interleaving: when all threads have come to their end there is
nothing to count as an error. -/
theorem threaded_decr_and_test (P : Primitives (Fin nthreads) w A B) (shared_val : A) (niter : Nat) (m : Cells w A B)
    (heven : niter % 2 = 0) (hniter : 0 < niter) (hpos : 0 < nthreads) (hall : niter * nthreads < 2 ^ 32)
    (hstart : intAt shared_val m = BitVec.ofNat 32 (niter * nthreads / 2)) (as : List (Fin nthreads × Bool))
    (s : Served (Fin nthreads) P.State P.Pc (Op w A B) DecrTest)
    (hrun : run (servedStep (threadedDecrAndTestHelper shared_val niter) P.object)
      (Served.init (P.init m) fun _ => ⟨0, 0⟩) as = some s)
    (hend : ∀ t, s.running t = none ∧ (s.own t).i = niter) :
    decrAndTestErrors (niter * nthreads / 2) (fun t => (s.own t).ntrue) (intAt shared_val (P.mem s.shared)) = 0 := by
  obtain ⟨half, hhalf⟩ : ∃ half, niter = 2 * half := ⟨niter / 2, by omega⟩
  have hS : niter * nthreads / 2 = half * nthreads := by
    rw [hhalf, Nat.mul_assoc, Nat.mul_div_cancel_left _ Nat.two_pos]
  have htwice : niter * nthreads = half * nthreads + half * nthreads := by
    rw [hhalf, Nat.mul_assoc, Nat.two_mul]
  have hSpos : 0 < half * nthreads := Nat.mul_pos (by omega) hpos
  rw [hS] at hstart ⊢
  have hinit : DecrOk shared_val niter (half * nthreads)
      (⟨m, fun _ => ⟨0, 0⟩⟩ : Clients (Cells w A B) (Fin nthreads) DecrTest) := by
    refine ⟨?_, fun _ => Nat.zero_le _, ?_⟩
    · show intAt shared_val m = _ - BitVec.ofNat 32 (∑ t : Fin nthreads, 0)
      rw [Finset.sum_const_zero, hstart]
      exact (sub_zero _).symm
    · show ∑ t : Fin nthreads, 0 = if _ ∧ _ ≤ ∑ t : Fin nthreads, 0 then 1 else 0
      rw [Finset.sum_const_zero, if_neg (by omega)]
  have hs := P.invariant (fun _ _ _ hv hstep => DecrOk.step (by omega) (by
    rw [Fintype.card_fin, Nat.mul_comm]
    exact hall) hv hstep) hinit hrun
  rw [Served.atOnce_idle fun t => (hend t).1] at hs
  have hown : ∀ t, (s.own t).i = niter := fun t => (hend t).2
  have hvalue := hs.value
  have honce := hs.once
  have hcount : ∑ _t : Fin nthreads, niter = half * nthreads + half * nthreads := by
    rw [Finset.sum_const, Finset.card_univ, Fintype.card_fin, smul_eq_mul, Nat.mul_comm, htwice]
  simp only [hown, hcount] at hvalue honce
  rw [if_pos ⟨hSpos, by omega⟩] at honce
  have hfinal : intAt shared_val (P.mem s.shared) = -BitVec.ofNat 32 (half * nthreads) := by
    rw [hvalue, BitVec.ofNat_add, sub_add_cancel_left]
  -- one call in all has returned true, so no thread has more than one
  have hsome : ∑ t, (if 1 < (s.own t).ntrue then 1 else 0) = 0 := by
    apply Finset.sum_eq_zero
    intro t _
    have hle := Finset.single_le_sum (f := fun t => (s.own t).ntrue) (fun _ _ => Nat.zero_le _) (Finset.mem_univ t)
    rw [honce] at hle
    exact if_neg (by omega)
  unfold decrAndTestErrors
  simp only [hsome, honce, hfinal, ne_eq, not_true_eq_false, if_false]

end

/-- Two threads count down from 2 twice each, on x86; both are in their first call when it comes to 0. -/
def decrActs : List (Fin 2 × Bool) :=
  let calls (t : Fin 2) (n : Nat) := List.replicate n (t, false)
  calls 0 1 ++ calls 1 2 ++ calls 0 2 ++ calls 1 2 ++ calls 0 5 ++ calls 1 4

theorem threaded_decr_and_test_demo : ∃ s : Served (Fin 2) _ _ (Op 8 Bool Bool) DecrTest,
    run (servedStep (threadedDecrAndTestHelper true 2) Primitives.intel.object)
      (Served.init (Primitives.intel.init twoAt) fun _ => ⟨0, 0⟩) decrActs = some s ∧
    decrAndTestErrors 2 (fun t => (s.own t).ntrue) (intAt true (Primitives.intel.mem s.shared)) = 0 := by
  have h : (run (servedStep (threadedDecrAndTestHelper true 2) Primitives.intel.object)
      (Served.init (Primitives.intel.init twoAt) fun _ => ⟨0, 0⟩) decrActs).map
      (fun s => decide (∀ t, (s.running t).isNone = true ∧ (s.own t).i = 2)) = some true := by decide
  obtain ⟨s, hs, hd⟩ := Option.map_eq_some_iff.1 h
  simp only [decide_eq_true_eq, Option.isNone_iff_eq_none] at hd
  exact ⟨s, hs, threaded_decr_and_test Primitives.intel true 2 twoAt (by decide) (by decide) (by decide) (by decide)
    (by decide) decrActs s hs hd⟩

end OpenPA.Test
