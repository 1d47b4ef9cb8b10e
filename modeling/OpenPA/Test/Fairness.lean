/-
The threads of `test_threaded_cas_int_fairness` and `test_threaded_cas_ptr_fairness`. Each takes a shared value that
is free, by compare-and-swap, counts the thread that has taken it often enough, and gives it back by another one,
until all threads are counted. The shared value is a lock: on every port no two threads have it, giving it back never
fails, and threads only leave early when all have been counted (`threaded_fairness`).
-/
import OpenPA.Test.Counters

namespace OpenPA.Test

open OpenPA.Machine OpenPA.Atomic

variable {w : Nat} {A B T V : Type} [DecidableEq A] [DecidableEq B]

/-- A cell for compare-and-swap next to a counter: `get` is its value, and `val` what a call returned. -/
structure CasCell (w : Nat) (A B V : Type) [DecidableEq A] [DecidableEq B] [DecidableEq V] (counter : A) where
  cas : V → V → Op w A B
  val : Ret w → Option V
  get : Cells w A B → V
  get_cas : ∀ m oldv newv, get (byLock m (cas oldv newv)).1 = if get m = oldv then newv else get m
  val_cas : ∀ m oldv newv, val (byLock m (cas oldv newv)).2 = some (get m)
  get_incr : ∀ m, get (byLock m (.incrInt counter)).1 = get m
  get_load : ∀ m, get (byLock m (.loadInt counter)).1 = get m
  counter_cas : ∀ m oldv newv, intAt counter (byLock m (cas oldv newv)).1 = intAt counter m

/-- An `OPA_int_t` that is not the counter. -/
def CasCell.int (counter shared_val : A) (h : shared_val ≠ counter) : CasCell w A B (BitVec 32) counter where
  cas oldv newv := .casInt shared_val oldv newv
  val := Ret.asInt
  get := intAt shared_val
  get_cas m oldv newv := by
    rw [byLock, intAt_atCell, if_pos rfl]
    rfl
  val_cas m oldv newv := rfl
  get_incr m := by rw [byLock, intAt_atCell, if_neg h.symm]
  get_load m := by rw [byLock, intAt_atCell, if_neg h.symm]
  counter_cas m oldv newv := by rw [byLock, intAt_atCell, if_neg h]

/-- An `OPA_ptr_t`. -/
def CasCell.ptr (counter : A) (shared_val : B) : CasCell w A B (BitVec w) counter where
  cas oldv newv := .casPtr shared_val oldv newv
  val := Ret.asPtr
  get := ptrAt shared_val
  get_cas m oldv newv := atCell_self m (l := .ptr shared_val) (ByLock.casPtr oldv newv) .ptr
  val_cas m oldv newv := rfl
  get_incr m := atCell_ne m (l := .int counter) ByLock.incrInt (fun _ => .void) nofun
  get_load m := atCell_ne m (l := .int counter) ByLock.loadInt _ nofun
  counter_cas m oldv newv := by rw [byLock, intAt_atCell_ptr]

/-- Where a thread is in the loop: before the first compare-and-swap, before it is counted, before the second
compare-and-swap, before the test for completion; or it has left the loop. -/
inductive FairPc where
  | attempt
  | announce
  | reset
  | check
  | exit
  deriving DecidableEq

structure FairData where
  pc : FairPc
  i : Nat
  nsuccess : Nat
  nerrors : Nat
  terminated : Nat

/-- The head of the loop, and what follows it when it has run through. -/
def FairData.loop (max_iter i : Nat) (c : FairData) : FairData :=
  if i < max_iter then { c with pc := .attempt, i := i } else { c with pc := .exit, i := i, terminated := 1 }

/-- A thread at the start. -/
def FairData.start (max_iter : Nat) : FairData := FairData.loop max_iter 0 ⟨.attempt, 0, 0, 0, 0⟩

variable [DecidableEq V] {successful_threads : A}

/-- The loop of both helpers; the shared value is `free` or the number of a thread. -/
def fairnessHelper (shared_val : CasCell w A B V successful_threads) (free : V) (threadno : T → V)
    (nthreads min_success max_iter : Nat) : Client T (Op w A B) (Ret w) FairData where
  next t c := match c.pc with
    | .attempt => some (shared_val.cas free (threadno t))
    | .announce => some (.incrInt successful_threads)
    | .reset => some (shared_val.cas (threadno t) free)
    | .check => some (.loadInt successful_threads)
    | .exit => none
  resume t c r := match c.pc with
    | .attempt =>
      if shared_val.val r = some free then
        { c with
          nsuccess := c.nsuccess + 1
          pc := if c.nsuccess + 1 = min_success then .announce else .reset }
      else { c with pc := .check }
    | .announce => { c with pc := .reset }
    | .reset =>
      if shared_val.val r = some (threadno t) then { c with pc := .check }
      else { c with pc := .check, nerrors := c.nerrors + 1 }
    | .check => if r = .int nthreads then { c with pc := .exit } else c.loop max_iter (c.i + 1)
    | .exit => c

/-- `threaded_cas_int_fairness_helper`: -1 is free -/
def threadedCasIntFairnessHelper (shared_val : A) (h : shared_val ≠ successful_threads) (threadno : T → BitVec 32)
    (nthreads min_success max_iter : Nat) : Client T (Op w A B) (Ret w) FairData :=
  fairnessHelper (CasCell.int successful_threads shared_val h) (-1) threadno nthreads min_success max_iter

/-- `threaded_cas_ptr_fairness_helper`: the null pointer is free -/
def threadedCasPtrFairnessHelper (shared_val : B) (successful_threads : A) (threadno : T → BitVec w)
    (nthreads min_success max_iter : Nat) : Client T (Op w A B) (Ret w) FairData :=
  fairnessHelper (CasCell.ptr successful_threads shared_val) 0 threadno nthreads min_success max_iter

/-! ## The invariant -/

/-- The thread has the shared value. -/
def FairData.Holds (c : FairData) : Prop := c.pc = .announce ∨ c.pc = .reset

/-- The thread has been counted. -/
def FairData.counted (min_success : Nat) (c : FairData) : Bool :=
  decide (0 < min_success ∧ min_success ≤ c.nsuccess ∧ c.pc ≠ .announce)

theorem FairData.counted_announce {min_success : Nat} {c : FairData} (h : c.pc = .announce) :
    c.counted min_success = false := by
  apply decide_eq_false
  rintro ⟨-, -, hne⟩
  exact hne h

theorem FairData.counted_of_ne {min_success : Nat} {c : FairData} (h : c.pc ≠ .announce) :
    c.counted min_success = decide (0 < min_success ∧ min_success ≤ c.nsuccess) := by
  unfold counted
  rw [decide_eq_decide]
  constructor
  · rintro ⟨hpos, hle, -⟩
    exact ⟨hpos, hle⟩
  · rintro ⟨hpos, hle⟩
    exact ⟨hpos, hle, h⟩

/-- How many threads have been counted. -/
def countedThreads [Fintype T] (min_success : Nat) (own : T → FairData) : Nat :=
  ∑ t, if (own t).counted min_success then 1 else 0

structure FairOk [Fintype T] (shared_val : CasCell w A B V successful_threads) (free : V) (threadno : T → V)
    (min_success : Nat) (v : Clients (Cells w A B) T FairData) : Prop where
  free : (∀ t, ¬(v.own t).Holds) → shared_val.get v.shared = free
  holds : ∀ t, (v.own t).Holds → shared_val.get v.shared = threadno t
  announce : ∀ t, (v.own t).pc = .announce → 0 < min_success ∧ (v.own t).nsuccess = min_success
  errors : ∀ t, (v.own t).nerrors = 0
  count : intAt successful_threads v.shared = (countedThreads min_success v.own : BitVec 32)
  exit : ∀ t, (v.own t).pc = .exit → (v.own t).terminated = 1 ∨ countedThreads min_success v.own = Fintype.card T

theorem countedThreads_le [Fintype T] (min_success : Nat) (own : T → FairData) :
    countedThreads min_success own ≤ Fintype.card T := by
  rw [← Finset.card_univ, Finset.card_eq_sum_ones]
  apply Finset.sum_le_sum
  intro t _
  split <;> omega

theorem countedThreads_update [Fintype T] [DecidableEq T] (min_success : Nat) (own : T → FairData) (t : T)
    (c : FairData) :
    countedThreads min_success (Function.update own t c) + (if (own t).counted min_success then 1 else 0) =
      countedThreads min_success own + if c.counted min_success then 1 else 0 :=
  sum_move (fun _ c => if FairData.counted min_success c then 1 else 0) own t c

variable [DecidableEq T] [Fintype T] {shared_val : CasCell w A B V successful_threads} {free : V} {threadno : T → V}
  {nthreads min_success max_iter : Nat} {v : Clients (Cells w A B) T FairData} {t : T}

/-- One thread moves, and none is counted that was not, or was counted and is not. -/
theorem FairOk.move (hv : FairOk shared_val free threadno min_success v) {m : Cells w A B} {c : FairData}
    (hcount : intAt successful_threads m = (countedThreads min_success (Function.update v.own t c) : BitVec 32))
    (hmono : (v.own t).counted min_success = true → c.counted min_success = true)
    (hfree : ¬c.Holds → (∀ t', t' ≠ t → ¬(v.own t').Holds) → shared_val.get m = free)
    (hholds : c.Holds → shared_val.get m = threadno t)
    (hother : ∀ t', t' ≠ t → (v.own t').Holds → shared_val.get m = threadno t')
    (hannounce : c.pc = .announce → 0 < min_success ∧ c.nsuccess = min_success)
    (herr : c.nerrors = 0)
    (hexit : c.pc = .exit → c.terminated = 1 ∨ countedThreads min_success v.own = Fintype.card T) :
    FairOk shared_val free threadno min_success ⟨m, Function.update v.own t c⟩ := by
  have hgrow : countedThreads min_success v.own ≤ countedThreads min_success (Function.update v.own t c) := by
    have hupdate := countedThreads_update min_success v.own t c
    by_cases h : (v.own t).counted min_success = true
    · rw [if_pos h, if_pos (hmono h)] at hupdate
      omega
    · rw [if_neg h] at hupdate
      omega
  have hall : countedThreads min_success v.own = Fintype.card T →
      countedThreads min_success (Function.update v.own t c) = Fintype.card T := by
    intro h
    have := countedThreads_le min_success (Function.update v.own t c)
    omega
  -- what holds of `t` by `c`, and of the others as before
  have hcases : ∀ Q : T → FairData → Prop, Q t c → (∀ t', t' ≠ t → Q t' (v.own t')) →
      ∀ t', Q t' (Function.update v.own t c t') := by
    intro Q hself hrest t'
    by_cases ht : t' = t
    · rw [ht, Function.update_self]
      exact hself
    · rw [Function.update_of_ne ht]
      exact hrest t' ht
  refine ⟨fun hnone => ?_, ?_, ?_, ?_, hcount, ?_⟩
  · replace hnone : ∀ t', ¬(Function.update v.own t c t').Holds := hnone
    apply hfree
    · have hself := hnone t
      rwa [Function.update_self] at hself
    · intro t' ht
      have hrest := hnone t'
      rwa [Function.update_of_ne ht] at hrest
  · exact hcases (fun t' c => c.Holds → shared_val.get m = threadno t') hholds hother
  · exact hcases (fun _ c => c.pc = .announce → 0 < min_success ∧ c.nsuccess = min_success) hannounce
      fun t' _ => hv.announce t'
  · exact hcases (fun _ c => c.nerrors = 0) herr fun t' _ => hv.errors t'
  · exact hcases (fun _ c' => c'.pc = .exit → c'.terminated = 1 ∨
      countedThreads min_success (Function.update v.own t c) = Fintype.card T)
      (fun h => (hexit h).imp_right hall) fun t' _ h => (hv.exit t' h).imp_right hall

/-- A thread that moves and stays counted or uncounted leaves the count. -/
theorem FairOk.count_same (hv : FairOk shared_val free threadno min_success v) {c : FairData}
    (hc : c.counted min_success = (v.own t).counted min_success) :
    intAt successful_threads v.shared = (countedThreads min_success (Function.update v.own t c) : BitVec 32) := by
  have hupdate := countedThreads_update min_success v.own t c
  rw [hc] at hupdate
  rw [hv.count, Nat.add_right_cancel hupdate]

/-- A thread takes the shared value. -/
theorem FairOk.take (hv : FairOk shared_val free threadno min_success v) (hnobody : ∀ t', ¬(v.own t').Holds)
    {m : Cells w A B} {c : FairData} (hc : c.Holds) (hget : shared_val.get m = threadno t)
    (hcounter : intAt successful_threads m = intAt successful_threads v.shared)
    (hcounted : c.counted min_success = (v.own t).counted min_success)
    (hannounce : c.pc = .announce → 0 < min_success ∧ c.nsuccess = min_success) (herr : c.nerrors = 0) :
    FairOk shared_val free threadno min_success ⟨m, Function.update v.own t c⟩ := by
  apply hv.move
  · rw [hcounter]
    exact hv.count_same hcounted
  · rw [hcounted]
    exact id
  · exact fun h => absurd hc h
  · exact fun _ => hget
  · exact fun t' _ h => absurd h (hnobody t')
  · exact hannounce
  · exact herr
  · intro hexit
    rcases hc with hpc | hpc
    · rw [hpc] at hexit
      cases hexit
    · rw [hpc] at hexit
      cases hexit

/-- A thread that does not have the shared value goes on without it. -/
theorem FairOk.pass (hv : FairOk shared_val free threadno min_success v) {m : Cells w A B} {c : FairData}
    (ht : ¬(v.own t).Holds) (hc : ¬c.Holds) (hget : shared_val.get m = shared_val.get v.shared)
    (hcounter : intAt successful_threads m = intAt successful_threads v.shared)
    (hsuccess : c.nsuccess = (v.own t).nsuccess) (herr : c.nerrors = 0)
    (hexit : c.pc = .exit → c.terminated = 1 ∨ countedThreads min_success v.own = Fintype.card T) :
    FairOk shared_val free threadno min_success ⟨m, Function.update v.own t c⟩ := by
  have hcounted : c.counted min_success = (v.own t).counted min_success := by
    rw [FairData.counted_of_ne fun h => hc (.inl h), FairData.counted_of_ne fun h => ht (.inl h), hsuccess]
  apply hv.move
  · rw [hcounter]
    exact hv.count_same hcounted
  · rw [hcounted]
    exact id
  · intro _ hnone
    rw [hget]
    apply hv.free
    intro t'
    by_cases htt : t' = t
    · rw [htt]
      exact ht
    · exact hnone t' htt
  · exact fun h => absurd h hc
  · intro t' _ h
    rw [hget]
    exact hv.holds t' h
  · exact fun h => absurd (.inl h) hc
  · exact herr
  · exact hexit

omit [DecidableEq T] in
/-- No two threads have the shared value. -/
theorem FairOk.exclusive (hv : FairOk shared_val free threadno min_success v) (hinj : Function.Injective threadno)
    {t' : T} (ht : (v.own t).Holds) (ht' : (v.own t').Holds) : t = t' :=
  hinj ((hv.holds t ht).symm.trans (hv.holds t' ht'))

theorem FairOk.step (hv : FairOk shared_val free threadno min_success v) (hinj : Function.Injective threadno)
    (hne : ∀ t, threadno t ≠ free) (hcard : Fintype.card T < 2 ^ 32) {v' : Clients (Cells w A B) T FairData}
    (hstep : callStep (fairnessHelper shared_val free threadno (Fintype.card T) min_success max_iter) byLock v t =
      some v') : FairOk shared_val free threadno min_success v' := by
  obtain ⟨op, hop, rfl⟩ := Option.map_eq_some_iff.1 hstep
  simp only [fairnessHelper] at hop ⊢
  cases hpc : (v.own t).pc with
  | attempt =>
    simp only [hpc, Option.some.injEq] at hop ⊢
    subst hop
    have hnot : ¬(v.own t).Holds := by
      rintro (h | h) <;> rw [hpc] at h <;> cases h
    rw [shared_val.val_cas]
    by_cases hget : shared_val.get v.shared = free
    · -- it is free, so nobody has it; now `t` does
      have hnobody : ∀ t', ¬(v.own t').Holds := fun t' h => hne t' ((hv.holds t' h).symm.trans hget)
      have hnew : shared_val.get (byLock v.shared (shared_val.cas free (threadno t))).1 = threadno t := by
        rw [shared_val.get_cas, if_pos hget]
      have hbefore : (v.own t).counted min_success = _ := FairData.counted_of_ne fun h => hnot (.inl h)
      rw [hget, if_pos rfl]
      by_cases hms : (v.own t).nsuccess + 1 = min_success
      · rw [if_pos hms]
        apply hv.take hnobody (.inl rfl) hnew (shared_val.counter_cas ..)
        · rw [hbefore, FairData.counted_announce rfl, eq_comm, decide_eq_false_iff_not]
          omega
        · exact fun _ => ⟨by omega, hms⟩
        · exact hv.errors t
      · rw [if_neg hms]
        apply hv.take hnobody (.inr rfl) hnew (shared_val.counter_cas ..)
        · rw [hbefore, FairData.counted_of_ne (by exact nofun), decide_eq_decide]
          show 0 < min_success ∧ min_success ≤ (v.own t).nsuccess + 1 ↔ _
          omega
        · exact nofun
        · exact hv.errors t
    · rw [if_neg fun h => hget (Option.some.inj h)]
      apply hv.pass hnot
      · rintro (h | h) <;> cases h
      · rw [shared_val.get_cas, if_neg hget]
      · exact shared_val.counter_cas ..
      · rfl
      · exact hv.errors t
      · exact nofun
  | announce =>
    simp only [hpc, Option.some.injEq] at hop ⊢
    subst hop
    obtain ⟨hpos, hms⟩ := hv.announce t hpc
    have hholds : (v.own t).Holds := .inl hpc
    apply hv.move
    · have hupdate := countedThreads_update min_success v.own t { v.own t with pc := .reset }
      rw [FairData.counted_announce hpc, FairData.counted_of_ne (by exact nofun), if_neg Bool.false_ne_true,
        Nat.add_zero, if_pos (decide_eq_true ⟨hpos, hms.ge⟩)] at hupdate
      have hincr : (Op.incrInt successful_threads : Op w A B).addend successful_threads = some 1 :=
        congrArg some (if_pos rfl)
      rw [byLock_addend hincr, hv.count, hupdate, Nat.cast_succ]
    · intro _
      rw [FairData.counted_of_ne (by exact nofun)]
      exact decide_eq_true ⟨hpos, hms.ge⟩
    · exact fun h => absurd (.inr rfl) h
    · intro _
      rw [shared_val.get_incr]
      exact hv.holds t hholds
    · exact fun t' ht h => absurd (hv.exclusive hinj h hholds) ht
    · exact nofun
    · exact hv.errors t
    · exact nofun
  | reset =>
    simp only [hpc, Option.some.injEq] at hop ⊢
    subst hop
    have hholds : (v.own t).Holds := .inr hpc
    have hget := hv.holds t hholds
    rw [shared_val.val_cas, hget, if_pos rfl]
    have hfree : shared_val.get (byLock v.shared (shared_val.cas (threadno t) free)).1 = free := by
      rw [shared_val.get_cas, if_pos hget]
    have hcounted : FairData.counted min_success { v.own t with pc := .check } = (v.own t).counted min_success := by
      rw [FairData.counted_of_ne (by exact nofun), FairData.counted_of_ne]
      rw [hpc]
      exact nofun
    apply hv.move
    · rw [shared_val.counter_cas]
      exact hv.count_same hcounted
    · rw [hcounted]
      exact id
    · exact fun _ _ => hfree
    · rintro (h | h) <;> cases h
    · exact fun t' ht h => absurd (hv.exclusive hinj h hholds) ht
    · exact nofun
    · exact hv.errors t
    · exact nofun
  | check =>
    simp only [hpc, Option.some.injEq] at hop ⊢
    subst hop
    have hnot : ¬(v.own t).Holds := by
      rintro (h | h) <;> rw [hpc] at h <;> cases h
    have hload : (byLock v.shared (Op.loadInt successful_threads)).2 = .int (intAt successful_threads v.shared) := rfl
    have hcounter : intAt successful_threads (byLock v.shared (Op.loadInt successful_threads)).1 =
        intAt successful_threads v.shared := by
      rw [byLock, intAt_atCell, if_pos rfl]
      rfl
    rw [hload, hv.count]
    split
    · rename_i hall
      -- all have been counted
      have hcast : countedThreads min_success v.own % 2 ^ 32 = Fintype.card T % 2 ^ 32 :=
        congrArg BitVec.toNat (Ret.int.inj hall)
      have hle := countedThreads_le min_success v.own
      rw [Nat.mod_eq_of_lt (by omega), Nat.mod_eq_of_lt hcard] at hcast
      apply hv.pass hnot
      · rintro (h | h) <;> cases h
      · exact shared_val.get_load _
      · exact hcounter
      · rfl
      · exact hv.errors t
      · exact fun _ => .inr hcast
    · unfold FairData.loop
      split
      · apply hv.pass hnot
        · rintro (h | h) <;> cases h
        · exact shared_val.get_load _
        · exact hcounter
        · rfl
        · exact hv.errors t
        · exact nofun
      · apply hv.pass hnot
        · rintro (h | h) <;> cases h
        · exact shared_val.get_load _
        · exact hcounter
        · rfl
        · exact hv.errors t
        · exact fun _ => .inl rfl
  | exit =>
    simp only [hpc] at hop
    cases hop

/-! ## Runs -/

omit [DecidableEq T] in
theorem FairOk.start {m : Cells w A B} (hget : shared_val.get m = free) (hcounter : intAt successful_threads m = 0) :
    FairOk shared_val free threadno min_success
      (⟨m, fun _ => FairData.start max_iter⟩ : Clients (Cells w A B) T FairData) := by
  have hstart : FairData.start max_iter = ⟨.attempt, 0, 0, 0, 0⟩ ∨ FairData.start max_iter = ⟨.exit, 0, 0, 0, 1⟩ := by
    unfold FairData.start FairData.loop
    split
    · exact .inl rfl
    · exact .inr rfl
  have hcounted : countedThreads min_success (fun _ : T => FairData.start max_iter) = 0 := by
    apply Finset.sum_eq_zero
    intro t _
    have hnot : ¬(0 < min_success ∧ min_success ≤ 0) := by omega
    rcases hstart with h | h
    · rw [h, FairData.counted_of_ne (by exact nofun), decide_eq_false hnot, if_neg Bool.false_ne_true]
    · rw [h, FairData.counted_of_ne (by exact nofun), decide_eq_false hnot, if_neg Bool.false_ne_true]
  constructor
  · exact fun _ => hget
  · intro t h
    rcases hstart with hs | hs
    · rw [hs] at h
      rcases h with h | h <;> cases h
    · rw [hs] at h
      rcases h with h | h <;> cases h
  · intro t h
    rcases hstart with hs | hs
    · rw [hs] at h
      cases h
    · rw [hs] at h
      cases h
  · intro t
    rcases hstart with hs | hs
    · rw [hs]
    · rw [hs]
  · rw [hcounter, hcounted]
    rfl
  · intro t h
    left
    rcases hstart with hs | hs
    · rw [hs] at h
      cases h
    · rw [hs]

/-- What the threads report: of those that have taken the shared value and not given it back there is at most one, no
thread finds an error, and when all have left the loop, all have been counted or some thread has run through it. -/
structure FairPasses (P : Primitives T w A B) (K : Client T (Op w A B) (Ret w) FairData) (successful_threads : A)
    (s : Served T P.State P.Pc (Op w A B) FairData) : Prop where
  exclusive : ∀ t t', ((s.atOnce K P.mem P.took).own t).Holds → ((s.atOnce K P.mem P.took).own t').Holds → t = t'
  errors : ∀ t, s.running t = none → (s.own t).nerrors = 0
  completed : (∀ t, s.running t = none ∧ (s.own t).pc = .exit) →
    intAt successful_threads (P.mem s.shared) = (Fintype.card T : BitVec 32) ∨ ∃ t, (s.own t).terminated = 1

theorem fairness_passes (P : Primitives T w A B) (hinj : Function.Injective threadno) (hne : ∀ t, threadno t ≠ free)
    (hcard : Fintype.card T < 2 ^ 32) {m : Cells w A B} (hget : shared_val.get m = free)
    (hcounter : intAt successful_threads m = 0) {as : List (T × Bool)} {s : Served T P.State P.Pc (Op w A B) FairData}
    (hrun : run (servedStep (fairnessHelper shared_val free threadno (Fintype.card T) min_success max_iter) P.object)
      (Served.init (P.init m) fun _ => FairData.start max_iter) as = some s) :
    FairPasses P (fairnessHelper shared_val free threadno (Fintype.card T) min_success max_iter) successful_threads
      s := by
  have hstart : FairOk shared_val free threadno min_success
      (⟨m, fun _ => FairData.start max_iter⟩ : Clients (Cells w A B) T FairData) := FairOk.start hget hcounter
  have hs := P.invariant (fun _ _ _ hv hstep => FairOk.step hv hinj hne hcard hstep) hstart hrun
  refine ⟨fun t t' ht ht' => hs.exclusive hinj ht ht', fun t ht => ?_, fun hend => ?_⟩
  · rw [← Served.atOnce_own ht]
    exact hs.errors t
  · rw [Served.atOnce_idle fun t => (hend t).1] at hs
    by_cases hall : countedThreads min_success s.own = Fintype.card T
    · left
      rw [← hall]
      exact hs.count
    · right
      have hexit : ∀ t, (s.own t).terminated = 1 := fun t => (hs.exit t (hend t).2).resolve_right hall
      -- not all have been counted, so there is a thread
      have hle := countedThreads_le min_success s.own
      obtain ⟨t⟩ : Nonempty T := Fintype.card_pos_iff.1 (by omega)
      exact ⟨t, hexit t⟩

/-- The two tests, on any port, for any number of threads with pairwise different numbers, any numbers of successes
and iterations and any interleaving. -/
theorem threaded_fairness (P : Primitives T w A B) (successful_threads : A) (min_success max_iter : Nat)
    (m : Cells w A B) (as : List (T × Bool)) (s : Served T P.State P.Pc (Op w A B) FairData)
    (hcard : Fintype.card T < 2 ^ 32) (hcounter : intAt successful_threads m = 0) :
    (∀ (shared_val : A) (h : shared_val ≠ successful_threads) (threadno : T → BitVec 32), Function.Injective threadno →
      (∀ t, threadno t ≠ -1) → intAt shared_val m = -1 →
      run (servedStep (threadedCasIntFairnessHelper shared_val h threadno (Fintype.card T) min_success max_iter)
        P.object) (Served.init (P.init m) fun _ => FairData.start max_iter) as = some s →
      FairPasses P (threadedCasIntFairnessHelper shared_val h threadno (Fintype.card T) min_success max_iter)
        successful_threads s) ∧
    (∀ (shared_val : B) (threadno : T → BitVec w), Function.Injective threadno → (∀ t, threadno t ≠ 0) →
      ptrAt shared_val m = 0 →
      run (servedStep (threadedCasPtrFairnessHelper shared_val successful_threads threadno (Fintype.card T) min_success
        max_iter) P.object) (Served.init (P.init m) fun _ => FairData.start max_iter) as = some s →
      FairPasses P (threadedCasPtrFairnessHelper shared_val successful_threads threadno (Fintype.card T) min_success
        max_iter) successful_threads s) := by
  constructor
  · intro shared_val h threadno hinj hne hget hrun
    exact fairness_passes P hinj hne hcard hget hcounter hrun
  · intro shared_val threadno hinj hne hget hrun
    exact fairness_passes P hinj hne hcard hget hcounter hrun

/-- Two threads on a machine with compare-and-swap. The second one finds the shared value taken at first. -/
def fairActs : List (Bool × Bool) :=
  let calls (t : Bool) (n : Nat) := List.replicate (2 * n) (t, false)
  calls true 1 ++ calls false 1 ++ calls true 1 ++ calls false 1 ++ calls true 2 ++ calls false 4 ++ calls true 3

def freeCells : Cells 8 Bool Bool := Function.update zeroCells (.int false) (-1 : BitVec 32)

def boolno (t : Bool) : BitVec 32 := if t then 1 else 0

/-- The threads of the demonstration. -/
def boolHelper : Client Bool (Op 8 Bool Bool) (Ret 8) FairData :=
  threadedCasIntFairnessHelper (w := 8) false (show false ≠ true from by decide) boolno 2 1 2

theorem threaded_fairness_demo : ∃ s : Served Bool _ _ (Op 8 Bool Bool) FairData,
    run (servedStep boolHelper Primitives.cas.object)
      (Served.init (Primitives.cas.init freeCells) fun _ => FairData.start 2) fairActs = some s ∧
    intAt true (Primitives.cas.mem s.shared) = 2 ∧ ∀ t, (s.own t).nerrors = 0 := by
  have h : (run (servedStep boolHelper Primitives.cas.object)
      (Served.init (Primitives.cas.init freeCells) fun _ => FairData.start 2) fairActs).map
      (fun s => decide (∀ t, ((s.running t).isNone = true ∧ (s.own t).pc = .exit) ∧ (s.own t).terminated ≠ 1)) =
        some true := by decide
  obtain ⟨s, hs, hd⟩ := Option.map_eq_some_iff.1 h
  simp only [decide_eq_true_eq, Option.isNone_iff_eq_none] at hd
  have hpass := (threaded_fairness Primitives.cas true 1 2 freeCells fairActs s (by decide) rfl).1 false (by decide)
    boolno (by decide) (by decide) rfl hs
  refine ⟨s, hs, ?_, fun t => hpass.errors t (hd t).1.1⟩
  rcases hpass.completed fun t => (hd t).1 with hall | ⟨t, ht⟩
  · exact hall
  · exact absurd ht (hd t).2

end OpenPA.Test
