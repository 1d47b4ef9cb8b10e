/-
The threads of `test_threaded_loadstore_int` and `test_threaded_loadstore_ptr`. Each stores a value of its own, loads,
and checks that it gets a multiple of a number of which the values of all threads are multiples. A load gives what
some thread has stored, all of it, so on every port no thread finds an error (`threaded_loadstore`).
-/
import OpenPA.Atomic.Primitives

namespace OpenPA.Test

open OpenPA.Machine OpenPA.Atomic

variable {w : Nat} {A B T V : Type}

/-- What a thread calls next. -/
inductive LoadStorePc where
  | store
  | load

structure LoadStoreData where
  pc : LoadStorePc
  i : Nat
  nerrors : Nat

/-- The loop around a store of the thread's own value and a load. -/
def loadStoreLoop (niter : Nat) (store : T → Op w A B) (load : Op w A B) (unexpected : Ret w → Bool) :
    Client T (Op w A B) (Ret w) LoadStoreData where
  next t c := match c.pc with
    | .store => if c.i < niter then some (store t) else none
    | .load => some load
  resume _ c r := match c.pc with
    | .store => { c with pc := .load }
    | .load => { pc := .store, i := c.i + 1, nerrors := if unexpected r then c.nerrors + 1 else c.nerrors }

/-- `LOADSTORE_INT_DIFF`, for an `int` of 4 bytes -/
def loadstoreIntDiff : BitVec 32 := (1 <<< 16) - 1

/-- `LOADSTORE_PTR_DIFF`, an `unsigned long`, which has the size of a pointer -/
def loadstorePtrDiff : BitVec w := (1 <<< (w / 2)) - 1

variable {nthreads : Nat}

def threadedLoadstoreIntHelper (shared_val : A) (niter : Nat) :
    Client (Fin nthreads) (Op w A B) (Ret w) LoadStoreData :=
  let unique_val (i : Fin nthreads) : BitVec 32 := BitVec.ofNat 32 i * loadstoreIntDiff
  loadStoreLoop niter (fun i => .storeInt shared_val (unique_val i)) (.loadInt shared_val) fun r =>
    r.asInt.any fun loaded_val => loaded_val.srem loadstoreIntDiff ≠ 0

def threadedLoadstorePtrHelper (shared_val : B) (niter : Nat) :
    Client (Fin nthreads) (Op w A B) (Ret w) LoadStoreData :=
  let unique_val (i : Fin nthreads) : BitVec w := BitVec.ofNat w i * loadstorePtrDiff
  loadStoreLoop niter (fun i => .storePtr shared_val (unique_val i)) (.loadPtr shared_val) fun r =>
    r.asPtr.any fun loaded_val => loaded_val % loadstorePtrDiff ≠ 0

/-! ## The values -/

theorem toNat_ofNat_mul {d : BitVec w} {i : Nat} (hi : i * d.toNat < 2 ^ w) :
    (BitVec.ofNat w i * d).toNat = i * d.toNat := by
  rw [BitVec.toNat_mul, BitVec.toNat_ofNat, Nat.mod_mul_mod, Nat.mod_eq_of_lt hi]

/-- A multiple that is an `unsigned long` leaves no remainder. -/
theorem umod_ofNat_mul {d : BitVec w} {i : Nat} (hi : i * d.toNat < 2 ^ w) : BitVec.ofNat w i * d % d = 0 := by
  apply BitVec.eq_of_toNat_eq
  rw [BitVec.toNat_umod, toNat_ofNat_mul hi, Nat.mul_mod_left]
  rfl

/-- One that is an `int` leaves none either. -/
theorem srem_ofNat_mul {i : Nat} (hi : i * loadstoreIntDiff.toNat < 2 ^ 31) :
    (BitVec.ofNat 32 i * loadstoreIntDiff).srem loadstoreIntDiff = 0 := by
  have hdiff : loadstoreIntDiff.toInt = loadstoreIntDiff.toNat := by decide
  have hval : (BitVec.ofNat 32 i * loadstoreIntDiff).toInt = i * loadstoreIntDiff.toNat := by
    have hnat := toNat_ofNat_mul (d := loadstoreIntDiff) (i := i) (by omega)
    rw [BitVec.toInt_eq_toNat_of_lt (by omega), hnat, Nat.cast_mul]
  apply BitVec.eq_of_toInt_eq
  rw [BitVec.toInt_srem, hval, hdiff, Int.mul_tmod_left]
  rfl

/-! ## The threads -/

section

variable [DecidableEq A] [DecidableEq B] [DecidableEq T]

/-- Once a thread has stored, the shared value is that of some thread. -/
structure LoadStoreOk (unique_val : T → V) (cell : Cells w A B → V) (v : Clients (Cells w A B) T LoadStoreData) :
    Prop where
  stored : ∀ t, (v.own t).pc = .load → ∃ t', cell v.shared = unique_val t'
  errors : ∀ t, (v.own t).nerrors = 0

theorem LoadStoreOk.step {niter : Nat} {store : T → Op w A B} {load : Op w A B} {unexpected : Ret w → Bool}
    {unique_val : T → V} {cell : Cells w A B → V} (hstore : ∀ m t, cell (byLock m (store t)).1 = unique_val t)
    (hload : ∀ m, cell (byLock m load).1 = cell m)
    (hexpected : ∀ m t, cell m = unique_val t → unexpected (byLock m load).2 = false)
    {v v' : Clients (Cells w A B) T LoadStoreData} {t : T} (hv : LoadStoreOk unique_val cell v)
    (hstep : callStep (loadStoreLoop niter store load unexpected) byLock v t = some v') :
    LoadStoreOk unique_val cell v' := by
  obtain ⟨op, hop, rfl⟩ := Option.map_eq_some_iff.1 hstep
  simp only [loadStoreLoop] at hop ⊢
  cases hpc : (v.own t).pc with
  | store =>
    simp only [hpc] at hop ⊢
    split at hop
    · cases hop
      refine ⟨fun _ _ => ⟨t, hstore v.shared t⟩, ?_⟩
      show ∀ t', (Function.update v.own t _ t').nerrors = 0
      rw [Function.forall_update_iff v.own fun _ c => LoadStoreData.nerrors c = 0]
      exact ⟨hv.errors t, fun t' _ => hv.errors t'⟩
    · cases hop
  | load =>
    simp only [hpc] at hop ⊢
    cases hop
    obtain ⟨t₀, ht₀⟩ := hv.stored t hpc
    constructor
    · intro _ _
      exact ⟨t₀, (hload v.shared).trans ht₀⟩
    · show ∀ t', (Function.update v.own t _ t').nerrors = 0
      rw [Function.forall_update_iff v.own fun _ c => LoadStoreData.nerrors c = 0, hexpected _ _ ht₀]
      exact ⟨hv.errors t, fun t' _ => hv.errors t'⟩

theorem loadstore_errors (P : Primitives T w A B) {niter : Nat} {store : T → Op w A B} {load : Op w A B}
    {unexpected : Ret w → Bool} (unique_val : T → V) (cell : Cells w A B → V)
    (hstore : ∀ m t, cell (byLock m (store t)).1 = unique_val t) (hload : ∀ m, cell (byLock m load).1 = cell m)
    (hexpected : ∀ m t, cell m = unique_val t → unexpected (byLock m load).2 = false) {m : Cells w A B}
    {as : List (T × Bool)} {s : Served T P.State P.Pc (Op w A B) LoadStoreData}
    (hrun : run (servedStep (loadStoreLoop niter store load unexpected) P.object)
      (Served.init (P.init m) fun _ => ⟨.store, 0, 0⟩) as = some s) {t : T} (ht : s.running t = none) :
    (s.own t).nerrors = 0 := by
  have hstart : LoadStoreOk unique_val cell
      (⟨m, fun _ => ⟨.store, 0, 0⟩⟩ : Clients (Cells w A B) T LoadStoreData) := ⟨nofun, fun _ => rfl⟩
  have hs := P.invariant (fun _ _ _ hv hstep => hv.step hstore hload hexpected hstep) hstart hrun
  rw [← Served.atOnce_own ht]
  exact hs.errors t

end

/-- The two tests, on any port, for any number of threads whose values are `int`s or fit in an `unsigned long`, any
number of iterations and any interleaving: no thread finds an error. What the shared value is at first does not
matter. -/
theorem threaded_loadstore [DecidableEq A] [DecidableEq B] (P : Primitives (Fin nthreads) w A B) (niter : Nat)
    (m : Cells w A B) (as : List (Fin nthreads × Bool)) (s : Served (Fin nthreads) P.State P.Pc (Op w A B) LoadStoreData)
    (t : Fin nthreads) (ht : s.running t = none) :
    (∀ shared_val : A, (nthreads - 1) * loadstoreIntDiff.toNat < 2 ^ 31 →
      run (servedStep (threadedLoadstoreIntHelper shared_val niter) P.object)
        (Served.init (P.init m) fun _ => ⟨.store, 0, 0⟩) as = some s → (s.own t).nerrors = 0) ∧
    ∀ shared_val : B, (nthreads - 1) * (loadstorePtrDiff : BitVec w).toNat < 2 ^ w →
      run (servedStep (threadedLoadstorePtrHelper shared_val niter) P.object)
        (Served.init (P.init m) fun _ => ⟨.store, 0, 0⟩) as = some s → (s.own t).nerrors = 0 := by
  have hle : ∀ (i : Fin nthreads) (d : Nat), i * d ≤ (nthreads - 1) * d :=
    fun i d => Nat.mul_le_mul_right d (Nat.le_sub_one_of_lt i.isLt)
  constructor
  · intro shared_val hint hrun
    refine loadstore_errors P (fun i => BitVec.ofNat 32 i * loadstoreIntDiff) (intAt shared_val) ?_ ?_ ?_ hrun ht
    · intro m i
      exact atCell_self m (l := .int shared_val) (ByLock.storeInt _) fun _ => .void
    · intro m
      exact atCell_self m (l := .int shared_val) ByLock.loadInt .int
    · intro m i hval
      show (some (intAt shared_val m)).any _ = false
      rw [hval]
      simp [srem_ofNat_mul (Nat.lt_of_le_of_lt (hle i _) hint)]
  · intro shared_val hptr hrun
    refine loadstore_errors P (fun i => BitVec.ofNat w i * loadstorePtrDiff) (ptrAt shared_val) ?_ ?_ ?_ hrun ht
    · intro m i
      exact atCell_self m (l := .ptr shared_val) (ByLock.storePtr _) fun _ => .void
    · intro m
      exact atCell_self m (l := .ptr shared_val) ByLock.loadPtr .ptr
    · intro m i hval
      show (some (ptrAt shared_val m)).any _ = false
      rw [hval]
      simp [umod_ofNat_mul (Nat.lt_of_le_of_lt (hle i _) hptr)]

/-- Two threads with the lock. The first one loads what the second one has stored. -/
def loadstoreActs : List (Fin 2 × Bool) :=
  [0, 0, 0, 0, 1, 1, 1, 1, 0, 0, 0, 0].map fun i => (⟨i % 2, Nat.mod_lt i Nat.two_pos⟩, false)

theorem threaded_loadstore_demo : ∃ s : Served (Fin 2) _ _ (Op 32 Bool Bool) LoadStoreData,
    run (servedStep (threadedLoadstoreIntHelper true 1) Primitives.lock.object)
      (Served.init (Primitives.lock.init zeroCells) fun _ => ⟨.store, 0, 0⟩) loadstoreActs = some s ∧
    (s.own 0).i = 1 ∧ (s.own 0).nerrors = 0 := by
  have h : (run (servedStep (threadedLoadstoreIntHelper (w := 32) (B := Bool) true 1) Primitives.lock.object)
      (Served.init (Primitives.lock.init zeroCells) fun _ => ⟨.store, 0, 0⟩) loadstoreActs).map
      (fun s => decide ((s.running 0).isNone = true ∧ (s.own (0 : Fin 2)).i = 1)) = some true := by decide
  obtain ⟨s, hs, hd⟩ := Option.map_eq_some_iff.1 h
  simp only [decide_eq_true_eq, Option.isNone_iff_eq_none] at hd
  exact ⟨s, hs, hd.2, (threaded_loadstore Primitives.lock 1 zeroCells loadstoreActs s 0 hd.1).1 true (by decide) hs⟩

end OpenPA.Test
