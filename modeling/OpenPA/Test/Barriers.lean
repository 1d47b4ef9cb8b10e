/-
The threads of `test_barriers.c`. The write threads of `test_barriers_linear_array` increment the cells of an array
from the first one to the last one, again and again; the read threads load them from the last one to the first one and
check that what they have loaded never increases. On every port no read thread finds an error (`barriers_array`):
the cells never increase from one to the next, and only grow while a thread goes through them. The accesses of a call
take effect before those of the thread's next call, which is what the barriers in between are there for.
`test_barriers_variables` and `test_barriers_scattered_array` have the loop over the cells written out.
-/
import OpenPA.Test.Counters

namespace OpenPA.Test

open OpenPA.Machine OpenPA.Atomic

variable {w : Nat} {A B T : Type}

/-- The locals of `test_barriers_linear_array_write`, or of `test_barriers_linear_array_read`. -/
inductive ArrayThread where
  | write (i j : Nat)
  | read (i j : Nat) (read_buffer : Nat → BitVec 32) (nerrors : Nat)

/-- `for(j=1; j<LINEAR_ARRAY_LEN; j++) if(read_buffer[j-1] < read_buffer[j])` -/
def increases (len : Nat) (read_buffer : Nat → BitVec 32) : Nat :=
  (List.range' 1 (len - 1)).countP fun j => (read_buffer (j - 1)).slt (read_buffer j)

/-- Both loops, around the call for the cell `j`. -/
def linearArray (shared_array : Nat → A) (len niter : Nat) : Client T (Op w A B) (Ret w) ArrayThread where
  next _
    | .write i j => if i < niter ∧ j < len then some (.incrInt (shared_array j)) else none
    | .read i j _ _ => if i < niter ∧ j < len then some (.loadInt (shared_array j)) else none
  resume _
    | .write i j, _ => if j + 1 < len then .write i (j + 1) else .write (i + 1) 0
    | .read i (j + 1) read_buffer nerrors, .int ret => .read i j (Function.update read_buffer (j + 1) ret) nerrors
    | .read i 0 read_buffer nerrors, .int ret =>
      let read_buffer := Function.update read_buffer 0 ret
      .read (i + 1) (len - 1) read_buffer (nerrors + increases len read_buffer)
    | c, _ => c

/-- A thread at the start; what its buffer holds is arbitrary. -/
def ArrayThread.start (len : Nat) (writer : Bool) (junk : Nat → BitVec 32) : ArrayThread :=
  if writer then .write 0 0 else .read 0 (len - 1) junk 0

def ArrayThread.i : ArrayThread → Nat
  | .write i _ | .read i _ _ _ => i

/-! ## The cells -/

/-- How often a thread has incremented the cell `k`. -/
def ArrayThread.incremented (k : Nat) : ArrayThread → Nat
  | .write i j => i + if k < j then 1 else 0
  | .read .. => 0

/-- How often the threads have. -/
def increments [Fintype T] (own : T → ArrayThread) (k : Nat) : Nat := ∑ t, (own t).incremented k

/-- No cell is ahead of the one before it. -/
theorem increments_succ_le [Fintype T] (own : T → ArrayThread) (k : Nat) :
    increments own (k + 1) ≤ increments own k := by
  apply Finset.sum_le_sum
  intro t _
  cases own t with
  | write i j =>
    show i + _ ≤ i + _
    split <;> split <;> omega
  | read => exact Nat.le_refl _

/-- The part of the buffer from the cell `j` on has values that the cells have passed, and none above the one before
it. -/
structure Collected (cells : Nat → Nat) (len j : Nat) (read_buffer : Nat → BitVec 32) : Prop where
  le : ∀ k, j ≤ k → k < len → (read_buffer k).toNat ≤ cells k
  falls : ∀ k, j ≤ k → k + 1 < len → (read_buffer (k + 1)).toNat ≤ (read_buffer k).toNat

theorem Collected.mono {cells cells' : Nat → Nat} {len j : Nat} {read_buffer : Nat → BitVec 32}
    (h : Collected cells len j read_buffer) (hle : ∀ k, k < len → cells k ≤ cells' k) :
    Collected cells' len j read_buffer :=
  ⟨fun k hj hk => (h.le k hj hk).trans (hle k hk), h.falls⟩

/-- One more cell is loaded. -/
theorem Collected.load {cells : Nat → Nat} {len j : Nat} {read_buffer : Nat → BitVec 32} {ret : BitVec 32}
    (h : Collected cells len (j + 1) read_buffer) (hret : ret.toNat = cells j) (hcells : cells (j + 1) ≤ cells j) :
    Collected cells len j (Function.update read_buffer j ret) := by
  constructor
  · intro k hj hk
    by_cases hkj : k = j
    · rw [hkj, Function.update_self, hret]
    · rw [Function.update_of_ne hkj]
      exact h.le k (by omega) hk
  · intro k hj hk
    rw [Function.update_of_ne (show k + 1 ≠ j by omega)]
    by_cases hkj : k = j
    · subst hkj
      rw [Function.update_self, hret]
      exact (h.le _ (Nat.le_refl _) hk).trans hcells
    · rw [Function.update_of_ne hkj]
      exact h.falls k (by omega) hk

theorem Collected.increases {cells : Nat → Nat} {len : Nat} {read_buffer : Nat → BitVec 32}
    (h : Collected cells len 0 read_buffer) (hroom : ∀ k, k < len → cells k < 2 ^ 31) :
    increases len read_buffer = 0 := by
  have hint : ∀ k, k < len → (read_buffer k).toInt = (read_buffer k).toNat := by
    intro k hk
    apply BitVec.toInt_eq_toNat_of_lt
    have := h.le k (Nat.zero_le k) hk
    have := hroom k hk
    omega
  apply List.countP_eq_zero.2
  intro j hj
  rw [List.mem_range'_1] at hj
  obtain ⟨k, rfl⟩ := Nat.exists_eq_succ_of_ne_zero (show j ≠ 0 by omega)
  have hfalls := h.falls k (Nat.zero_le k) (by omega)
  rw [Nat.succ_sub_one, BitVec.slt, hint k (by omega), hint (k + 1) (by omega), decide_eq_true_eq]
  omega

/-! ## The invariant -/

/-- How often each thread increments every cell. -/
def quota (writer : T → Bool) (niter : Nat) (t : T) : Nat := if writer t then niter else 0

/-- A thread in its loop. -/
def ThreadOk (len niter : Nat) (writer : T → Bool) (cells : Nat → Nat) (t : T) : ArrayThread → Prop
  | .write i j => writer t = true ∧ (i < niter ∨ i = niter ∧ j = 0)
  | .read _ j read_buffer nerrors => writer t = false ∧ nerrors = 0 ∧ Collected cells len (j + 1) read_buffer

structure ArrayOk [Fintype T] (shared_array : Nat → A) (len niter : Nat) (writer : T → Bool)
    (v : Clients (Cells w A B) T ArrayThread) : Prop where
  cells : ∀ k, k < len → (intAt (shared_array k) v.shared).toNat = increments v.own k
  threads : ∀ t, ThreadOk len niter writer (increments v.own) t (v.own t)

section

variable {shared_array : Nat → A} {len niter : Nat} {writer : T → Bool} {v v' : Clients (Cells w A B) T ArrayThread}
  {t : T}

theorem ThreadOk.mono {cells cells' : Nat → Nat} {c : ArrayThread} (h : ThreadOk len niter writer cells t c)
    (hle : ∀ k, k < len → cells k ≤ cells' k) : ThreadOk len niter writer cells' t c := by
  cases c with
  | write => exact h
  | read =>
    obtain ⟨hwriter, herr, hcoll⟩ := h
    exact ⟨hwriter, herr, hcoll.mono hle⟩

theorem ThreadOk.incremented_le {cells : Nat → Nat} {c : ArrayThread} (h : ThreadOk len niter writer cells t c)
    (k : Nat) : c.incremented k ≤ quota writer niter t := by
  cases c with
  | write i j =>
    obtain ⟨hwriter, hi⟩ := h
    rw [quota, if_pos hwriter]
    show i + _ ≤ niter
    split <;> omega
  | read => exact Nat.zero_le _

variable [Fintype T]

theorem ArrayOk.increments_le (hv : ArrayOk shared_array len niter writer v) (k : Nat) :
    increments v.own k ≤ ∑ t, quota writer niter t :=
  Finset.sum_le_sum fun t _ => (hv.threads t).incremented_le k

variable [DecidableEq A] [DecidableEq B] [DecidableEq T]

/-- A thread increments the cell `j`. -/
theorem ArrayOk.write (hv : ArrayOk shared_array len niter writer v)
    (hinj : ∀ j k, j < len → k < len → shared_array j = shared_array k → j = k)
    (hroom : ∑ t, quota writer niter t < 2 ^ 31) {j : Nat} {c : ArrayThread} (hj : j < len)
    (hc : ∀ k, k < len → c.incremented k = (v.own t).incremented k + if k = j then 1 else 0)
    (hok : ∀ cells, ThreadOk len niter writer cells t c) :
    ArrayOk shared_array len niter writer
      ⟨(byLock v.shared (.incrInt (shared_array j))).1, Function.update v.own t c⟩ := by
  have hmove : ∀ k, k < len →
      increments (Function.update v.own t c) k = increments v.own k + if k = j then 1 else 0 := by
    intro k hk
    have hsum := sum_move (fun _ (c : ArrayThread) => c.incremented k) v.own t c
    simp only [hc k hk] at hsum
    unfold increments
    omega
  have hthreads : ∀ t', ThreadOk len niter writer (increments (Function.update v.own t c)) t'
      (Function.update v.own t c t') := by
    rw [Function.forall_update_iff v.own fun t' c' => ThreadOk len niter writer _ t' c']
    refine ⟨hok _, fun t' _ => (hv.threads t').mono fun k hk => ?_⟩
    rw [hmove k hk]
    exact Nat.le_add_right _ _
  refine ⟨fun k hk => ?_, hthreads⟩
  have hadd : (Op.incrInt (shared_array j) : Op w A B).addend (shared_array k) = some (if k = j then 1 else 0) := by
    by_cases hkj : k = j
    · rw [hkj, if_pos rfl]
      exact congrArg some (if_pos rfl)
    · rw [if_neg hkj]
      exact congrArg some (if_neg fun h => hkj (hinj j k hj hk h).symm)
  -- within an `int`, so that the increment does not wrap around
  have hle : increments (Function.update v.own t c) k ≤ ∑ t, quota writer niter t :=
    Finset.sum_le_sum fun t' _ => (hthreads t').incremented_le k
  rw [hmove k hk] at hle
  show (intAt _ (byLock v.shared _).1).toNat = increments (Function.update v.own t c) k
  rw [byLock_addend hadd, hmove k hk, BitVec.toNat_add, hv.cells k hk]
  have hval : (if k = j then 1 else 0 : BitVec 32).toNat = if k = j then 1 else 0 := by split <;> rfl
  rw [hval]
  exact Nat.mod_eq_of_lt (by omega)

/-- A thread loads a cell. -/
theorem ArrayOk.read (hv : ArrayOk shared_array len niter writer v) {ptr : A} {c : ArrayThread}
    (hc : ∀ k, c.incremented k = (v.own t).incremented k)
    (hok : ThreadOk len niter writer (increments v.own) t c) :
    ArrayOk shared_array len niter writer ⟨(byLock v.shared (.loadInt ptr)).1, Function.update v.own t c⟩ := by
  have hsame : increments (Function.update v.own t c) = increments v.own := by
    funext k
    have hsum := sum_move (fun _ (c : ArrayThread) => c.incremented k) v.own t c
    rw [hc k] at hsum
    exact Nat.add_right_cancel hsum
  constructor
  · intro k hk
    show (intAt _ (byLock v.shared _).1).toNat = increments (Function.update v.own t c) k
    rw [hsame, byLock_addend (d := 0) rfl, add_zero]
    exact hv.cells k hk
  · show ∀ t', ThreadOk len niter writer (increments (Function.update v.own t c)) t' (Function.update v.own t c t')
    rw [hsame, Function.forall_update_iff v.own fun t' c' => ThreadOk len niter writer _ t' c']
    exact ⟨hok, fun t' _ => hv.threads t'⟩

theorem ArrayOk.step (hv : ArrayOk shared_array len niter writer v)
    (hinj : ∀ j k, j < len → k < len → shared_array j = shared_array k → j = k)
    (hroom : ∑ t, quota writer niter t < 2 ^ 31)
    (hstep : callStep (linearArray shared_array len niter) byLock v t = some v') :
    ArrayOk shared_array len niter writer v' := by
  obtain ⟨op, hop, rfl⟩ := Option.map_eq_some_iff.1 hstep
  have hthread := hv.threads t
  cases hown : v.own t with
  | write i j =>
    rw [hown] at hop hthread
    simp only [linearArray] at hop
    split at hop
    · rename_i hij
      cases hop
      obtain ⟨hwriter, -⟩ := hthread
      apply hv.write hinj hroom hij.2
      · intro k hk
        rw [hown]
        simp only [linearArray]
        split
        · show i + _ = i + _ + _
          split <;> split <;> split <;> omega
        · -- the last cell
          show i + 1 + _ = i + _ + _
          split <;> split <;> split <;> omega
      · intro cells
        simp only [linearArray]
        split
        · exact ⟨hwriter, .inl hij.1⟩
        · exact ⟨hwriter, by omega⟩
    · cases hop
  | read i j read_buffer nerrors =>
    rw [hown] at hop hthread
    simp only [linearArray] at hop
    split at hop
    · rename_i hij
      cases hop
      obtain ⟨hwriter, rfl, hcoll⟩ := hthread
      -- the cells are incremented in order, so the next one has at most as many increments
      have hload := hcoll.load (hv.cells j hij.2) (increments_succ_le v.own j)
      cases j with
      | zero =>
        apply hv.read
        · intro k
          rw [hown]
          rfl
        · refine ⟨hwriter, ?_, fun k hj hk => by omega, fun k hj hk => by omega⟩
          have hnone := hload.increases fun k _ => (hv.increments_le k).trans_lt hroom
          rw [Nat.zero_add]
          exact hnone
      | succ j =>
        apply hv.read
        · intro k
          rw [hown]
          rfl
        · exact ⟨hwriter, rfl, hload⟩
    · cases hop

omit [DecidableEq A] [DecidableEq B] [DecidableEq T] in
theorem ArrayOk.start {m : Cells w A B} {junk : T → Nat → BitVec 32}
    (hzero : ∀ k, k < len → intAt (shared_array k) m = 0) :
    ArrayOk shared_array len niter writer ⟨m, fun t => ArrayThread.start len (writer t) (junk t)⟩ := by
  constructor
  · intro k hk
    show (intAt (shared_array k) m).toNat = ∑ t, (ArrayThread.start len (writer t) (junk t)).incremented k
    rw [hzero k hk, Finset.sum_eq_zero]
    · rfl
    · intro t _
      unfold ArrayThread.start
      cases writer t <;> rfl
  · intro t
    show ThreadOk len niter writer _ t (ArrayThread.start len (writer t) (junk t))
    unfold ArrayThread.start
    cases hwriter : writer t with
    | true => exact ⟨hwriter, by omega⟩
    | false => exact ⟨hwriter, rfl, fun k hj hk => by omega, fun k hj hk => by omega⟩

/-- On every port, for any number of write threads and read threads, cells and iterations, and any interleaving, as
long as the write threads together stay within an `int`: no read thread finds a value above the one before it, and
when all threads have come to their end, each cell has been incremented `niter` times by each write thread. -/
theorem barriers_array (P : Primitives T w A B) (shared_array : Nat → A) (len niter : Nat) (writer : T → Bool)
    (junk : T → Nat → BitVec 32) (m : Cells w A B) (as : List (T × Bool))
    (s : Served T P.State P.Pc (Op w A B) ArrayThread)
    (hinj : ∀ j k, j < len → k < len → shared_array j = shared_array k → j = k)
    (hzero : ∀ k, k < len → intAt (shared_array k) m = 0) (hroom : ∑ t, quota writer niter t < 2 ^ 31)
    (hrun : run (servedStep (linearArray shared_array len niter) P.object)
      (Served.init (P.init m) fun t => ArrayThread.start len (writer t) (junk t)) as = some s) :
    (∀ t i j read_buffer nerrors, s.running t = none → s.own t = .read i j read_buffer nerrors → nerrors = 0) ∧
    ((∀ t, s.running t = none ∧ (s.own t).i = niter) →
      ∀ k, k < len → (intAt (shared_array k) (P.mem s.shared)).toNat = ∑ t, quota writer niter t) := by
  have hs := P.invariant (fun _ _ _ hv hstep => ArrayOk.step hv hinj hroom hstep) (ArrayOk.start hzero) hrun
  constructor
  · intro t i j read_buffer nerrors ht hown
    have hthread := hs.threads t
    rw [Served.atOnce_own ht, hown] at hthread
    exact hthread.2.1
  · intro hend k hk
    rw [Served.atOnce_idle fun t => (hend t).1] at hs
    refine (hs.cells k hk).trans (Finset.sum_congr rfl fun t _ => ?_)
    have hthread : ThreadOk len niter writer (increments s.own) t (s.own t) := hs.threads t
    have hi := (hend t).2
    show (s.own t).incremented k = quota writer niter t
    cases hown : s.own t with
    | write i j =>
      rw [hown] at hthread hi
      obtain ⟨hwriter, hij⟩ := hthread
      replace hi : i = niter := hi
      rw [quota, if_pos hwriter]
      show i + _ = niter
      rw [if_neg (by omega), hi, Nat.add_zero]
    | read =>
      rw [hown] at hthread
      rw [quota, hthread.1, if_neg Bool.false_ne_true]
      rfl

end

/-- One thread writes and one reads two cells, once, by atomic instructions. -/
def arrayActs : List (Bool × Bool) :=
  [(true, false), (true, false), (false, false), (false, false), (true, false), (true, false), (false, false),
    (false, false)]

theorem barriers_array_demo : ∃ s : Served Bool _ _ (Op 8 Nat Bool) ArrayThread,
    run (servedStep (linearArray id 2 1) (Primitives.intrinsics .c11).object)
      (Served.init ((Primitives.intrinsics .c11).init zeroCells) fun t => ArrayThread.start 2 t fun _ => 7) arrayActs =
        some s ∧
    (intAt 1 ((Primitives.intrinsics .c11).mem s.shared)).toNat = 1 := by
  have h : (run (servedStep (linearArray (B := Bool) (w := 8) id 2 1) (Primitives.intrinsics .c11).object)
      (Served.init ((Primitives.intrinsics .c11).init zeroCells) fun t => ArrayThread.start 2 t fun _ => 7)
      arrayActs).map (fun s => decide (∀ t, (s.running t).isNone = true ∧ (s.own t).i = 1)) = some true := by decide
  obtain ⟨s, hs, hd⟩ := Option.map_eq_some_iff.1 h
  simp only [decide_eq_true_eq, Option.isNone_iff_eq_none] at hd
  have hpass := barriers_array (Primitives.intrinsics .c11) id 2 1 id (fun _ _ => 7) zeroCells arrayActs s
    (fun _ _ _ _ h => h) (fun _ _ => rfl) (by decide) hs
  exact ⟨s, hs, hpass.2 hd 1 (by decide)⟩

end OpenPA.Test
