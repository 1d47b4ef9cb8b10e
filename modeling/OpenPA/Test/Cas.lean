/-
The threads of `test_threaded_cas_int`, `test_threaded_cas_ptr`, `test_grouped_cas_int` and `test_grouped_cas_ptr`,
and the checks when they have been joined. Each thread compares a shared value with the number of its group, and swaps
in the number of the next one, again and again; in the first two tests every thread is a group of its own. The groups
succeed in turn (`RingOk`), and a thread of the first one succeeds with its first call if nobody has before; so on every
port the checks pass (`threaded_cas`).
-/
import OpenPA.Atomic.Ring
import OpenPA.Test.Counters

namespace OpenPA.Test

open OpenPA.Machine OpenPA.Atomic

variable {w : Nat} {A B T V : Type}

/-! ## The threads -/

/-- The loop's `i`, and how often the compare-and-swap has succeeded. -/
structure CasData where
  i : Nat
  nsuccess : Nat

/-- The loop of the helpers: a call of `cas` succeeds if it returns `id`. -/
def casLoop (niter : Nat) (cas : T → Op w A B) (id : T → Ret w) : Client T (Op w A B) (Ret w) CasData where
  next t c := if c.i < niter then some (cas t) else none
  resume t c r := ⟨c.i + 1, if r = id t then c.nsuccess + 1 else c.nsuccess⟩

/-- `(int *) 0 + i` -/
def intPtr (i : Nat) : BitVec w := BitVec.ofNat w (4 * i)

/-- `id + 1`, or null past the greatest number -/
def nextPtr (id max : BitVec w) : BitVec w :=
  let next_id := id + 4
  if max < next_id then 0 else next_id

variable {nthreads : Nat}

def threadsPerGroup (nthreads : Nat) : Nat := if 2 ≤ nthreads / 4 then 4 else (nthreads + 1) / 2

def ngroups (nthreads : Nat) : Nat := (nthreads + threadsPerGroup nthreads - 1) / threadsPerGroup nthreads

/-- The messages of `FAIL_OP_ERROR`. -/
inductive CasError where
  /-- compare-and-swap never succeeded -/
  | never
  /-- thread or group `i` succeeded more times than the one before it -/
  | more (i : Nat)
  /-- number of successes is inconsistent -/
  | inconsistent
  /-- thread or group 0 succeeded `times` times more than `last` -/
  | ahead (times : Int) (last : Nat)

/-- The checks of all four tests, for the numbers of successes of the threads and of the groups. The last message is
about threads in the tests with groups too. -/
def checkCas [DecidableEq V] (nthreads ngroups : Nat) (nsuccess group_success : Nat → Nat) (number : Nat → V)
    (shared_val : V) : Except CasError Unit := do
  if group_success 0 = 0 then throw .never
  if 1 < nthreads then
    (List.range' 1 (ngroups - 1)).forM fun i => do
      if group_success (i - 1) < group_success i then throw (.more i)
      if group_success i < group_success (i - 1) ∧ shared_val ≠ number i then throw .inconsistent
  if group_success 0 = group_success (ngroups - 1) ∧ shared_val ≠ number 0 then throw .inconsistent
  if group_success (ngroups - 1) + 1 < group_success 0 then
    throw (.ahead ((nsuccess 0 : Int) - nsuccess (nthreads - 1)) (nthreads - 1))

/-- `thread_data[i].nsuccess` -/
def nsuccess (own : Fin nthreads → CasData) (i : Nat) : Nat := if h : i < nthreads then (own ⟨i, h⟩).nsuccess else 0

/-- `group_success[k]`, when the successes of all threads have been added to those of their groups -/
def groupSuccess (group : Fin nthreads → Nat) (own : Fin nthreads → CasData) (k : Nat) : Nat :=
  ∑ t, if group t = k then (own t).nsuccess else 0

theorem groupSuccess_update (group : Fin nthreads → Nat) (own : Fin nthreads → CasData) (t : Fin nthreads)
    (i nsuccess k : Nat) :
    groupSuccess group (Function.update own t ⟨i, nsuccess⟩) k + (if group t = k then (own t).nsuccess else 0) =
      groupSuccess group own k + if group t = k then nsuccess else 0 :=
  sum_move (fun t (c : CasData) => if group t = k then c.nsuccess else 0) own t ⟨i, nsuccess⟩

theorem forM_ok {E I : Type} {f : I → Except E Unit} : ∀ {l : List I}, (∀ i ∈ l, f i = .ok ()) → l.forM f = .ok ()
  | [], _ => rfl
  | i :: l, h => by
    rw [List.forM, h i (List.mem_cons_self ..)]
    exact forM_ok fun j hj => h j (List.mem_cons_of_mem _ hj)

/-- The checks pass if the successes are turns, and the shared value is the number of the group that is to go next. -/
theorem checkCas_turns [DecidableEq V] {g n : Nat} (hg : 0 < g) {nsuccess group_success : Nat → Nat} {number : Nat → V}
    (hturns : ∀ k < g, group_success k = turns g n k) (hsome : group_success 0 ≠ 0) :
    checkCas nthreads g nsuccess group_success number (number (n % g)) = .ok () := by
  have hlt : n % g < g := Nat.mod_lt n hg
  have hloop : ((List.range' 1 (g - 1)).forM fun i => do
      if group_success (i - 1) < group_success i then throw (.more i)
      if group_success i < group_success (i - 1) ∧ number (n % g) ≠ number i then throw .inconsistent :
      Except CasError Unit) = .ok () := by
    apply forM_ok
    intro i hi
    rw [List.mem_range'_1] at hi
    rw [hturns i (by omega), hturns (i - 1) (by omega)]
    obtain ⟨hdown, -, hnext⟩ := turns_law (g := g) (by omega) n
    have hle := hdown (i - 1) i (by omega) (by omega)
    have hmore : ¬(turns g n i < turns g n (i - 1) ∧ number (n % g) ≠ number i) := by
      rintro ⟨hless, hne⟩
      exact hne (congrArg number ((hnext i hi.1 (by omega)).1 hless))
    rw [if_neg (Nat.not_lt.2 hle), if_neg hmore]
    rfl
  have hlast := hturns (g - 1) (by omega)
  have hfirst := hturns 0 hg
  have hsame : ¬(group_success 0 = group_success (g - 1) ∧ number (n % g) ≠ number 0) := by
    rw [hfirst, hlast, turns_eq hg, turns_eq (show g - 1 < g by omega)]
    rintro ⟨heq, hne⟩
    apply hne
    congr 1
    split at heq <;> split at heq <;> omega
  have hahead : ¬group_success (g - 1) + 1 < group_success 0 := by
    rw [hfirst, hlast, turns_eq hg, turns_eq (show g - 1 < g by omega)]
    split <;> split <;> omega
  unfold checkCas
  rw [if_neg hsome, if_neg hsame, if_neg hahead]
  split
  · simp only [hloop]
    rfl
  · rfl

/-! ## The groups in turn -/

section

variable [DecidableEq A] [DecidableEq B]

/-- What the compare-and-swaps of the groups do to the shared value `cell`: if it is the number of the thread's group
they replace it by that of the next one, and only then they return that number. -/
structure RingCas (group : Fin nthreads → Nat) (g : Nat) (number : Nat → V) (cell : Cells w A B → V)
    (cas : Fin nthreads → Op w A B) (id : Fin nthreads → Ret w) : Prop where
  group_lt : ∀ t, group t < g
  differ : ∀ {j k}, j < g → k < g → number j = number k → j = k
  taken : ∀ m t, cell m = number (group t) →
    cell (byLock m (cas t)).1 = number ((group t + 1) % g) ∧ (byLock m (cas t)).2 = id t
  kept : ∀ m t, cell m ≠ number (group t) → cell (byLock m (cas t)).1 = cell m ∧ (byLock m (cas t)).2 ≠ id t

/-- After `n` successes. -/
structure RingOk (group : Fin nthreads → Nat) (g : Nat) (number : Nat → V) (cell : Cells w A B → V)
    (v : Clients (Cells w A B) (Fin nthreads) CasData) (n : Nat) : Prop where
  value : cell v.shared = number (n % g)
  success : ∀ k < g, groupSuccess group v.own k = turns g n k
  first : n = 0 → ∀ t, group t = 0 → (v.own t).i = 0

variable {group : Fin nthreads → Nat} {g niter : Nat} {number : Nat → V} {cell : Cells w A B → V}
  {cas : Fin nthreads → Op w A B} {id : Fin nthreads → Ret w}

/-- A call is its group's turn, or leaves all as it is. -/
theorem RingOk.step (hring : RingCas group g number cell cas id) {v v' : Clients (Cells w A B) (Fin nthreads) CasData}
    {t : Fin nthreads} (hv : ∃ n, RingOk group g number cell v n)
    (hstep : callStep (casLoop niter cas id) byLock v t = some v') : ∃ n, RingOk group g number cell v' n := by
  obtain ⟨n, hv⟩ := hv
  obtain ⟨op, hop, rfl⟩ := Option.map_eq_some_iff.1 hstep
  simp only [casLoop] at hop
  split at hop
  · cases hop
    have hlt : n % g < g := Nat.mod_lt n (Nat.zero_lt_of_lt (hring.group_lt t))
    have hmove := groupSuccess_update group v.own t ((v.own t).i + 1)
    by_cases hturn : n % g = group t
    · obtain ⟨hcell, hret⟩ := hring.taken v.shared t (by rw [hv.value, hturn])
      refine ⟨n + 1, ?_, fun k hk => ?_, nofun⟩
      · rw [← Nat.mod_add_mod, hturn]
        exact hcell
      · replace hmove := hmove ((v.own t).nsuccess + 1) k
        simp only [casLoop, hret, if_true]
        rw [turns_succ hk, hturn, ← hv.success k hk]
        by_cases hgroup : group t = k
        · rw [if_pos hgroup, if_pos hgroup] at hmove
          rw [if_pos hgroup]
          omega
        · rw [if_neg hgroup, if_neg hgroup] at hmove
          rw [if_neg hgroup]
          exact hmove
    · obtain ⟨hcell, hret⟩ := hring.kept v.shared t (by
        rw [hv.value]
        exact fun h => hturn (hring.differ hlt (hring.group_lt t) h))
      refine ⟨n, ?_, fun k hk => ?_, fun hn t' ht' => ?_⟩
      · exact hcell.trans hv.value
      · replace hmove := hmove (v.own t).nsuccess k
        simp only [casLoop, hret, if_false]
        rw [← hv.success k hk]
        exact Nat.add_right_cancel hmove
      · -- the first group would have had its turn
        have hne : t' ≠ t := by
          rintro rfl
          rw [hn, Nat.zero_mod] at hturn
          exact hturn ht'.symm
        show (Function.update v.own t _ t').i = 0
        rw [Function.update_of_ne hne]
        exact hv.first hn t' ht'
  · cases hop

/-- The checks on any port, when all threads have come to their end. -/
theorem RingCas.passes [DecidableEq V] (hring : RingCas group g number cell cas id)
    (P : Primitives (Fin nthreads) w A B) {m : Cells w A B} {as : List (Fin nthreads × Bool)}
    {s : Served (Fin nthreads) P.State P.Pc (Op w A B) CasData} (hniter : 0 < niter) {t : Fin nthreads}
    (ht : group t = 0) (hcell : cell m = number 0) (hend : ∀ t, s.running t = none ∧ (s.own t).i = niter)
    (hrun : run (servedStep (casLoop niter cas id) P.object) (Served.init (P.init m) fun _ => ⟨0, 0⟩) as = some s) :
    checkCas nthreads g (nsuccess s.own) (groupSuccess group s.own) number (cell (P.mem s.shared)) = .ok () := by
  have hg : 0 < g := Nat.zero_lt_of_lt (hring.group_lt t)
  have hstart : ∃ n, RingOk group g number cell
      (⟨m, fun _ => ⟨0, 0⟩⟩ : Clients (Cells w A B) (Fin nthreads) CasData) n := by
    refine ⟨0, ?_, fun k hk => ?_, fun _ _ _ => rfl⟩
    · rw [Nat.zero_mod]
      exact hcell
    · rw [turns, Nat.count_zero]
      exact Finset.sum_eq_zero fun t _ => ite_self 0
  obtain ⟨n, hs⟩ := P.invariant (fun _ _ _ hv hstep => RingOk.step hring hv hstep) hstart hrun
  rw [Served.atOnce_idle fun t => (hend t).1] at hs
  have hn : n ≠ 0 := by
    intro hn
    have hi := hs.first hn t ht
    rw [(hend t).2] at hi
    omega
  have hsome : groupSuccess group s.own 0 ≠ 0 := by
    rw [hs.success 0 hg, turns_eq hg]
    intro hzero
    obtain ⟨hquot, hrem⟩ := Nat.add_eq_zero_iff.1 hzero
    have hmod : n % g = 0 := by
      by_contra hne
      rw [if_pos (Nat.pos_of_ne_zero hne)] at hrem
      cases hrem
    rw [← Nat.div_add_mod n g, hquot, hmod] at hn
    exact hn rfl
  have hvalue : cell (P.mem s.shared) = number (n % g) := hs.value
  rw [hvalue]
  exact checkCas_turns hg hs.success hsome

/-! ## The numbers of the groups -/

theorem RingCas.int (shared_val : A) (hlt : ∀ t, group t < g) (hint : g ≤ 2 ^ 32) :
    RingCas group g (BitVec.ofNat 32) (intAt (w := w) (B := B) shared_val)
      (fun t => .casInt shared_val (BitVec.ofNat 32 (group t)) (BitVec.ofNat 32 ((group t + 1) % g)))
      fun t => .int (BitVec.ofNat 32 (group t)) where
  group_lt := hlt
  differ hj hk h := (group_inj hint hj hk).1 h
  taken m t h := by
    refine ⟨?_, congrArg Ret.int h⟩
    rw [byLock, intAt_atCell, if_pos rfl]
    exact if_pos h
  kept m t h := by
    refine ⟨?_, fun heq => h (Ret.int.inj heq)⟩
    rw [byLock, intAt_atCell, if_pos rfl]
    exact if_neg h

theorem intPtr_toNat {k : Nat} (hk : 4 * k < 2 ^ w) : (intPtr k : BitVec w).toNat = 4 * k := by
  rw [intPtr, BitVec.toNat_ofNat, Nat.mod_eq_of_lt hk]

/-- The "modulus" of the helpers is one, as long as the pointer past the last number does not wrap around. -/
theorem nextPtr_intPtr {k : Nat} (hk : k < g) (hptr : 4 * g < 2 ^ w) :
    nextPtr (intPtr k : BitVec w) (intPtr (g - 1)) = intPtr ((k + 1) % g) := by
  have hnext : (intPtr k : BitVec w) + 4 = intPtr (k + 1) := by
    rw [intPtr, intPtr, Nat.mul_succ, BitVec.ofNat_add]
    rfl
  have hpast : (intPtr (g - 1) : BitVec w) < intPtr (k + 1) ↔ k + 1 = g := by
    rw [BitVec.lt_def, intPtr_toNat (by omega), intPtr_toNat (by omega)]
    omega
  unfold nextPtr
  rw [hnext]
  by_cases hlast : k + 1 = g
  · rw [if_pos (hpast.2 hlast), hlast, Nat.mod_self]
    rfl
  · rw [if_neg fun h => hlast (hpast.1 h), Nat.mod_eq_of_lt (by omega)]

theorem RingCas.ptr (shared_val : B) (hlt : ∀ t, group t < g) (hptr : 4 * g < 2 ^ w) :
    RingCas group g intPtr (ptrAt (w := w) (A := A) shared_val)
      (fun t => .casPtr shared_val (intPtr (group t)) (nextPtr (intPtr (group t)) (intPtr (g - 1))))
      fun t => .ptr (intPtr (group t)) where
  group_lt := hlt
  differ {j k} hj hk h := by
    have hnat := congrArg BitVec.toNat h
    rw [intPtr_toNat (by omega), intPtr_toNat (by omega)] at hnat
    omega
  taken m t h := by
    refine ⟨?_, congrArg Ret.ptr h⟩
    rw [← nextPtr_intPtr (hlt t) hptr]
    exact (atCell_self m (l := .ptr shared_val) (ByLock.casPtr _ _) .ptr).trans (if_pos h)
  kept m t h := by
    refine ⟨?_, fun heq => h (Ret.ptr.inj heq)⟩
    exact (atCell_self m (l := .ptr shared_val) (ByLock.casPtr _ _) .ptr).trans (if_neg h)

end

variable [DecidableEq A] [DecidableEq B]

/-- Two threads of group 0 and one of group 1 with load-link and store-conditional. The first thread's reservation is
lost to the second one's success, and it finds that the turn has passed. -/
def casActs : List (Fin 3 × Bool) :=
  [0, 0, 1, 1, 1, 0, 0, 2, 2, 2].map fun i => (⟨min i 2, Nat.lt_succ_of_le (Nat.min_le_right i 2)⟩, false)

end OpenPA.Test
