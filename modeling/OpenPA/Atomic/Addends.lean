/-
The sum law of a counter. As long as all calls on a cell add something to it, whatever they return and however their
accesses interleave, on every port: when no call is under way the cell holds what it held at first and what the calls
have added, and each call that reads the cell got what it held at first and what the calls before it in one order have
added (`counter_sum`).
-/
import Mathlib.Algebra.BigOperators.Group.List.Basic
import OpenPA.Atomic.Primitives

namespace OpenPA.Atomic

open OpenPA.Machine

variable {w : Nat} {A B T : Type} [DecidableEq A] [DecidableEq B]

/-- What an operation adds to the cell at `ptr`; `none` for those that replace its value. -/
def Op.addend (ptr : A) : Op w A B → Option (BitVec 32)
  | .storeInt ptr' _ | .casInt ptr' _ _ | .swapInt ptr' _ => if ptr' = ptr then none else some 0
  | .addInt ptr' val | .fetchAndAddInt ptr' val => some (if ptr' = ptr then val else 0)
  | .incrInt ptr' | .fetchAndIncrInt ptr' => some (if ptr' = ptr then 1 else 0)
  | .decrInt ptr' | .decrAndTestInt ptr' | .fetchAndDecrInt ptr' => some (if ptr' = ptr then -1 else 0)
  | .loadInt _ | .loadPtr _ | .storePtr _ _ | .casPtr _ _ _ | .swapPtr _ _ => some 0

/-- Whether an operation returns what the cell at `ptr` holds before it. -/
def Op.fetches (ptr : A) : Op w A B → Bool
  | .loadInt ptr' | .fetchAndAddInt ptr' _ | .fetchAndIncrInt ptr' | .fetchAndDecrInt ptr' => ptr' = ptr
  | _ => false

/-- What the calls of a list add. -/
def added (ptr : A) (l : List (Completed T (Op w A B) (Ret w))) : BitVec 32 :=
  (l.map fun c => (c.op.addend ptr).getD 0).sum

/-- An addition adds its addend. -/
theorem byLock_addend {ptr : A} {m : Cells w A B} {op : Op w A B} {d : BitVec 32} (h : op.addend ptr = some d) :
    intAt ptr (byLock m op).1 = intAt ptr m + d := by
  have hadd : ∀ {ptr' : A} {val : BitVec 32}, some (if ptr' = ptr then val else 0) = some d →
      (if ptr' = ptr then intAt ptr m + val else intAt ptr m) = intAt ptr m + d := by
    intro ptr' val hd
    cases hd
    split
    · rfl
    · rw [add_zero]
  have hreplace : ∀ {ptr' : A} {v : BitVec 32}, (if ptr' = ptr then none else some 0) = some d →
      (if ptr' = ptr then v else intAt ptr m) = intAt ptr m + d := by
    intro ptr' v hd
    split at hd
    · cases hd
    · rename_i hne
      cases hd
      rw [if_neg hne, add_zero]
  have hsame : some (0 : BitVec 32) = some d → intAt ptr m = intAt ptr m + d := by
    rintro ⟨⟩
    rw [add_zero]
  -- the operations by what they do to an integer cell: read, replace, add, or nothing
  cases op with
  | loadInt ptr' =>
    rw [byLock, intAt_atCell]
    exact (ite_self _).trans (hsame h)
  | storeInt ptr' val | casInt ptr' oldv newv | swapInt ptr' val =>
    rw [byLock, intAt_atCell]
    exact hreplace h
  | addInt ptr' val | fetchAndAddInt ptr' val =>
    rw [byLock, intAt_atCell]
    exact hadd h
  | incrInt ptr' | fetchAndIncrInt ptr' =>
    rw [byLock, intAt_atCell]
    exact hadd h
  | decrInt ptr' | decrAndTestInt ptr' | fetchAndDecrInt ptr' =>
    rw [byLock, intAt_atCell]
    have hsub : intAt ptr m - 1 = intAt ptr m + -1 := BitVec.sub_eq_add_neg _ _
    show (if ptr' = ptr then intAt ptr m - 1 else intAt ptr m) = _
    rw [hsub]
    exact hadd h
  | loadPtr ptr' | storePtr ptr' val | casPtr ptr' oldv newv | swapPtr ptr' val =>
    rw [byLock, intAt_atCell_ptr]
    exact hsame h

/-- A call that fetches returns what the cell holds. -/
theorem byLock_fetches {ptr : A} {m : Cells w A B} {op : Op w A B} (h : op.fetches ptr = true) :
    (byLock m op).2 = .int (intAt ptr m) := by
  cases op with
  | loadInt ptr' | fetchAndAddInt ptr' val | fetchAndIncrInt ptr' | fetchAndDecrInt ptr' =>
    cases of_decide_eq_true h
    rfl
  | _ => cases h

/-- Additions one after another. -/
theorem legal_added {ptr : A} : ∀ {l : List (Completed T (Op w A B) (Ret w))} {m m' : Cells w A B},
    Legal byLock m l m' → (∀ c ∈ l, (c.op.addend ptr).isSome = true) →
    intAt ptr m' = intAt ptr m + added ptr l ∧
      ∀ before c after, l = before ++ c :: after → c.op.fetches ptr = true →
        c.ret = .int (intAt ptr m + added ptr before)
  | [], m, m', h, _ => by
    cases h
    refine ⟨(add_zero _).symm, ?_⟩
    intro before c after hl
    cases before <;> cases hl
  | c :: l, m, m', h, hadd => by
    obtain ⟨hret, hl⟩ := h
    -- the first call adds `d`, and the others go on from there
    obtain ⟨d, hd⟩ := Option.isSome_iff_exists.1 (hadd c (List.mem_cons_self ..))
    obtain ⟨hm, hfetch⟩ := legal_added hl fun c' hc' => hadd c' (List.mem_cons_of_mem _ hc')
    have hcons : ∀ l' : List (Completed T (Op w A B) (Ret w)), added ptr (c :: l') = d + added ptr l' := by
      intro l'
      unfold added
      rw [List.map_cons, List.sum_cons, hd, Option.getD_some]
    rw [byLock_addend hd] at hm hfetch
    constructor
    · rw [hm, hcons, add_assoc]
    · intro before c' after heq hc'
      cases before with
      | nil =>
        cases heq
        rw [← hret, byLock_fetches hc']
        exact congrArg Ret.int (add_zero _).symm
      | cons c'' before =>
        cases heq
        rw [hfetch before c' after rfl hc', hcons, add_assoc]

variable [DecidableEq T]

/-- On every port, for any number of threads, any calls of which those on the cell at `ptr` add to it or read it, and
any interleaving of their accesses: when no call is under way the cell holds what it held at first plus what the calls
have added, and there is an order of the calls that respects real time, in which each call that returns the value of
the cell has returned what it held at first plus what the calls before it have added. -/
theorem counter_sum (P : Primitives T w A B) (ptr : A) (m : Cells w A B) (as : List (SystemAct T (Op w A B)))
    (s : System T P.State P.Pc (Op w A B) (Ret w))
    (hrun : run (systemStep P.object) (System.init (P.init m)) as = some s) (hidle : ∀ t, s.running t = none)
    (hadd : ∀ c ∈ s.done, (c.op.addend ptr).isSome = true) :
    intAt ptr (P.mem s.shared) = intAt ptr m + added ptr s.done ∧
    ∃ order, Linearizes byLock m (P.mem s.shared) s.done order ∧
      ∀ before c after, order = before ++ c :: after → c.op.fetches ptr = true →
        c.ret = .int (intAt ptr m + added ptr before) := by
  obtain ⟨order, ho⟩ := P.order hrun hidle
  have hadd' : ∀ c ∈ order, (c.op.addend ptr).isSome = true := fun c hc => hadd c (ho.perm.mem_iff.1 hc)
  obtain ⟨hm, hfetch⟩ := legal_added ho.legal hadd'
  have hperm : added ptr order = added ptr s.done := (ho.perm.map _).sum_eq
  rw [hperm] at hm
  exact ⟨hm, order, ho, hfetch⟩

/-- On ARM one thread has loaded the cell to add 5 when the other one adds 7; its first store fails. -/
def sumActs : List (SystemAct Bool (Op 8 Bool Bool)) :=
  .call true (.fetchAndAddInt true 5) :: .call false (.fetchAndAddInt true 7) :: .step true false ::
    List.replicate 6 (.step false false) ++ List.replicate 10 (.step true false)

theorem counter_sum_demo : ∃ s,
    run (systemStep (Primitives.llscPort .arm).object)
      (System.init ((Primitives.llscPort .arm).init (zeroCells : Cells 8 Bool Bool))) sumActs = some s ∧
    s.done.map (·.ret) = [.int 0, .int 7] ∧ intAt true ((Primitives.llscPort .arm).mem s.shared) = 12 := by
  have h : (run (systemStep (Primitives.llscPort .arm).object)
      (System.init ((Primitives.llscPort .arm).init (zeroCells : Cells 8 Bool Bool))) sumActs).map
      (fun s => (s.done.map (·.ret), (s.running true).isNone && (s.running false).isNone,
        s.done.all fun c => (c.op.addend true).isSome, added true s.done)) =
        some ([.int 0, .int 7], true, true, 12) := by decide
  obtain ⟨s, hs, hd⟩ := Option.map_eq_some_iff.1 h
  simp only [Prod.mk.injEq, Bool.and_eq_true, Option.isNone_iff_eq_none, List.all_eq_true] at hd
  obtain ⟨hret, ⟨htrue, hfalse⟩, hadd, hsum⟩ := hd
  have hidle : ∀ t, s.running t = none := by
    rintro (_ | _)
    · exact hfalse
    · exact htrue
  obtain ⟨hmem, -⟩ := counter_sum (Primitives.llscPort .arm) true zeroCells sumActs s hs hidle hadd
  refine ⟨s, hs, hret, ?_⟩
  rw [hmem, hsum]
  rfl

end OpenPA.Atomic
