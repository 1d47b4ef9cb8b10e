/-
The checks that `test_threaded_llsc_int_stack` and `test_threaded_llsc_ptr_stack` make when all threads have been
joined. A thread pops, or pushes its one object. The main thread adds up the errors, walks the stack and marks what it
meets, looks for an object that is marked and was not met, and compares the numbers of pushes and pops. On any number
of threads and objects, and whatever the interleaving was, it finds nothing wrong (`threaded_llsc_stack`).

What that takes beyond the stack being laid out is that an object not on it is free once nobody holds it, and that a
thread's successes are of its own kind: both follow from what a single access does to the marks and to the log
(`Changes`).
-/
import OpenPA.Stack.Aba
import Mathlib.Algebra.BigOperators.Group.Finset.Basic
import Mathlib.Algebra.BigOperators.Group.Finset.Piecewise
import Mathlib.Data.Fintype.Basic
import Mathlib.Data.List.Nodup

namespace OpenPA.Stack

open OpenPA.Machine

variable {T O : Type}

/-! ## The test -/

/-- What a thread calls: `thread_data[i].obj` is the object that it pushes, and -1 if it pops. -/
def Op.ofObj : Option O → Op O
  | some obj => .push obj
  | none => .pop

/-- The messages of `FAIL_OP_ERROR`. -/
inductive StackError (O : Type) where
  /-- errors encountered in thread routines -/
  | threads (nerrors : Nat)
  /-- unexpected value of "on stack" for an object: expected 1 -/
  | onStack (obj : O) (on_stack : BitVec 32)
  /-- an object's "on_stack" after walking the stack: expected 0 or 2 -/
  | afterWalk (obj : O) (on_stack : BitVec 32)
  /-- unexpected number of pops -/
  | pops (npops expected : Int)

inductive WalkResult (O : Type) where
  | outOfFuel
  | failed (e : StackError O)
  | done (m : Memory O) (non_stack : Nat)

section

variable [DecidableEq O]

/-- The loop that walks the stack, from `i`. The test ends it at an index that is not one of an object either, and
reports that; `next` has no such value here. -/
def walk : Nat → Memory O → Option O → Nat → WalkResult O
  | 0, _, _, _ => .outOfFuel
  | _ + 1, m, none, non_stack => .done m non_stack
  | fuel + 1, m, some obj, non_stack =>
    if m.onStack obj ≠ 1#32 then .failed (.onStack obj (m.onStack obj))
    else
      let m : Memory O := Function.update m (.onStack obj) 2#32
      walk fuel m (m.next obj) (non_stack + 1)

/-- The checks, after the threads have been joined; `none` when the fuel for the walk runs out. -/
def checkStack [Fintype T] (role : T → Option O) (objs : List O) (fuel : Nat) (s : State T O) :
    Option (Except (StackError O) Unit) :=
  let nerrors := ∑ t, s.nerrors t
  if nerrors ≠ 0 then some (.error (.threads nerrors))
  else
    match walk fuel s.cells.mem (Memory.head s.cells.mem) 0 with
    | .outOfFuel => none
    | .failed e => some (.error e)
    | .done m non_stack =>
      match objs.find? fun obj => m.onStack obj ≠ 0#32 ∧ m.onStack obj ≠ 2#32 with
      | some obj => some (.error (.afterWalk obj (m.onStack obj)))
      | none =>
        let npops := ∑ t, if role t = none then s.nsuccess t else 0
        let npushes := ∑ t, if role t = none then 0 else s.nsuccess t
        if (npops : Int) ≠ npushes - non_stack then some (.error (.pops npops (npushes - non_stack)))
        else some (.ok ())

/-! ## The walk -/

/-- It ends with as many objects as there are on the stack, and marks them. -/
theorem walk_done {st : List O} : ∀ {m : Memory O} {fuel n : Nat}, st.Nodup → Path m.next st →
    (∀ obj ∈ st, m.onStack obj = 1#32) → st.length < fuel →
    ∃ m', walk fuel m st.head? n = .done m' (n + st.length) ∧
      ∀ obj, m'.onStack obj = if obj ∈ st then 2#32 else m.onStack obj := by
  induction st with
  | nil =>
    intro m fuel n _ _ _ hfuel
    obtain ⟨fuel, rfl⟩ := Nat.exists_eq_succ_of_ne_zero (Nat.ne_of_gt hfuel)
    exact ⟨m, rfl, fun obj => rfl⟩
  | cons obj st ih =>
    intro m fuel n hnodup hpath hmarked hfuel
    obtain ⟨fuel, rfl⟩ := Nat.exists_eq_succ_of_ne_zero (Nat.ne_of_gt (Nat.lt_of_le_of_lt (Nat.zero_le _) hfuel))
    obtain ⟨hobj, hnodup⟩ := List.nodup_cons.1 hnodup
    obtain ⟨hnext, hpath⟩ := Path.cons_iff.1 hpath
    have hrest : ∀ o ∈ st, Function.update m.onStack obj 2#32 o = 1#32 := by
      intro o ho
      have hne : o ≠ obj := by
        rintro rfl
        exact hobj ho
      rw [Function.update_of_ne hne]
      exact hmarked o (List.mem_cons_of_mem _ ho)
    obtain ⟨m', hwalk, hafter⟩ := ih (m := Function.update m (.onStack obj) 2#32) (n := n + 1) hnodup
      (by rw [next_update_onStack]; exact hpath) (by rw [onStack_update_onStack]; exact hrest)
      (Nat.lt_of_succ_lt_succ hfuel)
    refine ⟨m', ?_, fun o => ?_⟩
    · simp only [walk, List.head?_cons, hmarked obj (List.mem_cons_self ..), ne_eq, not_true_eq_false, if_false,
        next_update_onStack, hnext]
      rw [hwalk, List.length_cons, Nat.add_right_comm, Nat.add_assoc]
    · rw [hafter, onStack_update_onStack]
      by_cases ho : o = obj
      · subst ho
        rw [if_neg hobj, Function.update_self, if_pos (List.mem_cons_self ..)]
      · simp [ho]

end

/-! ## The accesses -/

/-- Which of the two iterations it is. -/
def Pc.isPush : Pc O → Bool
  | .acquire _ _ | .loadHead _ | .storeNext _ _ | .casHead _ _ _ => true
  | .llHead | .loadNext _ | .scHead _ _ | .checkOnStack _ | .storeFailed | .release _ => false

/-- What an access does to the marks and to the log, and what the iteration holds after it. -/
inductive Changes [DecidableEq O] (t : T) (pc : Pc O) (s s' : State T O) (r : Option (Pc O)) : Prop where
  | quiet (hlog : s'.log = s.log) (hmark : Memory.onStack s'.cells.mem = Memory.onStack s.cells.mem)
    (hholds : r.bind Pc.holds = pc.holds)
  | acquire (obj : O) (hpc : pc.holds = none) (hlog : s'.log = s.log)
    (hmark : Memory.onStack s'.cells.mem = Function.update (Memory.onStack s.cells.mem) obj 1#32)
    (hholds : r.bind Pc.holds = some obj)
  | push (obj : O) (hkind : pc.isPush = true) (hpc : pc.holds = some obj) (hlog : s'.log = s.log ++ [(t, .push obj)])
    (hmark : Memory.onStack s'.cells.mem = Memory.onStack s.cells.mem)
  | pop (obj : O) (hkind : pc.isPush = false) (hpc : pc.holds = none) (hlog : s'.log = s.log ++ [(t, .pop obj)])
    (hmark : Memory.onStack s'.cells.mem = Memory.onStack s.cells.mem) (hholds : r.bind Pc.holds = some obj)
  | release (obj : O) (hpc : pc.holds = some obj) (hlog : s'.log = s.log)
    (hmark : Memory.onStack s'.cells.mem = Function.update (Memory.onStack s.cells.mem) obj 0#32)

section

variable [DecidableEq T] [DecidableEq O] {s : State T O} {p : T → Option (Pc O)} {st : List O} {t : T} {pc : Pc O}

theorem StackInv.changes (h : StackInv s p st) (hp : p t = some pc) (b : Bool) :
    Changes t pc s (pc.access t b s).1 (pc.access t b s).2.getLeft? ∧
      ∀ pc', (pc.access t b s).2 = .inl pc' → pc'.isPush = pc.isPush := by
  have hpoint := h.shape.point t pc hp
  cases pc with
  | acquire obj cas =>
    rcases acquire_cases (b := b) hpoint with ⟨u, cas', hacc, hmem, -⟩ | ⟨u, hacc, hmem⟩
    · simp only [Pc.access, hacc]
      refine ⟨.quiet rfl (congrArg Memory.onStack hmem) rfl, ?_⟩
      rintro pc' ⟨⟩
      rfl
    · -- the last access of the compare-and-swap, which has found the object free or not
      simp only [Pc.access, hacc]
      by_cases hfree : Memory.onStack s.cells.mem obj = 0#32
      · rw [if_pos hfree] at hmem
        rw [if_neg (not_not.2 hfree)]
        refine ⟨.acquire obj rfl rfl ?_ rfl, ?_⟩
        · rw [hmem, onStack_update_onStack]
        · rintro pc' ⟨⟩
          rfl
      · rw [if_neg hfree] at hmem
        rw [if_pos hfree]
        exact ⟨.quiet rfl (congrArg Memory.onStack hmem) rfl, fun _ hpc => by cases hpc⟩
  | loadHead obj =>
    refine ⟨.quiet rfl rfl rfl, ?_⟩
    rintro pc' ⟨⟩
    rfl
  | storeNext obj tmp_head =>
    refine ⟨.quiet rfl onStack_update_next rfl, ?_⟩
    rintro pc' ⟨⟩
    rfl
  | casHead obj tmp_head cas =>
    rcases push_cases (b := b) hpoint.2 with ⟨u, cas', hacc, hmem, -⟩ | ⟨u, hacc, hmem⟩
    · simp only [Pc.access, hacc]
      refine ⟨.quiet rfl (congrArg Memory.onStack hmem) rfl, ?_⟩
      rintro pc' ⟨⟩
      rfl
    · simp only [Pc.access, hacc]
      by_cases hhead : Memory.head s.cells.mem = tmp_head
      · rw [if_pos hhead] at hmem
        rw [if_neg (not_not.2 hhead.symm)]
        refine ⟨.push obj rfl rfl rfl ?_, fun _ hpc => by cases hpc⟩
        show Memory.onStack u.mem = _
        rw [hmem, onStack_update_head]
      · rw [if_neg hhead] at hmem
        rw [if_pos (Ne.symm hhead)]
        refine ⟨.quiet rfl (congrArg Memory.onStack hmem) rfl, ?_⟩
        rintro pc' ⟨⟩
        rfl
  | llHead =>
    simp only [Pc.access]
    split
    · exact ⟨.quiet rfl rfl rfl, fun _ hpc => by cases hpc⟩
    · refine ⟨.quiet rfl rfl rfl, ?_⟩
      rintro pc' ⟨⟩
      rfl
  | loadNext obj =>
    refine ⟨.quiet rfl rfl rfl, ?_⟩
    rintro pc' ⟨⟩
    rfl
  | scHead obj tmp_obj =>
    by_cases hv : (s.cells.valid t .head && !b) = true
    · have hsc : s.cells.sc t .head tmp_obj b = (true, s.cells.write t .head tmp_obj) := Linked.sc_stores hv
      simp only [Pc.access, hsc, if_true]
      refine ⟨.pop obj rfl rfl rfl onStack_update_head rfl, ?_⟩
      rintro pc' ⟨⟩
      rfl
    · have hsc : s.cells.sc t .head tmp_obj b = (false, s.cells) := Linked.sc_fails hv
      simp only [Pc.access, hsc, Bool.false_eq_true, if_false]
      exact ⟨.quiet rfl rfl rfl, fun _ hpc => by cases hpc⟩
  | checkOnStack obj =>
    have hown : Owns p t obj := by
      rw [Owns, hp]
      rfl
    -- an object that a thread holds is marked, so that this is not an error
    have hne : ¬Memory.onStack s.cells.mem obj = 0#32 := by
      rw [(h.shape.held t obj hown).2]
      simp
    simp only [Pc.access, if_neg hne]
    refine ⟨.quiet rfl rfl rfl, ?_⟩
    rintro pc' ⟨⟩
    rfl
  | storeFailed => exact hpoint.elim
  | release obj => exact ⟨.release obj rfl rfl onStack_update_onStack, fun _ hpc => by cases hpc⟩

end

/-! ## The invariant -/

/-- The stack's invariant, for threads of two kinds; and an object that nobody holds and that is not on the stack is
free. -/
structure TestInv [DecidableEq T] [DecidableEq O] (role : T → Option O) (s : State T O) (p : T → Option (Pc O)) :
    Prop where
  stack : ∃ st, StackInv s p st
  free : ∀ obj, Memory.onStack s.cells.mem obj = 0#32 ∨ Pushed s.log obj ∨ ∃ t, Owns p t obj
  kind : ∀ t pc, p t = some pc → pc.isPush = (role t).isSome
  log : ∀ x ∈ s.log, x.2.isPush = (role x.1).isSome

section

variable [DecidableEq T] [DecidableEq O] {role : T → Option O} {s s' : State T O} {p : T → Option (Pc O)} {t : T}
  {pc : Pc O} {r : Option (Pc O)}

/-- An object that is not free, after an access of `t`. -/
theorem TestInv.free_update (h : TestInv role s p) (hp : p t = some pc) (hchanges : Changes t pc s s' r) (obj : O) :
    Memory.onStack s'.cells.mem obj = 0#32 ∨ Pushed s'.log obj ∨ ∃ t', Owns (Function.update p t r) t' obj := by
  have hself : ∀ o, r.bind Pc.holds = some o → ∃ t', Owns (Function.update p t r) t' o := by
    intro o ho
    refine ⟨t, ?_⟩
    rw [Owns, Function.update_self]
    exact ho
  have hheld : ∀ o, (∃ t', Owns p t' o) → pc.holds = some o ∨ ∃ t', Owns (Function.update p t r) t' o := by
    rintro o ⟨t', ho⟩
    by_cases ht : t' = t
    · left
      rw [Owns, ht, hp] at ho
      exact ho
    · right
      refine ⟨t', ?_⟩
      rw [Owns, Function.update_of_ne ht]
      exact ho
  have hfree := h.free obj
  cases hchanges with
  | quiet hlog hmark hholds =>
    rw [hlog, hmark]
    refine hfree.imp_right (Or.imp_right fun ho => ?_)
    exact (hheld obj ho).elim (fun hpc => hself obj (hholds.trans hpc)) id
  | acquire o hpc hlog hmark hholds =>
    by_cases heq : obj = o
    · subst heq
      exact .inr (.inr (hself obj hholds))
    · rw [hlog, hmark, Function.update_of_ne heq]
      refine hfree.imp_right (Or.imp_right fun ho => ?_)
      exact (hheld obj ho).resolve_left fun hsome => by cases hpc.symm.trans hsome
  | push o hpush hpc hlog hmark =>
    -- what `t` held is on the stack now
    rw [hlog, hmark, pushed_push]
    rcases hfree with hfree | hpushed | ho
    · exact .inl hfree
    · exact .inr (.inl (.inr hpushed))
    · rcases hheld obj ho with hsome | ho
      · exact .inr (.inl (.inl (Option.some.inj (hsome.symm.trans hpc))))
      · exact .inr (.inr ho)
  | pop o hpop hpc hlog hmark hholds =>
    -- what has left the stack is in the hand of `t`
    rw [hlog, hmark, pushed_pop]
    by_cases heq : obj = o
    · subst heq
      exact .inr (.inr (hself obj hholds))
    · refine hfree.imp_right (Or.imp (fun hpushed => ⟨heq, hpushed⟩) fun ho => ?_)
      exact (hheld obj ho).resolve_left fun hsome => by cases hpc.symm.trans hsome
  | release o hpc hlog hmark =>
    rw [hlog, hmark]
    by_cases heq : obj = o
    · subst heq
      exact .inl (Function.update_self ..)
    · rw [Function.update_of_ne heq]
      refine hfree.imp_right (Or.imp_right fun ho => ?_)
      exact (hheld obj ho).resolve_left fun hsome => heq (Option.some.inj (hsome.symm.trans hpc))

theorem TestInv.update (h : TestInv role s p) (hp : p t = some pc)
    (hstack : ∃ st, StackInv s' (Function.update p t r) st) (hchanges : Changes t pc s s' r)
    (hkind : ∀ pc', r = some pc' → pc'.isPush = pc.isPush) : TestInv role s' (Function.update p t r) := by
  have hmine := h.kind t pc hp
  refine ⟨hstack, fun obj => ?_, fun t' pc' hp' => ?_, fun x hx => ?_⟩
  · exact h.free_update hp hchanges obj
  · by_cases ht : t' = t
    · subst ht
      rw [Function.update_self] at hp'
      exact (hkind pc' hp').trans hmine
    · rw [Function.update_of_ne ht] at hp'
      exact h.kind t' pc' hp'
  · cases hchanges with
    | quiet hlog | acquire obj hpc hlog | release obj hpc hlog =>
      rw [hlog] at hx
      exact h.log x hx
    | push obj hpush hpc hlog =>
      rw [hlog] at hx
      rcases List.mem_append.1 hx with hx | hx
      · exact h.log x hx
      · rw [List.mem_singleton.1 hx, ← hmine, hpush]
        rfl
    | pop obj hpop hpc hlog =>
      rw [hlog] at hx
      rcases List.mem_append.1 hx with hx | hx
      · exact h.log x hx
      · rw [List.mem_singleton.1 hx, ← hmine, hpop]
        rfl

theorem TestInv.init (valid : T → Loc O → Bool) : TestInv role (State.init valid) (fun _ => none) where
  stack := ⟨[], StackInv.init valid⟩
  free _ := .inl rfl
  kind _ _ h := by cases h
  log _ h := by cases h

/-- A thread that calls what it is there for, or makes an access. -/
theorem TestInv.step {s s' : StackSystem T O} {a : SystemAct T (Op O)} (h : TestInv role s.shared (pcs s))
    (hcall : ∀ t op, a = .call t op → op = .ofObj (role t)) (hstep : systemStep stackObject s a = some s') :
    TestInv role s'.shared (pcs s') := by
  have hstack := StackInv.step h.stack hstep
  cases a with
  | call t op =>
    obtain rfl := hcall t op rfl
    simp only [systemStep] at hstep
    split at hstep
    · rename_i hrun
      cases hstep
      rw [pcs_of_running (s := s) rfl] at hstack ⊢
      refine ⟨hstack, fun obj => ?_, fun t' pc hpc => ?_, h.log⟩
      · -- a thread that starts an iteration has held nothing
        refine (h.free obj).imp_right (Or.imp_right ?_)
        rintro ⟨t', ho⟩
        refine ⟨t', ?_⟩
        have ht : t' ≠ t := by
          rintro rfl
          rw [Owns, pcs, hrun] at ho
          cases ho
        rw [Owns, Function.update_of_ne ht]
        exact ho
      · by_cases ht : t' = t
        · subst ht
          rw [Function.update_self] at hpc
          cases hpc
          cases role t' <;> rfl
        · rw [Function.update_of_ne ht] at hpc
          exact h.kind t' pc hpc
    · cases hstep
  | step t b =>
    simp only [systemStep, Option.map_eq_some_iff] at hstep
    obtain ⟨r, hrun, hstep⟩ := hstep
    have hp : pcs s t = some r.pc := by
      rw [pcs, hrun]
      rfl
    obtain ⟨st, hinv⟩ := h.stack
    obtain ⟨hchanges, hkind⟩ := hinv.changes hp b
    split at hstep
    · rename_i u pc' hacc
      rw [show r.pc.access t b s.shared = (u, .inl pc') from hacc] at hchanges hkind
      subst hstep
      rw [pcs_of_running (s := s) rfl] at hstack ⊢
      apply h.update hp hstack hchanges
      rintro pc ⟨⟩
      exact hkind pc' rfl
    · rename_i u ret hacc
      rw [show r.pc.access t b s.shared = (u, .inr ret) from hacc] at hchanges
      subst hstep
      rw [pcs_of_running (s := s) rfl] at hstack ⊢
      apply h.update hp hstack hchanges
      rintro pc ⟨⟩

end

/-! ## The counts of the threads -/

theorem sum_countP [Fintype T] [DecidableEq T] {E : Type} (b : T → Prop) [DecidablePred b] :
    ∀ log : List (T × E), ∑ t, (if b t then log.countP (·.1 = t) else 0) = log.countP (fun x => decide (b x.1))
  | [] => Finset.sum_eq_zero fun t _ => ite_self 0
  | x :: log => by
    have hcons : ∀ t, (if b t then (x :: log).countP (·.1 = t) else 0) =
        (if b t then log.countP (·.1 = t) else 0) + if x.1 = t then (if b x.1 then 1 else 0) else 0 := by
      intro t
      rw [List.countP_cons]
      by_cases hx : x.1 = t
      · subst hx
        by_cases hb : b x.1 <;> simp [hb]
      · simp [hx]
    rw [Finset.sum_congr rfl fun t _ => hcons t, Finset.sum_add_distrib, sum_countP b log, Finset.sum_ite_eq,
      if_pos (Finset.mem_univ _), List.countP_cons]
    simp only [decide_eq_true_eq]

/-- When all threads have been joined, all checks pass: no thread has seen an error, the walk of the stack ends and
meets marked objects only, each once, every other object is free, and the poppers have popped as often as the pushers
have pushed, less the objects on the stack. -/
theorem threaded_llsc_stack [Fintype T] [DecidableEq T] [DecidableEq O] (role : T → Option O) (objs : List O)
    (hobjs : ∀ obj, obj ∈ objs) (valid : T → Loc O → Bool) (as : List (SystemAct T (Op O))) (s : StackSystem T O)
    (hcalls : ∀ t op, .call t op ∈ as → op = .ofObj (role t))
    (hrun : run (systemStep stackObject) (System.init (State.init valid)) as = some s)
    (hjoined : ∀ t, s.running t = none) :
    checkStack role objs (objs.length + 1) s.shared = some (.ok ()) := by
  have halong : Along (systemStep stackObject) (fun _ a => ∀ t op, a = .call t op → op = Op.ofObj (role t))
      (System.init (State.init valid)) as :=
    Along.of_forall as _ fun a ha t op heq => hcalls t op (heq ▸ ha)
  have h : TestInv role s.shared (pcs s) :=
    run_inv_along (P := fun s : StackSystem T O => TestInv role s.shared (pcs s))
      (fun _ _ _ h hcall hstep => h.step hcall hstep) as (TestInv.init valid) halong hrun
  have hnone : ∀ t, pcs s t = none := by
    intro t
    rw [pcs, hjoined t]
    rfl
  obtain ⟨st, hst⟩ := h.stack
  obtain ⟨hnodup, hhead, hpath, hmarked⟩ := hst.shape.laid
  have hlen : st.length < objs.length + 1 :=
    Nat.lt_succ_of_le (hnodup.subperm fun obj _ => hobjs obj).length_le
  obtain ⟨m', hwalk, hmark⟩ := walk_done (n := 0) hnodup hpath hmarked hlen
  rw [← hhead, Nat.zero_add] at hwalk
  have herrors : ∑ t, s.shared.nerrors t = 0 := Finset.sum_eq_zero fun t _ => hst.counts.errors t
  have hfind : (objs.find? fun obj => m'.onStack obj ≠ 0#32 ∧ m'.onStack obj ≠ 2#32) = none := by
    rw [List.find?_eq_none]
    intro obj _
    rw [hmark obj]
    by_cases hobj : obj ∈ st
    · simp [hobj]
    · -- not on the stack, and nobody holds it
      have hzero : Memory.onStack s.shared.cells.mem obj = 0#32 := by
        refine (h.free obj).resolve_right ?_
        rintro (hpushed | ⟨t, ho⟩)
        · exact hobj ((hst.replays.mem_iff obj).2 hpushed)
        · rw [Owns, hnone t] at ho
          cases ho
      simp [hobj, hzero]
  -- the counters of the threads are what the log says of them
  have hcount : ∀ t, s.shared.nsuccess t = s.shared.log.countP (·.1 = t) := by
    intro t
    have hsuccess := hst.counts.success t
    rw [hnone t] at hsuccess
    exact hsuccess
  have hpops : ∑ t, (if role t = none then s.shared.nsuccess t else 0) = pops s.shared.log := by
    rw [Finset.sum_congr rfl fun t _ => by rw [hcount t], sum_countP fun t => role t = none]
    apply List.countP_congr
    intro x hx
    rw [h.log x hx]
    simp
  have hpushes : ∑ t, (if role t = none then 0 else s.shared.nsuccess t) = pushes s.shared.log := by
    have hswap : ∀ t, (if role t = none then 0 else s.shared.nsuccess t) =
        if role t ≠ none then s.shared.log.countP (·.1 = t) else 0 := by
      intro t
      rw [hcount t, ite_not]
    rw [Finset.sum_congr rfl fun t _ => hswap t, sum_countP fun t => role t ≠ none]
    apply List.countP_congr
    intro x hx
    rw [h.log x hx]
    simp [Option.isSome_iff_ne_none]
  have hlength := hst.replays.length
  simp only [checkStack, herrors, hwalk, hfind, ne_eq, not_true_eq_false, if_false]
  rw [hpops, hpushes, if_neg (by omega)]

/-- One thread pushes the object `true` and the other one pops; the second push is not popped. -/
def stackActs : List (SystemAct Bool (Op Bool)) :=
  callSteps true (.push true) 6 ++ callSteps false .pop 5 ++ callSteps true (.push true) 6

theorem threaded_llsc_stack_demo : ∃ s : StackSystem Bool Bool,
    run (systemStep stackObject) (System.init (State.init fun _ _ => false)) stackActs = some s ∧
    (pushes s.shared.log, pops s.shared.log) = (2, 1) ∧
    checkStack (fun t => if t then some true else none) [true, false] 3 s.shared = some (.ok ()) := by
  have h : (run (systemStep stackObject) (System.init (State.init fun _ _ => false)) stackActs).map
      (fun s => (decide (∀ t, (s.running t).isNone = true), pushes s.shared.log, pops s.shared.log)) =
        some (true, 2, 1) := by
    decide
  obtain ⟨s, hs, hd⟩ := Option.map_eq_some_iff.1 h
  obtain ⟨hjoined, hcounts⟩ := Prod.mk.inj hd
  simp only [decide_eq_true_eq, Option.isNone_iff_eq_none] at hjoined
  refine ⟨s, hs, hcounts, threaded_llsc_stack _ [true, false] (by decide) _ stackActs s ?_ hs hjoined⟩
  intro t op ha
  simp [stackActs, callSteps] at ha
  rcases ha with ⟨rfl, rfl⟩ | ⟨rfl, rfl⟩ | ⟨rfl, rfl⟩ <;> rfl

end OpenPA.Stack
