/-
Linearizability. Threads run calls of an object, each call a sequence of accesses to the shared state that
interleave with those of the other calls (`systemStep`). The object is linearizable to a specification
when the calls that have returned can be put in a total order in which none comes before one that had
returned when it was called, and in which each, done in one step by the specification, returns what it
returned and all of them leave the contents that the state has (`Linearizes`).

A call returns with its last access, so the times are the strictest ones. The rule for objects whose calls
take effect with that access (`LastAccess.linearizes`): it is enough to know, for each call under way, an
invariant that the accesses of the others keep.
-/
import OpenPA.Machine.Run
import Mathlib.Logic.Function.Basic

namespace OpenPA.Machine

variable {T S M P Op Ret : Type}

/-! ## Histories -/

/-- A call that has returned: its thread, what it was, what it returned, and when. -/
structure Completed (T Op Ret : Type) where
  thread : T
  op : Op
  ret : Ret
  called : Nat
  returned : Nat

/-- The calls of a list, in one step each, return what they returned and lead from `m` to `m'`. -/
def Legal (spec : M → Op → M × Ret) : M → List (Completed T Op Ret) → M → Prop
  | m, [], m' => m = m'
  | m, c :: l, m' => (spec m c.op).2 = c.ret ∧ Legal spec (spec m c.op).1 l m'

/-- A total order of the calls that respects real time and the specification. -/
structure Linearizes (spec : M → Op → M × Ret) (m m' : M) (done order : List (Completed T Op Ret)) : Prop where
  perm : order.Perm done
  realTime : order.Pairwise fun a b => ¬b.returned < a.called
  legal : Legal spec m order m'

theorem Legal.snoc {spec : M → Op → M × Ret} {c : Completed T Op Ret} {m'' : M} :
    ∀ {l : List (Completed T Op Ret)} {m m' : M}, Legal spec m l m' → spec m' c.op = (m'', c.ret) →
      Legal spec m (l ++ [c]) m''
  | [], m, m', h, hc => by
    cases h
    constructor
    · rw [hc]
    · rw [hc]
      rfl
  | a :: l, m, m', h, hc => by
    constructor
    · exact h.1
    · exact Legal.snoc h.2 hc

/-! ## Objects -/

/-- How calls run: where a call starts, and what the next access of thread `t` does to the shared state and
to the call, which goes on or returns. The flag is the environment's choice, where an access has one. -/
structure Object (T S P Op Ret : Type) where
  start : Op → P
  access : T → Bool → P → S → S × (P ⊕ Ret)

/-- A call under way. -/
structure Running (P Op : Type) where
  op : Op
  called : Nat
  pc : P

structure System (T S P Op Ret : Type) where
  shared : S
  running : T → Option (Running P Op)
  /-- the calls that have returned, in the order they did -/
  done : List (Completed T Op Ret)
  clock : Nat

/-- No thread has made a call. -/
def System.init (s : S) : System T S P Op Ret := ⟨s, fun _ => none, [], 0⟩

/-- A thread makes a call, or its next access. -/
inductive SystemAct (T Op : Type) where
  | call (t : T) (op : Op)
  | step (t : T) (flag : Bool)

def SystemAct.thread : SystemAct T Op → T
  | .call t _ | .step t _ => t

variable [DecidableEq T]

/-- Thread `t` is at `r` from now on. -/
def System.put (s : System T S P Op Ret) (t : T) (r : Option (Running P Op)) : System T S P Op Ret :=
  { s with running := Function.update s.running t r, clock := s.clock + 1 }

def systemStep (O : Object T S P Op Ret) (s : System T S P Op Ret) :
    SystemAct T Op → Option (System T S P Op Ret)
  | .call t op =>
    match s.running t with
    | none => some (s.put t (some ⟨op, s.clock, O.start op⟩))
    | some _ => none
  | .step t flag =>
    (s.running t).map fun r =>
      match O.access t flag r.pc s.shared with
      | (u, .inl p) => { s.put t (some { r with pc := p }) with shared := u }
      | (u, .inr ret) =>
        { s.put t none with shared := u, done := s.done ++ [⟨t, r.op, ret, r.called, s.clock⟩] }

/-- A thread's calls are its own. -/
theorem systemStep_other {O : Object T S P Op Ret} {s s' : System T S P Op Ret} {a : SystemAct T Op} {t : T}
    (h : systemStep O s a = some s') (ht : a.thread ≠ t) : s'.running t = s.running t := by
  cases a with
  | call t' op =>
    simp only [systemStep] at h
    split at h
    · cases h
      exact Function.update_of_ne (Ne.symm ht) _ _
    · cases h
  | step t' flag =>
    simp only [systemStep, Option.map_eq_some_iff] at h
    obtain ⟨r, -, h⟩ := h
    split at h
    · subst h
      exact Function.update_of_ne (Ne.symm ht) _ _
    · subst h
      exact Function.update_of_ne (Ne.symm ht) _ _

/-! ## Calls that take effect with their last access -/

/-- What is to be shown of an object, with an invariant of each call under way. -/
structure LastAccess (O : Object T S P Op Ret) (spec : M → Op → M × Ret) (contents : S → M)
    (Ok : S → T → Op → P → Prop) : Prop where
  start : ∀ s t op, Ok s t op (O.start op)
  /-- an access after which the call goes on does not change the contents -/
  goesOn : ∀ s t flag op p u p', Ok s t op p → O.access t flag p s = (u, .inl p') →
    contents u = contents s ∧ Ok u t op p'
  /-- an access with which the call returns is the call in one step -/
  returns : ∀ s t flag op p u ret, Ok s t op p → O.access t flag p s = (u, .inr ret) →
    spec (contents s) op = (contents u, ret)
  /-- the accesses of a thread keep the invariant of the others' calls -/
  others : ∀ s t flag p t' op' p', t' ≠ t → Ok s t' op' p' → Ok (O.access t flag p s).1 t' op' p'

section

variable {O : Object T S P Op Ret} {spec : M → Op → M × Ret} {contents : S → M} {Ok : S → T → Op → P → Prop}

omit [DecidableEq T] in
/-- With an invariant of where the call is alone. -/
theorem LastAccess.and (h : LastAccess O spec contents Ok) {I : P → Prop} (hstart : ∀ op, I (O.start op))
    (hgoesOn : ∀ s t flag p u p', I p → O.access t flag p s = (u, .inl p') → I p') :
    LastAccess O spec contents fun s t op p => Ok s t op p ∧ I p where
  start s t op := ⟨h.start s t op, hstart op⟩
  goesOn s t flag op p u p' hp hacc := by
    obtain ⟨hcont, hok⟩ := h.goesOn s t flag op p u p' hp.1 hacc
    exact ⟨hcont, hok, hgoesOn s t flag p u p' hp.2 hacc⟩
  returns s t flag op p u ret hp hacc := h.returns s t flag op p u ret hp.1 hacc
  others s t flag p t' op' p' ht hp := ⟨h.others s t flag p t' op' p' ht hp.1, hp.2⟩

/-- What holds of a system whose calls take effect with their last access. -/
structure SystemOk (spec : M → Op → M × Ret) (contents : S → M) (Ok : S → T → Op → P → Prop) (m : M)
    (s : System T S P Op Ret) : Prop where
  running : ∀ t r, s.running t = some r → Ok s.shared t r.op r.pc ∧ r.called ≤ s.clock
  times : ∀ c ∈ s.done, c.called ≤ s.clock
  realTime : s.done.Pairwise fun a b => ¬b.returned < a.called
  legal : Legal spec m s.done (contents s.shared)

omit [DecidableEq T] in
theorem SystemOk.init (s : S) : SystemOk spec contents Ok (contents s) (System.init s : System T S P Op Ret) where
  running t r h := by cases h
  times c h := by cases h
  realTime := List.Pairwise.nil
  legal := rfl

/-- A step keeps it, also with another specification that agrees on the call that returns with the step. -/
theorem SystemOk.step (h : LastAccess O spec contents Ok) {spec' : M → Op → M × Ret} {m : M}
    {s s' : System T S P Op Ret} {a : SystemAct T Op} (hs : SystemOk spec' contents Ok m s)
    (hspec : ∀ t flag r u ret, a = .step t flag → s.running t = some r → Ok s.shared t r.op r.pc →
      O.access t flag r.pc s.shared = (u, .inr ret) → spec' (contents s.shared) r.op = spec (contents s.shared) r.op)
    (hstep : systemStep O s a = some s') : SystemOk spec' contents Ok m s' := by
  cases a with
  | call t op =>
    simp only [systemStep] at hstep
    split at hstep
    · cases hstep
      refine ⟨fun t' r hr => ?_, fun c hc => Nat.le_succ_of_le (hs.times c hc), hs.realTime, hs.legal⟩
      by_cases ht : t' = t
      · subst ht
        simp only [System.put, Function.update_self, Option.some.injEq] at hr
        subst hr
        exact ⟨h.start _ _ _, Nat.le_succ _⟩
      · simp only [System.put, Function.update_of_ne ht] at hr
        exact ⟨(hs.running t' r hr).1, Nat.le_succ_of_le (hs.running t' r hr).2⟩
    · cases hstep
  | step t flag =>
    simp only [systemStep, Option.map_eq_some_iff] at hstep
    obtain ⟨r, hr, hstep⟩ := hstep
    obtain ⟨hok, hcalled⟩ := hs.running t r hr
    -- the calls of the other threads
    have hother : ∀ t' r', t' ≠ t → s.running t' = some r' →
        Ok (O.access t flag r.pc s.shared).1 t' r'.op r'.pc ∧ r'.called ≤ s.clock + 1 := by
      intro t' r' ht hr'
      obtain ⟨hok', hle⟩ := hs.running t' r' hr'
      exact ⟨h.others _ _ _ _ _ _ _ ht hok', Nat.le_succ_of_le hle⟩
    split at hstep
    · rename_i u p hacc
      subst hstep
      obtain ⟨hcont, hok'⟩ := h.goesOn _ _ _ _ _ _ _ hok hacc
      rw [hacc] at hother
      refine ⟨fun t' r' hr' => ?_, fun c hc => Nat.le_succ_of_le (hs.times c hc), hs.realTime, ?_⟩
      · by_cases ht : t' = t
        · subst ht
          simp only [System.put, Function.update_self, Option.some.injEq] at hr'
          subst hr'
          exact ⟨hok', Nat.le_succ_of_le hcalled⟩
        · simp only [System.put, Function.update_of_ne ht] at hr'
          exact hother t' r' ht hr'
      · show Legal spec' m s.done (contents u)
        rw [hcont]
        exact hs.legal
    · rename_i u ret hacc
      subst hstep
      rw [hacc] at hother
      refine ⟨fun t' r' hr' => ?_, fun c hc => ?_, ?_, ?_⟩
      · by_cases ht : t' = t
        · subst ht
          simp [System.put] at hr'
        · simp only [System.put, Function.update_of_ne ht] at hr'
          exact hother t' r' ht hr'
      · rcases List.mem_append.1 hc with hc | hc
        · exact Nat.le_succ_of_le (hs.times c hc)
        · rw [List.mem_singleton] at hc
          subst hc
          exact Nat.le_succ_of_le hcalled
      · -- it returns now, and the others were called before
        apply List.pairwise_append.2
        refine ⟨hs.realTime, List.pairwise_singleton _ _, ?_⟩
        intro a ha b hb
        rw [List.mem_singleton] at hb
        subst hb
        exact Nat.not_lt.2 (hs.times a ha)
      · exact hs.legal.snoc ((hspec t flag r u ret rfl hr hok hacc).trans (h.returns _ _ _ _ _ _ _ hok hacc))

/-- The calls, in the order they returned, are a linearization to any specification that agrees on each call
with the one that it takes effect by, in the state in which it returns. -/
theorem LastAccess.linearizes_along (h : LastAccess O spec contents Ok) {spec' : M → Op → M × Ret}
    {G : System T S P Op Ret → SystemAct T Op → Prop}
    (hG : ∀ s t flag r u ret, G s (.step t flag) → s.running t = some r → Ok s.shared t r.op r.pc →
      O.access t flag r.pc s.shared = (u, .inr ret) → spec' (contents s.shared) r.op = spec (contents s.shared) r.op)
    {as : List (SystemAct T Op)} {u : S} {s : System T S P Op Ret}
    (halong : Along (systemStep O) G (System.init u) as) (hrun : run (systemStep O) (System.init u) as = some s) :
    Linearizes spec' (contents u) (contents s.shared) s.done s.done := by
  have hs : SystemOk spec' contents Ok (contents u) s := by
    refine run_inv_along (fun s a s' hs ha hstep => hs.step h ?_ hstep) as (SystemOk.init u) halong hrun
    rintro t flag r u ret rfl
    exact hG s t flag r u ret ha
  exact ⟨List.Perm.refl _, hs.realTime, hs.legal⟩

/-- The calls, in the order they returned, are a linearization. -/
theorem LastAccess.linearizes (h : LastAccess O spec contents Ok) {as : List (SystemAct T Op)} {u : S}
    {s : System T S P Op Ret} (hrun : run (systemStep O) (System.init u) as = some s) :
    Linearizes spec (contents u) (contents s.shared) s.done s.done :=
  h.linearizes_along (G := fun _ _ => True) (fun _ _ _ _ _ _ _ _ _ _ => rfl)
    (Along.of_forall as _ fun _ _ => trivial) hrun

/-- What holds of each call under way, in every state reached. -/
theorem LastAccess.running (h : LastAccess O spec contents Ok) {as : List (SystemAct T Op)} {u : S}
    {s : System T S P Op Ret} (hrun : run (systemStep O) (System.init u) as = some s) {t : T} {r : Running P Op}
    (hr : s.running t = some r) : Ok s.shared t r.op r.pc := by
  have hs : SystemOk spec contents Ok (contents u) s :=
    run_inv (fun _ _ _ hs hstep => hs.step h (fun _ _ _ _ _ _ _ _ _ => rfl) hstep) as (SystemOk.init u) hrun
  exact (hs.running t r hr).1

/-- A step with which a call returns is the call in one step. -/
theorem LastAccess.returned (h : LastAccess O spec contents Ok) {as : List (SystemAct T Op)} {u : S}
    {s s' : System T S P Op Ret} (hrun : run (systemStep O) (System.init u) as = some s) {t : T} {flag : Bool}
    {c : Completed T Op Ret} (hstep : systemStep O s (.step t flag) = some s') (hdone : s'.done = s.done ++ [c]) :
    spec (contents s.shared) c.op = (contents s'.shared, c.ret) := by
  simp only [systemStep, Option.map_eq_some_iff] at hstep
  obtain ⟨r, hr, hstep⟩ := hstep
  split at hstep
  · subst hstep
    have hlen := congrArg List.length hdone
    simp [System.put] at hlen
  · rename_i u' ret hacc
    subst hstep
    obtain rfl := List.singleton_inj.1 (List.append_cancel_left hdone)
    exact h.returns _ _ _ _ _ _ _ (h.running hrun hr) hacc

end

/-! ## Counting calls -/

section

variable {O : Object T S P Op Ret}

/-- The number of calls in a schedule. -/
def calls (as : List (SystemAct T Op)) : Nat :=
  as.countP fun a => match a with
    | .call _ _ => true
    | .step _ _ => false

/-- The threads that are in a call. -/
structure Busy (s : System T S P Op Ret) (l : List T) : Prop where
  nodup : l.Nodup
  mem : ∀ t, t ∈ l ↔ s.running t ≠ none

theorem Busy.step {s s' : System T S P Op Ret} {l : List T} (h : Busy s l) {a : SystemAct T Op}
    (hstep : systemStep O s a = some s') :
    ∃ l', Busy s' l' ∧ s.done.length + l.length + calls [a] = s'.done.length + l'.length := by
  cases a with
  | call t op =>
    simp only [systemStep] at hstep
    split at hstep
    · rename_i hr
      cases hstep
      have ht : t ∉ l := by
        rw [h.mem, hr]
        simp
      refine ⟨t :: l, ⟨List.nodup_cons.2 ⟨ht, h.nodup⟩, fun t' => ?_⟩, ?_⟩
      · by_cases htt : t' = t
        · subst htt
          simp [System.put]
        · simp only [System.put, Function.update_of_ne htt, List.mem_cons, htt, false_or]
          exact h.mem t'
      · simp only [System.put, List.length_cons, calls, List.countP_singleton, if_true]
        omega
    · cases hstep
  | step t flag =>
    simp only [systemStep, Option.map_eq_some_iff] at hstep
    obtain ⟨r, hr, hstep⟩ := hstep
    have ht : t ∈ l := by
      rw [h.mem, hr]
      simp
    split at hstep
    · subst hstep
      refine ⟨l, ⟨h.nodup, fun t' => ?_⟩, rfl⟩
      by_cases htt : t' = t
      · subst htt
        simp [System.put, ht]
      · simp only [System.put, Function.update_of_ne htt]
        exact h.mem t'
    · subst hstep
      -- the call returns
      refine ⟨l.erase t, ⟨h.nodup.erase t, fun t' => ?_⟩, ?_⟩
      · by_cases htt : t' = t
        · subst htt
          simp [System.put, h.nodup.not_mem_erase]
        · simp only [System.put, Function.update_of_ne htt, List.mem_erase_of_ne htt]
          exact h.mem t'
      · have hpos := List.length_pos_of_mem ht
        rw [List.length_erase_of_mem ht]
        simp only [List.length_append, List.length_cons, List.length_nil, calls, List.countP_singleton,
          Bool.false_eq_true, if_false]
        omega

theorem Busy.run : ∀ (as : List (SystemAct T Op)) {s s' : System T S P Op Ret} {l : List T}, Busy s l →
    Machine.run (systemStep O) s as = some s' →
    ∃ l', Busy s' l' ∧ s.done.length + l.length + calls as = s'.done.length + l'.length
  | [], s, s', l, h, hrun => by
    cases hrun
    exact ⟨l, h, rfl⟩
  | a :: as, s, s', l, h, hrun => by
    obtain ⟨u, hu, hrun⟩ := run_cons_some.1 hrun
    obtain ⟨l₁, h₁, hlen₁⟩ := h.step hu
    obtain ⟨l₂, h₂, hlen₂⟩ := Busy.run as h₁ hrun
    refine ⟨l₂, h₂, ?_⟩
    have hcalls : calls (a :: as) = calls [a] + calls as := by
      simp only [calls, List.countP_cons, List.countP_nil]
      omega
    omega

theorem done_length_le {as : List (SystemAct T Op)} {u : S} {s : System T S P Op Ret}
    (hrun : run (systemStep O) (System.init u) as = some s) : s.done.length ≤ calls as := by
  have hinit : Busy (System.init u : System T S P Op Ret) [] := ⟨List.nodup_nil, fun t => by simp [System.init]⟩
  obtain ⟨l, -, hlen⟩ := hinit.run as hrun
  simp only [System.init, List.length_nil] at hlen
  omega

/-- When no thread is in a call, all calls have returned. -/
theorem done_length {as : List (SystemAct T Op)} {u : S} {s : System T S P Op Ret}
    (hrun : run (systemStep O) (System.init u) as = some s) (hidle : ∀ t, s.running t = none) :
    s.done.length = calls as := by
  have hinit : Busy (System.init u : System T S P Op Ret) [] := ⟨List.nodup_nil, fun t => by simp [System.init]⟩
  obtain ⟨l, hl, hlen⟩ := hinit.run as hrun
  have hnil : l = [] := by
    apply List.eq_nil_iff_forall_not_mem.2
    intro t ht
    exact (hl.mem t).1 ht (hidle t)
  subst hnil
  simp only [System.init, List.length_nil] at hlen
  omega

end

end OpenPA.Machine
