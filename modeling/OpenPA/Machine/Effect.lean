/-
Calls that take effect in their middle. A call of an object may go on after the access with which it takes
effect: an emulated operation leaves its critical section, a loop tests what its store returned. Which calls
have taken effect shows in where they are (`took`). The calls in the order in which they take effect are then
a linearization (`TakesEffect.linearizes`): those that have returned, and those under way that have taken
effect already, as if they returned now. `LastAccess` is the case in which no call goes on.

The proof keeps a ledger of the calls that have taken effect, in that order. A call is entered when it takes
effect and closed when it returns.
-/
import OpenPA.Machine.Linearize
import Mathlib.Data.List.Nodup

namespace OpenPA.Machine

variable {T S M P Op Ret : Type}

/-! ## Linearizations of the calls so far -/

theorem Legal.congr {spec : M → Op → M × Ret} : ∀ {l l' : List (Completed T Op Ret)} {m m' : M},
    l.map (fun c => (c.op, c.ret)) = l'.map (fun c => (c.op, c.ret)) → Legal spec m l m' → Legal spec m l' m'
  | [], [], m, m', _, h => h
  | c :: l, c' :: l', m, m', hl, h => by
    simp only [List.map_cons, List.cons.injEq, Prod.mk.injEq] at hl
    obtain ⟨⟨hop, hret⟩, hl⟩ := hl
    constructor
    · rw [← hop, ← hret]
      exact h.1
    · rw [← hop]
      exact Legal.congr hl h.2

/-- A linearization of the calls that have returned and of some that are under way, at most one for each
thread, which return now. -/
structure LinearizesNow (spec : M → Op → M × Ret) (m m' : M) (s : System T S P Op Ret)
    (pending order : List (Completed T Op Ret)) : Prop where
  underWay : ∀ c ∈ pending, c.returned = s.clock ∧
    ∃ r, s.running c.thread = some r ∧ r.op = c.op ∧ r.called = c.called
  once : (pending.map (·.thread)).Nodup
  linearizes : Linearizes spec m m' (s.done ++ pending) order

/-- With no call under way, it is one of the calls that have returned. -/
theorem LinearizesNow.of_idle {spec : M → Op → M × Ret} {m m' : M} {s : System T S P Op Ret}
    {pending order : List (Completed T Op Ret)} (h : LinearizesNow spec m m' s pending order)
    (hidle : ∀ t, s.running t = none) : Linearizes spec m m' s.done order := by
  have hnil : pending = [] := by
    apply List.eq_nil_iff_forall_not_mem.2
    intro c hc
    obtain ⟨-, r, hr, -⟩ := h.underWay c hc
    rw [hidle] at hr
    cases hr
  have hlin := h.linearizes
  rw [hnil, List.append_nil] at hlin
  exact hlin

/-! ## The ledger -/

/-- A call that has taken effect, and when it returned, if it has. -/
structure Effected (T Op Ret : Type) where
  thread : T
  op : Op
  ret : Ret
  called : Nat
  returned : Option Nat

namespace Effected

/-- The call, with `now` for its return if it has not returned. -/
def complete (now : Nat) (e : Effected T Op Ret) : Completed T Op Ret :=
  ⟨e.thread, e.op, e.ret, e.called, e.returned.getD now⟩

/-- The call, if it has returned. -/
def completed (e : Effected T Op Ret) : Option (Completed T Op Ret) :=
  e.returned.map fun n => ⟨e.thread, e.op, e.ret, e.called, n⟩

/-- The calls that have returned and the others make up all of them. -/
theorem complete_perm (now : Nat) : ∀ l : List (Effected T Op Ret),
    (l.map (complete now)).Perm
      (l.filterMap completed ++ (l.filter fun e => e.returned.isNone).map (complete now))
  | [] => List.Perm.refl _
  | e :: l => by
    have ih := complete_perm now l
    cases hr : e.returned with
    | none =>
      have hc : e.completed = none := by simp [completed, hr]
      rw [List.map_cons, List.filterMap_cons_none hc, List.filter_cons_of_pos (by simp [hr]), List.map_cons]
      exact (ih.cons _).trans List.perm_middle.symm
    | some n =>
      have hc : e.completed = some (e.complete now) := by simp [completed, complete, hr]
      rw [List.map_cons, List.filterMap_cons_some hc, List.filter_cons_of_neg (by simp [hr]), List.cons_append]
      exact ih.cons _

end Effected

variable [DecidableEq T]

/-- The call of `t` in the ledger that has not returned. -/
def openOf (t : T) : Option (Op × Ret × Nat) → List (Effected T Op Ret)
  | none => []
  | some (op, ret, called) => [⟨t, op, ret, called, none⟩]

/-- `order` has the calls that took effect, in that order, from the contents `m` to `m'`; those of `done` have
returned, and those of `opened`, at most one for each thread, have not. -/
structure Ledger (spec : M → Op → M × Ret) (m m' : M) (now : Nat) (opened : T → Option (Op × Ret × Nat))
    (done : List (Completed T Op Ret)) (order : List (Effected T Op Ret)) : Prop where
  called : ∀ e ∈ order, e.called ≤ now
  done : done.Perm (order.filterMap Effected.completed)
  opened : ∀ t, (order.filter fun e => e.returned.isNone && decide (e.thread = t)) = openOf t (opened t)
  realTime : order.Pairwise fun a b => ∀ n, b.returned = some n → ¬n < a.called
  legal : Legal spec m (order.map (Effected.complete 0)) m'

namespace Ledger

variable {spec : M → Op → M × Ret} {m m' m'' : M} {now : Nat} {opened : T → Option (Op × Ret × Nat)}
  {done : List (Completed T Op Ret)} {order : List (Effected T Op Ret)} {t : T} {op : Op} {ret : Ret} {n : Nat}

theorem nil : Ledger spec m m now (fun _ => none) ([] : List (Completed T Op Ret)) [] where
  called e he := by cases he
  done := List.Perm.refl _
  opened t := rfl
  realTime := List.Pairwise.nil
  legal := rfl

theorem later (h : Ledger spec m m' now opened done order) {now' : Nat} (hle : now ≤ now') :
    Ledger spec m m' now' opened done order :=
  { h with called := fun e he => Nat.le_trans (h.called e he) hle }

/-- A call takes effect. -/
theorem effect (h : Ledger spec m m' now opened done order) (ht : opened t = none) (hn : n ≤ now)
    (hspec : spec m' op = (m'', ret)) :
    Ledger spec m m'' now (Function.update opened t (some (op, ret, n))) done
      (order ++ [⟨t, op, ret, n, none⟩]) where
  called e he := by
    rcases List.mem_append.1 he with he | he
    · exact h.called e he
    · rw [List.mem_singleton] at he
      subst he
      exact hn
  done := by
    have hopen : (⟨t, op, ret, n, none⟩ : Effected T Op Ret).completed = none := rfl
    rw [List.filterMap_append, List.filterMap_cons_none hopen, List.filterMap_nil, List.append_nil]
    exact h.done
  opened t' := by
    rw [List.filter_append, h.opened]
    by_cases htt : t' = t
    · subst htt
      rw [Function.update_self, ht]
      simp [openOf]
    · rw [Function.update_of_ne htt]
      simp [Ne.symm htt]
  realTime := by
    rw [List.pairwise_append]
    refine ⟨h.realTime, List.pairwise_singleton _ _, ?_⟩
    intro a _ b hb n' hn'
    rw [List.mem_singleton] at hb
    subst hb
    cases hn'
  legal := by
    rw [List.map_append]
    exact h.legal.snoc hspec

/-- A call that has taken effect returns. -/
theorem close (h : Ledger spec m m' now opened done order) (ht : opened t = some (op, ret, n)) :
    ∃ order', Ledger spec m m' now (Function.update opened t none) (done ++ [⟨t, op, ret, n, now⟩]) order' := by
  have hopen := h.opened t
  rw [ht, openOf, List.filter_eq_cons_iff] at hopen
  obtain ⟨as, bs, rfl, has, -, hbs⟩ := hopen
  refine ⟨as ++ ⟨t, op, ret, n, some now⟩ :: bs, ?_, ?_, ?_, ?_, ?_⟩
  · intro e he
    rcases List.mem_append.1 he with he | he
    · exact h.called e (List.mem_append_left _ he)
    · rcases List.mem_cons.1 he with rfl | he
      · exact h.called ⟨t, op, ret, n, none⟩ (List.mem_append_right _ (List.mem_cons_self ..))
      · exact h.called e (List.mem_append_right _ (List.mem_cons_of_mem _ he))
  · have hdone := h.done
    rw [List.filterMap_append, List.filterMap_cons_none rfl] at hdone
    have hclosed : (⟨t, op, ret, n, some now⟩ : Effected T Op Ret).completed = some ⟨t, op, ret, n, now⟩ := rfl
    rw [List.filterMap_append, List.filterMap_cons_some hclosed]
    exact ((List.perm_append_singleton _ _).trans (hdone.cons _)).trans List.perm_middle.symm
  · intro t'
    have hopen := h.opened t'
    rw [List.filter_append, List.filter_cons] at hopen
    rw [List.filter_append, List.filter_cons_of_neg (by simp)]
    by_cases htt : t' = t
    · subst htt
      rw [Function.update_self, hbs, List.append_nil]
      exact List.filter_eq_nil_iff.2 has
    · rw [Function.update_of_ne htt, ← hopen]
      simp [Ne.symm htt]
  · have hreal := h.realTime
    rw [List.pairwise_append, List.pairwise_cons] at hreal ⊢
    obtain ⟨hA, ⟨hfirst, hB⟩, hAB⟩ := hreal
    refine ⟨hA, ⟨hfirst, hB⟩, ?_⟩
    intro a ha b hb
    rcases List.mem_cons.1 hb with rfl | hb
    · -- it returns now, and the others were called before
      intro n' hn'
      cases hn'
      exact Nat.not_lt.2 (h.called a (List.mem_append_left _ ha))
    · exact hAB a ha b (List.mem_cons_of_mem _ hb)
  · apply Legal.congr _ h.legal
    simp [Effected.complete]

/-- The calls of the ledger that have not returned. -/
def pending (now : Nat) (order : List (Effected T Op Ret)) : List (Completed T Op Ret) :=
  (order.filter fun e => e.returned.isNone).map (Effected.complete now)

theorem mem_pending (h : Ledger spec m m' now opened done order) {c : Completed T Op Ret}
    (hc : c ∈ pending now order) : c.returned = now ∧ opened c.thread = some (c.op, c.ret, c.called) := by
  obtain ⟨e, he, rfl⟩ := List.mem_map.1 hc
  rw [List.mem_filter] at he
  have hret : e.returned = none := Option.isNone_iff_eq_none.1 he.2
  have hmem : e ∈ order.filter fun e' => e'.returned.isNone && decide (e'.thread = e.thread) := by
    simp [he.1, hret]
  rw [h.opened] at hmem
  constructor
  · simp [Effected.complete, hret]
  · cases hopen : opened e.thread with
    | none =>
      rw [hopen] at hmem
      cases hmem
    | some x =>
      obtain ⟨op, ret, n⟩ := x
      rw [hopen, openOf, List.mem_singleton] at hmem
      rw [hmem] at hopen ⊢
      exact hopen

theorem pending_once (h : Ledger spec m m' now opened done order) :
    ((pending now order).map (·.thread)).Nodup := by
  apply List.nodup_iff_count_le_one.2
  intro t
  have hcount : ((pending now order).map (·.thread)).count t =
      (order.filter fun e => e.returned.isNone && decide (e.thread = t)).length := by
    rw [pending, List.map_map, List.count_eq_countP, List.countP_map, List.countP_filter, List.countP_eq_length_filter]
    congr 1
    apply List.filter_congr
    intro e _
    exact Bool.and_comm _ _
  rw [hcount, h.opened]
  cases opened t with
  | none => exact Nat.zero_le _
  | some x => exact Nat.le_refl 1

/-- The calls of the ledger, those that have not returned as if they did now, are a linearization. -/
theorem linearizes (h : Ledger spec m m' now opened done order) :
    Linearizes spec m m' (done ++ pending now order) (order.map (Effected.complete now)) where
  perm := (Effected.complete_perm now order).trans (h.done.symm.append_right _)
  realTime := by
    rw [List.pairwise_map]
    apply List.Pairwise.imp_of_mem _ h.realTime
    intro a b ha _ hab
    cases hb : b.returned with
    | none =>
      simp only [Effected.complete, hb, Option.getD_none]
      exact Nat.not_lt.2 (h.called a ha)
    | some n =>
      simp only [Effected.complete, hb, Option.getD_some]
      exact hab n hb
  legal := by
    apply Legal.congr _ h.legal
    simp [Effected.complete, Function.comp_def]

end Ledger

/-! ## Objects whose calls take effect with some access -/

/-- What an access does to a call: `before` and `after` say what it will return, if it has taken effect. -/
def Effect (spec : M → Op → M × Ret) (op : Op) (m m' : M) : Option Ret → Option Ret → Prop
  | none, none => m' = m
  | none, some ret => spec m op = (m', ret)
  | some ret, after => after = some ret ∧ m' = m

/-- What is to be shown of an object, with an invariant of each thread, in a call or not. -/
structure TakesEffect (O : Object T S P Op Ret) (spec : M → Op → M × Ret) (contents : S → M)
    (Ok : S → T → Option (Op × P) → Prop) (took : P → Option Ret) : Prop where
  start : ∀ s t op, Ok s t none → Ok s t (some (op, O.start op)) ∧ took (O.start op) = none
  goesOn : ∀ s t flag op p u p', Ok s t (some (op, p)) → O.access t flag p s = (u, .inl p') →
    Ok u t (some (op, p')) ∧ Effect spec op (contents s) (contents u) (took p) (took p')
  returns : ∀ s t flag op p u ret, Ok s t (some (op, p)) → O.access t flag p s = (u, .inr ret) →
    Ok u t none ∧ Effect spec op (contents s) (contents u) (took p) (some ret)
  /-- the accesses of a thread keep the invariant of the others -/
  others : ∀ s t flag op p t' x, t' ≠ t → Ok s t (some (op, p)) → Ok s t' x → Ok (O.access t flag p s).1 t' x

section

variable {O : Object T S P Op Ret} {spec : M → Op → M × Ret} {contents : S → M}
  {Ok : S → T → Option (Op × P) → Prop} {took : P → Option Ret}

omit [DecidableEq T] in
/-- Calls that take effect with their last access. -/
theorem LastAccess.takesEffect {Ok : S → T → Op → P → Prop} (h : LastAccess O spec contents Ok) :
    TakesEffect O spec contents (fun s t x => ∀ op p, x = some (op, p) → Ok s t op p) fun _ => none where
  start s t op _ := by
    refine ⟨?_, rfl⟩
    rintro _ _ ⟨⟩
    exact h.start s t op
  goesOn s t flag op p u p' hok hacc := by
    obtain ⟨hcont, hok'⟩ := h.goesOn s t flag op p u p' (hok op p rfl) hacc
    refine ⟨?_, hcont⟩
    rintro _ _ ⟨⟩
    exact hok'
  returns s t flag op p u ret hok hacc := by
    refine ⟨?_, h.returns s t flag op p u ret (hok op p rfl) hacc⟩
    intro _ _ hnone
    cases hnone
  others s t flag op p t' x ht _ hok op' p' hx := h.others s t flag p t' op' p' ht (hok op' p' hx)

omit [DecidableEq T] in
/-- The call of a thread, and where it is. -/
def System.callOf (s : System T S P Op Ret) (t : T) : Option (Op × P) := (s.running t).map fun r => (r.op, r.pc)

/-- The calls under way that have taken effect. -/
def System.opened (took : P → Option Ret) (s : System T S P Op Ret) (t : T) : Option (Op × Ret × Nat) :=
  (s.running t).bind fun r => (took r.pc).map fun ret => (r.op, ret, r.called)

/-- What holds of a system of such an object. -/
structure EffectOk (spec : M → Op → M × Ret) (contents : S → M) (Ok : S → T → Option (Op × P) → Prop)
    (took : P → Option Ret) (m : M) (s : System T S P Op Ret) : Prop where
  ok : ∀ t, Ok s.shared t (s.callOf t)
  called : ∀ t r, s.running t = some r → r.called ≤ s.clock
  ledger : ∃ order, Ledger spec m (contents s.shared) s.clock (s.opened took) s.done order

/-- One thread moves. -/
theorem EffectOk.move {m : M} {s s' : System T S P Op Ret} {t : T} {x : Option (Running P Op)}
    (h : EffectOk spec contents Ok took m s) (hrun : s'.running = Function.update s.running t x)
    (hclock : s'.clock = s.clock + 1) (hx : ∀ r, x = some r → r.called ≤ s.clock)
    (hself : Ok s'.shared t (x.map fun r => (r.op, r.pc)))
    (hother : ∀ t' y, t' ≠ t → Ok s.shared t' y → Ok s'.shared t' y)
    (hledger : ∃ order, Ledger spec m (contents s'.shared) s.clock
      (Function.update (s.opened took) t (x.bind fun r => (took r.pc).map fun ret => (r.op, ret, r.called)))
      s'.done order) : EffectOk spec contents Ok took m s' where
  ok t' := by
    unfold System.callOf
    rw [hrun]
    by_cases ht : t' = t
    · rw [ht, Function.update_self]
      exact hself
    · rw [Function.update_of_ne ht]
      exact hother t' _ ht (h.ok t')
  called t' r hr := by
    rw [hrun] at hr
    rw [hclock]
    by_cases ht : t' = t
    · rw [ht, Function.update_self] at hr
      exact Nat.le_succ_of_le (hx r hr)
    · rw [Function.update_of_ne ht] at hr
      exact Nat.le_succ_of_le (h.called t' r hr)
  ledger := by
    obtain ⟨order, hl⟩ := hledger
    refine ⟨order, ?_⟩
    have hopened : s'.opened took =
        Function.update (s.opened took) t (x.bind fun r => (took r.pc).map fun ret => (r.op, ret, r.called)) := by
      funext t'
      unfold System.opened
      rw [hrun]
      by_cases ht : t' = t
      · rw [ht, Function.update_self, Function.update_self]
      · rw [Function.update_of_ne ht, Function.update_of_ne ht]
    rw [hopened, hclock]
    exact hl.later (Nat.le_succ _)

theorem EffectOk.step (h : TakesEffect O spec contents Ok took) {m : M} {s s' : System T S P Op Ret}
    {a : SystemAct T Op} (hs : EffectOk spec contents Ok took m s) (hstep : systemStep O s a = some s') :
    EffectOk spec contents Ok took m s' := by
  cases a with
  | call t op =>
    simp only [systemStep] at hstep
    split at hstep
    · rename_i hr
      cases hstep
      have hidle := hs.ok t
      rw [System.callOf, hr] at hidle
      -- a call that has only begun has had no effect
      obtain ⟨hok, htook⟩ := h.start s.shared t op hidle
      refine hs.move rfl rfl ?_ hok (fun _ _ _ hok' => hok') ?_
      · rintro r ⟨⟩
        exact Nat.le_refl _
      · obtain ⟨order, hl⟩ := hs.ledger
        refine ⟨order, ?_⟩
        have hnone : s.opened took t = none := by rw [System.opened, hr]; rfl
        have hsame : (some (⟨op, s.clock, O.start op⟩ : Running P Op)).bind
            (fun r => (took r.pc).map fun ret => (r.op, ret, r.called)) = s.opened took t := by
          rw [hnone, Option.bind_some, htook]
          rfl
        rw [hsame, Function.update_eq_self]
        exact hl
    · cases hstep
  | step t flag =>
    simp only [systemStep, Option.map_eq_some_iff] at hstep
    obtain ⟨r, hr, hstep⟩ := hstep
    have hok := hs.ok t
    rw [System.callOf, hr, Option.map_some] at hok
    have hother : ∀ t' y, t' ≠ t → Ok s.shared t' y → Ok (O.access t flag r.pc s.shared).1 t' y :=
      fun t' y ht hy => h.others _ _ _ _ _ _ _ ht hok hy
    have hopened : s.opened took t = (took r.pc).map fun ret => (r.op, ret, r.called) := by
      rw [System.opened, hr, Option.bind_some]
    obtain ⟨order, hl⟩ := hs.ledger
    split at hstep
    · rename_i u p hacc
      subst hstep
      rw [hacc] at hother
      obtain ⟨hok', heff⟩ := h.goesOn _ _ _ _ _ _ _ hok hacc
      refine hs.move rfl rfl ?_ hok' hother ?_
      · rintro _ ⟨⟩
        exact hs.called t r hr
      · simp only [Option.bind_some]
        -- before its effect, the access may be the effect; after it, it changes nothing
        cases hbefore : took r.pc with
        | none =>
          cases hafter : took p with
          | none =>
            rw [hbefore, hafter] at heff
            replace heff : contents u = contents s.shared := heff
            rw [hbefore, Option.map_none] at hopened
            refine ⟨order, ?_⟩
            rw [Option.map_none, ← hopened, Function.update_eq_self, heff]
            exact hl
          | some ret =>
            rw [hbefore, hafter] at heff
            replace heff : spec (contents s.shared) r.op = (contents u, ret) := heff
            rw [hbefore, Option.map_none] at hopened
            exact ⟨_, hl.effect hopened (hs.called t r hr) heff⟩
        | some ret =>
          rw [hbefore] at heff
          obtain ⟨hafter, hcont⟩ := heff
          rw [hbefore] at hopened
          refine ⟨order, ?_⟩
          rw [hafter, ← hopened, Function.update_eq_self, hcont]
          exact hl
    · rename_i u ret hacc
      subst hstep
      rw [hacc] at hother
      obtain ⟨hok', heff⟩ := h.returns _ _ _ _ _ _ _ hok hacc
      refine hs.move rfl rfl ?_ hok' hother ?_
      · rintro _ ⟨⟩
      · cases hbefore : took r.pc with
        | none =>
          -- it takes effect and returns
          rw [hbefore] at heff
          replace heff : spec (contents s.shared) r.op = (contents u, ret) := heff
          rw [hbefore, Option.map_none] at hopened
          have hopen := hl.effect hopened (hs.called t r hr) heff
          obtain ⟨order', hclose⟩ := hopen.close (Function.update_self ..)
          rw [Function.update_idem] at hclose
          exact ⟨order', hclose⟩
        | some ret' =>
          rw [hbefore] at heff
          obtain ⟨hafter, hcont⟩ := heff
          cases hafter
          rw [hbefore] at hopened
          rw [hcont]
          exact hl.close hopened

/-- The calls in the order in which they took effect are a linearization, those under way that have taken
effect included. -/
theorem TakesEffect.linearizes (h : TakesEffect O spec contents Ok took) {as : List (SystemAct T Op)} {u : S}
    (hinit : ∀ t, Ok u t none) {s : System T S P Op Ret}
    (hrun : run (systemStep O) (System.init u) as = some s) :
    ∃ pending order, LinearizesNow spec (contents u) (contents s.shared) s pending order := by
  have hs : EffectOk spec contents Ok took (contents u) s := by
    refine run_inv (fun _ _ _ hs hstep => hs.step h hstep) as ?_ hrun
    constructor
    · exact hinit
    · intro t r hr
      cases hr
    · exact ⟨[], Ledger.nil⟩
  obtain ⟨order, hl⟩ := hs.ledger
  refine ⟨Ledger.pending s.clock order, order.map (Effected.complete s.clock), ?_, hl.pending_once, hl.linearizes⟩
  intro c hc
  obtain ⟨hret, hopen⟩ := hl.mem_pending hc
  refine ⟨hret, ?_⟩
  rw [System.opened, Option.bind_eq_some_iff] at hopen
  obtain ⟨r, hr, hopen⟩ := hopen
  obtain ⟨ret, -, hopen⟩ := Option.map_eq_some_iff.1 hopen
  simp only [Prod.mk.injEq] at hopen
  obtain ⟨hop, -, hcalled⟩ := hopen
  exact ⟨r, hr, hop, hcalled⟩

/-- The invariant of each thread, in every state reached. -/
theorem TakesEffect.ok (h : TakesEffect O spec contents Ok took) {as : List (SystemAct T Op)} {u : S}
    (hinit : ∀ t, Ok u t none) {s : System T S P Op Ret}
    (hrun : run (systemStep O) (System.init u) as = some s) (t : T) : Ok s.shared t (s.callOf t) := by
  have hs : EffectOk spec contents Ok took (contents u) s := by
    refine run_inv (fun _ _ _ hs hstep => hs.step h hstep) as ?_ hrun
    constructor
    · exact hinit
    · intro t r hr
      cases hr
    · exact ⟨[], Ledger.nil⟩
  exact hs.ok t

end

end OpenPA.Machine
