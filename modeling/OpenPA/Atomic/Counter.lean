/-
A shared counter that threads only decrement, each decrement a load-link/store-conditional loop of
`opa_emulated.h`. The values that the calls fetch are the starting value and those below it, one each, and
`OPA_decr_and_test_int` is true for the one call that took the counter from 1 to 0 (`counter_tickets`).
-/
import OpenPA.Atomic.ByLlsc

namespace OpenPA.Atomic

open OpenPA.Machine

variable {w : Nat} {A B T : Type}

/-- The calls: `OPA_fetch_and_decr_int`, `OPA_fetch_and_add_int` with -1, `OPA_decr_and_test_int`. -/
inductive DecrOp where
  | fetchAndDecr
  | fetchAndAdd
  | decrAndTest
  deriving DecidableEq

/-- What `OPA_fetch_and_add_int_by_llsc` returned in a call, and what the call returned. -/
structure Fetched where
  prev : BitVec 32
  ret : BitVec 32

def DecrOp.result (prev : BitVec 32) : DecrOp → BitVec 32
  | .fetchAndDecr | .fetchAndAdd => prev
  | .decrAndTest => if prev = 1 then 1 else 0

theorem DecrOp.result_decrAndTest (prev : BitVec 32) : DecrOp.decrAndTest.result prev ≠ 0 ↔ prev = 1 := by
  by_cases h : prev = 1
  · simp [DecrOp.result, h]
  · rw [DecrOp.result, if_neg h]
    exact iff_of_false (fun h0 => h0 rfl) h

/-- The loop of a call on the counter at `ptr`. -/
def decrCode (ptr : A) (op : DecrOp) : Code (Loc A B) (Val w) Fetched :=
  let loop : Code (Loc A B) (Val w) (BitVec 32) := match op with
    | .fetchAndDecr | .decrAndTest => fetchAndDecrIntByLlsc ptr
    | .fetchAndAdd => fetchAndAddIntByLlsc ptr (-1)
  loop.map fun prev => ⟨prev, op.result prev⟩

/-- The calls return as the operations of `opa_emulated.h` do. -/
theorem decrCode_ret (ptr : A) (op : DecrOp) : ((decrCode ptr op).map Fetched.ret : Code (Loc A B) (Val w) _) =
    match op with
    | .fetchAndDecr => fetchAndDecrIntByLlsc ptr
    | .fetchAndAdd => fetchAndAddIntByLlsc ptr (-1)
    | .decrAndTest => decrAndTestIntByLlsc ptr := by
  cases op <;> rfl

theorem decrCode_loop (ptr : A) (op : DecrOp) :
    ∃ p, (decrCode ptr op : Code (Loc A B) (Val w) Fetched) = .loop p ∧ ∀ v, p.cond v = true := by
  cases op <;> exact ⟨_, rfl, fun _ => rfl⟩

variable [DecidableEq A] [DecidableEq B]

/-- A call in one step. -/
theorem decrCode_atOnce (ptr : A) (m : Cells w A B) (op : DecrOp) :
    intAt ptr ((decrCode ptr op).rmw.atOnce m).1 = intAt ptr m - 1 ∧
      ((decrCode ptr op).rmw.atOnce m).2 = ⟨intAt ptr m, op.result (intAt ptr m)⟩ := by
  have hwrite : ∀ v : BitVec 32, intAt ptr (Function.update m (.int ptr) v) = v :=
    fun v => Function.update_self _ _ _
  have hneg : intAt ptr m - 1 = intAt ptr m + -1 := BitVec.sub_eq_add_neg _ _
  rw [hneg]
  cases op <;> exact ⟨hwrite _, rfl⟩

omit [DecidableEq A] [DecidableEq B] in
theorem sub_one_sub (x : BitVec 32) (n : Nat) : x - 1 - (n : BitVec 32) = x - ((n + 1 : Nat) : BitVec 32) := by
  rw [Nat.cast_succ, sub_sub, add_comm]

/-- Calls one after another fetch the value that the counter starts with and those below it. -/
theorem decr_legal (ptr : A) : ∀ {l : List (Completed T DecrOp Fetched)} {m m' : Cells w A B},
    Legal (fun m op => (decrCode ptr op).rmw.atOnce m) m l m' →
    intAt ptr m' = intAt ptr m - (l.length : BitVec 32) ∧
      l.map (·.ret.prev) = (List.range l.length).map (fun i : Nat => intAt ptr m - (i : BitVec 32)) ∧
      ∀ c ∈ l, c.ret.ret = c.op.result c.ret.prev
  | [], m, m', h => by
    cases h
    simp
  | c :: l, m, m', h => by
    obtain ⟨hcount, hret⟩ := decrCode_atOnce ptr m c.op
    obtain ⟨hc, hl⟩ := h
    obtain ⟨hm, hfetched, hres⟩ := decr_legal ptr hl
    rw [hret] at hc
    rw [hcount] at hm hfetched
    refine ⟨?_, ?_, ?_⟩
    · rw [hm, List.length_cons, sub_one_sub]
    · rw [List.map_cons, hfetched, List.length_cons, List.range_succ_eq_map, List.map_cons, List.map_map, ← hc]
      congr 1
      · simp
      · apply List.map_congr_left
        intro i _
        exact sub_one_sub _ i
    · intro c' hc'
      rcases List.mem_cons.1 hc' with rfl | hc'
      · rw [← hc]
      · exact hres c' hc'

omit [DecidableEq A] [DecidableEq B] in
/-- Counting down as an `int`, as long as it stays in range. -/
theorem toInt_sub_natCast {x : BitVec 32} {n : Nat} (h : -2 ^ 31 ≤ x.toInt - n) :
    (x - (n : BitVec 32)).toInt = x.toInt - n := by
  have hhi := BitVec.toInt_lt (x := x)
  have hn : (n : BitVec 32) = BitVec.ofNat 32 n := rfl
  rw [BitVec.toInt_sub, hn, BitVec.toInt_ofNat', Int.sub_bmod_bmod]
  apply Int.bmod_eq_of_le
  · omega
  · omega

section

variable [DecidableEq T]

abbrev CounterSystem (T : Type) (w : Nat) (A B : Type) :=
  System T (Linked T (Loc A B) (Val w)) (LlscPc (Loc A B) (Val w) Fetched) DecrOp Fetched

/-- A step with which a call returns fetches what the counter holds, and leaves it one less. -/
theorem decr_returns (ptr : A) {u : Linked T (Loc A B) (Val w)} {as : List (SystemAct T DecrOp)}
    {s s' : CounterSystem T w A B} {t : T} {flag : Bool} {c : Completed T DecrOp Fetched}
    (hrun : run (systemStep (llscObject (decrCode ptr))) (System.init u) as = some s)
    (hstep : systemStep (llscObject (decrCode ptr)) s (.step t flag) = some s') (hdone : s'.done = s.done ++ [c]) :
    intAt ptr s'.shared.mem = intAt ptr s.shared.mem - 1 ∧
      c.ret = ⟨intAt ptr s.shared.mem, c.op.result (intAt ptr s.shared.mem)⟩ := by
  have hret := (llsc_lastAccess (T := T) (decrCode (w := w) (B := B) ptr)).returned hrun hstep hdone
  obtain ⟨hcount, hres⟩ := decrCode_atOnce ptr s.shared.mem c.op
  rw [hret] at hcount hres
  exact ⟨hcount, hres⟩

/-- Of calls that fetch `S`, `S - 1`, and so on, one fetches 1 if the values go down past it, and no other does. -/
theorem count_one (S : Int) (n : Nat) :
    ((List.range n).map fun i : Nat => S - i).count 1 = if 1 ≤ S ∧ S ≤ n then 1 else 0 := by
  have hnodup : ((List.range n).map fun i : Nat => S - i).Nodup := by
    apply List.nodup_range.map
    intro i j hij
    simp only at hij
    omega
  rw [hnodup.count]
  congr 1
  apply propext
  rw [List.mem_map]
  constructor
  · rintro ⟨i, hi, hSi⟩
    rw [List.mem_range] at hi
    omega
  · rintro ⟨hlo, hhi⟩
    refine ⟨(S - 1).toNat, ?_, ?_⟩
    · rw [List.mem_range]
      omega
    · omega

/-- Tickets and reaching zero. For any number of threads and any calls that decrement a counter from `S`, not below
the least `int`, and for any interleaving of their load-links and store-conditionals: the counter is `S` less the
number of store-conditionals that have succeeded; each thread fetches ever smaller values; a call that returns
fetches what the counter held, and `OPA_decr_and_test_int` returns true exactly if its decrement took the counter
from 1 to 0; and when all calls have returned they have fetched `S`, `S - 1` and so on, one each, and if they are all
`OPA_decr_and_test_int` then one has returned true if `S` is between 1 and their number, and none otherwise. -/
theorem counter_tickets (ptr : A) (u : Linked T (Loc A B) (Val w)) (as : List (SystemAct T DecrOp))
    (s : CounterSystem T w A B) (S : Int)
    (hrun : run (systemStep (llscObject (decrCode ptr))) (System.init u) as = some s)
    (hS : (intAt ptr u.mem).toInt = S) (hmin : -2 ^ 31 ≤ S - calls as) :
    (intAt ptr s.shared.mem).toInt =
      S - countAlong (systemStep (llscObject (decrCode ptr))) scSucceeds (System.init u) as ∧
    (∀ t, ((s.done.filter (·.thread = t)).map (·.ret.prev.toInt)).Pairwise (· > ·)) ∧
    (∀ c ∈ s.done, c.op ≠ .decrAndTest → c.ret.ret = c.ret.prev) ∧
    (∀ t flag s' c, systemStep (llscObject (decrCode ptr)) s (.step t flag) = some s' → s'.done = s.done ++ [c] →
      c.ret.prev = intAt ptr s.shared.mem ∧ (c.op = .decrAndTest →
        (c.ret.ret ≠ 0 ↔ intAt ptr s.shared.mem = 1 ∧ intAt ptr s'.shared.mem = 0))) ∧
    ((∀ t, s.running t = none) →
      s.done.map (·.ret.prev.toInt) = (List.range (calls as)).map (fun i : Nat => S - i) ∧
      ((∀ c ∈ s.done, c.op = .decrAndTest) →
        s.done.countP (·.ret.ret ≠ 0) = if 1 ≤ S ∧ S ≤ calls as then 1 else 0)) := by
  have hlast := llsc_lastAccess (T := T) (decrCode (w := w) (B := B) ptr)
  obtain ⟨hcount, hfetched, hres⟩ := decr_legal ptr (hlast.linearizes hrun).legal
  have hle := done_length_le hrun
  have hlen := llsc_done_length (decrCode ptr) (decrCode_loop ptr) hrun
  -- what the calls have fetched, as ints
  have hints : s.done.map (·.ret.prev.toInt) = (List.range s.done.length).map fun i : Nat => S - i := by
    have hmap : s.done.map (·.ret.prev.toInt) = (s.done.map (·.ret.prev)).map BitVec.toInt := by
      rw [List.map_map]
      rfl
    rw [hmap, hfetched, List.map_map]
    apply List.map_congr_left
    intro i hi
    rw [List.mem_range] at hi
    rw [Function.comp_apply, toInt_sub_natCast (by omega), hS]
  have hdown : (s.done.map (·.ret.prev.toInt)).Pairwise (· > ·) := by
    rw [hints, List.pairwise_map]
    apply List.pairwise_lt_range.imp
    intro i j hij
    omega
  refine ⟨?_, fun t => ?_, fun c hc hop => ?_, fun t flag s' c hstep hdone => ?_, fun hidle => ?_⟩
  · rw [hcount, ← hlen, toInt_sub_natCast (by omega), hS]
  · exact hdown.sublist (List.filter_sublist.map _)
  · rw [hres c hc]
    cases hc' : c.op with
    | decrAndTest => exact absurd hc' hop
    | _ => rfl
  · obtain ⟨hafter, hret⟩ := decr_returns ptr hrun hstep hdone
    refine ⟨by rw [hret], fun hop => ?_⟩
    rw [hret, hop, hafter, DecrOp.result_decrAndTest]
    constructor
    · intro h1
      rw [h1]
      exact ⟨rfl, rfl⟩
    · rintro ⟨h1, -⟩
      exact h1
  · rw [done_length hrun hidle] at hints
    refine ⟨hints, fun hops => ?_⟩
    rw [← count_one, ← hints, List.count, List.countP_map]
    apply List.countP_congr
    intro c hc
    have hone : c.ret.prev.toInt = 1 ↔ c.ret.prev = 1 := BitVec.toInt_inj (y := 1#32)
    rw [hres c hc, hops c hc]
    simp only [Function.comp_apply, beq_iff_eq, decide_eq_true_eq, hone, DecrOp.result_decrAndTest]

end

/-- Three `OPA_decr_and_test_int` calls of two threads on a counter that starts at 2. The first store-conditional of
one thread fails because the other's was in between. -/
def counterActs : List (SystemAct Bool DecrOp) :=
  [.call true .decrAndTest, .step true false, .call false .decrAndTest, .step false false, .step false false,
    .step true false, .step true false, .step true false, .call false .decrAndTest, .step false false,
    .step false false]

/-- The cells before it. -/
def twoCells : Cells 8 Unit Unit := Function.update zeroCells (.int ()) (2#32 : BitVec 32)

theorem counter_tickets_demo : ∃ s : CounterSystem Bool 8 Unit Unit,
    run (systemStep (llscObject (decrCode ()))) (System.init ⟨twoCells, fun _ _ => false⟩) counterActs = some s ∧
    s.done.map (·.ret.prev.toInt) = [2, 1, 0] ∧ s.done.countP (·.ret.ret ≠ 0) = 1 := by
  have h : (run (systemStep (llscObject (decrCode (w := 8) (B := Unit) ())))
      (System.init ⟨twoCells, fun _ _ => false⟩) counterActs).map
      (fun s => (s.running true).isNone && (s.running false).isNone &&
        s.done.all (fun c => decide (c.op = .decrAndTest))) = some true := by decide
  obtain ⟨s, hs, hd⟩ := Option.map_eq_some_iff.1 h
  simp only [Bool.and_eq_true, Option.isNone_iff_eq_none, List.all_eq_true, decide_eq_true_eq] at hd
  obtain ⟨⟨htrue, hfalse⟩, hops⟩ := hd
  obtain ⟨-, -, -, -, hall⟩ := counter_tickets () ⟨twoCells, fun _ _ => false⟩ counterActs s 2 hs (by decide) (by decide)
  obtain ⟨hfetched, hone⟩ := hall (by
    intro t
    cases t
    · exact hfalse
    · exact htrue)
  exact ⟨s, hs, hfetched, hone hops⟩

end OpenPA.Atomic
