/-
The token ring of `test_grouped_cas_int`: a thread of group `k` tries to take the cell from `k` to the next
group's number with `OPA_cas_int`, by load-link and store-conditional. The successes go round the groups in
turn, so the groups' numbers of successes and the cell determine each other (`ring_law`).
-/
import OpenPA.Atomic.ByLlsc
import Mathlib.Data.Int.CardIntervalMod

namespace OpenPA.Atomic

open OpenPA.Machine

variable {w g : Nat} {A B T : Type}

/-- `OPA_cas_int(udata->shared_val, group_id, next_id)`, for the group `group_id` of `g` -/
def ringCode (ptr : A) (group_id : Fin g) : Code (Loc A B) (Val w) (BitVec 32) :=
  let next_id := (group_id.val + 1) % g
  casIntByLlsc ptr (BitVec.ofNat 32 group_id) (BitVec.ofNat 32 next_id)

/-- The successes of group `k`: its calls that returned `k`. -/
def successes (l : List (Completed T (Fin g) (BitVec 32))) (k : Nat) : Nat :=
  l.countP fun c => c.op.val = k ∧ c.ret = BitVec.ofNat 32 k

/-! ## The groups in turn -/

/-- How many of the first `n` turns are of group `k`. -/
def turns (g n k : Nat) : Nat := n.count (· ≡ k [MOD g])

theorem turns_eq {n k : Nat} (hk : k < g) : turns g n k = n / g + if k < n % g then 1 else 0 := by
  have hcount := Nat.count_modEq_card n (r := g) (by omega) k
  rw [Nat.mod_eq_of_lt hk] at hcount
  exact hcount

theorem turns_succ {n k : Nat} (hk : k < g) : turns g (n + 1) k = turns g n k + if n % g = k then 1 else 0 := by
  have hmod : n ≡ k [MOD g] ↔ n % g = k := by
    rw [Nat.ModEq, Nat.mod_eq_of_lt hk]
  rw [turns, Nat.count_succ]
  simp only [hmod]
  rfl

/-- After `n` turns the numbers of turns go down by at most one from the first group to the last, between the group
that had the last turn and the next one. -/
theorem turns_law (hg : 2 ≤ g) (n : Nat) :
    (∀ j k, j ≤ k → k < g → turns g n k ≤ turns g n j) ∧ turns g n 0 ≤ turns g n (g - 1) + 1 ∧
      ∀ i, 1 ≤ i → i < g → (turns g n i < turns g n (i - 1) ↔ n % g = i) := by
  refine ⟨fun j k hjk hk => ?_, ?_, fun i hi hig => ?_⟩
  · rw [turns_eq hk, turns_eq (show j < g by omega)]
    split <;> split <;> omega
  · rw [turns_eq (show 0 < g by omega), turns_eq (show g - 1 < g by omega)]
    split <;> split <;> omega
  · rw [turns_eq hig, turns_eq (show i - 1 < g by omega)]
    split <;> split <;> omega

/-! ## The calls -/

variable [DecidableEq A] [DecidableEq B]

/-- The number of a group is an `int`, so groups are told apart by it. -/
theorem group_inj (hint : g ≤ 2 ^ 32) {j k : Nat} (hj : j < g) (hk : k < g) :
    BitVec.ofNat 32 j = BitVec.ofNat 32 k ↔ j = k := by
  constructor
  · intro h
    have hnat := congrArg BitVec.toNat h
    rwa [BitVec.toNat_ofNat, BitVec.toNat_ofNat, Nat.mod_eq_of_lt (by omega), Nat.mod_eq_of_lt (by omega)] at hnat
  · intro h
    rw [h]

/-- A call after `n` turns succeeds if it is its group's turn, and passes the cell on to the next group. -/
theorem ring_atOnce (hint : g ≤ 2 ^ 32) (ptr : A) (m : Cells w A B) (group_id : Fin g) (n : Nat)
    (hcell : intAt ptr m = BitVec.ofNat 32 (n % g)) :
    ((ringCode ptr group_id).rmw.atOnce m).2 = BitVec.ofNat 32 (n % g) ∧
      intAt ptr ((ringCode ptr group_id).rmw.atOnce m).1 =
        BitVec.ofNat 32 ((if n % g = group_id then n + 1 else n) % g) := by
  have hg : 0 < g := group_id.pos
  have htaken : intAt ptr m = BitVec.ofNat 32 group_id ↔ n % g = group_id := by
    rw [hcell]
    exact group_inj hint (Nat.mod_lt n hg) group_id.isLt
  refine ⟨hcell, ?_⟩
  by_cases hturn : n % g = group_id
  · rw [Rmw.atOnce_writes (decide_eq_true (htaken.2 hturn)), if_pos hturn, ← Nat.mod_add_mod, hturn]
    exact Function.update_self _ _ _
  · rw [Rmw.atOnce_keeps (fun h => hturn (htaken.1 (of_decide_eq_true h))), if_neg hturn]
    exact hcell

/-- The successes of calls one after another are turns, from where the cell stands. -/
theorem ring_legal (hint : g ≤ 2 ^ 32) (ptr : A) :
    ∀ {l : List (Completed T (Fin g) (BitVec 32))} {m m' : Cells w A B} {n : Nat},
      Legal (fun m group_id => (ringCode ptr group_id).rmw.atOnce m) m l m' →
      intAt ptr m = BitVec.ofNat 32 (n % g) →
      ∃ n', intAt ptr m' = BitVec.ofNat 32 (n' % g) ∧ ∀ k < g, turns g n' k = turns g n k + successes l k
  | [], m, m', n, h, hcell => by
    cases h
    exact ⟨n, hcell, fun k _ => rfl⟩
  | c :: l, m, m', n, h, hcell => by
    obtain ⟨hret, hafter⟩ := ring_atOnce hint ptr m c.op n hcell
    obtain ⟨hc, hl⟩ := h
    rw [hret] at hc
    obtain ⟨n', hcell', hturns⟩ := ring_legal hint ptr hl hafter
    refine ⟨n', hcell', fun k hk => ?_⟩
    have hsuccess : (c.op.val = k ∧ c.ret = BitVec.ofNat 32 k) ↔ n % g = c.op ∧ n % g = k := by
      rw [← hc, group_inj hint (Nat.mod_lt n c.op.pos) hk]
      constructor
      · rintro ⟨hop, hn⟩
        exact ⟨hn.trans hop.symm, hn⟩
      · rintro ⟨hop, hn⟩
        exact ⟨hop.symm.trans hn, hn⟩
    have hcount : successes (c :: l) k = successes l k + if n % g = c.op ∧ n % g = k then 1 else 0 := by
      simp only [successes, List.countP_cons, decide_eq_true_eq, hsuccess]
    rw [hturns k hk, hcount]
    -- a success is the next turn; a failure leaves the cell
    by_cases hturn : n % g = c.op
    · rw [if_pos hturn, turns_succ hk]
      simp only [hturn, true_and]
      omega
    · rw [if_neg hturn, if_neg (fun h => hturn h.1)]
      rfl

section

variable [DecidableEq T]

/-- The law of the ring. Any number of threads call `OPA_cas_int(cell, k, (k + 1) % g)`, for groups `k` of `g`, whose
numbers are `int`s, on a cell that starts at 0, each call a loop of load-links and store-conditionals. In every state
of every interleaving the successes of the groups do not increase with the group's number, and those of the first
group are at most one more than those of the last; and the cell is the one group that has fewer than the group before
it, or 0 if all have the same. -/
theorem ring_law (hg : 2 ≤ g) (hint : g ≤ 2 ^ 32) (ptr : A) (u : Linked T (Loc A B) (Val w))
    (as : List (SystemAct T (Fin g)))
    (s : System T (Linked T (Loc A B) (Val w)) (LlscPc (Loc A B) (Val w) (BitVec 32)) (Fin g) (BitVec 32))
    (hcell : intAt ptr u.mem = 0)
    (hrun : run (systemStep (llscObject (ringCode ptr))) (System.init u) as = some s) :
    (∀ j k, j ≤ k → k < g → successes s.done k ≤ successes s.done j) ∧
    successes s.done 0 ≤ successes s.done (g - 1) + 1 ∧
    ((∃ i, (1 ≤ i ∧ i < g ∧ successes s.done i < successes s.done (i - 1)) ∧
        (∀ j, 1 ≤ j → j < g → successes s.done j < successes s.done (j - 1) → j = i) ∧
        intAt ptr s.shared.mem = BitVec.ofNat 32 i) ∨
      (∀ k < g, successes s.done k = successes s.done 0) ∧ intAt ptr s.shared.mem = 0) := by
  have hlegal := ((llsc_lastAccess (T := T) (ringCode (w := w) (B := B) ptr)).linearizes hrun).legal
  have hstart : intAt ptr u.mem = BitVec.ofNat 32 (0 % g) := by
    rw [hcell, Nat.zero_mod]
    rfl
  obtain ⟨n, hn, hturns⟩ := ring_legal hint ptr hlegal hstart
  have hsucc : ∀ k < g, successes s.done k = turns g n k := by
    intro k hk
    rw [hturns k hk, turns, Nat.count_zero, Nat.zero_add]
  obtain ⟨hdown, hlast, hnext⟩ := turns_law hg n
  have hpos : 0 < g := by omega
  refine ⟨fun j k hjk hk => ?_, ?_, ?_⟩
  · rw [hsucc k hk, hsucc j (by omega)]
    exact hdown j k hjk hk
  · rw [hsucc 0 hpos, hsucc (g - 1) (by omega)]
    exact hlast
  · -- a round is complete, or the group to go next is the one that is behind
    by_cases hzero : n % g = 0
    · right
      refine ⟨fun k hk => ?_, ?_⟩
      · rw [hsucc k hk, hsucc 0 hpos, turns_eq hk, turns_eq hpos, hzero]
        rfl
      · rw [hn, hzero]
        rfl
    · left
      have hlt : n % g < g := Nat.mod_lt n hpos
      refine ⟨n % g, ⟨by omega, hlt, ?_⟩, fun j hj hjg hless => ?_, hn⟩
      · rw [hsucc _ hlt, hsucc (n % g - 1) (by omega)]
        exact (hnext _ (by omega) hlt).2 rfl
      · rw [hsucc j hjg, hsucc (j - 1) (by omega)] at hless
        exact ((hnext j hj hjg).1 hless).symm

end

/-- Two threads of group 0 and one of group 1 of four groups: the second thread of group 0 has read 0 too, but its
store-conditional fails and its next load-link finds 1. -/
def ringActs : List (SystemAct Nat (Fin 4)) :=
  [.call 0 0, .step 0 false, .call 1 0, .step 1 false, .step 0 false, .step 1 false, .step 1 false,
    .call 2 1, .step 2 false, .step 2 true, .step 2 false, .step 2 false]

theorem ring_law_demo :
    ∃ s : System Nat (Linked Nat (Loc Unit Unit) (Val 8)) (LlscPc (Loc Unit Unit) (Val 8) (BitVec 32)) (Fin 4)
      (BitVec 32), run (systemStep (llscObject (ringCode ()))) (System.init ⟨zeroCells, fun _ _ => false⟩) ringActs =
        some s ∧
      [0, 1, 2, 3].map (successes s.done) = [1, 1, 0, 0] ∧ intAt () s.shared.mem = 2 ∧
      successes s.done 0 ≤ successes s.done 3 + 1 := by
  have h : (run (systemStep (llscObject (ringCode (w := 8) (B := Unit) ()))) (System.init ⟨zeroCells, fun _ _ => false⟩)
      ringActs).map (fun s => ([0, 1, 2, 3].map (successes s.done), intAt () s.shared.mem)) =
        some ([1, 1, 0, 0], 2) := by decide
  obtain ⟨s, hs, hd⟩ := Option.map_eq_some_iff.1 h
  obtain ⟨hsucc, hcell⟩ := Prod.mk.inj hd
  obtain ⟨-, hlast, -⟩ := ring_law (by decide) (by decide) () ⟨zeroCells, fun _ _ => false⟩ ringActs s rfl hs
  exact ⟨s, hs, hsucc, hcell, hlast⟩

end OpenPA.Atomic
