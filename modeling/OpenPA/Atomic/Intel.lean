/-
The operations of the x86 ports (`opa_gcc_intel_32_64_ops.h`) instruction by instruction: a locked instruction
reads and writes the cell in one access, and leaves a result in a register or in the zero flag, from which `setz`
makes the return value of `OPA_decr_and_test_int` afterwards. Whether `cmpxchg` found the expected value is not
tested: the accumulator has the value found either way. The operations are linearizable to those of
`opa_by_lock.h` (`intel_linearizable`).
-/
import OpenPA.Atomic.ByLlsc
import OpenPA.Machine.Assembly

namespace OpenPA.Atomic

open OpenPA.Machine

variable {w n : Nat} {A B R : Type}

namespace Intel

/-! ## The instructions -/

/-- The register operand, the accumulator, the zero flag, and the byte that `setz` writes. -/
structure Regs (n : Nat) where
  reg : BitVec n
  acc : BitVec n
  zero : Bool
  byte : BitVec 8

/-- The instructions that access memory; all but `xchg` with the prefix `lock`, which `xchg` does not need. -/
inductive Locked where
  | add
  | inc
  | dec
  | xadd
  | cmpxchg
  | xchg

/-- What the memory operand is set to, and the registers afterwards. -/
def Locked.exec (r : Regs n) (v : BitVec n) : Locked → BitVec n × Regs n
  | .add => (v + r.reg, { r with zero := v + r.reg = 0 })
  | .inc => (v + 1, { r with zero := v + 1 = 0 })
  | .dec => (v - 1, { r with zero := v - 1 = 0 })
  | .xadd => (r.reg + v, { r with reg := v, zero := r.reg + v = 0 })
  | .cmpxchg => if r.acc = v then (r.reg, { r with zero := true }) else (v, { r with acc := v, zero := false })
  | .xchg => (r.reg, { r with reg := v })

/-- `setz` writes the byte from the zero flag. -/
inductive Insn where
  | locked (i : Locked)
  | setz

def Regs.setz (r : Regs n) : Regs n := { r with byte := if r.zero then 1 else 0 }

/-- A call: the code ahead, the registers, and what the function returns at the end of the code. -/
structure State (n : Nat) (R : Type) where
  code : List Insn
  regs : Regs n
  ret : Regs n → R

namespace State

def next : State n R → Instr (BitVec n) (State n R) R
  | ⟨.locked i :: code, regs, ret⟩ => .rmw (fun v => (i.exec regs v).1) fun v => ⟨code, (i.exec regs v).2, ret⟩
  | ⟨.setz :: code, regs, ret⟩ => .tau ⟨code, regs.setz, ret⟩
  | ⟨[], regs, ret⟩ => .ret (ret regs)

/-- The effect is that of the locked instruction, with which the code starts. -/
def phase : State n R → Phase (BitVec n) R
  | ⟨.locked _ :: _, _, _⟩ => .fresh
  | ⟨.setz :: _, regs, ret⟩ => .took (ret regs.setz)
  | ⟨[], regs, ret⟩ => .took (ret regs)

/-- The locked instruction does the operation, and leaves what it returns. -/
def Ok (p : OnValue (BitVec n) R) : State n R → Prop
  | ⟨[.locked i], regs, ret⟩ => ∀ v, (i.exec regs v).1 = (if p.cond v then p.new v else v) ∧
      ret (i.exec regs v).2 = p.ret v
  | ⟨[.locked i, .setz], regs, ret⟩ => ∀ v, (i.exec regs v).1 = (if p.cond v then p.new v else v) ∧
      ret (i.exec regs v).2.setz = p.ret v
  | ⟨[.setz], _, _⟩ | ⟨[], _, _⟩ => True
  | _ => False

theorem follows (p : OnValue (BitVec n) R) : Follows p next phase (Ok p) := by
  rintro ⟨code, regs, ret⟩ hq
  match code, hq with
  | [.locked i], hq =>
    intro v
    obtain ⟨hnew, hret⟩ := hq v
    exact ⟨trivial, congrArg Phase.took hret, hnew⟩
  | [.locked i, .setz], hq =>
    intro v
    obtain ⟨hnew, hret⟩ := hq v
    exact ⟨trivial, congrArg Phase.took hret, hnew⟩
  | [.setz], _ => exact ⟨trivial, rfl⟩
  | [], _ => exact rfl

end State

/-! ## The operations -/

/-- A call with the value of the register operand, and with that of the accumulator. -/
def asm (code : List Insn) (reg acc : BitVec n) (ret : Regs n → R) : PlainOr (State n R) (BitVec n) R :=
  .code ⟨code, ⟨reg, acc, false, 0⟩, ret⟩

/-- Where a call on each cell can be. -/
def Pc (w : Nat) (A B : Type) : Loc A B → Type
  | .int _ => PlainOr (State 32 (Ret w)) (BitVec 32) (Ret w)
  | .ptr _ => PlainOr (State w (Ret w)) (BitVec w) (Ret w)

def next : (l : Loc A B) → Pc w A B l → Instr (Val w l) (Pc w A B l) (Ret w)
  | .int _ => PlainOr.next State.next
  | .ptr _ => PlainOr.next State.next

def phase : (l : Loc A B) → Pc w A B l → Phase (Val w l) (Ret w)
  | .int _ => PlainOr.phase State.phase
  | .ptr _ => PlainOr.phase State.phase

/-- Every operation; fetch-and-increment and fetch-and-decrement are fetch-and-adds of 1 and -1. An operand that an
instruction does not have is 0. -/
def start : Op w A B → Σ l, Pc w A B l
  | .loadInt ptr => ⟨.int ptr, .load .int⟩
  | .storeInt ptr val => ⟨.int ptr, .store val .void⟩
  | .loadPtr ptr => ⟨.ptr ptr, .load .ptr⟩
  | .storePtr ptr val => ⟨.ptr ptr, .store val .void⟩
  | .addInt ptr val => ⟨.int ptr, asm [.locked .add] val 0 fun _ => .void⟩
  | .incrInt ptr => ⟨.int ptr, asm [.locked .inc] 0 0 fun _ => .void⟩
  | .decrInt ptr => ⟨.int ptr, asm [.locked .dec] 0 0 fun _ => .void⟩
  | .decrAndTestInt ptr => ⟨.int ptr, asm [.locked .dec, .setz] 0 0 fun r => .int (r.byte.signExtend 32)⟩
  | .fetchAndAddInt ptr val => ⟨.int ptr, asm [.locked .xadd] val 0 fun r => .int r.reg⟩
  | .fetchAndIncrInt ptr => ⟨.int ptr, asm [.locked .xadd] 1 0 fun r => .int r.reg⟩
  | .fetchAndDecrInt ptr => ⟨.int ptr, asm [.locked .xadd] (-1) 0 fun r => .int r.reg⟩
  | .casPtr ptr oldv newv => ⟨.ptr ptr, asm [.locked .cmpxchg] newv oldv fun r => .ptr r.acc⟩
  | .casInt ptr oldv newv => ⟨.int ptr, asm [.locked .cmpxchg] newv oldv fun r => .int r.acc⟩
  | .swapPtr ptr val => ⟨.ptr ptr, asm [.locked .xchg] val 0 fun r => .ptr r.reg⟩
  | .swapInt ptr val => ⟨.int ptr, asm [.locked .xchg] val 0 fun r => .int r.reg⟩

def object (w : Nat) (T A B : Type) [DecidableEq T] [DecidableEq A] [DecidableEq B] :
    Object T (Linked T (Loc A B) (Val w)) (Σ l, Pc w A B l) (Op w A B) (Ret w) :=
  assemblyObject next start

/-- The code of an operation. -/
def Ok : (l : Loc A B) → OnValue (Val w l) (Ret w) → Pc w A B l → Prop
  | .int _, p => PlainOr.Ok p (State.Ok p)
  | .ptr _, p => PlainOr.Ok p (State.Ok p)

theorem follows : (l : Loc A B) → (p : OnValue (Val w l) (Ret w)) → Follows p (next l) (phase l) (Ok l p)
  | .int _, p => (State.follows p).plainOr
  | .ptr _, p => (State.follows p).plainOr

/-- `cmpxchg` against compare-and-swap: the accumulator has the value found. -/
theorem cmpxchg_exec (oldv newv v : BitVec n) (r : Regs n) (hacc : r.acc = oldv) (hreg : r.reg = newv) :
    (Locked.cmpxchg.exec r v).1 = (if v = oldv then newv else v) ∧ (Locked.cmpxchg.exec r v).2.acc = v := by
  subst hacc hreg
  unfold Locked.exec
  by_cases hv : r.acc = v
  · rw [if_pos hv, if_pos hv.symm]
    exact ⟨rfl, hv⟩
  · rw [if_neg hv, if_neg (Ne.symm hv)]
    exact ⟨rfl, rfl⟩

/-- `dec` and `setz` against decrement-and-test: the byte, sign-extended, is whether the old value was 1. -/
theorem dec_setz (v : BitVec 32) (r : Regs 32) :
    (Locked.dec.exec r v).2.setz.byte.signExtend 32 = if v = 1 then 1#32 else 0#32 := by
  unfold Locked.exec Regs.setz
  by_cases hv : v = 1
  · subst hv
    rfl
  · have hne : ¬v - 1 = 0 := by
      intro h
      apply hv
      have hadd := BitVec.sub_add_cancel v 1
      rw [h] at hadd
      exact hadd.symm
    simp only [hne, decide_false, Bool.false_eq_true, if_false, if_neg hv]
    rfl

theorem start_ok (op : Op w A B) : ∃ q, start op = ⟨(llscCode op).rmw.cell, q⟩ ∧
    Ok _ (llscCode op).rmw.onValue q ∧ phase _ q = .fresh := by
  cases op with
  | loadInt ptr => exact ⟨_, rfl, fun _ => ⟨rfl, rfl⟩, rfl⟩
  | storeInt ptr val => exact ⟨_, rfl, fun _ => ⟨rfl, rfl, rfl⟩, rfl⟩
  | loadPtr ptr => exact ⟨_, rfl, fun _ => ⟨rfl, rfl⟩, rfl⟩
  | storePtr ptr val => exact ⟨_, rfl, fun _ => ⟨rfl, rfl, rfl⟩, rfl⟩
  | addInt ptr val => exact ⟨_, rfl, fun _ => ⟨rfl, rfl⟩, rfl⟩
  | incrInt ptr => exact ⟨_, rfl, fun _ => ⟨rfl, rfl⟩, rfl⟩
  | decrInt ptr => exact ⟨_, rfl, fun v => ⟨BitVec.sub_eq_add_neg v 1, rfl⟩, rfl⟩
  | decrAndTestInt ptr =>
    refine ⟨_, rfl, fun v => ⟨BitVec.sub_eq_add_neg v 1, ?_⟩, rfl⟩
    exact congrArg Ret.int (dec_setz v _)
  | fetchAndAddInt ptr val => exact ⟨_, rfl, fun v => ⟨BitVec.add_comm val v, rfl⟩, rfl⟩
  | fetchAndIncrInt ptr => exact ⟨_, rfl, fun v => ⟨BitVec.add_comm 1#32 v, rfl⟩, rfl⟩
  | fetchAndDecrInt ptr => exact ⟨_, rfl, fun v => ⟨BitVec.add_comm (-1#32) v, rfl⟩, rfl⟩
  | casPtr ptr oldv newv =>
    refine ⟨_, rfl, fun v => ?_, rfl⟩
    obtain ⟨hmem, hacc⟩ := cmpxchg_exec oldv newv v ⟨newv, oldv, false, 0⟩ rfl rfl
    refine ⟨?_, congrArg Ret.ptr hacc⟩
    rw [hmem]
    exact (if_congr decide_eq_true_iff rfl rfl).symm
  | casInt ptr oldv newv =>
    refine ⟨_, rfl, fun v => ?_, rfl⟩
    obtain ⟨hmem, hacc⟩ := cmpxchg_exec oldv newv v ⟨newv, oldv, false, 0⟩ rfl rfl
    refine ⟨?_, congrArg Ret.int hacc⟩
    rw [hmem]
    exact (if_congr decide_eq_true_iff rfl rfl).symm
  | swapPtr ptr val => exact ⟨_, rfl, fun _ => ⟨rfl, rfl⟩, rfl⟩
  | swapInt ptr val => exact ⟨_, rfl, fun _ => ⟨rfl, rfl⟩, rfl⟩

end Intel

variable {T : Type} [DecidableEq T] [DecidableEq A] [DecidableEq B]

/-- The calls take effect at one point of their code, with the effect of the lock-based operation. -/
theorem Intel.takesEffect : TakesEffect (Intel.object w T A B) byLock Linked.mem
    (AssemblyOk (fun op => (llscCode op).rmw) Intel.phase fun op => Intel.Ok _ (llscCode op).rmw.onValue)
    fun pc => (Intel.phase pc.1 pc.2).result := by
  have hspec : (fun m (op : Op w A B) => (llscCode op).rmw.atOnce m) = byLock := by
    funext m op
    exact llscCode_atOnce m op
  rw [← hspec]
  exact assembly_takesEffect Intel.next Intel.start _ _ _ (fun op => Intel.follows _ _) Intel.start_ok

/-- On x86 the operations, instruction by instruction, are linearizable to the lock-based ones in one step: for any
number of threads, any calls on any cells and any interleaving, the calls that have returned, with some under way
whose locked instruction has been executed, can be put in an order that respects real time, in which each has the
return value and the effect of the operation in one step, and the contents agree. -/
theorem intel_linearizable (u : Linked T (Loc A B) (Val w)) (as : List (SystemAct T (Op w A B)))
    (s : System T (Linked T (Loc A B) (Val w)) (Σ l : Loc A B, Intel.Pc w A B l) (Op w A B) (Ret w))
    (h : run (systemStep (Intel.object w T A B)) (System.init u) as = some s) :
    ∃ pending order, LinearizesNow byLock u.mem s.shared.mem s pending order := by
  exact Intel.takesEffect.linearizes (fun _ _ _ hnone => nomatch hnone) h

/-- Two threads decrement a counter of 2. The first one's `dec` is before that of the second one, but it is the
second one that has set its byte and returned. -/
def intelActs : List (SystemAct Bool (Op 8 Bool Bool)) :=
  [.call true (.storeInt true 2), .step true false, .step true false, .call true (.decrAndTestInt true),
    .call false (.decrAndTestInt true), .step true false, .step false false, .step false false, .step false false]

theorem intel_linearizable_demo : ∃ s pending order,
    run (systemStep (Intel.object 8 Bool Bool Bool)) (System.init ⟨zeroCells, fun _ _ => false⟩) intelActs = some s ∧
    s.shared.mem (.int true) = 0#32 ∧ s.done.map (fun c => (c.thread, c.ret)) = [(true, .void), (false, .int 1)] ∧
    LinearizesNow byLock zeroCells s.shared.mem s pending order := by
  have h : (run (systemStep (Intel.object 8 Bool Bool Bool)) (System.init ⟨zeroCells, fun _ _ => false⟩) intelActs).map
      (fun s => ((s.shared.mem (.int true) : BitVec 32), s.done.map fun c => (c.thread, c.ret))) =
        some (0#32, [(true, .void), (false, .int 1)]) := by rfl
  obtain ⟨s, hs, hd⟩ := Option.map_eq_some_iff.1 h
  obtain ⟨hmem, hdone⟩ := Prod.mk.inj hd
  obtain ⟨pending, order, ho⟩ := intel_linearizable ⟨zeroCells, fun _ _ => false⟩ intelActs s hs
  exact ⟨s, pending, order, hs, hmem, hdone, ho⟩

end OpenPA.Atomic
