/-
The operations of the SiCortex port (`opa_gcc_sicortex.h`) instruction by instruction: MIPS code with a delay slot
after every branch, on registers of 64 bits, to which a value of 32 bits is sign-extended. In `cswap` the branch
out of the loop has the `move` of the new value in its delay slot. The control flow is that of a table (`Flow`)
checked by evaluation; what the registers hold is proved one instruction at a time. The operations are
linearizable to those of `opa_by_lock.h` (`sicortex_linearizable`).
-/
import OpenPA.Atomic.ByLlsc
import OpenPA.Machine.Assembly

namespace OpenPA.Atomic

open OpenPA.Machine

variable {w n : Nat} {A B R : Type}

/-! ## The machine -/

namespace Mips

/-- The operands `%0`, `%1`, `%3` and `%4`, in registers of 64 bits. -/
inductive Reg where
  | result
  | temp
  | val
  | expect
  deriving DecidableEq

/-- The instructions, at the size of the memory operand: `ll`, `sc` and `addu`, or `lld`, `scd` and `daddu`. -/
inductive Insn where
  | ll (rd : Reg)
  | sc (rt : Reg)
  | addu (rd rs rt : Reg)
  | move (rd rs : Reg)
  | beqz (rs : Reg) (target : Nat)
  | bne (rs rt : Reg) (target : Nat)
  | nop
  deriving DecidableEq

/-- A call: its code, what the caller makes of the value returned, the registers, the instruction to be executed
and the one after it, which a branch decides one instruction ahead. -/
structure State (n : Nat) (R : Type) where
  code : List Insn
  ret : BitVec n → R
  regs : Reg → BitVec 64
  pc : Nat
  npc : Nat

namespace State

/-- The value of a register at the size of the memory operand. -/
def low (q : State n R) (r : Reg) : BitVec n := (q.regs r).setWidth n

/-- On to the next instruction, after which comes the one at `npc`. -/
def goto (q : State n R) (regs : Reg → BitVec 64) (npc : Nat) : State n R :=
  { q with regs := regs, pc := q.npc, npc := npc }

def seq (q : State n R) (rd : Reg) (v : BitVec 64) : State n R := q.goto (Function.update q.regs rd v) (q.npc + 1)

section

variable {q : State n R} {regs : Reg → BitVec 64} {npc : Nat} {rd r : Reg} {v : BitVec 64}

@[simp] theorem goto_code : (q.goto regs npc).code = q.code := rfl
@[simp] theorem goto_ret : (q.goto regs npc).ret = q.ret := rfl
@[simp] theorem goto_regs : (q.goto regs npc).regs = regs := rfl
@[simp] theorem goto_pc : (q.goto regs npc).pc = q.npc := rfl
@[simp] theorem goto_npc : (q.goto regs npc).npc = npc := rfl
@[simp] theorem goto_low : (q.goto q.regs npc).low r = q.low r := rfl

@[simp] theorem seq_code : (q.seq rd v).code = q.code := rfl
@[simp] theorem seq_ret : (q.seq rd v).ret = q.ret := rfl
@[simp] theorem seq_pc : (q.seq rd v).pc = q.npc := rfl
@[simp] theorem seq_npc : (q.seq rd v).npc = q.npc + 1 := rfl
@[simp] theorem seq_regs_self : (q.seq rd v).regs rd = v := by
  simp [seq, goto]

@[simp] theorem seq_low_self : (q.seq rd v).low rd = v.setWidth n := by
  rw [low, seq_regs_self]

theorem seq_low_of_ne (h : r ≠ rd) : (q.seq rd v).low r = q.low r := by
  simp [low, seq, goto, h]

end

/-- `ll` and `addu` sign-extend what they write to a register. At the end of the code the function returns. -/
def next (q : State n R) : Instr (BitVec n) (State n R) R :=
  match q.code[q.pc]? with
  | some (.ll rd) => .ll fun v => q.seq rd (v.signExtend 64)
  | some (.sc rt) => .sc (q.low rt) fun b => q.seq rt (if b then 1 else 0)
  | some (.addu rd rs rt) => .tau (q.seq rd ((q.low rs + q.low rt).signExtend 64))
  | some (.move rd rs) => .tau (q.seq rd (q.regs rs))
  | some (.beqz rs target) => .tau (q.goto q.regs (if q.regs rs = 0 then target else q.npc + 1))
  | some (.bne rs rt target) => .tau (q.goto q.regs (if q.regs rs ≠ q.regs rt then target else q.npc + 1))
  | some .nop => .tau (q.goto q.regs (q.npc + 1))
  | none => .ret (q.ret (q.low .result))

/-- How far the call is. An instruction in the delay slot of a branch taken is followed by the target. -/
def phase (q : State n R) : Phase (BitVec n) R :=
  match q.code[q.pc]? with
  | some (.ll _) => .fresh
  | some (.sc _) => .read (q.low .result)
  | some (.addu _ _ _) | some (.move _ _) =>
    if q.npc = q.pc + 1 then .read (q.low .result) else .took (q.ret (q.low .result))
  | some (.beqz rs _) => if q.regs rs = 0 then .fresh else .took (q.ret (q.low .result))
  | some (.bne rs rt _) => if q.regs rs = q.regs rt then .read (q.low .result) else .took (q.ret (q.low .result))
  | some .nop => if q.npc = q.pc + 1 then .took (q.ret (q.low .result)) else .fresh
  | none => .took (q.ret (q.low .result))

end State

end Mips

/-! ## The functions -/

/-- `OPA_shmemi_fetch_add_4`, `OPA_shmemi_swap_4`, `OPA_shmemi_cswap_4`, and the same of 8 bytes -/
inductive Shmemi where
  | fetchAdd
  | swap
  | cswap

namespace Shmemi

open Mips

/-- `1: ll %0, %2`, twice with `ICE9A_LLSC_WAR`, the workaround for an LL that fails -/
def ll (war : Bool) : List Insn := if war then [.ll .result, .ll .result] else [.ll .result]

def code (war : Bool) : Shmemi → List Insn
  | .fetchAdd => ll war ++ [.addu .temp .result .val, .sc .temp, .beqz .temp 0, .nop]
  | .swap => ll war ++ [.move .temp .val, .sc .temp, .beqz .temp 0, .nop]
  | .cswap =>
    ll war ++ [.bne .result .expect ((ll war).length + 5), .move .temp .val, .sc .temp, .beqz .temp 0, .nop]

/-- What the functions do, with the arguments `val` (or `inc`) and `expect`. -/
def onValue (val expect : BitVec n) (ret : BitVec n → R) : Shmemi → OnValue (BitVec n) R
  | .fetchAdd => ⟨fun _ => true, fun v => v + val, ret⟩
  | .swap => ⟨fun _ => true, fun _ => val, ret⟩
  | .cswap => ⟨fun v => v = expect, fun _ => val, ret⟩

/-- A call, with its arguments in registers. -/
def call (war : Bool) (f : Shmemi) (val expect : BitVec n) (ret : BitVec n → R) : State n R where
  code := f.code war
  ret := ret
  regs
    | .result | .temp => 0
    | .val => val.signExtend 64
    | .expect => expect.signExtend 64
  pc := 0
  npc := 1

/-- Where the code can be, and what comes after: one instruction after the other, in the delay slot of the branch
back, and for `cswap` in that of the branch out. -/
def points (war : Bool) (f : Shmemi) : List (Nat × Nat) :=
  ((List.range ((f.code war).length + 1)).map fun pc => (pc, pc + 1)) ++
    match f with
    | .fetchAdd | .swap => [((f.code war).length - 1, 0)]
    | .cswap => [((f.code war).length - 1, 0), ((f.code war).length - 4, (f.code war).length)]

/-- The control flow at a point: the operands of the instruction, and what follows it. -/
def Flow (war : Bool) (f : Shmemi) (pc npc : Nat) : Prop :=
  let code := f.code war
  match code[pc]? with
  | some (.ll rd) => rd = .result ∧ (npc, npc + 1) ∈ f.points war ∧
      (code[npc]? = some (.ll .result) ∨ match f with
        | .fetchAdd => code[npc]? = some (.addu .temp .result .val)
        | .swap => code[npc]? = some (.move .temp .val)
        | .cswap => ∃ out, code[npc]? = some (.bne .result .expect out))
  | some (.addu rd rs rt) => f = .fetchAdd ∧ rd = .temp ∧ rs = .result ∧ rt = .val ∧ npc = pc + 1 ∧
      (npc, npc + 1) ∈ f.points war ∧ code[npc]? = some (.sc .temp)
  | some (.move rd rs) => f ≠ .fetchAdd ∧ rd = .temp ∧ rs = .val ∧ (npc, npc + 1) ∈ f.points war ∧
      code[npc]? = if npc = pc + 1 then some (.sc .temp) else none
  | some (.sc rt) => rt = .temp ∧ (npc, npc + 1) ∈ f.points war ∧ code[npc]? = some (.beqz .temp 0)
  | some (.beqz rs back) => rs = .temp ∧ (npc, npc + 1) ∈ f.points war ∧ (npc, back) ∈ f.points war ∧
      back ≠ npc + 1 ∧ code[npc]? = some .nop
  | some (.bne rs rt out) => f = .cswap ∧ rs = .result ∧ rt = .expect ∧ (npc, npc + 1) ∈ f.points war ∧
      (npc, out) ∈ f.points war ∧ out ≠ npc + 1 ∧ code[npc]? = some (.move .temp .val)
  | some .nop => (npc, npc + 1) ∈ f.points war ∧
      code[npc]? = if npc = pc + 1 then none else some (.ll .result)
  | none => True

theorem flow_of_point (war : Bool) (f : Shmemi) : ∀ x ∈ f.points war, f.Flow war x.1 x.2 := by
  cases f <;> cases war <;> simp [points, Flow, code, ll, List.range_succ]

/-- What holds before an instruction: what is written is to replace the value found, and what `sc` writes is it. -/
def Before (p : OnValue (BitVec n) R) (q : State n R) : Prop :=
  match q.code[q.pc]? with
  | some (.addu _ _ _) | some (.move _ _) => q.npc = q.pc + 1 → p.cond (q.low .result) = true
  | some (.sc rt) => p.cond (q.low .result) = true ∧ q.low rt = p.new (q.low .result)
  | _ => True

/-- What holds of a call. -/
structure Ok (war : Bool) (f : Shmemi) (a b : BitVec n) (k : BitVec n → R) (q : State n R) : Prop where
  code : q.code = f.code war
  ret : q.ret = k
  point : (q.pc, q.npc) ∈ f.points war
  val : q.regs .val = a.signExtend 64
  expect : q.regs .expect = b.signExtend 64
  result : q.regs .result = (q.low .result).signExtend 64
  before : Before (f.onValue a b k) q

variable {war : Bool} {f : Shmemi} {a b : BitVec n} {k : BitVec n → R} {q : State n R}

/-- A register that an instruction has sign-extended a value to. -/
theorem setWidth_signExtend (hn : n ≤ 64) (v : BitVec n) : (v.signExtend 64).setWidth n = v := by
  apply BitVec.eq_of_getLsbD_eq
  intro i hi
  simp [BitVec.getLsbD_signExtend, hi]
  omega

theorem signExtend_inj (hn : n ≤ 64) {v v' : BitVec n} (h : v.signExtend 64 = v'.signExtend 64) : v = v' := by
  rw [← setWidth_signExtend hn v, h, setWidth_signExtend hn]

@[simp] theorem onValue_ret : (f.onValue a b k).ret = k := by
  cases f <;> rfl

/-- On to the next instruction with the same registers. -/
theorem Ok.goto (hq : Ok war f a b k q) {npc : Nat} (hpoint : (q.npc, npc) ∈ f.points war)
    (hbefore : Before (f.onValue a b k) (q.goto q.regs npc)) : Ok war f a b k (q.goto q.regs npc) :=
  ⟨hq.code, hq.ret, hpoint, hq.val, hq.expect, hq.result, hbefore⟩

/-- On to the next instruction with another value in `temp`. -/
theorem Ok.temp (hq : Ok war f a b k q) {v : BitVec 64} (hpoint : (q.npc, q.npc + 1) ∈ f.points war)
    (hbefore : Before (f.onValue a b k) (q.seq .temp v)) : Ok war f a b k (q.seq .temp v) :=
  ⟨hq.code, hq.ret, hpoint, hq.val, hq.expect, hq.result, hbefore⟩

theorem keeps_ll {rd : Reg} (hn : n ≤ 64) (hq : Ok war f a b k q) (hi : q.code[q.pc]? = some (.ll rd)) :
    Keeps (f.onValue a b k) State.phase (Ok war f a b k) q.phase q.next := by
  have hflow := flow_of_point war f _ hq.point
  simp only [Flow, ← hq.code, hi] at hflow
  -- a second load-link may follow, or the instruction that goes by the value read
  obtain ⟨rfl, hsucc, hentry⟩ := hflow
  simp only [State.phase, State.next, hi]
  intro v
  have hread : (q.seq .result (v.signExtend 64)).low .result = v := by
    rw [State.seq_low_self, setWidth_signExtend hn]
  constructor
  · refine ⟨hq.code, hq.ret, hsucc, hq.val, hq.expect, ?_, ?_⟩
    · rw [hread, State.seq_regs_self]
    · simp only [Before, State.seq_code, State.seq_pc, hread]
      rcases hentry with hll | hentry
      · simp [hll]
      · cases f with
        | fetchAdd => simp [hentry, onValue]
        | swap => simp [hentry, onValue]
        | cswap =>
          obtain ⟨out, hbne⟩ := hentry
          simp [hbne]
  · rcases hentry with hll | hentry
    · simp [State.phase, hll]
    · right
      cases f with
      | fetchAdd => simp [State.phase, hentry, OnValue.found, onValue, hread]
      | swap => simp [State.phase, hentry, OnValue.found, onValue, hread]
      | cswap =>
        obtain ⟨out, hbne⟩ := hentry
        have hexpect : (q.seq .result (v.signExtend 64)).regs .expect = b.signExtend 64 := hq.expect
        have hret : (q.seq .result (v.signExtend 64)).ret = k := hq.ret
        simp only [State.phase, State.seq_code, State.seq_pc, hbne, hexpect, State.seq_regs_self, hread, OnValue.found,
          onValue, decide_eq_true_eq, hret]
        by_cases hv : v = b
        · rw [if_pos hv, if_pos (congrArg _ hv)]
        · rw [if_neg hv, if_neg fun h => hv (signExtend_inj hn h)]

theorem keeps_sc {rt : Reg} (hq : Ok war f a b k q) (hi : q.code[q.pc]? = some (.sc rt)) :
    Keeps (f.onValue a b k) State.phase (Ok war f a b k) q.phase q.next := by
  have hflow := flow_of_point war f _ hq.point
  simp only [Flow, ← hq.code, hi] at hflow
  obtain ⟨rfl, hsucc, hnext⟩ := hflow
  have hbefore := hq.before
  simp only [Before, hi] at hbefore
  simp only [State.phase, State.next, hi]
  refine ⟨hbefore.2, hbefore.1, ⟨hq.temp hsucc ?_, ?_⟩, hq.temp hsucc ?_, ?_⟩
  · simp [Before, hnext]
  · simp [State.phase, hnext, State.seq_low_of_ne, hq.ret]
  · simp [Before, hnext]
  · simp [State.phase, hnext]

theorem keeps_addu {rd rs rt : Reg} (hn : n ≤ 64) (hq : Ok war f a b k q) (hi : q.code[q.pc]? = some (.addu rd rs rt)) :
    Keeps (f.onValue a b k) State.phase (Ok war f a b k) q.phase q.next := by
  have hflow := flow_of_point war f _ hq.point
  simp only [Flow, ← hq.code, hi] at hflow
  obtain ⟨rfl, rfl, rfl, rfl, hnpc, hsucc, hnext⟩ := hflow
  have hval : q.low .val = a := by
    rw [State.low, hq.val, setWidth_signExtend hn]
  simp only [State.phase, State.next, hi, if_pos hnpc]
  refine ⟨hq.temp hsucc ?_, ?_⟩
  · simp only [Before, State.seq_code, State.seq_pc, hnext, State.seq_low_self, setWidth_signExtend hn, hval]
    rw [State.seq_low_of_ne (by decide)]
    exact ⟨rfl, rfl⟩
  · simp [State.phase, hnext, State.seq_low_of_ne]

theorem keeps_move {rd rs : Reg} (hn : n ≤ 64) (hq : Ok war f a b k q) (hi : q.code[q.pc]? = some (.move rd rs)) :
    Keeps (f.onValue a b k) State.phase (Ok war f a b k) q.phase q.next := by
  have hflow := flow_of_point war f _ hq.point
  simp only [Flow, ← hq.code, hi] at hflow
  obtain ⟨hf, rfl, rfl, hsucc, hnext⟩ := hflow
  have hval : (q.regs .val).setWidth n = a := by
    rw [hq.val, setWidth_signExtend hn]
  have hbefore := hq.before
  simp only [Before, hi] at hbefore
  simp only [State.phase, State.next, hi]
  by_cases hslot : q.npc = q.pc + 1
  · rw [if_pos hslot]
    rw [if_pos hslot] at hnext
    refine ⟨hq.temp hsucc ?_, ?_⟩
    · simp only [Before, State.seq_code, State.seq_pc, hnext, State.seq_low_self, hval]
      rw [State.seq_low_of_ne (by decide)]
      refine ⟨hbefore hslot, ?_⟩
      cases f with
      | fetchAdd => exact absurd rfl hf
      | swap => rfl
      | cswap => rfl
    · simp [State.phase, hnext, State.seq_low_of_ne]
  · rw [if_neg hslot]
    rw [if_neg hslot] at hnext
    refine ⟨hq.temp hsucc ?_, ?_⟩
    · simp [Before, hnext]
    · simp [State.phase, hnext, State.seq_low_of_ne]

theorem keeps_beqz {rs : Reg} {back : Nat} (hq : Ok war f a b k q) (hi : q.code[q.pc]? = some (.beqz rs back)) :
    Keeps (f.onValue a b k) State.phase (Ok war f a b k) q.phase q.next := by
  have hflow := flow_of_point war f _ hq.point
  simp only [Flow, ← hq.code, hi] at hflow
  obtain ⟨rfl, hsucc, hback, hne, hnext⟩ := hflow
  simp only [State.phase, State.next, hi]
  by_cases hzero : q.regs .temp = 0
  · rw [if_pos hzero, if_pos hzero]
    refine ⟨hq.goto hback ?_, ?_⟩
    · simp [Before, hnext]
    · simp [State.phase, hnext, hne]
  · rw [if_neg hzero, if_neg hzero]
    refine ⟨hq.goto hsucc ?_, ?_⟩
    · simp [Before, hnext]
    · simp [State.phase, hnext]

theorem keeps_bne {rs rt : Reg} {out : Nat} (hn : n ≤ 64) (hq : Ok war f a b k q)
    (hi : q.code[q.pc]? = some (.bne rs rt out)) :
    Keeps (f.onValue a b k) State.phase (Ok war f a b k) q.phase q.next := by
  have hflow := flow_of_point war f _ hq.point
  simp only [Flow, ← hq.code, hi] at hflow
  obtain ⟨rfl, rfl, rfl, hsucc, hout, hne, hnext⟩ := hflow
  simp only [State.phase, State.next, hi]
  by_cases heq : q.regs .result = q.regs .expect
  · rw [if_pos heq, if_neg (not_not.2 heq)]
    refine ⟨hq.goto hsucc ?_, ?_⟩
    · have hcond : q.low .result = b := by
        rw [State.low, heq, hq.expect, setWidth_signExtend hn]
      simp [Before, hnext, onValue, hcond]
    · simp [State.phase, hnext]
  · rw [if_neg heq, if_pos heq]
    refine ⟨hq.goto hout ?_, ?_⟩
    · simp [Before, hnext, hne]
    · simp [State.phase, hnext, hne]

theorem keeps_nop (hq : Ok war f a b k q) (hi : q.code[q.pc]? = some .nop) :
    Keeps (f.onValue a b k) State.phase (Ok war f a b k) q.phase q.next := by
  have hflow := flow_of_point war f _ hq.point
  simp only [Flow, ← hq.code, hi] at hflow
  obtain ⟨hsucc, hnext⟩ := hflow
  simp only [State.phase, State.next, hi]
  by_cases hslot : q.npc = q.pc + 1
  · rw [if_pos hslot] at hnext ⊢
    refine ⟨hq.goto hsucc ?_, ?_⟩
    · simp [Before, hnext]
    · simp [State.phase, hnext]
  · rw [if_neg hslot] at hnext ⊢
    refine ⟨hq.goto hsucc ?_, ?_⟩
    · simp [Before, hnext]
    · simp [State.phase, hnext]

/-- Every instruction keeps to the phases. -/
theorem follows (hn : n ≤ 64) (war : Bool) (f : Shmemi) (a b : BitVec n) (k : BitVec n → R) :
    Follows (f.onValue a b k) State.next State.phase (Ok war f a b k) := by
  intro q hq
  rcases hi : q.code[q.pc]? with _ | i
  · simp only [State.phase, State.next, hi]
    exact rfl
  cases i with
  | ll rd => exact keeps_ll hn hq hi
  | sc rt => exact keeps_sc hq hi
  | addu rd rs rt => exact keeps_addu hn hq hi
  | move rd rs => exact keeps_move hn hq hi
  | beqz rs back => exact keeps_beqz hq hi
  | bne rs rt out => exact keeps_bne hn hq hi
  | nop => exact keeps_nop hq hi

/-- A call starts with its code. -/
theorem call_ok (war : Bool) (f : Shmemi) (a b : BitVec n) (k : BitVec n → R) : Ok war f a b k (f.call war a b k) := by
  refine ⟨rfl, rfl, ?_, rfl, rfl, ?_, ?_⟩
  · cases f <;> cases war <;> simp [points, call]
  · simp [call, State.low, BitVec.signExtend]
  · cases f <;> cases war <;> simp [Before, call, code, ll]

theorem call_phase (war : Bool) (f : Shmemi) (a b : BitVec n) (k : BitVec n → R) :
    (f.call war a b k).phase = .fresh := by
  cases f <;> cases war <;> rfl

end Shmemi

/-! ## The operations -/

/-- A call of an operation: an aligned load or store is one access, the others call one of the functions. -/
abbrev SiCortexPc (n : Nat) (R : Type) := PlainOr (Mips.State n R) (BitVec n) R

/-- The call is one of the operation. -/
def SiCortexPc.Ok (war : Bool) (p : OnValue (BitVec n) R) : SiCortexPc n R → Prop :=
  PlainOr.Ok p fun q => ∃ f a b k, p = Shmemi.onValue a b k f ∧ Shmemi.Ok war f a b k q

theorem SiCortexPc.follows (hn : n ≤ 64) (war : Bool) (p : OnValue (BitVec n) R) :
    Follows p (PlainOr.next Mips.State.next) (PlainOr.phase Mips.State.phase) (SiCortexPc.Ok war p) := by
  apply Follows.plainOr
  rintro q ⟨f, a, b, k, rfl, hq⟩
  exact (Shmemi.follows hn war f a b k q hq).imp fun q' hq' => ⟨f, a, b, k, rfl, hq'⟩

/-- `OPA_SIZEOF_VOID_P`; other values are an error. -/
inductive SizeofVoidP where
  | four
  | eight

def SizeofVoidP.bits : SizeofVoidP → Nat
  | .four => 32
  | .eight => 64

namespace SiCortex

variable {s : SizeofVoidP} {war : Bool}

/-- Where a call on each cell can be. -/
def Pc (s : SizeofVoidP) (A B : Type) : Loc A B → Type
  | .int _ => SiCortexPc 32 (Ret s.bits)
  | .ptr _ => SiCortexPc s.bits (Ret s.bits)

def next : (l : Loc A B) → Pc s A B l → Instr (Val s.bits l) (Pc s A B l) (Ret s.bits)
  | .int _ => PlainOr.next Mips.State.next
  | .ptr _ => PlainOr.next Mips.State.next

def phase : (l : Loc A B) → Pc s A B l → Phase (Val s.bits l) (Ret s.bits)
  | .int _ => PlainOr.phase Mips.State.phase
  | .ptr _ => PlainOr.phase Mips.State.phase

/-- `OPA_shmemi_fetch_add_4`, which has no operand `%4` -/
def fetchAdd (war : Bool) (inc : BitVec n) (ret : BitVec n → R) : SiCortexPc n R :=
  .code (Shmemi.call war .fetchAdd inc 0 ret)

/-- `OPA_shmemi_swap_4` and `OPA_shmemi_swap_8` -/
def swap (war : Bool) (val : BitVec n) (ret : BitVec n → R) : SiCortexPc n R :=
  .code (Shmemi.call war .swap val 0 ret)

/-- `OPA_shmemi_cswap_4` and `OPA_shmemi_cswap_8` -/
def cswap (war : Bool) (expect val : BitVec n) (ret : BitVec n → R) : SiCortexPc n R :=
  .code (Shmemi.call war .cswap val expect ret)

/-- Every operation on its cell; those on pointers call the functions of the size of a pointer. -/
def start (s : SizeofVoidP) (war : Bool) : Op s.bits A B → Σ l, Pc s A B l
  | .loadInt ptr => ⟨.int ptr, .load .int⟩
  | .storeInt ptr val => ⟨.int ptr, .store val .void⟩
  | .loadPtr ptr => ⟨.ptr ptr, .load .ptr⟩
  | .storePtr ptr val => ⟨.ptr ptr, .store val .void⟩
  | .addInt ptr val => ⟨.int ptr, fetchAdd war val fun _ => .void⟩
  | .casPtr ptr oldv newv => ⟨.ptr ptr, cswap war oldv newv .ptr⟩
  | .casInt ptr oldv newv => ⟨.int ptr, cswap war oldv newv .int⟩
  | .decrInt ptr => ⟨.int ptr, fetchAdd war (-1) fun _ => .void⟩
  | .decrAndTestInt ptr => ⟨.int ptr, fetchAdd war (-1) fun old => .int (if old = 1 then 1 else 0)⟩
  | .fetchAndAddInt ptr val => ⟨.int ptr, fetchAdd war val .int⟩
  | .fetchAndDecrInt ptr => ⟨.int ptr, fetchAdd war (-1) .int⟩
  | .fetchAndIncrInt ptr => ⟨.int ptr, fetchAdd war 1 .int⟩
  | .incrInt ptr => ⟨.int ptr, fetchAdd war 1 fun _ => .void⟩
  | .swapPtr ptr val => ⟨.ptr ptr, swap war val .ptr⟩
  | .swapInt ptr val => ⟨.int ptr, swap war val .int⟩

def object (s : SizeofVoidP) (war : Bool) (T A B : Type) [DecidableEq T] [DecidableEq A] [DecidableEq B] :
    Object T (Linked T (Loc A B) (Val s.bits)) (Σ l, Pc s A B l) (Op s.bits A B) (Ret s.bits) :=
  assemblyObject next (start s war)

/-- The code of an operation. -/
def Ok (war : Bool) : (l : Loc A B) → OnValue (Val s.bits l) (Ret s.bits) → Pc s A B l → Prop
  | .int _ => SiCortexPc.Ok war
  | .ptr _ => SiCortexPc.Ok war

theorem follows : (l : Loc A B) → (p : OnValue (Val s.bits l) (Ret s.bits)) → Follows p (next l) (phase l) (Ok war l p)
  | .int _ => SiCortexPc.follows (by decide) war
  | .ptr _ => SiCortexPc.follows (by cases s <;> decide) war

theorem start_ok (op : Op s.bits A B) : ∃ q, start s war op = ⟨(llscCode op).rmw.cell, q⟩ ∧
    Ok war _ (llscCode op).rmw.onValue q ∧ phase _ q = .fresh := by
  cases op with
  | loadInt ptr => exact ⟨_, rfl, fun _ => ⟨rfl, rfl⟩, rfl⟩
  | storeInt ptr val => exact ⟨_, rfl, fun _ => ⟨rfl, rfl, rfl⟩, rfl⟩
  | loadPtr ptr => exact ⟨_, rfl, fun _ => ⟨rfl, rfl⟩, rfl⟩
  | storePtr ptr val => exact ⟨_, rfl, fun _ => ⟨rfl, rfl, rfl⟩, rfl⟩
  | _ => exact ⟨_, rfl, ⟨_, _, _, _, rfl, Shmemi.call_ok ..⟩, Shmemi.call_phase ..⟩

end SiCortex

variable {T : Type} [DecidableEq T] [DecidableEq A] [DecidableEq B]

/-- The calls take effect at one point of their code, with the effect of the lock-based operation. -/
theorem SiCortex.takesEffect (size : SizeofVoidP) (war : Bool) :
    TakesEffect (SiCortex.object size war T A B) byLock Linked.mem
      (AssemblyOk (fun op => (llscCode op).rmw) SiCortex.phase fun op => SiCortex.Ok war _ (llscCode op).rmw.onValue)
      fun pc => (SiCortex.phase pc.1 pc.2).result := by
  have hspec : (fun m (op : Op size.bits A B) => (llscCode op).rmw.atOnce m) = byLock := by
    funext m op
    exact llscCode_atOnce m op
  rw [← hspec]
  exact assembly_takesEffect SiCortex.next (SiCortex.start size war) _ _ _ (fun op => SiCortex.follows _ _)
    SiCortex.start_ok

/-- On SiCortex the operations, instruction by instruction, are linearizable to the lock-based ones in one step, for
pointers of 4 and of 8 bytes and with or without the workaround: for any number of threads, any calls on any
cells, any interleaving and any spurious failures of `sc`, the calls that have returned, with some under way whose
effect is already in memory, can be put in an order that respects real time, in which each has the return value
and the effect of the operation in one step, and the contents agree. -/
theorem sicortex_linearizable (size : SizeofVoidP) (war : Bool) (u : Linked T (Loc A B) (Val size.bits))
    (as : List (SystemAct T (Op size.bits A B)))
    (s : System T (Linked T (Loc A B) (Val size.bits)) (Σ l : Loc A B, SiCortex.Pc size A B l) (Op size.bits A B)
      (Ret size.bits))
    (h : run (systemStep (SiCortex.object size war T A B)) (System.init u) as = some s) :
    ∃ pending order, LinearizesNow byLock u.mem s.shared.mem s pending order := by
  exact (SiCortex.takesEffect size war).linearizes (fun _ _ _ hnone => nomatch hnone) h

/-- On a cell with -1 one thread adds 1, its store fails once, and it starts anew. The other one tries to replace 7,
takes the branch out and returns -1, with the `move` of the delay slot done. -/
def sicortexActs : List (SystemAct Bool (Op 32 Bool Bool)) :=
  [.call true (.storeInt true (-1)), .step true false, .step true false, .call false (.casInt true 7 9),
    .call true (.fetchAndAddInt true 1), .step true false, .step true false, .step true true, .step true false,
    .step false false, .step false false, .step false false, .step false false, .step true false, .step true false,
    .step true false, .step true false]

theorem sicortex_linearizable_demo : ∃ s pending order,
    run (systemStep (SiCortex.object .four false Bool Bool Bool)) (System.init ⟨zeroCells, fun _ _ => false⟩)
      sicortexActs = some s ∧
    s.shared.mem (.int true) = 0#32 ∧ s.done.map (·.ret) = [.void, .int (-1)] ∧
    LinearizesNow byLock zeroCells s.shared.mem s pending order := by
  have h : (run (systemStep (SiCortex.object .four false Bool Bool Bool)) (System.init ⟨zeroCells, fun _ _ => false⟩)
      sicortexActs).map (fun s => ((s.shared.mem (.int true) : BitVec 32), s.done.map (·.ret))) =
        some (0#32, [.void, .int (-1)]) := by rfl
  obtain ⟨s, hs, hd⟩ := Option.map_eq_some_iff.1 h
  obtain ⟨hmem, hdone⟩ := Prod.mk.inj hd
  obtain ⟨pending, order, ho⟩ := sicortex_linearizable .four false ⟨zeroCells, fun _ _ => false⟩ sicortexActs s hs
  exact ⟨s, pending, order, hs, hmem, hdone, ho⟩

end OpenPA.Atomic
