/-
The operations of the PowerPC and ARM ports (`opa_gcc_ppc.h`, `opa_gcc_arm.h`) instruction by instruction: the
loops of `opa_emulated.h` around the inline assembly of `OPA_LL` and `OPA_SC`. `stwcx.` says in a condition bit
whether it stored, and `OPA_SC` makes a return value of it with a branch; `strex` says it in a register, 0 for
success, which `OPA_SC` negates. Either way a call goes on after the access with which it took effect, and
either port is linearizable to the operations of `opa_by_lock.h` (`llsc_port_linearizable`).
-/
import OpenPA.Atomic.ByLlsc
import OpenPA.Machine.Assembly

namespace OpenPA.Atomic

open OpenPA.Machine

variable {w : Nat} {A B V R : Type}

/-! ## `OPA_SC` -/

/-- What follows the store instruction of `OPA_SC`: the code's states, the one after the instruction has stored
or not, and its steps up to the return value. It returns non-zero if the store was successful, zero otherwise. -/
structure StoreConditional where
  State : Type
  stored : Bool → State
  next : State → State ⊕ BitVec 32
  ret : State → BitVec 32
  next_ret : ∀ q, (next q).elim ret id = ret q
  ret_ne_zero : ∀ b, ret (stored b) ≠ 0 ↔ b = true

/-- `beq 1f; li %[ret], 0; 1:`, with the equal bit of the condition register -/
inductive PpcSc where
  | beq (ret : BitVec 32) (eq : Bool)
  | li (ret : BitVec 32)
  | label (ret : BitVec 32)

def PpcSc.next : PpcSc → PpcSc ⊕ BitVec 32
  | .beq ret eq => .inl (if eq then .label ret else .li ret)
  | .li _ => .inl (.label 0)
  | .label ret => .inr ret

/-- `ret` is initialized to 1, and reset to 0 unless `stwcx.` has set the equal bit. -/
def ppcSc : StoreConditional where
  State := PpcSc
  stored eq := .beq 1 eq
  next := PpcSc.next
  ret
    | .beq ret eq => if eq then ret else 0
    | .li _ => 0
    | .label ret => ret
  next_ret := by
    rintro (⟨ret, _ | _⟩ | ret | ret) <;> rfl
  ret_ne_zero := by decide

/-- `strex` writes 0 to `ret` on success, and the function returns `!ret`. -/
def armSc : StoreConditional where
  State := BitVec 32
  stored b := if b then 0 else 1
  next ret := .inr (if ret = 0 then 1 else 0)
  ret ret := if ret = 0 then 1 else 0
  next_ret _ := rfl
  ret_ne_zero := by decide

/-! ## The loops -/

/-- Where the code is: before a step of a loop
`do { prev = OPA_LL(ptr); } while (cond(prev) && !OPA_SC(ptr, new(prev))); return ret(prev);` -/
inductive LoopPc (sc : StoreConditional) (V R : Type) where
  | ll (p : OnValue V R)
  | test (p : OnValue V R) (prev : V)
  | sc (p : OnValue V R) (prev : V)
  | inSc (p : OnValue V R) (prev : V) (q : sc.State)
  | again (p : OnValue V R) (prev : V) (ret : BitVec 32)
  | done (r : R)

namespace LoopPc

variable {sc : StoreConditional}

def next : LoopPc sc V R → Instr V (LoopPc sc V R) R
  | .ll p => .ll fun prev => .test p prev
  | .test p prev => .tau (if p.cond prev then .sc p prev else .done (p.ret prev))
  | .sc p prev => .sc (p.new prev) fun b => .inSc p prev (sc.stored b)
  | .inSc p prev q =>
    match sc.next q with
    | .inl q' => .tau (.inSc p prev q')
    | .inr ret => .tau (.again p prev ret)
  | .again p prev ret => .tau (if ret ≠ 0 then .done (p.ret prev) else .ll p)
  | .done r => .ret r

def phase : LoopPc sc V R → Phase V R
  | .ll _ => .fresh
  | .test p prev => if p.cond prev then .read prev else .took (p.ret prev)
  | .sc _ prev => .read prev
  | .inSc p prev q => if sc.ret q ≠ 0 then .took (p.ret prev) else .fresh
  | .again p prev ret => if ret ≠ 0 then .took (p.ret prev) else .fresh
  | .done r => .took r

end LoopPc

/-- The code is that of the operation. -/
def LoopOk {sc : StoreConditional} (p : OnValue V R) : LoopPc sc V R → Prop
  | .ll p' | .test p' _ | .inSc p' _ _ | .again p' _ _ => p' = p
  | .sc p' prev => p' = p ∧ p.cond prev = true
  | .done _ => True

theorem loop_follows (sc : StoreConditional) (p : OnValue V R) :
    Follows p LoopPc.next LoopPc.phase (LoopOk p : LoopPc sc V R → Prop) := by
  intro q hq
  cases q with
  | ll p' =>
    replace hq : p' = p := hq
    subst hq
    exact fun v => ⟨rfl, .inr rfl⟩
  | test p' prev =>
    replace hq : p' = p := hq
    subst hq
    rw [LoopPc.phase, LoopPc.next]
    by_cases hcond : p'.cond prev = true
    · rw [if_pos hcond, if_pos hcond]
      exact ⟨⟨rfl, hcond⟩, rfl⟩
    · rw [if_neg hcond, if_neg hcond]
      exact ⟨trivial, rfl⟩
  | sc p' prev =>
    obtain ⟨rfl, hcond⟩ := hq
    refine ⟨rfl, hcond, ⟨rfl, ?_⟩, rfl, ?_⟩
    · exact if_pos ((sc.ret_ne_zero true).2 rfl)
    · exact if_neg fun h => nomatch (sc.ret_ne_zero false).1 h
  | inSc p' prev q =>
    replace hq : p' = p := hq
    subst hq
    -- the code of the store-conditional goes on to what it is to return
    have hret := sc.next_ret q
    rw [LoopPc.phase, LoopPc.next]
    rcases hn : sc.next q with q' | ret
    · rw [hn] at hret
      replace hret : sc.ret q' = sc.ret q := hret
      rw [← hret]
      split
      · rename_i hne
        exact ⟨rfl, if_pos hne⟩
      · rename_i hne
        exact ⟨rfl, if_neg hne⟩
    · rw [hn] at hret
      replace hret : ret = sc.ret q := hret
      rw [← hret]
      split
      · rename_i hne
        exact ⟨rfl, if_pos hne⟩
      · rename_i hne
        exact ⟨rfl, if_neg hne⟩
  | again p' prev ret =>
    replace hq : p' = p := hq
    subst hq
    rw [LoopPc.phase, LoopPc.next]
    split
    · exact ⟨trivial, rfl⟩
    · exact ⟨rfl, rfl⟩
  | done r => rfl

/-! ## The operations -/

/-- Where a call on a cell can be. -/
abbrev LlscPortPc (sc : StoreConditional) (w : Nat) (l : Loc A B) :=
  PlainOr (LoopPc sc (Val w l) (Ret w)) (Val w l) (Ret w)

/-- Where the code of each operation starts. -/
def llscStart (sc : StoreConditional) (op : Op w A B) : Σ l : Loc A B, LlscPortPc sc w l :=
  match op with
  | .loadInt ptr => ⟨.int ptr, .load .int⟩
  | .storeInt ptr val => ⟨.int ptr, .store val .void⟩
  | .loadPtr ptr => ⟨.ptr ptr, .load .ptr⟩
  | .storePtr ptr val => ⟨.ptr ptr, .store val .void⟩
  | op => ⟨(llscCode op).rmw.cell, .code (.ll (llscCode op).rmw.onValue)⟩

theorem llscStart_ok (sc : StoreConditional) (op : Op w A B) :
    ∃ q, llscStart sc op = ⟨(llscCode op).rmw.cell, q⟩ ∧
      PlainOr.Ok (llscCode op).rmw.onValue (LoopOk (llscCode op).rmw.onValue) q ∧
      q.phase LoopPc.phase = .fresh := by
  cases op with
  | loadInt ptr => exact ⟨.load .int, rfl, fun _ => ⟨rfl, rfl⟩, rfl⟩
  | storeInt ptr val => exact ⟨.store val .void, rfl, fun _ => ⟨rfl, rfl, rfl⟩, rfl⟩
  | loadPtr ptr => exact ⟨.load .ptr, rfl, fun _ => ⟨rfl, rfl⟩, rfl⟩
  | storePtr ptr val => exact ⟨.store val .void, rfl, fun _ => ⟨rfl, rfl, rfl⟩, rfl⟩
  | _ => exact ⟨_, rfl, rfl, rfl⟩

/-- The ports that define `OPA_LL_SC_SUPPORTED`. -/
inductive LlscPort where
  | ppc
  | arm

def LlscPort.sc : LlscPort → StoreConditional
  | .ppc => ppcSc
  | .arm => armSc

/-- The operations of a port, instruction by instruction. -/
def LlscPort.object (port : LlscPort) (T : Type) [DecidableEq T] [DecidableEq A] [DecidableEq B] :
    Object T (Linked T (Loc A B) (Val w)) (Σ l : Loc A B, LlscPortPc port.sc w l) (Op w A B) (Ret w) :=
  assemblyObject (fun _ => PlainOr.next LoopPc.next) (llscStart port.sc)

variable {T : Type} [DecidableEq T] [DecidableEq A] [DecidableEq B]

/-- The calls take effect at one point of their code, with the effect of the lock-based operation. -/
theorem LlscPort.takesEffect (port : LlscPort) :
    TakesEffect (port.object (w := w) (A := A) (B := B) T) byLock Linked.mem
      (AssemblyOk (fun op : Op w A B => (llscCode op).rmw) (fun _ => PlainOr.phase LoopPc.phase)
        fun op => PlainOr.Ok (llscCode op).rmw.onValue (LoopOk (llscCode op).rmw.onValue))
      fun pc => (PlainOr.phase LoopPc.phase pc.2).result := by
  have hspec : (fun m (op : Op w A B) => (llscCode op).rmw.atOnce m) = byLock := by
    funext m op
    exact llscCode_atOnce m op
  rw [← hspec]
  exact assembly_takesEffect (fun _ => PlainOr.next LoopPc.next) (llscStart port.sc)
    (fun op : Op w A B => (llscCode op).rmw) _ _
    (fun op => (loop_follows port.sc (llscCode op).rmw.onValue).plainOr) (llscStart_ok port.sc)

/-- On PowerPC and on ARM the operations, instruction by instruction, are linearizable to the lock-based ones in
one step: for any number of threads, any calls on any cells, any interleaving and any spurious failures of the
store instruction, the calls that have returned, with some under way whose effect is already in memory, can be
put in an order that respects real time, in which each has the return value and the effect of the operation in
one step, and the contents agree. -/
theorem llsc_port_linearizable (port : LlscPort) (u : Linked T (Loc A B) (Val w)) (as : List (SystemAct T (Op w A B)))
    (s : System T (Linked T (Loc A B) (Val w)) (Σ l : Loc A B, LlscPortPc port.sc w l) (Op w A B) (Ret w))
    (h : run (systemStep (port.object T)) (System.init u) as = some s) :
    ∃ pending order, LinearizesNow byLock u.mem s.shared.mem s pending order := by
  exact (port.takesEffect (T := T)).linearizes (fun _ _ _ hnone => nomatch hnone) h

/-- Two threads add 5 and 7 to a cell on PowerPC. The store of the first one fails, because that of the second one
was in between: it branches to `li`, starts anew and stores. Both stores are in memory, and neither call has
returned. -/
def ppcActs : List (SystemAct Bool (Op 8 Bool Bool)) :=
  [.call true (.fetchAndAddInt true 5), .step true false, .step true false, .call false (.fetchAndAddInt true 7),
    .step false false, .step false false, .step false false, .step true false, .step true false, .step true false,
    .step true false, .step true false, .step true false, .step true false, .step true false]

theorem llsc_port_linearizable_demo : ∃ s pending order,
    run (systemStep (LlscPort.ppc.object Bool)) (System.init ⟨zeroCells, fun _ _ => false⟩) ppcActs = some s ∧
    s.shared.mem (.int true) = 12#32 ∧ s.done.length = 0 ∧
    LinearizesNow byLock zeroCells s.shared.mem s pending order := by
  have h : (run (systemStep (LlscPort.ppc.object Bool)) (System.init ⟨zeroCells, fun _ _ => false⟩) ppcActs).map
      (fun s => ((s.shared.mem (.int true) : BitVec 32), s.done.length)) = some (12#32, 0) := by decide
  obtain ⟨s, hs, hd⟩ := Option.map_eq_some_iff.1 h
  obtain ⟨hmem, hdone⟩ := Prod.mk.inj hd
  obtain ⟨pending, order, ho⟩ := llsc_port_linearizable .ppc ⟨zeroCells, fun _ _ => false⟩ ppcActs s hs
  exact ⟨s, pending, order, hs, hmem, hdone, ho⟩

end OpenPA.Atomic
