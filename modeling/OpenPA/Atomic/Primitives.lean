/-
The operations of `opa_primitives.h` as every port has them: an object for their calls that takes effect as
`opa_by_lock.h` does in one step, from any contents. What a client relies on follows from this alone: what every call
in one step keeps holds on every port (`Primitives.invariant`), and when no call is under way those that have returned
are legal in some order (`Primitives.order`). `opa_unsafe.h` is not among the ports, nor is `opa_gcc_ia64.h`, whose
fetch-and-add of most addends and whose swap are not these operations.
-/
import OpenPA.Atomic.Intel
import OpenPA.Atomic.Intrinsics
import OpenPA.Atomic.LlscPorts
import OpenPA.Atomic.Locked
import OpenPA.Atomic.SiCortex
import OpenPA.Machine.Client
import OpenPA.Machine.Emulate

namespace OpenPA.Atomic

open OpenPA.Machine

variable {w : Nat} {A B T C : Type} [DecidableEq A] [DecidableEq B]

/-! ## What an operation returns, and the cells after it -/

def Ret.asInt : Ret w → Option (BitVec 32)
  | .int v => some v
  | _ => none

def Ret.asPtr : Ret w → Option (BitVec w)
  | .ptr v => some v
  | _ => none

/-- The value of an `OPA_ptr_t`. -/
def ptrAt (ptr : B) (m : Cells w A B) : BitVec w := m (.ptr ptr)

section

variable {R : Type} (m : Cells w A B) {l : Loc A B} (f : Val w l → Val w l × R) (ret : R → Ret w)

theorem atCell_self : (atCell m l f ret).1 l = (f (m l)).1 := Function.update_self ..

theorem atCell_ne {l' : Loc A B} (h : l' ≠ l) : (atCell m l f ret).1 l' = m l' := Function.update_of_ne h ..

end

theorem intAt_atCell {R : Type} (ptr ptr' : A) (m : Cells w A B) (f : BitVec 32 → BitVec 32 × R) (ret : R → Ret w) :
    intAt ptr (atCell m (.int ptr') f ret).1 = if ptr' = ptr then (f (intAt ptr m)).1 else intAt ptr m := by
  by_cases h : ptr' = ptr
  · subst h
    rw [if_pos rfl]
    exact atCell_self m (l := .int ptr') f ret
  · rw [if_neg h]
    exact atCell_ne m (l := .int ptr') f ret fun heq => h (Loc.int.inj heq).symm

theorem intAt_atCell_ptr {R : Type} (ptr : A) (ptr' : B) (m : Cells w A B) (f : BitVec w → BitVec w × R)
    (ret : R → Ret w) : intAt ptr (atCell m (.ptr ptr') f ret).1 = intAt ptr m :=
  atCell_ne m (l := .ptr ptr') f ret nofun

/-! ## Ports -/

variable [DecidableEq T]

/-- The operations on a machine, and how each of their calls takes effect. -/
structure Primitives (T : Type) [DecidableEq T] (w : Nat) (A B : Type) [DecidableEq A] [DecidableEq B] where
  State : Type
  Pc : Type
  object : Object T State Pc (Op w A B) (Ret w)
  mem : State → Cells w A B
  init : Cells w A B → State
  Ok : State → T → Option (Op w A B × Pc) → Prop
  took : Pc → Option (Ret w)
  takesEffect : TakesEffect object byLock mem Ok took
  init_ok : ∀ m t, Ok (init m) t none
  mem_init : ∀ m, mem (init m) = m

namespace Primitives

/-- The emulation by load-link and store-conditional (`opa_emulated.h`). -/
def llsc : Primitives T w A B where
  State := Linked T (Loc A B) (Val w)
  Pc := LlscPc (Loc A B) (Val w) (Ret w)
  object := llscObject llscCode
  mem := Linked.mem
  init m := ⟨m, fun _ _ => false⟩
  Ok s t x := ∀ op p, x = some (op, p) → LlscOk llscCode s t op p
  took _ := none
  takesEffect := by
    have hspec : (fun m (op : Op w A B) => (llscCode op).rmw.atOnce m) = byLock := by
      funext m op
      exact llscCode_atOnce m op
    have hlast := llsc_lastAccess (T := T) (llscCode (w := w) (A := A) (B := B))
    rw [hspec] at hlast
    exact hlast.takesEffect
  init_ok _ _ _ _ hnone := nomatch hnone
  mem_init _ := rfl

/-- The calls with swap and fetch-and-add by compare-and-swap. -/
def casOp : Op w A B → CasOp w A B
  | .fetchAndAddInt ptr val => .fetchAndAddIntByCas ptr val
  | .swapPtr ptr val => .swapPtrByCas ptr val
  | .swapInt ptr val => .swapIntByCas ptr val
  | op => .atomic op

/-- A machine with compare-and-swap, with swap and fetch-and-add emulated by it (`opa_emulated.h`). -/
def cas : Primitives T w A B where
  State := Cells w A B
  Pc := CasPc (Loc A B) (Val w) (Ret w)
  object := (casObject casCode).comap casOp
  mem := id
  init := id
  Ok _ _ x := ∀ op p, x = some (op, p) → CasOk casCode (casOp op) p
  took _ := none
  takesEffect := by
    have hspec : (fun m (op : Op w A B) => (casCode (casOp op)).rmw.atOnce m) = byLock := by
      funext m op
      rw [casCode_atOnce]
      cases op <;> rfl
    have hlast := cas_lastAccess (T := T) (fun op : Op w A B => casCode (casOp op)) fun op => casCode_loop (casOp op)
    rw [hspec] at hlast
    exact hlast.takesEffect
  init_ok _ _ _ _ hnone := nomatch hnone
  mem_init _ := rfl

/-- The atomic functions of a compiler or a system. -/
def intrinsics (port : IntrinsicPort) : Primitives T w A B where
  State := Cells w A B
  Pc := CasPc (Loc A B) (Val w) (Ret w)
  object := casObject port.code
  mem := id
  init := id
  Ok _ _ x := ∀ op p, x = some (op, p) → CasOk port.code op p
  took _ := none
  takesEffect := port.lastAccess.takesEffect
  init_ok _ _ _ _ hnone := nomatch hnone
  mem_init _ := rfl

/-- PowerPC and ARM, instruction by instruction. -/
def llscPort (port : LlscPort) : Primitives T w A B where
  State := Linked T (Loc A B) (Val w)
  Pc := Σ l : Loc A B, LlscPortPc port.sc w l
  object := port.object T
  mem := Linked.mem
  init m := ⟨m, fun _ _ => false⟩
  Ok := _
  took := _
  takesEffect := port.takesEffect
  init_ok _ _ _ _ hnone := nomatch hnone
  mem_init _ := rfl

/-- x86, instruction by instruction. -/
def intel : Primitives T w A B where
  State := Linked T (Loc A B) (Val w)
  Pc := _
  object := Intel.object w T A B
  mem := Linked.mem
  init m := ⟨m, fun _ _ => false⟩
  Ok := _
  took := _
  takesEffect := Intel.takesEffect
  init_ok _ _ _ _ hnone := nomatch hnone
  mem_init _ := rfl

/-- SiCortex, instruction by instruction. -/
def sicortex (size : SizeofVoidP) (war : Bool) : Primitives T size.bits A B where
  State := Linked T (Loc A B) (Val size.bits)
  Pc := _
  object := SiCortex.object size war T A B
  mem := Linked.mem
  init m := ⟨m, fun _ _ => false⟩
  Ok := _
  took := _
  takesEffect := SiCortex.takesEffect size war
  init_ok _ _ _ _ hnone := nomatch hnone
  mem_init _ := rfl

/-- The lock, access by access (`opa_by_lock.h`). -/
def lock : Primitives T w A B where
  State := Mutexed T (Loc A B) (Val w)
  Pc := SectionPc (Loc A B) (Val w) (Ret w)
  object := sectionObject lockCode
  mem := Mutexed.mem
  init m := ⟨m, none⟩
  Ok := SectionOk lockCode fun _ => true
  took := SectionPc.took
  takesEffect := by
    have hspec : (fun m (op : Op w A B) => (lockCode op).atOnce m) = byLock := by
      funext m op
      exact lockCode_atOnce m op
    have heffect := section_takesEffect (T := T) (lockCode_disciplined (w := w) (A := A) (B := B))
    rw [hspec] at heffect
    exact heffect
  init_ok m t := SectionOk.init m t
  mem_init _ := rfl

variable (P : Primitives T w A B)

/-- What every call of a client in one step keeps holds of the client on every port. -/
theorem invariant {K : Client T (Op w A B) (Ret w) C} {I : Clients (Cells w A B) T C → Prop}
    (hI : ∀ v t v', I v → callStep K byLock v t = some v' → I v') {m : Cells w A B} {own : T → C}
    (hstart : I ⟨m, own⟩) {as : List (T × Bool)} {s : Served T P.State P.Pc (Op w A B) C}
    (hrun : run (servedStep K P.object) (Served.init (P.init m) own) as = some s) :
    I (s.atOnce K P.mem P.took) := by
  apply Client.invariant P.takesEffect hI (P.init_ok m) _ hrun
  rw [P.mem_init]
  exact hstart

/-- When no call is under way, the calls that have returned are a linearization. -/
theorem order {m : Cells w A B} {as : List (SystemAct T (Op w A B))} {s : System T P.State P.Pc (Op w A B) (Ret w)}
    (hrun : run (systemStep P.object) (System.init (P.init m)) as = some s) (hidle : ∀ t, s.running t = none) :
    ∃ order, Linearizes byLock m (P.mem s.shared) s.done order := by
  obtain ⟨pending, order, ho⟩ := P.takesEffect.linearizes (P.init_ok m) hrun
  rw [P.mem_init] at ho
  exact ⟨order, ho.of_idle hidle⟩

end Primitives

end OpenPA.Atomic
