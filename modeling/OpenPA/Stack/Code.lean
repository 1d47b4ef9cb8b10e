/-
The shared stack of `test_primitives.c`: the push and the pop routine of `test_threaded_llsc_int_stack`, one
iteration of their main loops as one call. Objects are named by their index, -1 being `none`; in the pointer
version of the test they are named by their address, with NULL for `none`, and nothing else differs.

Every load, store, load-link and store-conditional is a step of its own; both compare-and-swaps are the loops of
`opa_emulated.h`. The loops' tests of `failed` and `npushers` only end the runs and are left out, as is the
limit on the number of attempts to acquire an object: a thread makes its next call, or does not, at any time.
-/
import OpenPA.Machine.Retry

namespace OpenPA.Stack

open OpenPA.Machine

variable {T O : Type}

/-- The cells: `head`, the `next` and `on_stack` fields of the objects, and `failed`. -/
inductive Loc (O : Type) where
  | head
  | next (obj : O)
  | onStack (obj : O)
  | failed
  deriving DecidableEq

def Val (O : Type) : Loc O → Type
  | .head | .next _ => Option O
  | .onStack _ | .failed => BitVec 32

instance [DecidableEq O] : (l : Loc O) → DecidableEq (Val O l)
  | .head | .next _ => inferInstanceAs (DecidableEq (Option O))
  | .onStack _ | .failed => inferInstanceAs (DecidableEq (BitVec 32))

abbrev Memory (O : Type) := (l : Loc O) → Val O l

namespace Memory

def head (m : Memory O) : Option O := m .head

def next (m : Memory O) (obj : O) : Option O := m (.next obj)

def onStack (m : Memory O) (obj : O) : BitVec 32 := m (.onStack obj)

end Memory

/-- A store-conditional that gave `head` its new value. -/
inductive Event (O : Type) where
  | push (obj : O)
  | pop (obj : O)

/-- The cells, what has been done to the stack in order, and each thread's counts. -/
structure State (T O : Type) where
  cells : Linked T (Loc O) (Val O)
  log : List (T × Event O)
  nsuccess : T → Nat
  nerrors : T → Nat

/-- No object is on the stack. -/
def emptyCells : Memory O
  | .head | .next _ => none
  | .onStack _ | .failed => 0#32

/-- The state when the threads are launched, with whatever reservations they have. -/
def State.init (valid : T → Loc O → Bool) : State T O := ⟨⟨emptyCells, valid⟩, [], fun _ => 0, fun _ => 0⟩

/-- An iteration of `threaded_llsc_int_stack_push` for an object, or of `threaded_llsc_int_stack_pop`. -/
inductive Op (O : Type) where
  | push (obj : O)
  | pop

/-- How an iteration ends. -/
inductive Ret (O : Type) where
  /-- the object is not free -/
  | busy
  | pushed
  /-- `head` was -1 -/
  | empty
  /-- `OPA_SC_int` failed -/
  | failed
  | popped (obj : O)
  /-- too many errors -/
  | stopped

section

variable [DecidableEq O]

/-- `OPA_cas_int(&obj->on_stack, 0, 1)` -/
def acquireCas (obj : O) : Rmw (Loc O) (Val O) (BitVec 32) := Rmw.cas (V := Val O) (.onStack obj) 0#32 1#32

/-- `OPA_cas_int(udata->head, tmp_head, udata->obj)` -/
def pushCas (tmp_head : Option O) (obj : O) : Rmw (Loc O) (Val O) (Option O) :=
  Rmw.cas (V := Val O) .head tmp_head (some obj)

end

/-- The next access of an iteration, with its local variables. -/
inductive Pc (O : Type) where
  | acquire (obj : O) (cas : LlscPc (Loc O) (Val O) (BitVec 32))
  | loadHead (obj : O)
  | storeNext (obj : O) (tmp_head : Option O)
  | casHead (obj : O) (tmp_head : Option O) (cas : LlscPc (Loc O) (Val O) (Option O))
  | llHead
  | loadNext (obj : O)
  | scHead (obj : O) (tmp_obj : Option O)
  | checkOnStack (obj : O)
  | storeFailed
  | release (obj : O)

variable [DecidableEq T] [DecidableEq O]

namespace State

def done (s : State T O) (t : T) (e : Event O) : State T O := { s with log := s.log ++ [(t, e)] }

def success (s : State T O) (t : T) : State T O :=
  { s with nsuccess := Function.update s.nsuccess t (s.nsuccess t + 1) }

def error (s : State T O) (t : T) : State T O :=
  { s with nerrors := Function.update s.nerrors t (s.nerrors t + 1) }

end State

def Pc.access (t : T) (spurious : Bool) : Pc O → State T O → State T O × (Pc O ⊕ Ret O)
  -- while(OPA_cas_int(&obj->on_stack, 0, 1))
  | .acquire obj cas, s =>
    let r := cas.access t spurious s.cells
    ({ s with cells := r.1 },
      match r.2 with
      | .inl cas' => .inl (.acquire obj cas')
      | .inr prev => if prev ≠ 0#32 then .inr .busy else .inl (.loadHead obj))
  -- tmp_head = OPA_load_int(udata->head);
  | .loadHead obj, s => (s, .inl (.storeNext obj (Memory.head s.cells.mem)))
  -- OPA_store_int(&obj->next, tmp_head);
  | .storeNext obj tmp_head, s =>
    ({ s with cells := s.cells.write t (.next obj) tmp_head }, .inl (.casHead obj tmp_head (.ll (pushCas tmp_head obj))))
  -- while(tmp_head != OPA_cas_int(udata->head, tmp_head, udata->obj));
  | .casHead obj tmp_head cas, s =>
    let r := cas.access t spurious s.cells
    match r.2 with
    | .inl cas' => ({ s with cells := r.1 }, .inl (.casHead obj tmp_head cas'))
    | .inr prev =>
      if tmp_head ≠ prev then ({ s with cells := r.1 }, .inl (.loadHead obj))
      else ((({ s with cells := r.1 } : State T O).done t (.push obj)).success t, .inr .pushed)
  -- if(-1 == (tmp_obj = OPA_LL_int(udata->head)))
  | .llHead, s =>
    let r := s.cells.ll t .head
    ({ s with cells := r.2 },
      match (r.1 : Option O) with
      | none => .inr .empty
      | some obj => .inl (.loadNext obj))
  -- tmp_obj = OPA_load_int(&obj->next);
  | .loadNext obj, s => (s, .inl (.scHead obj (Memory.next s.cells.mem obj)))
  -- if(OPA_SC_int(udata->head, tmp_obj))
  | .scHead obj tmp_obj, s =>
    let r := s.cells.sc t .head tmp_obj spurious
    if r.1 then (({ s with cells := r.2 } : State T O).done t (.pop obj), .inl (.checkOnStack obj))
    else ({ s with cells := r.2 }, .inr .failed)
  -- if(!OPA_load_int(&obj->on_stack))
  | .checkOnStack obj, s =>
    if Memory.onStack s.cells.mem obj = 0#32 then
      (s.error t, if (s.error t).nerrors t ≥ 1000000 then .inl .storeFailed else .inl (.release obj))
    else (s, .inl (.release obj))
  -- OPA_store_int(udata->failed, 1);
  | .storeFailed, s => ({ s with cells := s.cells.write t .failed 1#32 }, .inr .stopped)
  -- OPA_store_int(&obj->on_stack, 0);
  | .release obj, s =>
    (({ s with cells := s.cells.write t (.onStack obj) 0#32 } : State T O).success t, .inr (.popped obj))

/-- The stack, as the threads of the test use it. -/
def stackObject : Object T (State T O) (Pc O) (Op O) (Ret O) where
  start
    | .push obj => .acquire obj (.ll (acquireCas obj))
    | .pop => .llHead
  access := Pc.access

abbrev StackSystem (T O : Type) := System T (State T O) (Pc O) (Op O) (Ret O)

/-- Where thread `t` is. -/
def pcs (s : StackSystem T O) (t : T) : Option (Pc O) := (s.running t).map (·.pc)

end OpenPA.Stack
