/-
The stack is safe against ABA (`stack_aba_safe`): in every reachable state it is laid out from `head` over
distinct objects, they are the ones pushed and not popped since, and a popper finds its object marked.

`Shape` is the invariant of the cells and of the threads' local variables. An object is on the stack, or held by
the one thread that has acquired or popped it and alone may write its `next` field, or free; so while a popper's
reservation of `head` is valid, the object it read there is still on the stack and its `next` field is
the one it read. What the store-conditionals do is a history of a stack (`Replays`).
-/
import OpenPA.Machine.Path
import OpenPA.Stack.Code
import Mathlib.Data.List.Basic

namespace OpenPA.Stack

open OpenPA.Machine

variable {T O : Type}

/-! ## Histories of a stack -/

/-- The pushes and pops of a log, done one after another on an empty stack of distinct objects, leave `st`. -/
inductive Replays : List (T × Event O) → List O → Prop where
  | nil : Replays [] []
  | push {log : List (T × Event O)} {st : List O} (t : T) {obj : O} (h : Replays log st) (hobj : obj ∉ st) :
    Replays (log ++ [(t, .push obj)]) (obj :: st)
  | pop {log : List (T × Event O)} {st : List O} (t : T) {obj : O} (h : Replays log (obj :: st)) :
    Replays (log ++ [(t, .pop obj)]) st

/-- The object has been pushed, and not popped since. -/
def Pushed (log : List (T × Event O)) (obj : O) : Prop :=
  ∃ t before after, log = before ++ (t, .push obj) :: after ∧ ∀ t', (t', Event.pop obj) ∉ after

def Event.isPush : Event O → Bool
  | .push _ => true
  | .pop _ => false

/-- The number of pushes. -/
def pushes (log : List (T × Event O)) : Nat := log.countP (·.2.isPush)

/-- The number of pops. -/
def pops (log : List (T × Event O)) : Nat := log.countP (!·.2.isPush)

@[simp] theorem pushes_push {log : List (T × Event O)} {t : T} {obj : O} :
    pushes (log ++ [(t, .push obj)]) = pushes log + 1 := by
  simp [pushes, Event.isPush, List.countP_append]

@[simp] theorem pushes_pop {log : List (T × Event O)} {t : T} {obj : O} :
    pushes (log ++ [(t, .pop obj)]) = pushes log := by
  simp [pushes, Event.isPush, List.countP_append]

@[simp] theorem pops_push {log : List (T × Event O)} {t : T} {obj : O} :
    pops (log ++ [(t, .push obj)]) = pops log := by
  simp [pops, Event.isPush, List.countP_append]

@[simp] theorem pops_pop {log : List (T × Event O)} {t : T} {obj : O} :
    pops (log ++ [(t, .pop obj)]) = pops log + 1 := by
  simp [pops, Event.isPush, List.countP_append]

theorem snoc_eq_append_cons {α : Type} {l before after : List α} {a b : α} (h : l ++ [a] = before ++ b :: after) :
    (after = [] ∧ l = before ∧ a = b) ∨ ∃ after', after = after' ++ [a] ∧ l = before ++ b :: after' := by
  rcases List.eq_nil_or_concat after with rfl | ⟨after', c, rfl⟩
  · left
    obtain ⟨hl, hab⟩ := List.append_inj' h rfl
    exact ⟨rfl, hl, List.singleton_inj.1 hab⟩
  · right
    rw [List.concat_eq_append, ← List.cons_append, ← List.append_assoc] at h
    obtain ⟨hl, hac⟩ := List.append_inj' h rfl
    rw [List.singleton_inj.1 hac]
    exact ⟨after', List.concat_eq_append, hl⟩

theorem pushed_push {log : List (T × Event O)} {t : T} {obj o : O} :
    Pushed (log ++ [(t, .push obj)]) o ↔ o = obj ∨ Pushed log o := by
  constructor
  · rintro ⟨t', before, after, heq, hpop⟩
    rcases snoc_eq_append_cons heq with ⟨-, -, he⟩ | ⟨after', rfl, hlog⟩
    · left
      cases he
      rfl
    · right
      exact ⟨t', before, after', hlog, fun u hu => hpop u (List.mem_append_left _ hu)⟩
  · rintro (rfl | ⟨t', before, after, rfl, hpop⟩)
    · exact ⟨t, log, [], rfl, fun _ => List.not_mem_nil⟩
    · refine ⟨t', before, after ++ [(t, .push obj)], by simp, fun u hu => ?_⟩
      rcases List.mem_append.1 hu with hu | hu
      · exact hpop u hu
      · cases List.mem_singleton.1 hu

theorem pushed_pop {log : List (T × Event O)} {t : T} {obj o : O} :
    Pushed (log ++ [(t, .pop obj)]) o ↔ o ≠ obj ∧ Pushed log o := by
  constructor
  · rintro ⟨t', before, after, heq, hpop⟩
    rcases snoc_eq_append_cons heq with ⟨-, -, he⟩ | ⟨after', rfl, hlog⟩
    · cases he
    · constructor
      · rintro rfl
        exact hpop t (List.mem_append_right _ (List.mem_singleton_self _))
      · exact ⟨t', before, after', hlog, fun u hu => hpop u (List.mem_append_left _ hu)⟩
  · rintro ⟨hne, t', before, after, rfl, hpop⟩
    refine ⟨t', before, after ++ [(t, .pop obj)], by simp, fun u hu => ?_⟩
    rcases List.mem_append.1 hu with hu | hu
    · exact hpop u hu
    · cases List.mem_singleton.1 hu
      exact hne rfl

namespace Replays

variable {log : List (T × Event O)} {st : List O}

theorem nodup (h : Replays log st) : st.Nodup := by
  induction h with
  | nil => exact List.nodup_nil
  | push t h hobj ih => exact List.nodup_cons.2 ⟨hobj, ih⟩
  | pop t h ih => exact (List.nodup_cons.1 ih).2

/-- What is on the stack. -/
theorem mem_iff (h : Replays log st) (o : O) : o ∈ st ↔ Pushed log o := by
  induction h with
  | nil =>
    constructor
    · intro ho
      cases ho
    · rintro ⟨t, before, after, heq, -⟩
      simp at heq
  | push t h hobj ih => rw [pushed_push, List.mem_cons, ih]
  | @pop log st t obj h ih =>
    rw [pushed_pop, ← ih, List.mem_cons]
    have hobj : obj ∉ st := (List.nodup_cons.1 h.nodup).1
    constructor
    · intro ho
      refine ⟨?_, .inr ho⟩
      rintro rfl
      exact hobj ho
    · rintro ⟨hne, ho⟩
      exact ho.resolve_left hne

/-- How many are on the stack. -/
theorem length (h : Replays log st) : pops log + st.length = pushes log := by
  induction h with
  | nil => rfl
  | push t h hobj ih =>
    rw [pops_push, pushes_push, List.length_cons]
    omega
  | pop t h ih =>
    rw [List.length_cons] at ih
    rw [pops_pop, pushes_pop]
    omega

end Replays

/-! ## The cells -/

section Cells

variable [DecidableEq O] {m : Memory O} {o : O}

@[simp] theorem head_update_head {v : Option O} : Memory.head (Function.update m .head v) = v :=
  Function.update_self _ _ _

@[simp] theorem head_update_next {v : Option O} : Memory.head (Function.update m (.next o) v) = m.head :=
  Function.update_of_ne (show Loc.head ≠ Loc.next o by simp) _ _

@[simp] theorem head_update_onStack {v : BitVec 32} : Memory.head (Function.update m (.onStack o) v) = m.head :=
  Function.update_of_ne (show Loc.head ≠ Loc.onStack o by simp) _ _

@[simp] theorem next_update_head {v : Option O} : Memory.next (Function.update m .head v) = m.next := by
  funext o'
  exact Function.update_of_ne (show Loc.next o' ≠ Loc.head by simp) _ _

@[simp] theorem next_update_next {v : Option O} :
    Memory.next (Function.update m (.next o) v) = Function.update m.next o v := by
  funext o'
  by_cases ho : o' = o
  · subst ho
    rw [Function.update_self]
    exact Function.update_self _ _ _
  · rw [Function.update_of_ne ho]
    exact Function.update_of_ne (fun h => ho (Loc.next.inj h)) _ _

@[simp] theorem next_update_onStack {v : BitVec 32} : Memory.next (Function.update m (.onStack o) v) = m.next := by
  funext o'
  exact Function.update_of_ne (show Loc.next o' ≠ Loc.onStack o by simp) _ _

@[simp] theorem onStack_update_head {v : Option O} : Memory.onStack (Function.update m .head v) = m.onStack := by
  funext o'
  exact Function.update_of_ne (show Loc.onStack o' ≠ Loc.head by simp) _ _

@[simp] theorem onStack_update_next {v : Option O} : Memory.onStack (Function.update m (.next o) v) = m.onStack := by
  funext o'
  exact Function.update_of_ne (show Loc.onStack o' ≠ Loc.next o by simp) _ _

@[simp] theorem onStack_update_onStack {v : BitVec 32} :
    Memory.onStack (Function.update m (.onStack o) v) = Function.update m.onStack o v := by
  funext o'
  by_cases ho : o' = o
  · subst ho
    rw [Function.update_self]
    exact Function.update_self _ _ _
  · rw [Function.update_of_ne ho]
    exact Function.update_of_ne (fun h => ho (Loc.onStack.inj h)) _ _

end Cells

/-- The stack is laid out from `head` by the `next` fields, over distinct objects that are marked. -/
structure Laid (m : Memory O) (st : List O) : Prop where
  nodup : st.Nodup
  head : m.head = st.head?
  path : Path m.next st
  marked : ∀ obj ∈ st, m.onStack obj = 1#32

/-- Only the objects' own fields matter, and `head`. -/
theorem Laid.congr {m m' : Memory O} {st : List O} (h : Laid m st) (hhead : m'.head = m.head)
    (hnext : ∀ obj ∈ st, m'.next obj = m.next obj) (hmark : ∀ obj ∈ st, m'.onStack obj = m.onStack obj) :
    Laid m' st where
  nodup := h.nodup
  head := hhead.trans h.head
  path := h.path.congr hnext
  marked obj hobj := (hmark obj hobj).trans (h.marked obj hobj)

/-! ## The threads -/

/-- The object that an iteration has acquired or popped. -/
def Pc.holds : Pc O → Option O
  | .loadHead obj | .storeNext obj _ | .casHead obj _ _ | .checkOnStack obj | .release obj => some obj
  | .acquire _ _ | .llHead | .loadNext _ | .scHead _ _ | .storeFailed => none

/-- Thread `t` holds the object. -/
def Owns (p : T → Option (Pc O)) (t : T) (obj : O) : Prop := (p t).bind Pc.holds = some obj

section

variable [DecidableEq O]

/-- What holds of an iteration's local variables. -/
def PointOk (cells : Linked T (Loc O) (Val O)) (t : T) : Pc O → Prop
  | .acquire obj cas => LlscOk Code.loop cells t (acquireCas obj) cas
  | .casHead obj tmp_head cas =>
    Memory.next cells.mem obj = tmp_head ∧ LlscOk Code.loop cells t (pushCas tmp_head obj) cas
  | .loadNext obj => cells.Holds t .head (some obj)
  | .scHead obj tmp_obj =>
    cells.valid t .head = true → Memory.head cells.mem = some obj ∧ Memory.next cells.mem obj = tmp_obj
  | .storeFailed => False
  | .loadHead _ | .storeNext _ _ | .llHead | .checkOnStack _ | .release _ => True

/-- An access of another thread keeps what holds of an iteration, when it leaves alone the `next` fields of the
object that the iteration holds and of the one that `head` led to. -/
theorem PointOk.frame {cells cells' : Linked T (Loc O) (Val O)} {t t' : T} {pc : Pc O} (h : PointOk cells t' pc)
    (hframe : cells.Frame cells' t) (ht : t' ≠ t)
    (hholds : ∀ obj, pc.holds = some obj → Memory.next cells'.mem obj = Memory.next cells.mem obj)
    (hhead : ∀ obj, Memory.head cells.mem = some obj → Memory.next cells'.mem obj = Memory.next cells.mem obj) :
    PointOk cells' t' pc := by
  cases pc with
  | acquire obj cas => exact h.of_holds fun l v hv => hv.frame hframe ht
  | casHead obj tmp_head cas =>
    constructor
    · rw [hholds obj rfl]
      exact h.1
    · exact h.2.of_holds fun l v hv => hv.frame hframe ht
  | loadNext obj => exact Linked.Holds.frame h hframe ht
  | scHead obj tmp_obj =>
    intro hv
    obtain ⟨hvalid, hmem⟩ := hframe t' .head ht hv
    obtain ⟨hobj, hnext⟩ := h hvalid
    constructor
    · exact Eq.trans hmem hobj
    · rw [hhead obj hobj]
      exact hnext
  | _ => exact h

/-- The invariant of the cells and the threads, with the stack that `head` leads to. -/
structure Shape (cells : Linked T (Loc O) (Val O)) (p : T → Option (Pc O)) (st : List O) : Prop where
  laid : Laid cells.mem st
  held : ∀ t obj, Owns p t obj → obj ∉ st ∧ Memory.onStack cells.mem obj = 1#32
  owner : ∀ t t' obj, Owns p t obj → Owns p t' obj → t = t'
  point : ∀ t pc, p t = some pc → PointOk cells t pc

variable [DecidableEq T] {cells cells' : Linked T (Loc O) (Val O)} {p : T → Option (Pc O)} {st st' : List O} {t : T}

/-- An access of `t`, after which it is at `r`: what is to be shown is about the stack, about the objects that
the others hold, and about `t`. -/
theorem Shape.update (h : Shape cells p st) {r : Option (Pc O)} (hframe : cells.Frame cells' t)
    (hlaid : Laid cells'.mem st')
    (hnext : ∀ obj ∈ st, Memory.next cells'.mem obj = Memory.next cells.mem obj)
    (hothers : ∀ t' obj, t' ≠ t → Owns p t' obj → obj ∉ st' ∧ Memory.onStack cells'.mem obj = 1#32 ∧
      Memory.next cells'.mem obj = Memory.next cells.mem obj)
    (hpoint : ∀ pc, r = some pc → PointOk cells' t pc)
    (hholds : ∀ obj, r.bind Pc.holds = some obj → obj ∉ st' ∧ Memory.onStack cells'.mem obj = 1#32 ∧
      ∀ t', t' ≠ t → ¬Owns p t' obj) :
    Shape cells' (Function.update p t r) st' where
  laid := hlaid
  held t' obj ho := by
    by_cases ht : t' = t
    · subst ht
      rw [Owns, Function.update_self] at ho
      obtain ⟨hst, hmark, -⟩ := hholds obj ho
      exact ⟨hst, hmark⟩
    · rw [Owns, Function.update_of_ne ht] at ho
      obtain ⟨hst, hmark, -⟩ := hothers t' obj ht ho
      exact ⟨hst, hmark⟩
  owner t₁ t₂ obj h₁ h₂ := by
    -- `t` holds what nobody else does, and the others what they held before
    by_cases ht₁ : t₁ = t
    · by_cases ht₂ : t₂ = t
      · rw [ht₁, ht₂]
      · subst ht₁
        rw [Owns, Function.update_self] at h₁
        rw [Owns, Function.update_of_ne ht₂] at h₂
        exact absurd h₂ ((hholds obj h₁).2.2 t₂ ht₂)
    · by_cases ht₂ : t₂ = t
      · subst ht₂
        rw [Owns, Function.update_self] at h₂
        rw [Owns, Function.update_of_ne ht₁] at h₁
        exact absurd h₁ ((hholds obj h₂).2.2 t₁ ht₁)
      · rw [Owns, Function.update_of_ne ht₁] at h₁
        rw [Owns, Function.update_of_ne ht₂] at h₂
        exact h.owner t₁ t₂ obj h₁ h₂
  point t' pc hpc := by
    by_cases ht : t' = t
    · subst ht
      rw [Function.update_self] at hpc
      exact hpoint pc hpc
    · rw [Function.update_of_ne ht] at hpc
      apply (h.point t' pc hpc).frame hframe ht
      · intro obj hobj
        have ho : Owns p t' obj := by
          rw [Owns, hpc]
          exact hobj
        exact (hothers t' obj ht ho).2.2
      · intro obj hobj
        rw [h.laid.head] at hobj
        exact hnext obj (List.mem_of_mem_head? hobj)

/-! ## The accesses -/

/-- An access that writes nothing, or a call. -/
theorem Shape.quiet (h : Shape cells p st) {r : Option (Pc O)} (hframe : cells.Frame cells' t)
    (hmem : cells'.mem = cells.mem) (hpoint : ∀ pc, r = some pc → PointOk cells' t pc)
    (hholds : ∀ obj, r.bind Pc.holds = some obj → Owns p t obj) : Shape cells' (Function.update p t r) st := by
  apply h.update hframe
  · rw [hmem]
    exact h.laid
  · intro obj _
    rw [hmem]
  · intro t' obj _ ho
    obtain ⟨hst, hmark⟩ := h.held t' obj ho
    rw [hmem]
    exact ⟨hst, hmark, rfl⟩
  · exact hpoint
  · intro obj hobj
    obtain ⟨hst, hmark⟩ := h.held t obj (hholds obj hobj)
    rw [hmem]
    exact ⟨hst, hmark, fun t' ht ho => ht (h.owner t' t obj ho (hholds obj hobj))⟩

/-- The compare-and-swap on `on_stack` succeeds: the object was free, and `t` holds it now. -/
theorem Shape.acquire (h : Shape cells p st) {obj : O} (hframe : cells.Frame cells' t)
    (hfree : Memory.onStack cells.mem obj = 0#32)
    (hmem : cells'.mem = Function.update cells.mem (.onStack obj) 1#32) :
    Shape cells' (Function.update p t (some (.loadHead obj))) st := by
  -- an object that is marked is another one
  have hne : ∀ o, Memory.onStack cells.mem o = 1#32 → o ≠ obj := by
    rintro o ho rfl
    rw [hfree] at ho
    simp at ho
  apply h.update hframe
  · apply h.laid.congr
    · rw [hmem, head_update_onStack]
    · intro o _
      rw [hmem, next_update_onStack]
    · intro o ho
      rw [hmem, onStack_update_onStack, Function.update_of_ne (hne o (h.laid.marked o ho))]
  · intro o _
    rw [hmem, next_update_onStack]
  · intro t' o _ ho
    obtain ⟨hst, hmark⟩ := h.held t' o ho
    rw [hmem, onStack_update_onStack, next_update_onStack, Function.update_of_ne (hne o hmark)]
    exact ⟨hst, hmark, rfl⟩
  · intro pc hpc
    cases hpc
    trivial
  · intro o ho
    cases ho
    rw [hmem, onStack_update_onStack, Function.update_self]
    refine ⟨fun hst => ?_, rfl, fun t' _ ho => ?_⟩
    · exact hne obj (h.laid.marked obj hst) rfl
    · exact hne obj (h.held t' obj ho).2 rfl

/-- The pusher stores to the `next` field of the object that it holds. -/
theorem Shape.link (h : Shape cells p st) {obj : O} {tmp_head : Option O}
    (hp : p t = some (.storeNext obj tmp_head)) :
    Shape (cells.write t (.next obj) tmp_head)
      (Function.update p t (some (.casHead obj tmp_head (.ll (pushCas tmp_head obj))))) st := by
  have hown : Owns p t obj := by
    rw [Owns, hp]
    rfl
  obtain ⟨hst, hmark⟩ := h.held t obj hown
  have hmem : (cells.write t (.next obj) tmp_head).mem = Function.update cells.mem (.next obj) tmp_head := rfl
  have hnext : ∀ o ∈ st, Function.update (Memory.next cells.mem) obj tmp_head o = Memory.next cells.mem o := by
    intro o ho
    apply Function.update_of_ne
    rintro rfl
    exact hst ho
  apply h.update Linked.frame_write
  · apply h.laid.congr
    · rw [hmem, head_update_next]
    · rw [hmem, next_update_next]
      exact hnext
    · intro o _
      rw [hmem, onStack_update_next]
  · rw [hmem, next_update_next]
    exact hnext
  · intro t' o ht ho
    obtain ⟨host, homark⟩ := h.held t' o ho
    have hne : o ≠ obj := by
      rintro rfl
      exact ht (h.owner t' t o ho hown)
    rw [hmem, onStack_update_next, next_update_next, Function.update_of_ne hne]
    exact ⟨host, homark, rfl⟩
  · intro pc hpc
    cases hpc
    constructor
    · rw [hmem, next_update_next, Function.update_self]
    · rfl
  · intro o ho
    cases ho
    rw [hmem, onStack_update_next]
    exact ⟨hst, hmark, fun t' ht ho => ht (h.owner t' t obj ho hown)⟩

/-- The compare-and-swap on `head` succeeds: the object's `next` field leads to the stack, which it joins. -/
theorem Shape.push (h : Shape cells p st) {obj : O} {tmp_head : Option O} {cas : LlscPc (Loc O) (Val O) (Option O)}
    (hp : p t = some (.casHead obj tmp_head cas)) (hframe : cells.Frame cells' t)
    (hhead : Memory.head cells.mem = tmp_head) (hmem : cells'.mem = Function.update cells.mem .head (some obj)) :
    Shape cells' (Function.update p t none) (obj :: st) := by
  have hown : Owns p t obj := by
    rw [Owns, hp]
    rfl
  obtain ⟨hst, hmark⟩ := h.held t obj hown
  have hnext : Memory.next cells.mem obj = tmp_head := (h.point t _ hp).1
  apply h.update hframe
  · constructor
    · exact List.nodup_cons.2 ⟨hst, h.laid.nodup⟩
    · rw [hmem, head_update_head]
      rfl
    · -- its `next` is the head that the compare-and-swap has found
      rw [hmem, next_update_head, Path.cons_iff, hnext, ← hhead]
      exact ⟨h.laid.head, h.laid.path⟩
    · intro o ho
      rw [hmem, onStack_update_head]
      rcases List.mem_cons.1 ho with rfl | ho
      · exact hmark
      · exact h.laid.marked o ho
  · intro o _
    rw [hmem, next_update_head]
  · intro t' o ht ho
    obtain ⟨host, homark⟩ := h.held t' o ho
    rw [hmem, onStack_update_head, next_update_head]
    refine ⟨fun hmemb => ?_, homark, rfl⟩
    rcases List.mem_cons.1 hmemb with rfl | hmemb
    · exact ht (h.owner t' t o ho hown)
    · exact host hmemb
  · intro pc hpc
    cases hpc
  · intro o ho
    cases ho

/-- The popper's store-conditional succeeds: the object it read is still the first of the stack, its `next`
field is the one it read, and it holds the object now. -/
theorem Shape.pop (h : Shape cells p st) {obj : O} {tmp_obj : Option O} (hp : p t = some (.scHead obj tmp_obj))
    (hvalid : cells.valid t .head = true) :
    ∃ st', st = obj :: st' ∧
      Shape (cells.write t .head tmp_obj) (Function.update p t (some (.checkOnStack obj))) st' := by
  -- the reservation is valid: `head` and that object's `next` are as they were read
  obtain ⟨hhead, hnext⟩ := h.point t _ hp hvalid
  rw [h.laid.head] at hhead
  obtain ⟨st', rfl⟩ := List.head?_eq_some_iff.1 hhead
  have hmem : (cells.write t .head tmp_obj).mem = Function.update cells.mem .head tmp_obj := rfl
  obtain ⟨hobj, hnodup⟩ := List.nodup_cons.1 h.laid.nodup
  obtain ⟨hsucc, hpath⟩ := Path.cons_iff.1 h.laid.path
  refine ⟨st', rfl, ?_⟩
  apply h.update Linked.frame_write
  · constructor
    · exact hnodup
    · rw [hmem, head_update_head, ← hnext]
      exact hsucc
    · rw [hmem, next_update_head]
      exact hpath
    · intro o ho
      rw [hmem, onStack_update_head]
      exact h.laid.marked o (List.mem_cons_of_mem _ ho)
  · intro o _
    rw [hmem, next_update_head]
  · intro t' o _ ho
    obtain ⟨host, homark⟩ := h.held t' o ho
    rw [hmem, onStack_update_head, next_update_head]
    exact ⟨fun hst' => host (List.mem_cons_of_mem _ hst'), homark, rfl⟩
  · intro pc hpc
    cases hpc
    trivial
  · intro o ho
    cases ho
    rw [hmem, onStack_update_head]
    refine ⟨hobj, h.laid.marked obj (List.mem_cons_self ..), fun t' _ ho => ?_⟩
    exact (h.held t' obj ho).1 (List.mem_cons_self ..)

/-- The popper releases the object. -/
theorem Shape.release (h : Shape cells p st) {obj : O} (hp : p t = some (.release obj)) :
    Shape (cells.write t (.onStack obj) 0#32) (Function.update p t none) st := by
  have hown : Owns p t obj := by
    rw [Owns, hp]
    rfl
  have hst := (h.held t obj hown).1
  have hmem : (cells.write t (.onStack obj) 0#32).mem = Function.update cells.mem (.onStack obj) 0#32 := rfl
  apply h.update Linked.frame_write
  · apply h.laid.congr
    · rw [hmem, head_update_onStack]
    · intro o _
      rw [hmem, next_update_onStack]
    · intro o ho
      rw [hmem, onStack_update_onStack]
      apply Function.update_of_ne
      rintro rfl
      exact hst ho
  · intro o _
    rw [hmem, next_update_onStack]
  · intro t' o ht ho
    obtain ⟨host, homark⟩ := h.held t' o ho
    have hne : o ≠ obj := by
      rintro rfl
      exact ht (h.owner t' t o ho hown)
    rw [hmem, onStack_update_onStack, next_update_onStack, Function.update_of_ne hne]
    exact ⟨host, homark, rfl⟩
  · intro pc hpc
    cases hpc
  · intro o ho
    cases ho

/-! ## The counts -/

/-- How many of its successes a thread has still to count. -/
def Pc.owed : Pc O → Nat
  | .checkOnStack _ | .release _ => 1
  | _ => 0

/-- The successes a thread has counted are those in the log, and it has seen no error. -/
structure Counts (s : State T O) (p : T → Option (Pc O)) : Prop where
  success : ∀ t, s.nsuccess t + (p t).elim 0 Pc.owed = s.log.countP (·.1 = t)
  errors : ∀ t, s.nerrors t = 0

omit [DecidableEq O] in
theorem Counts.update {s s' : State T O} (h : Counts s p) {r : Option (Pc O)}
    (hmine : s.nsuccess t + (p t).elim 0 Pc.owed = s.log.countP (·.1 = t) →
      s'.nsuccess t + r.elim 0 Pc.owed = s'.log.countP (·.1 = t))
    (hothers : ∀ t', t' ≠ t → s'.nsuccess t' = s.nsuccess t' ∧ s'.log.countP (·.1 = t') = s.log.countP (·.1 = t'))
    (herrors : s'.nerrors = s.nerrors) : Counts s' (Function.update p t r) where
  success t' := by
    by_cases ht : t' = t
    · subst ht
      rw [Function.update_self]
      exact hmine (h.success t')
    · obtain ⟨hn, hl⟩ := hothers t' ht
      rw [Function.update_of_ne ht, hn, hl]
      exact h.success t'
  errors t' := by
    rw [herrors]
    exact h.errors t'

omit [DecidableEq O] in
theorem Counts.quiet {s : State T O} (h : Counts s p) {r : Option (Pc O)}
    (howed : r.elim 0 Pc.owed = (p t).elim 0 Pc.owed) : Counts { s with cells := cells' } (Function.update p t r) := by
  apply h.update
  · intro hmine
    rw [howed]
    exact hmine
  · intro t' _
    exact ⟨rfl, rfl⟩
  · rfl

omit [DecidableEq O] in
theorem countP_snoc_self {log : List (T × Event O)} {e : Event O} :
    (log ++ [(t, e)]).countP (·.1 = t) = log.countP (·.1 = t) + 1 := by
  simp [List.countP_append]

omit [DecidableEq O] in
theorem countP_snoc_other {log : List (T × Event O)} {e : Event O} {t' : T} (ht : t' ≠ t) :
    (log ++ [(t, e)]).countP (·.1 = t') = log.countP (·.1 = t') := by
  simp [List.countP_append, ht.symm]

omit [DecidableEq O] in
/-- A push is counted at once. -/
theorem Counts.push {s : State T O} (h : Counts s p) {obj : O} (howed : (p t).elim 0 Pc.owed = 0) :
    Counts ((({ s with cells := cells' } : State T O).done t (.push obj)).success t) (Function.update p t none) := by
  apply h.update
  · intro hmine
    simp only [State.success, State.done, Function.update_self, countP_snoc_self, Option.elim_none]
    omega
  · intro t' ht
    simp only [State.success, State.done, Function.update_of_ne ht, countP_snoc_other ht, and_self]
  · rfl

omit [DecidableEq O] in
/-- A pop is counted when the object is released. -/
theorem Counts.pop {s : State T O} (h : Counts s p) {obj : O} (howed : (p t).elim 0 Pc.owed = 0) :
    Counts (({ s with cells := cells' } : State T O).done t (.pop obj))
      (Function.update p t (some (.checkOnStack obj))) := by
  apply h.update
  · intro hmine
    simp only [State.done, countP_snoc_self, Option.elim_some, Pc.owed]
    omega
  · intro t' ht
    simp only [State.done, countP_snoc_other ht, and_self]
  · rfl

omit [DecidableEq O] in
theorem Counts.release {s : State T O} (h : Counts s p) (howed : (p t).elim 0 Pc.owed = 1) :
    Counts (({ s with cells := cells' } : State T O).success t) (Function.update p t none) := by
  apply h.update
  · intro hmine
    simp only [State.success, Function.update_self, Option.elim_none]
    omega
  · intro t' ht
    simp only [State.success, Function.update_of_ne ht, and_self]
  · rfl

/-! ## Runs -/

/-- The invariant, with the stack. -/
structure StackInv (s : State T O) (p : T → Option (Pc O)) (st : List O) : Prop where
  shape : Shape s.cells p st
  replays : Replays s.log st
  counts : Counts s p

/-- An access that writes nothing. -/
theorem StackInv.quiet {s : State T O} (h : StackInv s p st) {r : Option (Pc O)} (hframe : s.cells.Frame cells' t)
    (hmem : cells'.mem = s.cells.mem) (hpoint : ∀ pc, r = some pc → PointOk cells' t pc)
    (hholds : ∀ obj, r.bind Pc.holds = some obj → Owns p t obj)
    (howed : r.elim 0 Pc.owed = (p t).elim 0 Pc.owed) :
    StackInv { s with cells := cells' } (Function.update p t r) st where
  shape := h.shape.quiet hframe hmem hpoint hholds
  replays := h.replays
  counts := h.counts.quiet howed

/-- The next access of `OPA_cas_int(&obj->on_stack, 0, 1)`. -/
theorem acquire_cases {obj : O} {cas : LlscPc (Loc O) (Val O) (BitVec 32)} {b : Bool}
    (h : LlscOk Code.loop cells t (acquireCas obj) cas) :
    (∃ u cas', cas.access t b cells = (u, .inl cas') ∧ u.mem = cells.mem ∧
      LlscOk Code.loop u t (acquireCas obj) cas') ∨
    ∃ u, cas.access t b cells = (u, .inr (Memory.onStack cells.mem obj)) ∧
      u.mem = if Memory.onStack cells.mem obj = 0#32 then Function.update cells.mem (.onStack obj) 1#32 else cells.mem :=
  llsc_cas_cases (V := Val O) (l := .onStack obj) h

/-- The next access of `OPA_cas_int(udata->head, tmp_head, udata->obj)`. -/
theorem push_cases {obj : O} {tmp_head : Option O} {cas : LlscPc (Loc O) (Val O) (Option O)} {b : Bool}
    (h : LlscOk Code.loop cells t (pushCas tmp_head obj) cas) :
    (∃ u cas', cas.access t b cells = (u, .inl cas') ∧ u.mem = cells.mem ∧
      LlscOk Code.loop u t (pushCas tmp_head obj) cas') ∨
    ∃ u, cas.access t b cells = (u, .inr (Memory.head cells.mem)) ∧
      u.mem = if Memory.head cells.mem = tmp_head then Function.update cells.mem .head (some obj) else cells.mem :=
  llsc_cas_cases (V := Val O) (l := .head) h

theorem StackInv.access {s : State T O} (h : StackInv s p st) {pc : Pc O} (hp : p t = some pc) (b : Bool) :
    ∃ st', StackInv (pc.access t b s).1 (Function.update p t (pc.access t b s).2.getLeft?) st' := by
  have hpoint := h.shape.point t pc hp
  have howns : ∀ obj, pc.holds = some obj → Owns p t obj := by
    intro obj hobj
    rw [Owns, hp]
    exact hobj
  cases pc with
  | acquire obj cas =>
    -- the loop goes on, or this is the last access of the compare-and-swap
    have hframe : s.cells.Frame (cas.access t b s.cells).1 t := LlscPc.access_frame
    rcases acquire_cases (b := b) hpoint with ⟨u, cas', hacc, hmem, hok⟩ | ⟨u, hacc, hmem⟩
    · rw [hacc] at hframe
      simp only [Pc.access, hacc, Sum.getLeft?_inl]
      refine ⟨st, h.quiet hframe hmem ?_ (fun _ ho => by cases ho) (by rw [hp]; rfl)⟩
      intro pc hpc
      cases hpc
      exact hok
    · rw [hacc] at hframe
      simp only [Pc.access, hacc]
      by_cases hfree : Memory.onStack s.cells.mem obj = 0#32
      · rw [if_pos hfree] at hmem
        rw [if_neg (not_not.2 hfree)]
        exact ⟨st, h.shape.acquire hframe hfree hmem, h.replays, h.counts.quiet (by rw [hp]; rfl)⟩
      · rw [if_neg hfree] at hmem
        rw [if_pos hfree]
        exact ⟨st, h.quiet hframe hmem (fun _ hpc => by cases hpc) (fun _ ho => by cases ho) (by rw [hp]; rfl)⟩
  | loadHead obj =>
    refine ⟨st, h.quiet Linked.frame_refl rfl (fun _ hpc => ?_) howns (by rw [hp]; rfl)⟩
    cases hpc
    trivial
  | storeNext obj tmp_head =>
    exact ⟨st, h.shape.link hp, h.replays, h.counts.quiet (by rw [hp]; rfl)⟩
  | casHead obj tmp_head cas =>
    have hframe : s.cells.Frame (cas.access t b s.cells).1 t := LlscPc.access_frame
    rcases push_cases (b := b) hpoint.2 with ⟨u, cas', hacc, hmem, hok⟩ | ⟨u, hacc, hmem⟩
    · rw [hacc] at hframe
      simp only [Pc.access, hacc, Sum.getLeft?_inl]
      refine ⟨st, h.quiet hframe hmem ?_ howns (by rw [hp]; rfl)⟩
      intro pc hpc
      cases hpc
      rw [PointOk, hmem]
      exact ⟨hpoint.1, hok⟩
    · rw [hacc] at hframe
      simp only [Pc.access, hacc]
      by_cases hhead : Memory.head s.cells.mem = tmp_head
      · rw [if_pos hhead] at hmem
        rw [if_neg (not_not.2 hhead.symm)]
        have hobj : obj ∉ st := (h.shape.held t obj (howns obj rfl)).1
        exact ⟨obj :: st, h.shape.push hp hframe hhead hmem, .push t h.replays hobj, h.counts.push (by rw [hp]; rfl)⟩
      · -- another thread has changed head: load it again
        rw [if_neg hhead] at hmem
        rw [if_pos (Ne.symm hhead)]
        refine ⟨st, h.quiet hframe hmem (fun _ hpc => ?_) howns (by rw [hp]; rfl)⟩
        cases hpc
        trivial
  | llHead =>
    -- from here on the reservation vouches for what is read
    simp only [Pc.access]
    split
    · exact ⟨st, h.quiet Linked.frame_ll rfl (fun _ hpc => by cases hpc) (fun _ ho => by cases ho) (by rw [hp]; rfl)⟩
    · rename_i obj hobj
      refine ⟨st, h.quiet Linked.frame_ll rfl ?_ (fun _ ho => by cases ho) (by rw [hp]; rfl)⟩
      intro pc hpc
      cases hpc
      intro _
      exact hobj
  | loadNext obj =>
    refine ⟨st, h.quiet Linked.frame_refl rfl ?_ (fun _ ho => by cases ho) (by rw [hp]; rfl)⟩
    intro pc hpc
    cases hpc
    intro hv
    exact ⟨hpoint hv, rfl⟩
  | scHead obj tmp_obj =>
    by_cases hv : (s.cells.valid t .head && !b) = true
    · have hsc : s.cells.sc t .head tmp_obj b = (true, s.cells.write t .head tmp_obj) := Linked.sc_stores hv
      simp only [Pc.access, hsc, if_true]
      rw [Bool.and_eq_true] at hv
      obtain ⟨st', rfl, hshape⟩ := h.shape.pop hp hv.1
      exact ⟨st', hshape, .pop t h.replays, h.counts.pop (by rw [hp]; rfl)⟩
    · have hsc : s.cells.sc t .head tmp_obj b = (false, s.cells) := Linked.sc_fails hv
      simp only [Pc.access, hsc, Bool.false_eq_true, if_false]
      exact ⟨st, h.quiet Linked.frame_refl rfl (fun _ hpc => by cases hpc) (fun _ ho => by cases ho) (by rw [hp]; rfl)⟩
  | checkOnStack obj =>
    -- an object that a thread holds is marked, so that no error is counted
    have hmark := (h.shape.held t obj (howns obj rfl)).2
    have hne : ¬Memory.onStack s.cells.mem obj = 0#32 := by
      rw [hmark]
      simp
    simp only [Pc.access, if_neg hne]
    refine ⟨st, h.quiet Linked.frame_refl rfl (fun _ hpc => ?_) howns (by rw [hp]; rfl)⟩
    cases hpc
    trivial
  | storeFailed => exact hpoint.elim
  | release obj => exact ⟨st, h.shape.release hp, h.replays, h.counts.release (by rw [hp]; rfl)⟩

theorem StackInv.init (valid : T → Loc O → Bool) :
    StackInv (State.init valid : State T O) (fun _ => none) [] where
  shape := {
    laid := ⟨List.nodup_nil, rfl, Path.nil, fun _ h => by cases h⟩
    held := fun _ _ h => by cases h
    owner := fun _ _ _ h => by cases h
    point := fun _ _ h => by cases h }
  replays := .nil
  counts := ⟨fun _ => rfl, fun _ => rfl⟩

omit [DecidableEq O] in
theorem pcs_of_running {s s' : StackSystem T O} {r : Option (Running (Pc O) (Op O))}
    (h : s'.running = Function.update s.running t r) : pcs s' = Function.update (pcs s) t (r.map (·.pc)) := by
  funext t'
  by_cases ht : t' = t
  · subst ht
    simp [pcs, h]
  · simp [pcs, h, ht]

theorem StackInv.step {s s' : StackSystem T O} {a : SystemAct T (Op O)}
    (h : ∃ st, StackInv s.shared (pcs s) st) (hstep : systemStep stackObject s a = some s') :
    ∃ st, StackInv s'.shared (pcs s') st := by
  obtain ⟨st, h⟩ := h
  cases a with
  | call t op =>
    simp only [systemStep] at hstep
    split at hstep
    · rename_i hrun
      cases hstep
      have hnone : pcs s t = none := by
        rw [pcs, hrun]
        rfl
      rw [pcs_of_running (s := s) rfl]
      refine ⟨st, h.quiet Linked.frame_refl rfl (fun pc hpc => ?_) (fun obj ho => ?_) ?_⟩
      · cases hpc
        cases op with
        | push obj => exact rfl
        | pop => trivial
      · cases op <;> cases ho
      · rw [hnone]
        cases op <;> rfl
    · cases hstep
  | step t b =>
    simp only [systemStep, Option.map_eq_some_iff] at hstep
    obtain ⟨r, hrun, hstep⟩ := hstep
    have hp : pcs s t = some r.pc := by
      rw [pcs, hrun]
      rfl
    obtain ⟨st', hinv⟩ := h.access hp b
    refine ⟨st', ?_⟩
    split at hstep
    · rename_i u pc' hacc
      rw [show r.pc.access t b s.shared = (u, .inl pc') from hacc] at hinv
      subst hstep
      rw [pcs_of_running (s := s) rfl]
      exact hinv
    · rename_i u ret hacc
      rw [show r.pc.access t b s.shared = (u, .inr ret) from hacc] at hinv
      subst hstep
      rw [pcs_of_running (s := s) rfl]
      exact hinv

/-- ABA safety. For any number of objects and threads, any calls of the push and pop routines and any interleaving
of their accesses, with any spurious failures, in every reachable state: `head` and the `next` fields lead over
distinct objects to the end; they are the objects pushed and not popped since; there have been as many pops as pushes
less the objects on the stack; a popper finds its object marked, no thread has counted an error, and a thread that is
not in a call has counted its successes. -/
theorem stack_aba_safe (valid : T → Loc O → Bool) (as : List (SystemAct T (Op O)))
    (s : StackSystem T O)
    (hrun : run (systemStep stackObject) (System.init (State.init valid)) as = some s) :
    (∃ st : List O, Memory.head s.shared.cells.mem = st.head? ∧ Path (Memory.next s.shared.cells.mem) st ∧ st.Nodup ∧
      (∀ obj, obj ∈ st ↔ Pushed s.shared.log obj) ∧ pops s.shared.log + st.length = pushes s.shared.log) ∧
    (∀ t obj, pcs s t = some (.checkOnStack obj) → Memory.onStack s.shared.cells.mem obj = 1#32) ∧
    (∀ t, s.shared.nerrors t = 0) ∧
    ∀ t, s.running t = none → s.shared.nsuccess t = s.shared.log.countP (·.1 = t) := by
  obtain ⟨st, h⟩ := run_inv (P := fun s : StackSystem T O => ∃ st, StackInv s.shared (pcs s) st)
    (fun _ _ _ h hstep => StackInv.step h hstep) as ⟨[], StackInv.init valid⟩ hrun
  have hlaid := h.shape.laid
  refine ⟨⟨st, hlaid.head, hlaid.path, hlaid.nodup, h.replays.mem_iff, h.replays.length⟩, ?_, h.counts.errors, ?_⟩
  · intro t obj hp
    have hown : Owns (pcs s) t obj := by
      rw [Owns, hp]
      rfl
    exact (h.shape.held t obj hown).2
  · intro t ht
    have hcount := h.counts.success t
    rw [pcs, ht] at hcount
    exact hcount

end

/-- A call by `t` and its first `n` accesses. -/
def callSteps (t : Bool) (op : Op Bool) (n : Nat) : List (SystemAct Bool (Op Bool)) :=
  .call t op :: List.replicate n (.step t false)

/-- Between a popper's load-link of `head` and its store-conditional the other thread pops both objects and pushes
the first one again, now with nothing below it. The store-conditional fails. -/
def abaActs : List (SystemAct Bool (Op Bool)) :=
  callSteps false (.push false) 6 ++ callSteps false (.push true) 6 ++ callSteps true .pop 2 ++
    callSteps false .pop 5 ++ callSteps false .pop 5 ++ callSteps false (.push true) 6 ++ [.step true false]

theorem stack_aba_safe_demo : ∃ s : StackSystem Bool Bool,
    run (systemStep stackObject) (System.init (State.init fun _ _ => false)) abaActs = some s ∧
    Memory.head s.shared.cells.mem = some true ∧ pushes s.shared.log = 3 ∧ pops s.shared.log = 2 ∧
    (∃ st : List Bool, Memory.head s.shared.cells.mem = st.head? ∧ Path (Memory.next s.shared.cells.mem) st ∧
      st.Nodup ∧ (∀ obj, obj ∈ st ↔ Pushed s.shared.log obj) ∧
      pops s.shared.log + st.length = pushes s.shared.log) := by
  have h : (run (systemStep stackObject) (System.init (State.init fun _ _ => false)) abaActs).map
      (fun s => (Memory.head s.shared.cells.mem, pushes s.shared.log, pops s.shared.log)) = some (some true, 3, 2) := by
    decide
  obtain ⟨s, hs, hd⟩ := Option.map_eq_some_iff.1 h
  obtain ⟨hhead, hd⟩ := Prod.mk.inj hd
  obtain ⟨hpush, hpop⟩ := Prod.mk.inj hd
  exact ⟨s, hs, hhead, hpush, hpop, (stack_aba_safe (fun _ _ => false) abaActs s hs).1⟩

end OpenPA.Stack
