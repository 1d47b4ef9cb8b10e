/-
The protocol behind the queue, at base 0: auxiliary variables that say how far each element, each
link and each head pointer has come, and the invariant that ties them to the threads' control points
(`CtlOk`) and to the cells of the segment (`MemOk`).

An element is out of all queues, entering one (its enqueue has not swapped the tail), queued, or
leaving (its dequeue has detached it and not returned). A link is owned by the producer whose tail
swap returned its element, from the swap to the store of line 236; the head is owned by the producer
whose tail swap returned null, to the store of line 232, and later by the consumer, from its test of
`head` to its reset. What a thread owns is a `Token`, and its control point says exactly which one.

The invariant is about both memory models: with `strict` it also says that no reset of `head` was
late, which is what keeps the queue from losing its front element.
-/
import OpenPA.Queue.Rebase
import OpenPA.Machine.Path

namespace OpenPA.Queue

open OpenPA.Machine

variable {w : Nat} {T : Type}

/-! ## Auxiliary variables -/

/-- How far an enqueue is before its tail swap: `next` not yet reset (line 225), reset in the
thread's own view, reset in memory. -/
inductive Stage where
  | raw
  | nulled
  | drained

/-- Where an element is. -/
inductive Place (T : Type) (w : Nat) where
  | out
  | entering (t : T) (st : Stage)
  | queued (q : Word w)
  | leaving (q : Word w) (cleared : Bool)

/-- A queued element's link to its successor: none yet, the successor's thread has swapped the tail,
it has issued the store, the consumer has read it. -/
inductive Link (T : Type) (w : Nat) where
  | none
  | swapped (y : Word w) (t : T)
  | stored (y : Word w) (t : T)
  | seen (y : Word w)

/-- A queue's way to its front element: no element, its thread has swapped the tail, it has issued the
store to `head`, the consumer has tested `head`, copied it to `shadow_head`, reset `head`, and reset
`shadow_head` again in a dequeue that found no successor. -/
inductive Front (T : Type) (w : Nat) where
  | none
  | swapped (x : Word w) (t : T)
  | stored (x : Word w) (t : T)
  | seen (x : Word w)
  | copied (x : Word w)
  | taken (x : Word w)
  | held (x : Word w)

def Link.target : Link T w → Option (Word w)
  | .none => Option.none
  | .swapped y _ | .stored y _ | .seen y => some y

def Front.elt : Front T w → Option (Word w)
  | .none => Option.none
  | .swapped x _ | .stored x _ | .seen x | .copied x | .taken x | .held x => some x

/-- What `next` of the element holds when nothing is pending. -/
def Link.value : Link T w → Word w
  | .stored y _ | .seen y => y
  | _ => 0#w

/-- What `head` holds when nothing is pending. -/
def Front.head : Front T w → Word w
  | .stored x _ | .seen x | .copied x => x
  | _ => 0#w

/-- What `shadow_head` holds for the consumer. -/
def Front.shadow : Front T w → Word w
  | .copied x | .taken x => x
  | _ => 0#w

/-- The auxiliary state: by element, by element, by queue, and the queued elements of each queue,
oldest first. -/
structure Ghost (T : Type) (w : Nat) where
  place : Word w → Place T w
  link : Word w → Link T w
  front : Word w → Front T w
  chain : Word w → List (Word w)

namespace Ghost

def setPlace (g : Ghost T w) (e : Word w) (p : Place T w) : Ghost T w :=
  { g with place := Function.update g.place e p }

def setLink (g : Ghost T w) (e : Word w) (l : Link T w) : Ghost T w :=
  { g with link := Function.update g.link e l }

def setFront (g : Ghost T w) (q : Word w) (f : Front T w) : Ghost T w :=
  { g with front := Function.update g.front q f }

/-- `t` has swapped the tail of `q` to `e`: `e` follows the last element, or it is the front. -/
def append (g : Ghost T w) (q e : Word w) (t : T) : Ghost T w where
  place := Function.update g.place e (.queued q)
  chain := Function.update g.chain q (g.chain q ++ [e])
  link := match (g.chain q).getLast? with
    | some p => Function.update g.link p (.swapped e t)
    | none => g.link
  front := match (g.chain q).getLast? with
    | some _ => g.front
    | none => Function.update g.front q (.swapped e t)

/-- The front `e` of `q` is detached. -/
def detach (g : Ghost T w) (q e : Word w) (f : Front T w) : Ghost T w where
  place := Function.update g.place e (.leaving q false)
  chain := Function.update g.chain q (g.chain q).tail
  link := Function.update g.link e .none
  front := Function.update g.front q f

/-- What an access of `t` that returned `v` does to the auxiliary state. -/
def record (g : Ghost T w) (t : T) (v : Word w) : Pc w → Ghost T w
  | .enqueue (.setNextNull _ e _) => g.setPlace e (.entering t .nulled)
  | .enqueue (.writeBarrier _ e _) => g.setPlace e (.entering t .drained)
  | .enqueue (.swapTail q e _) => g.append q e t
  | .enqueue (.storeHead q e _) => g.setFront q (.stored e t)
  | .enqueue (.storeLink _ e _ p) => g.setLink p (.stored e t)
  | .isEmpty (.testHead q) => if v = shmRelNull then g else g.setFront q (.seen v)
  | .isEmpty (.storeShadow q h) => g.setFront q (.copied h)
  | .isEmpty (.resetHead q) => g.setFront q (.taken (g.front q).shadow)
  | .dequeue (.testNext _ _ e) | .dequeue (.busyWait _ _ e) =>
    if v = shmRelNull then g else g.setLink e (.seen v)
  | .dequeue (.storeShadow q _ e n) | .dequeue (.storeLateShadow q _ e n) => g.detach q e (.taken n)
  | .dequeue (.resetShadow q _ e) => g.setFront q (.held e)
  | .dequeue (.casTail q r e) => if v = r then g.detach q e .none else g
  | .dequeue (.clearNext q e) => g.setPlace e (.leaving q true)
  | .dequeue (.readBarrier _ e) => g.setPlace e .out
  | _ => g

/-- What a call does to it. -/
def enter (g : Ghost T w) : Call T w → Ghost T w
  | .enqueue t _ e => g.setPlace e (.entering t .raw)
  | _ => g

end Ghost

/-- No element is in a queue. -/
def initGhost : Ghost T w where
  place := fun _ => .out
  link := fun _ => .none
  front := fun _ => .none
  chain := fun _ => []

/-! ## Ownership -/

inductive Token (w : Nat) where
  | entering (e : Word w) (st : Stage)
  | link (p y : Word w)
  | head (q x : Word w)
  | seen (q : Word w)
  | copied (q : Word w)
  | held (q : Word w)
  | leaving (q e : Word w) (cleared : Bool)

/-- What a thread owns. -/
def Ghost.Owns (cfg : Config T w) (g : Ghost T w) (t : T) : Token w → Prop
  | .entering e st => g.place e = .entering t st
  | .link p y => g.link p = .swapped y t
  | .head q x => g.front q = .swapped x t
  | .seen q => t = cfg.consumer q ∧ ∃ x, g.front q = .seen x
  | .copied q => t = cfg.consumer q ∧ ∃ x, g.front q = .copied x
  | .held q => t = cfg.consumer q ∧ ∃ x, g.front q = .held x
  | .leaving q e b => t = cfg.consumer q ∧ g.place e = .leaving q b

/-- What a thread at a control point owns. -/
def Pc.token : Pc w → Option (Token w)
  | .enqueue (.setNextNull _ e _) => some (.entering e .raw)
  | .enqueue (.writeBarrier _ e _) => some (.entering e .nulled)
  | .enqueue (.swapTail _ e _) => some (.entering e .drained)
  | .enqueue (.storeHead q e _) => some (.head q e)
  | .enqueue (.storeLink _ e _ p) => some (.link p e)
  | .isEmpty (.loadHead q) | .isEmpty (.storeShadow q _) => some (.seen q)
  | .isEmpty (.resetHead q) => some (.copied q)
  | .dequeue (.casTail q _ _) | .dequeue (.busyWait q _ _) | .dequeue (.reloadNext q _ _)
  | .dequeue (.storeLateShadow q _ _ _) => some (.held q)
  | .dequeue (.clearNext q e) => some (.leaving q e false)
  | .dequeue (.readBarrier q e) => some (.leaving q e true)
  | _ => none

theorem Pc.of_token_head {p : Pc w} {q x : Word w} (h : p.token = some (.head q x)) :
    ∃ r, p = .enqueue (.storeHead q x r) := by
  unfold Pc.token at h
  split at h <;> cases h
  exact ⟨_, rfl⟩

theorem Pc.of_token_link {p : Pc w} {e y : Word w} (h : p.token = some (.link e y)) :
    ∃ q r, p = .enqueue (.storeLink q y r e) := by
  unfold Pc.token at h
  split at h <;> cases h
  exact ⟨_, _, rfl⟩

theorem Pc.of_token_leaving {p : Pc w} {q e : Word w} {b : Bool} (h : p.token = some (.leaving q e b)) :
    p = .dequeue (.clearNext q e) ∨ p = .dequeue (.readBarrier q e) := by
  unfold Pc.token at h
  split at h <;> cases h
  · exact .inl rfl
  · exact .inr rfl

/-- What else holds at a control point of `t`. -/
def PcOk (cfg : Config T w) (g : Ghost T w) (c : Ctl T w) (t : T) : Pc w → Prop
  | .enqueue (.setNextNull _ e r) | .enqueue (.writeBarrier _ e r) | .enqueue (.swapTail _ e r)
  | .enqueue (.storeHead _ e r) => r = e
  | .enqueue (.storeLink q e r p) => r = e ∧ g.place p = .queued q
  | .isEmpty (.testShadow q) => t = cfg.consumer q
  | .isEmpty (.testHead q) => t = cfg.consumer q ∧ (g.front q).shadow = 0#w
  | .isEmpty (.storeShadow q h) => g.front q = .seen h
  | .peekHead (.testShadow q) | .peekHead (.loadShadow q) => t = cfg.consumer q ∧ ∃ x, g.front q = .taken x
  | .dequeue (.loadShadow q) => t = cfg.consumer q ∧ c.ready q = false ∧ ∃ x, g.front q = .taken x
  | .dequeue (.testNext q r e) | .dequeue (.resetShadow q r e) =>
    r = e ∧ t = cfg.consumer q ∧ c.ready q = false ∧ g.front q = .taken e
  | .dequeue (.loadNext q r e) => r = e ∧ t = cfg.consumer q ∧ g.front q = .taken e ∧ ∃ y, g.link e = .seen y
  | .dequeue (.storeShadow q r e n) => r = e ∧ t = cfg.consumer q ∧ g.front q = .taken e ∧ g.link e = .seen n
  | .dequeue (.casTail q r e) => r = e ∧ g.front q = .held e
  | .dequeue (.busyWait q r e) => r = e ∧ g.front q = .held e ∧ g.link e ≠ .none
  | .dequeue (.reloadNext q r e) => r = e ∧ g.front q = .held e ∧ ∃ y, g.link e = .seen y
  | .dequeue (.storeLateShadow q r e n) => r = e ∧ g.front q = .held e ∧ g.link e = .seen n
  | .client (.reuse e _) | .client (.handOff e) => c.owner e = .held t
  | _ => True

/-! ## The invariant -/

/-- The queued elements of `q`: linked front to back, led to by `head` or `shadow_head`. -/
structure ChainOk (g : Ghost T w) (q : Word w) : Prop where
  nodup : (g.chain q).Nodup
  mem : ∀ e, e ∈ g.chain q ↔ g.place e = .queued q
  path : Path (fun e => (g.link e).target) (g.chain q)
  front : (g.front q).elt = (g.chain q).head?

/-- Control points, ownership and the contract. -/
structure CtlOk (cfg : Config T w) (c : Ctl T w) (g : Ghost T w) : Prop where
  token : ∀ t k, g.Owns cfg t k ↔ (c.pc t).token = some k
  pc : ∀ t, PcOk cfg g c t (c.pc t)
  chain : ∀ q, ChainOk g q
  pos : ∀ e, g.place e ≠ .out → e ≠ 0#w
  link : ∀ e, (∀ q, g.place e ≠ .queued q) → g.link e = .none
  owner : ∀ e, g.place e = .out ↔ c.owner e ≠ .busy
  ready : ∀ q, c.ready q = true → ∃ x, g.front q = .taken x
  copied : ∀ q x, g.front q = .copied x → c.copied q = x

/-- The cell `head` of a queue whose consumer is `c`. -/
def HeadOk (strict : Bool) (c : T) (s : Slot T (Word w)) : Front T w → Prop
  | .none | .swapped _ _ | .taken _ | .held _ => s.Only c ∧ s.view c = 0#w
  | .seen x | .copied x => s.Only c ∧ s.view c = x
  | .stored x t =>
    (t ≠ c ∧ s.pend t = [x] ∧ (∀ t', t' ≠ t → t' ≠ c → s.pend t' = []) ∧ s.view c = 0#w) ∨
    (s.Only c ∧ s.view c = x) ∨
    -- the consumer's late reset still hides the element, or has already erased it
    (t ≠ c ∧ s.Only c ∧ s.view c = 0#w ∧ (strict = true → s.mem = x ∧ s.pend c ≠ []))

/-- The cell `next` of a queued element, by its link; `c` is the queue's consumer. -/
def LinkOk (c : T) (s : Slot T (Word w)) : Link T w → Prop
  | .none | .swapped _ _ => s.Clean ∧ s.mem = 0#w
  | .stored y t => (t ≠ c ∧ s.Only t ∧ s.pend t = [y] ∧ s.mem = 0#w) ∨ (s.Only c ∧ s.view c = y)
  | .seen y => s.Only c ∧ s.view c = y

/-- The cell `next` of an element. -/
def NextOk (cfg : Config T w) (s : Slot T (Word w)) (o : Owner T) (l : Link T w) : Place T w → Prop
  | .out => match o with
    | .free => s.Clean
    | .held t => s.Only t
    | .busy => True
  | .entering t .raw => s.Only t
  | .entering t .nulled => s.Only t ∧ s.view t = 0#w
  | .entering _ .drained => s.Clean ∧ s.mem = 0#w
  | .queued q => LinkOk (cfg.consumer q) s l
  | .leaving q false => s.Only (cfg.consumer q)
  | .leaving q true => s.Only (cfg.consumer q) ∧ s.view (cfg.consumer q) = 0#w

/-- While a store of the consumer to `head` is pending, what line 174 copied last is still the front,
or on its way out, unless the pending store is the consumer's own enqueue. -/
def ResetOk (c : T) (z : Word w) (place : Word w → Place T w) (q : Word w) : Front T w → Prop
  | .stored _ t => t = c ∨ ∃ b, place z = .leaving q b
  | .seen _ | .copied _ => True
  | .taken x | .held x => z = x ∨ ∃ b, place z = .leaving q b
  | .none | .swapped _ _ => ∃ b, place z = .leaving q b

/-- The cells of the segment. -/
structure MemOk (strict : Bool) (cfg : Config T w) (c : Ctl T w) (g : Ghost T w)
    (σ : Cell w → Slot T (Word w)) : Prop where
  tail : ∀ q, (σ ⟨.tail, q⟩).Clean ∧ (σ ⟨.tail, q⟩).mem = (g.chain q).getLastD 0#w
  shadow : ∀ q, (σ ⟨.shadowHead, q⟩).Only (cfg.consumer q) ∧
    (σ ⟨.shadowHead, q⟩).view (cfg.consumer q) = (g.front q).shadow
  head : ∀ q, HeadOk strict (cfg.consumer q) (σ ⟨.head, q⟩) (g.front q)
  next : ∀ e, NextOk cfg (σ ⟨.next, e⟩) (c.owner e) (g.link e) (g.place e)
  reset : strict = true → ∀ q, (σ ⟨.head, q⟩).pend (cfg.consumer q) ≠ [] →
    ResetOk (cfg.consumer q) (c.copied q) g.place q (g.front q)

structure Inv (strict : Bool) (cfg : Config T w) (c : Ctl T w) (g : Ghost T w)
    (σ : Cell w → Slot T (Word w)) : Prop where
  ctl : CtlOk cfg c g
  mem : MemOk strict cfg c g σ

end OpenPA.Queue
