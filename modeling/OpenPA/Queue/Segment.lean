/-
The cells of the segment under the protocol: what every access returns (`Inv.reads`), and that accesses,
calls and stores reaching memory keep `MemOk` and with it the whole invariant (`Inv.step`, `Inv.call`,
`MemOk.commit`).
-/
import OpenPA.Queue.Control
import OpenPA.Queue.Writers

namespace OpenPA.Queue

open OpenPA.Machine

variable {w : Nat} {T : Type} {cfg : Config T w} {c c' : Ctl T w} {g g' : Ghost T w} {t : T} {v : Word w}
variable {strict : Bool} {σ σ' : Cell w → Slot T (Word w)}

/-! ## What accesses return -/

theorem HeadOk.view_ne_zero {f : Front T w} {s : Slot T (Word w)} (h : HeadOk strict t s f)
    (hs : ∀ x, f ≠ .seen x) (hc : ∀ x, f ≠ .copied x) (hv : s.view t ≠ 0#w) :
    ∃ t', f = .stored (s.view t) t' ∧ s.Only t := by
  cases f with
  | stored x t' =>
    rcases h with ⟨-, -, -, h⟩ | ⟨ho, h⟩ | ⟨-, -, h, -⟩
    · exact absurd h hv
    · exact ⟨t', by rw [h], ho⟩
    · exact absurd h hv
  | seen x => exact absurd rfl (hs x)
  | copied x => exact absurd rfl (hc x)
  | _ => exact absurd h.2 hv

theorem LinkOk.view_ne_zero {l : Link T w} {s : Slot T (Word w)} (h : LinkOk t s l) (hv : s.view t ≠ 0#w) :
    ((∃ t', l = .stored (s.view t) t') ∨ l = .seen (s.view t)) ∧ s.Only t := by
  cases l with
  | stored y t' =>
    rcases h with ⟨hne, ho, -, h0⟩ | ⟨ho, h⟩
    · rw [ho.view_ne (Ne.symm hne)] at hv; exact absurd h0 hv
    · exact ⟨.inl ⟨t', by rw [h]⟩, ho⟩
  | seen y => exact ⟨.inr (by rw [h.2]), h.1⟩
  | _ => rw [h.1.view] at hv; exact absurd h.2 hv

theorem LinkOk.view_seen {s : Slot T (Word w)} {y : Word w} (h : LinkOk t s (.seen y)) : s.view t = y := h.2

theorem CtlOk.front_queued (h : CtlOk cfg c g) {q e : Word w} (he : (g.front q).elt = some e) :
    g.place e = .queued q := h.ghost.place_front he

/-- The way to a queue's front leads to an element. -/
theorem CtlOk.front_ne_zero (h : CtlOk cfg c g) {q x : Word w} (hx : (g.front q).elt = some x) : x ≠ 0#w := by
  apply h.pos
  rw [h.front_queued hx]
  simp

/-- The `next` cell of a queued element. -/
theorem MemOk.linkOk (h : MemOk strict cfg c g σ) {q e : Word w} (he : g.place e = .queued q) :
    LinkOk (cfg.consumer q) (σ ⟨.next, e⟩) (g.link e) := by
  have := h.next e
  rw [he] at this; exact this

section

variable [DecidableEq T]

theorem Inv.reads (hb : ∀ t, cfg.base t = 0#w) (h : Inv strict cfg c g σ) {x : Access (Cell w) (Word w) Tag}
    (hx : (queueProgram cfg).access c t = some x) (hm : Moves t σ x σ' v) : Reads g v (c.pc t) := by
  obtain ⟨s, hs, rfl⟩ := queueProgram_access c t hx
  have hp := h.ctl.pc t
  have htok := h.ctl.token t
  cases hct : c.pc t with
  | idle => rw [hct] at hs; cases hs
  | enqueue p =>
    rw [hct] at hs; cases hs
    cases p with
    | swapTail q e r =>
      simp only [Stmt.inPc, queueEnqueue, hb, cellAt_zero, shmSwapRel, Access.retag] at hm
      cases hm
      exact (h.mem.tail q).2
    | _ => trivial
  | isEmpty p =>
    rw [hct] at hs hp htok; cases hs
    cases p with
    | testShadow q =>
      have ht : t = cfg.consumer q := hp
      simp only [Stmt.inPc, queueIsEmpty, hb, cellAt_zero, Access.retag] at hm
      cases hm
      have := (h.mem.shadow q).2
      rw [← ht] at this
      exact this
    | testHead q =>
      obtain ⟨ht, -⟩ : t = cfg.consumer q ∧ _ := hp
      simp only [Stmt.inPc, queueIsEmpty, hb, cellAt_zero, Access.retag] at hm
      cases hm
      intro hv
      have := h.mem.head q
      rw [← ht] at this
      obtain ⟨t', hf, -⟩ := this.view_ne_zero
        (fun x hf => by simpa [Pc.token] using (htok (.seen q)).1 ⟨ht, x, hf⟩)
        (fun x hf => by simpa [Pc.token] using (htok (.copied q)).1 ⟨ht, x, hf⟩) hv
      exact ⟨t', hf⟩
    | loadHead q =>
      obtain ⟨ht, x, hf⟩ := (htok (.seen q)).2 rfl
      simp only [Stmt.inPc, queueIsEmpty, hb, cellAt_zero, Access.retag] at hm
      cases hm
      have := h.mem.head q
      rw [← ht, hf] at this
      exact hf.trans (by rw [this.2])
    | _ => trivial
  | peekHead p =>
    rw [hct] at hs hp; cases hs
    have hsh := fun q => (h.mem.shadow q).2
    cases p with
    | _ q =>
      obtain ⟨ht, -⟩ : t = cfg.consumer q ∧ _ := hp
      simp only [Stmt.inPc, queuePeekHead, hb, cellAt_zero, Access.retag] at hm
      cases hm
      have := hsh q
      rw [← ht] at this
      exact this
  | dequeue p =>
    rw [hct] at hs hp htok; cases hs
    simp only [Stmt.inPc, queueDequeue, hb, cellAt_zero, shmCasRelNull, Access.retag] at hm
    -- the consumer reads `next` of the front of its queue
    have hnext : ∀ {q e}, t = cfg.consumer q → (g.front q).elt = some e →
        LinkOk t (σ ⟨.next, e⟩) (g.link e) := by
      intro q e ht he
      have := h.mem.linkOk (h.ctl.front_queued he)
      rw [← ht] at this; exact this
    cases p with
    | loadShadow q =>
      obtain ⟨ht, -⟩ : t = cfg.consumer q ∧ _ := hp
      cases hm
      have := (h.mem.shadow q).2
      rw [← ht] at this
      exact this
    | testNext q r e =>
      obtain ⟨-, ht, -, hf⟩ := hp
      cases hm
      exact fun hv => ((hnext ht (by rw [hf]; rfl)).view_ne_zero hv).1
    | loadNext q r e =>
      obtain ⟨-, ht, hf, y, hy⟩ := hp
      cases hm
      have := hnext ht (by rw [hf]; rfl)
      rw [hy] at this
      exact hy.trans (by rw [this.view_seen])
    | busyWait q r e =>
      obtain ⟨-, hf, -⟩ := hp
      cases hm
      exact fun hv => ((hnext ((htok (.held q)).2 rfl).1 (by rw [hf]; rfl)).view_ne_zero hv).1
    | reloadNext q r e =>
      obtain ⟨-, hf, y, hy⟩ := hp
      cases hm
      have := hnext ((htok (.held q)).2 rfl).1 (by rw [hf]; rfl)
      rw [hy] at this
      exact hy.trans (by rw [this.view_seen])
    | casTail q r e =>
      have := (h.mem.tail q).2
      cases hm with
      | casHit _ _ _ _ hm => exact hm.symm.trans this
      | casMiss => exact this
    | _ => trivial
  | client p => trivial

/-! ## The cells, one change at a time -/

section Change

variable {e q : Word w}

omit [DecidableEq T] in
theorem ResetOk.keep {z : Word w} {place place' : Word w → Place T w} {f : Front T w}
    (h : ResetOk t z place q f)
    (hkeep : ∀ z, (∃ b, place z = .leaving q b) → ∃ b, place' z = .leaving q b) : ResetOk t z place' q f := by
  cases f with
  | none => exact hkeep _ h
  | swapped x t' => exact hkeep _ h
  | stored x t' => exact h.imp id (hkeep _)
  | seen x => trivial
  | copied x => trivial
  | taken x => exact h.imp id (hkeep _)
  | held x => exact h.imp id (hkeep _)

omit [DecidableEq T] in
/-- Only cells the protocol does not speak of change. -/
theorem MemOk.congr (h : MemOk strict cfg c g σ) (hσ : ∀ f a, (∀ k, f ≠ .payload k) → σ' ⟨f, a⟩ = σ ⟨f, a⟩)
    (ho : c'.owner = c.owner) (hc : c'.copied = c.copied) : MemOk strict cfg c' g σ' := by
  have ht := fun q => hσ .tail q (by simp)
  have hs := fun q => hσ .shadowHead q (by simp)
  have hh := fun q => hσ .head q (by simp)
  have hn := fun q => hσ .next q (by simp)
  refine ⟨fun q => ?_, fun q => ?_, fun q => ?_, fun e => ?_, fun hst q hp => ?_⟩
  · rw [ht]; exact h.tail q
  · rw [hs]; exact h.shadow q
  · rw [hh]; exact h.head q
  · rw [hn, ho]; exact h.next e
  · rw [hh] at hp; rw [hc]; exact h.reset hst q hp

omit [DecidableEq T] in
/-- One element's place, link, owner or `next` changes. -/
theorem MemOk.onNext (h : MemOk strict cfg c g σ) (s : Slot T (Word w)) (hchain : g'.chain = g.chain)
    (hfront : g'.front = g.front) (hcopied : c'.copied = c.copied)
    (hnext : NextOk cfg s (c'.owner e) (g'.link e) (g'.place e))
    (hother : ∀ e', e' ≠ e → c'.owner e' = c.owner e' ∧ g'.link e' = g.link e' ∧ g'.place e' = g.place e')
    (hleave : strict = true → ∀ q b, g.place e = .leaving q b →
      (∃ b', g'.place e = .leaving q b') ∨ (σ ⟨.head, q⟩).pend (cfg.consumer q) = []) :
    MemOk strict cfg c' g' (Function.update σ ⟨.next, e⟩ s) := by
  refine ⟨fun q => ?_, fun q => ?_, fun q => ?_, fun e' => ?_, fun hst q hp => ?_⟩
  · rw [Function.update_of_ne (by simp), hchain]; exact h.tail q
  · rw [Function.update_of_ne (by simp), hfront]; exact h.shadow q
  · rw [Function.update_of_ne (by simp), hfront]; exact h.head q
  · by_cases he : e' = e
    · subst he; rw [Function.update_self]; exact hnext
    · obtain ⟨h1, h2, h3⟩ := hother e' he
      rw [Function.update_of_ne (by simpa using he), h1, h2, h3]
      exact h.next e'
  · rw [Function.update_of_ne (by simp)] at hp
    have hr := h.reset hst q hp
    rw [hfront, hcopied]
    have hkeep : ∀ z, (∃ b, g.place z = .leaving q b) → ∃ b, g'.place z = .leaving q b := by
      rintro z ⟨b, hz⟩
      by_cases hze : z = e
      · subst hze; exact (hleave hst q b hz).resolve_right hp
      · exact ⟨b, by rw [(hother z hze).2.2]; exact hz⟩
    exact hr.keep hkeep

omit [DecidableEq T] in
/-- One queue's front, `head` or `shadow_head` changes. -/
theorem MemOk.onFront (h : MemOk strict cfg c g σ) {f : Front T w}
    (hσ : ∀ l, l ≠ ⟨.head, q⟩ → l ≠ ⟨.shadowHead, q⟩ → σ' l = σ l) (ho : c'.owner = c.owner)
    (hcopied : ∀ q', q' ≠ q → c'.copied q' = c.copied q')
    (hshadow : (σ' ⟨.shadowHead, q⟩).Only (cfg.consumer q) ∧ (σ' ⟨.shadowHead, q⟩).view (cfg.consumer q) = f.shadow)
    (hhead : HeadOk strict (cfg.consumer q) (σ' ⟨.head, q⟩) f)
    (hreset : strict = true → (σ' ⟨.head, q⟩).pend (cfg.consumer q) ≠ [] →
      ResetOk (cfg.consumer q) (c'.copied q) g.place q f) : MemOk strict cfg c' (g.setFront q f) σ' := by
  refine ⟨fun q' => ?_, fun q' => ?_, fun q' => ?_, fun e => ?_, fun hst q' hp => ?_⟩
  · rw [hσ _ (by simp) (by simp)]; exact h.tail q'
  · by_cases hq : q' = q
    · subst hq; simpa [Ghost.setFront] using hshadow
    · rw [hσ _ (by simp) (by simpa using hq)]
      simpa [Ghost.setFront, hq] using h.shadow q'
  · by_cases hq : q' = q
    · subst hq; simpa [Ghost.setFront] using hhead
    · rw [hσ _ (by simpa using hq) (by simp)]
      simpa [Ghost.setFront, hq] using h.head q'
  · rw [hσ _ (by simp) (by simp), ho]; exact h.next e
  · by_cases hq : q' = q
    · subst hq; simpa [Ghost.setFront] using hreset hst hp
    · rw [hσ _ (by simpa using hq) (by simp)] at hp
      rw [hcopied q' hq]
      simpa [Ghost.setFront, hq] using h.reset hst q' hp

omit [DecidableEq T] in
/-- A new last element: the tail swap of line 229. -/
theorem MemOk.append (h : MemOk strict cfg c g σ) (hc : CtlOk cfg c g) (he : g.place e = .entering t .drained)
    (ho : c'.owner = c.owner) (hcopied : c'.copied = c.copied) :
    MemOk strict cfg c' (g.append q e t) (Function.update σ ⟨.tail, q⟩ ((σ ⟨.tail, q⟩).write e)) := by
  have hne : ∀ q, e ∉ g.chain q := fun q hm => by rw [((hc.chain q).mem e).1 hm] at he; cases he
  have hfront := hc.ghost.append_front q e t
  have hlink := hc.ghost.append_link q e t
  refine ⟨fun q' => ?_, fun q' => ?_, fun q' => ?_, fun e' => ?_, fun hst q' hp => ?_⟩
  · by_cases hq : q' = q
    · subst hq
      rw [Function.update_self]
      exact ⟨(h.tail q').1.write e, by simp [Ghost.append]⟩
    · rw [Function.update_of_ne (by simpa using hq)]
      simpa [Ghost.append, hq] using h.tail q'
  · rw [Function.update_of_ne (by simp)]
    rcases hfront q' with hf | ⟨hf, hf'⟩
    · rw [hf]; exact h.shadow q'
    · have := h.shadow q'
      rw [hf] at this
      rw [hf']; exact this
  · rw [Function.update_of_ne (by simp)]
    rcases hfront q' with hf | ⟨hf, hf'⟩
    · rw [hf]; exact h.head q'
    · have := h.head q'
      rw [hf] at this
      rw [hf']; exact this
  · rw [Function.update_of_ne (by simp), ho]
    have hn := h.next e'
    by_cases hee : e' = e
    · subst hee
      have hl : (g.append q e' t).link e' = .none := by
        have h0 : g.link e' = .none := hc.link e' fun q => by rw [he]; simp
        cases hlast : (g.chain q).getLast? with
        | none => simp only [Ghost.append, hlast]; exact h0
        | some a =>
          have : e' ≠ a := by rintro rfl; exact hne q (List.mem_of_getLast? hlast)
          simp only [Ghost.append, hlast, Function.update_of_ne this]; exact h0
      rw [he] at hn
      rw [hl]
      simpa [Ghost.append, NextOk, LinkOk] using hn
    · have hp : (g.append q e t).place e' = g.place e' := by simp [Ghost.append, hee]
      rw [hp]
      rcases hlink e' with hl | ⟨hl, hl'⟩
      · rw [hl]; exact hn
      · rw [hl] at hn; rw [hl']
        cases hpl : g.place e' <;> rw [hpl] at hn <;> exact hn
  · rw [Function.update_of_ne (by simp)] at hp
    have hr := h.reset hst q' hp
    have hkeep : ∀ z, (∃ b, g.place z = .leaving q' b) → ∃ b, (g.append q e t).place z = .leaving q' b := by
      rintro z ⟨b, hz⟩
      have : z ≠ e := by rintro rfl; rw [he] at hz; cases hz
      exact ⟨b, by simpa [Ghost.append, this] using hz⟩
    rw [hcopied]
    rcases hfront q' with hf | ⟨hf, hf'⟩
    · rw [hf]; exact hr.keep hkeep
    · rw [hf] at hr; rw [hf']; exact hkeep _ hr

omit [DecidableEq T] in
/-- The consumer detaches the front: the stores of lines 265 and 278, or the tail CAS. -/
theorem MemOk.detach (h : MemOk strict cfg c g σ) (hc : CtlOk cfg c g) {f : Front T w}
    (hfr : g.front q = .taken e ∨ g.front q = .held e) (hl : g.link e = .none ∨ ∃ y, g.link e = .seen y)
    (hf : f = .none ∨ ∃ y, f = .taken y)
    (hσ : ∀ l, l ≠ ⟨.tail, q⟩ → l ≠ ⟨.shadowHead, q⟩ → σ' l = σ l)
    (htail : (σ' ⟨.tail, q⟩).Clean ∧ (σ' ⟨.tail, q⟩).mem = (g.chain q).tail.getLastD 0#w)
    (hshadow : (σ' ⟨.shadowHead, q⟩).Only (cfg.consumer q) ∧ (σ' ⟨.shadowHead, q⟩).view (cfg.consumer q) = f.shadow)
    (ho : c'.owner = c.owner) (hcopied : c'.copied = c.copied) : MemOk strict cfg c' (g.detach q e f) σ' := by
  have hq : g.place e = .queued q := hc.front_queued (by rcases hfr with h | h <;> rw [h] <;> rfl)
  have hkeep : ∀ q' z, (∃ b, g.place z = .leaving q' b) → ∃ b, (g.detach q e f).place z = .leaving q' b := by
    rintro q' z ⟨b, hz⟩
    have : z ≠ e := by rintro rfl; rw [hq] at hz; cases hz
    exact ⟨b, by simpa [Ghost.detach, this] using hz⟩
  refine ⟨fun q' => ?_, fun q' => ?_, fun q' => ?_, fun e' => ?_, fun hst q' hp => ?_⟩
  · by_cases hqq : q' = q
    · subst hqq; simpa [Ghost.detach] using htail
    · rw [hσ _ (by simpa using hqq) (by simp)]
      simpa [Ghost.detach, hqq] using h.tail q'
  · by_cases hqq : q' = q
    · subst hqq; simpa [Ghost.detach] using hshadow
    · rw [hσ _ (by simp) (by simpa using hqq)]
      simpa [Ghost.detach, hqq] using h.shadow q'
  · rw [hσ _ (by simp) (by simp)]
    by_cases hqq : q' = q
    · subst hqq
      have hh := h.head q'
      simp only [Ghost.detach, Function.update_self]
      rcases hfr with hfr | hfr <;> rw [hfr] at hh <;> rcases hf with rfl | ⟨y, rfl⟩ <;> exact hh
    · simpa [Ghost.detach, hqq] using h.head q'
  · rw [hσ _ (by simp) (by simp), ho]
    have hn := h.next e'
    by_cases hee : e' = e
    · subst hee
      rw [hq] at hn
      simp only [Ghost.detach, Function.update_self]
      rcases hl with hl | ⟨y, hl⟩ <;> rw [hl] at hn
      · exact hn.1.only _
      · exact hn.1
    · simpa [Ghost.detach, hee] using hn
  · rw [hσ _ (by simp) (by simp)] at hp
    have hr := h.reset hst q' hp
    rw [hcopied]
    by_cases hqq : q' = q
    · subst hqq
      -- what line 174 copied is the element that leaves now, or one that left before
      have hz : ∃ b, (g.detach q' e f).place (c.copied q') = .leaving q' b := by
        have hr' : c.copied q' = e ∨ ∃ b, g.place (c.copied q') = .leaving q' b := by
          rcases hfr with hfr | hfr <;> rw [hfr] at hr <;> exact hr
        rcases hr' with hz | hz
        · exact ⟨false, by rw [hz]; simp [Ghost.detach]⟩
        · exact hkeep _ _ hz
      rcases hf with rfl | ⟨y, rfl⟩
      · simpa [Ghost.detach, ResetOk] using hz
      · simpa [Ghost.detach, ResetOk] using Or.inr hz
    · have : (g.detach q e f).front q' = g.front q' := by simp [Ghost.detach, hqq]
      rw [this]; exact hr.keep (hkeep q')

/-! ## A store reaching memory -/

theorem HeadOk.commit {s : Slot T (Word w)} {f : Front T w} {t' : T} {rest : List (Word w)}
    (h : HeadOk strict t s f) (hp : s.pend t' = v :: rest)
    (hlate : strict = true → t' = t → ∀ x t'', f = .stored x t'' → t'' ≠ t → s.Only t → s.view t = 0#w → False) :
    HeadOk strict t (Slot.commit t' v rest s) f := by
  have hkeep : ∀ x : Word w, s.Only t ∧ s.view t = x →
      (Slot.commit t' v rest s).Only t ∧ (Slot.commit t' v rest s).view t = x :=
    fun x hx => ⟨hx.1.commit hp, by rw [hx.1.commit_view hp]; exact hx.2⟩
  cases f with
  | stored x t'' =>
    rcases h with ⟨hne, hx, hother, hv⟩ | h | ⟨hne, ho, hv, hlost⟩
    · by_cases ht : t' = t''
      · subst ht
        rw [hx] at hp; cases hp
        have honly : (Slot.commit t' v [] s).Only t := by
          intro u hu
          by_cases hut : u = t'
          · subst hut; simp
          · rw [Slot.commit_pend_ne _ _ _ hut]; exact hother u hut hu
        cases hpt : s.pend t with
        | nil => exact .inr (.inl ⟨honly, by rw [Slot.commit_view_ne _ (Ne.symm hne), hpt]; rfl⟩)
        | cons a as =>
          refine .inr (.inr ⟨hne, honly, ?_, fun _ => ⟨rfl, ?_⟩⟩)
          · rw [← hv, Slot.commit_view_ne _ (Ne.symm hne), Slot.view, hpt]; rfl
          · rw [Slot.commit_pend_ne _ _ _ (Ne.symm hne), hpt]; simp
      · have htt : t' = t := by
          by_contra hn
          rw [hother t' ht hn] at hp; cases hp
        subst htt
        refine .inl ⟨hne, by rw [Slot.commit_pend_ne _ _ _ (Ne.symm ht)]; exact hx, fun u h1 h2 => ?_, ?_⟩
        · rw [Slot.commit_pend_ne _ _ _ h2]; exact hother u h1 h2
        · rw [Slot.commit_view_self hp]; exact hv
    · exact .inr (.inl (hkeep x h))
    · have hs : strict = false := by
        by_contra hs
        exact hlate (by simpa using hs) (ho.pending hp) x t'' rfl hne ho hv
      subst hs
      exact .inr (.inr ⟨hne, (hkeep 0#w ⟨ho, hv⟩).1, (hkeep 0#w ⟨ho, hv⟩).2, by simp⟩)
  | _ => exact hkeep _ h

theorem LinkOk.commit {s : Slot T (Word w)} {l : Link T w} {t' : T} {rest : List (Word w)}
    (h : LinkOk t s l) (hp : s.pend t' = v :: rest) : LinkOk t (Slot.commit t' v rest s) l := by
  cases l with
  | stored y t'' =>
    rcases h with ⟨hne, ho, hy, h0⟩ | ⟨ho, hy⟩
    · have := ho.pending hp; subst this
      rw [hy] at hp; cases hp
      have hc : (Slot.commit t' v [] s).Clean := by
        apply Slot.Only.clean (t := t')
        · exact ho.commit hy
        · simp
      exact .inr ⟨hc.only t, by rw [hc.view]; rfl⟩
    · exact .inr ⟨ho.commit hp, by rw [ho.commit_view hp]; exact hy⟩
  | seen y => exact ⟨h.1.commit hp, by rw [h.1.commit_view hp]; exact h.2⟩
  | none => exact absurd hp h.1.not_pending
  | swapped y t'' => exact absurd hp h.1.not_pending

theorem NextOk.commit {s : Slot T (Word w)} {o : Owner T} {l : Link T w} {p : Place T w} {t' : T}
    {rest : List (Word w)} (h : NextOk cfg s o l p) (hp : s.pend t' = v :: rest) :
    NextOk cfg (Slot.commit t' v rest s) o l p := by
  cases p with
  | out =>
    cases o with
    | free => exact absurd hp h.not_pending
    | held t'' => exact Slot.Only.commit h hp
    | busy => trivial
  | entering t'' st =>
    cases st with
    | raw => exact Slot.Only.commit h hp
    | nulled => exact ⟨h.1.commit hp, by rw [h.1.commit_view hp]; exact h.2⟩
    | drained => exact absurd hp h.1.not_pending
  | queued q => exact LinkOk.commit h hp
  | leaving q b =>
    cases b with
    | false => exact Slot.Only.commit h hp
    | true => exact ⟨h.1.commit hp, by rw [h.1.commit_view hp]; exact h.2⟩

/-- A store reaching memory keeps the cells in order; to be strict, a reset of `head` must not be so
late that `head` already holds an element other than the one it was to take out. -/
theorem MemOk.commit (h : MemOk strict cfg c g σ) (hc : CtlOk cfg c g) {l : Cell w} {rest : List (Word w)}
    (hp : (σ l).pend t = v :: rest)
    (hlate : strict = true → l.field = .head → t = cfg.consumer l.off →
      (σ l).mem = 0#w ∨ (σ l).mem = c.copied l.off) :
    MemOk strict cfg c g (Function.update σ l (Slot.commit t v rest (σ l))) := by
  obtain ⟨f, a⟩ := l
  have hother : ∀ l, l ≠ ⟨f, a⟩ → Function.update σ ⟨f, a⟩ (Slot.commit t v rest (σ ⟨f, a⟩)) l = σ l :=
    fun l hl => Function.update_of_ne hl _ _
  refine ⟨fun q => ?_, fun q => ?_, fun q => ?_, fun e => ?_, fun hst q hpq => ?_⟩
  · by_cases hl : (⟨.tail, q⟩ : Cell w) = ⟨f, a⟩
    · cases hl; exact absurd hp (h.tail a).1.not_pending
    · rw [hother _ hl]; exact h.tail q
  · by_cases hl : (⟨.shadowHead, q⟩ : Cell w) = ⟨f, a⟩
    · cases hl
      obtain ⟨ho, hv⟩ := h.shadow a
      rw [Function.update_self, ho.commit_view hp]
      exact ⟨ho.commit hp, hv⟩
    · rw [hother _ hl]; exact h.shadow q
  · by_cases hl : (⟨.head, q⟩ : Cell w) = ⟨f, a⟩
    · cases hl
      rw [Function.update_self]
      -- a reset must not overwrite what another producer has stored; `hlate` is about just that
      refine (h.head a).commit hp fun hst ht x t'' hf hne ho hv => ?_
      subst ht
      have hh := h.head a
      rw [hf] at hh
      have hx : g.place x = .queued a := hc.front_queued (by rw [hf]; rfl)
      have hx0 : x ≠ 0#w := hc.pos x (by rw [hx]; simp)
      have hmem : (σ ⟨.head, a⟩).mem = x := by
        rcases hh with ⟨-, hx, -, -⟩ | ⟨-, hv'⟩ | ⟨-, -, -, hlost⟩
        · rw [ho t'' hne] at hx; cases hx
        · exact absurd (hv'.symm.trans hv) hx0
        · exact (hlost hst).1
      have hr := h.reset hst a (by rw [hp]; simp)
      rw [hf] at hr
      rcases hlate hst rfl rfl with h0 | h0
      · exact hx0 (hmem.symm.trans h0)
      · rcases hr with hr | ⟨b, hr⟩
        · exact hne hr
        · rw [← h0, hmem, hx] at hr; cases hr
    · rw [hother _ hl]; exact h.head q
  · by_cases hl : (⟨.next, e⟩ : Cell w) = ⟨f, a⟩
    · cases hl
      rw [Function.update_self]
      exact (h.next a).commit hp
    · rw [hother _ hl]; exact h.next e
  · refine h.reset hst q fun hnil => hpq ?_
    by_cases hl : (⟨.head, q⟩ : Cell w) = ⟨f, a⟩
    · cases hl
      rw [Function.update_self]
      by_cases ht : cfg.consumer a = t
      · rw [ht, hp] at hnil; cases hnil
      · rw [Slot.commit_pend_ne _ _ _ ht]; exact hnil
    · rw [hother _ hl]; exact hnil

end Change

/-! ## One access -/

section Step

variable {x : Access (Cell w) (Word w) Tag}

theorem MemOk.step_enqueue (hb : ∀ t, cfg.base t = 0#w) (h : Inv strict cfg c g σ) {p : EnqueuePc w}
    (hct : c.pc t = .enqueue p) (hx : (queueProgram cfg).access c t = some x) (hm : Moves t σ x σ' v) :
    MemOk strict cfg (resume cfg c t v) (g.record t v (.enqueue p)) σ' := by
  have hp := h.ctl.pc t
  have htok := h.ctl.token t
  obtain ⟨-, ho, -, hco⟩ := resume_fields hb c t v
  generalize resume cfg c t v = c' at *
  obtain ⟨s, hs, rfl⟩ := queueProgram_access c t hx
  rw [hct] at hp htok ho hco hs
  replace ho : c'.owner = c.owner := ho
  replace hco : c'.copied = c.copied := hco
  cases hs
  simp only [Stmt.inPc, queueEnqueue, hb, cellAt_zero, shmSwapRel] at hm
  cases p with
  | setNextNull q e r =>
    have he : g.place e = .entering t .raw := (htok (.entering e .raw)).2 rfl
    have hn := h.mem.next e
    rw [he] at hn
    cases hm
    refine h.mem.onNext _ rfl rfl hco ?_ (fun e' he' => ⟨by rw [ho], rfl, by simp [Ghost.record, Ghost.setPlace, he']⟩)
      (fun _ q b hq => by rw [he] at hq; cases hq)
    simp only [Ghost.record, Ghost.setPlace, Function.update_self]
    exact ⟨Slot.Only.issue hn _, by simp⟩
  | writeBarrier q e r =>
    have he : g.place e = .entering t .nulled := (htok (.entering e .nulled)).2 rfl
    have hn := h.mem.next e
    rw [he] at hn
    -- the barrier waits for the store of null: the link that comes next may be from any thread
    obtain ⟨hon, hv⟩ := hn
    cases hm with
    | fence _ hd =>
      rw [← Function.update_eq_self (⟨.next, e⟩ : Cell w) σ]
      refine h.mem.onNext _ rfl rfl hco ?_
        (fun e' he' => ⟨by rw [ho], rfl, by simp [Ghost.record, Ghost.setPlace, he']⟩)
        (fun _ q b hq => by rw [he] at hq; cases hq)
      simp only [Ghost.record, Ghost.setPlace, Function.update_self]
      have hc := hon.clean (hd rfl _)
      exact ⟨hc, by rw [← hc.view t]; exact hv⟩
  | swapTail q e r =>
    have he : g.place e = .entering t .drained := (htok (.entering e .drained)).2 rfl
    obtain rfl : r = e := hp
    cases hm
    exact h.mem.append h.ctl he ho hco
  | storeHead q e r =>
    have hf : g.front q = .swapped e t := (htok (.head q e)).2 rfl
    obtain rfl : r = e := hp
    have hh := h.mem.head q
    have hs := h.mem.shadow q
    rw [hf] at hh hs
    obtain ⟨hon, hv⟩ := hh
    cases hm
    refine h.mem.onFront (fun l hl _ => Function.update_of_ne hl _ _) ho (fun _ _ => by rw [hco])
      (by rw [Function.update_of_ne (by simp)]; exact hs) ?_ (fun hst hpd => ?_)
    · rw [Function.update_self]
      -- a store of the consumer's own reaches memory after its reset, one of another thread when it will
      by_cases ht : t = cfg.consumer q
      · subst ht; exact .inr (.inl ⟨hon.issue _, by simp⟩)
      · refine .inl ⟨ht, by simp [hon t ht], fun t' h1 h2 => ?_, ?_⟩
        · rw [Slot.issue_pend_ne _ _ h1]; exact hon t' h2
        · rw [Slot.issue_view_ne _ _ (Ne.symm ht)]; exact hv
    · rw [Function.update_self] at hpd
      by_cases ht : t = cfg.consumer q
      · exact .inl ht
      · rw [Slot.issue_pend_ne _ _ (Ne.symm ht)] at hpd
        have hr := h.mem.reset hst q hpd
        rw [hf] at hr
        rw [hco]; exact .inr hr
  | storeLink q e r p =>
    have hl : g.link p = .swapped e t := (htok (.link p e)).2 rfl
    obtain ⟨rfl, hpq⟩ := hp
    have hn := h.mem.linkOk hpq
    rw [hl] at hn
    obtain ⟨hc, h0⟩ := hn
    cases hm
    refine h.mem.onNext _ rfl rfl hco ?_ (fun e' he' => ⟨by rw [ho], by simp [Ghost.record, Ghost.setLink, he'], rfl⟩)
      (fun _ q b hq => by rw [hpq] at hq; cases hq)
    simp only [Ghost.record, Ghost.setLink, Function.update_self, hpq]
    by_cases ht : t = cfg.consumer q
    · exact .inr ⟨ht ▸ (hc.only t).issue _, by rw [← ht]; simp⟩
    · exact .inl ⟨ht, (hc.only t).issue _, by simp [hc t], h0⟩

theorem MemOk.step_isEmpty (hb : ∀ t, cfg.base t = 0#w) (h : Inv strict cfg c g σ) {p : IsEmptyPc w}
    (hct : c.pc t = .isEmpty p) (hx : (queueProgram cfg).access c t = some x) (hm : Moves t σ x σ' v) :
    MemOk strict cfg (resume cfg c t v) (g.record t v (.isEmpty p)) σ' := by
  have hp := h.ctl.pc t
  have htok := h.ctl.token t
  obtain ⟨-, ho, -, hco⟩ := resume_fields hb c t v
  generalize resume cfg c t v = c' at *
  obtain ⟨s, hs, rfl⟩ := queueProgram_access c t hx
  rw [hct] at hp htok ho hco hs
  replace ho : c'.owner = c.owner := ho
  cases hs
  simp only [Stmt.inPc, queueIsEmpty, hb, cellAt_zero] at hm
  cases p with
  | testShadow q => cases hm; exact h.mem.congr (fun _ _ _ => rfl) ho hco
  | testHead q =>
    obtain ⟨ht, -⟩ : t = cfg.consumer q ∧ _ := hp
    replace hco : c'.copied = c.copied := hco
    have hh := h.mem.head q
    rw [← ht] at hh
    cases hm
    by_cases hv : (σ ⟨.head, q⟩).view t = 0#w
    · rw [show g.record t _ (.isEmpty (.testHead q)) = g from if_pos hv]
      exact h.mem.congr (fun _ _ _ => rfl) ho hco
    · rw [show g.record t _ (.isEmpty (.testHead q)) = g.setFront q (.seen _) from if_neg hv]
      -- what is not null in `head` is the element of the producer that found the queue empty
      obtain ⟨t', hf, hon⟩ := hh.view_ne_zero
        (fun x hf => by simpa [Pc.token] using (htok (.seen q)).1 ⟨ht, x, hf⟩)
        (fun x hf => by simpa [Pc.token] using (htok (.copied q)).1 ⟨ht, x, hf⟩) hv
      have hs := h.mem.shadow q
      rw [hf] at hs
      refine h.mem.onFront (fun _ _ _ => rfl) ho (fun _ _ => by rw [hco]) hs ?_ (fun _ _ => trivial)
      rw [← ht]; exact ⟨hon, rfl⟩
  | loadHead q => cases hm; exact h.mem.congr (fun _ _ _ => rfl) ho hco
  | storeShadow q y =>
    have hf : g.front q = .seen y := hp
    obtain ⟨ht, -⟩ := (htok (.seen q)).2 rfl
    replace hco : c'.copied = Function.update c.copied q y := hco
    have hh := h.mem.head q
    have hs := h.mem.shadow q
    rw [hf] at hh
    cases hm
    refine h.mem.onFront (fun l _ hl => Function.update_of_ne hl _ _) ho
      (fun q' hq => by rw [hco, Function.update_of_ne hq]) ?_ (by rw [Function.update_of_ne (by simp)]; exact hh)
      (fun _ _ => trivial)
    rw [Function.update_self, ← ht]
    exact ⟨Slot.Only.issue (ht ▸ hs.1) _, by simp [Front.shadow]⟩
  | resetHead q =>
    obtain ⟨ht, y, hf⟩ := (htok (.copied q)).2 rfl
    replace hco : c'.copied = c.copied := hco
    have hh := h.mem.head q
    have hs := h.mem.shadow q
    rw [hf] at hh
    cases hm
    refine h.mem.onFront (fun l hl _ => Function.update_of_ne hl _ _) ho (fun _ _ => by rw [hco])
      (by rw [Function.update_of_ne (by simp), hf]; rw [hf] at hs; exact hs) ?_ (fun _ _ => .inl ?_)
    · rw [Function.update_self, ← ht]
      exact ⟨Slot.Only.issue (ht ▸ hh.1) _, by simp⟩
    · rw [hco, hf]; exact h.ctl.copied q y hf

omit [DecidableEq T] in
/-- The consumer sees a link of the front element that has been stored. -/
theorem Inv.seeLink (h : Inv strict cfg c g σ) {q e : Word w} (ht : t = cfg.consumer q)
    (he : (g.front q).elt = some e) (hv : (σ ⟨.next, e⟩).view t ≠ 0#w) (ho : c'.owner = c.owner)
    (hco : c'.copied = c.copied) : MemOk strict cfg c' (g.setLink e (.seen ((σ ⟨.next, e⟩).view t))) σ := by
  have hq := h.ctl.front_queued he
  have hl := h.mem.linkOk hq
  rw [← ht] at hl
  rw [← Function.update_eq_self (⟨.next, e⟩ : Cell w) σ]
  refine h.mem.onNext _ rfl rfl hco ?_ (fun e' he' => ⟨by rw [ho], by simp [Ghost.setLink, he'], rfl⟩)
    (fun _ q b hq' => by rw [hq] at hq'; cases hq')
  simp only [Ghost.setLink, Function.update_self, hq]
  exact ⟨ht ▸ (hl.view_ne_zero hv).2, by rw [← ht]⟩

/-- The consumer stores to its `shadow_head`. -/
theorem MemOk.issue_shadow (h : MemOk strict cfg c g σ) {q : Word w} (ht : t = cfg.consumer q) (y : Word w) :
    ((σ ⟨.shadowHead, q⟩).issue t y).Only (cfg.consumer q) ∧
      ((σ ⟨.shadowHead, q⟩).issue t y).view (cfg.consumer q) = y := by
  rw [← ht]
  exact ⟨Slot.Only.issue (ht ▸ (h.shadow q).1) _, by simp⟩

/-- It takes the successor of the front over to `shadow_head`. -/
theorem Inv.advance (h : Inv strict cfg c g σ) {q e y : Word w} (ht : t = cfg.consumer q)
    (hf : g.front q = .taken e ∨ g.front q = .held e) (hl : g.link e = .seen y) (ho : c'.owner = c.owner)
    (hco : c'.copied = c.copied) : MemOk strict cfg c' (g.detach q e (.taken y))
      (Function.update σ ⟨.shadowHead, q⟩ ((σ ⟨.shadowHead, q⟩).issue t y)) := by
  have he : (g.front q).elt = some e := by rcases hf with h | h <;> rw [h] <;> rfl
  obtain ⟨l, hch⟩ := h.ctl.ghost.chain_second (y := y) he (by rw [hl]; rfl)
  have htl := h.mem.tail q
  refine h.mem.detach h.ctl hf (.inr ⟨y, hl⟩) (.inr ⟨y, rfl⟩) (fun l _ hl => Function.update_of_ne hl _ _) ?_
    (by rw [Function.update_self]; exact h.mem.issue_shadow ht y) ho hco
  rw [Function.update_of_ne (by simp)]
  rw [hch] at htl ⊢
  exact htl

theorem MemOk.step_dequeue (hb : ∀ t, cfg.base t = 0#w) (h : Inv strict cfg c g σ) {p : DequeuePc w}
    (hct : c.pc t = .dequeue p) (hx : (queueProgram cfg).access c t = some x) (hm : Moves t σ x σ' v)
    (hdr : strict = true → cfg.readBarrierDrains = true ∨ ∀ l, (σ l).pend t = []) :
    MemOk strict cfg (resume cfg c t v) (g.record t v (.dequeue p)) σ' := by
  have hp := h.ctl.pc t
  have htok := h.ctl.token t
  obtain ⟨-, ho, -, hco⟩ := resume_fields hb c t v
  generalize resume cfg c t v = c' at *
  obtain ⟨s, hs, rfl⟩ := queueProgram_access c t hx
  rw [hct] at hp htok ho hco hs
  replace hco : c'.copied = c.copied := hco
  cases hs
  simp only [Stmt.inPc, queueDequeue, hb, cellAt_zero, shmCasRelNull] at hm
  cases p with
  | loadShadow q => cases hm; exact h.mem.congr (fun _ _ _ => rfl) ho hco
  | testNext q r e =>
    obtain ⟨-, ht, -, hf⟩ := hp
    cases hm
    by_cases hv : (σ ⟨.next, e⟩).view t = 0#w
    · rw [show g.record t _ (.dequeue (.testNext q r e)) = g from if_pos hv]
      exact h.mem.congr (fun _ _ _ => rfl) ho hco
    · rw [show g.record t _ (.dequeue (.testNext q r e)) = g.setLink e (.seen _) from if_neg hv]
      exact h.seeLink ht (by rw [hf]; rfl) hv ho hco
  | loadNext q r e => cases hm; exact h.mem.congr (fun _ _ _ => rfl) ho hco
  | storeShadow q r e n =>
    obtain ⟨-, ht, hf, hn⟩ := hp
    cases hm
    exact h.advance ht (.inl hf) hn ho hco
  | resetShadow q r e =>
    obtain ⟨-, ht, -, hf⟩ := hp
    have hh := h.mem.head q
    rw [hf] at hh
    cases hm
    refine h.mem.onFront (fun l _ hl => Function.update_of_ne hl _ _) ho (fun _ _ => by rw [hco])
      (by rw [Function.update_self]; exact h.mem.issue_shadow ht _) (by rw [Function.update_of_ne (by simp)]; exact hh)
      (fun hst hpd => ?_)
    rw [Function.update_of_ne (by simp)] at hpd
    have hr := h.mem.reset hst q hpd
    rw [hf] at hr
    rw [hco]; exact hr
  | casTail q r e =>
    obtain ⟨rfl, hf⟩ := hp
    obtain ⟨ht, -⟩ := (htok (.held q)).2 rfl
    have htl := h.mem.tail q
    have hs := h.mem.shadow q
    rw [hf] at hs
    cases hm with
    | casMiss _ _ _ hne =>
      rw [show g.record t _ (.dequeue (.casTail q r r)) = g from if_neg hne]
      exact h.mem.congr (fun _ _ _ => rfl) ho hco
    | casHit _ _ _ _ hm =>
      rw [show g.record t v (.dequeue (.casTail q v v)) = g.detach q v .none from if_pos rfl]
      have hmem : v ∈ g.chain q := ((h.ctl.chain q).mem v).2 (h.ctl.front_queued (by rw [hf]; rfl))
      have hlast : (g.chain q).getLast? = some v := by
        have := htl.2.symm.trans hm
        rw [List.getLastD_eq_getLast?] at this
        cases hl : (g.chain q).getLast? with
        | none => rw [List.getLast?_eq_none_iff.1 hl] at hmem; cases hmem
        | some z => rw [hl] at this; cases this; rfl
      -- the front is the last element, so it is the only one
      have hsingle : g.chain q = [v] := h.ctl.ghost.chain_single (by rw [hf]; rfl) (h.ctl.ghost.link_last hlast)
      refine h.mem.detach h.ctl (.inr hf) (.inl (h.ctl.ghost.link_last hlast)) (.inl rfl)
        (fun l hl _ => Function.update_of_ne hl _ _) ?_ (by rw [Function.update_of_ne (by simp)]; exact hs) ho hco
      rw [Function.update_self, hsingle]
      exact ⟨htl.1.write _, rfl⟩
  | busyWait q r e =>
    obtain ⟨-, hf, -⟩ := hp
    obtain ⟨ht, -⟩ := (htok (.held q)).2 rfl
    cases hm
    by_cases hv : (σ ⟨.next, e⟩).view t = 0#w
    · rw [show g.record t _ (.dequeue (.busyWait q r e)) = g from if_pos hv]
      exact h.mem.congr (fun _ _ _ => rfl) ho hco
    · rw [show g.record t _ (.dequeue (.busyWait q r e)) = g.setLink e (.seen _) from if_neg hv]
      exact h.seeLink ht (by rw [hf]; rfl) hv ho hco
  | reloadNext q r e => cases hm; exact h.mem.congr (fun _ _ _ => rfl) ho hco
  | storeLateShadow q r e n =>
    obtain ⟨-, hf, hn⟩ := hp
    obtain ⟨ht, -⟩ := (htok (.held q)).2 rfl
    cases hm
    exact h.advance ht (.inr hf) hn ho hco
  | clearNext q e =>
    obtain ⟨ht, he⟩ := (htok (.leaving q e false)).2 rfl
    replace ho : c'.owner = c.owner := ho
    have hn := h.mem.next e
    rw [he] at hn
    cases hm
    refine h.mem.onNext _ rfl rfl hco ?_ (fun e' he' => ⟨by rw [ho], rfl, by simp [Ghost.record, Ghost.setPlace, he']⟩)
      (fun _ q' b hq => .inl ⟨true, by rw [he] at hq; cases hq; simp [Ghost.record, Ghost.setPlace]⟩)
    simp only [Ghost.record, Ghost.setPlace, Function.update_self, NextOk]
    rw [← ht]
    exact ⟨Slot.Only.issue (ht ▸ hn) _, by simp⟩
  | readBarrier q e =>
    obtain ⟨ht, he⟩ := (htok (.leaving q e true)).2 rfl
    replace ho : c'.owner = Function.update c.owner e (if cfg.readBarrierDrains then .free else .held t) := ho
    have hn := h.mem.next e
    rw [he] at hn
    obtain ⟨hon, -⟩ := hn
    rw [← ht] at hon
    cases hm with
    | fence _ hd =>
      rw [← Function.update_eq_self (⟨.next, e⟩ : Cell w) σ]
      refine h.mem.onNext _ rfl rfl hco ?_
        (fun e' he' => ⟨by rw [ho, Function.update_of_ne he'], rfl, by simp [Ghost.record, Ghost.setPlace, he']⟩)
        (fun hst q' b hq => .inr ?_)
      · simp only [Ghost.record, Ghost.setPlace, Function.update_self, ho]
        split
        · rename_i hdr'; exact hon.clean (hd hdr' _)
        · exact hon
      · rw [he] at hq; cases hq
        rw [← ht]
        -- a reset that was pending has reached memory by now
        rcases hdr hst with hd' | hd'
        · exact hd hd' _
        · exact hd' _

theorem MemOk.step_client (hb : ∀ t, cfg.base t = 0#w) (h : Inv strict cfg c g σ) {p : ClientPc w}
    (hct : c.pc t = .client p) (hx : (queueProgram cfg).access c t = some x) (hm : Moves t σ x σ' v) :
    MemOk strict cfg (resume cfg c t v) (g.record t v (.client p)) σ' := by
  have hp := h.ctl.pc t
  obtain ⟨-, ho, -, hco⟩ := resume_fields hb c t v
  generalize resume cfg c t v = c' at *
  obtain ⟨s, hs, rfl⟩ := queueProgram_access c t hx
  rw [hct] at hp ho hco hs
  cases hs
  simp only [Stmt.inPc, clientCode, hb, cellAt_zero] at hm
  have hout : ∀ {e}, c.owner e = .held t → g.place e = .out := fun {e} he => by
    rw [h.ctl.owner e, he]; simp
  cases p with
  | write e k y =>
    cases hm
    exact h.mem.congr (fun f a hf => Function.update_of_ne (by simpa using fun h => absurd h (hf k)) _ _) ho hco
  | reuse e y =>
    have he : c.owner e = .held t := hp
    replace ho : c'.owner = c.owner := ho
    have hn := h.mem.next e
    rw [hout he, he] at hn
    cases hm
    refine h.mem.onNext _ rfl rfl hco ?_ (fun e' _ => ⟨by rw [ho], rfl, rfl⟩)
      (fun _ q b hq => by rw [hout he] at hq; cases hq)
    rw [ho, he]
    simp only [Ghost.record, hout he]
    exact Slot.Only.issue hn _
  | handOff e =>
    have he : c.owner e = .held t := hp
    replace ho : c'.owner = Function.update c.owner e .free := ho
    have hn := h.mem.next e
    rw [hout he, he] at hn
    cases hm with
    | fence _ hd =>
      rw [← Function.update_eq_self (⟨.next, e⟩ : Cell w) σ]
      refine h.mem.onNext _ rfl rfl hco ?_ (fun e' he' => ⟨by rw [ho, Function.update_of_ne he'], rfl, rfl⟩)
        (fun _ q b hq => by rw [hout he] at hq; cases hq)
      rw [ho, Function.update_self]
      simp only [Ghost.record, hout he]
      exact Slot.Only.clean hn (hd rfl _)

/-- Every access keeps the protocol; to be strict, the read barrier must drain the pending stores, or
nothing be pending. -/
theorem Inv.step (hb : ∀ t, cfg.base t = 0#w) (h : Inv strict cfg c g σ)
    (hx : (queueProgram cfg).access c t = some x) (hm : Moves t σ x σ' v)
    (hdr : strict = true → cfg.readBarrierDrains = true ∨ ∀ l, (σ l).pend t = []) :
    Inv strict cfg (resume cfg c t v) (g.record t v (c.pc t)) σ' := by
  refine ⟨h.ctl.step hb (h.reads hb hx hm), ?_⟩
  cases hct : c.pc t with
  | idle =>
    obtain ⟨s, hs, -⟩ := queueProgram_access c t hx
    rw [hct] at hs; cases hs
  | enqueue p => exact MemOk.step_enqueue hb h hct hx hm
  | isEmpty p => exact MemOk.step_isEmpty hb h hct hx hm
  | peekHead p =>
    obtain ⟨-, ho, -, hco⟩ := resume_fields hb c t v
    obtain ⟨s, hs, rfl⟩ := queueProgram_access c t hx
    rw [hct] at ho hco hs
    cases hs
    simp only [Stmt.inPc, queuePeekHead] at hm
    cases p <;> cases hm <;> exact h.mem.congr (fun _ _ _ => rfl) ho hco
  | dequeue p => exact MemOk.step_dequeue hb h hct hx hm hdr
  | client p => exact MemOk.step_client hb h hct hx hm

/-- Only `t` may have stores to an element that it may enqueue. -/
theorem Inv.available (h : Inv strict cfg c g σ) {e : Word w} (ha : c.available t e = true) :
    (σ ⟨.next, e⟩).Only t := by
  have hn := h.mem.next e
  rw [h.ctl.available_out ha] at hn
  rcases Ctl.available_iff.1 ha with ho | ho
  · rw [ho] at hn
    exact Slot.Clean.only hn t
  · rw [ho] at hn
    exact hn

/-- Every call keeps the protocol. -/
theorem Inv.call (hb : ∀ t, cfg.base t = 0#w) (h : Inv strict cfg c g σ) {a : Call T w}
    (hc : Queue.call cfg c a = some c') : Inv strict cfg c' (g.enter a) σ := by
  refine ⟨h.ctl.call hb hc, ?_⟩
  cases a with
  | enqueue t q e =>
    simp only [Queue.call, hb, shmAbsToRel_zero] at hc
    split at hc
    · rename_i hg
      obtain ⟨-, -, hav⟩ := hg
      cases hc
      have hout : g.place e = .out := h.ctl.available_out hav
      rw [← Function.update_eq_self (⟨.next, e⟩ : Cell w) σ]
      refine h.mem.onNext _ rfl rfl rfl ?_
        (fun e' he' => ⟨by simp [he'], rfl, by simp [Ghost.enter, Ghost.setPlace, he']⟩)
        (fun _ q b hq => by rw [hout] at hq; cases hq)
      simp only [Ghost.enter, Ghost.setPlace, Function.update_self]
      exact h.available hav
    · cases hc
  | reuse t e y =>
    simp only [Queue.call, hb, shmAbsToRel_zero] at hc
    split at hc
    · rename_i hg
      obtain ⟨-, hav⟩ := hg
      cases hc
      have hout : g.place e = .out := h.ctl.available_out hav
      rw [← Function.update_eq_self (⟨.next, e⟩ : Cell w) σ]
      refine h.mem.onNext _ rfl rfl rfl ?_ (fun e' he' => ⟨by simp [he'], rfl, rfl⟩)
        (fun _ q b hq => by rw [hout] at hq; cases hq)
      simp only [Function.update_self, Ghost.enter, hout]
      exact h.available hav
    · cases hc
  | _ =>
    simp only [Queue.call] at hc
    split at hc
    · cases hc; exact h.mem.congr (fun _ _ _ => rfl) rfl rfl
    · cases hc

end Step

end

end OpenPA.Queue
