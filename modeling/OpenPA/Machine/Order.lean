/-
The order in which buffered stores reach memory. A rank of stores is kept by a cell (`Ranked`) when the
stores that have reached it, followed by those that a thread has pending for it, come in the order of
their ranks. A new store keeps this when no store to the cell has a higher rank, and a commit keeps it
when the cell has one writer at a time. A thread's stores are past a mark (`Past`) when those with a
smaller number have all reached memory; a draining fence sets such a mark, and nothing undoes it.
-/
import OpenPA.Machine.Memory

namespace OpenPA.Machine

variable {T L V G C A : Type}

/-- The store that an access issues. -/
def Access.issued : Access L V G → List (Pending L V G)
  | .store l v g => [⟨l, v, g⟩]
  | _ => []

namespace Buffered

variable [DecidableEq L]

/-- The stores that have reached `l`, in the order they did. -/
def logOn (s : Buffered T L V G C) (l : L) : List (Pending L V G) := s.log.filter fun p => decide (p.loc = l)

/-- The stores to `l` that have reached it, and then those of `t` that have not. -/
def writes (s : Buffered T L V G C) (t : T) (l : L) : List (Pending L V G) := s.logOn l ++ s.on t l

/-- The stores to `l` reach it in the order of their ranks, which are below `bound`. -/
structure Ranked (rank : G → Nat) (bound : Nat) (s : Buffered T L V G C) (l : L) : Prop where
  sorted : ∀ t, (s.writes t l).Pairwise fun a b => rank a.tag ≤ rank b.tag
  below : ∀ t, ∀ p ∈ s.writes t l, rank p.tag < bound

/-- Every pending store of `t` has at least the number `n`. -/
def Past (seq : G → Nat) (s : Buffered T L V G C) (t : T) (n : Nat) : Prop := ∀ p ∈ s.pend t, n ≤ seq p.tag

variable {rank : G → Nat} {n n' : Nat} {s s' : Buffered T L V G C} {t : T} {l : L} {p : Pending L V G}

theorem Ranked.mono (h : Ranked rank n s l) (hn : n ≤ n') : Ranked rank n' s l where
  sorted := h.sorted
  below := by
    intro t p hp
    have := h.below t p hp
    omega

/-- What the ranks of a cell depend on. -/
theorem Ranked.congr (h : Ranked rank n s l) (hlog : s'.log = s.log) (hon : ∀ t, s'.on t l = s.on t l) :
    Ranked rank n s' l := by
  have hw : ∀ t, s'.writes t l = s.writes t l := by
    intro t
    unfold writes logOn
    rw [hlog, hon]
  constructor
  · intro t
    rw [hw]
    exact h.sorted t
  · intro t
    rw [hw]
    exact h.below t

/-- A new store of `t` to the cell, of no smaller rank than the stores to it so far. -/
theorem Ranked.issue (h : Ranked rank n s l) (hlog : s'.log = s.log) (hon : s'.on t l = s.on t l ++ [p])
    (hother : ∀ t', t' ≠ t → s'.on t' l = s.on t' l) (hle : n ≤ rank p.tag + 1) (hlt : rank p.tag < n')
    (hn : n ≤ n') : Ranked rank n' s' l := by
  have hself : s'.writes t l = s.writes t l ++ [p] := by
    unfold writes logOn
    rw [hlog, hon, List.append_assoc]
  have hrest : ∀ t', t' ≠ t → s'.writes t' l = s.writes t' l := by
    intro t' ht
    unfold writes logOn
    rw [hlog, hother t' ht]
  constructor
  · intro t'
    by_cases ht : t' = t
    · rw [ht, hself, List.pairwise_append]
      refine ⟨h.sorted t, List.pairwise_singleton _ _, ?_⟩
      intro a ha b hb
      rw [List.mem_singleton] at hb
      subst hb
      have := h.below t a ha
      omega
    · rw [hrest t' ht]
      exact h.sorted t'
  · intro t' a ha
    by_cases ht : t' = t
    · rw [ht, hself, List.mem_append, List.mem_singleton] at ha
      rcases ha with ha | rfl
      · have := h.below t a ha
        omega
      · exact hlt
    · rw [hrest t' ht] at ha
      have := h.below t' a ha
      omega

variable [DecidableEq T]

/-- A store of `t` that reaches its cell, for which no other thread has a store pending. -/
theorem Ranked.commit {l' : L} (h : Ranked rank n s l) (hs : s.commit t l' = some s')
    (hone : l = l' → ∀ t', t' ≠ t → s.on t' l' = []) : Ranked rank n s' l := by
  obtain ⟨p, rest, hpl, hon, hon', -, hlog, -, hpend, -, hother⟩ := commit_spec hs
  by_cases hl : l = l'
  · subst hl
    have hone := hone rfl
    have hlog' : s'.logOn l = s.logOn l ++ [p] := by
      unfold logOn
      rw [hlog, List.filter_append]
      simp [hpl]
    have hself : s'.writes t l = s.writes t l := by
      unfold writes
      rw [hlog', hon', hon, List.append_assoc, List.singleton_append]
    -- the other threads have nothing pending: their line is the log alone
    have hrest : ∀ t', t' ≠ t → ∃ m, s'.writes t' l ++ m = s.writes t l := by
      intro t' ht
      refine ⟨rest, ?_⟩
      unfold writes
      rw [on_of_pend (hpend t' ht), hone t' ht, hlog', hon, List.append_nil, List.append_assoc, List.singleton_append]
    constructor
    · intro t'
      by_cases ht : t' = t
      · rw [ht, hself]
        exact h.sorted t
      · obtain ⟨m, hm⟩ := hrest t' ht
        have hsorted := h.sorted t
        rw [← hm, List.pairwise_append] at hsorted
        exact hsorted.1
    · intro t' a ha
      by_cases ht : t' = t
      · rw [ht, hself] at ha
        exact h.below t a ha
      · obtain ⟨m, hm⟩ := hrest t' ht
        apply h.below t
        rw [← hm]
        exact List.mem_append_left _ ha
  · have hw : ∀ t', s'.writes t' l = s.writes t' l := by
      intro t'
      have hlog' : s'.logOn l = s.logOn l := by
        unfold logOn
        rw [hlog, List.filter_append]
        simp [hpl, Ne.symm hl]
      unfold writes
      by_cases ht : t' = t
      · rw [ht, hlog', hother l hl]
      · rw [hlog', on_of_pend (hpend t' ht)]
    constructor
    · intro t'
      rw [hw]
      exact h.sorted t'
    · intro t'
      rw [hw]
      exact h.below t'

/-- A commit takes stores out of the pending ones. -/
theorem Past.commit {seq : G → Nat} {l' : L} {t' : T} (h : Past seq s t n) (hs : s.commit t' l' = some s') :
    Past seq s' t n := by
  obtain ⟨p, rest, -, -, -, -, -, -, hpend, hsub, -⟩ := commit_spec hs
  intro a ha
  by_cases ht : t = t'
  · subst ht
    exact h a (hsub a ha)
  · rw [hpend t ht] at ha
    exact h a ha

end Buffered

section

variable [DecidableEq T] [DecidableEq L] [DecidableEq V] [Inhabited V]

/-- What an access does to the pending stores: it may issue one, and a draining fence is only passed when
there are none. -/
theorem bufferedStep_issued {P : Program T L V G C A} {s s' : Buffered T L V G C} {t : T}
    (h : bufferedStep P s (.step t) = some s') {x : Access L V G} (hx : P.access s.ctl t = some x) :
    s'.log = s.log ∧ s'.pend = Function.update s.pend t (s.pend t ++ x.issued) ∧
      (x = .fence true → s.pend t = []) := by
  simp only [bufferedStep, hx] at h
  cases x with
  | load l =>
    cases h
    simp [Access.issued]
  | store l v g =>
    cases h
    simp [Access.issued, Buffered.issue]
  | swap l v =>
    simp only at h
    split at h
    · cases h
      simp [Access.issued]
    · cases h
  | cas l old new =>
    simp only at h
    split at h
    · cases h
      simp [Access.issued]
    · cases h
  | fence d =>
    simp only [Bool.and_eq_true, Bool.not_eq_true', List.isEmpty_eq_false_iff] at h
    split at h
    · cases h
    · rename_i hd
      cases h
      refine ⟨rfl, by simp [Access.issued], ?_⟩
      intro hdr
      cases hdr
      simpa using hd

end

end OpenPA.Machine
