import PortableConcurrency.Continuations.Model
import PortableConcurrency.Stack.Linearizable

/-!
# `continuations_stack` — the invariant

Every continuation handed to `push` is in one of three places: still in
its own call, in the list that will be walked, or called once. The list
the loop is walking cannot change under it, because what is taken from
the stack is touched again only by its own release.
-/

namespace PortableConcurrency

namespace Stack

variable {Op T : Type*} [DecidableEq Op] {input : Op → T} {s t : State Op T} {e : Event Op}

/-- **A consumed list is left alone** by every step but its own
release. -/
theorem consumed_frame (h : Inv input s) (hst : Step s e t) (hm : s.head = .marker)
    (he : ∀ i, e ≠ .free .consumer i) {i : Op} (hi : i ∈ s.pushed) (hrel : s.released i = []) :
    t.heap (s.cell i) = s.heap (s.cell i) ∧ t.cell i = s.cell i ∧ t.released i = [] := by
  have hph : s.phase i = .succeeded := (h.succeeded i).mpr hi
  obtain ⟨nd, hnd, hown⟩ := h.in_heap (i := i) (by simp [hph]) hrel
  cases hst with
  | @begin j a hlive hj hfree =>
    have hne : s.cell i ≠ a := by
      rintro rfl
      rw [hfree] at hnd
      cases hnd
    have hij : i ≠ j := by
      rintro rfl
      rw [hph] at hj
      cases hj
    simp [State.allocate, hne, hij, hrel]
  | @load j a hj =>
    have hne : s.cell i ≠ a := by
      rintro rfl
      grind [h.allocated j _ hj]
    simp [State.load, hm, State.giveBack, hne, hrel]
  | @cas j a nd hj hnd =>
    have hne : s.cell i ≠ a := by
      rintro rfl
      grind [h.linking j _ hj]
    unfold State.cas
    split_ifs <;> simp [State.giveBack, State.setNext, State.setPhase, hne, hrel]
  | consume => exact ⟨rfl, rfl, hrel⟩
  | destroy =>
    unfold State.destroy
    split <;> exact ⟨rfl, rfl, hrel⟩
  | @free r j a nd' hp hnd' =>
    have hne : s.cell i ≠ a := by
      rintro rfl
      cases r with
      | push =>
        have hphj : s.phase j = .failed (.node (s.cell i)) := by
          simp only [State.deleting] at hp
          grind
        grind [h.failed j _ hphj]
      | consumer => exact he j rfl
      | destructor =>
        obtain ⟨p, hhold⟩ := h.marker.mp hm
        simp [State.deleting, hhold] at hp
    have hown' : nd'.owner ≠ i := by
      rintro rfl
      exact hne (h.owned a nd' hnd').1
    cases r <;> simp [State.free, State.setPhase, hne, hown'.symm, hrel]

/-- The nodes taken stay with their taker, and an unconsumed stack is
consumed by `consume` only. -/
theorem holder_step (h : Inv input s) (hst : Step s e t) (he : e ≠ .consume) :
    (t.head = .marker → s.head = .marker) ∧
      (s.head = .marker → (∀ i, e ≠ .free .consumer i) → t.holder = s.holder) := by
  cases hst with
  | begin => exact ⟨id, fun _ _ => rfl⟩
  | load => simp
  | @cas i a nd hi hnd =>
    unfold State.cas
    split_ifs <;> simp_all [State.giveBack, State.setNext, State.setPhase]
  | consume => exact absurd rfl he
  | destroy =>
    unfold State.destroy
    split
    · exact ⟨id, fun _ _ => rfl⟩
    · rename_i hm
      exact ⟨id, fun hm' => absurd (.inr hm') hm⟩
  | @free r j a nd hp hnd =>
    refine ⟨by simp, fun hm hfree => ?_⟩
    cases r with
    | push => rfl
    | consumer => exact absurd rfl (hfree j)
    | destructor =>
      obtain ⟨p, hhold⟩ := h.marker.mp hm
      simp [State.deleting, hhold] at hp

/-- Only the destructor destroys. -/
theorem destroyed_step (hst : Step s e t) (he : e ≠ .destroy) : t.destroyed = s.destroyed := by
  cases hst with
  | begin | consume => rfl
  | load | free => simp
  | cas =>
    unfold State.cas
    split_ifs <;> rfl
  | destroy => exact absurd rfl he

/-- Once `push` has returned false its phase stands still. -/
theorem failed_null_step {i : Op} (hst : Step s e t) (hi : s.phase i = .failed .null) :
    t.phase i = .failed .null := by
  refine failed_step hst hi ?_
  rintro rfl
  cases hst with
  | free hp => simp [State.deleting, hi] at hp

end Stack

namespace Continuations

open Stack (Ptr Node Phase Holder Chain)

variable {Op : Type*} [DecidableEq Op] {s t : State Op} {e : Event Op} {i : Op} {p : Ptr}

/-- How far the producer has got with the pushed continuations. -/
def Walked (s : State Op) : Exec → Prop
  | .idle | .stored => ∀ i ∈ s.stack.pushed, s.invoked i = 0
  | .loop p => ∃ before rest, s.stack.pushed = before ++ rest ∧
      Chain id s.stack.cell s.stack.heap p rest ∧
      (∀ i ∈ before, s.invoked i = 1) ∧ (∀ i ∈ rest, s.invoked i = 0) ∧
      ∀ i ∈ s.stack.pushed, s.stack.released i = []
  | .calling p => ∃ before i rest, s.stack.pushed = before ++ i :: rest ∧
      Chain id s.stack.cell s.stack.heap p (i :: rest) ∧
      (∀ i ∈ before, s.invoked i = 1) ∧ s.invoked i = 1 ∧ (∀ i ∈ rest, s.invoked i = 0) ∧
      ∀ i ∈ s.stack.pushed, s.stack.released i = []
  | .releasing | .done => ∀ i ∈ s.stack.pushed, s.invoked i = 1

/-- **The invariant.** -/
structure Inv (s : State Op) : Prop where
  stack : Stack.Inv id s.stack
  marker : s.stack.head = .marker ↔ s.exec ≠ .idle ∧ s.exec ≠ .stored
  pending : ∀ i, ¬ (s.stack.phase i).Settled → s.invoked i = 0
  failed : ∀ i p, s.stack.phase i = .failed p → s.invoked i = (s.inlined i).toNat
  inlined : ∀ i, s.inlined i = true → s.stack.phase i = .failed .null
  walked : Walked s s.exec
  done : s.exec = .done → s.stack.holder = .consumer .null
  live : s.exec = .stored → s.stack.destroyed = false

omit [DecidableEq Op] in
theorem inv_init : Inv (init : State Op) := by
  refine ⟨Stack.inv_init, ?_, ?_, ?_, ?_, ?_, ?_, ?_⟩ <;> simp [init, Stack.init, Walked]

namespace Inv

/-- The steps of pushes and of the destructor. -/
theorem stack_step {e : Stack.Event Op} {t : Stack.State Op Op} (h : Inv s) (hfor : Foreign e)
    (hexec : e = .destroy → s.exec ≠ .stored) (hst : Stack.Step s.stack e t) :
    Inv { s with stack := t } := by
  have hcons : e ≠ .consume := by rintro rfl; exact hfor
  have hfree : ∀ i, e ≠ .free .consumer i := by rintro i rfl; exact hfor rfl
  have hset : ∀ i, (s.stack.phase i).Settled → (t.phase i).Settled := by
    rintro i (hi | hi)
    · exact .inl ((Stack.settled_step hst).1 hi)
    · exact .inr ((Stack.settled_step hst).2 hi)
  have hhead : t.head = .marker ↔ s.stack.head = .marker :=
    ⟨(Stack.holder_step h.stack hst hcons).1, fun hm => (Stack.consumed_step h.stack hst hm).1⟩
  refine ⟨Stack.inv_step h.stack hst, ?_, ?_, ?_, ?_, ?_, ?_, ?_⟩
  · exact hhead.trans h.marker
  · exact fun i hi => h.pending i fun hs => hi (hset i hs)
  · intro i p hp
    by_cases hs : (s.stack.phase i).Settled
    · rcases hs with hs | ⟨q, hq⟩
      · rw [(Stack.settled_step hst).1 hs] at hp
        cases hp
      · exact h.failed i q hq
    · have hin : s.inlined i = false := by
        by_contra hin
        exact hs (.inr ⟨.null, h.inlined i (by simpa using hin)⟩)
      simpa [hin] using h.pending i hs
  · exact fun i hi => Stack.failed_null_step hst (h.inlined i hi)
  · have hwalked := h.walked
    by_cases hm : s.stack.head = .marker
    · -- consumed: the list of pushes stands still, and so do its nodes
      have hpush := (Stack.consumed_step h.stack hst hm).2
      have hframe := fun i hi => Stack.consumed_frame h.stack hst hm hfree (i := i) hi
      cases hex : s.exec with
      | idle | stored | releasing | done =>
        rw [hex] at hwalked
        simpa [Walked, hpush] using hwalked
      | loop p =>
        rw [hex] at hwalked
        obtain ⟨before, rest, hsplit, hchain, hb, hr, hrel⟩ := hwalked
        have hmem : ∀ i ∈ rest, i ∈ s.stack.pushed := fun i hi => by simp [hsplit, hi]
        refine ⟨before, rest, hpush.trans hsplit, ?_, hb, hr, ?_⟩
        · exact hchain.congr (fun i hi => (hframe i (hmem i hi) (hrel i (hmem i hi))).2.1)
            (fun i hi => (hframe i (hmem i hi) (hrel i (hmem i hi))).1)
        · rw [hpush]
          exact fun i hi => (hframe i hi (hrel i hi)).2.2
      | calling p =>
        rw [hex] at hwalked
        obtain ⟨before, j, rest, hsplit, hchain, hb, hj, hr, hrel⟩ := hwalked
        have hmem : ∀ i ∈ j :: rest, i ∈ s.stack.pushed := fun i hi => by
          rw [hsplit]
          exact List.mem_append_right _ hi
        refine ⟨before, j, rest, hpush.trans hsplit, ?_, hb, hj, hr, ?_⟩
        · exact hchain.congr (fun i hi => (hframe i (hmem i hi) (hrel i (hmem i hi))).2.1)
            (fun i hi => (hframe i (hmem i hi) (hrel i (hmem i hi))).1)
        · rw [hpush]
          exact fun i hi => (hframe i hi (hrel i hi)).2.2
    · -- not consumed: only a call that is in progress can be added
      have hex : s.exec = .idle ∨ s.exec = .stored := by
        have hno := fun hne => hm (h.marker.mpr hne)
        grind
      have hzero : ∀ i ∈ s.stack.pushed, s.invoked i = 0 := by
        rcases hex with hex | hex <;> rw [hex] at hwalked <;> exact hwalked
      have hzero' : ∀ i ∈ t.pushed, s.invoked i = 0 := by
        intro i hi
        obtain hpush | ⟨j, a, -, hj, -, -, hpush⟩ := Stack.Inv.exchanged_step hst
        · exact hzero i (hpush ▸ hi)
        · rw [hpush] at hi
          rcases List.mem_cons.mp hi with rfl | hi
          · exact h.pending i (by simp [Phase.Settled, hj])
          · exact hzero i hi
      rcases hex with hex | hex <;> rw [hex] <;> exact hzero'
  · intro hd
    have hm : s.stack.head = .marker := h.marker.mpr (by simp [show s.exec = .done from hd])
    exact ((Stack.holder_step h.stack hst hcons).2 hm hfree).trans (h.done hd)
  · intro hs
    rw [Stack.destroyed_step hst fun he => hexec he hs]
    exact h.live hs

/-- `execute` takes the list: nothing of it has been walked or freed. -/
theorem consume {t : Stack.State Op Op} (h : Inv s) (hexec : s.exec = .stored)
    (hst : Stack.Step s.stack .consume t) (hp : t.holder = .consumer p) :
    Inv { s with stack := t, exec := .loop p } := by
  have hinv := Stack.inv_step h.stack hst
  have hwalked := h.walked
  rw [hexec] at hwalked
  cases hst with
  | consume _ honce =>
    refine ⟨hinv, ?_, h.pending, h.failed, h.inlined, ?_, ?_, ?_⟩
    · simp [Stack.State.consume]
    · obtain ⟨gone, rest, hsplit, hchain, hrest, hgone, hstack⟩ := h.stack.list
      have hgone' := hstack honce
      subst hgone'
      have hm : s.stack.head ≠ .marker := fun hm => (h.marker.mp hm).2 hexec
      have hhead : p = s.stack.head := by
        simp only [Stack.State.consume, if_neg hm] at hp
        exact (Holder.consumer.inj hp).symm
      rw [Stack.State.listHead, honce] at hchain
      subst hhead
      have hsplit' : s.stack.pushed = rest := hsplit
      exact ⟨[], rest, hsplit, hchain, by simp, hsplit' ▸ hwalked, hsplit' ▸ hrest⟩
    · simp
    · simp

/-- The loop calls the continuation it has reached, for the first time. -/
theorem call {a : ℕ} {nd : Node Op Op} {c : Op} (h : Inv s) (hexec : s.exec = .loop (.node a))
    (hnd : s.stack.heap a = some nd) (hc : nd.val = some c) :
    Inv { s.invoke c with exec := .calling (.node a) } ∧ c ∈ s.stack.pushed ∧
      s.invoked c = 0 := by
  have hwalked := h.walked
  rw [hexec] at hwalked
  obtain ⟨before, rest, hsplit, hchain, hb, hr, hrel⟩ := hwalked
  cases rest with
  | nil => cases hchain
  | cons i rest =>
    obtain ⟨hi, q, hheap, hrest⟩ := hchain
    obtain rfl : a = s.stack.cell i := Ptr.node.inj hi
    obtain rfl : nd = ⟨some i, q, i⟩ := Option.some.inj (hnd.symm.trans hheap)
    obtain rfl : i = c := Option.some.inj hc
    have hnodup := h.stack.nodup
    rw [hsplit] at hnodup
    have hph : s.stack.phase i = .succeeded := (h.stack.succeeded i).mpr (by simp [hsplit])
    refine ⟨⟨h.stack, ?_, ?_, ?_, h.inlined, ?_, ?_, ?_⟩, by simp [hsplit], hr i (by simp)⟩
    · simpa [State.invoke, hexec] using h.marker
    · intro j hj
      have hne : j ≠ i := by
        rintro rfl
        exact hj (.inl hph)
      simpa [State.invoke, hne] using h.pending j hj
    · intro j p hp
      have hne : j ≠ i := by
        rintro rfl
        cases hph.symm.trans hp
      simpa [State.invoke, hne] using h.failed j p hp
    · have hri : s.invoked i = 0 := hr i (by simp)
      refine ⟨before, i, rest, hsplit, ⟨rfl, q, hheap, hrest⟩, ?_, ?_, ?_, hrel⟩
      all_goals simp only [State.invoke, Function.update_apply]
      · grind
      · simp [hri]
      · grind
    · simp
    · simp

omit [DecidableEq Op] in
theorem advance {a : ℕ} {nd : Node Op Op} (h : Inv s) (hexec : s.exec = .calling (.node a))
    (hnd : s.stack.heap a = some nd) : Inv { s with exec := .loop nd.next } := by
  have hwalked := h.walked
  rw [hexec] at hwalked
  obtain ⟨before, i, rest, hsplit, ⟨hi, q, hheap, hrest⟩, hb, hii, hr, hrel⟩ := hwalked
  obtain rfl : a = s.stack.cell i := Ptr.node.inj hi
  obtain rfl : nd = ⟨some i, q, i⟩ := Option.some.inj (hnd.symm.trans hheap)
  refine ⟨h.stack, by simpa [hexec] using h.marker, h.pending, h.failed, h.inlined, ?_, by simp,
    by simp⟩
  refine ⟨before ++ [i], rest, by simp [hsplit], hrest, ?_, hr, hrel⟩
  grind

omit [DecidableEq Op] in
theorem leave (h : Inv s) (hexec : s.exec = .loop .null) :
    Inv { s with exec := .releasing } := by
  have hwalked := h.walked
  rw [hexec] at hwalked
  obtain ⟨before, rest, hsplit, hchain, hb, -, -⟩ := hwalked
  refine ⟨h.stack, by simpa [hexec] using h.marker, h.pending, h.failed, h.inlined, ?_, by simp,
    by simp⟩
  cases rest with
  | nil => simpa [Walked, hsplit] using hb
  | cons i rest => cases hchain.1

theorem release {t : Stack.State Op Op} (h : Inv s) (hexec : s.exec = .releasing)
    (hst : Stack.Step s.stack (.free .consumer i) t) : Inv { s with stack := t } := by
  have hinv := Stack.inv_step h.stack hst
  have hwalked := h.walked
  rw [hexec] at hwalked
  have hm : s.stack.head = .marker := h.marker.mpr (by simp [hexec])
  obtain ⟨hhead, hpush⟩ := Stack.consumed_step h.stack hst hm
  have hphase : t.phase = s.stack.phase := by
    cases hst with
    | free hp hnd =>
      funext j
      simp [Stack.free_phase]
  refine ⟨hinv, by simp [hhead, hexec], ?_, ?_, ?_, ?_, by simp [hexec],
    by simp [hexec]⟩
  · simpa [hphase] using h.pending
  · simpa [hphase] using h.failed
  · simpa [hphase] using h.inlined
  · simpa [hexec, Walked, hpush] using hwalked

/-- A refused push calls its own continuation, for the first time. -/
theorem inline {c : Op} (h : Inv s) (hfalse : s.stack.phase i = .failed .null)
    (honce : s.inlined i = false) (hc : s.stack.arg i = some c) :
    Inv { s.invoke c with inlined := Function.update s.inlined i true } ∧ c = i ∧
      s.invoked i = 0 := by
  obtain ⟨-, harg, -⟩ := h.stack.failed i _ hfalse
  obtain rfl : c = i := Option.some.inj (hc.symm.trans harg)
  have hzero : s.invoked c = 0 := by simpa [honce] using h.failed c _ hfalse
  have hpush : c ∉ s.stack.pushed := fun hmem => by
    rw [(h.stack.succeeded c).mpr hmem] at hfalse
    cases hfalse
  refine ⟨⟨h.stack, h.marker, ?_, ?_, ?_, ?_, h.done, h.live⟩, rfl, hzero⟩
  · intro j hj
    have hne : j ≠ c := by
      rintro rfl
      exact hj (.inr ⟨_, hfalse⟩)
    simpa [State.invoke, hne] using h.pending j hj
  · intro j p hp
    by_cases hne : j = c
    · subst hne
      simp [State.invoke, hzero]
    · simpa [State.invoke, hne] using h.failed j p hp
  · intro j hj
    by_cases hne : j = c
    · exact hne ▸ hfalse
    · exact h.inlined j (by simpa [hne] using hj)
  · have hne : ∀ j ∈ s.stack.pushed, j ≠ c := by
      rintro j hj rfl
      exact hpush hj
    have hwalked := h.walked
    cases hex : s.exec with
    | idle | stored | releasing | done =>
      rw [hex] at hwalked
      simp only [Walked, State.invoke, Function.update_apply] at hwalked ⊢
      grind
    | loop p | calling p =>
      rw [hex] at hwalked
      simp only [Walked, State.invoke, Function.update_apply] at hwalked ⊢
      grind

end Inv

/-- **Every step preserves the invariant.** -/
theorem inv_step (h : Inv s) (hst : Step s e t) : Inv t := by
  cases hst with
  | stack hfor hexec hst => exact h.stack_step hfor hexec hst
  | store hlive hidle =>
    have hwalked := h.walked
    rw [hidle] at hwalked
    refine ⟨h.stack, by simpa [hidle] using h.marker, h.pending, h.failed, h.inlined, hwalked,
      by simp, fun _ => hlive⟩
  | consume hexec hst hp => exact h.consume hexec hst hp
  | call hexec hnd hc => exact (h.call hexec hnd hc).1
  | advance hexec hnd => exact h.advance hexec hnd
  | leave hexec => exact h.leave hexec
  | release hexec hst => exact h.release hexec hst
  | finish hexec hnull =>
    have hwalked := h.walked
    rw [hexec] at hwalked
    exact ⟨h.stack, by simpa [hexec] using h.marker, h.pending, h.failed, h.inlined, hwalked,
      fun _ => hnull, by simp⟩
  | inline hfalse honce hc => exact (h.inline hfalse honce hc).1

theorem Reachable.inv (h : Reachable s) : Inv s :=
  h.invariant (fun _ _ _ hi _ hst => inv_step hi hst) inv_init

end Continuations

end PortableConcurrency
