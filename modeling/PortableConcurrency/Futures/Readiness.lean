import PortableConcurrency.Futures.Producers
import PortableConcurrency.Futures.WhenAll
import PortableConcurrency.Futures.WhenAny

/-!
# Who becomes ready

A state can become ready when those it awaits can: the one it was
unwrapped onto, the parent of a continuation that has not been scheduled,
all inputs of `when_all`, one input of `when_any`. Whatever awaits nobody
has a producer. This is a least fixed point, so that states that await
each other in a circle are not in it; and no step puts a state out of it,
unless a function returns a future that cannot become ready without the
function's own result.

When nothing is going on and all producers are gone, all these states are
ready.
-/

namespace PortableConcurrency

namespace Futures

variable {V E F : Type*} {c c' : Config V E F} {e : Event V E F}
variable {rem add rest : Multiset (Obj F)} {s t n m w : ℕ} {o : Obj F} {nd nd' : Node V E F}
variable {X Y : ℕ → Prop}

/-! ## What holds of every run -/

/-- **Nobody is forgotten**: what holds of the states in every run. -/
structure Live (c : Config V E F) : Prop extends Assembled c where
  announced : Announced c
  awaited : Awaited c
  unissued : Unissued c
  produced : Produced c
  counted : Counted c
  chosen : ∀ w nd l b k, c.nodes w = some nd → nd.body = .whenAny l b k → ∃ L, AnyOf c w L

theorem live_init : Live (init : Config V E F) := by
  refine ⟨assembled_init, ?_, ?_, ?_, ?_, counted_init, ?_⟩
  · simp [Announced, init]
  · intro n nd t _ hn
    simp [init] at hn
  · intro n nd hn
    simp [init] at hn
  · intro n nd _ hn
    simp [init] at hn
  · intro w nd l b k hn
    simp [init] at hn

/-- A `when_any_state` was one before. -/
theorem Step.was_whenAny {l : List Input} {b : Bool} {k : ℕ} (h : Inv c) (hst : Step c e c')
    (hn : c.nodes w = some nd) (hn' : c'.nodes w = some nd') (hb : nd'.body = .whenAny l b k) :
    ∃ l b k, nd.body = .whenAny l b k := by
  have hcomb : nd.body.kind = .combinator := by
    rw [← (hst.node_le h.wf hn hn').kind, hb]
    rfl
  cases hbody : nd.body with
  | whenAny l b k => exact ⟨l, b, k, rfl⟩
  | whenAll l r =>
    cases hst.combinator h hn hn' hcomb with
    | same | execute => simp [hbody] at hb
    | notify | register => simp [hbody, Body.notify] at hb
    | finish => simp [hbody, Body.finish] at hb
    | take => simp [hbody, Body.moveFutures] at hb
  | promise | task | cnt =>
    rw [hbody] at hcomb
    cases hcomb

theorem Live.step (h : Live c) (hst : Step c e c') : Live c' := by
  refine ⟨h.toAssembled.step hst, h.announced.step h.wf hst, h.awaited.step h.wf hst,
    h.unissued.step h.toSound h.claimed.sole hst, h.produced.step h.toInv h.unissued hst,
    h.counted.step h.toAssembled hst, fun w nd' l b k hn' hb => ?_⟩
  by_cases hf : w = c.fresh
  · subst hf
    obtain ⟨rem, add, rest, hsp, ho, -⟩ := hst.spawned h.wf hn'
    cases hsp with
    | whenAny L => exact ⟨L, (hst.anyOf h.wf hn' hb).1⟩
    | readySequence => exact ⟨[], (hst.anyOf h.wf hn' hb).1⟩
    | _ => cases hb
  · obtain ⟨nd, hn⟩ := hst.was_alive hf hn'
    obtain ⟨l₀, b₀, k₀, hb₀⟩ := hst.was_whenAny h.toInv hn hn' hb
    obtain ⟨L, ha⟩ := h.chosen w nd l₀ b₀ k₀ hn hb₀
    exact ⟨L, ha.step h.toAssembled hst hn⟩

/-! ## When nothing is going on -/

/-- The states whose readiness a node waits for. -/
def Node.awaits (nd : Node V E F) : List ℕ :=
  match nd.body, nd.storage with
  | .whenAll futures _, _ => futures.map Prod.snd
  | .whenAny futures _ _, _ => futures.map Prod.snd
  | _, .inner t => [t]
  | .cnt true (some a), .empty => [a.parent]
  | _, _ => []

/-- Whether one of them is enough. -/
def Body.isAny : Body F → Bool
  | .whenAny (_ :: _) _ _ => true
  | _ => false

theorem Node.awaits_refs (h : m ∈ nd.awaits) : m ∈ nd.refs := by
  obtain ⟨x, b, body⟩ := nd
  cases body with
  | whenAll | whenAny => exact List.mem_append_right _ h
  | promise | task => cases x <;> simp_all [Node.awaits, Node.refs, Storage.refs]
  | cnt exec a =>
    cases x <;> cases exec <;> cases a <;>
      simp_all [Node.awaits, Node.refs, Storage.refs, Body.refs]

theorem Node.mem_awaits_combinator (hk : nd.body.kind = .combinator) :
    m ∈ nd.awaits ↔ ∃ f ∈ nd.body.futures, f.2 = m := by
  cases hb : nd.body with
  | whenAll | whenAny => simp [Node.awaits, Body.futures, hb]
  | promise | task | cnt =>
    rw [hb] at hk
    cases hk

theorem Node.awaits_inner (hk : nd.body.kind ≠ .combinator) (hs : nd.storage = .inner t) :
    nd.awaits = [t] := by
  cases hb : nd.body with
  | whenAll | whenAny => exact absurd (by rw [hb]; rfl) hk
  | promise | task | cnt => simp [Node.awaits, hb, hs]

theorem Node.mem_awaits (hk : nd.body.kind ≠ .combinator) (hm : m ∈ nd.awaits) :
    nd.storage = .inner m ∨
      nd.storage = .empty ∧ ∃ a, nd.body = .cnt true (some a) ∧ a.parent = m := by
  obtain ⟨x, b, body⟩ := nd
  cases body with
  | whenAll | whenAny => exact absurd rfl hk
  | promise | task =>
    cases x with
    | inner t => exact .inl (by simpa [Node.awaits, eq_comm] using hm)
    | _ => simp [Node.awaits] at hm
  | cnt exec a =>
    cases x with
    | inner t => exact .inl (by simpa [Node.awaits, eq_comm] using hm)
    | empty =>
      cases exec <;> cases a <;> simp [Node.awaits] at hm
      exact .inr ⟨rfl, _, rfl, hm.symm⟩
    | value | exception => simp [Node.awaits] at hm

theorem Body.isAny_kind {body : Body F} (h : body.isAny = true) : body.kind = .combinator := by
  cases body with
  | whenAny => rfl
  | promise | task | cnt | whenAll => cases h

/-- **Nothing is going on, and no producer is left.** -/
structure Quiet (c : Config V E F) : Prop where
  idle : Idle c
  no_handles : ∀ g b s, .handle g b s ∉ c.objs

theorem Quiet.not_mem (h : Quiet c) (ho : o.inProgress = true) : o ∉ c.objs := fun hmem => by
  rw [h.idle o hmem] at ho
  cases ho

theorem Lists.pending (h : Lists c) {k : Closure} (hmem : .linked t k ∈ c.objs) :
    c.isExecuted t = false := by
  obtain ⟨nd, hn, hopen⟩ := h.linked _ _ hmem
  rw [isExecuted_eq hn, hopen]

/-- A pending combinator awaits a pending input, and a `when_any` only
such. -/
theorem Live.inputs_pending (h : Live c) (hq : Quiet c) (hn : c.nodes n = some nd)
    (hex : nd.executed = false) (hk : nd.body.kind = .combinator) :
    (∃ f ∈ nd.body.futures, c.isExecuted f.2 = false) ∧
      (nd.body.isAny = true → ∀ f ∈ nd.body.futures, c.isExecuted f.2 = false) := by
  cases hb : nd.body with
  | whenAll l r =>
    refine ⟨?_, by simp [Body.isAny]⟩
    have hmakes : tally (Obj.makes n) c.objs = 0 := idle_no_making hq.idle
    obtain ⟨o, ho, hnot⟩ : ∃ o ∈ c.objs, o.notifies n = true := by
      refine exists_of_tally_pos (Nat.pos_of_ne_zero fun hzero => ?_)
      rcases h.counted.not_after hn hb hmakes hzero with hex' | hmem
      · rw [hex] at hex'
        cases hex'
      · exact hq.not_mem rfl hmem
    obtain ⟨u, t, i, hi, rfl | rfl⟩ := h.notifies_input hn hex ho hnot
    · rw [hb] at hi
      exact ⟨(u, t), List.mem_of_getElem? hi, h.lists.pending ho⟩
    · exact absurd ho (hq.not_mem rfl)
  | whenAny l b k =>
    obtain ⟨L, ha⟩ := h.chosen n nd l b k hn hb
    have hfut : l = L := by
      have hfut := (ha.futures nd hn).resolve_right fun hm => by
        rw [hex] at hm
        cases hm.2
      rwa [hb] at hfut
    subst hfut
    have hidle := (ha.idle h.toAssembled hn hb hq.idle).not.mp (by simp [hex])
    rw [not_or] at hidle
    have hpend : ∀ f ∈ l, c.isExecuted f.2 = false := fun f hf => by
      by_contra hex
      refine hidle.2 ⟨f, hf, fun ndf hnf => ?_⟩
      rw [isExecuted_eq hnf] at hex
      simpa using hex
    obtain ⟨f, hf⟩ := List.exists_mem_of_ne_nil l hidle.1
    exact ⟨⟨f, hf, hpend f hf⟩, fun _ => hpend⟩
  | promise | task | cnt =>
    rw [hb] at hk
    cases hk

/-- Any other state that is pending when nothing is going on has a
producer, or awaits its parent or the state it was unwrapped onto. -/
theorem Live.plain_idle (h : Live c) (hidle : Idle c) (howned : Owned c n)
    (hn : c.nodes n = some nd) (hex : nd.executed = false) (hk : nd.body.kind ≠ .combinator) :
    (nd.storage = .empty ∧ ∃ g b, .handle g b n ∈ c.objs) ∨
      ∃ m ∈ nd.awaits, c.isExecuted m = false := by
  have hnot : ∀ {o : Obj F}, o.inProgress = true → o ∉ c.objs := fun ho hmem => by
    rw [hidle _ hmem] at ho
    cases ho
  have hannounced : (nd.storage ≠ .empty) → (∀ t, nd.storage ≠ .inner t) → False := by
    intro hs hne
    rcases h.announced n nd hn hs hne with hex' | hmem
    · rw [hex] at hex'
      cases hex'
    · exact hnot rfl hmem
  cases hs : nd.storage with
  | value | exception => exact (hannounced (by simp [hs]) (by simp [hs])).elim
  | inner t =>
    refine .inr ⟨t, by simp [Node.awaits_inner hk hs], ?_⟩
    rcases h.awaited n nd t howned hn hex hs with hmem | ⟨o, hmem, rfl | rfl | rfl⟩
    · exact absurd hmem (hnot rfl)
    · exact absurd hmem (hnot rfl)
    · exact h.lists.pending hmem
    · exact absurd hmem (hnot rfl)
  | empty =>
    obtain ⟨o, hmem, hc⟩ := exists_of_tally_pos (h.produced n nd howned hn hk hs)
    have hidle := hidle o hmem
    cases o with
    | handle g b m =>
      obtain rfl : m = n := by simpa [Obj.claims] using hc
      exact .inl ⟨rfl, g, b, hmem⟩
    | linked t k =>
      cases k with
      | schedule m =>
        obtain rfl : m = n := by simpa [Obj.claims] using hc
        obtain ⟨-, -, a, hb, rfl⟩ := h.claimed.pending _ hmem nd hn
        exact .inr ⟨a.parent, by simp [Node.awaits, hb, hs], h.lists.pending hmem⟩
      | _ => simp [Obj.claims] at hc
    | future => simp [Obj.claims] at hc
    | _ => simp [Obj.inProgress] at hidle

/-- When no producer is left it awaits another. -/
theorem Live.plain_pending (h : Live c) (hq : Quiet c) (howned : Owned c n)
    (hn : c.nodes n = some nd) (hex : nd.executed = false) (hk : nd.body.kind ≠ .combinator) :
    ∃ m ∈ nd.awaits, c.isExecuted m = false :=
  (h.plain_idle hq.idle howned hn hex hk).resolve_left fun ⟨_, g, b, hmem⟩ =>
    hq.no_handles g b n hmem

/-- **A state that is pending then awaits a pending one**, and a `when_any`
only such. -/
theorem Live.awaits_pending (h : Live c) (hq : Quiet c) (howned : Owned c n)
    (hn : c.nodes n = some nd) (hex : nd.executed = false) :
    (∃ m ∈ nd.awaits, c.isExecuted m = false) ∧
      (nd.body.isAny = true → ∀ m ∈ nd.awaits, c.isExecuted m = false) := by
  by_cases hk : nd.body.kind = .combinator
  · obtain ⟨⟨f, hf, hpend⟩, hall⟩ := h.inputs_pending hq hn hex hk
    refine ⟨⟨f.2, (Node.mem_awaits_combinator hk).mpr ⟨f, hf, rfl⟩, hpend⟩, fun hany m hm => ?_⟩
    obtain ⟨f, hf, rfl⟩ := (Node.mem_awaits_combinator hk).mp hm
    exact hall hany f hf
  · exact ⟨h.plain_pending hq howned hn hex hk, fun hany => absurd (Body.isAny_kind hany) hk⟩

/-! ## Who can become ready -/

/-- The list of `n` is closed, or is going to be. -/
def Closing (c : Config V E F) (n : ℕ) : Prop := c.isExecuted n = true ∨ .execute n ∈ c.objs

/-- **`n` can become ready without a state of `X` becoming ready first.** -/
inductive Settles (c : Config V E F) (X : ℕ → Prop) : ℕ → Prop
  | closing {n : ℕ} (h : Closing c n) : Settles c X n
  | all {n : ℕ} {nd : Node V E F} (hx : ¬ X n) (hn : c.nodes n = some nd)
      (hany : nd.body.isAny = false) (h : ∀ m ∈ nd.awaits, Settles c X m) : Settles c X n
  | any {n m : ℕ} {nd : Node V E F} (hx : ¬ X n) (hn : c.nodes n = some nd)
      (hany : nd.body.isAny = true) (hm : m ∈ nd.awaits) (h : Settles c X m) : Settles c X n

/-- No state is excluded. -/
def NoState (_ : ℕ) : Prop := False

theorem Step.closing (hst : Step c e c') (h : Wf c) (hn' : c'.nodes n = some nd')
    (hc : Closing c n) : Closing c' n := by
  rcases hc with hex | hmem
  · exact .inl (by rw [Futures.isExecuted_eq hn', hst.isExecuted h hex hn'])
  · exact (hst.keeps_execute hmem).symm

/-- **What can have become of what a node awaits**: nothing, or it is not
awaited any more. -/
inductive AwaitStep (nd nd' : Node V E F) : Prop
  | same (ha : nd'.awaits = nd.awaits) (hany : nd'.body.isAny = nd.body.isAny)
  | gone (ha : nd'.awaits = []) (hany : nd'.body.isAny = false)

theorem AwaitStep.of_body {x : Storage V E} {b : Bool} {body body' : Body F}
    (hk : body.kind ≠ .combinator) (hk' : body'.kind ≠ .combinator)
    (h : (∀ t, x ≠ .inner t) → (⟨x, b, body'⟩ : Node V E F).awaits = []) :
    AwaitStep (⟨x, b, body⟩ : Node V E F) ⟨x, b, body'⟩ := by
  have hany : ∀ {body : Body F}, body.kind ≠ .combinator → body.isAny = false := fun hk => by
    by_contra hany
    exact hk (Body.isAny_kind (by simpa using hany))
  by_cases hx : ∃ t, x = .inner t
  · obtain ⟨t, rfl⟩ := hx
    exact .same (by rw [Node.awaits_inner hk' rfl, Node.awaits_inner hk rfl])
      (by simp [hany hk, hany hk'])
  · exact .gone (h fun t ht => hx ⟨t, ht⟩) (hany hk')

theorem AwaitStep.refl (nd : Node V E F) : AwaitStep nd nd := .same rfl rfl

theorem AwaitStep.clean (p : Producer) (hs : p ≠ .action ∨ ∃ t, nd.storage = .inner t) :
    AwaitStep nd { nd with body := nd.body.clean p } := by
  obtain ⟨x, b, body⟩ := nd
  cases p with
  | promise => exact .refl _
  | task =>
    cases body with
    | task f => exact .of_body (by simp [Body.kind]) (by simp [Body.kind, Body.clean]) (by
        cases x <;> simp [Node.awaits, Body.clean])
    | promise | cnt | whenAll | whenAny => exact .refl _
  | action =>
    obtain ⟨t, rfl⟩ := hs.resolve_left fun h => h rfl
    cases body with
    | cnt exec a => exact .of_body (by simp [Body.kind]) (by simp [Body.kind, Body.clean]) (by simp)
    | promise | task | whenAll | whenAny => exact .refl _

theorem AwaitStep.notify (nd : Node V E F) (pos : ℕ) :
    AwaitStep nd { nd with body := (nd.body.notify pos).1 } := by
  obtain ⟨x, b, body⟩ := nd
  cases body with
  | whenAny l flag k => cases flag <;> cases l <;> exact .same rfl rfl
  | promise | task | cnt | whenAll => exact .same rfl rfl

theorem AwaitStep.finish (nd : Node V E F) : AwaitStep nd { nd with body := nd.body.finish.1 } := by
  obtain ⟨x, b, body⟩ := nd
  cases body <;> exact .same rfl rfl

theorem AwaitStep.moveFutures (nd : Node V E F) :
    AwaitStep nd { nd with body := nd.body.moveFutures } := by
  obtain ⟨x, b, body⟩ := nd
  cases body with
  | whenAll | whenAny => exact .gone rfl rfl
  | promise | task | cnt => exact .same rfl rfl

theorem Touch.awaits {body : Body F} (ht : Touch c e rem s nd body add)
    (hex : nd.executed = false) : AwaitStep nd { nd with body := body } := by
  cases ht with
  | notify | register => exact .notify nd _
  | finish => exact .finish nd
  | take | invokeNext => exact .moveFutures nd
  | clean => exact .clean .task (.inl (by simp))
  | abandon p _ _ _ _ _ hdone =>
    refine .clean p (.inr (hdone.resolve_left ?_))
    simp [hex]
  | schedule _ _ _ a _ hb =>
    obtain ⟨x, b, body⟩ := nd
    subst hb
    refine .of_body (by simp [Body.kind]) (by simp [Body.kind]) ?_
    cases a <;> cases x <;> simp [Node.awaits]
  | run _ _ exec a _ hb =>
    obtain ⟨x, b, body⟩ := nd
    subst hb
    refine .of_body (by simp [Body.kind]) (by simp [Body.kind]) ?_
    cases exec <;> cases x <;> simp [Node.awaits]

/-- **A node awaits no more than before**, unless it is unwrapped. -/
theorem Step.awaits (hst : Step c e c') (h : Live c) (hn : c.nodes n = some nd)
    (hn' : c'.nodes n = some nd') (he : ∀ g t, e ≠ .unwrap g n t) :
    Closing c' n ∨ AwaitStep nd nd' := by
  by_cases hex : nd.executed = true
  · exact .inl (hst.closing h.wf hn' (.inl (by rw [Futures.isExecuted_eq hn, hex])))
  have hex : nd.executed = false := by simpa using hex
  cases hst.node hn' with
  | same hm =>
    obtain rfl := Option.some.inj (hn.symm.trans hm)
    exact .inr (.refl nd)
  | spawn hm =>
    have := h.wf.bound n nd hn
    omega
  | @settle _ _ _ _ x clean hm hempty hse ho =>
    refine .inl ?_
    have hne : ∀ t, x ≠ .inner t := fun t ht => by
      have hrefs := hse.storage_refs
      rw [ht] at hrefs
      cases hrefs
    rcases (h.step hst).announced n _ hn' hse.storage_ne hne with hex | hmem
    · exact .inl (by rw [Futures.isExecuted_eq hn', hex])
    · exact .inr hmem
  | unwrap hm heq => exact absurd heq (he _ _)
  | touch hm ht =>
    obtain rfl := Option.some.inj (hn.symm.trans hm)
    exact .inr (ht.awaits hex)
  | execute => exact .inl (.inl (by rw [Futures.isExecuted_eq hn']))

/-- **The frame rule.** What can become ready still can, when each state of
the way awaits no more than it did. -/
theorem Settles.frame (hs : Settles c X n) (hwf : Wf c') (hn' : c'.nodes n = some nd')
    (hclosing : ∀ n nd', c'.nodes n = some nd' → Closing c n → Closing c' n)
    (hstep : ∀ n nd nd', ¬ X n → c.nodes n = some nd → c'.nodes n = some nd' →
      Settles c' NoState n ∨ AwaitStep nd nd') : Settles c' NoState n := by
  induction hs generalizing nd' with
  | closing hc => exact .closing (hclosing _ nd' hn' hc)
  | @all n nd hx hn hany _ ih =>
    rcases hstep n nd nd' hx hn hn' with hs | hstep
    · exact hs
    · cases hstep with
      | same ha hany' =>
        refine .all id hn' (by rw [hany', hany]) fun m hm => ?_
        obtain ⟨ndm, hm'⟩ := hwf.alive m (.inr ⟨n, nd', hn', Node.awaits_refs hm⟩)
        exact ih m (ha ▸ hm) hm'
      | gone ha hany' => exact .all id hn' hany' (by simp [ha])
  | @any n m nd hx hn hany hm _ ih =>
    rcases hstep n nd nd' hx hn hn' with hs | hstep
    · exact hs
    · cases hstep with
      | same ha hany' =>
        rw [← ha] at hm
        obtain ⟨ndm, hm'⟩ := hwf.alive m (.inr ⟨n, nd', hn', Node.awaits_refs hm⟩)
        exact .any id hn' (by rw [hany', hany]) hm (ih hm')
      | gone ha hany' => exact .all id hn' hany' (by simp [ha])

/-- **A function does not return a future that cannot become ready without
the function's own result.** -/
def Independent (c : Config V E F) (e : Event V E F) : Prop :=
  ∀ g s t, e = .unwrap g s t → Settles c (· = s) t

/-- A step that unwraps nothing changes nothing about it. -/
theorem Settles.step (hs : Settles c NoState n) (h : Live c) (hst : Step c e c')
    (he : ∀ g s t, e ≠ .unwrap g s t) (hn' : c'.nodes n = some nd') : Settles c' NoState n :=
  hs.frame (h.step hst).wf hn' (fun _ _ hn' hc => hst.closing h.wf hn' hc)
    fun n _ _ _ hn hn' => (hst.awaits h hn hn' fun g t => he g n t).imp_left .closing

/-- **Nor does unwrapping**, when the state that is returned can become
ready without the one that is unwrapped. -/
theorem Settles.unwrap {g : Caller} (hs : Settles c X n) (h : Live c)
    (hst : Step c (.unwrap g s t) c') (hind : Settles c (· = s) t)
    (hn' : c'.nodes n = some nd') : Settles c' NoState n := by
  have hwf := (h.step hst).wf
  have hclosing : ∀ n nd', c'.nodes n = some nd' → Closing c n → Closing c' n :=
    fun _ _ hn' hc => hst.closing h.wf hn' hc
  -- the way of `t` does not lead through `s`, the only one that awaits something new
  have hother : ∀ n nd nd', n ≠ s → c.nodes n = some nd → c'.nodes n = some nd' →
      Settles c' NoState n ∨ AwaitStep nd nd' := by
    intro n nd nd' hne hn hn'
    refine (hst.awaits h hn hn' fun g' t' heq => ?_).imp_left .closing
    cases heq
    exact hne rfl
  have hself : Settles c' NoState s := by
    obtain ⟨u, rest, nds, ho, hns, rfl⟩ := hst.unwrap_inv
    have hk := h.lists.kinded (.invoked g s) (mem_of_rem ho (by simp))
    have hcomb := invoked_not_combinator hk hns
    have hnew : c.setNode s { nds with storage := .inner t } s =
        some { nds with storage := .inner t } := by simp [Config.setNode]
    obtain ⟨ndt, hnt⟩ := hwf.alive t (.inr ⟨s, _, hnew, by simp [Node.refs, Storage.refs]⟩)
    have ht := hind.frame hwf hnt hclosing hother
    have hawaits : ({ nds with storage := .inner t } : Node V E F).awaits = [t] :=
      Node.awaits_inner hcomb rfl
    refine .all id hnew (by simpa using fun hany => hcomb (Body.isAny_kind hany)) fun m hm => ?_
    rw [hawaits, List.mem_singleton] at hm
    exact hm ▸ ht
  refine hs.frame hwf hn' hclosing fun n nd nd' _ hn hn' => ?_
  by_cases hns : n = s
  · exact .inl (hns ▸ hself)
  · exact hother n nd nd' hns hn hn'

/-- Every state can become ready. -/
def AllSettle (c : Config V E F) : Prop :=
  ∀ n nd, c.nodes n = some nd → Settles c NoState n

/-- A new state can, since it awaits states that were there. -/
theorem Step.fresh_settles (hst : Step c e c') (h : Live c) (hold : ∀ n nd', n ≠ c.fresh →
    c'.nodes n = some nd' → Settles c' NoState n) (hn' : c'.nodes c.fresh = some nd') :
    Settles c' NoState c.fresh := by
  obtain ⟨rem, add, rest, hsp, ho, -⟩ := hst.spawned h.wf hn'
  have hawaits : ∀ m ∈ nd'.awaits, Settles c' NoState m := by
    intro m hm
    have hrefs := Node.awaits_refs hm
    obtain ⟨ndm, hnm⟩ := h.wf.alive m (hsp.node_refs ho hrefs)
    obtain ⟨ndm', hnm'⟩ := (h.step hst).wf.alive m (.inr ⟨c.fresh, nd', hn', hrefs⟩)
    exact hold m ndm' (h.wf.bound m ndm hnm).ne hnm'
  by_cases hany : nd'.body.isAny = true
  · obtain ⟨m, hm⟩ : ∃ m, m ∈ nd'.awaits := by
      obtain ⟨x, b, body⟩ := nd'
      cases body with
      | whenAny l =>
        cases l with
        | nil => simp [Body.isAny] at hany
        | cons f l => exact ⟨f.2, by simp [Node.awaits]⟩
      | promise | task | cnt | whenAll => simp [Body.isAny] at hany
    exact .any id hn' hany hm (hawaits m hm)
  · exact .all id hn' (by simpa using hany) hawaits

theorem AllSettle.step (hs : AllSettle c) (h : Live c) (hok : Independent c e)
    (hst : Step c e c') : AllSettle c' := by
  have hold : ∀ n nd', n ≠ c.fresh → c'.nodes n = some nd' → Settles c' NoState n := by
    intro n nd' hne hn'
    obtain ⟨nd, hn⟩ := hst.was_alive hne hn'
    by_cases hun : ∃ g s t, e = .unwrap g s t
    · obtain ⟨g, s, t, rfl⟩ := hun
      exact (hs n nd hn).unwrap h hst (hok g s t rfl) hn'
    · exact (hs n nd hn).step h hst (fun g s t heq => hun ⟨g, s, t, heq⟩) hn'
  intro n nd' hn'
  by_cases hf : n = c.fresh
  · subst hf
    exact hst.fresh_settles h hold hn'
  · exact hold n nd' hf hn'

/-- **Nobody waits for ever.** -/
theorem Settles.ready (hs : Settles c X n) (h : Live c) (hq : Quiet c) (howned : Owned c n) :
    c.isExecuted n = true := by
  have hpending : ∀ {n nd}, Owned c n → c.nodes n = some nd → c.isExecuted n = false →
      (∃ m ∈ nd.awaits, c.isExecuted m = false) ∧
        (nd.body.isAny = true → ∀ m ∈ nd.awaits, c.isExecuted m = false) :=
    fun howned hn hex => h.awaits_pending hq howned hn (by rwa [isExecuted_eq hn] at hex)
  induction hs with
  | closing hc => exact hc.resolve_right (hq.not_mem rfl)
  | all _ hn _ _ ih =>
    by_contra hex
    obtain ⟨⟨m, hm, hpend⟩, -⟩ := hpending howned hn (by simpa using hex)
    rw [ih m hm (.inr ⟨_, _, hn, Node.awaits_refs hm⟩)] at hpend
    cases hpend
  | any _ hn hany hm _ ih =>
    by_contra hex
    have hpend := (hpending howned hn (by simpa using hex)).2 hany _ hm
    rw [ih (.inr ⟨_, _, hn, Node.awaits_refs hm⟩)] at hpend
    cases hpend

theorem allSettle_init : AllSettle (init : Config V E F) := fun n nd hn => by
  simp [init] at hn

end Futures

end PortableConcurrency
