import PortableConcurrency.Futures.Actions
import PortableConcurrency.Futures.Producers

/-!
# Continuations before and after their call

A continuation that has not been called still has its action, and no
result: who may give it one has taken the action out. For the promise of
an interruptible continuation that is so because the promise was made when
the function was called.
-/

namespace PortableConcurrency

namespace Futures

variable {V E F : Type*} {c c' : Config V E F} {e : Event V E F}
variable {rem add rest : Multiset (Obj F)} {s t n : ℕ} {o : Obj F} {nd nd' : Node V E F}

/-- A continuation that still has its action has no result. -/
def Unstarted (c : Config V E F) : Prop :=
  ∀ n nd exec a, c.nodes n = some nd → nd.body = .cnt exec (some a) →
    nd.storage = .empty ∧ nd.executed = false

/-- The promise of an interruptible continuation was made when the
function was called. -/
def Interrupted (c : Config V E F) : Prop :=
  ∀ b n nd, .handle .promise b n ∈ c.objs → c.nodes n = some nd → nd.body.kind = .cnt →
    nd.body = .cnt false none

/-- **What holds of all continuations**, whatever the program does. -/
structure Started (c : Config V E F) : Prop extends Inv c where
  unstarted : Unstarted c
  interrupted : Interrupted c

theorem started_init : Started (init : Config V E F) := by
  refine ⟨inv_init, ?_, ?_⟩
  · intro n nd exec a hn
    simp [init] at hn
  · intro b n nd hmem
    simp [init] at hmem

/-- Nobody gives a continuation its action back. -/
theorem Touch.stays_started {body : Body F} (ht : Touch c e rem s nd body add)
    (hb : nd.body = .cnt false none) : body = .cnt false none := by
  cases ht with
  | schedule _ _ _ _ _ hb' | run _ _ _ _ _ hb' => simp [hb] at hb'
  | abandon g => cases g <;> simp [hb, Body.clean]
  | clean => simp [hb, Body.clean]
  | notify | register => simp [hb, Body.notify]
  | finish => simp [hb, Body.finish]
  | take | invokeNext => simp [hb, Body.moveFutures]

theorem Settle.stays_started {x : Storage V E} {clean : Body F → Body F}
    (hs : Settle c e rem s x clean add) : clean (.cnt false none) = .cnt false none := by
  cases hs with
  | abandon g => cases g <;> rfl
  | _ => rfl

/-- **A continuation that was called stays without its action.** -/
theorem NodeStep.stays_started (h : NodeStep c e c' n nd') (hw : Wf c) (hn : c.nodes n = some nd)
    (hb : nd.body = .cnt false none) : nd'.body = .cnt false none := by
  cases h with
  | same hm | unwrap hm | execute hm =>
    obtain rfl := Option.some.inj (hn.symm.trans hm)
    exact hb
  | spawn hf => exact absurd (hw.bound n nd hn) (by omega)
  | settle hm _ hs =>
    obtain rfl := Option.some.inj (hn.symm.trans hm)
    rw [hb]
    exact hs.stays_started
  | touch hm ht =>
    obtain rfl := Option.some.inj (hn.symm.trans hm)
    exact ht.stays_started hb

/-- **Who gives a continuation its result has taken its action out.** -/
theorem Started.settle_started {x : Storage V E} {clean : Body F → Body F} (h : Started c)
    (hs : Settle c e rem n x clean add) (ho : c.objs = rem + rest) (hn : c.nodes n = some nd)
    {exec : Bool} {a : Action F} : clean nd.body ≠ .cnt exec (some a) := by
  intro hb
  have hcnt : nd.body.kind = .cnt := by rw [← hs.kind nd.body, hb]; rfl
  have hstart : nd.body = .cnt false none → False := fun hnone => by
    rw [hnone, hs.stays_started] at hb
    cases hb
  have hpending : ∀ {o}, o ∈ rem → o.Pending c := fun ho' =>
    h.claimed.pending _ (mem_of_rem ho ho')
  have htask : ¬ HasKind c n .task := fun hk => by
    rw [hk nd hn] at hcnt
    cases hcnt
  have hkinded : ∀ {o}, o ∈ rem → o.Kinded c := fun ho' =>
    h.lists.kinded _ (mem_of_rem ho ho')
  cases hs with
  | setValue b | setException b =>
    exact hstart (h.interrupted b n nd (by simp [ho]) hn hcnt)
  | abandon g b =>
    cases g with
    | promise => exact hstart (h.interrupted b n nd (by simp [ho]) hn hcnt)
    | task => exact htask (hkinded (Multiset.mem_singleton_self _))
    | action =>
      cases hbody : nd.body <;> rw [hbody] at hb hcnt <;> cases hb
  | passError _ _ a =>
    exact hstart ((hpending (Multiset.mem_singleton_self (Obj.running n a))).2 nd hn).2.2
  | ret g =>
    cases g with
    | task => exact htask (hkinded (Multiset.mem_singleton_self _))
    | cnt => exact hstart (hpending (Multiset.mem_singleton_self _) nd hn).2.2

theorem Started.unstarted_step (h : Started c) (hst : Step c e c') : Unstarted c' := by
  intro n nd' exec a hn' hb
  cases hst.node hn' with
  | same hn => exact h.unstarted n nd' exec a hn hb
  | spawn hf hs =>
    cases hs with
    | attach => exact ⟨rfl, rfl⟩
    | readySequence _ hbody =>
      rcases hbody with rfl | rfl <;> cases hb
    | _ => cases hb
  | settle hn _ hs ho => exact absurd hb (h.settle_started hs ho hn)
  | @unwrap nd g t u rest hn he ho =>
    have hmem : .invoked g n ∈ c.objs := by simp [ho]
    cases g with
    | task =>
      have hk : HasKind c n .task := h.lists.kinded _ hmem
      have := hk nd hn
      rw [show nd.body = .cnt exec (some a) from hb] at this
      cases this
    | cnt =>
      have := (h.claimed.pending _ hmem nd hn).2.2
      simp [this] at hb
  | @touch nd _ _ _ _ hn ht =>
    obtain ⟨exec, hb⟩ := ht.action hb
    exact h.unstarted n nd exec a hn hb
  | @execute nd rest hn he ho =>
    -- what is executed has a result
    have hmem : .execute n ∈ c.objs := by simp [ho]
    have hcnt : nd.body.kind ≠ .combinator := fun hk => by
      rw [show nd.body = .cnt exec (some a) from hb] at hk
      cases hk
    exact absurd (h.unstarted n nd exec a hn hb).1 (h.stored.objs _ hmem nd hn hcnt)

/-- A promise was there before, or is new with its state, or is given to
an interruptible function. -/
theorem Step.had_promise {b : Bool} (hst : Step c e c') (hmem : .handle .promise b n ∈ c'.objs) :
    (∃ b, .handle .promise b n ∈ c.objs) ∨ (n = c.fresh ∧ e = .newPromise n) ∨
      ∃ a, .running n a ∈ c.objs ∧ a.kind = .interruptible := by
  refine hst.forall_objs (P := fun o => ∀ b, o = .handle .promise b n →
    (∃ b, .handle .promise b n ∈ c.objs) ∨ (n = c.fresh ∧ e = .newPromise n) ∨
      ∃ a, .running n a ∈ c.objs ∧ a.kind = .interruptible)
    (fun o ho b heq => .inl ⟨b, heq ▸ ho⟩) ?_ ?_ ?_ ?_ ?_ ?_ _ hmem b rfl
  · intro rem add rest hm ho o hadd b heq
    subst heq
    cases hm with
    | notify | detach | subscribe => simp [push_ne_handle.symm] at hadd
    | peek | invokeNextShared => simp [sharedObjs, mem_inputObjs] at hadd
    | getFuture g s =>
      simp only [Multiset.insert_eq_cons, Multiset.mem_cons, Multiset.mem_singleton,
        Obj.handle.injEq, reduceCtorEq, or_false] at hadd
      obtain ⟨rfl, -, rfl⟩ := hadd
      exact .inl ⟨true, by simp [ho]⟩
    | invokeInterruptible s a hk =>
      simp only [Multiset.insert_eq_cons, Multiset.mem_cons, Multiset.mem_singleton,
        Obj.handle.injEq, reduceCtorEq, or_false] at hadd
      obtain ⟨-, -, rfl⟩ := hadd
      exact .inr (.inr ⟨a, by simp [ho], hk⟩)
    | _ => simp at hadd
  · intro rem add rest nd hs ho _ o hadd b heq
    subst heq
    cases hs with
    | attach => simp [push_ne_handle.symm, mem_keeps] at hadd
    | newPromise | makePromise =>
      simp only [Multiset.insert_eq_cons, Multiset.mem_cons, Multiset.mem_singleton,
        Obj.handle.injEq, reduceCtorEq, or_false] at hadd
      obtain ⟨-, -, rfl⟩ := hadd
      exact .inr (.inl ⟨rfl, rfl⟩)
    | _ => simp at hadd
  · intro rem add rest s x clean nd hs ho _ _
    refine ⟨by simp, fun o hadd b heq => ?_⟩
    subst heq
    cases hs with
    | setValue | setException =>
      exact .inl ⟨b, by rw [ho]; exact Multiset.mem_add.mpr (.inl hadd)⟩
    | ret => simp [mem_cleanup] at hadd
    | abandon | passError => simp at hadd
  · simp
  · intro rem add rest s nd body ht ho _ o hadd b heq
    subst heq
    cases ht <;> simp [mem_executeIf, mem_inputObjs] at hadd
  · simp

theorem Started.interrupted_step (h : Started c) (hst : Step c e c') : Interrupted c' := by
  intro b n nd' hmem hn' hk
  have hkeep : ∀ {nd}, c.nodes n = some nd → (nd.body.kind = .cnt → nd.body = .cnt false none) →
      nd'.body = .cnt false none := fun {nd} hn hb => by
    have hcnt : nd.body.kind = .cnt := by
      rw [← hk]
      exact ((hst.node_le h.wf hn hn').kind).symm
    exact (hst.node hn').stays_started h.wf hn (hb hcnt)
  by_cases hlt : n < c.fresh
  · obtain ⟨nd, hn⟩ := hst.old hlt hn'
    rcases hst.had_promise hmem with ⟨b, hold⟩ | ⟨rfl, -⟩ | ⟨a, hrun, -⟩
    · exact hkeep hn (h.interrupted b n nd hold hn)
    · omega
    · exact hkeep hn fun _ => ((h.claimed.pending _ hrun).2 nd hn).2.2
  · -- a new state has a promise only if it was made by one
    cases hst.node hn' with
    | same hn | settle hn | unwrap hn | touch hn | execute hn =>
      exact absurd (h.wf.bound n _ hn) hlt
    | @spawn _ rem add rest hf hs ho ho' =>
      rw [ho'] at hmem
      rcases Multiset.mem_add.mp hmem with hmem | hmem
      · cases hs with
        | attach => simp [push_ne_handle.symm, mem_keeps] at hmem
        | newPromise | makePromise | newTask | whenAll | whenAny => cases hk
        | readySequence _ hbody => rcases hbody with rfl | rfl <;> cases hk
      · exact absurd (h.wf.names_of_rest ho hmem (by simp [Obj.names])) hlt

theorem Started.step (h : Started c) (hst : Step c e c') : Started c' :=
  ⟨h.toInv.step hst, h.unstarted_step hst, h.interrupted_step hst⟩

theorem Reachable.started {ok : Config V E F → Event V E F → Prop} (h : Reachable ok c) :
    Started c :=
  h.invariant (fun _ _ _ hi _ hst => hi.step hst) started_init

end Futures

end PortableConcurrency
