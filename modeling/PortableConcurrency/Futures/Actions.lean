import PortableConcurrency.Futures.Reading
import PortableConcurrency.Futures.Reference

/-!
# The action of a continuation

A continuation has one action from its birth to its call: `cnt_state::run`
takes it out and calls the decorated function, which calls the user's
function or passes an error on.
-/

namespace PortableConcurrency

namespace Futures

variable {V E F : Type*} {c c' : Config V E F} {e : Event V E F} {n : ℕ} {a b : Action F}
variable {rem add rest : Multiset (Obj F)} {o : Obj F} {nd nd' : Node V E F}

/-- **The continuation `n` has no other action than `a`.** -/
structure Carries (c : Config V E F) (n : ℕ) (a : Action F) : Prop where
  node : ∀ nd exec b, c.nodes n = some nd → nd.body = .cnt exec (some b) → b = a
  running : ∀ b, .running n b ∈ c.objs → b = a

/-- An object that is not a call of a decorated function. -/
def Obj.isRunning : Obj F → Bool
  | .running _ _ => true
  | _ => false

theorem push_isRunning (t : ℕ) (k : Closure) : (c.push t k).isRunning = false := by
  unfold Config.push
  split <;> rfl

theorem inputObjs_isRunning {l : List Input} (h : o ∈ inputObjs l) : o.isRunning = false := by
  obtain ⟨f, -, rfl⟩ := mem_inputObjs.mp h
  rfl

theorem executeIf_isRunning {x : Bool} {s : ℕ} (h : o ∈ executeIf x s) : o.isRunning = false := by
  obtain ⟨-, rfl⟩ := mem_executeIf.mp h
  rfl

theorem Move.isRunning (hm : Move c e rem add) (hmem : o ∈ add) : o.isRunning = false := by
  cases hm with
  | notify | detach | subscribe =>
    simp only [Multiset.insert_eq_cons, Multiset.mem_cons, Multiset.mem_singleton] at hmem
    rcases hmem with rfl | rfl
    · rfl
    · exact push_isRunning _ _
  | peek =>
    simp only [Multiset.mem_cons] at hmem
    rcases hmem with rfl | hmem
    · rfl
    · exact inputObjs_isRunning hmem
  | invokeNextShared =>
    simp only [Multiset.mem_cons] at hmem
    rcases hmem with rfl | rfl | hmem
    · rfl
    · rfl
    · exact inputObjs_isRunning hmem
  | share | callPlain | callExpired | retThrows =>
    obtain rfl := Multiset.mem_singleton.mp hmem
    rfl
  | dropFuture | dropPromise | dropExpired | runExpired | releaseSpent | releaseHeld =>
    simp at hmem
  | _ =>
    simp only [Multiset.insert_eq_cons, Multiset.mem_cons, Multiset.mem_singleton] at hmem
    rcases hmem with rfl | rfl <;> rfl

theorem Spawn.isRunning (hs : Spawn c e rem nd add) (hmem : o ∈ add) : o.isRunning = false := by
  cases hs with
  | attach a =>
    simp only [Multiset.mem_cons] at hmem
    rcases hmem with rfl | rfl | hmem
    · rfl
    · exact push_isRunning _ _
    · obtain ⟨-, -, rfl⟩ := mem_keeps.mp hmem
      rfl
  | makePromise =>
    simp only [Multiset.insert_eq_cons, Multiset.mem_cons, Multiset.mem_singleton] at hmem
    rcases hmem with rfl | rfl <;> rfl
  | _ =>
    obtain rfl := Multiset.mem_singleton.mp hmem
    rfl

theorem Settle.isRunning {x : Storage V E} {clean : Body F → Body F} {s : ℕ}
    (hs : Settle c e rem s x clean add) (hmem : o ∈ add) : o.isRunning = false := by
  cases hs with
  | ret g s r =>
    obtain ⟨-, rfl⟩ := mem_cleanup.mp hmem
    rfl
  | abandon => simp at hmem
  | _ =>
    obtain rfl := Multiset.mem_singleton.mp hmem
    rfl

/-- Only `cnt_state::run` takes the action out of a continuation. -/
theorem Touch.running {body : Body F} {s : ℕ} (ht : Touch c e rem s nd body add)
    (hmem : .running n b ∈ add) : n = s ∧ ∃ exec, nd.body = .cnt exec (some b) := by
  have habsurd : ∀ {o : Obj F}, o.isRunning = false → (.running n b : Obj F) ≠ o := by
    rintro o ho rfl
    cases ho
  cases ht with
  | run s nd exec a _ hb =>
    obtain ⟨rfl, rfl⟩ : n = s ∧ b = a := by simpa using hmem
    exact ⟨rfl, exec, hb⟩
  | notify | finish =>
    rcases Multiset.mem_cons.mp hmem with h | h
    · cases h
    · exact absurd rfl (habsurd (executeIf_isRunning h))
  | register =>
    simp only [Multiset.mem_cons] at hmem
    rcases hmem with h | h | h
    · cases h
    · cases h
    · exact absurd rfl (habsurd (executeIf_isRunning h))
  | take =>
    rcases Multiset.mem_cons.mp hmem with h | h
    · cases h
    · exact absurd rfl (habsurd (inputObjs_isRunning h))
  | invokeNext =>
    simp only [Multiset.mem_cons] at hmem
    rcases hmem with h | h | h
    · cases h
    · cases h
    · exact absurd rfl (habsurd (inputObjs_isRunning h))
  | _ => simp at hmem

theorem Body.clean_action {g : Producer} {body : Body F} {exec : Bool}
    (h : body.clean g = .cnt exec (some b)) : body = .cnt exec (some b) := by
  cases g <;> cases body <;> simp_all [Body.clean]

/-- An action stays as it was until it is taken out. -/
theorem Touch.action {body : Body F} {s : ℕ} {exec : Bool} (ht : Touch c e rem s nd body add)
    (h : body = .cnt exec (some b)) : ∃ exec, nd.body = .cnt exec (some b) := by
  cases ht with
  | abandon => exact ⟨exec, Body.clean_action h⟩
  | clean => exact ⟨exec, Body.clean_action h⟩
  | schedule t s nd a _ hb =>
    cases h
    exact ⟨true, hb⟩
  | run => cases h
  | notify | register =>
    cases hb : nd.body with
    | whenAll | promise | task =>
      rw [hb] at h
      cases h
    | whenAny _ flag =>
      rw [hb] at h
      cases flag <;> cases h
    | cnt exec' a' =>
      rw [hb] at h
      exact ⟨exec, h⟩
  | finish =>
    cases hb : nd.body with
    | whenAll | whenAny | promise | task =>
      rw [hb] at h
      cases h
    | cnt exec' a' =>
      rw [hb] at h
      exact ⟨exec, h⟩
  | take | invokeNext =>
    cases hb : nd.body with
    | whenAll | whenAny | promise | task =>
      rw [hb] at h
      cases h
    | cnt exec' a' =>
      rw [hb] at h
      exact ⟨exec, h⟩

/-- A call of a decorated function begins when its action is taken out. -/
theorem Step.had_running (hst : Step c e c') (hmem : .running n a ∈ c'.objs) :
    .running n a ∈ c.objs ∨ ∃ nd exec, c.nodes n = some nd ∧ nd.body = .cnt exec (some a) := by
  refine hst.forall_objs (P := fun o => ∀ a, o = .running n a → .running n a ∈ c.objs ∨
    ∃ nd exec, c.nodes n = some nd ∧ nd.body = .cnt exec (some a)) ?_ ?_ ?_ ?_ ?_ ?_ ?_
    _ hmem a rfl
  · rintro o ho a rfl
    exact .inl ho
  · rintro rem add rest hm - o ho a rfl
    cases hm.isRunning ho
  · rintro rem add rest nd hs - - o ho a rfl
    cases hs.isRunning ho
  · rintro rem add rest s x clean nd hs - - -
    refine ⟨by rintro a ⟨⟩, ?_⟩
    rintro o ho a rfl
    cases hs.isRunning ho
  · rintro g s t u rest nd - - - -
    exact ⟨by rintro a ⟨⟩, by rintro - a ⟨⟩⟩
  · rintro rem add rest s nd body ht - hn o ho a rfl
    obtain ⟨rfl, exec, hb⟩ := ht.running ho
    exact .inr ⟨nd, exec, hn, hb⟩
  · rintro s rest nd - - - -
    exact ⟨by rintro a ⟨⟩, by rintro k - a ⟨⟩⟩

/-- The user's function of a continuation is being called from its call
on. -/
theorem Step.had_invoked (hst : Step c e c') (hmem : .invoked .cnt n ∈ c'.objs) :
    .invoked .cnt n ∈ c.objs ∨ ∃ a, e = .invoke n a ∧ a.kind ≠ .interruptible := by
  refine hst.forall_objs (P := fun o => o = .invoked .cnt n → .invoked .cnt n ∈ c.objs ∨
    ∃ a, e = .invoke n a ∧ a.kind ≠ .interruptible) (fun o ho heq => .inl (heq ▸ ho)) ?_ ?_ ?_ ?_
    ?_ ?_ _ hmem rfl
  · rintro rem add rest hm - o hadd rfl
    cases hm with
    | notify | detach | subscribe =>
      simp only [Multiset.insert_eq_cons, Multiset.mem_cons, Multiset.mem_singleton, reduceCtorEq,
        false_or] at hadd
      unfold Config.push at hadd
      split at hadd <;> cases hadd
    | invokeThen s a hk | invokeNext s _ a _ hk =>
      obtain rfl : n = s := by simpa using hadd
      exact .inr ⟨a, rfl, by simp [hk]⟩
    | invokeNextShared s _ a _ hk =>
      obtain rfl : n = s := by simpa [sharedObjs, mem_inputObjs] using hadd
      exact .inr ⟨a, rfl, by simp [hk]⟩
    | peek => simp [sharedObjs, mem_inputObjs] at hadd
    | _ => simp at hadd
  · rintro rem add rest nd hs - - o hadd rfl
    cases hs with
    | attach =>
      simp only [Multiset.mem_cons, mem_keeps, reduceCtorEq, false_or, and_false, or_false] at hadd
      unfold Config.push at hadd
      split at hadd <;> cases hadd
    | _ => simp at hadd
  · rintro rem add rest s x clean nd hs - - -
    refine ⟨by simp, ?_⟩
    rintro o hadd rfl
    cases hs <;> simp [mem_cleanup] at hadd
  · simp
  · rintro rem add rest s nd body ht - - o hadd rfl
    cases ht with
    | invokeNext s _ a _ hk =>
      obtain rfl : n = s := by simpa [mem_inputObjs] using hadd
      exact .inr ⟨a, rfl, by simp [hk]⟩
    | _ => simp [mem_executeIf, mem_inputObjs] at hadd
  · simp

/-- A decorated function that is called, or not, was on the way there. -/
theorem Step.calls {x : Exn E} (hst : Step c e c') (he : e = .invoke n a ∨ e = .passError n a x) :
    .running n a ∈ c.objs := by
  rcases he with rfl | rfl
  · cases hst with
    | move hm ho => cases hm <;> exact mem_of_rem ho (Multiset.mem_singleton_self _)
    | spawn hs => cases hs
    | settle hs => cases hs
    | touch ht ho =>
      cases ht
      exact mem_of_rem ho (Multiset.mem_singleton_self _)
  · cases hst with
    | move hm => cases hm
    | spawn hs => cases hs
    | settle hs ho =>
      cases hs
      exact mem_of_rem ho (Multiset.mem_singleton_self _)
    | touch ht => cases ht

/-- `next` calls its function with a value. -/
theorem Step.invoke_next {s : ℕ} (hst : Step c (.invoke s a) c') (hk : a.kind = .next) :
    ∃ l x, Resolves c a.parent l x ∧ ¬ a.Passes x := by
  cases hst with
  | move hm =>
    cases hm with
    | invokeThen _ _ hk' | invokeInterruptible _ _ hk' =>
      rw [hk] at hk'
      cases hk'
    | invokeNext _ l _ v _ hr => exact ⟨l, _, hr, by simp [Action.Passes]⟩
    | invokeNextShared _ w _ _ _ _ hr => exact ⟨w, _, hr, by simp [Action.Passes]⟩
  | spawn hs => cases hs
  | settle hs => cases hs
  | touch ht =>
    cases ht with
    | invokeNext _ _ _ _ _ _ hr => exact ⟨_, .futures, hr, by simp [Action.Passes]⟩

/-- And passes an error on. -/
theorem Step.passed {x : Exn E} (hst : Step c (.passError n a x) c') :
    a.kind = .next ∧ ∃ l, Resolves c a.parent l (.exception x) := by
  cases hst with
  | move hm => cases hm
  | spawn hs => cases hs
  | touch ht => cases ht
  | settle hs =>
    cases hs with
    | passError _ l _ _ hk hr => exact ⟨hk, l, hr⟩

/-- The parent of a continuation that is called has a result. -/
theorem Steady.parent_resolves {s : ℕ} (h : Steady c) (hg : Grounded c)
    (hmem : .running s a ∈ c.objs) : ∃ l x, Resolves c a.parent l x := by
  obtain ⟨nd, hn⟩ := h.wf.alive a.parent (.inl ⟨_, hmem, by simp [Obj.refs]⟩)
  refine hg a.parent ?_
  rw [isExecuted_eq hn]
  exact (h.claimed.pending _ hmem).1 nd hn

/-- **A continuation keeps its action.** -/
theorem Carries.step (h : Carries c n a) (hn : n < c.fresh) (hst : Step c e c') :
    Carries c' n a := by
  refine ⟨fun nd' exec b hn' hb => ?_, fun b hmem => ?_⟩
  · cases hst.node hn' with
    | same hn => exact h.node _ exec b hn hb
    | spawn hf => omega
    | settle hn _ hs =>
      refine h.node _ exec b hn ?_
      cases hs with
      | abandon => exact Body.clean_action hb
      | _ => exact hb
    | unwrap hn | execute hn => exact h.node _ exec b hn hb
    | touch hn ht =>
      obtain ⟨exec', hb'⟩ := ht.action hb
      exact h.node _ exec' b hn hb'
  · rcases hst.had_running hmem with hold | ⟨nd, exec, hm, hb⟩
    · exact h.running b hold
    · exact h.node nd exec b hm hb

theorem Carries.run {ok : Config V E F → Event V E F → Prop} (h : Carries c n a) (hn : n < c.fresh)
    (hrun : Runs Step ok c c') : Carries c' n a := by
  have hboth : n < c'.fresh ∧ Carries c' n a :=
    hrun.invariant (I := fun c => n < c.fresh ∧ Carries c n a)
      (fun _ _ _ hi _ hst => ⟨hi.1.trans_le hst.fresh_le, hi.2.step hi.1 hst⟩) ⟨hn, h⟩
  exact hboth.2

end Futures

end PortableConcurrency
