import PortableConcurrency.Futures.Making

/-!
# Producers

Why a state that somebody waits for does not stay pending when nothing is
going on any more. A state with a value or an exception is about to be
closed. One that was unwrapped has its callback in the inner state's list.
One that has nothing yet has a producer: its promise, its task, the action
of a continuation, or the closure that schedules one in the parent's
list. A promise that is destroyed with a `shared_ptr` does not abandon its
state, but then nobody else has one.

These hold of every run, also of one in which a storage is overwritten.
-/

namespace PortableConcurrency

namespace Futures

variable {V E F : Type*} {c c' : Config V E F} {e : Event V E F}
variable {rem add rest : Multiset (Obj F)} {s t n m : ℕ} {o : Obj F} {nd nd' : Node V E F}

/-! ## A result is announced -/

/-- `execute` comes when a result is stored. -/
def Announced (c : Config V E F) : Prop :=
  ∀ n nd, c.nodes n = some nd → nd.storage ≠ .empty → (∀ t, nd.storage ≠ .inner t) →
    nd.executed = true ∨ .execute n ∈ c.objs

theorem Step.keeps_execute (hst : Step c e c') (hmem : .execute n ∈ c.objs) :
    .execute n ∈ c'.objs ∨ c'.isExecuted n = true := by
  cases hst with
  | @move _ rem add rest hm ho =>
    rw [ho] at hmem
    rcases Multiset.mem_add.mp hmem with hmem | hmem
    · cases hm <;> simp at hmem
    · exact .inl (Multiset.mem_add.mpr (.inr hmem))
  | @spawn _ rem add rest nd hs ho =>
    rw [ho] at hmem
    rcases Multiset.mem_add.mp hmem with hmem | hmem
    · cases hs <;> simp [mem_inputObjs] at hmem
    · exact .inl (Multiset.mem_add.mpr (.inr hmem))
  | @settle _ rem add rest s x clean nd hs ho =>
    rw [ho] at hmem
    rcases Multiset.mem_add.mp hmem with hmem | hmem
    · cases hs <;> simp at hmem
    · exact .inl (Multiset.mem_cons_of_mem (Multiset.mem_add.mpr (.inr hmem)))
  | unwrap ho =>
    rw [ho] at hmem
    rcases Multiset.mem_add.mp hmem with hmem | hmem
    · simp at hmem
    · exact .inl (Multiset.mem_cons_of_mem (Multiset.mem_add.mpr (.inr hmem)))
  | @touch _ rem add rest s nd body ht ho =>
    rw [ho] at hmem
    rcases Multiset.mem_add.mp hmem with hmem | hmem
    · cases ht <;> simp at hmem
    · exact .inl (Multiset.mem_add.mpr (.inr hmem))
  | @execute s rest nd ho =>
    by_cases hs : s = n
    · subst hs
      exact .inr (by simp [Config.isExecuted, Config.setNode])
    · rw [ho] at hmem
      rcases Multiset.mem_add.mp hmem with hmem | hmem
      · simp only [Multiset.mem_singleton, Obj.execute.injEq] at hmem
        exact absurd hmem.symm hs
      · refine .inl (Multiset.mem_cons_of_mem (Multiset.mem_map.mpr ⟨_, hmem, rfl⟩))
  | destroy => exact .inl (Multiset.mem_filter.mpr ⟨hmem, by simp [Obj.isLinked]⟩)

theorem Announced.step (h : Announced c) (hw : Wf c) (hst : Step c e c') : Announced c' := by
  intro n nd' hn' hs hne
  have hkeep : ∀ {nd : Node V E F}, c.nodes n = some nd → nd.storage = nd'.storage →
      nd'.executed = true ∨ .execute n ∈ c'.objs := by
    intro nd hn heq
    rcases h n nd hn (by rwa [heq]) (by rwa [heq]) with hex | hmem
    · exact .inl ((hst.node_le hw hn hn').executed hex)
    · rcases hst.keeps_execute hmem with hmem | hex
      · exact .inr hmem
      · exact .inl (by rwa [Futures.isExecuted_eq hn'] at hex)
  cases hst with
  | move => exact hkeep hn' rfl
  | spawn hsp =>
    obtain ⟨rfl, rfl⟩ | ⟨-, hn⟩ := setNode_eq hn'
    · cases hsp <;> exact absurd rfl hs
    · exact hkeep hn rfl
  | settle =>
    obtain ⟨rfl, rfl⟩ | ⟨-, hn⟩ := setNode_eq hn'
    · exact .inr (Multiset.mem_cons_self _ _)
    · exact hkeep hn rfl
  | unwrap =>
    obtain ⟨rfl, rfl⟩ | ⟨-, hn⟩ := setNode_eq hn'
    · exact absurd rfl (hne _)
    · exact hkeep hn rfl
  | touch _ _ hnd | execute _ hnd =>
    obtain ⟨rfl, rfl⟩ | ⟨-, hn⟩ := setNode_eq hn'
    · exact hkeep hnd rfl
    · exact hkeep hn rfl
  | @destroy s nd hnd hun =>
    by_cases hns : n = s
    · simp [hns] at hn'
    · exact hkeep (by simpa [hns] using hn') rfl

/-- **A state with a value or an exception is ready**, once `execute` is
over. -/
theorem Reachable.announced {ok : Config V E F → Event V E F → Prop} (h : Reachable ok c) :
    Announced c := by
  have hall : Wf c ∧ Announced c := by
    refine h.invariant (I := fun c => Wf c ∧ Announced c) ?_ ⟨wf_init, by simp [Announced, init]⟩
    rintro c e c' ⟨hw, ha⟩ - hst
    exact ⟨hw.step hst, ha.step hw hst⟩
  exact hall.2

/-! ## An unwrapped state is called back -/

/-- The callback of `n` that was or will be pushed onto the list of `t`. -/
def Obj.CallsBack (n t : ℕ) (o : Obj F) : Prop :=
  o = .subscribing n t ∨ o = .linked t (.unwrapCb n) ∨ o = .queued t (.unwrapCb n)

/-- `n`, if it is pending and was unwrapped onto `t`, is going to be
closed, or its callback is on the way. -/
def Signal (c : Config V E F) (n t : ℕ) : Prop :=
  .execute n ∈ c.objs ∨ ∃ o ∈ c.objs, o.CallsBack n t

/-- **Every pending state that was unwrapped and has an owner is called
back.** -/
def Awaited (c : Config V E F) : Prop :=
  ∀ n nd t, Owned c n → c.nodes n = some nd → nd.executed = false → nd.storage = .inner t →
    Signal c n t

theorem push_callsBack : (c.push t (.unwrapCb n) : Obj F).CallsBack n t := by
  unfold Config.push
  split
  · exact .inr (.inr rfl)
  · exact .inr (.inl rfl)

theorem Obj.CallsBack.unlink (h : o.CallsBack n t) (s : ℕ) : (o.unlink s).CallsBack n t := by
  rcases h with rfl | rfl | rfl
  · exact .inl rfl
  · simp only [Obj.unlink]
    split
    · exact .inr (.inr rfl)
    · exact .inr (.inl rfl)
  · exact .inr (.inr rfl)

/-- A call that takes the callback goes on with it. -/
theorem Move.callsBack (hm : Move c e rem add) (howned : Owned c n) (hmem : o ∈ rem)
    (h : o.CallsBack n t) : .execute n ∈ add ∨ ∃ o ∈ add, o.CallsBack n t := by
  cases hm with
  | subscribe s' t' =>
    obtain rfl := Multiset.mem_singleton.mp hmem
    rcases h with h | h | h
    · cases h
      exact .inr ⟨c.push _ _, by simp, push_callsBack⟩
    · cases h
    · cases h
  | callUnwrap t' s' hlock =>
    obtain rfl := Multiset.mem_singleton.mp hmem
    rcases h with h | h | h
    · cases h
    · cases h
    · cases h
      exact .inl (by simp)
  | callPlain t' k hk =>
    obtain rfl := Multiset.mem_singleton.mp hmem
    rcases h with h | h | h
    · cases h
    · cases h
    · cases h
      rcases hk with hk | ⟨_, hk⟩ <;> cases hk
  | callExpired t' s' k hk hexp =>
    obtain rfl := Multiset.mem_singleton.mp hmem
    rcases h with h | h | h
    · cases h
    · cases h
    · cases h
      rcases hk with hk | hk
      · cases hk
      · cases hk
        exact absurd howned hexp
  | _ => simp_all [Obj.CallsBack]

theorem Step.callsBack (hst : Step c e c') (howned : Owned c n) (hinner : Owned c t)
    (hmem : o ∈ c.objs) (h : o.CallsBack n t) : Signal c' n t := by
  cases hst with
  | @move _ rem add rest hm ho =>
    rw [ho] at hmem
    rcases Multiset.mem_add.mp hmem with hmem | hmem
    · rcases hm.callsBack howned hmem h with hmem | ⟨o, hmem, h⟩
      · exact .inl (Multiset.mem_add.mpr (.inl hmem))
      · exact .inr ⟨o, Multiset.mem_add.mpr (.inl hmem), h⟩
    · exact .inr ⟨o, Multiset.mem_add.mpr (.inr hmem), h⟩
  | @spawn _ rem add rest nd hs ho =>
    rw [ho] at hmem
    rcases Multiset.mem_add.mp hmem with hmem | hmem
    · cases hs <;> simp_all [Obj.CallsBack, mem_inputObjs] <;> grind
    · exact .inr ⟨o, Multiset.mem_add.mpr (.inr hmem), h⟩
  | @settle _ rem add rest s x clean nd hs ho =>
    rw [ho] at hmem
    rcases Multiset.mem_add.mp hmem with hmem | hmem
    · cases hs <;> simp_all [Obj.CallsBack]
    · exact .inr ⟨o, Multiset.mem_cons_of_mem (Multiset.mem_add.mpr (.inr hmem)), h⟩
  | unwrap ho =>
    rw [ho] at hmem
    rcases Multiset.mem_add.mp hmem with hmem | hmem
    · simp only [Multiset.insert_eq_cons, Multiset.mem_cons, Multiset.mem_singleton] at hmem
      rcases hmem with rfl | rfl <;> simp [Obj.CallsBack] at h
    · exact .inr ⟨o, Multiset.mem_cons_of_mem (Multiset.mem_add.mpr (.inr hmem)), h⟩
  | @touch _ rem add rest s nd body ht ho =>
    rw [ho] at hmem
    rcases Multiset.mem_add.mp hmem with hmem | hmem
    · cases ht <;> simp_all [Obj.CallsBack]
    · exact .inr ⟨o, Multiset.mem_add.mpr (.inr hmem), h⟩
  | @execute s rest nd ho =>
    rw [ho] at hmem
    rcases Multiset.mem_add.mp hmem with hmem | hmem
    · obtain rfl := Multiset.mem_singleton.mp hmem
      simp [Obj.CallsBack] at h
    · exact .inr ⟨o.unlink s, Multiset.mem_cons_of_mem (Multiset.mem_map.mpr ⟨o, hmem, rfl⟩),
        h.unlink s⟩
  | @destroy s nd hn hun =>
    refine .inr ⟨o, Multiset.mem_filter.mpr ⟨hmem, fun hl => ?_⟩, h⟩
    -- the list of `t` goes on, since `n` owns it
    rcases h with rfl | rfl | rfl
    · simp [Obj.isLinked] at hl
    · obtain rfl : t = s := by simpa [Obj.isLinked] using hl
      exact hun hinner
    · simp [Obj.isLinked] at hl

theorem Awaited.step (h : Awaited c) (hw : Wf c) (hst : Step c e c') : Awaited c' := by
  intro n nd' t howned' hn' hex hs
  have hkeep : ∀ {nd : Node V E F}, c.nodes n = some nd → nd.storage = nd'.storage →
      Signal c' n t := by
    intro nd hn heq
    have howned : Owned c n := (hst.owned howned').resolve_right fun hf => by
      have := hw.bound n nd hn
      omega
    have hpend : nd.executed = false := by
      by_contra hne
      have := (hst.node_le hw hn hn').executed (by simpa using hne)
      rw [hex] at this
      cases this
    have hin : Owned c t := by
      refine .inr ⟨n, nd, hn, List.mem_append_left _ ?_⟩
      simp [heq, hs, Storage.refs]
    rcases h n nd t howned hn hpend (by rw [heq, hs]) with hmem | ⟨o, hmem, ho⟩
    · rcases hst.keeps_execute hmem with hmem | hclosed
      · exact .inl hmem
      · rw [Futures.isExecuted_eq hn', hex] at hclosed
        cases hclosed
    · exact hst.callsBack howned hin hmem ho
  cases hst.node hn' with
  | same hn | touch hn | execute hn => exact hkeep hn rfl
  | spawn _ hsp => cases hsp <;> cases hs
  | settle _ _ hse =>
    have hrefs := hse.storage_refs
    simp only at hs
    rw [hs] at hrefs
    cases hrefs
  | unwrap hn he ho =>
    cases hs
    subst he
    obtain ⟨u, rest, nd, -, -, rfl⟩ := hst.unwrap_inv
    exact .inr ⟨_, Multiset.mem_cons_self _ _, .inl rfl⟩

/-! ## A promise before `get_future` -/

/-- **Nobody else has a `shared_ptr`** to a state without a result whose
promise still has one. -/
def Unissued (c : Config V E F) : Prop :=
  ∀ n nd, c.nodes n = some nd → nd.storage = .empty → .handle .promise true n ∈ c.objs →
    (∀ o ∈ c.objs, n ∈ o.refs → o = .handle .promise true n) ∧
      ∀ m nd, c.nodes m = some nd → n ∉ nd.refs

theorem push_ne_handle {k : Closure} {g : Producer} {b : Bool} :
    (c.push t k : Obj F) ≠ .handle g b n := by
  unfold Config.push
  split <;> simp

/-- A new node is made by a step that makes nodes. -/
theorem Step.spawned (hst : Step c e c') (h : Wf c) (hn' : c'.nodes c.fresh = some nd') :
    ∃ rem add rest, Spawn c e rem nd' add ∧ c.objs = rem + rest ∧ c'.objs = add + rest ∧
      c'.nodes = c.setNode c.fresh nd' := by
  have hnew : ∀ {nd}, c.nodes c.fresh ≠ some nd := fun hn => lt_irrefl _ (h.bound _ _ hn)
  cases hst with
  | @spawn _ rem add rest nd hs ho =>
    obtain ⟨-, rfl⟩ | ⟨hne, -⟩ := setNode_eq hn'
    · exact ⟨rem, add, rest, hs, ho, rfl, rfl⟩
    · exact absurd rfl hne
  | move => exact absurd hn' hnew
  | settle _ _ hn | unwrap _ hn | touch _ _ hn | execute _ hn =>
    obtain ⟨heq, -⟩ | ⟨-, hm⟩ := setNode_eq hn'
    · exact absurd (heq ▸ hn) hnew
    · exact absurd hm hnew
  | @destroy s =>
    by_cases hs : c.fresh = s
    · simp [hs] at hn'
    · exact absurd (by simpa [hs] using hn') hnew

/-- Any other was there. -/
theorem Step.was_alive (hst : Step c e c') (hne : n ≠ c.fresh) (hn' : c'.nodes n = some nd') :
    ∃ nd, c.nodes n = some nd := by
  cases hst.node hn' with
  | same hn | touch hn | execute hn | settle hn | unwrap hn => exact ⟨_, hn⟩
  | spawn hn => exact absurd hn hne

/-- A storage that is empty was empty. -/
theorem Step.was_empty (hst : Step c e c') (hne : n ≠ c.fresh) (hn' : c'.nodes n = some nd')
    (hs : nd'.storage = .empty) : ∃ nd, c.nodes n = some nd ∧ nd.storage = .empty := by
  cases hst.node hn' with
  | same hn | touch hn | execute hn => exact ⟨_, hn, hs⟩
  | spawn hn => exact absurd hn hne
  | settle _ _ hse => exact absurd hs hse.storage_ne
  | unwrap => cases hs

/-- A promise that has a `shared_ptr` had it before. -/
theorem Step.was_issuing (hst : Step c e c') (hne : n ≠ c.fresh)
    (hmem : .handle .promise true n ∈ c'.objs) : .handle .promise true n ∈ c.objs := by
  refine hst.forall_objs (P := fun o => o = .handle .promise true n → o ∈ c.objs)
    (fun o ho _ => ho) ?_ ?_ ?_ ?_ ?_ ?_ _ hmem rfl
  · intro rem add rest hm ho o hadd heq
    subst heq
    cases hm with
    | notify | detach | subscribe => simp [push_ne_handle.symm] at hadd
    | peek | invokeNextShared => simp [sharedObjs, mem_inputObjs] at hadd
    | _ => simp at hadd
  · intro rem add rest nd hs ho _ o hadd heq
    subst heq
    cases hs with
    | attach => simp [push_ne_handle.symm, mem_keeps] at hadd
    | newPromise => simp [hne] at hadd
    | _ => simp at hadd
  · intro rem add rest s x clean nd hs ho _ _
    refine ⟨by simp, fun o hadd heq => ?_⟩
    subst heq
    cases hs with
    | setValue | setException =>
      rw [ho]
      exact Multiset.mem_add.mpr (.inl hadd)
    | ret => simp [mem_cleanup] at hadd
    | abandon | passError => simp at hadd
  · simp
  · intro rem add rest s nd body ht ho _ o hadd heq
    subst heq
    cases ht <;> simp [mem_executeIf, mem_inputObjs] at hadd
  · simp

/-- After `get_future` it has none. -/
theorem Step.issues (hst : Step c (.getFuture n) c') (hsole : Sole c) :
    .handle .promise true n ∉ c'.objs := by
  intro hmem
  cases hst with
  | @move _ rem add rest hm ho =>
    cases hm with
    | getFuture g _ hg =>
      rcases Multiset.mem_add.mp hmem with hmem | hmem
      · simp at hmem
      · have := hsole.other ho (o := .handle g true n) (s := n) (by simp)
          (by simp [Obj.claims]) hmem
        simp [Obj.claims] at this
  | spawn hs => cases hs
  | settle hs => cases hs
  | touch ht => cases ht

/-- A state that nobody has named. -/
theorem Wf.not_refs_fresh (h : Wf c) (ho : o ∈ c.objs) : c.fresh ∉ o.refs := fun hn =>
  lt_irrefl _ (h.names o ho _ (Obj.refs_subset_names hn))

theorem Spawn.unissued (hs : Spawn c e rem nd add) (h : Wf c) (ho : c.objs = rem + rest)
    (hmem : .handle .promise true c.fresh ∈ add + rest) :
    (∀ o ∈ add + rest, c.fresh ∈ o.refs → o = .handle .promise true c.fresh) ∧
      ∀ m nd', c.setNode c.fresh nd m = some nd' → c.fresh ∉ nd'.refs := by
  have hrest : ∀ o ∈ rest, c.fresh ∉ o.refs := fun o hr => h.not_refs_fresh (mem_of_rest ho hr)
  have hadd : .handle .promise true c.fresh ∈ add :=
    (Multiset.mem_add.mp hmem).resolve_right fun hr => hrest _ hr (by simp [Obj.refs])
  cases hs with
  | newPromise canceler =>
    refine ⟨fun o hmem hn => ?_, fun m nd' hm hn => ?_⟩
    · rcases Multiset.mem_add.mp hmem with hmem | hmem
      · exact Multiset.mem_singleton.mp hmem
      · exact absurd hn (hrest o hmem)
    · obtain ⟨-, rfl⟩ | ⟨-, hm⟩ := setNode_eq hm
      · simp [Node.refs, Storage.refs, Body.refs] at hn
      · exact h.not_owned_fresh (.inr ⟨m, nd', hm, hn⟩)
  | attach => simp [push_ne_handle.symm, mem_keeps] at hadd
  | _ => simp at hadd

/-- What a step that takes `rem` finds of a promise's state that has not
been given away. -/
structure Sealed (c : Config V E F) (rem : Multiset (Obj F)) (n : ℕ) : Prop where
  refs : ∀ o ∈ rem, n ∈ o.refs → o = .handle .promise true n
  claims : ∀ o ∈ rem, o.claims n = true → o = .handle .promise true n
  callback : ∀ t, .queued t (.unwrapCb n) ∉ rem
  nodes : ∀ m nd, c.nodes m = some nd → n ∉ nd.refs

/-- **The references a step adds are copied from others**, of which there
are none. -/
theorem Move.unissued (hm : Move c e rem add) (h : Sealed c rem n) (he : e ≠ .getFuture n)
    (hmem : o ∈ add) (hn : n ∈ o.refs) : o = .handle .promise true n := by
  have hinputs : ∀ {w nd f}, c.nodes w = some nd → f ∈ nd.body.futures → f.2 ≠ n := by
    rintro w nd f hw hf rfl
    refine h.nodes w nd hw (List.mem_append_right _ ?_)
    cases hb : nd.body with
    | whenAll l r | whenAny l b i =>
      rw [hb] at hf
      exact List.mem_map.mpr ⟨f, hf, rfl⟩
    | promise b | task g | cnt x a => simp [hb, Body.futures] at hf
  have hrefs := h.refs
  cases hm with
  | getFuture g s hg =>
    have hne : s ≠ n := fun hs => he (by rw [hs])
    simp only [Multiset.insert_eq_cons, Multiset.mem_cons, Multiset.mem_singleton] at hmem
    rcases hmem with rfl | rfl <;> simp [Obj.refs, hne.symm] at hn
  | callTask owning s =>
    have hne : s ≠ n := by
      rintro rfl
      have := h.claims (.handle .task owning s) (by simp) (by simp [Obj.claims])
      simp at this
    simp only [Multiset.insert_eq_cons, Multiset.mem_cons, Multiset.mem_singleton] at hmem
    rcases hmem with rfl | rfl
    · exact hrefs _ (by simp) hn
    · simp [Obj.refs, hne.symm] at hn
  | callUnwrap t s =>
    have hne : s ≠ n := by
      rintro rfl
      exact h.callback t (by simp)
    simp only [Multiset.insert_eq_cons, Multiset.mem_cons, Multiset.mem_singleton] at hmem
    rcases hmem with rfl | rfl
    · simp [Obj.refs, Closure.refs] at hn
    · simp [Obj.refs, hne.symm] at hn
  | peek s w nd _ hw =>
    simp only [sharedObjs, Multiset.mem_cons, mem_inputObjs, List.mem_filter] at hmem
    rcases hmem with rfl | ⟨f, ⟨hf, -⟩, rfl⟩
    · exact hrefs _ (by simp) hn
    · simp [Obj.refs, (hinputs hw hf).symm] at hn
  | invokeNextShared s w a nd _ _ _ hw =>
    have hrun := hrefs (.running s a) (by simp)
    simp only [sharedObjs, Multiset.mem_cons, mem_inputObjs, List.mem_filter] at hmem
    rcases hmem with rfl | rfl | ⟨f, ⟨hf, -⟩, rfl⟩
    · simp_all [Obj.refs]
    · simp_all [Obj.refs]
    · simp [Obj.refs, (hinputs hw hf).symm] at hn
  | notify u s | detach u s =>
    have hs := hrefs (.future u s) (by simp)
    simp only [Multiset.insert_eq_cons, Multiset.mem_cons, Multiset.mem_singleton] at hmem
    rcases hmem with rfl | rfl
    · exact hs hn
    · rw [push_refs] at hn
      simp_all [Closure.refs, Obj.refs]
  | subscribe s t =>
    have hs := hrefs (.subscribing s t) (by simp)
    simp only [Multiset.insert_eq_cons, Multiset.mem_cons, Multiset.mem_singleton] at hmem
    rcases hmem with rfl | rfl
    · simp_all [Obj.refs]
    · simp [push_refs, Closure.refs] at hn
  | register w i nd f hw =>
    have hmake := hrefs (.making w i) (by simp)
    simp only [Multiset.insert_eq_cons, Multiset.mem_cons, Multiset.mem_singleton] at hmem
    rcases hmem with rfl | rfl <;> simp_all [Obj.refs, Closure.refs]
  | _ => simp_all [Obj.refs, Closure.refs] <;> grind [Obj.refs, Closure.refs]

theorem Touch.unissued {body : Body F} (ht : Touch c e rem s nd body add) (h : Sealed c rem n)
    (hs : c.nodes s = some nd) (hmem : o ∈ add) (hn : n ∈ o.refs) :
    o = .handle .promise true n := by
  have hinputs : ∀ {f}, f ∈ nd.body.futures → f.2 ≠ n := by
    rintro f hf rfl
    refine h.nodes s nd hs (List.mem_append_right _ ?_)
    cases hb : nd.body with
    | whenAll l r | whenAny l b i =>
      rw [hb] at hf
      exact List.mem_map.mpr ⟨f, hf, rfl⟩
    | promise b | task g | cnt x a => simp [hb, Body.futures] at hf
  have hrefs := h.refs
  cases ht with
  | notify t _ pos =>
    have hw := hrefs (.queued t (.combine s pos)) (by simp)
    simp only [Multiset.mem_cons, mem_executeIf] at hmem
    rcases hmem with rfl | ⟨-, rfl⟩ <;> simp_all [Obj.refs, Closure.refs]
  | register _ i =>
    have hw := hrefs (.making s i) (by simp)
    simp only [Multiset.mem_cons, mem_executeIf] at hmem
    rcases hmem with rfl | rfl | ⟨-, rfl⟩ <;> simp_all [Obj.refs, Closure.refs]
  | finish _ i =>
    have hw := hrefs (.making s i) (by simp)
    simp only [Multiset.mem_cons, mem_executeIf] at hmem
    rcases hmem with rfl | ⟨-, rfl⟩ <;> simp_all [Obj.refs]
  | take m =>
    have hm := hrefs (.future true m) (by simp)
    simp only [Multiset.mem_cons, mem_inputObjs] at hmem
    rcases hmem with rfl | ⟨f, hf, rfl⟩
    · simp_all [Obj.refs]
    · simp [Obj.refs, (hinputs hf).symm] at hn
  | invokeNext m _ a =>
    have hm := hrefs (.running m a) (by simp)
    simp only [Multiset.mem_cons, mem_inputObjs] at hmem
    rcases hmem with rfl | rfl | ⟨f, hf, rfl⟩
    · simp_all [Obj.refs]
    · simp_all [Obj.refs]
    · simp [Obj.refs, (hinputs hf).symm] at hn
  | run _ _ exec a _ hb =>
    have hne : s ≠ n := by
      rintro rfl
      have := h.claims (.handle .action false s) (by simp) (by simp [Obj.claims])
      simp at this
    have hparent : a.parent ≠ n := by
      rintro rfl
      exact h.nodes s nd hs (List.mem_append_right _ (by simp [hb, Body.refs]))
    obtain rfl := Multiset.mem_singleton.mp hmem
    simp [Obj.refs, hne.symm, hparent.symm] at hn
  | abandon | clean => simp at hmem
  | schedule =>
    simp only [Multiset.insert_eq_cons, Multiset.mem_cons, Multiset.mem_singleton] at hmem
    rcases hmem with rfl | rfl <;> simp [Obj.refs, Closure.refs] at hn

theorem Spawn.still_unissued (hs : Spawn c e rem nd add) (h : Sealed c rem n) (hne : n ≠ c.fresh) :
    (∀ o ∈ add, n ∈ o.refs → o = .handle .promise true n) ∧ n ∉ nd.refs := by
  have hrefs := h.refs
  cases hs with
  | attach a =>
    have hparent : n ≠ a.parent := by
      rintro rfl
      have := hrefs (.future a.unique a.parent) (by simp) (by simp [Obj.refs])
      cases this
    refine ⟨fun o hmem hn => ?_, by simp [Node.refs, Storage.refs, Body.refs, hparent]⟩
    simp only [Multiset.mem_cons, mem_keeps] at hmem
    rcases hmem with rfl | rfl | ⟨-, -, rfl⟩
    · simp [Obj.refs, hne] at hn
    · simp [push_refs, Closure.refs] at hn
    · simp [Obj.refs, hparent] at hn
  | whenAll l | whenAny l =>
    have hinputs : ∀ f ∈ l, f.2 ≠ n := by
      rintro f hf rfl
      have := hrefs _ (mem_inputObjs.mpr ⟨f, hf, rfl⟩) (by simp [Obj.refs])
      cases this
    refine ⟨fun o hmem hn => ?_, fun hn => ?_⟩
    · obtain rfl := Multiset.mem_singleton.mp hmem
      simp [Obj.refs, hne] at hn
    · obtain ⟨f, hf, hfn⟩ : ∃ f ∈ l, f.2 = n := by
        simpa [Node.refs, Storage.refs, Body.refs] using hn
      exact hinputs f hf hfn
  | readySequence body hbody =>
    refine ⟨fun o hmem hn => ?_, ?_⟩
    · obtain rfl := Multiset.mem_singleton.mp hmem
      simp [Obj.refs, hne] at hn
    · rcases hbody with rfl | rfl <;> simp [Node.refs, Storage.refs, Body.refs]
  | newPromise | makePromise | newTask =>
    refine ⟨fun o hmem hn => ?_, by simp [Node.refs, Storage.refs, Body.refs]⟩
    simp only [Multiset.insert_eq_cons, Multiset.mem_cons, Multiset.mem_singleton] at hmem
    rcases hmem with rfl | rfl <;> simp [Obj.refs, hne] at hn

/-- Two objects with a claim on one state are one. -/
theorem Sole.eq {o' : Obj F} (h : Sole c) (hmem : o ∈ c.objs) (hmem' : o' ∈ c.objs)
    (hc : o.claims n = true) (hc' : o'.claims n = true) : o = o' := by
  by_contra hne
  obtain ⟨m, hm⟩ := Multiset.exists_cons_of_mem hmem
  rw [hm] at hmem'
  have hmem' : o' ∈ m := (Multiset.mem_cons.mp hmem').resolve_left fun h => hne h.symm
  have hle := h n
  have hpos := tally_pos hmem' hc'
  rw [hm, tally_cons, hc] at hle
  simp at hle
  omega

theorem Unissued.sealed (hu : Unissued c) (h : Sound c) (hsole : Sole c)
    (hn : c.nodes n = some nd) (hs : nd.storage = .empty) (hmem : .handle .promise true n ∈ c.objs)
    (ho : c.objs = rem + rest) : Sealed c rem n := by
  obtain ⟨hrefs, hnodes⟩ := hu n nd hn hs hmem
  refine ⟨fun o hr => hrefs o (mem_of_rem ho hr), fun o hr hc => ?_, fun t hr => ?_, hnodes⟩
  · exact hsole.eq (mem_of_rem ho hr) hmem hc (by simp [Obj.claims])
  · refine h.stored.objs _ (mem_of_rem ho hr) nd hn ?_ hs
    have hkind : nd.body.kind = .promise ∨ nd.body.kind = .cnt := h.lists.kinded _ hmem nd hn
    rcases hkind with hk | hk <;> simp [hk]

theorem Unissued.step (hu : Unissued c) (h : Sound c) (hsole : Sole c) (hst : Step c e c') :
    Unissued c' := by
  intro n nd' hn' hs hmem
  have hwf := h.wf
  by_cases hf : n = c.fresh
  · subst hf
    obtain ⟨rem, add, rest, hsp, ho, ho', hnodes⟩ := hst.spawned hwf hn'
    rw [ho'] at hmem ⊢
    rw [hnodes]
    exact hsp.unissued hwf ho hmem
  obtain ⟨nd, hn, hempty⟩ := hst.was_empty hf hn' hs
  have hold := hst.was_issuing hf hmem
  have hsealed : ∀ {rem rest : Multiset (Obj F)}, c.objs = rem + rest → Sealed c rem n :=
    fun ho => hu.sealed h hsole hn hempty hold ho
  have he : e ≠ .getFuture n := by
    rintro rfl
    exact hst.issues hsole hmem
  obtain ⟨hrefs, hnodes⟩ := hu n nd hn hempty hold
  refine ⟨?_, fun m ndm hm hin => ?_⟩
  · refine hst.forall_objs (P := fun o => n ∈ o.refs → o = .handle .promise true n) hrefs
      (fun hm ho o hadd => hm.unissued (hsealed ho) he hadd)
      (fun hsp ho _ o hadd => (hsp.still_unissued (hsealed ho) hf).1 o hadd) ?_ ?_
      (fun ht ho hnd o hadd => ht.unissued (hsealed ho) hnd hadd) ?_
    · intro rem add rest s x clean nd₁ hse ho _ hnd'
      have hne : n ≠ s := by
        rintro rfl
        obtain rfl := Option.some.inj (hn'.symm.trans hnd')
        exact hse.storage_ne hs
      refine ⟨fun hin => absurd (List.mem_singleton.mp hin) hne, fun o hadd hin => ?_⟩
      have hrem := (hsealed ho).refs
      cases hse with
      | ret g =>
        obtain ⟨-, rfl⟩ := mem_cleanup.mp hadd
        exact absurd (List.mem_singleton.mp hin) hne
      | setValue | setException => exact hrem o hadd hin
      | abandon => simp at hadd
      | passError _ _ a =>
        obtain rfl := Multiset.mem_singleton.mp hadd
        obtain rfl := List.mem_singleton.mp hin
        have := hrem (.running s a) (by simp) (by simp [Obj.refs])
        cases this
    · intro g s t u rest nd₁ _ ho _ hnd'
      have hne : n ≠ s := by
        rintro rfl
        obtain rfl := Option.some.inj (hn'.symm.trans hnd')
        cases hs
      refine ⟨fun hin => ?_, fun _ hin => absurd (List.mem_singleton.mp hin) hne⟩
      rcases List.mem_cons.mp hin with heq | hin
      · exact absurd heq hne
      · have := (hsealed ho).refs (.future u t) (by simp) hin
        cases this
    · intro s rest nd₁ _ ho _ _
      refine ⟨fun hin => ?_, fun k hk hin => ?_⟩
      · have := (hsealed ho).refs (.execute s) (by simp) hin
        cases this
      · have := hrefs _ hk hin
        cases this
  · cases hst.node hm with
    | same hold => exact hnodes m ndm hold hin
    | spawn _ hsp ho => exact (hsp.still_unissued (hsealed ho) hf).2 hin
    | settle hold _ hse =>
      rcases List.mem_append.mp hin with hin | hin
      · simp only [hse.storage_refs] at hin
        simp at hin
      · exact hnodes m _ hold (List.mem_append_right _ (hse.clean_refs hin))
    | @unwrap nd₁ g t u rest hold he ho =>
      rcases List.mem_append.mp hin with hin | hin
      · have := (hsealed ho).refs (.future u t) (by simp) hin
        cases this
      · exact hnodes m _ hold (List.mem_append_right _ hin)
    | touch hold ht =>
      rcases List.mem_append.mp hin with hin | hin
      · exact hnodes m _ hold (List.mem_append_left _ hin)
      · exact hnodes m _ hold (List.mem_append_right _ (ht.body_refs hin))
    | execute hold => exact hnodes m _ hold hin

/-! ## A pending state has a producer -/

/-- **Every state that has an owner and nothing stored has a producer.** -/
def Produced (c : Config V E F) : Prop :=
  ∀ n nd, Owned c n → c.nodes n = some nd → nd.body.kind ≠ .combinator → nd.storage = .empty →
    0 < tally (Obj.claims n) c.objs

/-- Only a promise that has a `shared_ptr` goes without a trace. -/
theorem Move.keeps_claims (hm : Move c e rem add) (howned : Owned c n) :
    tally (Obj.claims n) rem ≤ tally (Obj.claims n) add ∨
      (e = .drop .promise n ∧ rem = {.handle .promise true n} ∧ add = 0) := by
  have hexpired : ∀ {s}, ¬ Owned c s → s ≠ n := by
    rintro s hexp rfl
    exact hexp howned
  cases hm with
  | dropPromise s =>
    by_cases hs : s = n
    · subst hs
      exact .inr ⟨rfl, rfl, rfl⟩
    · exact .inl (by simp [Obj.claims, hs])
  | dropExpired g s hexp | runExpired s hexp => exact .inl (by simp [Obj.claims, hexpired hexp])
  | callPlain t k hk =>
    refine .inl ?_
    rcases hk with rfl | ⟨_, rfl⟩ <;> simp [Obj.claims]
  | callExpired t s k hk hexp =>
    refine .inl ?_
    rcases hk with rfl | rfl <;> simp [Obj.claims, hexpired hexp]
  | notify | detach | subscribe =>
    simp only [Multiset.insert_eq_cons, tally_cons, tally_singleton, push_claims]
    exact .inl (by simp [Obj.claims])
  | _ => exact .inl (by simp [Obj.claims])

theorem Spawn.keeps_claims (hs : Spawn c e rem nd add) :
    tally (Obj.claims n) rem ≤ tally (Obj.claims n) add := by
  cases hs with
  | attach a =>
    simp only [tally_cons, push_claims]
    simp [Obj.claims]
  | _ => simp [Obj.claims]

/-- A new state has a producer. -/
theorem Spawn.produced (hs : Spawn c e rem nd add) (hk : nd.body.kind ≠ .combinator) :
    0 < tally (Obj.claims c.fresh) add := by
  cases hs with
  | attach a =>
    simp only [tally_cons, push_claims]
    simp [Obj.claims]
  | whenAll | whenAny => exact absurd rfl hk
  | readySequence body hbody => rcases hbody with rfl | rfl <;> exact absurd rfl hk
  | _ => simp [Obj.claims]

theorem Settle.keeps_claims {x : Storage V E} {clean : Body F → Body F}
    (hs : Settle c e rem s x clean add) (hne : n ≠ s) :
    tally (Obj.claims n) rem ≤ tally (Obj.claims n) add := by
  cases hs with
  | ret g => cases g <;> simp [Obj.claims, hne.symm]
  | _ => simp [Obj.claims, hne.symm]

/-- `abandon` takes the producer of a state that has a result. -/
theorem Touch.keeps_claims {body : Body F} (ht : Touch c e rem s nd body add)
    (hs : s = n → nd.executed = false ∧ nd.storage = .empty) :
    tally (Obj.claims n) rem ≤ tally (Obj.claims n) add := by
  cases ht with
  | abandon h owning _ _ _ _ hdone =>
    have hne : s ≠ n := fun heq => by
      obtain ⟨hex, hempty⟩ := hs heq
      rcases hdone with hdone | ⟨t, hdone⟩
      · rw [hex] at hdone
        cases hdone
      · rw [hempty] at hdone
        cases hdone
    simp [Obj.claims, hne]
  | _ => simp [Obj.claims]

/-- **A producer of a pending state stays one**, or another one takes its
place; only a promise that has a `shared_ptr` can go. -/
theorem Step.keeps_producer (hst : Step c e c') (h : Inv c) (hn : c.nodes n = some nd)
    (hk : nd.body.kind ≠ .combinator) (hempty : nd.storage = .empty)
    (hn' : c'.nodes n = some nd') (hs' : nd'.storage = .empty) (howned : Owned c n)
    (hpos : 0 < tally (Obj.claims n) c.objs) : 0 < tally (Obj.claims n) c'.objs ∨
      (e = .drop .promise n ∧ c.objs = .handle .promise true n ::ₘ c'.objs ∧
        c'.nodes = c.nodes) := by
  cases hst with
  | @move _ rem add rest hm ho =>
    rcases hm.keeps_claims howned with hle | ⟨he, rfl, rfl⟩
    · refine .inl ?_
      rw [ho, tally_add] at hpos
      rw [tally_add]
      omega
    · exact .inr ⟨he, by simp [ho], rfl⟩
  | @spawn _ rem add rest _ hsp ho =>
    have := hsp.keeps_claims (n := n)
    rw [ho, tally_add] at hpos
    rw [tally_add]
    exact .inl (by omega)
  | @settle _ rem add rest s x clean _ hse ho hnd =>
    have hne : n ≠ s := by
      rintro rfl
      obtain ⟨-, rfl⟩ | ⟨hne, -⟩ := setNode_eq hn'
      · exact hse.storage_ne hs'
      · exact hne rfl
    have := hse.keeps_claims hne
    rw [ho, tally_add] at hpos
    rw [tally_cons, tally_add]
    exact .inl (by omega)
  | @unwrap g s t u rest _ ho =>
    have hne : n ≠ s := by
      rintro rfl
      obtain ⟨-, rfl⟩ | ⟨hne, -⟩ := setNode_eq hn'
      · cases hs'
      · exact hne rfl
    refine .inl ?_
    rw [ho] at hpos
    cases g <;> simp [Obj.claims, hne.symm] at hpos ⊢ <;> omega
  | @touch _ rem add rest s nds body ht ho hnd =>
    have := ht.keeps_claims (n := n) fun heq => by
      subst heq
      obtain rfl := Option.some.inj (hn.symm.trans hnd)
      refine ⟨?_, hempty⟩
      by_contra hex
      exact h.stored.nodes s (by simp [Futures.isExecuted_eq hn, hex]) nd hn hk hempty
    rw [ho, tally_add] at hpos
    rw [tally_add]
    exact .inl (by omega)
  | @execute s rest _ ho =>
    refine .inl ?_
    rw [ho, tally_add] at hpos
    rw [tally_cons, tally_map_of _ (fun o => unlink_claims o s n) rest]
    simp [Obj.claims] at hpos ⊢
    omega
  | @destroy s nds hnd hun =>
    obtain ⟨o, hmem, hc⟩ := exists_of_tally_pos hpos
    refine .inl (tally_pos (Multiset.mem_filter.mpr ⟨hmem, fun hl => ?_⟩) hc)
    -- the continuation owns its parent
    cases o with
    | linked t k =>
      obtain rfl : t = s := by simpa [Obj.isLinked] using hl
      cases k with
      | schedule m =>
        obtain rfl : m = n := by simpa [Obj.claims] using hc
        obtain ⟨-, -, a, hb, rfl⟩ := h.claimed.pending _ hmem nd hn
        exact hun (.inr ⟨m, nd, hn, List.mem_append_right _ (by simp [hb, Body.refs])⟩)
      | _ => simp [Obj.claims] at hc
    | _ => simp [Obj.isLinked] at hl

theorem Produced.step (hp : Produced c) (h : Inv c) (hu : Unissued c) (hst : Step c e c') :
    Produced c' := by
  intro n nd' howned' hn' hk' hs'
  by_cases hf : n = c.fresh
  · subst hf
    obtain ⟨rem, add, rest, hsp, ho, ho', -⟩ := hst.spawned h.wf hn'
    rw [ho', tally_add]
    have := hsp.produced hk'
    omega
  obtain ⟨nd, hn, hempty⟩ := hst.was_empty hf hn' hs'
  have howned : Owned c n := (hst.owned howned').resolve_right fun h => hf h.1
  have hk : nd.body.kind ≠ .combinator := (hst.node_le h.wf hn hn').kind ▸ hk'
  have hpos := hp n nd howned hn hk hempty
  rcases hst.keeps_producer h hn hk hempty hn' hs' howned hpos with hpos | ⟨-, ho, hnodes⟩
  · exact hpos
  -- the promise had the only `shared_ptr`
  obtain ⟨hrefs, hnone⟩ := hu n nd hn hempty (by simp [ho])
  rcases howned' with ⟨o, hmem, hin⟩ | ⟨m, ndm, hm, hin⟩
  · have hclaim : o.claims n = true := by
      rw [hrefs o (by rw [ho]; exact Multiset.mem_cons_of_mem hmem) hin]
      simp [Obj.claims]
    exact tally_pos hmem hclaim
  · exact absurd hin (hnone m ndm (hnodes ▸ hm))

end Futures

end PortableConcurrency
