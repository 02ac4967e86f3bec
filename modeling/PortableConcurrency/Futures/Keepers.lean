import PortableConcurrency.Futures.Wanted

/-!
# Futures that are kept

While every future is kept, or consumed by a further continuation, no
state is lost before it is ready: it has a future, or a state that needs
it, or a producer from which its future can still be retrieved. What can
take such an owner away comes only after the state is ready.
-/

namespace PortableConcurrency

namespace Futures

variable {V E F : Type*} {c c' : Config V E F} {e : Event V E F}
variable {rem add rest : Multiset (Obj F)} {s t m n : ℕ} {nd nd' : Node V E F} {a : Action F}

/-- **Futures are kept until they are ready**, and retrieved. No
combinator is made. -/
structure Keeps (c : Config V E F) (e : Event V E F) : Prop where
  combine : ∀ w l, e ≠ .combine w l
  futures : ∀ s, e = .dropFuture s → c.isExecuted s = true
  retrieved : ∀ g s, e = .drop g s → .handle g true s ∈ c.objs → c.isExecuted s = true

/-- What keeps `n`. -/
inductive Keeper (c : Config V E F) (n : ℕ) : Prop
  | future (u : Bool) (h : .future u n ∈ c.objs)
  | needed (m : ℕ) (h : Needs c m n)
  | unretrieved (g : Producer) (h : .handle g true n ∈ c.objs)

/-- Every state that is not ready is kept. -/
def Retained (c : Config V E F) : Prop :=
  ∀ n nd, c.nodes n = some nd → nd.executed = false → Keeper c n

theorem Keeper.owned (h : Keeper c n) : Owned c n := by
  cases h with
  | future u h => exact .inl ⟨_, h, by simp [Obj.refs]⟩
  | needed m h => exact h.owned
  | unretrieved g h => exact .inl ⟨_, h, by simp [Obj.refs]⟩

/-! ## One step -/

/-- **A future is kept, or consumed.** -/
theorem Step.keeps_future {u : Bool} (hst : Step c e c') (hok : Keeps c e)
    (hpend : c.isExecuted n = false) (hmem : .future u n ∈ c.objs) : Keeper c' n := by
  have hready : ∀ {l : ℕ} {o : Outcome V E}, ¬ Resolves c n l o := fun hr => by
    obtain ⟨nd, hn, hex⟩ : ∃ nd, c.nodes n = some nd ∧ nd.executed = true := by
      cases hr with
      | leaf hn hex | inner hn hex => exact ⟨_, hn, hex⟩
    rw [Futures.isExecuted_eq hn, hex] at hpend
    cases hpend
  cases hst with
  | @move _ rem add rest hm ho =>
    rw [ho] at hmem
    rcases Multiset.mem_add.mp hmem with hrem | hrest
    swap
    · exact .future u (Multiset.mem_add.mpr (.inr hrest))
    cases hm with
    | dropFuture u' s =>
      obtain ⟨-, rfl⟩ : u = u' ∧ n = s := by simpa using hrem
      rw [hok.futures n rfl] at hpend
      cases hpend
    | share s =>
      obtain ⟨-, rfl⟩ : u = true ∧ n = s := by simpa using hrem
      exact .future false (by simp)
    | copy s | peek s =>
      obtain ⟨-, rfl⟩ : u = false ∧ n = s := by simpa using hrem
      exact .future false (by simp)
    | notify u' s | detach u' s =>
      obtain ⟨-, rfl⟩ : u = u' ∧ n = s := by simpa using hrem
      exact .future u' (by simp)
    | _ => simp at hrem
  | @spawn _ rem add rest nd hs ho =>
    rw [ho] at hmem
    rcases Multiset.mem_add.mp hmem with hrem | hrest
    swap
    · exact .future u (Multiset.mem_add.mpr (.inr hrest))
    cases hs with
    | attach a =>
      obtain ⟨-, rfl⟩ : u = a.unique ∧ n = a.parent := by simpa using hrem
      exact .needed c.fresh ⟨_, Function.update_self .., .inl ⟨true, a, rfl, rfl⟩⟩
    | whenAll l | whenAny l => exact absurd rfl (hok.combine _ l)
    | readySequence => exact absurd rfl (hok.combine _ [])
    | newPromise | makePromise | newTask => simp at hrem
  | @settle _ rem add rest s x clean nd hs ho =>
    rw [ho] at hmem
    rcases Multiset.mem_add.mp hmem with hrem | hrest
    · cases hs <;> simp at hrem
    · exact .future u (Multiset.mem_cons_of_mem (Multiset.mem_add.mpr (.inr hrest)))
  | @unwrap g s t u' rest nd ho =>
    rw [ho] at hmem
    rcases Multiset.mem_add.mp hmem with hrem | hrest
    · obtain ⟨-, rfl⟩ : u = u' ∧ n = t := by simpa using hrem
      exact .needed s ⟨_, Function.update_self .., .inr rfl⟩
    · exact .future u (Multiset.mem_cons_of_mem (Multiset.mem_add.mpr (.inr hrest)))
  | @touch _ rem add rest s nd body ht ho =>
    rw [ho] at hmem
    rcases Multiset.mem_add.mp hmem with hrem | hrest
    swap
    · exact .future u (Multiset.mem_add.mpr (.inr hrest))
    cases ht with
    | take s w _ hr =>
      obtain ⟨-, rfl⟩ : u = true ∧ n = s := by simpa using hrem
      exact absurd hr hready
    | _ => simp at hrem
  | @execute s rest nd ho =>
    rw [ho] at hmem
    rcases Multiset.mem_add.mp hmem with hrem | hrest
    · simp at hrem
    · exact .future u (Multiset.mem_cons_of_mem (Multiset.mem_map.mpr ⟨_, hrest, rfl⟩))
  | destroy => exact .future u (Multiset.mem_filter.mpr ⟨hmem, by simp [Obj.isLinked]⟩)

theorem Step.keeps_unretrieved {g : Producer} (hst : Step c e c') (hok : Keeps c e)
    (hpend : c.isExecuted n = false) (hmem : .handle g true n ∈ c.objs) : Keeper c' n := by
  have hdrop : e ≠ .drop g n := fun he => by
    rw [hok.retrieved g n he hmem] at hpend
    cases hpend
  cases hst with
  | @move _ rem add rest hm ho =>
    rw [ho] at hmem
    rcases Multiset.mem_add.mp hmem with hrem | hrest
    swap
    · exact .unretrieved g (Multiset.mem_add.mpr (.inr hrest))
    cases hm with
    | getFuture g' s =>
      obtain ⟨-, rfl⟩ : g = g' ∧ n = s := by simpa using hrem
      exact .future true (by simp)
    | dropPromise s =>
      obtain ⟨rfl, rfl⟩ : g = .promise ∧ n = s := by simpa using hrem
      exact absurd rfl hdrop
    | callTask b s fn =>
      obtain ⟨rfl, rfl, rfl⟩ : g = .task ∧ true = b ∧ n = s := by simpa using hrem
      exact .unretrieved .task (by simp)
    | _ => simp at hrem
  | @spawn _ rem add rest nd hs ho =>
    rw [ho] at hmem
    rcases Multiset.mem_add.mp hmem with hrem | hrest
    · cases hs <;> simp [mem_inputObjs] at hrem
    · exact .unretrieved g (Multiset.mem_add.mpr (.inr hrest))
  | @settle _ rem add rest s x clean nd hs ho =>
    rw [ho] at hmem
    rcases Multiset.mem_add.mp hmem with hrem | hrest
    swap
    · exact .unretrieved g (Multiset.mem_cons_of_mem (Multiset.mem_add.mpr (.inr hrest)))
    cases hs with
    | setValue b | setException b =>
      obtain ⟨rfl, rfl, rfl⟩ : g = .promise ∧ true = b ∧ n = s := by simpa using hrem
      exact .unretrieved .promise (by simp)
    | abandon g' b =>
      obtain ⟨rfl, -, rfl⟩ : g = g' ∧ true = b ∧ n = s := by simpa using hrem
      exact absurd rfl hdrop
    | passError | ret => simp at hrem
  | @unwrap g' s t u' rest nd ho =>
    rw [ho] at hmem
    rcases Multiset.mem_add.mp hmem with hrem | hrest
    · simp at hrem
    · exact .unretrieved g (Multiset.mem_cons_of_mem (Multiset.mem_add.mpr (.inr hrest)))
  | @touch _ rem add rest s nd body ht ho =>
    rw [ho] at hmem
    rcases Multiset.mem_add.mp hmem with hrem | hrest
    swap
    · exact .unretrieved g (Multiset.mem_add.mpr (.inr hrest))
    cases ht with
    | abandon g' b =>
      obtain ⟨rfl, -, rfl⟩ : g = g' ∧ true = b ∧ n = s := by simpa using hrem
      exact absurd rfl hdrop
    | _ => simp at hrem
  | @execute s rest nd ho =>
    rw [ho] at hmem
    rcases Multiset.mem_add.mp hmem with hrem | hrest
    · simp at hrem
    · exact .unretrieved g (Multiset.mem_cons_of_mem (Multiset.mem_map.mpr ⟨_, hrest, rfl⟩))
  | destroy => exact .unretrieved g (Multiset.mem_filter.mpr ⟨hmem, by simp [Obj.isLinked]⟩)

/-- An action leaves its continuation through the producer of that. -/
theorem Touch.keeps_action {body : Body F} {exec : Bool} (ht : Touch c e rem s nd body add)
    (hb : nd.body = .cnt exec (some a)) :
    (∃ exec, body = .cnt exec (some a)) ∨ ∃ b, .handle .action b s ∈ rem := by
  cases ht with
  | abandon g b =>
    cases g with
    | promise | task => exact .inl ⟨exec, by rw [hb]; rfl⟩
    | action => exact .inr ⟨b, by simp⟩
  | schedule _ _ _ a' _ hb' =>
    rw [hb] at hb'
    cases hb'
    exact .inl ⟨false, rfl⟩
  | run => exact .inr ⟨false, by simp⟩
  | clean | notify | register | finish | take | invokeNext => exact .inl ⟨exec, by rw [hb]; rfl⟩

/-- **Who needs a state that is not ready goes on needing it**, or is
destroyed. -/
theorem Trees.keeps_needs (h : Trees c) (hfirst : FirstResult c e) (hst : Step c e c')
    (hpend : c.isExecuted n = false) (hneeds : Needs c m n) :
    Needs c' m n ∨ c'.nodes m = none := by
  obtain ⟨nd, hn, hcase⟩ := hneeds
  have hlt := h.live.wf.bound m nd hn
  -- a scheduled action has a ready parent
  have haction : ∀ {b exec a}, .handle .action b m ∈ c.objs → nd.body = .cnt exec (some a) →
      a.parent = n → False := by
    rintro b exec a hmem hb rfl
    obtain ⟨-, -, a', hb', hclosed⟩ := h.steady.claimed.pending _ hmem nd hn
    rw [hb] at hb'
    cases hb'
    have howned : Owned c a.parent := .inr ⟨m, nd, hn, by simp [Node.refs, Body.refs, hb]⟩
    obtain ⟨ndp, hp⟩ := h.live.wf.alive a.parent howned
    rw [isExecuted_eq hp, hclosed ndp hp] at hpend
    cases hpend
  cases hn' : c'.nodes m with
  | none => exact .inr rfl
  | some nd' =>
    refine .inl ⟨nd', hn', ?_⟩
    cases hst.node hn' with
    | same hm =>
      obtain rfl := Option.some.inj (hn.symm.trans hm)
      exact hcase
    | spawn hf => omega
    | settle hm hempty hs ho =>
      obtain rfl := Option.some.inj (hn.symm.trans hm)
      rcases hcase with ⟨exec, a, hb, hp⟩ | hs'
      · have hstart : ∀ exec, _ ≠ Body.cnt exec (some a) := fun _ => h.settle_started hs ho hn
        cases hs with
        | abandon g b =>
          cases g with
          | promise | task => exact absurd (by rw [hb]; rfl) (hstart exec)
          | action => exact (haction (b := b) (by simp [ho]) hb hp).elim
        | setValue | setException | passError | ret => exact absurd hb (hstart exec)
      · rw [hs'] at hempty
        cases hempty
    | @unwrap _ g t u rest hm he ho =>
      obtain rfl := Option.some.inj (hn.symm.trans hm)
      have hempty := h.steady.toInv.unwrap_empty hfirst he ho hn
      rcases hcase with ⟨exec, a, hb, hp⟩ | hs'
      · exact .inl ⟨exec, a, hb, hp⟩
      · rw [hs'] at hempty
        cases hempty
    | touch hm ht ho =>
      obtain rfl := Option.some.inj (hn.symm.trans hm)
      rcases hcase with ⟨exec, a, hb, hp⟩ | hs'
      · rcases ht.keeps_action hb with ⟨exec', hb'⟩ | ⟨b, hrem⟩
        · exact .inl ⟨exec', a, hb', hp⟩
        · exact (haction (mem_of_rem ho hrem) hb hp).elim
      · exact .inr hs'
    | execute hm =>
      obtain rfl := Option.some.inj (hn.symm.trans hm)
      exact hcase

/-- Who needs a state that is not ready is not ready. -/
theorem Trees.needs_pending (h : Trees c) (hpend : c.isExecuted n = false) (hneeds : Needs c m n)
    (hn : c.nodes m = some nd) : nd.executed = false := by
  obtain ⟨nd₁, hn₁, ⟨exec, a, hb, -⟩ | hs⟩ := hneeds
  all_goals obtain rfl := Option.some.inj (hn.symm.trans hn₁)
  · exact (h.unstarted m nd exec a hn hb).2
  · by_contra hex
    have hex : c.isExecuted m = true := by rw [isExecuted_eq hn]; simpa using hex
    rw [h.steady.unwrapped.nodes m hex nd n hn (h.planted m nd hn) hs] at hpend
    cases hpend

/-- **No state is lost before it is ready.** -/
theorem Retained.step (hk : Retained c) (h : Trees c) (hok : Keeps c e) (hfirst : FirstResult c e)
    (hst : Step c e c') : Retained c' := by
  intro n nd' hn' hpend'
  by_cases hf : n = c.fresh
  · subst hf
    obtain ⟨rem, add, rest, hs, -, ho'⟩ := hst.spawned h.live.wf hn'
    cases hs with
    | newPromise => exact .unretrieved .promise (by simp [ho'])
    | newTask => exact .unretrieved .task (by simp [ho'])
    | makePromise | attach => exact .future true (by simp [ho'])
    | whenAll l | whenAny l => exact absurd rfl (hok.combine _ l)
    | readySequence => exact absurd rfl (hok.combine _ [])
  obtain ⟨nd, hn⟩ := hst.was_alive hf hn'
  have hpend : nd.executed = false := by
    by_contra hex
    rw [(hst.node_le h.live.wf hn hn').executed (by simpa using hex)] at hpend'
    cases hpend'
  have hwait : c.isExecuted n = false := by rw [isExecuted_eq hn, hpend]
  cases hk n nd hn hpend with
  | future u hmem => exact hst.keeps_future hok hwait hmem
  | unretrieved g hmem => exact hst.keeps_unretrieved hok hwait hmem
  | needed m hneeds =>
    refine (h.keeps_needs hfirst hst hwait hneeds).elim (.needed m) fun hgone => ?_
    -- who needs it is kept as well, and so not destroyed
    obtain ⟨ndm, hm, -⟩ := id hneeds
    have howned := (hk m ndm hm (h.needs_pending hwait hneeds hm)).owned
    obtain ⟨ndm', hm'⟩ := (hst.alive hm).resolve_right fun hgone => hgone.2 howned
    rw [hgone] at hm'
    cases hm'

end Futures

end PortableConcurrency
