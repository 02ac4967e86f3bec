import PortableConcurrency.Futures.Readiness

/-!
# Cancel actions

A promise that is given a canceler makes a `cancellable_state`, and the
destructor of that state calls the canceler unless a result has been
announced. The canceler is meant for a state that nobody waits for any
more while its promise is still there. It is called there and only there,
if no such promise goes before its future has been retrieved: until then
it is the promise that owns the state.
-/

namespace PortableConcurrency

namespace Futures

variable {V E F : Type*} {c c' c₁ c₂ : Config V E F} {e : Event V E F}
variable {es : List (Event V E F)} {s n : ℕ} {nd nd' : Node V E F}

/-- **The step calls the canceler of `s`.** -/
def Cancels (c : Config V E F) (e : Event V E F) (s : ℕ) : Prop :=
  e = .destroy s ∧ ∃ nd, c.nodes s = some nd ∧ nd.body = .promise true ∧ nd.executed = false

/-- **No promise with a canceler goes before its future has been
retrieved**, unless a result has been set. -/
def Retrieved (c : Config V E F) (e : Event V E F) : Prop :=
  ∀ s nd, e = .drop .promise s → c.nodes s = some nd → nd.body = .promise true →
    nd.storage = .empty → .handle .promise true s ∉ c.objs

/-- **The last owner of `s` has gone while its promise was there, and
nothing had been set.** -/
def Abandoned (ok : Config V E F → Event V E F → Prop) (es : List (Event V E F))
    (c : Config V E F) (s : ℕ) : Prop :=
  ∃ es₁ e es₂ c₁ c₂, es = es₁ ++ e :: es₂ ∧ Trace Step ok init es₁ c₁ ∧
    ok c₁ e ∧ Step c₁ e c₂ ∧ Trace Step ok c₂ es₂ c ∧ Owned c₁ s ∧ ¬ Owned c₂ s ∧
    (∃ b, .handle .promise b s ∈ c₂.objs) ∧ ∀ x, .set s x ∉ es₁ ++ [e]

/-! ## What the past says -/

/-- **What has been done to promises, and what has become of them.** -/
structure Past (es : List (Event V E F)) (c : Config V E F) : Prop where
  set : ∀ s x, .set s x ∈ es → s < c.fresh ∧
    ∀ nd, c.nodes s = some nd → nd.storage ≠ .empty
  dropped : ∀ s, .drop .promise s ∈ es → s < c.fresh ∧ tally (Obj.claims s) c.objs = 0
  stored : ∀ s nd, c.nodes s = some nd → nd.body.kind = .promise → nd.storage ≠ .empty →
    ((∃ x, .set s x ∈ es) ∨ .drop .promise s ∈ es) ∧ ∀ t, nd.storage ≠ .inner t
  destroyed : ∀ s, .destroy s ∈ es → s < c.fresh ∧ c.nodes s = none

theorem past_init : Past [] (init : Config V E F) := by
  refine ⟨by simp, by simp, fun s nd hn => ?_, by simp⟩
  simp [init] at hn

theorem Step.destroyed (hst : Step c e c') (he : e = .destroy s) :
    (∃ nd, c.nodes s = some nd) ∧ ¬ Owned c s ∧ c'.nodes s = none := by
  subst he
  obtain ⟨nd, hn, hun, rfl⟩ := hst.destroy_inv
  exact ⟨⟨_, hn⟩, hun, Function.update_self ..⟩

theorem Step.set (hst : Step c e c') {x : V ⊕ E} (he : e = .set s x) :
    (∃ nd, c.nodes s = some nd) ∧ ∀ nd', c'.nodes s = some nd' → nd'.storage ≠ .empty := by
  subst he
  cases hst with
  | move hm => cases hm
  | spawn hs => cases hs
  | @settle _ rem add rest s' y clean nd hs ho hn =>
    have hne := hs.storage_ne
    obtain rfl : s' = s := by cases hs <;> rfl
    refine ⟨⟨nd, hn⟩, fun nd' hn' => ?_⟩
    obtain ⟨-, rfl⟩ | ⟨hns, -⟩ := setNode_eq hn'
    · exact hne
    · exact absurd rfl hns
  | touch ht => cases ht

/-- A promise that goes takes its claim with it. -/
theorem Step.dropped (hst : Step c e c') (he : e = .drop .promise s) :
    tally (Obj.claims s) c'.objs + 1 = tally (Obj.claims s) c.objs := by
  subst he
  cases hst with
  | move hm ho => cases hm <;> simp [ho, Obj.claims, Nat.add_comm]
  | spawn hs => cases hs
  | settle hs ho =>
    cases hs
    simp [ho, Obj.claims, Nat.add_comm]
  | touch ht ho =>
    cases ht
    simp [ho, Obj.claims, Nat.add_comm]

/-- **A promise's state gets its result** from the promise, or because that
goes. -/
theorem Settle.promise {rem add : Multiset (Obj F)} {x : Storage V E} {clean : Body F → Body F}
    (hs : Settle c e rem s x clean add) (hk : nd.body.kind = .promise)
    (hn : c.nodes s = some nd) (hkinded : ∀ o ∈ rem, o.Kinded c) :
    ((∃ x, e = .set s x) ∨ e = .drop .promise s) ∧ ∀ t, x ≠ .inner t := by
  have hno : ∀ {k : Body.Kind}, HasKind c s k → k = .promise := fun h => (h nd hn).symm.trans hk
  cases hs with
  | setValue | setException => exact ⟨.inl ⟨_, rfl⟩, by simp⟩
  | abandon g owning _ hlock hweak =>
    cases g with
    | promise => exact ⟨.inr rfl, by simp⟩
    | task => cases hno (hkinded (.handle .task owning s) (by simp) : HasKind c s .task)
    | action => cases hno (hkinded (.handle .action owning s) (by simp)).2
  | passError _ _ a => cases hno (hkinded (.running s a) (by simp) : HasKind c s .cnt)
  | ret g =>
    cases g with
    | task => cases hno (hkinded (.invoked .task s) (by simp) : HasKind c s .task)
    | cnt => cases hno (hkinded (.invoked .cnt s) (by simp) : HasKind c s .cnt)

theorem Past.step (h : Past es c) (hl : Live c) (hst : Step c e c') : Past (es ++ [e]) c' := by
  refine ⟨fun s x hmem => ?_, fun s hmem => ?_, fun s nd' hn' hk hs => ?_, fun s hmem => ?_⟩
  · rcases List.mem_append.mp hmem with hmem | hmem
    · obtain ⟨hlt, hset⟩ := h.set s x hmem
      refine ⟨hlt.trans_le hst.fresh_le, fun nd' hn' => ?_⟩
      obtain ⟨nd, hn⟩ := hst.old hlt hn'
      exact hst.stored hl.wf hn hn' (hset nd hn)
    · obtain ⟨⟨nd, hn⟩, hset⟩ := hst.set (List.mem_singleton.mp hmem).symm
      exact ⟨(hl.wf.bound _ _ hn).trans_le hst.fresh_le, hset⟩
  · rcases List.mem_append.mp hmem with hmem | hmem
    · obtain ⟨hlt, hzero⟩ := h.dropped s hmem
      have hle := hst.claims s
      rw [if_neg hlt.ne] at hle
      exact ⟨hlt.trans_le hst.fresh_le, by omega⟩
    · have hone := hst.dropped (List.mem_singleton.mp hmem).symm
      have hsole := hl.claimed.sole s
      obtain ⟨o, ho, hc⟩ := exists_of_tally_pos (p := Obj.claims s) (m := c.objs) (by omega)
      exact ⟨(hl.wf.names o ho s (Obj.claims_names hc)).trans_le hst.fresh_le, by omega⟩
  · have hold : ∀ {nd : Node V E F}, c.nodes s = some nd → nd.body.kind = .promise →
        nd.storage ≠ .empty → ((∃ x, .set s x ∈ es ++ [e]) ∨ .drop .promise s ∈ es ++ [e]) ∧
          ∀ t, nd.storage ≠ .inner t := by
      intro nd hn hk hs
      obtain ⟨⟨x, hx⟩ | hd, hinner⟩ := h.stored s nd hn hk hs
      · exact ⟨.inl ⟨x, List.mem_append_left _ hx⟩, hinner⟩
      · exact ⟨.inr (List.mem_append_left _ hd), hinner⟩
    have hkinded := hl.lists.kinded
    cases hst.node hn' with
    | same hn => exact hold hn hk hs
    | spawn _ hsp => cases hsp <;> exact absurd rfl hs
    | settle hn _ hse ho =>
      rw [hse.kind] at hk
      obtain ⟨⟨x, rfl⟩ | rfl, hinner⟩ :=
        hse.promise hk hn fun o hmem => hkinded o (mem_of_rem ho hmem)
      · exact ⟨.inl ⟨x, by simp⟩, hinner⟩
      · exact ⟨.inr (by simp), hinner⟩
    | @unwrap nd g t u rest hn he ho =>
      have hg := hkinded _ (mem_of_rem ho (Multiset.mem_cons_self _ _))
      cases g with
      | task => exact absurd (hk.symm.trans (hg nd hn)) (by simp)
      | cnt => exact absurd (hk.symm.trans (hg nd hn)) (by simp)
    | touch hn ht =>
      have h' := hold hn (ht.kind ▸ hk) hs
      exact h'
    | execute hn =>
      have h' := hold hn hk hs
      exact h'
  · rcases List.mem_append.mp hmem with hmem | hmem
    · obtain ⟨hlt, hnone⟩ := h.destroyed s hmem
      refine ⟨hlt.trans_le hst.fresh_le, ?_⟩
      by_contra hsome
      obtain ⟨nd', hn'⟩ := Option.ne_none_iff_exists'.mp hsome
      obtain ⟨nd, hn⟩ := hst.old hlt hn'
      rw [hnone] at hn
      cases hn
    · obtain ⟨⟨nd, hn⟩, -, hnone⟩ := hst.destroyed (List.mem_singleton.mp hmem).symm
      exact ⟨(hl.wf.bound _ _ hn).trans_le hst.fresh_le, hnone⟩

/-- **A run, with its past.** -/
theorem Trace.past {ok : Config V E F → Event V E F → Prop} (htr : Trace Step ok init es c) :
    Live c ∧ Past es c :=
  htr.invariant (I := fun es c => Live c ∧ Past es c)
    (fun _ _ _ _ h _ hst => ⟨h.1.step hst, h.2.step h.1 hst⟩) ⟨live_init, past_init⟩

/-! ## A state that has lost its last owner -/

/-- **It stays as it is** until it is destroyed. -/
theorem Step.frozen (hst : Step c e c') (hun : ¬ Owned c s) (hlt : s < c.fresh)
    (hk : nd.body.kind = .promise) (hn' : c'.nodes s = some nd) : c.nodes s = some nd := by
  cases hst.node hn' with
  | same hn => exact hn
  | spawn hf => exact absurd hlt (by omega)
  | settle _ _ hse ho => exact absurd (hse.owned ho) hun
  | @unwrap nd g t u rest hn he ho =>
    exact absurd (owned_of_mem ho (o := .invoked g s) (by simp) (by simp [Obj.refs])) hun
  | @touch nd rem add rest body hn ht ho =>
    have hfutures : ∀ {t}, ¬ Resolves c t s .futures := by
      intro t hres
      obtain ⟨nd', hn', hcomb⟩ := hres.isCombinator
      obtain rfl := Option.some.inj (hn.symm.trans hn')
      have hkind := ht.kind.symm.trans hk
      rw [Body.isCombinator_iff.mp hcomb] at hkind
      cases hkind
    have hmem : ∀ o ∈ rem, s ∈ o.refs → False := fun o ho' hin =>
      hun (owned_of_mem ho ho' hin)
    cases ht with
    | abandon _ _ _ _ hlock => exact absurd hlock hun
    | schedule _ _ _ a hlock hb | run _ _ _ a hlock hb => exact absurd hlock hun
    | clean => exact (hmem (.cleaning s) (by simp) (by simp [Obj.refs])).elim
    | notify t _ pos =>
      exact (hmem (.queued t (.combine s pos)) (by simp) (by simp [Obj.refs, Closure.refs])).elim
    | register _ i | finish _ i => exact (hmem (.making s i) (by simp) (by simp [Obj.refs])).elim
    | take _ _ _ hres | invokeNext _ _ _ _ _ _ hres => exact absurd hres hfutures
  | execute hn he ho =>
    exact absurd (owned_of_mem ho (o := .execute s) (by simp) (by simp [Obj.refs])) hun

theorem Trace.frozen {ok : Config V E F → Event V E F → Prop} (htr : Trace Step ok c es c')
    (hun : ¬ Owned c s) (hlt : s < c.fresh) (hk : nd.body.kind = .promise)
    (hn' : c'.nodes s = some nd) : c.nodes s = some nd := by
  induction htr with
  | nil => exact hn'
  | snoc h _ hst ih =>
    have hun' := owned_run h.runs hlt hun
    exact ih (hst.frozen hun' (hlt.trans_le (fresh_le_run h.runs)) hk hn')

/-- A promise or a future is made with every state of a promise. -/
theorem Spawn.owned {rem add rest : Multiset (Obj F)} (hs : Spawn c e rem nd add)
    (hk : nd.body.kind = .promise) (ho' : c'.objs = add + rest) : Owned c' c.fresh := by
  cases hs with
  | newPromise =>
    exact .inl ⟨.handle .promise true c.fresh, by simp [ho'], by simp [Obj.refs]⟩
  | makePromise => exact .inl ⟨.future true c.fresh, by simp [ho'], by simp [Obj.refs]⟩
  | readySequence _ hbody => rcases hbody with rfl | rfl <;> cases hk
  | _ => cases hk

/-- **There was a step by which it lost it.** -/
theorem Trace.release {ok : Config V E F → Event V E F → Prop} (htr : Trace Step ok init es c)
    (hn : c.nodes s = some nd) (hk : nd.body.kind = .promise) (hun : ¬ Owned c s) :
    ∃ es₁ e es₂ c₁ c₂, es = es₁ ++ e :: es₂ ∧ Trace Step ok init es₁ c₁ ∧ ok c₁ e ∧
      Step c₁ e c₂ ∧ Trace Step ok c₂ es₂ c ∧ Owned c₁ s ∧ ¬ Owned c₂ s := by
  induction htr generalizing nd with
  | nil => simp [init] at hn
  | @snoc c c' es e h hok hst ih =>
    by_cases howned : Owned c s
    · exact ⟨es, e, [], c, c', rfl, h, hok, hst, .nil c', howned, hun⟩
    · have hwf := (Trace.past h).1.wf
      have hf : s ≠ c.fresh := by
        rintro rfl
        obtain ⟨rem, add, rest, hsp, -, ho', -⟩ := hst.spawned hwf hn
        exact hun (hsp.owned hk ho')
      obtain ⟨nd₀, hn₀⟩ := hst.was_alive hf hn
      have hk₀ : nd₀.body.kind = .promise := (hst.node_le hwf hn₀ hn).kind.symm.trans hk
      obtain ⟨es₁, e₁, es₂, c₁, c₂, rfl, h₁, hok₁, hst₁, h₂, ho₁, ho₂⟩ := ih hn₀ hk₀ howned
      exact ⟨es₁, e₁, es₂ ++ [e], c₁, c₂, by simp, h₁, hok₁, hst₁, h₂.snoc hok hst, ho₁, ho₂⟩

/-- A state of a promise that nobody owns and that has not been announced
holds nothing. -/
theorem Live.storage_eq_empty (hl : Live c) (hp : Past es c) (hun : ¬ Owned c s)
    (hn : c.nodes s = some nd) (hk : nd.body.kind = .promise) (hex : nd.executed = false) :
    nd.storage = .empty := by
  by_contra hs
  rcases hl.announced s nd hn hs (hp.stored s nd hn hk hs).2 with hex' | hmem
  · rw [hex] at hex'
    cases hex'
  · exact hun (.inl ⟨.execute s, hmem, by simp [Obj.refs]⟩)

/-- Who has a claim on the state of a promise is a promise. -/
theorem Obj.promise_of_claims {o : Obj F} (hc : o.claims s = true) (hkinded : o.Kinded c)
    (hn : c.nodes s = some nd) (hk : nd.body.kind = .promise) :
    ∃ b, o = .handle .promise b s := by
  have hno : ∀ {k : Body.Kind}, HasKind c s k → k = .promise := fun h => (h nd hn).symm.trans hk
  cases o with
  | handle g b t =>
    obtain rfl : t = s := by simpa [Obj.claims] using hc
    cases g with
    | promise => exact ⟨b, rfl⟩
    | task => cases hno (hkinded : HasKind c t .task)
    | action => cases hno hkinded.2
  | linked t k =>
    cases k with
    | schedule n =>
      obtain rfl : n = s := by simpa [Obj.claims] using hc
      cases hno (hkinded : HasKind c n .cnt)
    | _ => cases hc
  | queued t k =>
    cases k with
    | schedule n =>
      obtain rfl : n = s := by simpa [Obj.claims] using hc
      cases hno hkinded.1
    | _ => cases hc
  | running n a =>
    obtain rfl : n = s := by simpa [Obj.claims] using hc
    cases hno (hkinded : HasKind c n .cnt)
  | invoked g n =>
    cases g with
    | task => cases hc
    | cnt =>
      obtain rfl : n = s := by simpa [Obj.claims] using hc
      cases hno (hkinded : HasKind c n .cnt)
  | _ => cases hc

/-- **When the last owner goes.** Nothing has been announced, exactly if
the promise is still there and nothing has been set. -/
theorem Step.last_owner (hst : Step c₁ e c₂) (hl : Live c₁) (hp : Past (es ++ [e]) c₂)
    (hok : Retrieved c₁ e) (howned : Owned c₁ s) (hun : ¬ Owned c₂ s)
    (hn : c₂.nodes s = some nd) (hb : nd.body = .promise true) :
    nd.executed = false ↔
      (∃ b, .handle .promise b s ∈ c₂.objs) ∧ ∀ x, .set s x ∉ es ++ [e] := by
  have hl' := hl.step hst
  have hk : nd.body.kind = .promise := by rw [hb]; rfl
  constructor
  · intro hex
    have hempty := hl'.storage_eq_empty hp hun hn hk hex
    refine ⟨?_, fun x hmem => (hp.set s x hmem).2 nd hn hempty⟩
    obtain ⟨nd₁, hn₁⟩ := hl.wf.alive s howned
    have hf : s ≠ c₁.fresh := (hl.wf.bound s nd₁ hn₁).ne
    obtain ⟨nd₁, hn₁, hempty₁⟩ := hst.was_empty hf hn hempty
    have hkind := (hst.node_le hl.wf hn₁ hn).kind
    have hcomb : nd₁.body.kind ≠ .combinator := by
      rw [← hkind, hk]
      simp
    have hpos := hl.produced s nd₁ howned hn₁ hcomb hempty₁
    rcases hst.keeps_producer hl.toInv hn₁ hcomb hempty₁ hn hempty howned hpos with
      hpos | ⟨he, ho, hnodes⟩
    · obtain ⟨o, hmem, hc⟩ := exists_of_tally_pos hpos
      obtain ⟨b, rfl⟩ := Obj.promise_of_claims hc (hl'.lists.kinded o hmem) hn hk
      exact ⟨b, hmem⟩
    · -- a promise that goes before its future has been retrieved
      refine absurd (by simp [ho]) (hok s nd₁ he hn₁ ?_ hempty₁)
      rw [← hb, Option.some.inj (hn₁.symm.trans (hnodes ▸ hn))]
  · rintro ⟨⟨b, hmem⟩, hset⟩
    by_contra hex
    have hex : nd.executed = true := by simpa using hex
    have hs := hl'.stored.nodes s (by rw [Futures.isExecuted_eq hn, hex]) nd hn (by rw [hk]; simp)
    rcases (hp.stored s nd hn hk hs).1 with ⟨x, hx⟩ | hd
    · exact hset x hx
    · have hzero := (hp.dropped s hd).2
      have hpos := tally_pos (p := Obj.claims s) hmem (by simp [Obj.claims])
      omega

/-! ## The protocol -/

/-- **The cancel action protocol.** In every run in which no promise with a
canceler goes before its future has been retrieved: when the state of such
a promise is destroyed, that is for the first time; its canceler is called
exactly if the last owner went while the promise was there and nothing had
been set; and then nothing has been set since. A state that was abandoned
like that is destroyed. -/
theorem cancel_law (htr : Trace Step Retrieved init es c) (hn : c.nodes s = some nd)
    (hb : nd.body = .promise true) :
    (∀ c', Step c (.destroy s) c' → .destroy s ∉ es ∧
      (Cancels c (.destroy s) s ↔ Abandoned Retrieved es c s) ∧
      (Cancels c (.destroy s) s → ∀ x, .set s x ∉ es)) ∧
    (Abandoned Retrieved es c s → ∃ c', Step c (.destroy s) c') := by
  have hk : nd.body.kind = .promise := by rw [hb]; rfl
  obtain ⟨hl, hp⟩ := Trace.past htr
  have hcancels : Cancels c (.destroy s) s ↔ nd.executed = false := by
    constructor
    · rintro ⟨-, nd', hn', -, hex⟩
      obtain rfl := Option.some.inj (hn.symm.trans hn')
      exact hex
    · exact fun hex => ⟨rfl, nd, hn, hb, hex⟩
  -- what was true when the last owner went is still true
  have hat : ∀ {es₁ e es₂ c₁ c₂}, Trace Step Retrieved init es₁ c₁ → Retrieved c₁ e →
      Step c₁ e c₂ → Trace Step Retrieved c₂ es₂ c → Owned c₁ s → ¬ Owned c₂ s →
      (nd.executed = false ↔
        (∃ b, .handle .promise b s ∈ c₂.objs) ∧ ∀ x, .set s x ∉ es₁ ++ [e]) := by
    intro es₁ e es₂ c₁ c₂ h₁ hok hst h₂ ho₁ ho₂
    have h₁' := h₁.snoc hok hst
    have hlt : s < c₂.fresh := by
      obtain ⟨nd₁, hn₁⟩ := (Trace.past h₁).1.wf.alive s ho₁
      exact ((Trace.past h₁).1.wf.bound s nd₁ hn₁).trans_le hst.fresh_le
    exact hst.last_owner (Trace.past h₁).1 (Trace.past h₁').2 hok ho₁ ho₂
      (Trace.frozen h₂ ho₂ hlt hk hn) hb
  refine ⟨fun c' hst => ⟨fun hmem => ?_, ?_, fun hc x hmem => ?_⟩, ?_⟩
  · rw [(hp.destroyed s hmem).2] at hn
    cases hn
  · have hun := (hst.destroyed rfl).2.1
    obtain ⟨es₁, e, es₂, c₁, c₂, rfl, h₁, hok, hst₁, h₂, ho₁, ho₂⟩ := Trace.release htr hn hk hun
    rw [hcancels]
    constructor
    · intro hex
      obtain ⟨hhandle, hset⟩ := (hat h₁ hok hst₁ h₂ ho₁ ho₂).mp hex
      exact ⟨es₁, e, es₂, c₁, c₂, rfl, h₁, hok, hst₁, h₂, ho₁, ho₂, hhandle, hset⟩
    · rintro ⟨es₁, e, es₂, c₁, c₂, -, h₁, hok, hst₁, h₂, ho₁, ho₂, hgone⟩
      exact (hat h₁ hok hst₁ h₂ ho₁ ho₂).mpr hgone
  · have hempty := hl.storage_eq_empty hp (hst.destroyed rfl).2.1 hn hk (hcancels.mp hc)
    exact (hp.set s x hmem).2 nd hn hempty
  · rintro ⟨es₁, e, es₂, c₁, c₂, -, h₁, -, hst₁, h₂, ho₁, ho₂, -⟩
    obtain ⟨nd₁, hn₁⟩ := (Trace.past h₁).1.wf.alive s ho₁
    have hlt := ((Trace.past h₁).1.wf.bound s nd₁ hn₁).trans_le hst₁.fresh_le
    exact ⟨_, .destroy hn (owned_run h₂.runs hlt ho₂)⟩

/-- The only future of a promise with a canceler goes. -/
theorem cancel_law_of_drop : ∃ (es : List (Event Unit Unit Unit)) (c : Config Unit Unit Unit),
    Trace Step Retrieved init es c ∧ .handle .promise false 0 ∈ c.objs ∧
      (∀ c', Step c (.destroy 0) c' → .destroy 0 ∉ es ∧
        (Cancels c (.destroy 0) 0 ↔ Abandoned Retrieved es c 0) ∧
        (Cancels c (.destroy 0) 0 → ∀ x, .set 0 x ∉ es)) ∧
      (Abandoned Retrieved es c 0 → ∃ c', Step c (.destroy 0) c') := by
  have h₀ : Trace Step Retrieved (init : Config Unit Unit Unit) [] init := .nil _
  have h₁ := h₀.snoc (by rintro _ _ ⟨⟩) (.spawn (.makePromise true) (Multiset.zero_add _).symm)
  have h₂ := h₁.snoc (by rintro _ _ ⟨⟩) (.move (.dropFuture true 0)
    (show _ = _ + ({.handle .promise false 0} : Multiset (Obj Unit)) by decide))
  exact ⟨_, _, h₂, by decide, cancel_law h₂ rfl rfl⟩

/-- A promise with a canceler goes before its future has been retrieved. -/
theorem dropped_run : ∃ c c' : Config Unit Unit Unit,
    Trace Step Unguarded init [.newPromise 0, .drop .promise 0] c ∧ Step c (.destroy 0) c' ∧
      Cancels c (.destroy 0) 0 := by
  have h₀ : Trace Step Unguarded (init : Config Unit Unit Unit) [] init := .nil _
  have h₁ := h₀.snoc trivial (.spawn (.newPromise true) (Multiset.zero_add _).symm)
  have h₂ := h₁.snoc trivial (.move (.dropPromise 0)
    (show _ = _ + (0 : Multiset (Obj Unit)) by decide))
  refine ⟨_, _, h₂, .destroy rfl ?_, rfl, _, rfl, rfl, rfl⟩
  rintro (⟨o, hmem, -⟩ | ⟨m, nd, hm, hin⟩)
  · exact absurd hmem (Multiset.notMem_zero o)
  · obtain ⟨-, rfl⟩ | ⟨-, hm⟩ := setNode_eq hm
    · exact absurd hin (by decide)
    · cases hm

/-- **The canceler is called by a promise that goes first.** -/
theorem cancelled_without_future :
    ¬ ∀ (es : List (Event Unit Unit Unit)) (c c' : Config Unit Unit Unit) (s : ℕ),
      Trace Step Unguarded init es c → Step c (.destroy s) c' →
        (Cancels c (.destroy s) s ↔ Abandoned Unguarded es c s) := by
  intro hall
  obtain ⟨c, c', htr, hst, hc⟩ := dropped_run
  obtain ⟨es₁, e, es₂, c₁, c₂, heq, h₁, -, hst₁, -, howned, -, ⟨b, hmem⟩, -⟩ :=
    (hall _ c c' 0 htr hst).mp hc
  match es₁, heq with
  | [], heq =>
    obtain rfl := h₁.nil_inv
    rcases howned with ⟨o, hmem, -⟩ | ⟨m, nd, hm, -⟩
    · exact absurd hmem (Multiset.notMem_zero o)
    · cases hm
  | [a], heq =>
    obtain rfl : .drop .promise 0 = e := (List.cons.inj (List.cons.inj heq).2).1
    have hzero := ((Trace.past (h₁.snoc trivial hst₁)).2.dropped 0 (by simp)).2
    have hpos := tally_pos (p := Obj.claims 0) hmem (by simp [Obj.claims])
    omega
  | a :: a' :: l, heq => simp at heq

end Futures

end PortableConcurrency
