import PortableConcurrency.Futures.Trees

/-!
# Functions and what they are given

A function of the user is given the ready parent, or its value, and what
it does depends on that. In a session it is therefore noted with what each
function was called; nothing else is added to a run, and no run is left
out. The first events of a run then say of every state who made it and how
it has got its result.
-/

namespace PortableConcurrency

namespace Futures

variable {V E F : Type*} {c c' : Config V E F} {e : Event V E F} {es : List (Event V E F)}
variable {rem add rest : Multiset (Obj F)} {s t n l : ℕ} {nd nd' : Node V E F}
variable {a : Action F} {o : Outcome V E}

/-- No value throws while it is stored by a task. -/
def MovesStored (c : Config V E F) (e : Event V E F) (c' : Config V E F) : Prop :=
  ∀ s r nd nd', e = .ret .task s r → c.nodes s = some nd → nd.storage = .empty →
    c'.nodes s = some nd' → nd'.storage ≠ .empty

/-- A configuration, and with what the functions of continuations were
called. -/
structure Session (V E F : Type*) where
  config : Config V E F
  given : ℕ → Option (F × Outcome V E)

namespace Session

/-- A step, and what the function that it calls is given. -/
inductive Step : Session V E F → Event V E F → Session V E F → Prop
  | invoke {w : Session V E F} {c' : Config V E F} {s l : ℕ} {a : Action F} {o : Outcome V E}
      (hst : Futures.Step w.config (.invoke s a) c') (hr : Resolves w.config a.parent l o) :
      Step w (.invoke s a) ⟨c', Function.update w.given s (some (a.fn, o))⟩
  | other {w : Session V E F} {c' : Config V E F} {e : Event V E F}
      (hst : Futures.Step w.config e c') (hstores : MovesStored w.config e c')
      (he : ∀ s a, e ≠ .invoke s a) : Step w e ⟨c', w.given⟩

/-- Nothing has happened. -/
def init : Session V E F := ⟨Futures.init, fun _ => none⟩

variable {w w' : Session V E F}

/-- It is a step of the configuration. -/
theorem Step.step (hst : Step w e w') : Futures.Step w.config e w'.config := by
  cases hst with
  | invoke hst | other hst => exact hst

theorem Step.stores (hst : Step w e w') : MovesStored w.config e w'.config := by
  cases hst with
  | invoke =>
    rintro s r nd nd' ⟨⟩
  | other _ hstores => exact hstores

end Session

/-- **Every run is that of a session.** -/
theorem Session.of_trace {ok : Config V E F → Event V E F → Prop}
    (hweak : ∀ c e, ok c e → FirstResult c e)
    (htr : Trace (fun c e c' => Futures.Step c e c' ∧ MovesStored c e c') ok Futures.init es c) :
    ∃ given, Trace Session.Step (fun w e => ok w.config e) Session.init es ⟨c, given⟩ := by
  have hinv : (Steady c ∧ Grounded c) ∧
      ∃ given, Trace Session.Step (fun w e => ok w.config e) Session.init es ⟨c, given⟩ := by
    refine htr.invariant (I := fun es c => (Steady c ∧ Grounded c) ∧ ∃ given,
      Trace Session.Step (fun w e => ok w.config e) Session.init es ⟨c, given⟩) ?_
      ⟨⟨steady_init, fun s hex => ?_⟩, _, .nil _⟩
    · rintro es c e c' ⟨⟨hs, hg⟩, given, htr⟩ hok ⟨hst, hstores⟩
      have hfirst := hweak c e hok
      refine ⟨⟨hs.step hfirst hst, hg.step hs hfirst hst⟩, ?_⟩
      by_cases he : ∃ s a, e = .invoke s a
      · obtain ⟨s, a, rfl⟩ := he
        obtain ⟨l, o, hr⟩ := hs.parent_resolves hg (hst.calls (x := .brokenPromise) (.inl rfl))
        exact ⟨_, htr.snoc hok (.invoke hst hr)⟩
      · exact ⟨given, htr.snoc hok (.other hst hstores fun s a heq => he ⟨s, a, heq⟩)⟩
    · simp [Config.isExecuted, Futures.init] at hex
  exact hinv.2

/-! ## What the events say -/

/-- **Who has made a state, and who has settled it.** -/
structure Chronicle (es : List (Event V E F)) (c : Config V E F) : Prop where
  live : Live c
  steady : Steady c
  named : ∀ e n, e ∈ es → e.makes n = true → n < c.fresh
  made : ∀ n nd, c.nodes n = some nd → ∃ e, es.find? (Event.makes n) = some e ∧
    e.kind = some nd.body.kind ∧
      ∀ exec a, nd.body = .cnt exec (some a) → e = .attach n a
  running : ∀ n a, .running n a ∈ c.objs → es.find? (Event.makes n) = some (.attach n a)
  promised : ∀ b n, .handle .promise b n ∈ c.objs → IsSource es n
  settled : ∀ e n, e ∈ es → e.settles n = true → n < c.fresh ∧
    (Owned c n → ∀ nd, c.nodes n = some nd → nd.storage ≠ .empty)
  returned : ∀ n t, .unwrap .cnt n t ∈ es → n < c.fresh ∧
    ∀ nd, c.nodes n = some nd → nd.storage ≠ .empty

theorem chronicle_init : Chronicle [] (init : Config V E F) := by
  refine ⟨live_init, steady_init, by simp, ?_, ?_, ?_, by simp, by simp⟩
  · intro n nd hn
    simp [init] at hn
  · intro n a hmem
    simp [init] at hmem
  · intro b n hmem
    simp [init] at hmem

/-- What makes a state makes a new one. -/
theorem Step.makes_new (hst : Step c e c') (h : e.makes n = true) :
    n = c.fresh ∧ c'.fresh = c.fresh + 1 := by
  cases hst with
  | move hm => cases hm <;> cases h
  | spawn hs => cases hs <;> exact ⟨by simpa [Event.makes, eq_comm] using h, rfl⟩
  | settle hs => cases hs <;> cases h
  | unwrap => cases h
  | touch ht => cases ht <;> cases h
  | execute => cases h
  | destroy => cases h

/-- The first event that names a state says what was made. -/
theorem Spawn.made (hs : Spawn c e rem nd add) : e.makes c.fresh = true ∧
    e.kind = some nd.body.kind ∧
      ∀ exec a, nd.body = .cnt exec (some a) → e = .attach c.fresh a := by
  cases hs with
  | newPromise | makePromise | newTask | whenAll | whenAny =>
    exact ⟨by simp [Event.makes], rfl, by rintro exec a ⟨⟩⟩
  | attach => exact ⟨by simp [Event.makes], rfl, by rintro exec a ⟨⟩; rfl⟩
  | readySequence _ hbody =>
    rcases hbody with rfl | rfl <;> exact ⟨by simp [Event.makes], rfl, by rintro exec a ⟨⟩⟩

/-- Nobody gives a continuation an action. -/
theorem Settle.action {x : Storage V E} {clean : Body F → Body F} {exec : Bool}
    (hs : Settle c e rem s x clean add) {body : Body F} (h : clean body = .cnt exec (some a)) :
    ∃ exec, body = .cnt exec (some a) := by
  cases hs with
  | abandon => exact ⟨exec, Body.clean_action h⟩
  | _ => exact ⟨exec, h⟩

/-- What was made is found in the events. -/
theorem Chronicle.made_step (h : Chronicle es c) (hst : Step c e c') (n : ℕ) (nd' : Node V E F)
    (hn' : c'.nodes n = some nd') : ∃ x, (es ++ [e]).find? (Event.makes n) = some x ∧
      x.kind = some nd'.body.kind ∧ ∀ exec a, nd'.body = .cnt exec (some a) → x = .attach n a := by
  have hold : ∀ {nd : Node V E F}, c.nodes n = some nd → nd'.body.kind = nd.body.kind →
      (∀ exec a, nd'.body = .cnt exec (some a) → ∃ exec, nd.body = .cnt exec (some a)) →
      ∃ x, (es ++ [e]).find? (Event.makes n) = some x ∧ x.kind = some nd'.body.kind ∧
        ∀ exec a, nd'.body = .cnt exec (some a) → x = .attach n a := by
    intro nd hn hk hact
    obtain ⟨x, hf, hkind, hx⟩ := h.made n nd hn
    refine ⟨x, find?_mono hf [e], hk ▸ hkind, fun exec a hb => ?_⟩
    obtain ⟨exec', hb⟩ := hact exec a hb
    exact hx exec' a hb
  cases hst.node hn' with
  | same hn => exact hold hn rfl fun exec a hb => ⟨exec, hb⟩
  | spawn hf hs =>
    subst hf
    obtain ⟨hmakes, hk, hact⟩ := hs.made
    refine ⟨e, find?_last (fun x hx => ?_) hmakes, hk, hact⟩
    by_contra hne
    have := h.named x c.fresh hx (by simpa using hne)
    omega
  | settle hn _ hs => exact hold hn (hs.kind _) fun exec a hb => hs.action hb
  | unwrap hn | execute hn => exact hold hn rfl fun exec a hb => ⟨exec, hb⟩
  | touch hn ht => exact hold hn ht.kind fun exec a hb => ht.action hb

/-- **Who settles a state leaves it with a result**, if anybody can still
see it. -/
theorem Step.settles (hst : Step c e c') (h : Live c) (hstores : MovesStored c e c')
    (he : e.settles n = true) : n < c.fresh ∧
      (Owned c' n → ∀ nd', c'.nodes n = some nd' → nd'.storage ≠ .empty) := by
  have hlt : ∀ {rem rest : Multiset (Obj F)} {o : Obj F}, c.objs = rem + rest → o ∈ rem →
      n ∈ o.names → n < c.fresh := fun ho hmem hn => h.wf.names _ (mem_of_rem ho hmem) n hn
  cases hst with
  | move hm ho =>
    cases hm with
    | dropPromise s =>
      obtain rfl : s = n := by simpa [Event.settles] using he
      refine ⟨hlt ho (Multiset.mem_singleton_self _) (by simp [Obj.names]), ?_⟩
      intro howned nd hn hs
      -- who has not given a future away is the only owner
      have hmem : .handle .promise true s ∈ c.objs := by simp [ho]
      obtain ⟨hrefs, hnodes⟩ := h.unissued s nd hn hs hmem
      rcases howned with ⟨o, hrest, href⟩ | ⟨m, ndm, hm, href⟩
      · rw [Multiset.zero_add] at hrest
        have hsole := h.claimed.sole.other ho (Multiset.mem_singleton_self _)
          (by simp [Obj.claims]) hrest (s := s)
        rw [hrefs o (mem_of_rest ho hrest) href] at hsole
        simp [Obj.claims] at hsole
      · exact hnodes m ndm hm href
    | dropExpired g s hexp =>
      have heq : s = n := by
        cases g with
        | promise | task => simpa [Event.settles] using he
        | action => simp [Event.settles] at he
      subst heq
      refine ⟨hlt ho (Multiset.mem_singleton_self _) (by simp [Obj.names]), ?_⟩
      rintro (⟨o, hrest, href⟩ | howned)
      · rw [Multiset.zero_add] at hrest
        exact absurd (owned_of_rest ho hrest href) hexp
      · exact absurd (.inr howned) hexp
    | retThrows s r nd hn =>
      obtain rfl : s = n := by simpa [Event.settles] using he
      refine ⟨hlt ho (Multiset.mem_singleton_self _) (by simp [Obj.names]), ?_⟩
      intro _ nd' hn' hs
      exact hstores s r nd' nd' rfl hn' hs hn' hs
    | _ => simp [Event.settles] at he
  | spawn hs => cases hs <;> simp [Event.settles] at he
  | @settle _ rem add rest s x clean nd hs ho hn =>
    have hne := hs.storage_ne
    have hsn : s = n := by
      cases hs with
      | setValue | setException => simpa [Event.settles] using he
      | abandon g =>
        cases g with
        | promise | task => simpa [Event.settles] using he
        | action => simp [Event.settles] at he
      | passError => simp [Event.settles] at he
      | ret g =>
        cases g with
        | task => simpa [Event.settles] using he
        | cnt => simp [Event.settles] at he
    subst hsn
    refine ⟨h.wf.bound s nd hn, fun _ nd' hn' => ?_⟩
    simp only [Config.setNode, Function.update_self, Option.some.injEq] at hn'
    rw [← hn']
    exact hne
  | @unwrap g s t u rest nd ho hn =>
    have hsn : s = n := by
      cases g with
      | task => simpa [Event.settles] using he
      | cnt => simp [Event.settles] at he
    subst hsn
    refine ⟨h.wf.bound s nd hn, fun _ nd' hn' => ?_⟩
    simp only [Config.setNode, Function.update_self, Option.some.injEq] at hn'
    rw [← hn']
    simp
  | @touch _ rem add rest s nd body ht ho hn =>
    cases ht with
    | abandon g b s _ hlock hweak hdone =>
      have hsn : s = n := by
        cases g with
        | promise | task => simpa [Event.settles] using he
        | action => simp [Event.settles] at he
      subst hsn
      refine ⟨h.wf.bound s nd hn, fun _ nd' hn' => ?_⟩
      simp only [Config.setNode, Function.update_self, Option.some.injEq] at hn'
      rw [← hn']
      rcases hdone with hex | ⟨t, ht⟩
      · have hex : c.isExecuted s = true := by rw [Futures.isExecuted_eq hn, hex]
        refine h.stored.nodes s hex nd hn fun hk => ?_
        have hkinded := h.lists.kinded _ (mem_of_rem ho (Multiset.mem_singleton_self _))
        cases g with
        | promise => rcases hkinded nd hn with hk' | hk' <;> rw [hk] at hk' <;> cases hk'
        | task =>
          have hk' := hkinded nd hn
          rw [hk] at hk'
          cases hk'
        | action =>
          have hk' := hkinded.2 nd hn
          rw [hk] at hk'
          cases hk'
      · simp [ht]
    | _ => simp [Event.settles] at he
  | execute => simp [Event.settles] at he
  | destroy => simp [Event.settles] at he

/-- A state that was settled has a result as long as it has an owner. -/
theorem Chronicle.settled_step (h : Chronicle es c) (hst : Step c e c')
    (hstores : MovesStored c e c') (x : Event V E F) (n : ℕ) (hmem : x ∈ es ++ [e])
    (hx : x.settles n = true) :
    n < c'.fresh ∧ (Owned c' n → ∀ nd, c'.nodes n = some nd → nd.storage ≠ .empty) := by
  rcases List.mem_append.mp hmem with hmem | hmem
  · obtain ⟨hlt, hset⟩ := h.settled x n hmem hx
    refine ⟨hlt.trans_le hst.fresh_le, fun howned nd' hn' => ?_⟩
    obtain ⟨nd, hn⟩ := hst.old hlt hn'
    rcases hst.owned howned with hold | ⟨rfl, -⟩
    · exact hst.stored h.live.wf hn hn' (hset hold nd hn)
    · omega
  · obtain rfl := List.mem_singleton.mp hmem
    obtain ⟨hlt, hset⟩ := hst.settles h.live hstores hx
    exact ⟨hlt.trans_le hst.fresh_le, hset⟩

theorem Chronicle.returned_step (h : Chronicle es c) (hst : Step c e c') (n t : ℕ)
    (hmem : .unwrap .cnt n t ∈ es ++ [e]) :
    n < c'.fresh ∧ ∀ nd, c'.nodes n = some nd → nd.storage ≠ .empty := by
  rcases List.mem_append.mp hmem with hmem | hmem
  · obtain ⟨hlt, hset⟩ := h.returned n t hmem
    refine ⟨hlt.trans_le hst.fresh_le, fun nd' hn' => ?_⟩
    obtain ⟨nd, hn⟩ := hst.old hlt hn'
    exact hst.stored h.live.wf hn hn' (hset nd hn)
  · obtain rfl := List.mem_singleton.mp hmem
    obtain ⟨u, rest, nd, -, hn, rfl⟩ := hst.unwrap_inv
    refine ⟨h.live.wf.bound n _ hn, fun nd' hn' => ?_⟩
    simp only [Config.setNode, Function.update_self, Option.some.injEq] at hn'
    rw [← hn']
    simp

/-- **The step lemma.** -/
theorem Chronicle.step (h : Chronicle es c) (hfirst : FirstResult c e) (hst : Step c e c')
    (hstores : MovesStored c e c') : Chronicle (es ++ [e]) c' := by
  have hle := hst.fresh_le
  refine ⟨h.live.step hst, h.steady.step hfirst hst, fun x n hmem hx => ?_, h.made_step hst,
    fun n a hmem => ?_, fun b n hmem => ?_, h.settled_step hst hstores, h.returned_step hst⟩
  · rcases List.mem_append.mp hmem with hmem | hmem
    · have := h.named x n hmem hx
      omega
    · obtain rfl := List.mem_singleton.mp hmem
      obtain ⟨rfl, hfresh⟩ := hst.makes_new hx
      omega
  · rcases hst.had_running hmem with hold | ⟨nd, exec, hn, hb⟩
    · exact find?_mono (h.running n a hold) [e]
    · obtain ⟨x, hf, -, hx⟩ := h.made n nd hn
      rw [hx exec a hb] at hf
      exact find?_mono hf [e]
  · rcases hst.had_promise hmem with ⟨b, hold⟩ | ⟨rfl, rfl⟩ | ⟨a, hrun, hk⟩
    · exact (h.promised b n hold).mono [e]
    · refine ⟨.newPromise c.fresh, find?_last (fun x hx => ?_) (by simp [Event.makes]), rfl⟩
      by_contra hne
      have := h.named x c.fresh hx (by simpa using hne)
      omega
    · exact ⟨_, find?_mono (h.running n a hrun) [e], by simp [Event.isSource, hk]⟩

/-- **The first to settle a state** is the one that finds it empty. -/
theorem Chronicle.first_settles (h : Chronicle es c) (he : e.settles n = true)
    (howned : Owned c n) (hn : c.nodes n = some nd) (hs : nd.storage = .empty) :
    (es ++ [e]).find? (Event.settles n) = some e := by
  refine find?_last (fun x hx => ?_) he
  by_contra hne
  exact (h.settled x n hx (by simpa using hne)).2 howned nd hn hs

/-- What a function returns to an empty state is the first that it returns. -/
theorem Chronicle.first_returns (h : Chronicle es c) (hn : c.nodes n = some nd)
    (hs : nd.storage = .empty) : (es ++ [Event.unwrap .cnt n t]).find? (Event.returns n) =
      some (.unwrap .cnt n t) := by
  refine find?_last (fun x hx => ?_) (by simp [Event.returns])
  by_contra hne
  cases x with
  | unwrap g m k =>
    cases g with
    | task => simp [Event.returns] at hne
    | cnt =>
      obtain rfl : m = n := by simpa [Event.returns] using hne
      exact (h.returned m k hx).2 nd hn hs
  | _ => simp [Event.returns] at hne

end Futures

end PortableConcurrency
