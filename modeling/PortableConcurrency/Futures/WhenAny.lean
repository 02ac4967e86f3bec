import PortableConcurrency.Futures.Closing

/-!
# `when_any`

The first notification sets the flag, stores its position and closes the
list; all others find the flag set. A `when_any_state` has no count that
`make` holds up, so it may be ready while its loop still runs.
-/

namespace PortableConcurrency

namespace Futures

variable {V E F : Type*} {c c' : Config V E F} {e : Event V E F}
variable {rem add rest : Multiset (Obj F)} {s t n w i k : ℕ} {o : Obj F}
variable {nd nd' : Node V E F} {l L : List Input} {b x : Bool} {f : Input}

/-! ## The flag and the index -/

/-- What the flag and the index of `w` are, and who closes its list. -/
structure Chosen (c : Config V E F) (w : ℕ) (L : List Input) (executed flag : Bool)
    (index : ℕ) : Prop where
  unset : flag = false → index = npos
  set : flag = true → ∃ f, L[index]? = some f ∧ Closed c f.2
  once : tally (Obj.executes w) c.objs + (if executed then 1 else 0) =
    if flag = true ∨ (L = [] ∧ tally (Obj.makes w) c.objs = 0) then 1 else 0

theorem Chosen.keep (h : Chosen c w L x b k) (hle : ∀ f ∈ L, c.Le c' f.2)
    (hexec : tally (Obj.executes w) c'.objs = tally (Obj.executes w) c.objs)
    (hmakes : tally (Obj.makes w) c'.objs = tally (Obj.makes w) c.objs) : Chosen c' w L x b k := by
  refine ⟨h.unset, fun hb => ?_, by rw [hexec, hmakes, h.once]⟩
  obtain ⟨f, hf, hclosed⟩ := h.set hb
  exact ⟨f, hf, hclosed.mono (hle f (List.mem_of_getElem? hf))⟩

/-- **A notification**: the first one decides. -/
theorem Chosen.notify (h : Chosen c w L x b k) (hle : ∀ f ∈ L, c.Le c' f.2)
    (hi : L[i]? = some f) (hclosed : Closed c f.2)
    (hexec : tally (Obj.executes w) c'.objs = tally (Obj.executes w) c.objs +
      if ((Body.whenAny l b k : Body F).notify i).2 then 1 else 0)
    (hmakes : tally (Obj.makes w) c'.objs = tally (Obj.makes w) c.objs) :
    ∃ b' k', ((Body.whenAny l b k : Body F).notify i).1 = .whenAny l b' k' ∧
      Chosen c' w L x b' k' := by
  cases b with
  | true => exact ⟨true, k, rfl, h.keep hle (by simpa [Body.notify] using hexec) hmakes⟩
  | false =>
    refine ⟨true, i, rfl, by simp, fun _ => ⟨f, hi, ?_⟩, ?_⟩
    · exact hclosed.mono (hle f (List.mem_of_getElem? hi))
    · have hne : L ≠ [] := List.ne_nil_of_mem (List.mem_of_getElem? hi)
      have honce := h.once
      simp only [hne, false_and, or_false, if_neg Bool.false_ne_true] at honce
      simp only [Body.notify, if_true] at hexec
      simp
      omega

/-- What the closures of `w` are about. -/
def About (w : ℕ) (L : List Input) (t v i : ℕ) : Prop := v = w → ∃ u, L[i]? = some (u, t)

/-- **A `when_any_state` whose loop was given `L`.** -/
structure AnyOf (c : Config V E F) (w : ℕ) (L : List Input) : Prop extends Kept c w L where
  about : ∀ o ∈ c.objs, o.Combines (About w L) (About w L)
  making : ∀ i nd, .making w i ∈ c.objs → c.nodes w = some nd → nd.body.futures = L
  body : ∀ nd, c.nodes w = some nd → ∃ l flag index, nd.body = .whenAny l flag index ∧
    Chosen c w L nd.executed flag index
  /-- while the flag is not set, every input is still to be heard of -/
  waiting : ∀ nd l index i f, c.nodes w = some nd → nd.body = .whenAny l false index →
    L[i]? = some f → (∃ j ≤ i, .making w j ∈ c.objs) ∨ .linked f.2 (.combine w i) ∈ c.objs ∨
      .queued f.2 (.combine w i) ∈ c.objs

theorem Private.unique (hp : Private c) {j : ℕ} (hi : .making w i ∈ c.objs)
    (hj : .making w j ∈ c.objs) : i = j := by
  by_contra hne
  obtain ⟨m, hm⟩ := Multiset.exists_cons_of_mem hi
  rw [hm] at hj
  have hj : .making w j ∈ m := by
    refine (Multiset.mem_cons.mp hj).resolve_left fun h => hne ?_
    simpa using h.symm
  have hsole := hp.sole w
  have hpos := tally_pos hj (p := Obj.makes w) (by simp [Obj.makes])
  rw [hm, tally_cons] at hsole
  simp [Obj.makes] at hsole
  omega

/-- A loop that runs ran before the step. -/
theorem Step.was_making (hst : Step c e c') (hw : w ≠ c.fresh) (hmem : .making w i ∈ c'.objs) :
    ∃ j, .making w j ∈ c.objs := by
  have hpos := tally_pos hmem (p := Obj.makes w) (by simp [Obj.makes])
  obtain ⟨heq, hfin⟩ := hst.makes hw
  have hpos' : 0 < tally (Obj.makes w) c.objs := by
    by_cases he : e = .finish w
    · have := hfin he
      omega
    · rwa [← heq he]
  obtain ⟨o, ho, hmakes⟩ := exists_of_tally_pos hpos'
  obtain ⟨j, rfl⟩ := Obj.eq_of_makes hmakes
  exact ⟨j, ho⟩

/-- The flag is not set, so the sequence is there. -/
theorem AnyOf.open_of_unset (ha : AnyOf c w L) (hn : c.nodes w = some nd)
    (hb : nd.body = .whenAny l false k) (hne : L ≠ []) :
    nd.executed = false ∧ nd.body.futures = L := by
  obtain ⟨l', b', k', hb', hch⟩ := ha.body nd hn
  rw [hb] at hb'
  cases hb'
  have honce := hch.once
  have hex : nd.executed = false := by
    by_contra hex
    have hex : nd.executed = true := by simpa using hex
    simp [hex, hne] at honce
  refine ⟨hex, (ha.futures nd hn).resolve_right fun hm => ?_⟩
  rw [hex] at hm
  cases hm.2

theorem AnyOf.body_step (ha : AnyOf c w L) (h : Assembled c) (hst : Step c e c')
    (hn : c.nodes w = some nd) (hn' : c'.nodes w = some nd') :
    ∃ l flag index, nd'.body = .whenAny l flag index ∧ Chosen c' w L nd'.executed flag index := by
  have hle : ∀ f ∈ L, c.Le c' f.2 := fun f hf => hst.le h.wf (ha.bound f hf)
  obtain ⟨l, b, k, hb, hch⟩ := ha.body nd hn
  cases hst.combinator h.toInv hn hn' (by rw [hb]; rfl) with
  | same hexec hmakes => exact ⟨l, b, k, hb, hch.keep hle hexec hmakes⟩
  | notify t pos hmem hexec hmakes =>
    rw [hb] at hexec ⊢
    obtain ⟨u, hu⟩ := ha.about _ hmem rfl
    have hclosed : Closed c t := (h.lists.kinded _ hmem).2
    obtain ⟨b', k', hb', hch'⟩ := hch.notify hle hu hclosed hexec hmakes
    exact ⟨l, b', k', hb', hch'⟩
  | register i f hmem hi hready hexec hmakes =>
    rw [ha.making i nd hmem hn] at hi
    rw [hb] at hexec ⊢
    have hclosed : Closed c f.2 := fun ndf hnf => by rwa [isExecuted_eq hnf] at hready
    obtain ⟨b', k', hb', hch'⟩ := hch.notify hle hi hclosed hexec hmakes
    exact ⟨l, b', k', hb', hch'⟩
  | finish i hmem hi hexec hmakes =>
    have hfut := ha.making i nd hmem hn
    rw [hb] at hexec hfut ⊢
    obtain rfl : l = L := hfut
    refine ⟨l, b, k, rfl, hch.unset, fun hset => ?_, ?_⟩
    · obtain ⟨f, hf, hclosed⟩ := hch.set hset
      exact ⟨f, hf, hclosed.mono (hle f (List.mem_of_getElem? hf))⟩
    · have honce := hch.once
      have hsole := h.hidden.sole w
      have hnone : tally (Obj.makes w) c'.objs = 0 := by omega
      have hsome : tally (Obj.makes w) c.objs = 1 := by omega
      rw [hexec, hnone]
      rw [hsome] at honce
      cases l with
      | nil =>
        -- without an input nobody sets the flag
        have hunset : b = false := by
          by_contra hset
          obtain ⟨f, hf, -⟩ := hch.set (by simpa using hset)
          simp at hf
        subst hunset
        simp at honce
        simp [Body.finish, honce]
      | cons f l => simpa [Body.finish] using honce
  | take m hr hexec hmakes =>
    rw [hb]
    exact ⟨[], b, k, rfl, hch.keep hle hexec hmakes⟩
  | execute he hmem hexec hmakes =>
    refine ⟨l, b, k, hb, hch.unset, fun hset => ?_, ?_⟩
    · obtain ⟨f, hf, hclosed⟩ := hch.set hset
      exact ⟨f, hf, hclosed.mono (hle f (List.mem_of_getElem? hf))⟩
    · have honce := hch.once
      rw [hmakes]
      have hone : (if b = true ∨ (L = [] ∧ tally (Obj.makes w) c.objs = 0) then 1 else 0) ≤ 1 := by
        split <;> omega
      simp
      omega

theorem AnyOf.waiting_step (ha : AnyOf c w L) (h : Assembled c) (hst : Step c e c')
    (hn : c.nodes w = some nd) (hn' : c'.nodes w = some nd')
    (hb' : nd'.body = .whenAny l false k) (hi : L[i]? = some f) :
    (∃ j ≤ i, .making w j ∈ c'.objs) ∨ .linked f.2 (.combine w i) ∈ c'.objs ∨
      .queued f.2 (.combine w i) ∈ c'.objs := by
  have hne : L ≠ [] := List.ne_nil_of_mem (List.mem_of_getElem? hi)
  -- a notification would have set the flag
  have hnotify : ∀ (nd₁ : Node V E F) pos, c.nodes w = some nd₁ →
      c'.nodes w = some { nd₁ with body := (nd₁.body.notify pos).1 } → False := by
    intro nd₁ pos hn₁ hn₁'
    obtain rfl := Option.some.inj (hn.symm.trans hn₁)
    obtain rfl := Option.some.inj (hn'.symm.trans hn₁')
    obtain ⟨l₁, b₁, k₁, hb, -⟩ := ha.body nd hn
    rw [hb] at hb'
    cases b₁ <;> cases hb'
  obtain ⟨l₀, k₀, hb⟩ : ∃ l k, nd.body = .whenAny l false k := by
    obtain ⟨l₁, b₁, k₁, hb, -⟩ := ha.body nd hn
    cases b₁ with
    | false => exact ⟨l₁, k₁, hb⟩
    | true =>
      cases hst.combinator h.toInv hn hn' (by rw [hb]; rfl) <;> rw [hb] at hb' <;> cases hb'
  obtain ⟨-, hfut⟩ := ha.open_of_unset hn hb hne
  have hf : f ∈ nd.body.futures := by rw [hfut]; exact List.mem_of_getElem? hi
  rcases ha.waiting nd l₀ k₀ i f hn hb hi with ⟨j, hj, hmem⟩ | hmem | hmem
  · cases hst.making hmem with
    | same hmem => exact .inl ⟨j, hj, hmem⟩
    | pending f' nd₁ hn₁ hi' hmem hlinked =>
      obtain rfl := Option.some.inj (hn.symm.trans hn₁)
      rw [hfut] at hi'
      by_cases hij : j = i
      · subst hij
        obtain rfl := Option.some.inj (hi.symm.trans hi')
        exact .inr (.inl hlinked)
      · exact .inl ⟨j + 1, by omega, hmem⟩
    | ready f' nd₁ hn₁ hi' hmem hex hn₁' => exact (hnotify nd₁ j hn₁ hn₁').elim
    | finish nd₁ hn₁ hlen =>
      obtain rfl := Option.some.inj (hn.symm.trans hn₁)
      rw [hfut] at hlen
      have := (List.getElem?_eq_some_iff.mp hi).1
      omega
  · rcases hst.linked hmem with hmem | ⟨-, hmem, -⟩ | ⟨-, hun⟩
    · exact .inr (.inl hmem)
    · exact .inr (.inr hmem)
    · exact absurd (owned_of_futures hn hf) hun
  · rcases hst.queued hmem with hmem | ⟨nd₁, hn₁, hn₁'⟩
    · exact .inr (.inr hmem)
    · exact (hnotify nd₁ i hn₁ hn₁').elim

theorem AnyOf.step (ha : AnyOf c w L) (h : Assembled c) (hst : Step c e c')
    (hn : c.nodes w = some nd) : AnyOf c' w L := by
  have hw : w ≠ c.fresh := (h.wf.bound w nd hn).ne
  refine ⟨ha.toKept.step h.wf hst hn, ?_, fun i nd' hmem hn' => ?_,
    fun nd' hn' => ha.body_step h hst hn hn',
    fun nd' l k i f hn' hb' hi => ha.waiting_step h hst hn hn' hb' hi⟩
  · refine hst.combines ha.about (fun v i ndv f hnv hi hv => ?_) fun _ _ _ _ hq => hq
    subst hv
    -- the loop registers what it was given
    rcases ha.futures ndv hnv with hfut | ⟨hnil, -⟩
    · rw [hfut] at hi
      exact ⟨f.1, hi⟩
    · rw [hnil] at hi
      simp at hi
  · obtain ⟨j, hj⟩ := hst.was_making hw hmem
    rw [h.hidden.futures h.wf hst hj hn hn']
    exact ha.making j nd hj hn

/-- A `when_any_state` stays one, and keeps an index that was chosen. -/
theorem Step.whenAny (h : Inv c) (hst : Step c e c') (hn : c.nodes w = some nd)
    (hn' : c'.nodes w = some nd') (hb : nd.body = .whenAny l true k) :
    ∃ l', nd'.body = .whenAny l' true k := by
  cases hst.combinator h hn hn' (by rw [hb]; rfl) with
  | same | execute => exact ⟨l, hb⟩
  | notify | register => exact ⟨l, by simp [hb, Body.notify]⟩
  | finish => exact ⟨l, by simp [hb, Body.finish]⟩
  | take => exact ⟨[], by simp [hb, Body.moveFutures]⟩

theorem whenAny_run {ok : Config V E F → Event V E F → Prop} (hrun : Runs Step ok c c')
    (h : Inv c) (hn : c.nodes w = some nd) (hn' : c'.nodes w = some nd')
    (hb : nd.body = .whenAny l true k) : ∃ l', nd'.body = .whenAny l' true k := by
  have hkeep : ∀ nd', c'.nodes w = some nd' → ∃ l', nd'.body = .whenAny l' true k := by
    refine runs_keep (I := Inv) (P := fun c => ∀ nd, c.nodes w = some nd →
      ∃ l', nd.body = .whenAny l' true k) (fun _ _ _ hi _ hst => hi.step hst) ?_ hrun h
      (h.wf.bound w nd hn) hn' ?_
    · intro c e c' nd₁ nd₂ hi _ hst hn₁ _ hp nd' hn'
      obtain ⟨l₁, hb₁⟩ := hp nd₁ hn₁
      exact hst.whenAny hi hn₁ hn' hb₁
    · intro nd₁ hn₁
      obtain rfl := Option.some.inj (hn.symm.trans hn₁)
      exact ⟨l, hb⟩
  exact hkeep nd' hn'

/-! ## Inputs that are ready on entry -/

/-- No input becomes ready. -/
def Undisturbed (L : List Input) (_ : Config V E F) (e : Event V E F) : Prop :=
  ∀ f ∈ L, e ≠ .execute f.2

/-- The first input that is ready is at `i`. -/
def FirstReady (c : Config V E F) (L : List Input) (i : ℕ) : Prop :=
  (∃ f, L[i]? = some f ∧ c.isExecuted f.2 = true) ∧
    ∀ j < i, ∀ f, L[j]? = some f → c.isExecuted f.2 = false

/-- **How far the loop has come**, of an undisturbed `make` that was
entered in `c₀`. -/
structure Scan (c₀ c : Config V E F) (w : ℕ) (L : List Input) : Prop where
  unnotified : ∀ o ∈ c.objs, o.Combines (About w L) fun _ v _ => v ≠ w
  alike : ∀ i f, .making w i ∈ c.objs → f ∈ L → c.isExecuted f.2 = c₀.isExecuted f.2
  passed : ∀ nd l k i f, c.nodes w = some nd → nd.body = .whenAny l false k → L[i]? = some f →
    (∀ j, .making w j ∈ c.objs → i < j) → c₀.isExecuted f.2 = false
  first : ∀ nd l k, c.nodes w = some nd → nd.body = .whenAny l true k → FirstReady c₀ L k

variable {c₀ c₁ : Config V E F}

/-- Whoever is not made ready stays as it is. -/
theorem Step.isExecuted_eq (h : Wf c) (hst : Step c e c') (hne : e ≠ .execute n)
    (hn : c.nodes n = some nd) (hn' : c'.nodes n = some nd') :
    c'.isExecuted n = c.isExecuted n := by
  rw [Futures.isExecuted_eq hn, Futures.isExecuted_eq hn']
  cases hst.node hn' with
  | same hm | settle hm | unwrap hm | touch hm => rw [Option.some.inj (hn.symm.trans hm)]
  | spawn hf =>
    subst hf
    exact absurd (h.bound _ _ hn) (lt_irrefl _)
  | execute _ he => exact absurd he hne

theorem Scan.step (hs : Scan c₀ c w L) (ha : AnyOf c w L) (h : Assembled c)
    (hok : Undisturbed L c e) (hst : Step c e c') (hn : c.nodes w = some nd)
    (hn' : c'.nodes w = some nd') : Scan c₀ c' w L := by
  have hw : w ≠ c.fresh := (h.wf.bound w nd hn).ne
  have ha' : AnyOf c' w L := ha.step h hst hn
  obtain ⟨l₁, b₁, k₁, hb₁, -⟩ := ha.body nd hn
  have hcomb : nd.body.kind = .combinator := by rw [hb₁]; rfl
  refine ⟨?_, fun i f hmem hf => ?_, fun nd₂ l k i f hn₂ hb' hi hpast => ?_,
    fun nd₂ l k hn₂ hb' => ?_⟩
  · refine hst.combines hs.unnotified (fun v i ndv f hnv hi hv => ?_) fun t v i he hq hv => ?_
    · subst hv
      rcases ha.futures ndv hnv with hfut | ⟨hnil, -⟩
      · rw [hfut] at hi
        exact ⟨f.1, hi⟩
      · rw [hnil] at hi
        simp at hi
    · -- the list of an input would be closed
      obtain ⟨u, hu⟩ := hq hv
      exact hok _ (List.mem_of_getElem? hu) he
  · obtain ⟨j, hj⟩ := hst.was_making hw hmem
    have hfut := ha.making j nd hj hn
    have hfut' := ha'.making i nd' hmem hn'
    obtain ⟨ndf, hnf⟩ := h.wf.alive f.2 (owned_of_futures hn (by rwa [hfut]))
    obtain ⟨ndf', hnf'⟩ := (h.wf.step hst).alive f.2 (owned_of_futures hn' (by rwa [hfut']))
    rw [hst.isExecuted_eq h.wf (hok f hf) hnf hnf', hs.alike j f hj hf]
  · obtain rfl := Option.some.inj (hn'.symm.trans hn₂)
    have hlen := (List.getElem?_eq_some_iff.mp hi).1
    have hnotify : ∀ (nd₁ : Node V E F) pos, c.nodes w = some nd₁ →
        c'.nodes w = some { nd₁ with body := (nd₁.body.notify pos).1 } → False := by
      intro nd₁ pos hn₁ hn₁'
      obtain rfl := Option.some.inj (hn.symm.trans hn₁)
      obtain rfl := Option.some.inj (hn'.symm.trans hn₁')
      rw [hb₁] at hb'
      cases b₁ <;> cases hb'
    have hunset : b₁ = false := by
      by_contra hset
      have hset : b₁ = true := by simpa using hset
      subst hset
      obtain ⟨l', hb⟩ := hst.whenAny h.toInv hn hn' hb₁
      rw [hb'] at hb
      cases hb
    subst hunset
    by_cases hall : ∀ j, .making w j ∈ c.objs → i < j
    · exact hs.passed nd l₁ k₁ i f hn hb₁ hi hall
    · -- the loop was at `i`, and has gone on
      simp only [not_forall, not_lt] at hall
      obtain ⟨j, hj, hle⟩ := hall
      have hfut := ha.making j nd hj hn
      cases hst.making hj with
      | same hmem =>
        have := hpast j hmem
        omega
      | pending f' nd₁ hn₁ hi' hmem _ hpend =>
        obtain rfl := Option.some.inj (hn.symm.trans hn₁)
        obtain rfl : i = j := by
          have := hpast _ hmem
          omega
        rw [hfut] at hi'
        obtain rfl := Option.some.inj (hi.symm.trans hi')
        rw [← hs.alike i f hj (List.mem_of_getElem? hi), hpend]
      | ready f' nd₁ hn₁ hi' hmem hready hn₁' => exact (hnotify nd₁ j hn₁ hn₁').elim
      | finish nd₁ hn₁ hend =>
        obtain rfl := Option.some.inj (hn.symm.trans hn₁)
        rw [hfut] at hend
        omega
  · obtain rfl := Option.some.inj (hn'.symm.trans hn₂)
    cases b₁ with
    | true =>
      obtain ⟨l', hb⟩ := hst.whenAny h.toInv hn hn' hb₁
      rw [hb'] at hb
      cases hb
      exact hs.first nd l₁ k₁ hn hb₁
    | false =>
      cases hst.combinator h.toInv hn hn' hcomb with
      | same =>
        rw [hb₁] at hb'
        cases hb'
      | notify t pos hmem => exact absurd rfl (hs.unnotified _ hmem)
      | register i f hmem hi hready =>
        rw [hb₁] at hb'
        cases hb'
        rw [ha.making k nd hmem hn] at hi
        refine ⟨⟨f, hi, ?_⟩, fun j hj g hg => ?_⟩
        · rw [← hs.alike k f hmem (List.mem_of_getElem? hi), hready]
        · refine hs.passed nd l₁ k₁ j g hn hb₁ hg fun i' hi' => ?_
          rwa [← h.hidden.unique hmem hi']
      | finish =>
        rw [hb₁] at hb'
        cases hb'
      | take =>
        rw [hb₁] at hb'
        cases hb'
      | execute =>
        have hb'' : nd.body = .whenAny l true k := hb'
        rw [hb₁] at hb''
        cases hb''

/-! ## The law -/

/-- **What holds of `when_any` of `L`**, entered in `c₀`, once `make` has
allocated its state `w` in `c₁`. -/
structure WhenAnyLaw (c₀ c₁ c : Config V E F) (w : ℕ) (L : List Input) (nd : Node V E F)
    (l : List Input) (flag : Bool) (index : ℕ) : Prop where
  /-- the inputs in their order, until they are taken from the ready state -/
  sequence : l = L ∨ (l = [] ∧ nd.executed = true)
  /-- the list is closed once, after an input is ready -/
  once : ∀ c', Step c (.execute w) c' → nd.executed = false ∧
    (L ≠ [] → ∃ f, L[index]? = some f ∧ Closed c f.2)
  /-- the index is that of a ready input -/
  index_ready : L ≠ [] → nd.executed = true → ∃ f, L[index]? = some f ∧ Closed c f.2 ∧
    (l = L → c.isExecuted f.2 = true)
  /-- and never changes -/
  stays : flag = true → ∀ c' nd', Runs Step Unguarded c c' → c'.nodes w = some nd' →
    ∃ l', nd'.body = .whenAny l' true index
  chosen : L ≠ [] → nd.executed = true → flag = true
  /-- once `make` has come past an input and its notification has run, the
  list is closed or about to be -/
  not_after : ∀ i f, L[i]? = some f → (∀ j ≤ i, .making w j ∉ c.objs) →
    .linked f.2 (.combine w i) ∉ c.objs → .queued f.2 (.combine w i) ∉ c.objs →
    nd.executed = true ∨ .execute w ∈ c.objs
  idle : Idle c → (nd.executed = true ↔ L = [] ∨ ∃ f ∈ L, Closed c f.2)
  /-- when nothing becomes ready during `make`, the first ready input is
  chosen -/
  first : ∀ c₂ i, Runs Step (Undisturbed L) c₁ c₂ → (∀ j, .making w j ∉ c₂.objs) →
    Runs Step Unguarded c₂ c → FirstReady c₀ L i → flag = true ∧ index = i
  empty : L = [] → index = npos ∧ ((∀ j, .making w j ∉ c.objs) →
    nd.executed = true ∨ .execute w ∈ c.objs)

/-- Whoever closes the list does so once. -/
theorem AnyOf.closes (ha : AnyOf c w L) (hn : c.nodes w = some nd)
    (hb : nd.body = .whenAny l b k) :
    Chosen c w L nd.executed b k := by
  obtain ⟨l', b', k', hb', hch⟩ := ha.body nd hn
  rw [hb] at hb'
  cases hb'
  exact hch

theorem Chosen.executes (hch : Chosen c w L x b k)
    (hset : b = true ∨ (L = [] ∧ tally (Obj.makes w) c.objs = 0)) :
    x = true ∨ .execute w ∈ c.objs := by
  have honce := hch.once
  rw [if_pos hset] at honce
  by_cases hx : x = true
  · exact .inl hx
  · refine .inr (mem_of_executes ?_)
    simp only [hx] at honce
    simp at honce
    omega

theorem no_making (h : ∀ j, .making w j ∉ c.objs) : tally (Obj.makes w) c.objs = 0 := by
  refine tally_eq_zero fun o ho => ?_
  by_contra hne
  obtain ⟨j, rfl⟩ := Obj.eq_of_makes (by simpa using hne)
  exact h j ho

theorem Chosen.set_of_executed (hch : Chosen c w L x b k) (hne : L ≠ []) (hx : x = true) :
    b = true := by
  have honce := hch.once
  by_contra hb
  simp [hx, hne, hb] at honce

/-- With the flag not set, somebody is still to be heard of. -/
theorem AnyOf.set_of_heard (ha : AnyOf c w L) (hn : c.nodes w = some nd)
    (hb : nd.body = .whenAny l b k) (hi : L[i]? = some f) (hmake : ∀ j ≤ i, .making w j ∉ c.objs)
    (hlinked : .linked f.2 (.combine w i) ∉ c.objs)
    (hqueued : .queued f.2 (.combine w i) ∉ c.objs) : b = true := by
  by_contra hset
  have hset : b = false := by simpa using hset
  subst hset
  rcases ha.waiting nd l k i f hn hb hi with ⟨j, hj, hmem⟩ | hmem | hmem
  · exact hmake j hj hmem
  · exact hlinked hmem
  · exact hqueued hmem

theorem AnyOf.idle (ha : AnyOf c w L) (h : Assembled c) (hn : c.nodes w = some nd)
    (hb : nd.body = .whenAny l b k) (hidle : Idle c) :
    nd.executed = true ↔ L = [] ∨ ∃ f ∈ L, Closed c f.2 := by
  have hch := ha.closes hn hb
  have hexec : .execute w ∉ c.objs := fun hmem => by
    have := hidle _ hmem
    simp [Obj.inProgress] at this
  constructor
  · intro hex
    by_cases hne : L = []
    · exact .inl hne
    · obtain ⟨f, hf, hclosed⟩ := hch.set (hch.set_of_executed hne hex)
      exact .inr ⟨f, List.mem_of_getElem? hf, hclosed⟩
  · rintro (hnil | ⟨f, hf, hclosed⟩)
    · exact (hch.executes (.inr ⟨hnil, idle_no_making hidle⟩)).resolve_right hexec
    · by_contra hex
      have hset : b = true := by
        by_contra hset
        have hset : b = false := by simpa using hset
        subst hset
        obtain ⟨i, hi⟩ := List.mem_iff_getElem?.mp hf
        rcases ha.waiting nd l k i f hn hb hi with ⟨j, -, hmem⟩ | hmem | hmem
        · have := hidle _ hmem
          simp [Obj.inProgress] at this
        · -- the input is ready, but its list is open
          obtain ⟨ndf, hnf, hopen⟩ := h.lists.linked _ _ hmem
          rw [hclosed ndf hnf] at hopen
          cases hopen
        · have := hidle _ hmem
          simp [Obj.inProgress] at this
      exact hex ((hch.executes (.inl hset)).resolve_right hexec)

/-- What a `when_any_state` starts with. -/
theorem Spawn.chosen (hs : Spawn c e rem nd add) (h : Wf c) (ho : c.objs = rem + rest)
    (hb : nd.body = .whenAny l b k) (hx : nd.executed = true → l = []) :
    b = false ∧ Chosen ⟨c.setNode c.fresh nd, add + rest, c.fresh + 1⟩ c.fresh l nd.executed b k ∧
      (nd.executed = false → .making c.fresh 0 ∈ add) := by
  have hexec := h.executes_fresh
  have hmakes := h.makes_fresh
  rw [ho, tally_add] at hexec hmakes
  have hexec' : tally (Obj.executes c.fresh) rest = 0 := by omega
  have hmakes' : tally (Obj.makes c.fresh) rest = 0 := by omega
  cases hs with
  | whenAny l' =>
    obtain ⟨rfl, rfl, rfl⟩ : l' = l ∧ false = b ∧ npos = k := by simpa using hb
    refine ⟨rfl, ⟨fun _ => rfl, by simp, ?_⟩, by simp⟩
    simp [Obj.executes, Obj.makes, hexec']
  | readySequence body hbody =>
    rcases hbody with rfl | rfl
    · cases hb
    · obtain ⟨rfl, rfl, rfl⟩ : [] = l ∧ false = b ∧ npos = k := by simpa using hb
      refine ⟨rfl, ⟨fun _ => rfl, by simp, ?_⟩, by simp⟩
      simp [Obj.executes, Obj.makes, hexec', hmakes']
  | _ => cases hb

theorem Obj.Combines.mono {Q R Q' R' : ℕ → ℕ → ℕ → Prop} (h : o.Combines Q R)
    (hQ : ∀ t v i, Q t v i → Q' t v i) (hR : ∀ t v i, R t v i → R' t v i) : o.Combines Q' R' := by
  cases o with
  | linked t q =>
    cases q with
    | combine v i => exact hQ t v i h
    | _ => trivial
  | queued t q =>
    cases q with
    | combine v i => exact hR t v i h
    | _ => trivial
  | _ => trivial

/-- No closure is about a combinator that is just being made. -/
theorem Step.not_combines_fresh (h : Wf c) (hst : Step c e c') :
    ∀ o ∈ c'.objs, o.Combines (fun _ v _ => v ≠ c.fresh) fun _ v _ => v ≠ c.fresh := by
  refine hst.combines (fun o ho => ?_) (fun v i nd f hn _ => (h.bound v nd hn).ne)
    fun _ _ _ _ hq => hq
  have hnames := h.names o ho
  cases o with
  | linked t q | queued t q =>
    cases q with
    | combine v i => exact (hnames v (by simp [Obj.names, Closure.names])).ne
    | _ => trivial
  | _ => trivial

theorem Step.anyOf (h : Wf c₀) (hst : Step c₀ (.combine w L) c₁) (hn : c₁.nodes w = some nd)
    (hb : nd.body = .whenAny l b k) : AnyOf c₁ w L ∧ Scan c₀ c₁ w L := by
  obtain ⟨rfl, hold, hkept, nd₁, hn₁, hfut, hnil⟩ := hst.combine h
  obtain rfl := Option.some.inj (hn.symm.trans hn₁)
  have hnone := hst.not_combines_fresh h
  obtain rfl : l = L := by rwa [hb] at hfut
  obtain ⟨rem, add, rest, nd₁, hs, ho, rfl⟩ := hst.combine_inv
  obtain rfl : nd₁ = nd := by simpa [Config.setNode] using hn
  obtain ⟨rfl, hch, hmaking⟩ := hs.chosen h ho hb hnil
  have hstart : ∀ {i : ℕ} {f : Input}, l[i]? = some f →
      .making c₀.fresh 0 ∈ add + rest := fun hi => by
    refine Multiset.mem_add.mpr (.inl (hmaking ?_))
    by_contra hex
    rw [hnil (by simpa using hex)] at hi
    simp at hi
  have hself : ∀ {nd'}, c₀.setNode c₀.fresh nd₁ c₀.fresh = some nd' → nd' = nd₁ := fun hn' => by
    simpa [Config.setNode] using hn'.symm
  constructor
  · refine ⟨hkept, fun o ho => (hnone o ho).mono (fun _ _ _ hv hw => absurd hw hv)
      fun _ _ _ hv hw => absurd hw hv, fun i nd' _ hn' => ?_, fun nd' hn' => ?_,
      fun nd' l' k' i f hn' hb' hi => .inl ⟨0, Nat.zero_le i, hstart hi⟩⟩
    · rw [hself hn', hb]
      rfl
    · rw [hself hn']
      exact ⟨l, false, k, hb, hch⟩
  · refine ⟨fun o ho => (hnone o ho).mono (fun _ _ _ hv hw => absurd hw hv) fun _ _ _ hv => hv,
      fun i f _ hf => ?_, fun nd' l' k' i f hn' hb' hi hpast => ?_, fun nd' l' k' hn' hb' => ?_⟩
    · have hne : f.2 ≠ c₀.fresh := (hold f hf).ne
      simp [Config.isExecuted, Config.setNode, hne]
    · have := hpast 0 (hstart hi)
      omega
    · rw [hself hn', hb] at hb'
      cases hb'

theorem AnyOf.law (ha : AnyOf c w L) (h : Assembled c) (hn : c.nodes w = some nd)
    (hb : nd.body = .whenAny l b k)
    (hfirst : ∀ c₂ i, Runs Step (Undisturbed L) c₁ c₂ → (∀ j, .making w j ∉ c₂.objs) →
      Runs Step Unguarded c₂ c → FirstReady c₀ L i → b = true ∧ k = i) :
    WhenAnyLaw c₀ c₁ c w L nd l b k := by
  have hch := ha.closes hn hb
  have hseq : l = L ∨ (l = [] ∧ nd.executed = true) := by
    have hfut := ha.futures nd hn
    rwa [hb] at hfut
  have hrun : ∀ {c'}, Step c (.execute w) c' → .execute w ∈ c.objs := fun hst => by
    obtain ⟨rest, nd, ho, -⟩ := hst.execute_inv
    exact mem_of_rem ho (by simp)
  refine ⟨hseq, fun c' hst => ?_, fun hne hex => ?_, fun hset c' nd' hrun hn' => ?_,
    fun hne hex => hch.set_of_executed hne hex, fun i f hi hmake hlinked hqueued => ?_,
    ha.idle h hn hb, hfirst, fun hnil => ⟨hch.unset ?_, fun hmake => ?_⟩⟩
  · have honce := hch.once
    have hpos := tally_pos (hrun hst) (p := Obj.executes w) (by simp [Obj.executes])
    have hone : (if b = true ∨ (L = [] ∧ tally (Obj.makes w) c.objs = 0) then 1 else 0) ≤ 1 := by
      split <;> omega
    refine ⟨?_, fun hne => hch.set ?_⟩
    · by_contra hex
      have hex : nd.executed = true := by simpa using hex
      simp only [hex, if_true] at honce
      omega
    · by_contra hset
      simp only [hne, hset, false_and, or_false, if_false] at honce
      omega
  · obtain ⟨f, hf, hclosed⟩ := hch.set (hch.set_of_executed hne hex)
    refine ⟨f, hf, hclosed, fun hl => ?_⟩
    subst hl
    have hmem : f ∈ nd.body.futures := by
      rw [hb]
      exact List.mem_of_getElem? hf
    obtain ⟨ndf, hnf⟩ := h.wf.alive f.2 (owned_of_futures hn hmem)
    rw [isExecuted_eq hnf]
    exact hclosed ndf hnf
  · subst hset
    exact whenAny_run hrun h.toInv hn hn' hb
  · exact hch.executes (.inl (ha.set_of_heard hn hb hi hmake hlinked hqueued))
  · by_contra hset
    obtain ⟨f, hf, -⟩ := hch.set (by simpa using hset)
    rw [hnil] at hf
    simp at hf
  · exact hch.executes (.inr ⟨hnil, no_making hmake⟩)

/-- Without disturbance the first ready input is chosen. -/
theorem Scan.chosen (hs : Scan c₀ c w L) (ha : AnyOf c w L) (hn : c.nodes w = some nd)
    (hdone : ∀ j, .making w j ∉ c.objs) (hi : FirstReady c₀ L i) :
    ∃ l, nd.body = .whenAny l true i := by
  obtain ⟨⟨f, hf, hready⟩, hbefore⟩ := hi
  obtain ⟨l, b, k, hb, -⟩ := ha.body nd hn
  cases b with
  | false =>
    rw [hs.passed nd l k i f hn hb hf fun j hj => absurd hj (hdone j)] at hready
    cases hready
  | true =>
    obtain ⟨⟨g, hg, hready'⟩, hbefore'⟩ := hs.first nd l k hn hb
    rcases lt_trichotomy i k with hlt | rfl | hlt
    · rw [hbefore' i hlt f hf] at hready
      cases hready
    · exact ⟨l, hb⟩
    · rw [hbefore k hlt g hg] at hready'
      cases hready'

/-- **`when_any` is ready when one input is, and says which**, whenever the
inputs become ready and whatever else is done with them. -/
theorem when_any_law {nd₁ : Node V E F} {l₁ : List Input} {b₁ : Bool} {k₁ : ℕ}
    (h : Reachable Unguarded c₀) (hst : Step c₀ (.combine w L) c₁) (hn₁ : c₁.nodes w = some nd₁)
    (hb₁ : nd₁.body = .whenAny l₁ b₁ k₁) (hrun : Runs Step Unguarded c₁ c)
    (hn : c.nodes w = some nd) :
    ∃ l flag index, nd.body = .whenAny l flag index ∧
      WhenAnyLaw c₀ c₁ c w L nd l flag index := by
  have h₁ : Assembled c₁ := h.assembled.step hst
  have hr : Assembled c := Reachable.assembled (h.trans (.trans (.single trivial hst) hrun))
  have hlt : w < c₁.fresh := h₁.wf.bound w nd₁ hn₁
  obtain ⟨hany₁, hscan₁⟩ := hst.anyOf h.assembled.wf hn₁ hb₁
  have hkeep : ∀ {ok : Config V E F → Event V E F → Prop} {c₂ nd₂}, Runs Step ok c₁ c₂ →
      c₂.nodes w = some nd₂ → AnyOf c₂ w L := by
    intro ok c₂ nd₂ hrun hn₂
    refine runs_keep (I := Assembled) (P := fun c => AnyOf c w L)
      (fun _ _ _ hi _ hst => hi.step hst) ?_ hrun h₁ hlt hn₂ hany₁
    exact fun hi _ hst hn _ ha => ha.step hi hst hn
  have hany : AnyOf c w L := hkeep hrun hn
  obtain ⟨l, b, k, hb, -⟩ := hany.body nd hn
  refine ⟨l, b, k, hb, hany.law hr hn hb fun c₂ i hquiet hdone hrest hi => ?_⟩
  have h₂ : Assembled c₂ := by
    refine hquiet.invariant (I := Assembled) (fun _ _ _ hi _ hst => hi.step hst) h₁
  obtain ⟨nd₂, hn₂⟩ : ∃ nd₂, c₂.nodes w = some nd₂ := by
    by_contra hne
    have hlt₂ : w < c₂.fresh := by
      refine hquiet.invariant (I := fun c => w < c.fresh) ?_ hlt
      exact fun _ _ _ hi _ hst => hi.trans_le hst.fresh_le
    have hnone : c₂.nodes w = none := by
      by_contra hsome
      exact hne (Option.ne_none_iff_exists'.mp hsome)
    rw [gone_run hrest hlt₂ hnone] at hn
    cases hn
  have hscan : AnyOf c₂ w L ∧ Scan c₀ c₂ w L := by
    refine runs_keep (I := Assembled) (P := fun c => AnyOf c w L ∧ Scan c₀ c w L)
      (fun _ _ _ hi _ hst => hi.step hst) ?_ hquiet h₁ hlt hn₂ ⟨hany₁, hscan₁⟩
    exact fun hi hok hst hn hn' hp => ⟨hp.1.step hi hst hn, hp.2.step hp.1 hi hok hst hn hn'⟩
  obtain ⟨l₂, hb₂⟩ := hscan.2.chosen hscan.1 hn₂ hdone hi
  obtain ⟨l', hb'⟩ := whenAny_run hrest h₂.toInv hn₂ hn hb₂
  rw [hb] at hb'
  cases hb'
  exact ⟨rfl, rfl⟩

/-- Two promises, of which the second is fulfilled while `make` is about to
register the first. -/
theorem when_any_law_of_race : ∃ (c₀ c₁ c : Config Unit Unit Unit) (nd : Node Unit Unit Unit),
    c.nodes 2 = some nd ∧ ∃ l flag index, nd.body = .whenAny l flag index ∧
      WhenAnyLaw c₀ c₁ c 2 [(true, 0), (true, 1)] nd l flag index := by
  have h₀ : Reachable Unguarded (init : Config Unit Unit Unit) := .refl _
  have h₁ := h₀.tail trivial (.spawn (.makePromise false) (Multiset.zero_add _).symm)
  have h₂ := h₁.tail trivial (.spawn (.makePromise false) (Multiset.zero_add _).symm)
  have hst := h₂.next (.spawn (.whenAny [(true, 0), (true, 1)])
    (show _ = inputObjs [(true, 0), (true, 1)] + ({.handle .promise false 0,
      .handle .promise false 1} : Multiset (Obj Unit)) by decide))
  have h₃ := (h₂.tail trivial hst).last
  have h₄ := h₃.tail trivial
    (.settle (.setValue false 1 () (.inr ⟨2, _, rfl, by decide⟩)) (show _ = _ +
      ({.making 2 0, .handle .promise false 0} : Multiset (Obj Unit)) by decide) rfl rfl)
  have h₅ := h₄.tail trivial
    (.execute (s := 1) (show _ = _ + ({.handle .promise false 1, .making 2 0,
      .handle .promise false 0} : Multiset (Obj Unit)) by decide) rfl)
  have h₆ := h₅.tail trivial (.move (.register 2 0 _ (true, 0) rfl rfl rfl)
    (show _ = _ + ({.held 1, .handle .promise false 1, .handle .promise false 0} :
      Multiset (Obj Unit)) by decide))
  have h₇ := h₆.tail trivial (.touch (.register 2 1 _ (true, 1) rfl rfl)
    (show _ = _ + ({.linked 0 (.combine 2 0), .held 1, .handle .promise false 1,
      .handle .promise false 0} : Multiset (Obj Unit)) by decide) rfl)
  exact ⟨_, _, _, _, rfl, when_any_law h₂ hst rfl rfl h₇ rfl⟩

end Futures

end PortableConcurrency
