import PortableConcurrency.Futures.Unwrapping

/-!
# Reading a result

`value_ref` and `exception` as the source has them, with their assertions
and without a bound on how far they follow the inner states. On a ready
state both come to an end at the same storage, and keep ending there, as
long as no `unwrap` overwrites a result. `unwrap` itself does not see to
that.
-/

namespace PortableConcurrency

namespace Futures

variable {V E F α : Type*} {c c' : Config V E F} {e : Event V E F}
variable {s t n l : ℕ} {nd nd' : Node V E F} {x : Outcome V E}

/-- How a call ends. -/
inductive Ending (α E : Type*)
  | returns (a : α)
  | throws (x : Exn E)
  /-- an `assert` fails -/
  | asserts
  /-- a pointer to a state that is gone -/
  | dangles
  deriving DecidableEq, Repr

/-- **The visit of a storage** that `value_ref` and `exception` make, with
what each does at a value, in the storage of the state `l`, and at an
exception. It is `none` when `fuel` calls were not enough. -/
def visit (atValue : ℕ → Ending α E) (atException : Exn E → Ending α E) (c : Config V E F) :
    ℕ → ℕ → Option (Ending α E)
  | 0, _ => none
  | fuel + 1, s =>
    match c.nodes s with
    | none => some .dangles
    | some nd =>
      if nd.executed = false then some .asserts
      else if nd.body.isCombinator then some (atValue s)
      else
        match nd.storage with
        | .value _ => some (atValue s)
        | .inner t => visit atValue atException c fuel t
        | .exception x => some (atException x)
        | .empty => some .asserts

/-- `value_ref` returns a reference to a storage, named by its state. -/
def valueRef (c : Config V E F) : ℕ → ℕ → Option (Ending ℕ E) :=
  visit .returns .throws c

/-- `exception` returns an `exception_ptr`, which can be null. -/
def exception (c : Config V E F) : ℕ → ℕ → Option (Ending (Option (Exn E)) E) :=
  visit (fun _ => .returns none) (fun x => .returns (some x)) c

/-- What a visit makes of the outcome it finds at `l`. -/
def Outcome.ends (atValue : ℕ → Ending α E) (atException : Exn E → Ending α E) (l : ℕ) :
    Outcome V E → Ending α E
  | .value _ => atValue l
  | .futures => atValue l
  | .exception x => atException x

/-- **A visit with enough fuel ends**, where the chain of inner states
does. -/
theorem Resolves.visit (h : Resolves c s l x) (atValue : ℕ → Ending α E)
    (atException : Exn E → Ending α E) :
    ∃ m, ∀ fuel, m ≤ fuel →
      Futures.visit atValue atException c fuel s = some (x.ends atValue atException l) := by
  induction h with
  | @leaf l nd x hn hex hout =>
    refine ⟨1, fun fuel hm => ?_⟩
    obtain ⟨k, rfl⟩ := Nat.exists_eq_add_of_le' hm
    unfold Node.outcome at hout
    split at hout
    · rename_i hbody
      obtain rfl := Option.some.inj hout
      simp [Futures.visit, hn, hex, hbody, Outcome.ends]
    · rename_i hbody
      cases hs : nd.storage with
      | value | exception =>
        rw [hs] at hout
        obtain rfl := Option.some.inj hout
        simp [Futures.visit, hn, hex, hbody, hs, Outcome.ends]
      | empty | inner =>
        rw [hs] at hout
        cases hout
  | inner hn hex hbody hs _ ih =>
    obtain ⟨m, hm⟩ := ih
    refine ⟨m + 1, fun fuel hle => ?_⟩
    obtain ⟨k, rfl⟩ := Nat.exists_eq_add_of_le' (Nat.le_of_add_left_le hle)
    simp [Futures.visit, hn, hex, hbody, hs, hm k (by omega)]

/-! ## Every ready state has an outcome -/

/-- Every closed list belongs to a state with an outcome. -/
def Grounded (c : Config V E F) : Prop := ∀ s, c.isExecuted s = true → ∃ l x, Resolves c s l x

/-- **Grounded states stay grounded**: a state is closed after the state
it was unwrapped onto, which has an outcome by then. -/
theorem Grounded.step (h : Steady c) (hok : FirstResult c e) (hg : Grounded c)
    (hst : Step c e c') : Grounded c' := by
  intro s hex'
  obtain ⟨nd', hn', hex⟩ := node_of_isExecuted hex'
  have hold : ∀ nd, c.nodes s = some nd → nd.executed = true → ∃ l x, Resolves c' s l x := by
    intro nd hn hex
    obtain ⟨l, x, hr⟩ := hg s (by rw [isExecuted_eq hn, hex])
    exact ⟨l, x, hr.step h.toInv hok hst hn'⟩
  cases hst.node hn' with
  | same hn | settle hn | unwrap hn | touch hn => exact hold _ hn hex
  | spawn hf hsp ho =>
    cases hsp with
    | readySequence body hbody =>
      refine ⟨s, .futures, .leaf hn' rfl (Node.outcome_futures.mpr ?_)⟩
      rcases hbody with rfl | rfl <;> rfl
    | _ => simp at hex
  | @execute nd rest hn he ho =>
    have hmem : .execute s ∈ c.objs := mem_of_rem ho (by simp)
    by_cases hcomb : nd.body.isCombinator = true
    · exact ⟨s, .futures, .leaf hn' rfl (Node.outcome_futures.mpr hcomb)⟩
    have hbody : nd.body.isCombinator = false := by simpa using hcomb
    have hkind : nd.body.kind ≠ .combinator := by rwa [Body.isCombinator_iff] at hcomb
    have hres := h.stored.objs _ hmem nd hn hkind
    cases hs : nd.storage with
    | empty => exact absurd hs hres
    | value v => exact ⟨s, .value v, .leaf hn' rfl (by simp [Node.outcome, hbody, hs])⟩
    | exception x => exact ⟨s, .exception x, .leaf hn' rfl (by simp [Node.outcome, hbody, hs])⟩
    | inner t =>
      have hready := h.unwrapped.objs _ hmem nd t hn hkind hs
      obtain ⟨l, x, hr⟩ := hg t hready
      obtain ⟨ndt', ht'⟩ := (h.wf.step hst).inner_alive hn' hs
      exact ⟨l, x, .inner hn' rfl hbody hs (hr.step h.toInv hok hst ht')⟩

theorem Reachable.grounded (h : Reachable FirstResult c) : Grounded c := by
  refine h.invariant_of (I := Steady) (J := Grounded) (fun _ _ _ hi hok hst => hi.step hok hst)
    (fun _ _ _ hi _ hj hok hst => hj.step hi hok hst) steady_init ?_
  intro s hex
  simp [init, Config.isExecuted] at hex

theorem Resolves.run (h : Steady c) (hrun : Runs Step FirstResult c c') (hx : Resolves c s l x)
    (hn : c.nodes s = some nd) (hn' : c'.nodes s = some nd') : Resolves c' s l x :=
  runs_keep (I := Steady) (P := fun c => Resolves c s l x)
    (fun _ _ _ hi hok hst => hi.step hok hst)
    (fun hi hok hst _ hn' hl => hl.step hi.toInv hok hst hn') hrun h (h.wf.bound s nd hn) hn' hx

/-- The state at the end of the chain has the outcome itself. -/
theorem Resolves.outcome (h : Resolves c s l x) :
    ∃ nd, c.nodes l = some nd ∧ nd.outcome = some x := by
  induction h with
  | leaf hn _ hout => exact ⟨_, hn, hout⟩
  | inner _ _ _ _ _ ih => exact ih

/-- What a state resolves to is unique. -/
theorem Resolves.unique {l' : ℕ} {x' : Outcome V E} (h : Resolves c s l x)
    (h' : Resolves c s l' x') : l' = l ∧ x' = x := by
  have hinner : ∀ {nd : Node V E F} {t : ℕ} {y : Outcome V E}, nd.body.isCombinator = false →
      nd.storage = .inner t → nd.outcome ≠ some y := by
    intro nd t y hbody hs ho
    simp [Node.outcome, hbody, hs] at ho
  induction h with
  | leaf hn _ ho =>
    cases h' with
    | leaf hn' _ ho' =>
      obtain rfl := Option.some.inj (hn.symm.trans hn')
      exact ⟨rfl, Option.some.inj (ho'.symm.trans ho)⟩
    | inner hn' _ hbody hs =>
      obtain rfl := Option.some.inj (hn.symm.trans hn')
      exact absurd ho (hinner hbody hs)
  | inner hn _ hbody hs _ ih =>
    cases h' with
    | leaf hn' _ ho' =>
      obtain rfl := Option.some.inj (hn.symm.trans hn')
      exact absurd ho' (hinner hbody hs)
    | inner hn' _ _ hs' ht' =>
      obtain rfl := Option.some.inj (hn.symm.trans hn')
      rw [hs] at hs'
      cases hs'
      exact ih ht'

/-- What a state stores stays along a run. -/
theorem storage_run (h : Steady c) (hrun : Runs Step FirstResult c c') (hn : c.nodes s = some nd)
    (hn' : c'.nodes s = some nd') (hs : nd.storage ≠ .empty) : nd'.storage = nd.storage := by
  have hkeep : ∀ nd', c'.nodes s = some nd' → nd'.storage = nd.storage := by
    refine runs_keep (I := Steady) (P := fun c => ∀ nd', c.nodes s = some nd' →
      nd'.storage = nd.storage) (fun _ _ _ hi hok hst => hi.step hok hst) ?_ hrun h
      (h.wf.bound s nd hn) hn' ?_
    · intro c e c' nd₁ nd₂ hi hok hst hn₁ _ hp nd' hn'
      have heq := hp nd₁ hn₁
      rw [hst.storage_eq hi.toInv hok hn₁ hn' (by rwa [heq]), heq]
    · intro nd' hm
      rw [Option.some.inj (hn.symm.trans hm)]
  exact hkeep nd' hn'

/-- **What a state promises to who reads it**, now and in every run that
goes on under `ok`. -/
structure SafeToRead (ok : Config V E F → Event V E F → Prop) (c : Config V E F) (s : ℕ)
    (nd : Node V E F) : Prop where
  stored : nd.executed = true → nd.storage ≠ .empty
  inner : ∀ t, nd.executed = true → nd.storage = .inner t →
    ∃ ndt, c.nodes t = some ndt ∧ ndt.executed = true
  stable : ∀ c' nd', Runs Step ok c c' → c'.nodes s = some nd' → nd.storage ≠ .empty →
    nd'.storage = nd.storage
  /-- one storage `l` and one outcome, for every call there will be -/
  reads : nd.executed = true → ∃ (l : ℕ) (x : Outcome V E), ∀ c' nd', Runs Step ok c c' →
    c'.nodes s = some nd' →
    (∃ m, ∀ fuel, m ≤ fuel → valueRef c' fuel s = some (x.ends .returns .throws l) ∧
      exception c' fuel s = some (x.ends (fun _ => .returns none) (fun x => .returns (some x)) l)) ∧
    ∃ ndl, c'.nodes l = some ndl ∧ ndl.outcome = some x

/-- **Reading a result is safe** in the runs that keep to the proviso. -/
theorem safe_to_read (h : Reachable FirstResult c) (hn : c.nodes s = some nd)
    (hbody : nd.body.isCombinator = false) : SafeToRead FirstResult c s nd := by
  have hst : Steady c := h.steady
  have hkind : nd.body.kind ≠ .combinator := by
    rw [ne_eq, ← Body.isCombinator_iff, hbody]
    simp
  refine ⟨fun hex => ?_, fun t hex hs => ?_, fun c' nd' hrun hn' hs => ?_, fun hex => ?_⟩
  · exact hst.stored.nodes s (by rw [isExecuted_eq hn, hex]) nd hn hkind
  · exact node_of_isExecuted
      (hst.unwrapped.nodes s (by rw [isExecuted_eq hn, hex]) nd t hn hkind hs)
  · exact storage_run hst hrun hn hn' hs
  · obtain ⟨l, x, hx⟩ := h.grounded s (by rw [isExecuted_eq hn, hex])
    refine ⟨l, x, fun c' nd' hrun hn' => ?_⟩
    have hx' := hx.run hst hrun hn hn'
    obtain ⟨m, hm⟩ := hx'.visit .returns .throws
    obtain ⟨m', hm'⟩ := hx'.visit (fun _ => .returns none) (fun x => .returns (some x))
    exact ⟨⟨max m m', fun fuel hle => ⟨hm fuel (by omega), hm' fuel (by omega)⟩⟩, hx'.outcome⟩

/-- A task that returns a future, some time after the future is ready. -/
theorem unwrap_run : ∃ (c : Config Unit Unit Unit) (nd : Node Unit Unit Unit),
    Reachable FirstResult c ∧ c.nodes 0 = some nd ∧ nd.executed = true ∧ nd.storage = .inner 1 ∧
      nd.body.isCombinator = false := by
  have h₀ : Reachable FirstResult (init : Config Unit Unit Unit) := .refl _
  have h₁ := h₀.tail (by simp [FirstResult]) (.spawn (.newTask ()) (Multiset.zero_add _).symm)
  have h₂ := h₁.tail (by simp [FirstResult])
    (.move (.getFuture .task 0 (by simp)) (show _ = _ + (0 : Multiset _) from rfl))
  have h₃ := h₂.tail (by simp [FirstResult])
    (.spawn (.makePromise false) (Multiset.zero_add _).symm)
  have h₄ := h₃.tail (by simp [FirstResult])
    (.move (.callTask false 0 () _ (.inl ⟨.future true 0, by decide, by decide⟩) rfl rfl)
      (show _ = _ + ({.handle .promise false 1, .future true 1, .future true 0} :
        Multiset (Obj Unit)) by decide))
  have h₅ := h₄.tail (by rintro _ _ nd ⟨⟩ hn; cases hn; rfl)
    (.unwrap (show _ = {.invoked .task 0, .future true 1} + ({.handle .task false 0,
      .handle .promise false 1, .future true 0} : Multiset (Obj Unit)) by decide) rfl)
  have h₆ := h₅.tail (by simp [FirstResult])
    (.move (.subscribe 0 1) (show _ = _ + ({.cleaning 0, .handle .task false 0,
      .handle .promise false 1, .future true 0} : Multiset (Obj Unit)) by decide))
  have h₇ := h₆.tail (by simp [FirstResult])
    (.settle (.setValue false 1 () (.inr ⟨0, _, rfl, by decide⟩)) (show _ = _ + ({.held 0,
      .linked 1 (.unwrapCb 0), .cleaning 0, .handle .task false 0, .future true 0} :
        Multiset (Obj Unit)) by decide) rfl rfl)
  have h₈ := h₇.tail (by simp [FirstResult])
    (.execute (s := 1) (show _ = _ + ({.handle .promise false 1, .held 0, .linked 1 (.unwrapCb 0),
      .cleaning 0, .handle .task false 0, .future true 0} : Multiset (Obj Unit)) by decide) rfl)
  have h₉ := h₈.tail (by simp [FirstResult])
    (.move (.callUnwrap 1 0 (.inl ⟨.held 0, by decide, by decide⟩)) (show _ = _ + ({.held 1,
      .handle .promise false 1, .held 0, .cleaning 0, .handle .task false 0, .future true 0} :
        Multiset (Obj Unit)) by decide))
  have h₁₀ := h₉.tail (by simp [FirstResult])
    (.execute (s := 0) (show _ = _ + ({.spent 1 (.unwrapCb 0), .held 1, .handle .promise false 1,
      .held 0, .cleaning 0, .handle .task false 0, .future true 0} : Multiset (Obj Unit))
        by decide) rfl)
  exact ⟨_, _, h₁₀, rfl, rfl, rfl, rfl⟩

theorem safe_to_read_of_unwrap : ∃ (c : Config Unit Unit Unit) (nd : Node Unit Unit Unit),
    c.nodes 0 = some nd ∧ nd.executed = true ∧ nd.storage = .inner 1 ∧
      SafeToRead FirstResult c 0 nd := by
  obtain ⟨c, nd, h, hn, hex, hs, hbody⟩ := unwrap_run
  exact ⟨c, nd, hn, hex, hs, safe_to_read h hn hbody⟩

/-- **The slip**: a task that calls itself and is given an error by the
inner call, and then returns a future that is not ready. Its state is
ready, but has no value and no exception, and reading it fails an
assertion. -/
theorem unsafe_to_read : ¬ ∀ c : Config Unit Unit Unit, Reachable Unguarded c → ∀ s nd,
    c.nodes s = some nd → nd.body.isCombinator = false → SafeToRead Unguarded c s nd := by
  intro hall
  have h₀ : Reachable Unguarded (init : Config Unit Unit Unit) := .refl _
  have h₁ := h₀.tail trivial (.spawn (.newTask ()) (show _ = _ + (0 : Multiset _) from rfl))
  have h₂ := h₁.tail trivial
    (.move (.getFuture .task 0 (by simp)) (show _ = _ + (0 : Multiset _) from rfl))
  have h₃ := h₂.tail trivial (.spawn (.makePromise false) (Multiset.zero_add _).symm)
  have h₄ := h₃.tail trivial (.move (.callTask false 0 () _
    (.inl ⟨.future true 0, by decide, by decide⟩) rfl rfl)
    (show _ = _ + ({.handle .promise false 1, .future true 1, .future true 0} :
      Multiset (Obj Unit)) by decide))
  have h₅ := h₄.tail trivial (.move (.callTask false 0 () _
    (.inl ⟨.future true 0, by decide, by decide⟩) rfl rfl)
    (show _ = _ + ({.invoked .task 0, .handle .promise false 1, .future true 1,
      .future true 0} : Multiset (Obj Unit)) by decide))
  have h₆ := h₅.tail trivial (.settle (.ret .task 0 .invalid) (show _ = _ +
    ({.handle .task false 0, .invoked .task 0, .handle .promise false 1, .future true 1,
      .future true 0} : Multiset (Obj Unit)) by decide) rfl rfl)
  have h₇ := h₆.tail trivial (.execute (s := 0) (show _ = _ + ({.cleaning 0, .handle .task false 0,
    .invoked .task 0, .handle .promise false 1, .future true 1, .future true 0} :
      Multiset (Obj Unit)) by decide) rfl)
  have h₈ := h₇.tail trivial (.unwrap (show _ = {.invoked .task 0, .future true 1} +
    ({.held 0, .cleaning 0, .handle .task false 0, .handle .promise false 1, .future true 0} :
      Multiset (Obj Unit)) by decide) rfl)
  obtain ⟨ndt, ht, hex⟩ := (hall _ h₈ 0 _ rfl rfl).inner 1 rfl rfl
  cases ht
  cases hex

end Futures

end PortableConcurrency
