import PortableConcurrency.Futures.Claims

/-!
# Registration

`make` of a combinator goes through the inputs and leaves a closure on
each one that is not ready. Until the list of that input is closed the
closure stays there, with a `shared_ptr` to the combinator, whose sequence
has one to the input: what is registered on a pending input keeps both.
-/

namespace PortableConcurrency

namespace Futures

variable {V E F : Type*} {c c' : Config V E F} {e : Event V E F}
variable {rem add rest : Multiset (Obj F)} {s t n w i : ℕ} {o : Obj F} {k : Closure}
variable {nd nd' : Node V E F}

/-! ## What stays where it is -/

/-- No step takes a closure out of a list but `execute` and the destructor. -/
theorem Move.rem_linked (hm : Move c e rem add) : .linked t k ∉ rem := by
  cases hm <;> simp

theorem Spawn.rem_linked (hs : Spawn c e rem nd add) : .linked t k ∉ rem := by
  cases hs <;> simp [not_linked_inputs]

theorem Settle.rem_linked {x : Storage V E} {clean : Body F → Body F}
    (hs : Settle c e rem s x clean add) : .linked t k ∉ rem := by
  cases hs <;> simp

theorem Touch.rem_linked {body : Body F} (ht : Touch c e rem s nd body add) :
    .linked t k ∉ rem := by
  cases ht <;> simp

/-- **A closure stays in its list** until the list is closed or goes with
its state. -/
theorem Step.linked (hst : Step c e c') (hmem : .linked t k ∈ c.objs) :
    .linked t k ∈ c'.objs ∨ (e = .execute t ∧ .queued t k ∈ c'.objs ∧ c'.isExecuted t = true) ∨
      (e = .destroy t ∧ ¬ Owned c t) := by
  have hrest : ∀ {rem rest : Multiset (Obj F)}, c.objs = rem + rest → .linked t k ∉ rem →
      .linked t k ∈ rest := fun ho hrem => by
    rw [ho] at hmem
    exact (Multiset.mem_add.mp hmem).resolve_left hrem
  cases hst with
  | move hm ho => exact .inl (Multiset.mem_add.mpr (.inr (hrest ho hm.rem_linked)))
  | spawn hs ho => exact .inl (Multiset.mem_add.mpr (.inr (hrest ho hs.rem_linked)))
  | settle hs ho =>
    refine .inl (Multiset.mem_cons_of_mem (Multiset.mem_add.mpr (.inr ?_)))
    exact hrest ho hs.rem_linked
  | unwrap ho =>
    refine .inl (Multiset.mem_cons_of_mem (Multiset.mem_add.mpr (.inr ?_)))
    exact hrest ho (by simp)
  | touch ht ho => exact .inl (Multiset.mem_add.mpr (.inr (hrest ho ht.rem_linked)))
  | @execute s rest nd ho hn =>
    have hmem := hrest ho (by simp)
    by_cases hts : t = s
    · subst hts
      refine .inr (.inl ⟨rfl, Multiset.mem_cons_of_mem (Multiset.mem_map.mpr ⟨_, hmem, ?_⟩), ?_⟩)
      · simp [Obj.unlink]
      · simp [Config.isExecuted, Config.setNode]
    · refine .inl (Multiset.mem_cons_of_mem (Multiset.mem_map.mpr ⟨_, hmem, ?_⟩))
      simp [Obj.unlink, hts]
  | @destroy s nd hn hun =>
    by_cases hts : t = s
    · subst hts
      exact .inr (.inr ⟨rfl, hun⟩)
    · exact .inl (Multiset.mem_filter.mpr ⟨hmem, by simp [Obj.isLinked, hts]⟩)

/-- A notification of a combinator waits until it is called. -/
theorem Step.queued (hst : Step c e c') (hmem : .queued t (.combine w i) ∈ c.objs) :
    .queued t (.combine w i) ∈ c'.objs ∨ ∃ nd, c.nodes w = some nd ∧
      c'.nodes w = some { nd with body := (nd.body.notify i).1 } := by
  have hrest : ∀ {rem rest : Multiset (Obj F)}, c.objs = rem + rest →
      .queued t (.combine w i) ∉ rem → .queued t (.combine w i) ∈ rest := fun ho hrem => by
    rw [ho] at hmem
    exact (Multiset.mem_add.mp hmem).resolve_left hrem
  cases hst with
  | move hm ho =>
    refine .inl (Multiset.mem_add.mpr (.inr (hrest ho ?_)))
    cases hm with
    | callPlain _ k hk =>
      rcases hk with rfl | ⟨_, rfl⟩ <;> simp
    | callExpired _ _ k hk =>
      rcases hk with rfl | rfl <;> simp
    | _ => simp
  | spawn hs ho =>
    refine .inl (Multiset.mem_add.mpr (.inr (hrest ho ?_)))
    cases hs <;> simp [mem_inputObjs]
  | settle hs ho =>
    refine .inl (Multiset.mem_cons_of_mem (Multiset.mem_add.mpr (.inr (hrest ho ?_))))
    cases hs <;> simp
  | unwrap ho =>
    refine .inl (Multiset.mem_cons_of_mem (Multiset.mem_add.mpr (.inr (hrest ho ?_))))
    simp
  | @touch _ rem add rest s nd body ht ho hn =>
    by_cases hr : .queued t (.combine w i) ∈ rem
    · cases ht with
      | notify t' w' pos =>
        obtain ⟨rfl, rfl, rfl⟩ : t = t' ∧ w = s ∧ i = pos := by simpa using hr
        exact .inr ⟨nd, hn, Function.update_self _ _ _⟩
      | _ => simp at hr
    · exact .inl (Multiset.mem_add.mpr (.inr (hrest ho hr)))
  | @execute s rest nd ho =>
    exact .inl (Multiset.mem_cons_of_mem (Multiset.mem_map.mpr ⟨_, hrest ho (by simp), rfl⟩))
  | destroy => exact .inl (Multiset.mem_filter.mpr ⟨hmem, by simp [Obj.isLinked]⟩)

/-- What has become of a loop of `make`. -/
inductive MakingStep (c : Config V E F) (c' : Config V E F) (w i : ℕ) : Prop
  | same (hmem : .making w i ∈ c'.objs)
  | pending (f : Input) (nd : Node V E F) (hn : c.nodes w = some nd)
      (hi : nd.body.futures[i]? = some f) (hmem : .making w (i + 1) ∈ c'.objs)
      (hlinked : .linked f.2 (.combine w i) ∈ c'.objs) (hpend : c.isExecuted f.2 = false)
  | ready (f : Input) (nd : Node V E F) (hn : c.nodes w = some nd)
      (hi : nd.body.futures[i]? = some f) (hmem : .making w (i + 1) ∈ c'.objs)
      (hready : c.isExecuted f.2 = true)
      (hn' : c'.nodes w = some { nd with body := (nd.body.notify i).1 })
  | finish (nd : Node V E F) (hn : c.nodes w = some nd) (hi : i = nd.body.futures.length)

/-- **The loop of `make` goes on one input at a time.** -/
theorem Step.making (hst : Step c e c') (hmem : .making w i ∈ c.objs) : MakingStep c c' w i := by
  have hrest : ∀ {rem rest : Multiset (Obj F)}, c.objs = rem + rest → .making w i ∉ rem →
      .making w i ∈ rest := fun ho hrem => by
    rw [ho] at hmem
    exact (Multiset.mem_add.mp hmem).resolve_left hrem
  cases hst with
  | @move _ rem add rest hm ho =>
    by_cases hr : .making w i ∈ rem
    · cases hm with
      | register w' i' nd f hn hi hpend =>
        obtain ⟨rfl, rfl⟩ : w = w' ∧ i = i' := by simpa using hr
        exact .pending f nd hn hi (by simp) (by simp) hpend
      | _ => simp at hr
    · exact .same (Multiset.mem_add.mpr (.inr (hrest ho hr)))
  | @spawn _ rem add rest nd hs ho =>
    refine .same (Multiset.mem_add.mpr (.inr (hrest ho ?_)))
    cases hs <;> simp [mem_inputObjs]
  | @settle _ rem add rest s x clean nd hs ho =>
    refine .same (Multiset.mem_cons_of_mem (Multiset.mem_add.mpr (.inr (hrest ho ?_))))
    cases hs <;> simp
  | unwrap ho =>
    exact .same (Multiset.mem_cons_of_mem (Multiset.mem_add.mpr (.inr (hrest ho (by simp)))))
  | @touch _ rem add rest s nd body ht ho hn =>
    by_cases hr : .making w i ∈ rem
    · cases ht with
      | register w' i' _ f hi hready =>
        obtain ⟨rfl, rfl⟩ : w = s ∧ i = i' := by simpa using hr
        exact .ready f nd hn hi (by simp) hready (Function.update_self _ _ _)
      | finish w' i' _ hi =>
        obtain ⟨rfl, rfl⟩ : w = s ∧ i = i' := by simpa using hr
        exact .finish nd hn hi
      | _ => simp at hr
    · exact .same (Multiset.mem_add.mpr (.inr (hrest ho hr)))
  | @execute s rest nd ho =>
    refine .same (Multiset.mem_cons_of_mem (Multiset.mem_map.mpr ⟨_, hrest ho (by simp), rfl⟩))
  | destroy => exact .same (Multiset.mem_filter.mpr ⟨hmem, by simp [Obj.isLinked]⟩)

/-! ## The sequence of a combinator -/

/-- Cleaning leaves the sequence. -/
@[simp] theorem Body.clean_futures (h : Producer) (body : Body F) :
    (body.clean h).futures = body.futures := by
  cases h <;> cases body <;> rfl

/-- So does `notify`. -/
@[simp] theorem Body.notify_futures (pos : ℕ) (body : Body F) :
    (body.notify pos).1.futures = body.futures := by
  cases body with
  | whenAny l b i => cases b <;> rfl
  | _ => rfl

/-- So does the end of `make`. -/
@[simp] theorem Body.finish_futures (body : Body F) : body.finish.1.futures = body.futures := by
  cases body <;> rfl

@[simp] theorem Body.moveFutures_futures (body : Body F) : body.moveFutures.futures = [] := by
  cases body <;> rfl

/-- Somebody has the sole future on `n`, or is about to pass its value to
a continuation. -/
def Reads (objs : Multiset (Obj F)) (n : ℕ) : Prop :=
  .future true n ∈ objs ∨ ∃ s a, .running s a ∈ objs ∧ a.parent = n

/-- A sequence stays until it is moved from. -/
theorem Touch.futures {body : Body F} (ht : Touch c e rem s nd body add) :
    body.futures = nd.body.futures ∨
      (body.futures = [] ∧ ∃ n, Resolves c n s .futures ∧ Reads rem n) := by
  cases ht with
  | schedule _ _ _ a hlock hb | run _ _ _ a hlock hb =>
    rw [hb]
    exact .inl rfl
  | take n _ _ hr => exact .inr ⟨by simp, n, hr, .inl (by simp)⟩
  | invokeNext n _ a _ _ _ hr => exact .inr ⟨by simp, a.parent, hr, .inr ⟨n, a, by simp, rfl⟩⟩
  | _ => simp

theorem Settle.futures {x : Storage V E} {clean : Body F → Body F}
    (hs : Settle c e rem s x clean add) (body : Body F) : (clean body).futures = body.futures := by
  cases hs with
  | abandon => exact Body.clean_futures _ _
  | _ => rfl

/-- **A sequence stays**, unless it was read by somebody who takes it. -/
theorem Step.futures (h : Wf c) (hst : Step c e c') (hn : c.nodes n = some nd)
    (hn' : c'.nodes n = some nd') :
    nd'.body.futures = nd.body.futures ∨
      (nd'.body.futures = [] ∧ ∃ m, Resolves c m n .futures ∧ Reads c.objs m) := by
  cases hst.node hn' with
  | same hm => exact .inl (by rw [Option.some.inj (hn.symm.trans hm)])
  | spawn hf =>
    subst hf
    exact absurd (h.bound _ _ hn) (lt_irrefl _)
  | settle hm hempty hs =>
    obtain rfl := Option.some.inj (hn.symm.trans hm)
    exact .inl (hs.futures _)
  | unwrap hm | execute hm =>
    obtain rfl := Option.some.inj (hn.symm.trans hm)
    exact .inl rfl
  | touch hm ht ho =>
    obtain rfl := Option.some.inj (hn.symm.trans hm)
    refine ht.futures.imp_right fun ⟨hnil, m, hr, hread⟩ => ⟨hnil, m, hr, ?_⟩
    rcases hread with hmem | ⟨s, a, hmem, ha⟩
    · exact .inl (mem_of_rem ho hmem)
    · exact .inr ⟨s, a, mem_of_rem ho hmem, ha⟩

/-! ## Every input is registered -/

/-- **Where input `i` of `w` is**: the loop of `make` has not come to it,
its closure is in the list, or it is ready. -/
def Registered (c : Config V E F) : Prop :=
  ∀ w nd i f, c.nodes w = some nd → nd.body.futures[i]? = some f →
    (∃ j ≤ i, .making w j ∈ c.objs) ∨ .linked f.2 (.combine w i) ∈ c.objs ∨
      c.isExecuted f.2 = true

theorem registered_init : Registered (init : Config V E F) := by
  intro w nd i f hn
  simp [init] at hn

/-- A new combinator starts with its loop before the first input. -/
theorem Spawn.making (hs : Spawn c e rem nd add) (hne : nd.body.futures ≠ []) :
    .making c.fresh 0 ∈ add := by
  cases hs with
  | whenAll | whenAny => simp
  | readySequence body hbody =>
    rcases hbody with rfl | rfl <;> exact absurd rfl hne
  | _ => exact absurd rfl hne

/-- **The step lemma.** -/
theorem Registered.step (h : Wf c) (hr : Registered c) (hst : Step c e c') : Registered c' := by
  intro w nd' i f hn' hi
  have hf : Owned c' f.2 := owned_of_futures hn' (List.mem_of_getElem? hi)
  obtain ⟨ndf, hndf⟩ := (h.step hst).alive _ hf
  have hready : c.isExecuted f.2 = true → c'.isExecuted f.2 = true := fun hex => by
    rw [isExecuted_eq hndf]
    exact hst.isExecuted h hex hndf
  by_cases hlt : w < c.fresh
  · obtain ⟨nd, hn⟩ := hst.old hlt hn'
    have hfut : nd'.body.futures = nd.body.futures := by
      refine (hst.futures h hn hn').resolve_right ?_
      rintro ⟨hnil, -⟩
      rw [hnil] at hi
      simp at hi
    rw [hfut] at hi
    rcases hr w nd i f hn hi with ⟨j, hj, hmem⟩ | hmem | hex
    · cases hst.making hmem with
      | same hmem => exact .inl ⟨j, hj, hmem⟩
      | pending f' nd₁ hn₁ hi' hmem hlinked _ =>
        obtain rfl := Option.some.inj (hn.symm.trans hn₁)
        by_cases hij : j = i
        · subst hij
          obtain rfl := Option.some.inj (hi.symm.trans hi')
          exact .inr (.inl hlinked)
        · exact .inl ⟨j + 1, by omega, hmem⟩
      | ready f' nd₁ hn₁ hi' hmem hex =>
        obtain rfl := Option.some.inj (hn.symm.trans hn₁)
        by_cases hij : j = i
        · subst hij
          obtain rfl := Option.some.inj (hi.symm.trans hi')
          exact .inr (.inr (hready hex))
        · exact .inl ⟨j + 1, by omega, hmem⟩
      | finish nd₁ hn₁ hlen =>
        obtain rfl := Option.some.inj (hn.symm.trans hn₁)
        have := (List.getElem?_eq_some_iff.mp hi).1
        omega
    · rcases hst.linked hmem with hmem | ⟨-, -, hex⟩ | ⟨-, hun⟩
      · exact .inr (.inl hmem)
      · exact .inr (.inr hex)
      · exact absurd (owned_of_futures hn (List.mem_of_getElem? hi)) hun
    · exact .inr (.inr (hready hex))
  · cases hst.node hn' with
    | spawn hw hs ho ho' =>
      subst hw
      refine .inl ⟨0, Nat.zero_le _, ?_⟩
      rw [ho']
      refine Multiset.mem_add.mpr (.inl (hs.making ?_))
      exact List.ne_nil_of_mem (List.mem_of_getElem? hi)
    | same hn | settle hn | unwrap hn | touch hn | execute hn => exact absurd (h.bound _ _ hn) hlt

/-! ## The closures of the combinators -/

variable {Q R : ℕ → ℕ → ℕ → Prop}

/-- The closure that a combinator left in the list of a state, as that of
an input, satisfies `Q`; and `R` once it has left the list. -/
def Obj.Combines (Q R : ℕ → ℕ → ℕ → Prop) : Obj F → Prop
  | .linked t (.combine w i) => Q t w i
  | .queued t (.combine w i) => R t w i
  | _ => True

/-- A closure that is none of a combinator says nothing about inputs. -/
theorem push_combines {k : Closure} (hk : ∀ w i, k ≠ .combine w i) :
    (c.push t k : Obj F).Combines Q R := by
  unfold Config.push
  split <;> cases k <;> first | trivial | exact absurd rfl (hk _ _)

theorem inputObjs_combines {l : List Input} (h : o ∈ inputObjs l) : o.Combines Q R := by
  obtain ⟨f, -, rfl⟩ := mem_inputObjs.mp h
  trivial

/-- A closure of a combinator is left only with an input of it. -/
theorem Move.combines (hm : Move c e rem add)
    (hQ : ∀ w i nd f, c.nodes w = some nd → nd.body.futures[i]? = some f → Q f.2 w i)
    (hmem : o ∈ add) : o.Combines Q R := by
  cases hm with
  | register w i nd f hn hi =>
    simp only [Multiset.insert_eq_cons, Multiset.mem_cons, Multiset.mem_singleton] at hmem
    rcases hmem with rfl | rfl
    · trivial
    · exact hQ w i nd f hn hi
  | peek =>
    simp only [Multiset.mem_cons] at hmem
    rcases hmem with rfl | hmem
    · trivial
    · exact inputObjs_combines hmem
  | invokeNextShared =>
    simp only [Multiset.mem_cons] at hmem
    rcases hmem with rfl | rfl | hmem
    · trivial
    · trivial
    · exact inputObjs_combines hmem
  | notify | detach | subscribe =>
    simp only [Multiset.insert_eq_cons, Multiset.mem_cons, Multiset.mem_singleton] at hmem
    rcases hmem with rfl | rfl
    · trivial
    · exact push_combines (by simp)
  | _ =>
    simp_all
    try grind [Obj.Combines]

theorem Spawn.combines (hs : Spawn c e rem nd add) (hmem : o ∈ add) : o.Combines Q R := by
  cases hs with
  | attach a =>
    simp only [Multiset.mem_cons, mem_keeps] at hmem
    rcases hmem with rfl | rfl | ⟨-, -, rfl⟩
    · trivial
    · exact push_combines (by simp)
    · trivial
  | _ =>
    simp_all
    grind [Obj.Combines]

theorem Settle.combines {x : Storage V E} {clean : Body F → Body F}
    (hs : Settle c e rem s x clean add) (hmem : o ∈ add) : o.Combines Q R := by
  cases hs with
  | ret g s r =>
    obtain ⟨-, rfl⟩ := mem_cleanup.mp hmem
    trivial
  | _ => simp_all [Obj.Combines]

theorem Touch.combines {body : Body F} (ht : Touch c e rem s nd body add) (hmem : o ∈ add) :
    o.Combines Q R := by
  cases ht with
  | notify | finish =>
    simp only [Multiset.mem_cons, mem_executeIf] at hmem
    rcases hmem with rfl | ⟨-, rfl⟩ <;> trivial
  | register =>
    simp only [Multiset.mem_cons, mem_executeIf] at hmem
    rcases hmem with rfl | rfl | ⟨-, rfl⟩ <;> trivial
  | take =>
    simp only [Multiset.mem_cons] at hmem
    rcases hmem with rfl | hmem
    · trivial
    · exact inputObjs_combines hmem
  | invokeNext =>
    simp only [Multiset.mem_cons] at hmem
    rcases hmem with rfl | rfl | hmem
    · trivial
    · trivial
    · exact inputObjs_combines hmem
  | _ => simp_all <;> grind [Obj.Combines]

/-- **The rule for closures of combinators**: those that were there
before, those `make` leaves on the inputs, and those a list that is
closed lets go. -/
theorem Step.combines (hst : Step c e c') (hold : ∀ o ∈ c.objs, o.Combines Q R)
    (hQ : ∀ w i nd f, c.nodes w = some nd → nd.body.futures[i]? = some f → Q f.2 w i)
    (hR : ∀ t w i, e = .execute t → Q t w i → R t w i) :
    ∀ o ∈ c'.objs, o.Combines Q R := by
  refine hst.forall_objs hold ?_ ?_ ?_ ?_ ?_ ?_
  · exact fun hm _ o hmem => hm.combines hQ hmem
  · exact fun hs _ _ o hmem => hs.combines hmem
  · exact fun hs _ _ _ => ⟨trivial, fun o hmem => hs.combines hmem⟩
  · exact fun _ _ _ _ => ⟨trivial, fun _ => trivial⟩
  · exact fun ht _ _ o hmem => ht.combines hmem
  · intro s rest nd he ho _ _
    refine ⟨trivial, fun k hk => ?_⟩
    have hk' : (Obj.linked s k : Obj F).Combines Q R := hold _ hk
    cases k with
    | combine w i => exact hR s w i he hk'
    | _ => trivial

/-- The closure a combinator left at position `i` is about that input, as
long as the combinator is not ready. -/
def Placement (c : Config V E F) (t w i : ℕ) : Prop :=
  ∀ nd, c.nodes w = some nd → nd.executed = false → ∃ u, nd.body.futures[i]? = some (u, t)

/-- **Each closure is about the input in whose list it was left.** -/
def Placed (c : Config V E F) : Prop :=
  ∀ o ∈ c.objs, o.Combines (Placement c) (Placement c)

theorem placed_init : Placed (init : Config V E F) := by simp [Placed, init]

/-- What is read is ready. -/
theorem Resolves.executed {l : ℕ} {x : Outcome V E} (h : Resolves c n l x) :
    c.isExecuted l = true := by
  induction h with
  | leaf hn hex => rw [isExecuted_eq hn, hex]
  | inner _ _ _ _ _ ih => exact ih

/-- Positions do not change while the combinator is not ready. -/
theorem Placement.step (h : Wf c) (hst : Step c e c') (hlt : w < c.fresh)
    (hp : Placement c t w i) : Placement c' t w i := by
  intro nd' hn' hex'
  obtain ⟨nd, hn⟩ := hst.old hlt hn'
  have hex : nd.executed = false := by
    by_contra hne
    rw [(hst.node_le h hn hn').executed (by simpa using hne)] at hex'
    cases hex'
  rw [(hst.futures h hn hn').resolve_right]
  · exact hp nd hn hex
  · rintro ⟨-, m, hr, -⟩
    have hready := hr.executed
    rw [isExecuted_eq hn, hex] at hready
    cases hready

/-- **The step lemma.** -/
theorem Placed.step (h : Wf c) (hp : Placed c) (hst : Step c e c') : Placed c' := by
  refine hst.combines (fun o ho => ?_) (fun w i nd f hn hi => ?_) fun _ _ _ _ hp => hp
  · have hplaced := hp o ho
    cases o with
    | linked t k | queued t k =>
      cases k with
      | combine w i =>
        exact Placement.step h hst (h.names _ ho w (by simp [Obj.names, Closure.names])) hplaced
      | _ => trivial
    | _ => trivial
  · refine Placement.step h hst (h.bound w nd hn) fun nd' hn' _ => ?_
    obtain rfl := Option.some.inj (hn.symm.trans hn')
    exact ⟨f.1, hi⟩

end Futures

end PortableConcurrency
