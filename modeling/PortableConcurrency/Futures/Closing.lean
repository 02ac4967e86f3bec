import PortableConcurrency.Futures.Making

/-!
# The calls that work on a combinator

The loop of `make`, the closures it leaves on the inputs and the calls
that close the list. What a step does to a combinator it does to their
numbers as well.
-/

namespace PortableConcurrency

namespace Futures

variable {V E F : Type*} {c c' : Config V E F} {e : Event V E F}
variable {rem add rest : Multiset (Obj F)} {s t n w i : ℕ} {o : Obj F}
variable {nd nd' : Node V E F}

/-! ## Calls that close a list -/

/-- Whether an object is a call that closes the list of `w` next. -/
def Obj.executes (w : ℕ) : Obj F → Bool
  | .execute v => v = w
  | _ => false

@[simp] theorem executes_inputObjs (l : List Input) :
    tally (Obj.executes w) (inputObjs l : Multiset (Obj F)) = 0 :=
  tally_inputObjs (fun _ _ => rfl) l

@[simp] theorem executes_sharedObjs (l : List Input) :
    tally (Obj.executes w) (sharedObjs l : Multiset (Obj F)) = 0 :=
  tally_inputObjs (fun _ _ => rfl) _

@[simp] theorem executes_keeps (a : Action F) : tally (Obj.executes w) a.keeps = 0 :=
  tally_keeps (fun _ _ => rfl) a

@[simp] theorem executes_cleanup (h : Caller) (n : ℕ) :
    tally (Obj.executes w) (cleanup h n : Multiset (Obj F)) = 0 := tally_cleanup (fun _ => rfl) h n

/-- A closure in a list closes no list by itself. -/
theorem push_executes (k : Closure) : (c.push t k : Obj F).executes w = false := by
  unfold Config.push
  split <;> rfl

theorem executes_unlink (o : Obj F) (t : ℕ) : (o.unlink t).executes w = o.executes w := by
  cases o with
  | linked t' k =>
    simp only [Obj.unlink]
    split <;> rfl
  | _ => rfl

/-- No callback of `unwrap` closes the list of a combinator. -/
theorem Move.executes (hm : Move c e rem add) (hk : ∀ o ∈ rem, o.Kinded c)
    (hn : c.nodes w = some nd) (hcomb : nd.body.kind = .combinator) :
    tally (Obj.executes w) add = tally (Obj.executes w) rem := by
  cases hm with
  | notify | detach | subscribe =>
    simp only [Multiset.insert_eq_cons, tally_cons, tally_singleton, push_executes]
    simp [Obj.executes]
  | callUnwrap t s =>
    have hs : s ≠ w := by
      rintro rfl
      exact (hk (.queued t (.unwrapCb s)) (by simp)).1 nd hn hcomb
    simp [Obj.executes, hs]
  | _ => simp [Obj.executes]

/-- The objects that come with a result close no list. -/
theorem Settle.executes {x : Storage V E} {clean : Body F → Body F}
    (hs : Settle c e rem n x clean add) :
    tally (Obj.executes w) add = tally (Obj.executes w) rem := by
  cases hs <;> simp [Obj.executes]

/-- A new state closes no list. -/
theorem Spawn.executes (hs : Spawn c e rem nd add) :
    tally (Obj.executes w) add = tally (Obj.executes w) rem := by
  cases hs with
  | attach a =>
    simp only [tally_cons, push_executes]
    simp [Obj.executes]
  | _ => simp [Obj.executes]

/-- Another combinator closes another list. -/
theorem Touch.executes {body : Body F} (ht : Touch c e rem s nd body add) (hne : s ≠ w) :
    tally (Obj.executes w) add = tally (Obj.executes w) rem := by
  cases ht <;> simp [Obj.executes, tally_executeIf, hne]

/-- Who settles a state does not settle a combinator. -/
theorem Settle.not_combinator {x : Storage V E} {clean : Body F → Body F}
    (hs : Settle c e rem s x clean add) (hk : ∀ o ∈ rem, o.Kinded c) (hn : c.nodes s = some nd) :
    nd.body.kind ≠ .combinator := by
  cases hs with
  | setValue u | setException u =>
    rcases hk (.handle .promise u s) (by simp) nd hn with hp | hp <;> simp [hp]
  | abandon g u =>
    have hg := hk (.handle g u s) (by simp)
    cases g with
    | promise => rcases hg nd hn with hp | hp <;> simp [hp]
    | task => simp [hg nd hn]
    | action => simp [hg.2 nd hn]
  | passError s l a =>
    have ha : HasKind c s .cnt := hk (.running s a) (by simp)
    simp [ha nd hn]
  | ret g s r =>
    have hg := hk (.invoked g s) (by simp)
    cases g <;> simp [hg nd hn]

/-- No user function is called for a combinator. -/
theorem invoked_not_combinator {g : Caller} (hk : (Obj.invoked g s : Obj F).Kinded c)
    (hn : c.nodes s = some nd) : nd.body.kind ≠ .combinator := by
  cases g <;> simp [hk nd hn]

theorem Wf.executes_fresh (h : Wf c) : tally (Obj.executes c.fresh) c.objs = 0 := by
  refine tally_eq_zero fun o ho => ?_
  cases o with
  | execute v => simpa [Obj.executes] using (h.names _ ho v (by simp [Obj.names])).ne
  | _ => rfl

theorem mem_of_executes (h : 0 < tally (Obj.executes w) c.objs) : .execute w ∈ c.objs := by
  obtain ⟨o, ho, hex⟩ := exists_of_tally_pos h
  cases o with
  | execute v =>
    obtain rfl : v = w := by simpa [Obj.executes] using hex
    exact ho
  | _ => simp [Obj.executes] at hex

/-! ## What a step does to a combinator -/

/-- **What can have become of a combinator**, of the calls that close its
list, and of its loop. -/
inductive CombinatorStep (c : Config V E F) (e : Event V E F) (c' : Config V E F) (w : ℕ)
    (nd : Node V E F) : Node V E F → Prop
  | same (hexec : tally (Obj.executes w) c'.objs = tally (Obj.executes w) c.objs)
      (hmakes : tally (Obj.makes w) c'.objs = tally (Obj.makes w) c.objs) :
      CombinatorStep c e c' w nd nd
  | notify (t pos : ℕ) (hmem : .queued t (.combine w pos) ∈ c.objs)
      (hexec : tally (Obj.executes w) c'.objs = tally (Obj.executes w) c.objs +
        if (nd.body.notify pos).2 then 1 else 0)
      (hmakes : tally (Obj.makes w) c'.objs = tally (Obj.makes w) c.objs) :
      CombinatorStep c e c' w nd { nd with body := (nd.body.notify pos).1 }
  | register (i : ℕ) (f : Input) (hmem : .making w i ∈ c.objs)
      (hi : nd.body.futures[i]? = some f) (hready : c.isExecuted f.2 = true)
      (hexec : tally (Obj.executes w) c'.objs = tally (Obj.executes w) c.objs +
        if (nd.body.notify i).2 then 1 else 0)
      (hmakes : tally (Obj.makes w) c'.objs = tally (Obj.makes w) c.objs) :
      CombinatorStep c e c' w nd { nd with body := (nd.body.notify i).1 }
  | finish (i : ℕ) (hmem : .making w i ∈ c.objs) (hi : i = nd.body.futures.length)
      (hexec : tally (Obj.executes w) c'.objs = tally (Obj.executes w) c.objs +
        if nd.body.finish.2 then 1 else 0)
      (hmakes : tally (Obj.makes w) c'.objs + 1 = tally (Obj.makes w) c.objs) :
      CombinatorStep c e c' w nd { nd with body := nd.body.finish.1 }
  | take (m : ℕ) (hr : Resolves c m w .futures)
      (hexec : tally (Obj.executes w) c'.objs = tally (Obj.executes w) c.objs)
      (hmakes : tally (Obj.makes w) c'.objs = tally (Obj.makes w) c.objs) :
      CombinatorStep c e c' w nd { nd with body := nd.body.moveFutures }
  | execute (he : e = .execute w) (hmem : .execute w ∈ c.objs)
      (hexec : tally (Obj.executes w) c'.objs + 1 = tally (Obj.executes w) c.objs)
      (hmakes : tally (Obj.makes w) c'.objs = tally (Obj.makes w) c.objs) :
      CombinatorStep c e c' w nd { nd with executed := true }

/-- There is nothing to clean in a combinator. -/
theorem Body.clean_of_combinator {body : Body F} (h : body.kind = .combinator) (p : Producer) :
    body.clean p = body := by
  cases body with
  | whenAll | whenAny => cases p <;> rfl
  | _ => cases h

/-- **What a step can do to the body of a combinator.** -/
theorem Touch.combinator {body : Body F} (ht : Touch c e rem w nd body add)
    (ho : c.objs = rem + rest) (ho' : c'.objs = add + rest) (hcomb : nd.body.kind = .combinator) :
    CombinatorStep c e c' w nd { nd with body := body } := by
  have hmakes := ht.makes (w := w)
  have hmem : ∀ o ∈ rem, o ∈ c.objs := fun o hr => mem_of_rem ho hr
  have hkeep : e ≠ .finish w → tally (Obj.makes w) c'.objs = tally (Obj.makes w) c.objs :=
    fun hne => by rw [ho, ho', tally_add, tally_add, hmakes.1 hne]
  have hexec : ∀ k, tally (Obj.executes w) add = tally (Obj.executes w) rem + k →
      tally (Obj.executes w) c'.objs = tally (Obj.executes w) c.objs + k := by
    intro k hk
    rw [ho, ho', tally_add, tally_add, hk]
    omega
  cases ht with
  | abandon | clean =>
    rw [Body.clean_of_combinator hcomb]
    exact .same (hexec 0 (by simp [Obj.executes])) (hkeep (by simp))
  | schedule _ _ _ _ _ hb | run _ _ _ _ _ hb =>
    rw [hb] at hcomb
    cases hcomb
  | notify t _ pos =>
    refine .notify t pos (hmem _ (by simp)) (hexec _ ?_) (hkeep (by simp))
    simp [Obj.executes, tally_executeIf]
  | register _ i _ f hi hready =>
    refine .register i f (hmem _ (by simp)) hi hready (hexec _ ?_) (hkeep (by simp))
    simp [Obj.executes, tally_executeIf]
  | finish _ i _ hi =>
    refine .finish i (hmem _ (by simp)) hi (hexec _ ?_) ?_
    · simp [Obj.executes, tally_executeIf]
    · have := hmakes.2 rfl
      rw [ho, ho', tally_add, tally_add]
      omega
  | take m _ _ hr => exact .take m hr (hexec 0 (by simp [Obj.executes])) (hkeep (by simp))
  | invokeNext s _ a _ _ _ hr =>
    exact .take a.parent hr (hexec 0 (by simp [Obj.executes])) (hkeep (by simp))

/-- **The inversion lemma for combinators.** -/
theorem Step.combinator (h : Inv c) (hst : Step c e c') (hn : c.nodes w = some nd)
    (hn' : c'.nodes w = some nd') (hcomb : nd.body.kind = .combinator) :
    CombinatorStep c e c' w nd nd' := by
  have hw : w ≠ c.fresh := (h.wf.bound w nd hn).ne
  have hkind : ∀ {rem rest : Multiset (Obj F)}, c.objs = rem + rest → ∀ o ∈ rem, o.Kinded c :=
    fun ho o hr => h.lists.kinded o (mem_of_rem ho hr)
  have hmakes := (hst.makes hw).1
  cases hst with
  | move hm ho =>
    obtain rfl := Option.some.inj (hn.symm.trans hn')
    refine .same ?_ (hmakes ?_)
    · rw [ho, tally_add, tally_add, hm.executes (hkind ho) hn hcomb]
    · rintro rfl
      cases hm
  | spawn hs ho =>
    obtain ⟨rfl, -⟩ | ⟨-, hm⟩ := setNode_eq hn'
    · exact absurd rfl hw
    obtain rfl := Option.some.inj (hn.symm.trans hm)
    refine .same ?_ (hmakes ?_)
    · rw [ho, tally_add, tally_add, hs.executes]
    · rintro rfl
      cases hs
  | @settle _ rem add rest s x clean nds hs ho hnd hempty =>
    obtain ⟨rfl, rfl⟩ | ⟨hne, hm⟩ := setNode_eq hn'
    · obtain rfl := Option.some.inj (hn.symm.trans hnd)
      exact absurd hcomb (hs.not_combinator (hkind ho) hn)
    obtain rfl := Option.some.inj (hn.symm.trans hm)
    refine .same ?_ (hmakes ?_)
    · simp [ho, hs.executes, Obj.executes, hne.symm]
    · rintro rfl
      cases hs
  | @unwrap g s t u rest nds ho hnd =>
    obtain ⟨rfl, rfl⟩ | ⟨-, hm⟩ := setNode_eq hn'
    · obtain rfl := Option.some.inj (hn.symm.trans hnd)
      have hk : (Obj.invoked g w : Obj F).Kinded c := hkind ho _ (by simp)
      exact absurd hcomb (invoked_not_combinator hk hn)
    obtain rfl := Option.some.inj (hn.symm.trans hm)
    refine .same ?_ (hmakes (by simp))
    simp [ho, Obj.executes]
  | @touch _ rem add rest s nds body ht ho hnd =>
    obtain ⟨rfl, rfl⟩ | ⟨hne, hm⟩ := setNode_eq hn'
    · obtain rfl := Option.some.inj (hn.symm.trans hnd)
      exact ht.combinator ho rfl hcomb
    obtain rfl := Option.some.inj (hn.symm.trans hm)
    refine .same ?_ (hmakes ?_)
    · rw [ho, tally_add, tally_add, ht.executes hne.symm]
    · rintro rfl
      cases ht
      exact hne rfl
  | @execute s rest nds ho hnd =>
    have hunlink := tally_map_of _ (fun o => executes_unlink (w := w) o s) rest
    obtain ⟨rfl, rfl⟩ | ⟨hne, hm⟩ := setNode_eq hn'
    · obtain rfl := Option.some.inj (hn.symm.trans hnd)
      refine .execute rfl (mem_of_rem ho (by simp)) ?_ (hmakes (by simp))
      rw [tally_cons, hunlink, ho, tally_add, tally_singleton]
      simp [Obj.executes]
      omega
    obtain rfl := Option.some.inj (hn.symm.trans hm)
    refine .same ?_ (hmakes (by simp))
    rw [tally_cons, hunlink, ho, tally_add, tally_singleton]
    simp [Obj.executes, hne.symm]
  | @destroy s nds hnd hun =>
    have hne : w ≠ s := by
      rintro rfl
      simp at hn'
    obtain rfl := Option.some.inj (hn.symm.trans (by simpa [hne] using hn'))
    refine .same (tally_filter_of _ fun o _ hex => ?_) (hmakes (by simp))
    cases o with
    | execute => simp [Obj.isLinked]
    | _ => simp [Obj.executes] at hex

/-! ## Registered notifications -/

/-- A notification that has been registered and has not run. -/
def Obj.notifies (w : ℕ) : Obj F → Bool
  | .linked _ (.combine v _) => v = w
  | .queued _ (.combine v _) => v = w
  | _ => false

/-- A combinator is notified by its closures. -/
theorem Obj.eq_of_notifies (h : o.notifies w = true) :
    ∃ t i, o = .linked t (.combine w i) ∨ o = .queued t (.combine w i) := by
  cases o with
  | linked t k =>
    cases k with
    | combine v i =>
      obtain rfl : v = w := by simpa [Obj.notifies] using h
      exact ⟨t, i, .inl rfl⟩
    | _ => simp [Obj.notifies] at h
  | queued t k =>
    cases k with
    | combine v i =>
      obtain rfl : v = w := by simpa [Obj.notifies] using h
      exact ⟨t, i, .inr rfl⟩
    | _ => simp [Obj.notifies] at h
  | _ => simp [Obj.notifies] at h

/-- A notification to come is about an input that is in the sequence. -/
theorem Assembled.notifies_input (h : Assembled c) (hn : c.nodes w = some nd)
    (hex : nd.executed = false) (ho : o ∈ c.objs) (hnot : o.notifies w = true) :
    ∃ u t i, nd.body.futures[i]? = some (u, t) ∧
      (o = .linked t (.combine w i) ∨ o = .queued t (.combine w i)) := by
  obtain ⟨t, i, rfl | rfl⟩ := Obj.eq_of_notifies hnot
  · obtain ⟨u, hu⟩ := h.placed _ ho nd hn hex
    exact ⟨u, t, i, hu, .inl rfl⟩
  · obtain ⟨u, hu⟩ := h.placed _ ho nd hn hex
    exact ⟨u, t, i, hu, .inr rfl⟩

/-- Between operations a combinator that is not ready waits for an open
input. -/
theorem Assembled.notifies_idle (h : Assembled c) (hn : c.nodes w = some nd)
    (hex : nd.executed = false) (hidle : Idle c)
    (hclosed : ∀ f ∈ nd.body.futures, Closed c f.2) : tally (Obj.notifies w) c.objs = 0 := by
  refine tally_eq_zero fun o ho => ?_
  by_contra hnot
  obtain ⟨u, t, i, hi, rfl | rfl⟩ := h.notifies_input hn hex ho (by simpa using hnot)
  · obtain ⟨ndt, hnt, hopen⟩ := h.lists.linked t _ ho
    have hclosed := hclosed _ (List.mem_of_getElem? hi) ndt hnt
    rw [hopen] at hclosed
    cases hclosed
  · have := hidle _ ho
    simp [Obj.inProgress] at this

/-- No combinator is being made when nothing is going on. -/
theorem idle_no_making (hidle : Idle c) : tally (Obj.makes w) c.objs = 0 := by
  refine tally_eq_zero fun o ho => ?_
  have := hidle o ho
  cases o with
  | making => simp [Obj.inProgress] at this
  | _ => rfl

end Futures

end PortableConcurrency
