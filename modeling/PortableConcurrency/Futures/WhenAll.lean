import PortableConcurrency.Futures.Closing

/-!
# `when_all`

`operations_remains_` counts the notifications that are still to come:
those of the closures in the lists of the inputs and of the closures that
have left them, those of the inputs `make` has not come to, and one of
`make` itself. Whoever brings it to zero closes the list, so it is closed
once, and not before `make` is through and every input is ready.
-/

namespace PortableConcurrency

namespace Futures

variable {V E F : Type*} {c c' : Config V E F} {e : Event V E F}
variable {rem add rest : Multiset (Obj F)} {s t n w i : ℕ} {o : Obj F}
variable {nd nd' : Node V E F}

/-! ## Notifications to come -/

/-- How many notifications of `w`, which has `n` inputs, are to come from
an object. -/
def Obj.due (w n : ℕ) : Obj F → ℕ
  | .making v i => if v = w then n - i + 1 else 0
  | .linked _ (.combine v _) => if v = w then 1 else 0
  | .queued _ (.combine v _) => if v = w then 1 else 0
  | _ => 0

/-- Futures notify nobody. -/
theorem due_inputObjs (l : List Input) :
    weigh (Obj.due w n) (inputObjs l : Multiset (Obj F)) = 0 := by
  refine weigh_eq_zero fun o ho => ?_
  obtain ⟨f, -, rfl⟩ := mem_inputObjs.mp ho
  rfl

theorem due_keeps (a : Action F) : weigh (Obj.due w n) a.keeps = 0 := by
  refine weigh_eq_zero fun o ho => ?_
  obtain ⟨-, -, rfl⟩ := mem_keeps.mp ho
  rfl

theorem due_cleanup (h : Caller) (m : ℕ) :
    weigh (Obj.due w n) (cleanup h m : Multiset (Obj F)) = 0 := by
  refine weigh_eq_zero fun o ho => ?_
  obtain ⟨-, rfl⟩ := mem_cleanup.mp ho
  rfl

theorem due_executeIf (b : Bool) (m : ℕ) :
    weigh (Obj.due w n) (executeIf b m : Multiset (Obj F)) = 0 := by
  refine weigh_eq_zero fun o ho => ?_
  obtain ⟨-, rfl⟩ := mem_executeIf.mp ho
  rfl

/-- Neither do closures of others. -/
theorem push_due {k : Closure} (hk : ∀ v i, k ≠ .combine v i) :
    (c.push t k : Obj F).due w n = 0 := by
  unfold Config.push
  split <;> cases k <;> first | rfl | exact absurd rfl (hk _ _)

/-- A notification is due whether its closure is linked or queued. -/
theorem due_unlink (o : Obj F) (t : ℕ) : (o.unlink t).due w n = o.due w n := by
  cases o with
  | linked t' k =>
    simp only [Obj.unlink]
    split <;> cases k <;> rfl
  | _ => rfl

/-- Whether there is a notification to come does not depend on the number
of inputs. -/
theorem Obj.due_eq_zero {m : ℕ} (h : o.due w n = 0) : o.due w m = 0 := by
  cases o with
  | making v i =>
    by_cases hv : v = w <;> simp_all [Obj.due]
  | linked t k | queued t k => cases k <;> simp_all [Obj.due]
  | _ => rfl

theorem weigh_due_eq_zero {m : ℕ} {objs : Multiset (Obj F)} (h : weigh (Obj.due w n) objs = 0) :
    weigh (Obj.due w m) objs = 0 :=
  weigh_eq_zero fun _ ho => Obj.due_eq_zero (Nat.le_zero.mp (h ▸ le_weigh _ ho))

/-- Registration moves a notification from the loop to a closure. -/
theorem Move.due (hm : Move c e rem add) (hn : c.nodes w = some nd) :
    weigh (Obj.due w nd.body.futures.length) add =
      weigh (Obj.due w nd.body.futures.length) rem := by
  cases hm with
  | register v i nd' f hv hi =>
    by_cases hvw : v = w
    · subst hvw
      obtain rfl := Option.some.inj (hn.symm.trans hv)
      have := (List.getElem?_eq_some_iff.mp hi).1
      simp [Obj.due]
      omega
    · simp [Obj.due, hvw]
  | callPlain t k hk => rcases hk with rfl | ⟨_, rfl⟩ <;> simp [Obj.due]
  | callExpired t s k hk => rcases hk with rfl | rfl <;> simp [Obj.due]
  | notify | detach | subscribe =>
    simp only [Multiset.insert_eq_cons, weigh_cons, weigh_singleton]
    rw [push_due (by simp)]
    simp [Obj.due]
  | peek | invokeNextShared => simp [Obj.due, sharedObjs, due_inputObjs]
  | _ => simp [Obj.due]

/-- A step that stores a result leaves what is due. -/
theorem Settle.due {x : Storage V E} {clean : Body F → Body F}
    (hs : Settle c e rem s x clean add) :
    weigh (Obj.due w n) add = weigh (Obj.due w n) rem := by
  cases hs <;> simp [Obj.due, due_cleanup]

/-- So does one that makes another node. -/
theorem Spawn.due (hs : Spawn c e rem nd add) (hne : c.fresh ≠ w) :
    weigh (Obj.due w n) add = weigh (Obj.due w n) rem := by
  cases hs with
  | attach a =>
    simp only [weigh_cons]
    rw [push_due (by simp)]
    simp [Obj.due, due_keeps]
  | _ => simp [Obj.due, due_inputObjs, hne]

/-- So does one that changes another body. -/
theorem Touch.due {body : Body F} (ht : Touch c e rem s nd body add) (hne : s ≠ w) :
    weigh (Obj.due w n) add = weigh (Obj.due w n) rem := by
  cases ht <;> simp [Obj.due, due_inputObjs, due_executeIf, hne]

/-! ## The count -/

variable {l : List Input} {r : ℕ}

theorem Body.clean_whenAll {body : Body F} {h : Producer} :
    body.clean h = .whenAll l r ↔ body = .whenAll l r := by
  cases h <;> cases body <;> simp [Body.clean]

/-- `notify` counts down by one, and goes on at zero. -/
theorem Body.notify_whenAll {body : Body F} {pos : ℕ} (h : (body.notify pos).1 = .whenAll l r) :
    ∃ k, body = .whenAll l k ∧ r = decr k ∧ (body.notify pos).2 = decide (r = 0) := by
  cases body with
  | whenAll l' k =>
    obtain ⟨rfl, rfl⟩ : l' = l ∧ decr k = r := by simpa [Body.notify] using h
    exact ⟨k, rfl, rfl, rfl⟩
  | whenAny l' b i => cases b <;> cases h
  | _ => cases h

/-- So does the end of `make`. -/
theorem Body.finish_whenAll {body : Body F} (h : body.finish.1 = .whenAll l r) :
    ∃ k, body = .whenAll l k ∧ r = decr k ∧ body.finish.2 = decide (r = 0) := by
  cases body with
  | whenAll l' k =>
    obtain ⟨rfl, rfl⟩ : l' = l ∧ decr k = r := by simpa [Body.finish] using h
    exact ⟨k, rfl, rfl, rfl⟩
  | _ => cases h

theorem Body.moveFutures_whenAll {body : Body F} (h : body.moveFutures = .whenAll l r) :
    l = [] ∧ ∃ l', body = .whenAll l' r := by
  cases body with
  | whenAll l' k =>
    obtain ⟨rfl, rfl⟩ : [] = l ∧ k = r := by simpa [Body.moveFutures] using h
    exact ⟨rfl, l', rfl⟩
  | _ => cases h

/-- What `operations_remains_` is, with the objects `objs` around. -/
structure CountedAt (objs : Multiset (Obj F)) (w : ℕ) (l : List Input) (r : ℕ)
    (executed : Bool) : Prop where
  remains : r = weigh (Obj.due w l.length) objs
  once : tally (Obj.executes w) objs + (if executed then 1 else 0) = if r = 0 then 1 else 0

/-- **`operations_remains_` is the number of notifications to come**, and
the list is closed, or about to be, when there are none. -/
def Counted (c : Config V E F) : Prop :=
  ∀ w nd l r, c.nodes w = some nd → nd.body = .whenAll l r →
    CountedAt c.objs w l r nd.executed

theorem counted_init : Counted (init : Config V E F) := by
  intro w nd l r hn
  simp [init] at hn

/-- One notification less to come, and one less to count. -/
theorem CountedAt.notify {k : ℕ} {x : Bool} (hc : CountedAt (rem + rest) w l k x)
    (hdue : weigh (Obj.due w l.length) rem = weigh (Obj.due w l.length) add + 1)
    (hexec : tally (Obj.executes w) add =
      tally (Obj.executes w) rem + if decr k = 0 then 1 else 0) :
    CountedAt (add + rest) w l (decr k) x := by
  obtain ⟨hrem, honce⟩ := hc
  simp only [weigh_add] at hrem
  have hpos : k ≠ 0 := by omega
  have hdecr : decr k = k - 1 := if_neg hpos
  refine ⟨?_, ?_⟩
  · simp only [weigh_add]
    omega
  · simp only [tally_add, hpos, if_false] at honce ⊢
    omega

/-- **The counter says what is due** after a step on the combinator itself. -/
theorem Touch.counted {body : Body F} (ht : Touch c e rem w nd body add)
    (ho : c.objs = rem + rest) (hn : c.nodes w = some nd) (hc : Counted c)
    (hb : body = .whenAll l r) : CountedAt (add + rest) w l r nd.executed := by
  have hat : ∀ {l k}, nd.body = .whenAll l k → CountedAt (rem + rest) w l k nd.executed :=
    fun hb => ho ▸ hc w nd _ _ hn hb
  cases ht with
  | abandon g u | clean =>
    obtain ⟨hrem, honce⟩ := hat (Body.clean_whenAll.mp hb)
    exact ⟨by simpa [Obj.due] using hrem, by simpa [Obj.executes] using honce⟩
  | schedule | run => cases hb
  | notify t _ pos =>
    obtain ⟨k, hk, rfl, hlast⟩ := Body.notify_whenAll hb
    refine (hat hk).notify ?_ ?_
    · simp [Obj.due, due_executeIf]
    · simp [Obj.executes, tally_executeIf, hlast]
  | register _ i _ f hi =>
    obtain ⟨k, hk, rfl, hlast⟩ := Body.notify_whenAll hb
    have hlt : i < l.length := by
      rw [hk] at hi
      exact (List.getElem?_eq_some_iff.mp hi).1
    refine (hat hk).notify ?_ ?_
    · simp [Obj.due, due_executeIf]
      omega
    · simp [Obj.executes, tally_executeIf, hlast]
  | finish _ i _ hi =>
    obtain ⟨k, hk, rfl, hlast⟩ := Body.finish_whenAll hb
    rw [hk] at hi
    refine (hat hk).notify ?_ ?_
    · simp [Obj.due, due_executeIf, hi, Body.futures]
    · simp [Obj.executes, tally_executeIf, hlast]
  | take s _ _ hr | invokeNext s _ a _ hk hu hr =>
    obtain ⟨rfl, l', hk⟩ := Body.moveFutures_whenAll hb
    obtain ⟨hrem, honce⟩ := hat hk
    -- the sequence is moved out of a list that is closed, so nothing is to come
    have hex := hr.executed
    rw [isExecuted_eq hn] at hex
    have hzero : r = 0 := by
      by_contra hne
      simp [hex, hne] at honce
    rw [hzero, weigh_add] at hrem
    have hrest : weigh (Obj.due w ([] : List Input).length) rest = 0 :=
      weigh_due_eq_zero (n := l'.length) (by omega)
    refine ⟨?_, ?_⟩
    · rw [hzero, weigh_add, hrest]
      simp [Obj.due, due_inputObjs]
    · simpa [Obj.executes] using honce

/-- Nothing is to come for a combinator that is not made yet. -/
theorem Wf.due_fresh (h : Wf c) (n : ℕ) : weigh (Obj.due c.fresh n) c.objs = 0 := by
  refine weigh_eq_zero fun o ho => ?_
  have hne : ∀ m ∈ o.names, m ≠ c.fresh := fun m hm => (h.names o ho m hm).ne
  cases o with
  | making v i => simp [Obj.due, hne v (by simp [Obj.names])]
  | linked t k | queued t k =>
    cases k with
    | combine v i => simp [Obj.due, hne v (by simp [Obj.names, Closure.names])]
    | _ => rfl
  | _ => rfl

/-- It says so of a new combinator. -/
theorem Spawn.counted (hs : Spawn c e rem nd add) (h : Wf c) (ho : c.objs = rem + rest)
    (hb : nd.body = .whenAll l r) : CountedAt (add + rest) c.fresh l r nd.executed := by
  have hdue := h.due_fresh l.length
  have hexec := h.executes_fresh
  rw [ho, weigh_add] at hdue
  rw [ho, tally_add] at hexec
  have hdue' : weigh (Obj.due c.fresh l.length) rest = 0 := by omega
  have hexec' : tally (Obj.executes c.fresh) rest = 0 := by omega
  cases hs with
  | whenAll l' =>
    obtain ⟨rfl, rfl⟩ : l' = l ∧ l'.length + 1 = r := by simpa using hb
    exact ⟨by simp [Obj.due, hdue'], by simp [Obj.executes, hexec']⟩
  | readySequence body hbody =>
    rcases hbody with rfl | rfl
    · obtain ⟨rfl, rfl⟩ : [] = l ∧ 0 = r := by simpa using hb
      exact ⟨by simpa [Obj.due] using hdue'.symm, by simp [Obj.executes, hexec']⟩
    · cases hb
  | _ => cases hb

/-- **The step lemma.** -/
theorem Counted.step (h : Assembled c) (hc : Counted c) (hst : Step c e c') : Counted c' := by
  intro w nd' l r hn' hb
  have hkind : ∀ {rem rest : Multiset (Obj F)}, c.objs = rem + rest → ∀ o ∈ rem, o.Kinded c :=
    fun ho o hr => h.lists.kinded o (mem_of_rem ho hr)
  have hcomb : ∀ {nd : Node V E F}, nd.body = .whenAll l r → nd.body.kind = .combinator :=
    fun hb => by rw [hb]; rfl
  have hlen : ∀ {nd : Node V E F}, nd.body = .whenAll l r → nd.body.futures.length = l.length :=
    fun hb => by rw [hb]; rfl
  cases hst with
  | @move _ rem add rest hm ho =>
    obtain ⟨hrem, honce⟩ := hc w nd' l r hn' hb
    have hdue := hm.due hn'
    rw [hlen hb] at hdue
    rw [ho] at hrem honce
    refine ⟨?_, ?_⟩
    · rw [hrem, weigh_add, weigh_add, hdue]
    · rw [← honce, tally_add, tally_add, hm.executes (hkind ho) hn' (hcomb hb)]
  | @spawn _ rem add rest nd hs ho =>
    obtain ⟨rfl, rfl⟩ | ⟨hne, hn⟩ := setNode_eq hn'
    · exact hs.counted h.wf ho hb
    · obtain ⟨hrem, honce⟩ := hc w nd' l r hn hb
      rw [ho] at hrem honce
      refine ⟨?_, ?_⟩
      · rw [hrem, weigh_add, weigh_add, hs.due hne.symm]
      · rw [← honce, tally_add, tally_add, hs.executes]
  | @settle _ rem add rest s x clean nd hs ho hnd hempty =>
    obtain ⟨rfl, rfl⟩ | ⟨hne, hn⟩ := setNode_eq hn'
    · refine absurd ?_ (hs.not_combinator (hkind ho) hnd)
      rw [← hs.kind]
      exact hcomb hb
    · obtain ⟨hrem, honce⟩ := hc w nd' l r hn hb
      rw [ho] at hrem honce
      refine ⟨?_, ?_⟩
      · simpa [Obj.due, hs.due] using hrem
      · simpa [Obj.executes, hs.executes, hne.symm] using honce
  | @unwrap g s t u rest nd ho hnd =>
    obtain ⟨rfl, rfl⟩ | ⟨hne, hn⟩ := setNode_eq hn'
    · have hk := hkind ho (.invoked g w) (by simp)
      have hne := invoked_not_combinator hk hnd
      exact absurd (hcomb hb) hne
    · obtain ⟨hrem, honce⟩ := hc w nd' l r hn hb
      rw [ho] at hrem honce
      refine ⟨?_, ?_⟩
      · simpa [Obj.due, due_cleanup] using hrem
      · simpa [Obj.executes] using honce
  | @touch _ rem add rest s nd body ht ho hnd =>
    obtain ⟨rfl, rfl⟩ | ⟨hne, hn⟩ := setNode_eq hn'
    · exact ht.counted ho hnd hc hb
    · obtain ⟨hrem, honce⟩ := hc w nd' l r hn hb
      rw [ho] at hrem honce
      refine ⟨?_, ?_⟩
      · rw [hrem, weigh_add, weigh_add, ht.due hne.symm]
      · rw [← honce, tally_add, tally_add, ht.executes hne.symm]
  | @execute s rest nd ho hnd =>
    have hat : ∀ {nd : Node V E F}, c.nodes w = some nd → nd.body = .whenAll l r →
        r = weigh (Obj.due w l.length) (rest.map (Obj.unlink s)) ∧
        tally (Obj.executes w) (rest.map (Obj.unlink s)) + (if s = w then 1 else 0) +
          (if nd.executed then 1 else 0) = if r = 0 then 1 else 0 := by
      intro nd hn hb
      obtain ⟨hrem, honce⟩ := hc w nd l r hn hb
      rw [ho] at hrem honce
      rw [weigh_map_of _ fun o => due_unlink o s, tally_map_of _ fun o => executes_unlink o s]
      exact ⟨by simpa [Obj.due] using hrem, by simpa [Obj.executes] using honce⟩
    obtain ⟨rfl, rfl⟩ | ⟨hne, hn⟩ := setNode_eq hn'
    · obtain ⟨hrem, honce⟩ := hat hnd hb
      refine ⟨by simpa [Obj.due] using hrem, ?_⟩
      have hle : (if r = 0 then 1 else 0) ≤ 1 := by split <;> omega
      simp only [tally_cons, Obj.executes]
      simp only [if_true] at honce
      simp
      omega
    · obtain ⟨hrem, honce⟩ := hat hn hb
      exact ⟨by simpa [Obj.due] using hrem, by simpa [Obj.executes, hne.symm] using honce⟩
  | @destroy s nd hnd hun =>
    have hws : w ≠ s := by
      rintro rfl
      simp at hn'
    have hn : c.nodes w = some nd' := by simpa [hws] using hn'
    obtain ⟨hrem, honce⟩ := hc w nd' l r hn hb
    refine ⟨?_, ?_⟩
    · rw [hrem, weigh_filter_of]
      -- an input that is registered on is owned by the sequence
      intro o hmem hdue hl
      cases o with
      | linked t k =>
        obtain rfl : t = s := by simpa [Obj.isLinked] using hl
        cases k with
        | combine v i =>
          have hvw : v = w := by
            by_contra hne
            simp [Obj.due, hne] at hdue
          subst hvw
          have hopen : nd'.executed = false := by
            by_contra hex
            have hpos := le_weigh (Obj.due v l.length) hmem
            simp only [Obj.due, if_true] at hpos
            have hr : r ≠ 0 := by omega
            simp [hr] at honce
            exact hex honce.2
          obtain ⟨u, hu⟩ := h.placed _ hmem nd' hn hopen
          exact hun (owned_of_futures hn (List.mem_of_getElem? hu))
        | _ => simp [Obj.due] at hdue
      | _ => simp [Obj.isLinked] at hl
    · rw [tally_filter_of]
      · exact honce
      · intro o _ hex
        cases o with
        | execute => simp [Obj.isLinked]
        | _ => simp [Obj.executes] at hex

/-! ## The law -/

/-- How many inputs the loop has not come to. -/
def Obj.unregistered (w n : ℕ) : Obj F → ℕ
  | .making v i => if v = w then n - i else 0
  | _ => 0

theorem weigh_due (w n : ℕ) (objs : Multiset (Obj F)) :
    weigh (Obj.due w n) objs =
      weigh (Obj.unregistered w n) objs + tally (Obj.notifies w) objs +
        tally (Obj.makes w) objs := by
  induction objs using Multiset.induction_on with
  | empty => rfl
  | cons o objs ih =>
    simp only [weigh_cons, tally_cons, ih]
    cases o with
    | making v i =>
      by_cases hv : v = w <;> simp [Obj.due, Obj.unregistered, Obj.notifies, Obj.makes, hv]
      omega
    | linked t k | queued t k =>
      cases k with
      | combine v i =>
        by_cases hv : v = w <;> simp [Obj.due, Obj.unregistered, Obj.notifies, Obj.makes, hv]
        omega
      | _ => simp [Obj.due, Obj.unregistered, Obj.notifies, Obj.makes]
    | _ => simp [Obj.due, Obj.unregistered, Obj.notifies, Obj.makes]

/-- A `when_all_state` stays one, and its count does not go up. -/
theorem Step.whenAll (h : Assembled c) (hc : Counted c) (hst : Step c e c')
    (hn : c.nodes w = some nd) (hn' : c'.nodes w = some nd') (hb : nd.body = .whenAll l r) :
    ∃ l' r', nd'.body = .whenAll l' r' ∧ r' ≤ r := by
  have hdecr : ∀ {rem rest : Multiset (Obj F)}, c.objs = rem + rest →
      0 < weigh (Obj.due w l.length) rem → decr r ≤ r := by
    intro rem rest ho hpos
    have hrem := (hc w nd l r hn hb).remains
    rw [ho, weigh_add] at hrem
    have hr : r ≠ 0 := by omega
    simp [decr, hr]
  cases hst.node hn' with
  | same hm => exact ⟨l, r, by rw [Option.some.inj (hm.symm.trans hn), hb], le_rfl⟩
  | spawn hf =>
    subst hf
    exact absurd (h.wf.bound _ _ hn) (lt_irrefl _)
  | settle hm hempty hs =>
    obtain rfl := Option.some.inj (hn.symm.trans hm)
    refine ⟨l, r, ?_, le_rfl⟩
    cases hs with
    | abandon => exact Body.clean_whenAll.mpr hb
    | _ => exact hb
  | unwrap hm | execute hm =>
    obtain rfl := Option.some.inj (hn.symm.trans hm)
    exact ⟨l, r, hb, le_rfl⟩
  | touch hm ht ho =>
    obtain rfl := Option.some.inj (hn.symm.trans hm)
    cases ht with
    | abandon | clean => exact ⟨l, r, Body.clean_whenAll.mpr hb, le_rfl⟩
    | schedule _ _ _ _ _ hb' | run _ _ _ _ _ hb' =>
      rw [hb] at hb'
      cases hb'
    | notify t _ pos =>
      refine ⟨l, decr r, by simp [hb, Body.notify], hdecr ho ?_⟩
      simp [Obj.due]
    | register _ i =>
      refine ⟨l, decr r, by simp [hb, Body.notify], hdecr ho ?_⟩
      simp [Obj.due]
    | finish _ i =>
      refine ⟨l, decr r, by simp [hb, Body.finish], hdecr ho ?_⟩
      simp [Obj.due]
    | take | invokeNext => exact ⟨[], r, by simp [hb, Body.moveFutures], le_rfl⟩

/-- **A `when_all_state` whose loop was given `L`.** -/
structure AllOf (c : Config V E F) (w : ℕ) (L : List Input) : Prop extends Kept c w L where
  body : ∀ nd, c.nodes w = some nd → ∃ l r, nd.body = .whenAll l r
  closed : ∀ nd, c.nodes w = some nd → nd.executed = true → ∀ f ∈ L, Closed c f.2

variable {L : List Input}

/-- Whoever closes the list does so after the last notification. -/
theorem Counted.execute (hc : Counted c) (hn : c.nodes w = some nd) (hb : nd.body = .whenAll l r)
    (hmem : .execute w ∈ c.objs) : r = 0 ∧ nd.executed = false := by
  have honce := (hc w nd l r hn hb).once
  have hpos := tally_pos hmem (p := Obj.executes w) (by simp [Obj.executes])
  by_cases hr : r = 0
  · refine ⟨hr, ?_⟩
    by_contra hex
    simp only [hr, if_true] at honce
    have hex : nd.executed = true := by simpa using hex
    simp only [hex, if_true] at honce
    omega
  · simp only [hr, if_false] at honce
    omega

/-- When no notification is to come, the loop is over and every input is
ready. -/
theorem Counted.all_ready (h : Assembled c) (hc : Counted c) (hn : c.nodes w = some nd)
    (hb : nd.body = .whenAll l 0) :
    (∀ i, .making w i ∉ c.objs) ∧ ∀ f ∈ l, c.isExecuted f.2 = true := by
  have hzero := (hc w nd l 0 hn hb).remains
  have hno : ∀ o ∈ c.objs, o.due w l.length = 0 := fun o ho => by
    have := le_weigh (Obj.due w l.length) ho
    omega
  have hloop : ∀ i, .making w i ∉ c.objs := fun i hmem => by
    have := hno _ hmem
    simp [Obj.due] at this
  refine ⟨hloop, fun f hf => ?_⟩
  obtain ⟨i, hi⟩ := List.mem_iff_getElem?.mp hf
  rcases h.registered w nd i f hn (by rw [hb]; exact hi) with ⟨j, -, hmem⟩ | hmem | hex
  · exact absurd hmem (hloop j)
  · have := hno _ hmem
    simp [Obj.due] at this
  · exact hex

/-- **The step lemma.** -/
theorem AllOf.step (ha : AllOf c w L) (h : Assembled c) (hc : Counted c) (hst : Step c e c')
    (hn : c.nodes w = some nd) : AllOf c' w L := by
  refine ⟨ha.toKept.step h.wf hst hn, fun nd' hn' => ?_, fun nd' hn' hex' f hf => ?_⟩
  · obtain ⟨l, r, hb⟩ := ha.body nd hn
    obtain ⟨l', r', hb', -⟩ := hst.whenAll h hc hn hn' hb
    exact ⟨l', r', hb'⟩
  · have hle := hst.le h.wf (ha.bound f hf)
    have hold : nd.executed = true → Closed c' f.2 := fun hex => (ha.closed nd hn hex f hf).mono hle
    cases hst.node hn' with
    | same hm | settle hm | unwrap hm | touch hm =>
      obtain rfl := Option.some.inj (hn.symm.trans hm)
      exact hold hex'
    | spawn hw =>
      subst hw
      exact absurd (h.wf.bound _ _ hn) (lt_irrefl _)
    | execute hm he ho =>
      obtain rfl := Option.some.inj (hn.symm.trans hm)
      obtain ⟨l, r, hb⟩ := ha.body nd hn
      obtain ⟨rfl, hpend⟩ := hc.execute hn hb (mem_of_rem ho (by simp))
      -- the sequence is still there, and every input of it is ready
      have hfut : l = L := by
        have hl := (ha.futures nd hn).resolve_right fun hm => by
          rw [hpend] at hm
          cases hm.2
        rwa [hb] at hl
      subst hfut
      have hready := (hc.all_ready h hn hb).2 f hf
      refine Closed.mono (fun ndf hnf => ?_) hle
      rwa [isExecuted_eq hnf] at hready

/-- **What holds of `when_all` of `L`** once `make` has allocated its state
`w`. The sequence there is `l`, and `operations_remains_` is `r`. -/
structure WhenAllLaw (c : Config V E F) (w : ℕ) (L : List Input) (nd : Node V E F)
    (l : List Input) (r : ℕ) : Prop where
  /-- the inputs in their order, until they are taken from the ready state -/
  sequence : l = L ∨ (l = [] ∧ nd.executed = true)
  /-- the notifications that have not run, and the one of `make` -/
  remains : r = weigh (Obj.unregistered w L.length) c.objs + tally (Obj.notifies w) c.objs +
    tally (Obj.makes w) c.objs
  one_loop : tally (Obj.makes w) c.objs ≤ 1
  no_wrap : ∀ e c' nd' l' r', Step c e c' → c'.nodes w = some nd' →
    nd'.body = .whenAll l' r' → r' ≤ r
  /-- the list is closed once, when `make` is through and all are ready -/
  once : ∀ c', Step c (.execute w) c' →
    nd.executed = false ∧ (∀ i, .making w i ∉ c.objs) ∧ ∀ f ∈ L, c.isExecuted f.2 = true
  not_before : nd.executed = true → (∀ i, .making w i ∉ c.objs) ∧ ∀ f ∈ L, Closed c f.2
  ready : nd.executed = true → ∀ f ∈ l, c.isExecuted f.2 = true
  /-- whoever runs the last notification goes on to close it -/
  not_after : tally (Obj.makes w) c.objs = 0 → tally (Obj.notifies w) c.objs = 0 →
    nd.executed = true ∨ .execute w ∈ c.objs
  idle : Idle c → (nd.executed = true ↔ ∀ f ∈ L, Closed c f.2)
  empty : L = [] → tally (Obj.makes w) c.objs = 0 → nd.executed = true ∨ .execute w ∈ c.objs

theorem unregistered_eq_zero {objs : Multiset (Obj F)} (h : tally (Obj.makes w) objs = 0) :
    weigh (Obj.unregistered w n) objs = 0 := by
  refine weigh_eq_zero fun o ho => ?_
  have hmakes := not_of_tally_eq_zero h ho
  cases o with
  | making v i =>
    have hne : v ≠ w := by simpa [Obj.makes] using hmakes
    simp [Obj.unregistered, hne]
  | _ => rfl

/-- With no notification to come the list is closed, or about to be. -/
theorem Counted.not_after (hc : Counted c) (hn : c.nodes w = some nd) (hb : nd.body = .whenAll l r)
    (hmakes : tally (Obj.makes w) c.objs = 0) (hnot : tally (Obj.notifies w) c.objs = 0) :
    nd.executed = true ∨ .execute w ∈ c.objs := by
  obtain ⟨hrem, honce⟩ := hc w nd l r hn hb
  rw [weigh_due, unregistered_eq_zero hmakes, hnot, hmakes] at hrem
  by_cases hex : nd.executed = true
  · exact .inl hex
  · refine .inr (mem_of_executes ?_)
    simp only [hrem, hex] at honce
    simp at honce
    omega

theorem AllOf.law (ha : AllOf c w L) (h : Assembled c) (hc : Counted c) (hn : c.nodes w = some nd)
    (hb : nd.body = .whenAll l r) : WhenAllLaw c w L nd l r := by
  have hseq : l = L ∨ (l = [] ∧ nd.executed = true) := by
    have hfut := ha.futures nd hn
    rwa [hb] at hfut
  have hopen : nd.executed = false → nd.body.futures = L := fun hex => by
    rcases hseq with rfl | ⟨-, hex'⟩
    · rw [hb]
      rfl
    · rw [hex] at hex'
      cases hex'
  have hloop : nd.executed = true → r = 0 := fun hex => by
    by_contra hr
    have honce := (hc w nd l r hn hb).once
    simp [hex, hr] at honce
  have hrun : ∀ {c'}, Step c (.execute w) c' → .execute w ∈ c.objs := fun hst => by
    obtain ⟨rest, nd, ho, -⟩ := hst.execute_inv
    exact mem_of_rem ho (by simp)
  refine ⟨hseq, ?_, h.hidden.sole w, ?_, fun c' hst => ?_, fun hex => ?_, fun hex f hf => ?_,
    hc.not_after hn hb, fun hidle => ⟨fun hex => ha.closed nd hn hex, fun hclosed => ?_⟩,
    fun hnil hmakes => ?_⟩
  · rw [← weigh_due]
    rcases hseq with rfl | ⟨rfl, hex⟩
    · exact (hc w nd _ r hn hb).remains
    · -- the sequence was taken, so nothing is to come
      have hrem := (hc w nd [] r hn hb).remains
      rw [hloop hex] at hrem
      rw [hloop hex, weigh_due_eq_zero hrem.symm]
  · intro e c' nd' l' r' hst hn' hb'
    obtain ⟨l₁, r₁, hb₁, hle⟩ := hst.whenAll h hc hn hn' hb
    rw [hb'] at hb₁
    cases hb₁
    exact hle
  · obtain ⟨rfl, hex⟩ := hc.execute hn hb (hrun hst)
    obtain ⟨hmaking, hready⟩ := hc.all_ready h hn hb
    refine ⟨hex, hmaking, fun f hf => hready f ?_⟩
    have hfut := hopen hex
    rw [hb] at hfut
    rwa [← hfut] at hf
  · obtain rfl := hloop hex
    exact ⟨(hc.all_ready h hn hb).1, ha.closed nd hn hex⟩
  · obtain rfl := hloop hex
    exact (hc.all_ready h hn hb).2 f hf
  · by_contra hex
    have hex : nd.executed = false := by simpa using hex
    have hnot := h.notifies_idle hn hex hidle (by rwa [hopen hex])
    rcases hc.not_after hn hb (idle_no_making hidle) hnot with hex' | hmem
    · rw [hex] at hex'
      cases hex'
    · have := hidle _ hmem
      simp [Obj.inProgress] at this
  · by_cases hex : nd.executed = true
    · exact .inl hex
    · refine hc.not_after hn hb hmakes (tally_eq_zero fun o ho => ?_)
      have hex : nd.executed = false := by simpa using hex
      by_contra hnot
      obtain ⟨u, t, i, hi, -⟩ := h.notifies_input hn hex ho (by simpa using hnot)
      rw [hopen hex, hnil] at hi
      simp at hi

/-- What `make` starts with. -/
theorem Step.allOf {c₀ c₁ : Config V E F} (h : Wf c₀) (hst : Step c₀ (.combine w L) c₁)
    (hn : c₁.nodes w = some nd) (hb : nd.body = .whenAll l r) : AllOf c₁ w L := by
  obtain ⟨-, -, hkept, nd₁, hn₁, -, hnil⟩ := hst.combine h
  obtain rfl := Option.some.inj (hn.symm.trans hn₁)
  refine ⟨hkept, fun nd' hn' => ?_, fun nd' hn' hex f hf => ?_⟩
  · obtain rfl := Option.some.inj (hn.symm.trans hn')
    exact ⟨l, r, hb⟩
  · obtain rfl := Option.some.inj (hn.symm.trans hn')
    rw [hnil hex] at hf
    simp at hf

/-- **It holds in every run.** -/
theorem Reachable.counted {ok : Config V E F → Event V E F → Prop} (h : Reachable ok c) :
    Counted c :=
  h.invariant_of (I := Assembled) (J := Counted) (fun _ _ _ hi _ hst => hi.step hst)
    (fun _ _ _ hi _ hj _ hst => hj.step hi hst) assembled_init counted_init

/-- **`when_all` is ready when all inputs are**, whenever they become so
and whatever else is done with them and with the future that it returns. -/
theorem when_all_law {c₀ c₁ : Config V E F} {nd₁ : Node V E F} {l₁ : List Input} {r₁ : ℕ}
    (h : Reachable Unguarded c₀) (hst : Step c₀ (.combine w L) c₁) (hn₁ : c₁.nodes w = some nd₁)
    (hb₁ : nd₁.body = .whenAll l₁ r₁) (hrun : Runs Step Unguarded c₁ c)
    (hn : c.nodes w = some nd) : ∃ l r, nd.body = .whenAll l r ∧ WhenAllLaw c w L nd l r := by
  have h₁ : Reachable Unguarded c₁ := h.tail trivial hst
  have hr : Reachable Unguarded c := h₁.trans hrun
  have hall : AllOf c w L := by
    refine runs_keep (I := fun c => Assembled c ∧ Counted c) (P := fun c => AllOf c w L) ?_ ?_ hrun
      ⟨h₁.assembled, h₁.counted⟩ (h₁.assembled.wf.bound w nd₁ hn₁) hn
      (hst.allOf h.assembled.wf hn₁ hb₁)
    · rintro c e c' ⟨hi, hc⟩ - hst
      exact ⟨hi.step hst, hc.step hi hst⟩
    · rintro c e c' nd nd' ⟨hi, hc⟩ - hst hn - ha
      exact ha.step hi hc hst hn
  obtain ⟨l, r, hb⟩ := hall.body nd hn
  exact ⟨l, r, hb, hall.law hr.assembled hr.counted hn hb⟩

/-- A promise is fulfilled while `make` is about to register its future. -/
theorem when_all_law_of_race : ∃ (c : Config Unit Unit Unit) (nd : Node Unit Unit Unit),
    c.nodes 1 = some nd ∧ ∃ l r, nd.body = .whenAll l r ∧ WhenAllLaw c 1 [(true, 0)] nd l r := by
  have h₀ : Reachable Unguarded (init : Config Unit Unit Unit) := .refl _
  have h₁ := h₀.tail trivial (.spawn (.makePromise false) (Multiset.zero_add _).symm)
  have hst := h₁.next (.spawn (.whenAll [(true, 0)])
    (show _ = inputObjs [(true, 0)] + ({.handle .promise false 0} : Multiset (Obj Unit)) by decide))
  have h₂ := (h₁.tail trivial hst).last
  have h₃ := h₂.tail trivial
    (.settle (.setValue false 0 () (.inr ⟨1, _, rfl, by decide⟩))
      (show _ = _ + ({.making 1 0} : Multiset (Obj Unit)) by decide) rfl rfl)
  have h₄ := h₃.tail trivial
    (.execute (s := 0)
      (show _ = _ + ({.handle .promise false 0, .making 1 0} : Multiset (Obj Unit)) by decide) rfl)
  have h₅ := h₄.tail trivial (.touch (.register 1 0 _ (true, 0) rfl rfl)
    (show _ = _ + ({.held 0, .handle .promise false 0} : Multiset (Obj Unit)) by decide) rfl)
  exact ⟨_, _, rfl, when_all_law h₁ hst rfl rfl h₅ rfl⟩

end Futures

end PortableConcurrency
