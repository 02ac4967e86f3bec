import PortableConcurrency.Timed.Law

/-!
# Every timed wait returns

A call sleeps again only as long as the flag is not set, so what it has
still to do is less when it is: `notify_all` costs nothing then. A call
that is blocked comes back when its time is up, whatever becomes of the
future; before that it stays only where there is no result.
-/

namespace PortableConcurrency

namespace Timed

variable {s t s' : State} {e : Event} {es : List Event} {c d : Call} {o : ℕ} {b : Bool}

/-- What the continuation has still to do. -/
def Cb.cost : Cb → ℕ
  | .captured => 5
  | .linked => 4
  | .called => 3
  | .notifying => 2
  | .returned => 1
  | .destroyed => 0

/-- What a call has still to do when the flag is `b`. -/
def Call.cost (b : Bool) (c : Call) : ℕ :=
  match c.pc with
  | .entering => if b then 2 else 3
  | .woken => if b then 2 else 3
  | .blocked => 2
  | .expired => 1

def State.budget (s : State) : ℕ := s.cb.cost + weigh (Call.cost s.notified) s.calls

/-- The steps of the constructor, the continuation and the calls. -/
def Event.work : Event → ℕ
  | .complete | .vanish | .copy _ _ | .destroy _ | .call _ | .spurious => 0
  | _ => 1

/-- Those of them that do not take time. -/
def Event.prompt : Event → ℕ
  | .expire _ => 0
  | e => e.work

/-- What there is to do after an event. -/
def Event.brings : Event → ℕ
  | .call _ => 3
  | .spurious => 1
  | _ => 0

theorem cost_set_le (b : Bool) (c : Call) : c.cost true ≤ c.cost b := by
  obtain ⟨o, pc⟩ := c
  cases b <;> cases pc <;> simp [Call.cost]

theorem cost_spurious (h : cv.wake c = some d) : d.cost b ≤ c.cost b + 1 := by
  obtain ⟨hpc, rfl⟩ := wake_eq_some.mp h
  simp only [Call.cost, hpc]
  split <;> omega

/-- When the flag is set, being woken is no extra work. -/
theorem weigh_notifyAll (m : Multiset Call) :
    weigh (Call.cost true) (cv.notifyAll m) = weigh (Call.cost true) m := by
  refine weigh_map_of _ (fun c => ?_) m
  cases hw : cv.wake c with
  | none => rfl
  | some d =>
    obtain ⟨hpc, rfl⟩ := wake_eq_some.mp hw
    simp [Call.cost, hpc]

/-- Who notifies has set the flag. -/
theorem Inv.set_of_notifying (hi : Inv s) (hcb : s.cb = .notifying) : s.notified = true := by
  rw [hi.flag]
  exact ⟨hi.ready_of_called (by simp [hcb]) (by simp [hcb]) (by simp [hcb]), by simp [hcb, Cb.past]⟩

theorem Inv.pays (hi : Inv s) (hst : Step s e t) : t.budget + e.work ≤ s.budget + e.brings := by
  unfold State.budget
  cases hst with
  | notify h | refuse h | begin h | discard h | vanish h =>
    simp only [h, State.release, Cb.cost, Event.work, Event.brings]
    omega
  | set h =>
    have hle := weigh_mono (cost_set_le s.notified) s.calls
    simp only [h, Cb.cost, Event.work, Event.brings]
    omega
  | notifyAll h =>
    simp only [h, hi.set_of_notifying h, weigh_notifyAll, Cb.cost, Event.work, Event.brings]
    omega
  | complete | copy | destroy => exact le_rfl
  | @call o hcon ho =>
    have hle : (⟨o, .entering⟩ : Call).cost s.notified ≤ 3 := by
      simp only [Call.cost]
      split <;> omega
    simp only [weigh_cons, Event.work, Event.brings]
    omega
  | @block o pc rest hc hpc hunset =>
    have hcost : (⟨o, pc⟩ : Call).cost s.notified = 3 := by
      rcases hpc with rfl | rfl <;> simp [Call.cost, hunset]
    simp only [hc, weigh_cons, hcost, Event.work, Event.brings]
    simp only [Call.cost]
    omega
  | expire hc | giveUp hc =>
    simp only [hc, weigh_cons, Call.cost, Event.work, Event.brings]
    omega
  | @answer o pc rest hc hpc hset =>
    have hle : 1 ≤ (⟨o, pc⟩ : Call).cost s.notified := by
      cases pc <;> simp [Call.cost, hset]
    simp only [hc, weigh_cons, Event.work, Event.brings]
    omega
  | spurious hc hw =>
    have hle := cost_spurious (b := s.notified) hw
    simp only [hc, weigh_cons, Event.work, Event.brings]
    omega

theorem pays : Pays Step Unguarded Inv State.budget Event.work Event.brings :=
  fun _ _ _ hi _ hst => ⟨hi.step hst, hi.pays hst⟩

/-! ## At rest -/

/-- Where the calls do not go on by themselves they are blocked. -/
theorem blocked_of_rest (hrest : AtRest Step Event.prompt s) : ∀ c ∈ s.calls, c.pc = .blocked := by
  rintro ⟨o, pc⟩ hmem
  obtain ⟨rest, hc⟩ := Multiset.exists_cons_of_mem hmem
  by_contra hpc
  -- a call that has the mutex answers, or goes to sleep
  cases hset : s.notified with
  | true =>
    have := hrest _ _ (.answer hc hpc hset)
    cases this
  | false =>
    cases pc with
    | entering =>
      have := hrest _ _ (.block hc (.inl rfl) hset)
      cases this
    | woken =>
      have := hrest _ _ (.block hc (.inr rfl) hset)
      cases this
    | expired =>
      have := hrest _ _ (.giveUp hc hset)
      cases this
    | blocked => exact hpc rfl

/-- The continuation goes on until it is destroyed, once there is a result. -/
theorem Inv.cb_of_rest (hi : Inv s) (hrest : AtRest Step Event.prompt s) :
    s.cb = .linked ∧ s.future = .pending ∨ s.cb = .destroyed := by
  cases hcb : s.cb with
  | captured =>
    cases hf : s.future with
    | pending =>
      have := hrest _ _ (.notify hcb hf)
      cases this
    | ready =>
      have := hrest _ _ (.refuse hcb hf)
      cases this
    | gone =>
      have := hi.gone hf
      simp [hcb] at this
  | linked =>
    refine .inl ⟨rfl, ?_⟩
    cases hf : s.future with
    | pending => rfl
    | ready =>
      have := hrest _ _ (.begin hcb hf)
      cases this
    | gone =>
      have := hi.gone hf
      simp [hcb] at this
  | called =>
    have := hrest _ _ (.set hcb)
    cases this
  | notifying =>
    have := hrest _ _ (.notifyAll hcb)
    cases this
  | returned =>
    have := hrest _ _ (.discard hcb)
    cases this
  | destroyed => exact .inr rfl

theorem rest_mono (hrest : AtRest Step Event.work s) : AtRest Step Event.prompt s := by
  intro e t hst
  have := hrest e t hst
  cases e <;> first | exact this | rfl

/-- Who has slept long enough does not sleep any more. -/
theorem calls_of_rest (hrest : AtRest Step Event.work s) : s.calls = 0 := by
  refine Multiset.eq_zero_of_forall_notMem ?_
  rintro ⟨o, pc⟩ hmem
  obtain rfl : pc = .blocked := blocked_of_rest (rest_mono hrest) _ hmem
  obtain ⟨rest, hc⟩ := Multiset.exists_cons_of_mem hmem
  have := hrest _ _ (.expire hc)
  cases this

/-- When there is a result nobody has to wait for his time to be up. -/
theorem Inv.returned_of_ready (hi : Inv s) (hrest : AtRest Step Event.prompt s)
    (hready : s.future = .ready) : s.calls = 0 ∧ s.cb = .destroyed := by
  have hcb : s.cb = .destroyed := by
    rcases hi.cb_of_rest hrest with ⟨-, hpend⟩ | hcb
    · rw [hready] at hpend
      cases hpend
    · exact hcb
  refine ⟨Multiset.eq_zero_of_forall_notMem fun c hmem => ?_, hcb⟩
  have hset : s.notified = true := hi.flag.mpr ⟨hready, by simp [hcb, Cb.past]⟩
  have hwake := hi.awake hset (by simp [hcb]) c hmem
  exact wake_eq_none.mp hwake (blocked_of_rest hrest c hmem)

/-- **Every timed wait returns**, whatever the order of the steps. With the
continuation, the calls make no more of them than they bring themselves, and
spurious wakeups. Where they can go on no further all calls have returned,
and the continuation is gone unless the future is still pending; if they only
could by their time being up, they are blocked, and not with a result. There
is always a way to get there. -/
theorem every_wait_returns (hrun : Runs Step Unguarded init s)
    (hmore : Trace Step Unguarded s es t) :
    spent Event.work es ≤ s.budget + spent Event.brings es ∧
      (AtRest Step Event.work t →
        t.calls = 0 ∧ (t.cb = .linked ∧ t.future = .pending ∨ t.cb = .destroyed)) ∧
      (AtRest Step Event.prompt t → (∀ c ∈ t.calls, c.pc = .blocked) ∧
        (t.future = .ready → t.calls = 0 ∧ t.cb = .destroyed)) ∧
      ∃ es' u, Trace Step Unguarded t es' u ∧ (∀ e ∈ es', 0 < e.work) ∧
        AtRest Step Event.work u := by
  obtain ⟨hi, hle⟩ := pays.spent_le hmore (inv_run hrun)
  refine ⟨by omega, ?_, ?_, ?_⟩
  · intro hrest
    exact ⟨calls_of_rest hrest, hi.cb_of_rest (rest_mono hrest)⟩
  · intro hrest
    exact ⟨blocked_of_rest hrest, hi.returned_of_ready hrest⟩
  · refine pays.exists_rest (fun s e he => ⟨trivial, ?_⟩) hi
    cases e with
    | call | spurious => cases he
    | _ => rfl

/-- The future is pending, and somebody waits for it. -/
theorem every_wait_returns_of_blocked : ∃ s, s.calls = {⟨0, .blocked⟩} ∧
    ∃ es u, Trace Step Unguarded s es u ∧ (∀ e ∈ es, 0 < e.work) ∧
      AtRest Step Event.work u := by
  have h₀ : Runs Step Unguarded init init := .refl _
  have h₁ := h₀.tail trivial (.notify rfl rfl)
  have h₂ := h₁.tail trivial (.call (o := 0) rfl (by decide))
  have h₃ := h₂.tail trivial (.block (show _ = (⟨0, .entering⟩ : Call) ::ₘ 0 by rfl) (.inl rfl) rfl)
  exact ⟨_, rfl, (every_wait_returns h₃ (.nil _)).2.2.2⟩

end Timed

end PortableConcurrency
