import PortableConcurrency.Latch.Model

/-!
# No lost wakeups

Two predicates share the condition variable of a latch. A `notify_one` is
only sent by the last waiter, when nobody waits for the counter any more:
it cannot be swallowed by the wrong thread.
-/

namespace PortableConcurrency

namespace Latch

variable {s s' : State} {e : Event} {es : List Event} {p q : Pc} {rest rest' : Multiset Pc}
variable {owner : Bool} {count : ℤ}

/-- Between its increment and its decrement of `waiters_`. -/
def Pc.counted : Pc → Bool
  | .blocked _ => true
  | .woken _ => true
  | _ => false

/-- The thread that runs, or is going to run, the destructor. -/
def Pc.isOwner : Pc → Bool
  | .arriving owner => owner
  | .entering owner => owner
  | .blocked owner => owner
  | .woken owner => owner
  | .released => true
  | .destroying => true
  | .sleeping => true
  | .roused => true
  | _ => false

/-- One thread at most is the owner, whether it waits before it runs the
destructor or not. -/
def OneOwner (s : State) (e : Event) : Prop :=
  (∃ p, e = .call p ∧ p.isOwner = true) ∨ e = .destroy false → tally Pc.isOwner s.threads = 0

/-- The steps that make nobody the owner. -/
theorem OneOwner.other (hcall : ∀ p, e = .call p → p.isOwner = false) (hd : e ≠ .destroy false) :
    OneOwner s e := by
  rintro (⟨p, he, hp⟩ | he)
  · rw [hcall p he] at hp
    cases hp
  · exact absurd he hd

@[simp] theorem counted_returned (owner : Bool) : tally Pc.counted (returned owner) = 0 := by
  cases owner <;> rfl

@[simp] theorem isOwner_returned (owner : Bool) :
    tally Pc.isOwner (returned owner) = if owner then 1 else 0 := by
  cases owner <;> rfl

/-- A thread that wakes up is still counted among the waiters. -/
theorem counted_wake (h : cv.wake p = some q) : q.counted = p.counted := by
  cases p <;> cases h <;> rfl

/-- It is still the owner, if it was. -/
theorem isOwner_wake (h : cv.wake p = some q) : q.isOwner = p.isOwner := by
  cases p <;> cases h <;> rfl

/-- Who waits is counted, or is the owner in the destructor. -/
theorem waits_counted_or_owner (p : Pc) (h : cv.waits p = true) :
    p.counted = true ∨ p.isOwner = true := by
  cases p with
  | blocked => exact .inl rfl
  | sleeping => exact .inr rfl
  | _ => cases h

theorem mem_returned : p ∈ returned owner ↔ owner = true ∧ p = .released := by
  cases owner <;> simp [returned]

theorem decr_succ (n : ℕ) : decr (n + 1) = n := rfl

theorem isCall_not_counted (h : p.isCall = true) : p.counted = false := by
  cases p <;> simp_all [Pc.isCall, Pc.counted]

/-- **What holds of a latch** in every run with one owner. -/
structure Inv (s : State) : Prop where
  nonneg : 0 ≤ s.counter
  waiters : s.waiters = tally Pc.counted s.threads
  sole : tally Pc.isOwner s.threads ≤ 1
  /-- who waits for the counter, which is zero, is going to be notified -/
  notified : s.counter = 0 → ∀ owner, .blocked owner ∈ s.threads → .notifying ∈ s.threads
  asleep : s.waiters = 0 → .sleeping ∉ s.threads

/-- A new latch has no waiters. -/
theorem inv_init (h : 0 ≤ count) : Inv (init count) :=
  ⟨h, rfl, by simp [init], by simp [init], by simp [init]⟩

/-- When nobody is counted, the owner is the only one to be notified. -/
theorem NotifyIf.nobody_waits {b : Prop} (h : cv.NotifyIf b rest rest') (hb : b)
    (hcounted : tally Pc.counted rest = 0) (hsole : tally Pc.isOwner rest ≤ 1) :
    ∀ q ∈ rest', cv.wake q = none := by
  cases h with
  | yes _ h =>
    have hle := tally_le_add waits_counted_or_owner rest
    exact h.sole (by omega)
  | no hno => exact absurd hb hno

theorem not_waiting_sleeping (h : ∀ q ∈ rest, cv.wake q = none) : .sleeping ∉ rest := by
  intro hmem
  have := h _ hmem
  cases this

/-- A waiter is counted. -/
theorem Inv.waiters_pos (h : Inv s) (hmem : p ∈ s.threads) (hp : p.counted = true) :
    0 < s.waiters := by
  rw [h.waiters]
  exact tally_pos hmem hp

/-- `decr` wraps at zero only. -/
theorem decr_of_pos {n : ℕ} (h : 0 < n) : decr n + 1 = n := by
  rw [decr, if_neg (by omega)]
  omega

/-- `waiters_` goes on being the number of those who wait. -/
theorem step_waiters (h : Inv s) (hst : Step s e s') :
    s'.waiters = tally Pc.counted s'.threads := by
  have hw := h.waiters
  cases hst with
  | call hp => simp [hw, isCall_not_counted hp]
  | countDown ht | countDownLast ht => simpa [ht, Pc.counted] using hw
  | notifyAll ht =>
    rw [ht] at hw
    rw [hw, CondVar.tally_notifyAll fun _ _ => counted_wake]
    simp [Pc.counted]
  | arriveLast ht =>
    rw [ht] at hw
    rw [tally_add, CondVar.tally_notifyAll fun _ _ => counted_wake]
    simpa [decr_succ, Pc.counted] using hw
  | arrive ht | enter ht => simpa [ht, Pc.counted] using hw
  | enterReady ht _ hnotify =>
    rw [ht] at hw
    rw [tally_add, hnotify.tally fun _ _ => counted_wake]
    simpa [decr_succ, Pc.counted] using hw
  | block ht => simpa [ht, Pc.counted] using hw
  | @leave owner _ _ ht _ hnotify =>
    have hpos := h.waiters_pos (p := .woken owner) (by rw [ht]; simp) rfl
    have := decr_of_pos hpos
    rw [ht] at hw
    rw [tally_add, hnotify.tally fun _ _ => counted_wake]
    simp [Pc.counted] at hw ⊢
    omega
  | spurious ht hwake => simpa [ht, counted_wake hwake] using hw
  | destroy ht => simpa [ht, Pc.counted] using hw
  | destroyEarly => simpa [Pc.counted] using hw
  | sleep ht hp | destroyed ht hp => rcases hp with rfl | rfl <;> simpa [ht, Pc.counted] using hw

theorem step_sole (h : Inv s) (hok : OneOwner s e) (hst : Step s e s') :
    tally Pc.isOwner s'.threads ≤ 1 := by
  have hs := h.sole
  cases hst with
  | @call p hp =>
    by_cases ho : p.isOwner = true
    · simp [hok (.inl ⟨p, rfl, ho⟩), ho]
    · simpa [ho] using hs
  | countDown ht | countDownLast ht => simpa [ht, Pc.isOwner] using hs
  | notifyAll ht =>
    rw [CondVar.tally_notifyAll fun _ _ => isOwner_wake]
    simpa [ht, Pc.isOwner] using hs
  | @arriveLast owner rest ht =>
    rw [tally_add, CondVar.tally_notifyAll fun _ _ => isOwner_wake]
    rw [ht] at hs
    cases owner <;> simpa [Pc.isOwner, Nat.add_comm] using hs
  | @arrive owner rest ht | @enter owner rest ht | @block owner rest ht =>
    rw [ht] at hs
    cases owner <;> simpa [Pc.isOwner] using hs
  | @enterReady owner _ _ ht _ hnotify | @leave owner _ _ ht _ hnotify =>
    rw [tally_add, hnotify.tally fun _ _ => isOwner_wake]
    rw [ht] at hs
    cases owner <;> simpa [Pc.isOwner, Nat.add_comm] using hs
  | spurious ht hwake => simpa [ht, isOwner_wake hwake] using hs
  | destroy ht => simpa [ht, Pc.isOwner] using hs
  | destroyEarly => simp [hok (.inr rfl), Pc.isOwner]
  | sleep ht hp =>
    rcases hp with rfl | rfl <;> simpa [ht, Pc.isOwner] using hs
  | destroyed ht hp =>
    rw [ht, tally_cons] at hs
    exact (Nat.le_add_right _ _).trans hs

/-- The counter does not get below zero. -/
theorem step_nonneg (h : Inv s) (hst : Step s e s') : 0 ≤ s'.counter := by
  have hn := h.nonneg
  cases hst with
  | countDown _ hle | countDownLast _ hle =>
    show 0 ≤ s.counter - _
    omega
  | arriveLast _ hpos | arrive _ hpos =>
    show 0 ≤ s.counter - 1
    omega
  | _ => exact hn

/-- Who waits for the counter waited before, or the counter is not zero. -/
theorem step_notified (h : Inv s) (hst : Step s e s') (hzero : s'.counter = 0)
    (hmem : .blocked owner ∈ s'.threads) : .notifying ∈ s'.threads := by
  have hnot := h.notified
  cases hst with
  | @call p hp =>
    have hmem : .blocked owner ∈ s.threads := by
      refine (Multiset.mem_cons.mp hmem).resolve_left ?_
      rintro rfl
      cases hp
    exact Multiset.mem_cons_of_mem (hnot hzero owner hmem)
  | @countDown n rest ht hle h0 hpos =>
    have hzero : s.counter - n = 0 := hzero
    omega
  | countDownLast ht => simp
  | notifyAll ht =>
    have := CondVar.wake_notifyAll hmem
    cases this
  | arriveLast ht =>
    rcases Multiset.mem_add.mp hmem with hmem | hmem
    · obtain ⟨-, hp⟩ := mem_returned.mp hmem
      cases hp
    · have := CondVar.wake_notifyAll hmem
      cases this
  | arrive ht hpos hmore => exact absurd hzero hmore
  | enter ht hpend | block ht hpend => exact absurd hzero hpend
  | enterReady ht _ hnotify | leave ht _ hnotify =>
    refine Multiset.mem_add.mpr (.inr ?_)
    have hmem := (Multiset.mem_add.mp hmem).resolve_left fun hr => by
      obtain ⟨-, hp⟩ := mem_returned.mp hr
      cases hp
    have hblocked := hnotify.waited hmem rfl
    have hn := hnot hzero owner (by rw [ht]; exact Multiset.mem_cons_of_mem hblocked)
    rw [ht] at hn
    exact hnotify.stays ((Multiset.mem_cons.mp hn).resolve_left (by simp)) rfl
  | @spurious p q rest ht hwake =>
    have hq : .blocked owner ∈ rest := by
      refine (Multiset.mem_cons.mp hmem).resolve_left ?_
      rintro rfl
      have := cv.awake _ _ hwake
      cases this
    have hn := hnot hzero owner (by rw [ht]; exact Multiset.mem_cons_of_mem hq)
    rw [ht] at hn
    refine Multiset.mem_cons_of_mem ((Multiset.mem_cons.mp hn).resolve_left ?_)
    rintro rfl
    cases hwake
  | destroy ht =>
    have hn := hnot hzero owner (by rw [ht]; simpa using hmem)
    simpa [ht] using hn
  | destroyEarly => exact Multiset.mem_cons_of_mem (hnot hzero owner (by simpa using hmem))
  | sleep ht hp =>
    have hn := hnot hzero owner (by rw [ht]; rcases hp with rfl | rfl <;> simpa using hmem)
    rcases hp with rfl | rfl <;> simpa [ht] using hn
  | destroyed ht hp =>
    have hn := hnot hzero owner (by rw [ht]; exact Multiset.mem_cons_of_mem hmem)
    rcases hp with rfl | rfl <;> simpa [ht] using hn

/-- **The last waiter wakes the destructor**, and nobody else. -/
theorem step_asleep (h : Inv s) (hst : Step s e s') (hzero : s'.waiters = 0) :
    .sleeping ∉ s'.threads := by
  have hold := h.asleep
  have hw := h.waiters
  have hsole := h.sole
  intro hmem
  have hrest : ∀ {rest rest' : Multiset Pc} {b : Prop}, cv.NotifyIf b rest rest' → b →
      tally Pc.counted rest = 0 → tally Pc.isOwner rest ≤ 1 → .sleeping ∉ rest' :=
    fun hnotify hb hc ho => not_waiting_sleeping (NotifyIf.nobody_waits hnotify hb hc ho)
  have hout : ∀ {owner : Bool} {m : Multiset Pc}, .sleeping ∈ returned owner + m → .sleeping ∈ m :=
    fun hmem => (Multiset.mem_add.mp hmem).resolve_left fun hr => by
      obtain ⟨-, hp⟩ := mem_returned.mp hr
      cases hp
  cases hst with
  | @call p hp =>
    refine hold hzero ((Multiset.mem_cons.mp hmem).resolve_left ?_)
    rintro rfl
    cases hp
  | countDown ht => exact hold hzero (by rw [ht]; exact Multiset.mem_cons_of_mem hmem)
  | countDownLast ht => exact hold hzero (by simpa [ht] using hmem)
  | notifyAll ht =>
    have := CondVar.wake_notifyAll hmem
    cases this
  | arriveLast ht =>
    have := CondVar.wake_notifyAll (hout hmem)
    cases this
  | arrive | enter => cases hzero
  | enterReady ht hready hnotify =>
    rw [ht] at hw hsole
    have hzero : decr (s.waiters + 1) = 0 := hzero
    refine hrest hnotify hzero ?_ ((Nat.le_add_right _ _).trans (tally_cons .. ▸ hsole)) (hout hmem)
    rw [decr_succ] at hzero
    simp [Pc.counted] at hw
    omega
  | block ht => exact hold hzero (by simpa [ht] using hmem)
  | @leave owner _ _ ht hready hnotify =>
    have hpos := h.waiters_pos (p := .woken owner) (by rw [ht]; simp) rfl
    have := decr_of_pos hpos
    rw [ht] at hw hsole
    have hzero : decr s.waiters = 0 := hzero
    refine hrest hnotify hzero ?_ ((Nat.le_add_right _ _).trans (tally_cons .. ▸ hsole)) (hout hmem)
    simp [Pc.counted] at hw
    omega
  | @spurious p q rest ht hwake =>
    refine hold hzero ?_
    rw [ht]
    refine Multiset.mem_cons_of_mem ((Multiset.mem_cons.mp hmem).resolve_left ?_)
    rintro rfl
    have := cv.awake _ _ hwake
    cases this
  | destroy ht => exact hold hzero (by simpa [ht] using hmem)
  | destroyEarly => exact hold hzero (by simpa using hmem)
  | sleep ht hp hpend => exact hpend hzero
  | destroyed ht => exact hold hzero (by rw [ht]; exact Multiset.mem_cons_of_mem hmem)

/-- **The step lemma.** -/
theorem Inv.step (h : Inv s) (hok : OneOwner s e) (hst : Step s e s') : Inv s' :=
  ⟨step_nonneg h hst, step_waiters h hst, step_sole h hok hst,
    fun hzero _ hmem => step_notified h hst hzero hmem, step_asleep h hst⟩

/-! ## The law -/

/-- By how much a step counts down. -/
def Event.decrement : Event → ℤ
  | .countDown n => n
  | .arrive _ _ => 1
  | _ => 0

/-- The decrements made. -/
def decrements (es : List Event) : ℤ := es.foldr (fun e n => e.decrement + n) 0

theorem decrements_append (es : List Event) (e : Event) :
    decrements (es ++ [e]) = decrements es + e.decrement := by
  induction es with
  | nil => simp [decrements]
  | cons e' es ih =>
    simp only [decrements, List.cons_append, List.foldr_cons] at ih ⊢
    omega

/-- `wait` or `count_down_and_wait` returns. -/
def Event.returns : Event → Bool
  | .arrive _ blocks => !blocks
  | .enter _ blocks => !blocks
  | .recheck _ blocks => !blocks
  | _ => false

/-- **What a step counts down.** -/
theorem step_counter (hst : Step s e s') : s'.counter = s.counter - e.decrement := by
  cases hst <;> simp [Event.decrement]

/-- **What holds of a latch** that was made with `count`, after the events
`es`. -/
structure LatchLaw (count : ℤ) (es : List Event) (s : State) : Prop where
  counter : s.counter = count - decrements es
  nonneg : 0 ≤ s.counter
  /-- nobody returns before the counter is zero -/
  returns : ∀ e s', Step s e s' → e.returns = true → s'.counter = 0
  waiters : s.waiters = tally Pc.counted s.threads
  no_wrap : ∀ e s', Step s e s' → s'.waiters ≤ s.waiters + 1
  /-- who waits for a counter that is zero is going to be notified by a
  `count_down` -/
  notified : s.counter = 0 → ∀ owner, .blocked owner ∈ s.threads → .notifying ∈ s.threads
  /-- the destructor does not wait for waiters that are gone -/
  asleep : s.waiters = 0 → .sleeping ∉ s.threads

/-- `waiters_` does not wrap. -/
theorem Inv.no_wrap (h : Inv s) (hst : Step s e s') : s'.waiters ≤ s.waiters + 1 := by
  cases hst with
  | @leave owner _ _ ht =>
    have hpos := h.waiters_pos (p := .woken owner) (by rw [ht]; simp) rfl
    have := decr_of_pos hpos
    show decr s.waiters ≤ s.waiters + 1
    omega
  | arrive | enter => exact le_rfl
  | _ => exact Nat.le_succ _

/-- **Who returns, returns at zero.** -/
theorem returns_at_zero (hst : Step s e s') (hr : e.returns = true) : s'.counter = 0 := by
  cases hst with
  | arriveLast _ _ hlast => exact hlast
  | enterReady _ hready | leave _ hready => exact hready
  | _ => cases hr

/-- **A latch releases at zero, and loses no wakeup.** -/
theorem latch_law (hcount : 0 ≤ count) (hrun : Trace Step OneOwner (init count) es s) :
    LatchLaw count es s := by
  have hboth : Inv s ∧ s.counter = count - decrements es := by
    refine hrun.invariant (I := fun es s => Inv s ∧ s.counter = count - decrements es) ?_
      ⟨inv_init hcount, by simp [init, decrements]⟩
    rintro es s e s' ⟨hi, hc⟩ hok hst
    refine ⟨hi.step hok hst, ?_⟩
    rw [step_counter hst, hc, decrements_append]
    omega
  obtain ⟨h, hc⟩ := hboth
  exact ⟨hc, h.nonneg, fun _ _ hst hr => returns_at_zero hst hr, h.waiters,
    fun _ _ hst => h.no_wrap hst, h.notified, h.asleep⟩

/-- The destructor begins while a thread waits and the counter is not
zero. It sleeps in `cv_.wait`, is woken by the `notify_all` of the one that
counts down and sleeps again, until the waiter has left. -/
theorem latch_law_of_wait : ∃ es s, es.count .sleep = 2 ∧ s.destroyed = true ∧ s.threads = 0 ∧
    LatchLaw 1 es s := by
  have h₀ : Trace Step OneOwner (init 1) [] (init 1) := .nil _
  have h₁ := h₀.snoc (fun _ => rfl) (.call (p := .entering false) rfl)
  have h₂ := h₁.snoc (.other (by simp) (by simp))
    (.enter (show _ = Pc.entering false ::ₘ 0 by decide) (by decide))
  have h₃ := h₂.snoc (fun _ => by decide) (.destroyEarly rfl)
  have h₄ := h₃.snoc (.other (by simp) (by simp))
    (.sleep (show _ = Pc.destroying ::ₘ {.blocked false} by decide) (.inl rfl) (by decide))
  have h₅ := h₄.snoc (.other (by rintro p ⟨⟩; rfl) (by simp)) (.call (p := .counting 1) rfl)
  have h₆ := h₅.snoc (.other (by simp) (by simp))
    (.countDownLast (show _ = Pc.counting 1 ::ₘ {.sleeping, .blocked false} by decide) (by decide)
      (by decide) (by decide))
  have h₇ := h₆.snoc (.other (by simp) (by simp))
    (.notifyAll (show _ = _ ::ₘ {.sleeping, .blocked false} by decide))
  have h₈ := h₇.snoc (.other (by simp) (by simp))
    (.sleep (show _ = Pc.roused ::ₘ {.woken false} by decide) (.inr rfl) (by decide))
  have h₉ := h₈.snoc (.other (by simp) (by simp))
    (.leave (show _ = Pc.woken false ::ₘ {.sleeping} by decide) (by decide)
      (.yes (by decide) (.somebody (p := Pc.sleeping) (q := Pc.roused) rfl)))
  have h₁₀ := h₉.snoc (.other (by simp) (by simp))
    (.destroyed (show _ = Pc.roused ::ₘ 0 by decide) (.inr rfl) (by decide))
  exact ⟨_, _, by decide, rfl, rfl, latch_law (by decide) h₁₀⟩

end Latch

end PortableConcurrency
