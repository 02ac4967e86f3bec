import PortableConcurrency.Latch.Wakeups

/-!
# The destruction of a latch

Whoever waits is counted, and the destructor waits for those; whoever
notifies with the mutex locked is through when the owner can lock it. Only
`count_down` notifies after it has unlocked: when it was the one to count
down to zero, the owner may have returned, and the latch may be gone.
-/

namespace PortableConcurrency

namespace Latch

variable {s s' : State} {e : Event} {p q : Pc} {rest rest' : Multiset Pc} {owner : Bool}
variable {count : ℤ}

/-- Whether a thread is in a member function, with an access to `mutex_`
or `cv_` still to make. -/
def Pc.accesses : Pc → Bool
  | .released => false
  | _ => true

/-- **`~latch` does not complete before the others are through.** -/
def Safe (s : State) : Prop := s.destroyed = true → ∀ p ∈ s.threads, p.accesses = false

/-- By how much a call is going to count down. -/
def Pc.demand : Pc → ℕ
  | .counting n => n.toNat
  | .arriving _ => 1
  | _ => 0

/-- In the destructor. -/
def Pc.destroys : Pc → Bool
  | .destroying => true
  | .sleeping => true
  | .roused => true
  | _ => false

/-- **How a latch is used**: one owner, who runs `~latch` after a wait,
calls that add up to the count at most, and waiters that are inside `wait`
by then. -/
structure Usage (s : State) (e : Event) : Prop where
  one_owner : OneOwner s e
  waited : e ≠ .destroy false
  calls : ∀ p, e = .call p → weigh Pc.demand s.threads + p.demand ≤ s.counter.toNat
  nonneg : ∀ n, e = .call (.counting n) → 0 ≤ n
  alive : ∀ p, e = .call p → s.destroyed = false
  entered : ∀ owner, e = .call (.entering owner) → ∀ p ∈ s.threads, p.destroys = false
  inside : e = .destroy true → ∀ owner, .entering owner ∉ s.threads

/-- **No `count_down` notifies late**: none counts down to zero, and none
that counts down by zero is still to come when the latch is destroyed. -/
structure NotifiesLocked (s : State) (e : Event) : Prop where
  above : ∀ n, e = .countDown n → n < s.counter
  through : e = .destroyed → .counting 0 ∉ s.threads

/-- The steps that are not up to the users. -/
theorem Usage.other (hcall : ∀ p, e ≠ .call p) (hd : ∀ waited, e ≠ .destroy waited) : Usage s e :=
  ⟨.other (fun p he => absurd he (hcall p)) (hd false), hd false, fun p he => absurd he (hcall p),
    fun n he => absurd he (hcall (.counting n)), fun p he => absurd he (hcall p),
    fun o he => absurd he (hcall (.entering o)), fun he => absurd he (hd true)⟩

/-- The destructor of an owner who has waited. -/
theorem Usage.destroy (hinside : ∀ owner, .entering owner ∉ s.threads) :
    Usage s (.destroy true) :=
  ⟨.other (by simp) (by simp), by simp, by simp, by simp, by simp, by simp, fun _ => hinside⟩

/-- A call while nobody is in the destructor. -/
theorem Usage.call (howner : p.isOwner = true → tally Pc.isOwner s.threads = 0)
    (hbudget : weigh Pc.demand s.threads + p.demand ≤ s.counter.toNat)
    (hnonneg : ∀ n, p = .counting n → 0 ≤ n) (halive : s.destroyed = false)
    (hdestroys : ∀ q ∈ s.threads, q.destroys = false) : Usage s (.call p) := by
  refine ⟨?_, by simp, ?_, ?_, ?_, fun _ _ => hdestroys, by simp⟩
  · rintro (⟨q, ⟨⟩, hq⟩ | he)
    · exact howner hq
    · cases he
  · rintro q ⟨⟩
    exact hbudget
  · rintro n ⟨⟩
    exact hnonneg n rfl
  · rintro q ⟨⟩
    exact halive

@[simp] theorem demand_returned (owner : Bool) : weigh Pc.demand (returned owner) = 0 := by
  cases owner <;> rfl

theorem demand_wake (h : cv.wake p = some q) : q.demand = p.demand := by
  cases p <;> cases h <;> rfl

theorem demand_notifyAll (m : Multiset Pc) :
    weigh Pc.demand (cv.notifyAll m) = weigh Pc.demand m := by
  refine weigh_map_of _ (fun p => ?_) m
  cases hp : cv.wake p with
  | none => rfl
  | some q => exact demand_wake hp

theorem demand_notifyIf {b : Prop} (h : cv.NotifyIf b rest rest') :
    weigh Pc.demand rest' = weigh Pc.demand rest := by
  cases h with
  | no => rfl
  | yes _ h =>
    cases h with
    | nobody => rfl
    | somebody hw => rw [weigh_cons, weigh_cons, demand_wake hw]

/-- The calls that are to come do not count below zero. -/
theorem step_budget (h : weigh Pc.demand s.threads ≤ s.counter.toNat) (hok : Usage s e)
    (hst : Step s e s') : weigh Pc.demand s'.threads ≤ s'.counter.toNat := by
  cases hst with
  | @call p hp =>
    have := hok.calls p rfl
    simp
    omega
  | countDown ht hle h0 | countDownLast ht hle h0 =>
    rw [ht] at h
    simp [Pc.demand] at h ⊢
    omega
  | notifyAll ht =>
    rw [ht] at h
    rw [demand_notifyAll]
    simpa [Pc.demand] using h
  | arriveLast ht hpos =>
    rw [ht] at h
    rw [weigh_add, demand_notifyAll]
    simp [Pc.demand] at h ⊢
    omega
  | arrive ht hpos =>
    rw [ht] at h
    simp [Pc.demand] at h ⊢
    omega
  | enterReady ht _ hnotify | leave ht _ hnotify =>
    rw [ht] at h
    rw [weigh_add, demand_notifyIf hnotify]
    simpa [Pc.demand] using h
  | spurious ht hw => simpa [ht, demand_wake hw] using h
  | enter ht | block ht | destroy ht => simpa [ht, Pc.demand] using h
  | destroyEarly => exact absurd rfl hok.waited
  | sleep ht hp | destroyed ht hp => rcases hp with rfl | rfl <;> simpa [ht, Pc.demand] using h

/-! ## Where the threads are -/

/-- What holds of what each thread does next. -/
def Pc.Sound (s : State) : Pc → Prop
  | .counting n => 0 ≤ n
  | .notifying => False
  | .released => s.counter = 0
  | .destroying => s.counter = 0 ∧ ∀ owner, .entering owner ∉ s.threads
  | .sleeping => s.counter = 0 ∧ ∀ owner, .entering owner ∉ s.threads
  | .roused => s.counter = 0 ∧ ∀ owner, .entering owner ∉ s.threads
  | _ => True

/-- **What holds of a latch that is used so.** -/
structure Tidy (s : State) : Prop extends Inv s where
  budget : weigh Pc.demand s.threads ≤ s.counter.toNat
  sound : ∀ p ∈ s.threads, p.Sound s
  gone : s.destroyed = true → s.threads = 0

theorem tidy_init (h : 0 ≤ count) : Tidy (init count) :=
  ⟨inv_init h, by simp [init], by simp [init], by simp [init]⟩

theorem Pc.Sound.wake (h : p.Sound s) (hw : cv.wake p = some q) : q.Sound s := by
  cases p with
  | blocked => cases hw; trivial
  | sleeping => cases hw; exact h
  | _ => cases hw

/-- A counter that is zero stays so. -/
theorem step_zero (hst : Step s e s') (hzero : s.counter = 0) : s'.counter = 0 := by
  cases hst with
  | countDown _ hle h0 | countDownLast _ hle h0 =>
    show s.counter - _ = 0
    omega
  | arriveLast _ hpos | arrive _ hpos => omega
  | _ => exact hzero

theorem not_entering_notifyAll (h : .entering owner ∈ cv.notifyAll rest) :
    .entering owner ∈ rest := by
  refine (CondVar.of_mem_notifyAll h).resolve_right ?_
  rintro ⟨p, -, hw⟩
  cases p <;> cases hw

theorem not_entering_notifyIf {b : Prop} (h : cv.NotifyIf b rest rest')
    (hmem : .entering owner ∈ rest') : .entering owner ∈ rest := by
  cases h with
  | no => exact hmem
  | yes _ h =>
    cases h with
    | nobody => exact hmem
    | @somebody p q rest hw =>
      refine Multiset.mem_cons_of_mem ((Multiset.mem_cons.mp hmem).resolve_left ?_)
      rintro rfl
      cases p <;> cases hw

/-- A thread that is about to wait has called `wait`. -/
theorem step_entering (hst : Step s e s') (hmem : .entering owner ∈ s'.threads) :
    .entering owner ∈ s.threads ∨ e = .call (.entering owner) := by
  have hout : ∀ {o : Bool} {m : Multiset Pc}, .entering owner ∈ returned o + m →
      .entering owner ∈ m :=
    fun hmem => (Multiset.mem_add.mp hmem).resolve_left fun hr => by
      obtain ⟨-, hp⟩ := mem_returned.mp hr
      cases hp
  cases hst with
  | call hp =>
    rcases Multiset.mem_cons.mp hmem with rfl | hmem
    · exact .inr rfl
    · exact .inl hmem
  | countDown ht => exact .inl (by rw [ht]; exact Multiset.mem_cons_of_mem hmem)
  | notifyAll ht =>
    exact .inl (by rw [ht]; exact Multiset.mem_cons_of_mem (not_entering_notifyAll hmem))
  | arriveLast ht =>
    exact .inl (by rw [ht]; exact Multiset.mem_cons_of_mem (not_entering_notifyAll (hout hmem)))
  | enterReady ht _ hnotify | leave ht _ hnotify =>
    refine .inl ?_
    rw [ht]
    exact Multiset.mem_cons_of_mem (not_entering_notifyIf hnotify (hout hmem))
  | @spurious p q rest ht hw =>
    refine .inl ?_
    rw [ht]
    refine Multiset.mem_cons_of_mem ((Multiset.mem_cons.mp hmem).resolve_left ?_)
    rintro rfl
    cases p <;> cases hw
  | countDownLast ht | arrive ht | enter ht | block ht | destroy ht =>
    have hrest := (Multiset.mem_cons.mp hmem).resolve_left (by simp)
    exact .inl (by rw [ht]; exact Multiset.mem_cons_of_mem hrest)
  | destroyEarly => exact .inl ((Multiset.mem_cons.mp hmem).resolve_left (by simp))
  | sleep ht hp =>
    refine .inl ?_
    rcases hp with rfl | rfl <;> simpa [ht] using hmem
  | destroyed ht hp => exact .inl (by rw [ht]; exact Multiset.mem_cons_of_mem hmem)

/-- What holds of a thread goes on to hold. -/
theorem Pc.Sound.step (h : p.Sound s) (hok : Usage s e) (hst : Step s e s')
    (hmem : p ∈ s.threads) : p.Sound s' := by
  have hdestroys : p.destroys = true → (∀ owner, .entering owner ∉ s.threads) →
      ∀ owner, .entering owner ∉ s'.threads := by
    intro hp hnone owner hmem'
    rcases step_entering hst hmem' with hold | he
    · exact hnone owner hold
    · have := hok.entered owner he p hmem
      rw [hp] at this
      cases this
  cases p with
  | counting | notifying => exact h
  | released => exact step_zero hst h
  | destroying | sleeping | roused => exact ⟨step_zero hst h.1, hdestroys rfl h.2⟩
  | _ => trivial

theorem Tidy.sound_step (h : Tidy s) (hok : Usage s e) (hlocked : NotifiesLocked s e)
    (hst : Step s e s') : ∀ p ∈ s'.threads, p.Sound s' := by
  have hold : ∀ p ∈ s.threads, p.Sound s' := fun p hmem => (h.sound p hmem).step hok hst hmem
  have hrest : ∀ {q : Pc} {rest : Multiset Pc}, s.threads = q ::ₘ rest → ∀ p ∈ rest, p.Sound s' :=
    fun ht p hmem => hold p (by rw [ht]; exact Multiset.mem_cons_of_mem hmem)
  have hreturned : ∀ {o : Bool} {m : Multiset Pc}, s'.counter = 0 → (∀ p ∈ m, p.Sound s') →
      ∀ p ∈ returned o + m, p.Sound s' := by
    intro o m hzero hm p hmem
    rcases Multiset.mem_add.mp hmem with hmem | hmem
    · obtain ⟨-, rfl⟩ := mem_returned.mp hmem
      exact hzero
    · exact hm p hmem
  intro p hmem
  cases hst with
  | @call q hq =>
    rcases Multiset.mem_cons.mp hmem with rfl | hmem
    · cases p with
      | counting n => exact hok.nonneg n rfl
      | arriving | entering => trivial
      | _ => cases hq
    · exact hold p hmem
  | countDown ht => exact hrest ht p hmem
  | @countDownLast n rest ht hle h0 hlast =>
    have := hlocked.above n rfl
    omega
  | notifyAll ht =>
    have hnot : Pc.notifying.Sound s := h.sound _ (by rw [ht]; simp)
    exact hnot.elim
  | arriveLast ht hpos hlast =>
    refine hreturned hlast (fun p hmem => ?_) p hmem
    rcases CondVar.of_mem_notifyAll hmem with hmem | ⟨q, hq, hw⟩
    · exact hrest ht p hmem
    · exact (hrest ht q hq).wake hw
  | arrive ht | enter ht | block ht =>
    rcases Multiset.mem_cons.mp hmem with rfl | hmem
    · trivial
    · exact hrest ht p hmem
  | enterReady ht hready hnotify | leave ht hready hnotify =>
    refine hreturned hready (fun p hmem => ?_) p hmem
    cases hnotify with
    | no => exact hrest ht p hmem
    | yes _ hn =>
      cases hn with
      | nobody => exact hrest ht p hmem
      | @somebody q q' rest hw =>
        rcases Multiset.mem_cons.mp hmem with rfl | hmem
        · exact (hrest ht q (by simp)).wake hw
        · exact hrest ht p (Multiset.mem_cons_of_mem hmem)
  | @spurious q q' rest ht hw =>
    rcases Multiset.mem_cons.mp hmem with rfl | hmem
    · exact (hold q (by rw [ht]; simp)).wake hw
    · exact hrest ht p hmem
  | destroy ht =>
    rcases Multiset.mem_cons.mp hmem with rfl | hmem
    · refine ⟨h.sound .released (by rw [ht]; simp), fun owner hent => ?_⟩
      refine hok.inside rfl owner ?_
      simpa [ht] using hent
    · exact hrest ht p hmem
  | destroyEarly => exact absurd rfl hok.waited
  | sleep ht hp =>
    rcases Multiset.mem_cons.mp hmem with rfl | hmem
    · rcases hp with rfl | rfl
      · exact hold .destroying (by rw [ht]; simp)
      · exact hold .roused (by rw [ht]; simp)
    · exact hrest ht p hmem
  | destroyed ht => exact hrest ht p hmem

/-- **When the destructor finds no waiter, everybody is through.** -/
theorem Tidy.nobody_left (h : Tidy s) (ht : s.threads = p ::ₘ rest)
    (hp : p = .destroying ∨ p = .roused) (hgone : s.waiters = 0) (hzero : .counting 0 ∉ s.threads) :
    rest = 0 := by
  have howner : p.isOwner = true := by rcases hp with rfl | rfl <;> rfl
  have hsole := h.sole
  have hw := h.waiters
  have hbudget := h.budget
  obtain ⟨hcount, hentering⟩ : s.counter = 0 ∧ ∀ owner, .entering owner ∉ s.threads := by
    have hs := h.sound p (by rw [ht]; simp)
    rcases hp with rfl | rfl <;> exact hs
  rw [ht, tally_cons, howner] at hsole
  refine Multiset.eq_zero_of_forall_notMem fun q hq => ?_
  have hmem : q ∈ s.threads := by
    rw [ht]
    exact Multiset.mem_cons_of_mem hq
  have hown : q.isOwner = false := not_of_tally_eq_zero (by simpa using hsole) hq
  have hcounted : q.counted = false := not_of_tally_eq_zero (by omega) hmem
  have hdemand : q.demand = 0 := by
    have := le_weigh Pc.demand hmem
    omega
  have hs := h.sound q hmem
  cases q with
  | counting n =>
    have hn : n.toNat = 0 := hdemand
    have hn' : 0 ≤ n := hs
    obtain rfl : n = 0 := by omega
    exact hzero hmem
  | notifying => exact hs
  | arriving => cases hdemand
  | entering owner => exact hentering owner hmem
  | blocked | woken => cases hcounted
  | released | destroying | sleeping | roused => cases hown

theorem Tidy.step (h : Tidy s) (hok : Usage s e) (hlocked : NotifiesLocked s e)
    (hst : Step s e s') : Tidy s' := by
  refine ⟨h.toInv.step hok.one_owner hst, step_budget h.budget hok hst,
    h.sound_step hok hlocked hst, fun hd => ?_⟩
  have hne : ∀ {p : Pc} {rest : Multiset Pc}, s.threads = p ::ₘ rest → s.destroyed = true →
      False := fun ht hd => by
    have := h.gone hd
    rw [ht] at this
    exact Multiset.cons_ne_zero this
  cases hst with
  | call hp =>
    have := hok.alive _ rfl
    rw [this] at hd
    cases hd
  | destroyed ht hp hgone => exact h.nobody_left ht hp hgone (hlocked.through rfl)
  | countDown ht | countDownLast ht | notifyAll ht | arriveLast ht | arrive ht | enter ht
  | enterReady ht | block ht | leave ht | spurious ht | destroy ht | sleep ht =>
    exact (hne ht hd).elim
  | destroyEarly => exact absurd rfl hok.waited

/-- **A latch is safe to destroy** when nobody notifies late. -/
theorem safe_to_destroy (hcount : 0 ≤ count)
    (hrun : Runs Step (fun s e => Usage s e ∧ NotifiesLocked s e) (init count) s) : Safe s := by
  have h : Tidy s := hrun.invariant (I := Tidy)
    (fun _ _ _ hi hok hst => hi.step hok.1 hok.2 hst) (tidy_init hcount)
  intro hd p hp
  rw [h.gone hd] at hp
  simp at hp

/-- The owner waits for one that counts down and waits. -/
theorem safe_to_destroy_of_arrive : ∃ s, s.destroyed = true ∧ Safe s := by
  have h₀ : Runs Step (fun s e => Usage s e ∧ NotifiesLocked s e) (init 1) (init 1) := .refl _
  have h₁ := h₀.tail ⟨.call (fun _ => rfl) (by decide) (by simp) rfl (by simp [init]), by simp,
    by simp⟩ (.call (p := .entering true) rfl)
  have h₂ := h₁.tail ⟨.call (by simp [Pc.isOwner]) (by decide) (by simp) rfl (by decide), by simp,
    by simp⟩ (.call (p := .arriving false) rfl)
  have h₃ := h₂.tail ⟨.other (by simp) (by simp), by simp, by simp⟩
    (.arriveLast (show _ = Pc.arriving false ::ₘ {.entering true} by decide) (by decide)
      (by decide))
  have h₄ := h₃.tail ⟨.other (by simp) (by simp), by simp, by simp⟩
    (.enterReady (show _ = Pc.entering true ::ₘ 0 by decide) (by decide)
      (.yes (by decide) (.nobody (by simp))))
  have h₅ := h₄.tail ⟨.destroy (by simp [returned]), by simp, by simp⟩
    (.destroy (show _ = Pc.released ::ₘ 0 by decide))
  have h₆ := h₅.tail ⟨.other (by simp) (by simp), by simp, by simp⟩
    (.destroyed (show _ = Pc.destroying ::ₘ 0 by decide) (.inl rfl) (by decide))
  exact ⟨_, rfl, safe_to_destroy (by decide) h₆⟩

/-- **A `count_down` to zero outlives the latch**: the owner sees that the
counter is zero before `notify_all` is called. -/
theorem notifies_after_destruction : ¬ ∀ (count : ℤ) (s : State), 0 ≤ count →
    Runs Step Usage (init count) s → Safe s := by
  intro hall
  have h₀ : Runs Step Usage (init 1) (init 1) := .refl _
  have h₁ := h₀.tail (.call (fun _ => rfl) (by decide) (by simp) rfl (by simp [init]))
    (.call (p := .entering true) rfl)
  have h₂ := h₁.tail (.call (by simp [Pc.isOwner]) (by decide) (by rintro n ⟨⟩; decide) rfl
    (by decide)) (.call (p := .counting 1) rfl)
  have h₃ := h₂.tail (.other (by simp) (by simp))
    (.countDownLast (show _ = Pc.counting 1 ::ₘ {.entering true} by decide) (by decide) (by decide)
      (by decide))
  have h₄ := h₃.tail (.other (by simp) (by simp))
    (.enterReady (show _ = Pc.entering true ::ₘ {.notifying} by decide) (by decide)
      (.yes (by decide) (.nobody (by simp; rfl))))
  have h₅ := h₄.tail (.destroy (by simp [returned]))
    (.destroy (show _ = Pc.released ::ₘ {.notifying} by decide))
  have h₆ := h₅.tail (.other (by simp) (by simp))
    (.destroyed (show _ = Pc.destroying ::ₘ {.notifying} by decide) (.inl rfl) (by decide))
  have hsafe := hall 1 _ (by decide) h₆ rfl .notifying (by decide)
  cases hsafe

end Latch

end PortableConcurrency
