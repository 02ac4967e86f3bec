import PortableConcurrency.Common.Budget
import PortableConcurrency.Latch.Wakeups

/-!
# Everybody returns

If the calls of `count_down` and `count_down_and_wait` that have begun add
up to the counter, all calls return, and so does the destructor, whenever
it begins, in whatever order the threads go on. What a thread has still to
do is its cost. A thread that is woken for the counter goes back to sleep
as long as that is positive, so being woken costs more then; the owner is
roused once by each thread that counts down, or leaves.
-/

namespace PortableConcurrency

namespace Latch

variable {s t s' : State} {e : Event} {es : List Event} {p q : Pc} {m m' rest rest' : Multiset Pc}
variable {owner : Bool} {count c n : ℤ} {b : Prop}

/-- By how much a thread is going to count down. -/
def Pc.owes : Pc → ℤ
  | .counting n => n
  | .arriving _ => 1
  | _ => 0

/-- What the threads still have to count down. -/
def owed (m : Multiset Pc) : ℤ := (m.map Pc.owes).sum

/-- `count_down(n)` with `n < 0`. -/
def Pc.negative : Pc → Bool
  | .counting n => n < 0
  | _ => false

/-- What a thread has still to do when the counter is at `c`. -/
def Pc.cost (c : ℤ) : Pc → ℕ
  | .counting _ => 3
  | .notifying => 2
  | .arriving _ => 9
  | .entering _ => 9
  | .blocked _ => 7
  | .woken _ => if c = 0 then 6 else 8
  | .released => 4
  | .destroying => 3
  | .sleeping => 1
  | .roused => 2

/-- What the threads still have to do. -/
def State.budget (s : State) : ℕ := weigh (Pc.cost s.counter) s.threads

/-- The steps of the threads. -/
def Event.work : Event → ℕ
  | .call _ => 0
  | .spurious => 0
  | .destroy false => 0
  | _ => 1

/-- What comes from outside: a spurious wakeup, or a destructor that
begins. -/
def Event.brings : Event → ℕ
  | .spurious => 1
  | .destroy false => 3
  | _ => 0

/-- No further calls. The destructor may still begin. -/
structure NoCall (s : State) (e : Event) : Prop where
  one_owner : OneOwner s e
  no_call : ∀ p, e ≠ .call p

/-- The steps that are not up to the users. -/
theorem NoCall.other (hcall : ∀ p, e ≠ .call p) (hd : e ≠ .destroy false) : NoCall s e :=
  ⟨.other (fun p he => absurd he (hcall p)) hd, hcall⟩

@[simp] theorem owed_zero : owed 0 = 0 := rfl

@[simp] theorem owed_cons (p : Pc) (m : Multiset Pc) : owed (p ::ₘ m) = p.owes + owed m := by
  simp [owed]

@[simp] theorem owed_add (m m' : Multiset Pc) : owed (m + m') = owed m + owed m' := by
  simp [owed]

/-- Who has returned owes nothing. -/
@[simp] theorem owed_returned (owner : Bool) : owed (returned owner) = 0 := by
  cases owner <;> rfl

/-- A thread that wakes up owes what it did. -/
theorem owes_wake (h : cv.wake p = some q) : q.owes = p.owes := by
  cases p <;> cases h <;> rfl

theorem negative_wake (h : cv.wake p = some q) : q.negative = p.negative := by
  cases p <;> cases h <;> rfl

@[simp] theorem negative_returned (owner : Bool) : tally Pc.negative (returned owner) = 0 := by
  cases owner <;> rfl

/-- Waking threads up changes nothing about it. -/
theorem owed_notifyAll (m : Multiset Pc) : owed (cv.notifyAll m) = owed m := by
  unfold owed CondVar.notifyAll
  rw [Multiset.map_map]
  congr 1
  refine Multiset.map_congr rfl fun p _ => ?_
  cases hp : cv.wake p with
  | none => simp [hp]
  | some q => simpa [hp] using owes_wake hp

theorem owed_notifyIf (h : cv.NotifyIf b m m') : owed m' = owed m := by
  cases h with
  | yes _ h =>
    cases h with
    | nobody => rfl
    | somebody hw => simp [owes_wake hw]
  | no => rfl

/-- There is less to do once the counter is zero. -/
theorem cost_zero_le (c : ℤ) (p : Pc) : p.cost 0 ≤ p.cost c := by
  cases p with
  | woken =>
    simp only [Pc.cost, if_true]
    split <;> omega
  | _ => exact le_rfl

theorem cost_congr {c' : ℤ} (hc : c ≠ 0) (hc' : c' ≠ 0) : Pc.cost c = Pc.cost c' := by
  funext p
  cases p with
  | woken =>
    simp only [Pc.cost]
    rw [if_neg hc, if_neg hc']
  | _ => rfl

/-- **No thread has more than nine steps to make.** -/
theorem cost_le (c : ℤ) (p : Pc) : p.cost c ≤ 9 := by
  cases p with
  | woken =>
    simp only [Pc.cost]
    split <;> omega
  | _ => simp [Pc.cost]

/-- Waking up costs one step more. -/
theorem cost_wake (h : cv.wake p = some q) : q.cost c ≤ p.cost c + 1 := by
  cases p <;> cases h
  · simp only [Pc.cost]
    split <;> omega
  · exact le_rfl

/-- At zero it is only the owner whose waking costs something. -/
theorem cost_wake_zero (h : cv.wake p = some q) :
    q.cost 0 ≤ p.cost 0 + if p.isOwner then 1 else 0 := by
  cases p with
  | blocked owner =>
    cases h
    simp only [Pc.cost, if_true]
    omega
  | sleeping =>
    cases h
    simp [Pc.cost, Pc.isOwner]
  | _ => cases h

/-- When the counter is zero only the destructor pays for being woken up. -/
theorem weigh_notifyAll_zero (hsole : tally Pc.isOwner m ≤ 1) :
    weigh (Pc.cost 0) (cv.notifyAll m) ≤ weigh (Pc.cost 0) m + 1 := by
  have hle : weigh (Pc.cost 0) (cv.notifyAll m) ≤ weigh (Pc.cost 0) m + tally Pc.isOwner m :=
    CondVar.weigh_notifyAll (fun p q h => cost_wake_zero h) m
  omega

theorem weigh_returned (c : ℤ) (owner : Bool) : weigh (Pc.cost c) (returned owner) ≤ 4 := by
  cases owner <;> simp [returned, Pc.cost]

/-! ## What the calls add up to -/

/-- **The calls in progress bring the counter to zero**, and who is about
to notify has found it there. -/
structure Due (s : State) : Prop where
  inv : Inv s
  owed : owed s.threads = s.counter
  nonneg : tally Pc.negative s.threads = 0
  zero : .notifying ∈ s.threads → s.counter = 0

/-- Who notifies has counted down to zero, and nobody counts below. -/
theorem zero_step (hi : Inv s) (h : .notifying ∈ s.threads → s.counter = 0)
    (hst : Step s e s') (hmem : .notifying ∈ s'.threads) : s'.counter = 0 := by
  have hback : ∀ {p : Pc} {rest : Multiset Pc}, s.threads = p ::ₘ rest → .notifying ∈ rest →
      s.counter = 0 := by
    intro p rest ht hmem
    exact h (by rw [ht]; exact Multiset.mem_cons_of_mem hmem)
  have hnonneg := hi.nonneg
  cases hst with
  | call hp =>
    refine h ((Multiset.mem_cons.mp hmem).resolve_left ?_)
    rintro rfl
    cases hp
  | countDown ht hn h0 hpos =>
    have := hback ht hmem
    simp only at this ⊢
    omega
  | countDownLast ht hn h0 hlast =>
    simp only
    omega
  | notifyAll ht => exact h (by rw [ht]; exact Multiset.mem_cons_self _ _)
  | arriveLast ht hpos hlast => exact hlast
  | arrive ht hpos hmore =>
    have := hback ht ((Multiset.mem_cons.mp hmem).resolve_left (by simp))
    omega
  | enter ht hpend => exact hback ht ((Multiset.mem_cons.mp hmem).resolve_left (by simp))
  | enterReady ht hready => exact hready
  | block ht hpend => exact hback ht ((Multiset.mem_cons.mp hmem).resolve_left (by simp))
  | leave ht hready => exact hready
  | @spurious p q rest ht hw =>
    refine hback ht ((Multiset.mem_cons.mp hmem).resolve_left ?_)
    rintro rfl
    cases p <;> cases hw
  | destroy ht => exact hback ht ((Multiset.mem_cons.mp hmem).resolve_left (by simp))
  | destroyEarly => exact h ((Multiset.mem_cons.mp hmem).resolve_left (by simp))
  | sleep ht hp hpend => exact hback ht ((Multiset.mem_cons.mp hmem).resolve_left (by simp))
  | destroyed ht hp hgone => exact hback ht hmem

/-- Who is about to notify has found the counter at zero. -/
theorem zero_run (hcount : 0 ≤ count) (hrun : Runs Step OneOwner (init count) s) :
    Inv s ∧ (.notifying ∈ s.threads → s.counter = 0) := by
  refine hrun.invariant (I := fun s => Inv s ∧ (.notifying ∈ s.threads → s.counter = 0)) ?_
    ⟨inv_init hcount, by simp [init]⟩
  rintro s e s' ⟨hi, hz⟩ hok hst
  exact ⟨hi.step hok hst, zero_step hi hz hst⟩

theorem Due.nonneg_step (h : Due s) (hno : NoCall s e) (hst : Step s e s') :
    tally Pc.negative s'.threads = 0 := by
  have hn := h.nonneg
  cases hst with
  | @call p hp => exact absurd rfl (hno.no_call p)
  | countDown ht | countDownLast ht =>
    rw [ht, tally_cons] at hn
    simp [Pc.negative] at hn ⊢
    omega
  | notifyAll ht =>
    rw [CondVar.tally_notifyAll fun _ _ => negative_wake]
    simpa [ht, Pc.negative] using hn
  | arriveLast ht =>
    rw [tally_add, CondVar.tally_notifyAll fun _ _ => negative_wake]
    simpa [ht, Pc.negative] using hn
  | arrive ht | enter ht | block ht | destroy ht => simpa [ht, Pc.negative] using hn
  | destroyEarly => simpa [Pc.negative] using hn
  | enterReady ht _ hnotify | leave ht _ hnotify =>
    rw [tally_add, hnotify.tally fun _ _ => negative_wake]
    simpa [ht, Pc.negative] using hn
  | spurious ht hwake => simpa [ht, negative_wake hwake] using hn
  | sleep ht hp | destroyed ht hp =>
    rcases hp with rfl | rfl <;> simpa [ht, Pc.negative] using hn

/-- The calls go on owing what the counter says. -/
theorem Due.owed_step (h : Due s) (hno : NoCall s e) (hst : Step s e s') :
    Latch.owed s'.threads = s'.counter := by
  have ho := h.owed
  cases hst with
  | @call p hp => exact absurd rfl (hno.no_call p)
  | countDown ht | countDownLast ht =>
    rw [ht, owed_cons] at ho
    simp only [owed_cons, Pc.owes] at ho ⊢
    omega
  | notifyAll ht =>
    rw [owed_notifyAll]
    simpa [ht, Pc.owes] using ho
  | arriveLast ht =>
    rw [ht, owed_cons] at ho
    simp only [owed_add, owed_returned, owed_notifyAll, Pc.owes] at ho ⊢
    omega
  | arrive ht =>
    rw [ht, owed_cons] at ho
    simp only [owed_cons, Pc.owes] at ho ⊢
    omega
  | enter ht | block ht | destroy ht => simpa [ht, Pc.owes] using ho
  | destroyEarly => simpa [Pc.owes] using ho
  | enterReady ht _ hnotify | leave ht _ hnotify =>
    rw [owed_add, owed_notifyIf hnotify]
    simpa [ht, Pc.owes] using ho
  | spurious ht hwake => simpa [ht, owes_wake hwake] using ho
  | sleep ht hp | destroyed ht hp =>
    rcases hp with rfl | rfl <;> simpa [ht, Pc.owes] using ho

/-- **The step lemma.** -/
theorem Due.step (h : Due s) (hno : NoCall s e) (hst : Step s e s') : Due s' :=
  ⟨h.inv.step hno.one_owner hst, h.owed_step hno hst, h.nonneg_step hno hst,
    zero_step h.inv h.zero hst⟩

/-! ## The budget -/

/-- **Every step of a thread lowers what is left to do.** -/
theorem Due.pays (h : Due s) (hno : NoCall s e) (hst : Step s e s') :
    s'.budget + e.work ≤ s.budget + e.brings := by
  have hsole := h.inv.sole
  unfold State.budget
  cases hst with
  | @call p hp => exact absurd rfl (hno.no_call p)
  | @countDown n rest ht hn h0 hpos =>
    -- the counter was positive, and is
    have hcongr : Pc.cost (s.counter - n) = Pc.cost s.counter := cost_congr (by omega) (by omega)
    rw [hcongr]
    simp only [ht, weigh_cons, Pc.cost, Event.work, Event.brings]
    omega
  | @countDownLast n rest ht hn h0 hlast =>
    have hzero : s.counter - n = 0 := by omega
    have hle := weigh_mono (cost_zero_le s.counter) rest
    simp only [hzero, ht, weigh_cons, Pc.cost, Event.work, Event.brings]
    omega
  | @notifyAll rest ht =>
    have hzero := h.zero (by rw [ht]; exact Multiset.mem_cons_self _ _)
    rw [ht, tally_cons] at hsole
    have hle := weigh_notifyAll_zero (m := rest) (by omega)
    simp only [hzero, ht, weigh_cons, Pc.cost, Event.work, Event.brings]
    omega
  | @arriveLast owner rest ht hpos hlast =>
    rw [ht, tally_cons] at hsole
    have hret := weigh_returned 0 owner
    have hall := weigh_notifyAll_zero (m := rest) (by omega)
    have hle := weigh_mono (cost_zero_le s.counter) rest
    simp only [hlast, ht, weigh_add, weigh_cons, Pc.cost, Event.work, Event.brings]
    omega
  | arrive ht hpos hmore =>
    have hcongr : Pc.cost (s.counter - 1) = Pc.cost s.counter := cost_congr hmore (by omega)
    rw [hcongr]
    simp only [ht, weigh_cons, Pc.cost, Event.work, Event.brings]
    omega
  | enter ht hpend =>
    simp only [ht, weigh_cons, Pc.cost, Event.work, Event.brings]
    omega
  | @enterReady owner rest rest' ht hready hnotify =>
    have hret := weigh_returned s.counter owner
    have hone := hnotify.weigh (g := Pc.cost s.counter) fun _ _ => cost_wake
    simp only [ht, weigh_add, weigh_cons, Pc.cost, Event.work, Event.brings]
    omega
  | block ht hpend =>
    simp only [ht, weigh_cons, Pc.cost, if_neg hpend, Event.work, Event.brings]
    omega
  | @leave owner rest rest' ht hready hnotify =>
    have hret := weigh_returned s.counter owner
    have hone := hnotify.weigh (g := Pc.cost s.counter) fun _ _ => cost_wake
    simp only [ht, weigh_add, weigh_cons, Pc.cost, if_pos hready, Event.work, Event.brings]
    omega
  | spurious ht hwake =>
    have hle := cost_wake (c := s.counter) hwake
    simp only [ht, weigh_cons, Event.work, Event.brings]
    omega
  | destroy ht =>
    simp only [ht, weigh_cons, Pc.cost, Event.work, Event.brings]
    omega
  | destroyEarly =>
    simp only [weigh_cons, Pc.cost, Event.work, Event.brings]
    omega
  | sleep ht hp hpend =>
    rcases hp with rfl | rfl
    · simp only [ht, weigh_cons, Pc.cost, Event.work, Event.brings]
      omega
    · simp only [ht, weigh_cons, Pc.cost, Event.work, Event.brings]
      omega
  | destroyed ht hp hgone =>
    rcases hp with rfl | rfl
    · simp only [ht, weigh_cons, Pc.cost, Event.work, Event.brings]
      omega
    · simp only [ht, weigh_cons, Pc.cost, Event.work, Event.brings]
      omega

/-- **Every step of a thread is paid for.** -/
theorem pays : Pays Step NoCall Due State.budget Event.work Event.brings :=
  fun _ _ _ h hno hst => ⟨h.step hno hst, h.pays hno hst⟩

/-! ## Rest -/

/-- Nobody owes less than nothing. -/
theorem owed_nonneg (h : tally Pc.negative m = 0) : 0 ≤ owed m := by
  induction m using Multiset.induction_on with
  | empty => exact le_rfl
  | cons p m ih =>
    rw [tally_cons] at h
    have hm := ih (by omega)
    have hp : 0 ≤ p.owes := by
      cases p with
      | counting n =>
        by_contra hn
        simp only [Pc.owes] at hn
        simp [Pc.negative, show n < 0 by omega] at h
      | arriving => exact Int.one_nonneg
      | _ => exact le_rfl
    rw [owed_cons]
    omega

/-- **A thread that does not wait goes on.** -/
theorem Due.enabled (h : Due s) (hmem : p ∈ s.threads) (hp : cv.waits p = false) :
    ∃ e t, Step s e t ∧ e.work = 1 := by
  obtain ⟨rest, ht⟩ := Multiset.exists_cons_of_mem hmem
  have ho := h.owed
  have hneg := h.nonneg
  rw [ht, owed_cons] at ho
  rw [ht, tally_cons] at hneg
  have hrest := owed_nonneg (m := rest) (by omega)
  cases p with
  | counting n =>
    have hn : 0 ≤ n := by
      by_contra hlt
      simp [Pc.negative, show n < 0 by omega] at hneg
    simp only [Pc.owes] at ho
    by_cases hpos : s.counter - n > 0
    · exact ⟨_, _, .countDown ht (by omega) hn hpos, rfl⟩
    · exact ⟨_, _, .countDownLast ht (by omega) hn hpos, rfl⟩
  | notifying => exact ⟨_, _, .notifyAll ht, rfl⟩
  | arriving owner =>
    simp only [Pc.owes] at ho
    by_cases hlast : s.counter - 1 = 0
    · exact ⟨_, _, .arriveLast ht (by omega) hlast, rfl⟩
    · exact ⟨_, _, .arrive ht (by omega) hlast, rfl⟩
  | entering owner =>
    by_cases hready : s.counter = 0
    · obtain ⟨rest', hnotify⟩ := cv.exists_notifyIf (decr (s.waiters + 1) = 0) rest
      exact ⟨_, _, .enterReady ht hready hnotify, rfl⟩
    · exact ⟨_, _, .enter ht hready, rfl⟩
  | woken owner =>
    by_cases hready : s.counter = 0
    · obtain ⟨rest', hnotify⟩ := cv.exists_notifyIf (decr s.waiters = 0) rest
      exact ⟨_, _, .leave ht hready hnotify, rfl⟩
    · exact ⟨_, _, .block ht hready, rfl⟩
  | released => exact ⟨_, _, .destroy ht, rfl⟩
  | destroying =>
    by_cases hgone : s.waiters = 0
    · exact ⟨_, _, .destroyed ht (.inl rfl) hgone, rfl⟩
    · exact ⟨_, _, .sleep ht (.inl rfl) hgone, rfl⟩
  | roused =>
    by_cases hgone : s.waiters = 0
    · exact ⟨_, _, .destroyed ht (.inr rfl) hgone, rfl⟩
    · exact ⟨_, _, .sleep ht (.inr rfl) hgone, rfl⟩
  | blocked | sleeping => cases hp

/-- **At rest nobody is left**: nobody waits for a counter that is zero,
nor for waiters that are gone. -/
theorem Due.gone (h : Due s) (hrest : AtRest Step Event.work s) :
    s.counter = 0 ∧ s.threads = 0 := by
  have hwaits : ∀ p ∈ s.threads, cv.waits p = true := by
    intro p hmem
    by_contra hp
    obtain ⟨e, t, hst, he⟩ := h.enabled hmem (by simpa using hp)
    have := hrest e t hst
    omega
  have howed : ∀ m : Multiset Pc, (∀ p ∈ m, cv.waits p = true) → Latch.owed m = 0 := by
    intro m hm
    induction m using Multiset.induction_on with
    | empty => rfl
    | cons p m ih =>
      rw [owed_cons, ih fun q hq => hm q (Multiset.mem_cons_of_mem hq)]
      have hp := hm p (Multiset.mem_cons_self p m)
      cases p with
      | blocked | sleeping => rfl
      | _ => cases hp
  have hzero : s.counter = 0 := h.owed ▸ howed s.threads hwaits
  have hblocked : ∀ owner, .blocked owner ∉ s.threads := by
    intro owner hmem
    have hp := hwaits _ (h.inv.notified hzero owner hmem)
    cases hp
  have hnobody : s.waiters = 0 := by
    rw [h.inv.waiters]
    refine tally_eq_zero fun p hmem => ?_
    have hp := hwaits p hmem
    cases p with
    | blocked owner => exact absurd hmem (hblocked owner)
    | sleeping => rfl
    | _ => cases hp
  refine ⟨hzero, Multiset.eq_zero_of_forall_notMem fun p hmem => ?_⟩
  have hp := hwaits p hmem
  cases p with
  | blocked owner => exact hblocked owner hmem
  | sleeping => exact h.inv.asleep hnobody hmem
  | _ => cases hp

/-- **Everybody returns.** From where the calls in progress add up to the
counter, and with no further calls, the threads have a bounded number of
steps to make between spurious wakeups, whatever their order and whenever
the destructor begins. Where none of them can go on they have all
returned, the destructor included, and there is always a way to get
there. -/
theorem everybody_returns (hcount : 0 ≤ count) (hrun : Runs Step OneOwner (init count) s)
    (howed : owed s.threads = s.counter) (hn : ∀ n, .counting n ∈ s.threads → 0 ≤ n)
    (hrest : Trace Step NoCall s es t) :
    spent Event.work es ≤ 9 * s.threads.card + spent Event.brings es ∧
      (AtRest Step Event.work t → t.counter = 0 ∧ t.threads = 0) ∧
      ∃ es' u, Trace Step NoCall t es' u ∧ (∀ e ∈ es', 0 < e.work) ∧ u.threads = 0 := by
  obtain ⟨hi, hz⟩ := zero_run hcount hrun
  have hneg : tally Pc.negative s.threads = 0 := by
    refine tally_eq_zero fun p hmem => ?_
    cases p with
    | counting n =>
      have := hn n hmem
      simp only [Pc.negative, decide_eq_false_iff_not]
      omega
    | _ => rfl
  obtain ⟨hdue, hle⟩ := pays.spent_le hrest ⟨hi, howed, hneg, hz⟩
  have hcard : s.budget ≤ 9 * s.threads.card := weigh_le_card (cost_le s.counter) _
  refine ⟨by omega, hdue.gone, ?_⟩
  have hown : ∀ (s : State) (e : Event), 0 < e.work → NoCall s e ∧ e.brings = 0 := by
    intro s e he
    match e, he with
    | .destroy true, _ => exact ⟨.other (by simp) (by simp), rfl⟩
    | .countDown _, _ | .notifyAll, _ | .arrive _ _, _ | .enter _ _, _ | .recheck _ _, _
    | .sleep, _ | .destroyed, _ => exact ⟨.other (by simp) (by simp), rfl⟩
  obtain ⟨es', u, hrun', hall, hu⟩ := pays.exists_rest hown hdue
  exact ⟨es', u, hrun', hall, ((pays.spent_le hrun' hdue).1.gone hu).2⟩

/-- A thread waits, another one is about to count down, and the destructor
sleeps until the first has left. -/
theorem everybody_returns_of_wait : ∃ s, s.threads = {.sleeping, .blocked false, .counting 1} ∧
    ∃ es' u, Trace Step NoCall s es' u ∧ (∀ e ∈ es', 0 < e.work) ∧ u.threads = 0 := by
  have h₀ : Runs Step OneOwner (init 1) (init 1) := .refl _
  have h₁ := h₀.tail (.other (by rintro p ⟨⟩; rfl) (by simp)) (.call (p := .counting 1) rfl)
  have h₂ := h₁.tail (.other (by rintro p ⟨⟩; rfl) (by simp)) (.call (p := .entering false) rfl)
  have h₃ := h₂.tail (.other (by simp) (by simp))
    (.enter (show _ = Pc.entering false ::ₘ {.counting 1} by decide) (by decide))
  have h₄ := h₃.tail (fun _ => by decide) (.destroyEarly rfl)
  have h₅ := h₄.tail (.other (by simp) (by simp))
    (.sleep (show _ = Pc.destroying ::ₘ {.blocked false, .counting 1} by decide) (.inl rfl)
      (by decide))
  exact ⟨_, rfl, (everybody_returns (by decide) h₅ (by decide) (by simp) (.nil _)).2.2⟩

end Latch

end PortableConcurrency
