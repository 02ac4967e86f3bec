import PortableConcurrency.Common.Budget
import PortableConcurrency.Timed.Model

/-!
# What a `timed_waiter` may rely on

The mutex, the condition variable and the flag live as long as one object
or the continuation does, so nobody comes too late for them. The flag is
set once, by the continuation, which is called only when the future is
ready. From then on no call gives up, and the `notify_all` that follows
reaches everybody who went to sleep before.
-/

namespace PortableConcurrency

namespace Timed

variable {s t s' : State} {e : Event} {es es₁ es₂ : List Event} {c d : Call} {o o' : ℕ}
variable {pc : Pc} {rest : Multiset Call}

/-- Whether the continuation is one of the owners. -/
def Cb.owns : Cb → ℕ
  | .destroyed => 0
  | _ => 1

/-- Whether the continuation has set the flag, if it was called. -/
def Cb.past : Cb → Bool
  | .notifying => true
  | .returned => true
  | .destroyed => true
  | _ => false

/-- Which calls are those on `o`. -/
def Call.on (o : ℕ) (c : Call) : Bool := c.obj = o

/-- The calls on `o` that an event begins. -/
def Event.calls (o : ℕ) : Event → ℕ
  | .call o' => if o' = o then 1 else 0
  | _ => 0

/-- The calls on `o` that an event ends. -/
def Event.answers (o : ℕ) : Event → ℕ
  | .answer o' _ => if o' = o then 1 else 0
  | _ => 0

@[simp] theorem release_calls (s : State) : s.release.calls = s.calls := rfl

theorem wake_eq_some : cv.wake c = some d ↔ c.pc = .blocked ∧ d = ⟨c.obj, .woken⟩ := by
  obtain ⟨o, pc⟩ := c
  cases pc <;> simp [cv, Call.wake, eq_comm]

theorem wake_eq_none : cv.wake c = none ↔ c.pc ≠ .blocked := by
  obtain ⟨o, pc⟩ := c
  cases pc <;> simp [cv, Call.wake]

theorem obj_wake (h : cv.wake c = some d) : d.obj = c.obj := by
  obtain ⟨-, rfl⟩ := wake_eq_some.mp h
  rfl

theorem on_wake (h : cv.wake c = some d) : d.on o = c.on o := by
  unfold Call.on
  rw [obj_wake h]

/-! ## The invariant -/

/-- **What holds between the steps.** -/
structure Inv (s : State) : Prop where
  count : s.useCount = s.objects.card + s.cb.owns
  deallocated : s.deallocated = true ↔ s.useCount = 0
  /-- calls in progress are on objects that exist -/
  owned : ∀ c ∈ s.calls, c.obj ∈ s.objects
  pending : s.future = .pending → s.cb = .captured ∨ s.cb = .linked
  gone : s.future = .gone → s.cb = .destroyed
  flag : s.notified = true ↔ s.future = .ready ∧ s.cb.past = true
  /-- nobody is left behind when `notify_all` was there -/
  awake : s.notified = true → s.cb ≠ .notifying → ∀ c ∈ s.calls, cv.wake c = none

theorem inv_init : Inv init where
  count := by simp [init, Cb.owns]
  deallocated := by simp [init]
  owned := by simp [init]
  pending _ := .inl rfl
  gone h := by simp [init] at h
  flag := by simp [init, Cb.past]
  awake h := by simp [init] at h

/-- **Who can do anything with the three is an owner**, or has one. -/
theorem Inv.used (hi : Inv s) (hst : Step s e t) (he : e ≠ .complete) : 0 < s.useCount := by
  have hcount := hi.count
  have hobj : ∀ o ∈ s.objects, 0 < s.useCount := by
    intro o ho
    have := Finset.card_pos.mpr ⟨o, ho⟩
    omega
  have hcall : ∀ {c : Call} {rest : Multiset Call}, s.calls = c ::ₘ rest → 0 < s.useCount := by
    intro c rest hc
    exact hobj c.obj (hi.owned c (by rw [hc]; exact Multiset.mem_cons_self c rest))
  have hcb : ∀ cb, s.cb = cb → cb.owns = 1 → 0 < s.useCount := by
    intro cb h h1
    rw [h, h1] at hcount
    omega
  cases hst with
  | notify h | refuse h | vanish h | begin h | set h | notifyAll h | discard h =>
    exact hcb _ h rfl
  | complete => exact absurd rfl he
  | copy _ ho | destroy _ ho | call _ ho => exact hobj _ ho
  | block hc | expire hc | answer hc | giveUp hc | spurious hc => exact hcall hc

theorem Inv.alive (hi : Inv s) (hst : Step s e t) (he : e ≠ .complete) :
    s.deallocated = false := by
  have hpos := hi.used hst he
  have hiff := hi.deallocated
  cases hd : s.deallocated with
  | false => rfl
  | true =>
    have := hiff.mp hd
    omega

/-- The count stays right, and deallocates with the last owner. -/
theorem Inv.count_step (hi : Inv s) (hst : Step s e t) :
    t.useCount = t.objects.card + t.cb.owns := by
  have hcount := hi.count
  cases hst with
  | notify h | refuse h | begin h | set h | notifyAll h =>
    rw [h] at hcount
    exact hcount
  | vanish h | discard h =>
    rw [h] at hcount
    simp only [State.release, Cb.owns] at hcount ⊢
    omega
  | copy hcon ho ho' =>
    simp only [Finset.card_insert_of_notMem ho']
    omega
  | @destroy o hcon ho hidle =>
    have hpos := Finset.card_pos.mpr ⟨o, ho⟩
    simp only [State.release, Finset.card_erase_of_mem ho]
    omega
  | _ => exact hcount

theorem deallocated_release (hd : s.deallocated = true ↔ s.useCount = 0) (hpos : 0 < s.useCount) :
    s.release.deallocated = true ↔ s.release.useCount = 0 := by
  simp only [State.release, Bool.or_eq_true, decide_eq_true_eq, hd]
  omega

theorem Inv.deallocated_step (hi : Inv s) (hst : Step s e t) :
    t.deallocated = true ↔ t.useCount = 0 := by
  have hpos := hi.used hst
  have hd := hi.deallocated
  cases hst with
  | vanish | discard | destroy => exact deallocated_release hd (hpos (by simp))
  | copy =>
    have := hpos (by simp)
    simp only [hd]
    omega
  | _ => exact hd

theorem Inv.owned_step (hi : Inv s) (hst : Step s e t) : ∀ c ∈ t.calls, c.obj ∈ t.objects := by
  have ho := hi.owned
  have hcons : ∀ {c d : Call} {rest : Multiset Call}, s.calls = c ::ₘ rest → d.obj = c.obj →
      ∀ d' ∈ d ::ₘ rest, d'.obj ∈ s.objects := by
    intro c d rest hc hd
    rw [hc, Multiset.forall_mem_cons] at ho
    rw [Multiset.forall_mem_cons, hd]
    exact ho
  cases hst with
  | notifyAll =>
    intro c hc
    rcases CondVar.of_mem_notifyAll hc with hc | ⟨d, hd, hw⟩
    · exact ho c hc
    · rw [obj_wake hw]
      exact ho d hd
  | copy => exact fun c hc => Finset.mem_insert_of_mem (ho c hc)
  | destroy hcon hmem hidle => exact fun c hc => Finset.mem_erase.mpr ⟨hidle c hc, ho c hc⟩
  | call hcon hmem =>
    rw [Multiset.forall_mem_cons]
    exact ⟨hmem, ho⟩
  | block hc | expire hc => exact hcons hc rfl
  | spurious hc hw => exact hcons hc (obj_wake hw)
  | answer hc | giveUp hc =>
    rw [hc] at ho
    exact fun c h => ho c (Multiset.mem_cons_of_mem h)
  | _ => exact ho

/-- A continuation that is being called has found the future ready. -/
theorem Inv.ready_of_called (hi : Inv s) (hcaptured : s.cb ≠ .captured) (hlinked : s.cb ≠ .linked)
    (hdestroyed : s.cb ≠ .destroyed) : s.future = .ready := by
  cases hs : s.future with
  | pending => exact absurd (hi.pending hs) (by simp [hcaptured, hlinked])
  | ready => rfl
  | gone => exact absurd (hi.gone hs) hdestroyed

/-- The continuation is called when the future is ready, sets the flag, and
is not called again. -/
theorem Inv.flag_step (hi : Inv s) (hst : Step s e t) :
    (t.future = .pending → t.cb = .captured ∨ t.cb = .linked) ∧
      (t.future = .gone → t.cb = .destroyed) ∧
      (t.notified = true ↔ t.future = .ready ∧ t.cb.past = true) := by
  have hp := hi.pending
  have hg := hi.gone
  have hf := hi.flag
  cases hst with
  | notify h hopen | refuse h hopen | begin h hopen => simp_all [Cb.past]
  | complete hopen =>
    rcases hp hopen with h | h <;> simp_all [Cb.past]
  | vanish h hopen => simp_all [Cb.past, State.release]
  | set h | notifyAll h | discard h =>
    have hfut : s.future = .ready := hi.ready_of_called (by simp [h]) (by simp [h]) (by simp [h])
    simp_all [Cb.past, State.release]
  | _ => exact ⟨hp, hg, hf⟩

theorem Inv.awake_step (hi : Inv s) (hst : Step s e t) (hset : t.notified = true)
    (hcb : t.cb ≠ .notifying) : ∀ c ∈ t.calls, cv.wake c = none := by
  have ha := hi.awake
  have hf := hi.flag
  have hp := hi.pending
  have hcons : ∀ {c d : Call} {rest : Multiset Call}, s.calls = c ::ₘ rest →
      s.notified = true → s.cb ≠ .notifying → cv.wake d = none →
      ∀ d' ∈ d ::ₘ rest, cv.wake d' = none := by
    intro c d rest hc h1 h2 hd
    have hrest := ha h1 h2
    rw [hc, Multiset.forall_mem_cons] at hrest
    rw [Multiset.forall_mem_cons]
    exact ⟨hd, hrest.2⟩
  cases hst with
  | notify h hopen | refuse h hopen | begin h hopen => exact ha hset (by simp [h])
  | complete hopen =>
    have := (hf.mp hset).1
    simp [hopen] at this
  | vanish h hopen =>
    have := (hf.mp hset).1
    simp [hopen] at this
  | set h => exact absurd rfl hcb
  | notifyAll h => exact fun c hc => CondVar.wake_notifyAll hc
  | discard h => exact ha hset (by simp [h])
  | call hcon ho =>
    rw [Multiset.forall_mem_cons]
    exact ⟨rfl, ha hset hcb⟩
  | block hc hpc hunset =>
    simp only [hunset] at hset
    cases hset
  | expire hc => exact hcons hc hset hcb rfl
  | answer hc | giveUp hc =>
    rw [hc] at ha
    exact fun c h => ha hset hcb c (Multiset.mem_cons_of_mem h)
  | @spurious c d rest hc hw => exact hcons hc hset hcb (cv.awake c d hw)
  | copy | destroy => exact ha hset hcb

theorem Inv.step (hi : Inv s) (hst : Step s e t) : Inv t :=
  have hflag := hi.flag_step hst
  ⟨hi.count_step hst, hi.deallocated_step hst, hi.owned_step hst, hflag.1, hflag.2.1, hflag.2.2,
    hi.awake_step hst⟩

theorem inv_run (hrun : Runs Step Unguarded init s) : Inv s :=
  hrun.invariant (fun _ _ _ hi _ hst => hi.step hst) inv_init

/-! ## Answers -/

/-- Who is told that the future is ready may rely on it. -/
theorem complete_mem (hrun : Trace Step Unguarded init es s) :
    s.future = .ready → .complete ∈ es := by
  refine hrun.invariant (I := fun es s => s.future = .ready → .complete ∈ es) ?_ (by simp [init])
  intro es s e t ih _ hst hready
  rw [List.mem_append]
  cases hst with
  | complete => exact .inr (List.mem_singleton_self _)
  | vanish => cases hready
  | _ => exact .inl (ih hready)

/-- **When the flag is set nobody gives up.** -/
theorem no_timeout (hset : s.notified = true) (hrun : Trace Step Unguarded s es t) :
    t.notified = true ∧ ∀ o, .answer o .timeout ∉ es := by
  refine hrun.invariant
    (I := fun es t => t.notified = true ∧ ∀ o, Event.answer o .timeout ∉ es) ?_ ⟨hset, by simp⟩
  rintro es s e t ⟨hs, hno⟩ _ hst
  have hkeep : t.notified = true := by
    cases hst with
    | set => rfl
    | _ => exact hs
  refine ⟨hkeep, ?_⟩
  intro o hmem
  rcases List.mem_append.mp hmem with hmem | hmem
  · exact hno o hmem
  · obtain rfl := List.mem_singleton.mp hmem
    cases hst with
    | giveUp hc hunset =>
      rw [hunset] at hs
      cases hs

theorem told (hrun : Trace Step Unguarded init (es₁ ++ .answer o .ready :: es₂) s) :
    .complete ∈ es₁ ∧ ∀ o', .answer o' .timeout ∉ es₂ := by
  obtain ⟨t, h₁, h₂⟩ := hrun.append_inv
  obtain ⟨t', -, hst, h₂⟩ := h₂.cons_inv
  have hi := inv_run h₁.runs
  cases hst with
  | answer hc hpc hset =>
    refine ⟨complete_mem h₁ (hi.flag.mp hset).1, (no_timeout (s := { t with calls := _ }) ?_ h₂).2⟩
    exact hset

/-- **Every call is answered once.** -/
theorem answered (hrun : Trace Step Unguarded init es s) (o : ℕ) :
    spent (Event.calls o) es = spent (Event.answers o) es + tally (Call.on o) s.calls := by
  refine hrun.invariant (I := fun es s => spent (Event.calls o) es =
    spent (Event.answers o) es + tally (Call.on o) s.calls) ?_ (by simp [init])
  intro es s e t ih _ hst
  simp only [spent_append, spent_singleton]
  cases hst with
  | notifyAll =>
    rw [CondVar.tally_notifyAll fun _ _ => on_wake]
    simpa [Event.calls, Event.answers] using ih
  | call hcon ho =>
    simp only [tally_cons, Event.calls, Event.answers, Call.on, decide_eq_true_eq]
    omega
  | block hc | expire hc =>
    simpa [hc, Call.on, Event.calls, Event.answers] using ih
  | answer hc | giveUp hc =>
    simp only [hc, tally_cons, Call.on, decide_eq_true_eq] at ih
    simp only [Event.calls, Event.answers]
    omega
  | spurious hc hw =>
    simpa [hc, on_wake hw, Event.calls, Event.answers] using ih
  | _ => simpa [Event.calls, Event.answers] using ih

/-- **What a `timed_waiter` and its copies do**, in every run: only the
future is touched after the mutex, the condition variable and the flag were
deallocated, which they are when the last object and the continuation are
gone, and not before; whoever is told `ready` is told so after the future
became ready, and nobody is told `timeout` after that; who is blocked when
the flag is set still has the `notify_all` before it; every call is
answered once. -/
theorem timed_law (hrun : Trace Step Unguarded init es s) :
    (∀ e t, Step s e t → e ≠ .complete → s.deallocated = false) ∧
      (s.deallocated = true ↔ s.objects = ∅ ∧ s.cb = .destroyed) ∧
      (∀ es₁ o es₂, es = es₁ ++ .answer o .ready :: es₂ →
        .complete ∈ es₁ ∧ ∀ o', .answer o' .timeout ∉ es₂) ∧
      (s.notified = true → (∃ c ∈ s.calls, c.pc = .blocked) → s.cb = .notifying) ∧
      ∀ o, spent (Event.calls o) es = spent (Event.answers o) es + tally (Call.on o) s.calls := by
  have hi := inv_run hrun.runs
  refine ⟨fun e t hst he => hi.alive hst he, ?_, ?_, ?_, answered hrun⟩
  · rw [hi.deallocated, hi.count, Nat.add_eq_zero_iff, Finset.card_eq_zero]
    refine and_congr_right fun _ => ?_
    cases s.cb <;> simp [Cb.owns]
  · rintro es₁ o es₂ rfl
    exact told hrun
  · rintro hset ⟨c, hc, hblocked⟩
    by_contra hcb
    exact wake_eq_none.mp (hi.awake hset hcb c hc) hblocked

/-- A call gives up and its object is destroyed; the continuation comes
later. -/
theorem timed_law_of_timeout : ∃ es s, Trace Step Unguarded init es s ∧
    .answer 0 .timeout ∈ es ∧ s.objects = ∅ ∧ s.cb = .destroyed := by
  have h₀ : Trace Step Unguarded init [] init := .nil _
  have h₁ := h₀.snoc trivial (.notify rfl rfl)
  have h₂ := h₁.snoc trivial (.call (o := 0) rfl (by decide))
  have h₃ := h₂.snoc trivial (.block (show _ = (⟨0, .entering⟩ : Call) ::ₘ 0 by rfl) (.inl rfl) rfl)
  have h₄ := h₃.snoc trivial (.expire (show _ = (⟨0, .blocked⟩ : Call) ::ₘ 0 by rfl))
  have h₅ := h₄.snoc trivial (.giveUp (show _ = (⟨0, .expired⟩ : Call) ::ₘ 0 by rfl) rfl)
  have h₆ := h₅.snoc trivial (.destroy (o := 0) rfl (by decide) (by simp))
  have h₇ := h₆.snoc trivial (.complete rfl)
  have h₈ := h₇.snoc trivial (.begin rfl rfl)
  have h₉ := (h₈.snoc trivial (.set rfl)).snoc trivial (.notifyAll rfl)
  have h := h₉.snoc trivial (.discard rfl)
  exact ⟨_, _, h, by decide, (timed_law h).2.1.mp rfl⟩

end Timed

end PortableConcurrency
