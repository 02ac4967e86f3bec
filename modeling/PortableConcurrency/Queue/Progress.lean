import PortableConcurrency.Common.Budget
import PortableConcurrency.Queue.Fifo

/-!
# The queue comes to rest

A consumer that is in `pop` has little to do: it waits, or it returns. It
waits again only when it was woken, so what there is to do is brought in
by the calls, the pushes and the spurious wakeups, and a close brings
nothing. When nobody can go on, all that was accepted has been delivered,
or nobody asks for more.
-/

namespace PortableConcurrency

namespace Queue

variable {V ι : Type*} {s s' t : State V ι} {e : Event V ι} {es : List (Event V ι)}
variable {p q : Pc V ι} {m m' : Multiset (Pc V ι)} {who : ι} {dest val : V} {closed : Bool}

/-- What a consumer has still to do. -/
def Pc.cost (closed : Bool) : Pc V ι → ℕ
  | .popping _ _ => if closed then 1 else 3
  | .blocked _ _ => if closed then 1 else 2
  | .woken _ _ => if closed then 1 else 3

def State.budget (s : State V ι) : ℕ := weigh (Pc.cost s.closed) s.consumers

/-- The steps of the consumers. -/
def Event.work : Event V ι → ℕ
  | .pop _ _ _ => 1
  | .fail _ _ => 1
  | .wait _ _ => 1
  | _ => 0

/-- What the other steps give them to do. -/
def Event.brings : Event V ι → ℕ
  | .call _ _ => 3
  | .push _ => 1
  | .spurious => 1
  | _ => 0

theorem cost_le (closed : Bool) (p : Pc V ι) : p.cost closed ≤ 3 := by
  cases p <;> cases closed <;> simp [Pc.cost]

theorem cost_wake (closed : Bool) (h : cv.wake p = some q) : q.cost closed ≤ p.cost closed + 1 := by
  cases p with
  | blocked =>
    cases h
    cases closed <;> simp [Pc.cost]
  | _ => cases h

/-- Once the queue is closed everybody has one step to make. -/
theorem cost_closed_le (closed : Bool) (p : Pc V ι) : p.cost true ≤ p.cost closed := by
  cases p <;> cases closed <;> simp [Pc.cost]

theorem cost_wake_closed (h : cv.wake p = some q) :
    q.cost true ≤ p.cost true + if (fun _ => false : Pc V ι → Bool) p then 1 else 0 := by
  cases p with
  | blocked =>
    cases h
    simp [Pc.cost]
  | _ => cases h

theorem cost_running (closed : Bool) (h : p.Running who dest) : p.cost closed = if closed then 1 else 3 := by
  cases h <;> rfl

/-- **A close brings nothing.** -/
theorem weigh_close (closed : Bool) (m : Multiset (Pc V ι)) :
    weigh (Pc.cost true) (cv.notifyAll m) ≤ weigh (Pc.cost closed) m := by
  have hall : weigh (Pc.cost true) (cv.notifyAll m) ≤
      weigh (Pc.cost true) m + tally (fun _ => false) m :=
    CondVar.weigh_notifyAll (fun p q h => cost_wake_closed h) m
  have hnone : tally (fun _ : Pc V ι => false) m = 0 := tally_eq_zero fun _ _ => rfl
  have hle := weigh_mono (cost_closed_le closed) m
  omega

theorem step_pays (hst : Step s e s') : s'.budget + e.work ≤ s.budget + e.brings := by
  unfold State.budget
  cases hst with
  | @call who dest =>
    have hle := cost_le s.closed (Pc.popping who dest : Pc V ι)
    simp only [weigh_cons, Event.work, Event.brings]
    omega
  | push hopen hnotify =>
    have hone := hnotify.weigh (g := Pc.cost s.closed) fun _ _ => cost_wake s.closed
    simp only [Event.work, Event.brings]
    omega
  | pushClosed => exact Nat.le_succ _
  | close =>
    have hle := weigh_close s.closed s.consumers
    simp only [Event.work, Event.brings]
    omega
  | pop ht hp hq =>
    have hcost := cost_running s.closed hp
    simp only [ht, weigh_cons, hcost, Event.work, Event.brings]
    split <;> omega
  | fail ht hp hclosed hq =>
    have hcost := cost_running s.closed hp
    simp only [ht, weigh_cons, hcost, Event.work, Event.brings]
    split <;> omega
  | @wait p rest who dest ht hp hopen hq =>
    have hcost := cost_running false hp
    have hblocked : (Pc.blocked who dest).cost false = 2 := rfl
    simp only [ht, weigh_cons, hopen, hcost, hblocked, Event.work, Event.brings,
      Bool.false_eq_true, if_false]
    omega
  | spurious ht hwake =>
    have hle := cost_wake s.closed hwake
    simp only [ht, weigh_cons, Event.work, Event.brings]
    omega

theorem pays : Pays (Step (V := V) (ι := ι)) Unguarded (fun _ => True) State.budget Event.work
    Event.brings :=
  fun _ _ _ _ _ hst => ⟨trivial, step_pays hst⟩

/-- **A consumer that does not wait goes on.** -/
theorem enabled (hmem : p ∈ s.consumers) (hp : cv.waits p = false) :
    ∃ e t, Step s e t ∧ e.work = 1 := by
  obtain ⟨rest, ht⟩ := Multiset.exists_cons_of_mem hmem
  have hrun : p.Running p.who p.dest := by
    cases p with
    | popping => exact .popping
    | woken => exact .woken
    | blocked => cases hp
  cases hq : s.queue with
  | cons val queue => exact ⟨_, _, .pop ht hrun hq, rfl⟩
  | nil =>
    cases hclosed : s.closed with
    | true => exact ⟨_, _, .fail ht hrun hclosed hq, rfl⟩
    | false => exact ⟨_, _, .wait ht hrun hclosed hq, rfl⟩

/-- **What a queue at rest looks like**, after the events `es`: nobody asks
for anything, or it is open and everything has been delivered. -/
theorem rest_delivered (hrun : Trace Step Unguarded init es s) (hrest : AtRest Step Event.work s) :
    s.consumers = 0 ∨ s.closed = false ∧ popped es = accepted es := by
  have hs := served hrun.runs
  have hwaits : ∀ p ∈ s.consumers, cv.waits p = true := by
    intro p hmem
    by_contra hp
    obtain ⟨e, t, hst, he⟩ := enabled hmem (by simpa using hp)
    have := hrest e t hst
    omega
  by_cases hnone : s.consumers = 0
  · exact .inl hnone
  · obtain ⟨p, hmem⟩ := Multiset.exists_mem_of_ne_zero hnone
    have hpos := tally_pos hmem (hwaits p hmem)
    have hopen : s.closed = false := by
      by_contra hclosed
      have := hs.awake (by simpa using hclosed)
      omega
    -- nobody has been notified, so there is nothing to be notified of
    have hwoken : tally Pc.isWoken s.consumers = 0 := by
      refine tally_eq_zero fun q hq => ?_
      have hw := hwaits q hq
      cases q with
      | blocked => rfl
      | _ => cases hw
    have hqueue : s.queue = [] := by
      have := hs.enough hpos
      rw [hwoken] at this
      exact List.length_eq_zero_iff.mp (by omega)
    refine .inr ⟨hopen, ?_⟩
    rw [(fifo hrun).values, hqueue, List.append_nil]

/-- **The consumers come to rest.** However calls, pushes, closes and
spurious wakeups come in between, the consumers make no more steps than
these give them to do. Where none of them can go on, all that was accepted
has been delivered or there is no consumer, and there is none once the
queue is closed. From anywhere they get there if they are left alone. -/
theorem comes_to_rest (hrun : Trace Step Unguarded (init : State V ι) es s) :
    spent Event.work es ≤ spent Event.brings es ∧
      (AtRest Step Event.work s →
        s.consumers = 0 ∨ s.closed = false ∧ popped es = accepted es) ∧
      ∃ es' t, Trace Step Unguarded s es' t ∧ (∀ e ∈ es', 0 < e.work) ∧
        (t.consumers = 0 ∨ t.closed = false ∧ popped (es ++ es') = accepted (es ++ es')) := by
  have hle := (pays.spent_le hrun trivial).2
  have hzero : (init : State V ι).budget = 0 := rfl
  have hown : ∀ (s : State V ι) (e : Event V ι), 0 < e.work → Unguarded s e ∧ e.brings = 0 := by
    intro s e he
    cases e with
    | pop | fail | wait => exact ⟨trivial, rfl⟩
    | _ => cases he
  obtain ⟨es', t, hrun', hall, ht⟩ := pays.exists_rest hown (s := s) trivial
  exact ⟨by omega, rest_delivered hrun, es', t, hrun', hall, rest_delivered (hrun.append hrun') ht⟩

/-- A consumer that waits is woken for a value, and left alone with it. -/
theorem comes_to_rest_of_push : ∃ s : State ℕ ℕ, s.consumers = {.woken 1 0} ∧ s.queue = [7] ∧
    ∃ es' t, Trace Step Unguarded s es' t ∧ (∀ e ∈ es', 0 < e.work) ∧
      (t.consumers = 0 ∨ t.closed = false ∧ popped ([.call 1 0, .wait 1 0, .push 7] ++ es') =
        accepted ([.call 1 0, .wait 1 0, .push 7] ++ es')) := by
  have h₀ : Trace Step Unguarded (init : State ℕ ℕ) [] init := .nil _
  have h₁ := h₀.snoc trivial (show Step _ (.call 1 0) _ from .call)
  have h₂ := h₁.snoc trivial (.wait (show _ = Pc.popping 1 0 ::ₘ 0 by decide) .popping rfl rfl)
  have h₃ := h₂.snoc trivial (show Step _ (.push 7) _ from .push rfl
    (show cv.NotifyOne (Pc.blocked 1 0 ::ₘ 0) (Pc.woken 1 0 ::ₘ 0) from .somebody rfl))
  exact ⟨_, rfl, rfl, (comes_to_rest h₃).2.2⟩

end Queue

end PortableConcurrency
