import PortableConcurrency.Common.Budget
import PortableConcurrency.Waiting.Law

/-!
# Every `wait` returns

Whoever holds the mutex goes on, and so the thread and its continuation do
not keep each other from going on. When nothing can go on, all threads have
returned, or there is no result.
-/

namespace PortableConcurrency

namespace Waiting

variable {s s' t : State} {e : Event} {es : List Event} {i : ℕ} {w w' : Waiter} {a : Act}

/-- What a thread has still to do. -/
def Pc.cost : Pc → ℕ
  | .pushing => 14
  | .calling => 5
  | .locking => 5
  | .testing => 4
  | .blocked => 3
  | .woken => 5
  | .unlocking => 2
  | .leaving => 1
  | .returned => 0

/-- And its continuation. -/
def Cb.cost : Cb → ℕ
  | .absent => 0
  | .linked => 8
  | .locking => 7
  | .setting => 6
  | .notifying => 5
  | .unlocking => 2
  | .returning => 1
  | .done => 0

def Waiter.cost (w : Waiter) : ℕ := w.pc.cost + w.cb.cost

def Exec.cost : Exec → ℕ
  | .idle => 0
  | .stored => 2
  | .loop _ => 1
  | .done => 0

/-- What all threads and their continuations have still to do. -/
def State.threads (s : State) : ℕ := Table.total (fun _ w => w.cost) s.waiters s.fresh

/-- And the other continuations. -/
def State.others (s : State) : ℕ := s.pending.count .other

def State.budget (s : State) : ℕ := s.threads + s.others + s.exec.cost

def Act.work : Act → ℕ
  | .wake => 0
  | _ => 1

/-- The steps of the threads, and of the one that makes the state ready
once it has begun. -/
def Event.work : Event → ℕ
  | .call => 0
  | .notify => 0
  | .store => 0
  | .act _ a => a.work
  | _ => 1

/-- What the other steps give them to do. -/
def Event.brings : Event → ℕ
  | .call => 14
  | .notify => 1
  | .store => 2
  | .act _ .wake => 2
  | _ => 0

theorem act_cost (ha : w.act a = some w') :
    w'.cost + a.work ≤ w.cost + (Event.act i a).brings := by
  obtain ⟨pc, cb, mtx, ready⟩ := w
  cases a with
  | lock =>
    simp only [Waiter.act, Option.ite_none_right_eq_some, Option.some.injEq] at ha
    obtain ⟨⟨rfl | rfl, -⟩, rfl⟩ := ha <;>
      simp only [Waiter.cost, Pc.cost, Act.work, Event.brings] <;> omega
  | test =>
    simp only [Waiter.act, Option.ite_none_right_eq_some] at ha
    obtain ⟨rfl, ha⟩ := ha
    cases ready with
    | true =>
      simp only [if_true, Option.some.injEq] at ha
      subst ha
      simp only [Waiter.cost, Pc.cost, Act.work, Event.brings]
      omega
    | false =>
      simp at ha
      subst ha
      simp only [Waiter.cost, Pc.cost, Act.work, Event.brings]
      omega
  | notifyOne =>
    simp only [Waiter.act, Option.ite_none_right_eq_some, Option.some.injEq] at ha
    obtain ⟨rfl, rfl⟩ := ha
    by_cases hpc : pc = .blocked
    · simp only [hpc, if_true, Waiter.cost, Pc.cost, Cb.cost, Act.work, Event.brings]
      omega
    · simp only [if_neg hpc, Waiter.cost, Cb.cost, Act.work, Event.brings]
      omega
  | wake | unlock | leave | setReady | unlockGuard =>
    simp only [Waiter.act, Option.ite_none_right_eq_some, Option.some.injEq] at ha
    obtain ⟨rfl, rfl⟩ := ha
    simp only [Waiter.cost, Pc.cost, Cb.cost, Act.work, Event.brings]
    omega
  | lockGuard =>
    simp only [Waiter.act, Option.ite_none_right_eq_some, Option.some.injEq] at ha
    obtain ⟨⟨rfl, -⟩, rfl⟩ := ha
    simp only [Waiter.cost, Cb.cost, Act.work, Event.brings]
    omega

/-- What a change of one waiter comes to. -/
theorem threads_set (h : Sound s) (hw : s.waiters i = some w) (w' : Waiter) :
    (s.set i w').threads + w.cost = s.threads + w'.cost := by
  have hlt : i < s.fresh := by
    by_contra hle
    rw [h.fresh i (by omega)] at hw
    cases hw
  exact Table.total_update (g := fun _ w => w.cost) hlt hw w'

theorem threads_call (s : State) : State.threads { s with
    waiters := Function.update s.waiters s.fresh (some .start)
    fresh := s.fresh + 1 } = s.threads + 14 :=
  Table.total_push (fun _ (w : Waiter) => w.cost) s.waiters s.fresh Waiter.start

theorem others_of_pending (h : t.pending = s.pending) : t.others = s.others := by
  rw [State.others, State.others, h]

/-- **Every step lowers what is left to do.** -/
theorem Sound.step_pays (h : Sound s) (hst : Step s e s') :
    s'.budget + e.work ≤ s.budget + e.brings := by
  cases hst with
  | call =>
    have hthreads := threads_call s
    have hothers : State.others { s with
      waiters := Function.update s.waiters s.fresh (some .start)
      fresh := s.fresh + 1 } = s.others := rfl
    simp only [State.budget, Event.work, Event.brings]
    omega
  | @push i w hw hpc hopen =>
    have hthreads := threads_set h hw { w with pc := .locking, cb := .linked }
    have hcb := (h.ok i w hw).absent.mpr hpc
    have hold : w.cost = 14 := by rw [Waiter.cost, hpc, hcb]; rfl
    have hnew : Waiter.cost { w with pc := .locking, cb := .linked } = 13 := rfl
    have hothers : State.others { s with list := .waiter i :: s.list } = s.others := by
      rw [State.others, (pending_push hopen (.waiter i)).1, List.count_cons_of_ne (by simp)]
      rfl
    change (s.set i { w with pc := .locking, cb := .linked }).threads +
      State.others { s with list := .waiter i :: s.list } + s.exec.cost + 1 ≤ s.budget + 0
    simp only [State.budget]
    omega
  | @refuse i w hw hpc hready =>
    have hthreads := threads_set h hw { w with pc := .calling, cb := .locking }
    have hcb := (h.ok i w hw).absent.mpr hpc
    have hold : w.cost = 14 := by rw [Waiter.cost, hpc, hcb]; rfl
    have hnew : Waiter.cost { w with pc := .calling, cb := .locking } = 12 := rfl
    change (s.set i { w with pc := .calling, cb := .locking }).threads + s.others +
      s.exec.cost + 1 ≤ s.budget + 0
    simp only [State.budget]
    omega
  | notify hopen =>
    have hothers : State.others { s with list := .other :: s.list } = s.others + 1 := by
      rw [State.others, (pending_push hopen .other).1, List.count_cons_self]
      rfl
    change s.threads + State.others { s with list := .other :: s.list } + s.exec.cost + 0 ≤
      s.budget + 1
    simp only [State.budget]
    omega
  | store hidle =>
    have hothers : State.others { s with exec := .stored } = s.others :=
      others_of_pending (by simp [State.pending, hidle])
    change s.threads + State.others { s with exec := .stored } + 2 + 0 ≤ s.budget + 2
    simp only [State.budget]
    omega
  | consume hexec =>
    have hothers : State.others { s with list := [], exec := .loop s.list } = s.others :=
      others_of_pending (by simp [State.pending, hexec])
    have hcost : s.exec.cost = 2 := by rw [hexec]; rfl
    change s.threads + State.others { s with list := [], exec := .loop s.list } + 1 + 1 ≤
      s.budget + 0
    simp only [State.budget]
    omega
  | @begin i w items hexec hw hcb =>
    have hthreads := threads_set h hw { w with cb := .locking }
    have hold : w.cost = w.pc.cost + 8 := by rw [Waiter.cost, hcb]; rfl
    have hnew : Waiter.cost { w with cb := .locking } = w.pc.cost + 7 := rfl
    change (s.set i { w with cb := .locking }).threads + s.others + s.exec.cost + 1 ≤ s.budget + 0
    simp only [State.budget]
    omega
  | @finish i w items hexec hw hcb =>
    have hthreads := threads_set h hw { w with cb := .done }
    have hold : w.cost = w.pc.cost + 1 := by rw [Waiter.cost, hcb]; rfl
    have hnew : Waiter.cost { w with cb := .done } = w.pc.cost := rfl
    have hothers : State.others { s with exec := .loop items } = s.others := by
      simp [State.others, State.pending, hexec]
    have hcost : s.exec.cost = 1 := by rw [hexec]; rfl
    change (s.set i { w with cb := .done }).threads + State.others { s with exec := .loop items } +
      1 + 1 ≤ s.budget + 0
    simp only [State.budget]
    omega
  | @resume i w hw hpc hcb =>
    have hthreads := threads_set h hw { w with pc := .locking, cb := .done }
    have hold : w.cost = 6 := by rw [Waiter.cost, hpc, hcb]; rfl
    have hnew : Waiter.cost { w with pc := .locking, cb := .done } = 5 := rfl
    change (s.set i { w with pc := .locking, cb := .done }).threads + s.others + s.exec.cost + 1 ≤
      s.budget + 0
    simp only [State.budget]
    omega
  | @skip items hexec =>
    have hothers : State.others { s with exec := .loop items } + 1 = s.others := by
      simp [State.others, State.pending, hexec]
    have hcost : s.exec.cost = 1 := by rw [hexec]; rfl
    change s.threads + State.others { s with exec := .loop items } + 1 + 1 ≤ s.budget + 0
    simp only [State.budget]
    omega
  | exit hexec =>
    have hothers : State.others { s with exec := .done } = s.others := by
      simp [State.others, State.pending, hexec]
    have hcost : s.exec.cost = 1 := by rw [hexec]; rfl
    change s.threads + State.others { s with exec := .done } + 0 + 1 ≤ s.budget + 0
    simp only [State.budget]
    omega
  | @act i a w w' hw ha =>
    have hthreads := threads_set h hw w'
    have hcost := act_cost (i := i) ha
    change (s.set i w').threads + s.others + s.exec.cost + a.work ≤ s.budget + _
    simp only [State.budget]
    omega

theorem pays : Pays Step Unguarded Sound State.budget Event.work Event.brings :=
  fun _ _ _ h _ hst => ⟨h.step hst, h.step_pays hst⟩

/-! ## Who goes on -/

/-- In the middle of `wait`, not in `push` and not in `cv.wait`. -/
def Pc.moves : Pc → Bool
  | .locking => true
  | .testing => true
  | .woken => true
  | .unlocking => true
  | .leaving => true
  | _ => false

/-- In the middle of the call. -/
def Cb.moves : Cb → Bool
  | .locking => true
  | .setting => true
  | .notifying => true
  | .unlocking => true
  | _ => false

/-- **Whoever holds the mutex goes on**, and if nobody does the other one
gets it. -/
theorem Waiter.Ok.goes_on (h : w.Ok) (hmoves : w.pc.moves = true ∨ w.cb.moves = true) :
    ∃ a w', w.act a = some w' ∧ a.work = 1 := by
  have hthr := h.thread
  have hcbk := h.callback
  cases hmtx : w.mtx with
  | thread =>
    have hholds := hthr.mp hmtx
    cases hpc : w.pc with
    | testing =>
      cases hflag : w.ready with
      | true => exact ⟨.test, _, by rw [Waiter.act, if_pos hpc, if_pos hflag], rfl⟩
      | false => exact ⟨.test, _, by rw [Waiter.act, if_pos hpc, if_neg (by simp [hflag])], rfl⟩
    | unlocking => exact ⟨.unlock, _, if_pos hpc, rfl⟩
    | _ =>
      rw [hpc] at hholds
      cases hholds
  | callback =>
    have hholds := hcbk.mp hmtx
    cases hcb : w.cb with
    | setting => exact ⟨.setReady, _, if_pos hcb, rfl⟩
    | notifying => exact ⟨.notifyOne, _, if_pos hcb, rfl⟩
    | unlocking => exact ⟨.unlockGuard, _, if_pos hcb, rfl⟩
    | _ =>
      rw [hcb] at hholds
      cases hholds
  | nobody =>
    have hnot : w.pc.holds = false := by simpa [hmtx] using hthr
    have hnot' : w.cb.holds = false := by simpa [hmtx] using hcbk
    rcases hmoves with hm | hm
    · cases hpc : w.pc with
      | locking => exact ⟨.lock, _, if_pos ⟨.inl hpc, hmtx⟩, rfl⟩
      | woken => exact ⟨.lock, _, if_pos ⟨.inr hpc, hmtx⟩, rfl⟩
      | leaving => exact ⟨.leave, _, if_pos hpc, rfl⟩
      | testing | unlocking =>
        rw [hpc] at hnot
        cases hnot
      | _ =>
        rw [hpc] at hm
        cases hm
    · cases hcb : w.cb with
      | locking => exact ⟨.lockGuard, _, if_pos ⟨hcb, hmtx⟩, rfl⟩
      | setting | notifying | unlocking =>
        rw [hcb] at hnot'
        cases hnot'
      | _ =>
        rw [hcb] at hm
        cases hm

theorem Waiter.Listed.returning (h : w.Listed) (ht : w.cb.through = true) :
    w.cb = .returning := by
  cases hcb : w.cb with
  | returning => rfl
  | done =>
    rcases h with hl | ⟨ha, -⟩
    · rw [hcb] at hl
      cases hl
    · rw [hcb] at ha
      cases ha
  | _ =>
    rw [hcb] at ht
    cases ht

/-- Where a thread is that nobody can help on. -/
theorem Sound.stuck (h : Sound s) (hrest : AtRest Step Event.work s) (hw : s.waiters i = some w) :
    (w.pc = .blocked ∧ w.cb = .linked) ∨ w.pc = .returned := by
  have hok := h.ok i w hw
  have hidle : ¬ (w.pc.moves = true ∨ w.cb.moves = true) := by
    intro hmoves
    obtain ⟨a, w', ha, hwork⟩ := hok.goes_on hmoves
    have hnone : a.work = 0 := hrest _ _ (Step.act hw ha)
    omega
  obtain ⟨hpcm, hcbm⟩ := not_or.mp hidle
  -- a continuation that is being called is about to return
  have hreturning : w.cb.active = true → w.cb = .returning := by
    intro ha
    cases hcb : w.cb with
    | returning => rfl
    | absent | linked | done =>
      rw [hcb] at ha
      cases ha
    | _ =>
      rw [hcb] at hcbm
      exact absurd rfl hcbm
  cases hpc : w.pc with
  | pushing =>
    cases hready : s.isReady with
    | true => exact absurd (hrest _ _ (Step.refuse hw hpc hready)) (by simp [Event.work])
    | false => exact absurd (hrest _ _ (Step.push hw hpc hready)) (by simp [Event.work])
  | calling =>
    have hcb := hreturning (hok.calling hpc)
    exact absurd (hrest _ _ (Step.resume hw hpc hcb)) (by simp [Event.work])
  | blocked =>
    refine .inl ⟨rfl, ?_⟩
    obtain ⟨hmem, htold⟩ := h.ahead hw hpc
    rcases (h.listed i w hw).mpr hmem with hl | ⟨ha, -⟩
    · exact hl
    · have hcb := hreturning ha
      have := htold (by rw [hcb]; rfl)
      rw [hcb] at this
      cases this
  | returned => exact .inr rfl
  | _ =>
    rw [hpc] at hpcm
    exact absurd rfl hpcm

/-- **What a future state at rest looks like.** -/
theorem Sound.at_rest (h : Sound s) (hrest : AtRest Step Event.work s) :
    (s.exec = .idle ∧ ∀ i w, s.waiters i = some w → w.pc = .blocked) ∨
      (s.exec = .done ∧ ∀ i w, s.waiters i = some w → w.pc = .returned) := by
  cases hexec : s.exec with
  | idle =>
    refine .inl ⟨rfl, fun i w hw => ?_⟩
    rcases h.stuck hrest hw with ⟨hpc, -⟩ | hpc
    · exact hpc
    · -- who has returned was called
      have hthrough := (h.ok i w hw).out (by rw [hpc]; rfl)
      have hready := h.called i w hw (called_of_through hthrough)
      rw [State.isReady, hexec] at hready
      cases hready
  | stored => exact absurd (hrest _ _ (Step.consume hexec)) (by simp [Event.work])
  | loop items =>
    exfalso
    cases items with
    | nil => exact absurd (hrest _ _ (Step.exit hexec)) (by simp [Event.work])
    | cons x items =>
      cases x with
      | other => exact absurd (hrest _ _ (Step.skip hexec)) (by simp [Event.work])
      | waiter i =>
        have hmem : .waiter i ∈ s.pending := by
          rw [State.pending, hexec]
          exact List.mem_cons_self
        obtain ⟨w, hw⟩ := h.there i hmem
        rcases h.stuck hrest hw with ⟨-, hcb⟩ | hpc
        · exact absurd (hrest _ _ (Step.begin hexec hw hcb)) (by simp [Event.work])
        · -- who has returned is through with it, and has returned to the loop
          have hthrough := (h.ok i w hw).out (by rw [hpc]; rfl)
          have hcb := ((h.listed i w hw).mpr hmem).returning hthrough
          exact absurd (hrest _ _ (Step.finish hexec hw hcb)) (by simp [Event.work])
  | done =>
    refine .inr ⟨rfl, fun i w hw => ?_⟩
    rcases h.stuck hrest hw with ⟨-, hcb⟩ | hpc
    · have hmem := (h.listed i w hw).mp (.inl hcb)
      rw [State.pending, hexec] at hmem
      cases hmem
    · exact hpc

/-- The threads and the continuations do not store a result. -/
theorem idle_of_work (hst : Step s e t) (he : 0 < e.work) : t.exec = .idle ↔ s.exec = .idle := by
  cases hst with
  | call | notify | store => cases he
  | consume hexec | finish hexec | skip hexec | exit hexec => simp [hexec]
  | _ => exact Iff.rfl

theorem idle_of_run (hrun : Trace Step Unguarded s es t) (hall : ∀ e ∈ es, 0 < e.work) :
    t.exec = .idle ↔ s.exec = .idle := by
  induction hrun with
  | nil => exact Iff.rfl
  | snoc _ _ hst ih =>
    rw [idle_of_work hst (hall _ (by simp)), ih fun e he => hall e (by simp [he])]

/-- **No wait is in vain.** However calls, results, notifications and
spurious wakeups come in between, the threads and the continuations make no
more steps than these give them to do. Where nobody can go on, a state with
a result has been executed to its end and all calls of `wait` have returned,
and from anywhere they get there if they are left alone. -/
theorem no_wait_in_vain (hrun : Trace Step Unguarded init es s) :
    spent Event.work es ≤ spent Event.brings es ∧
      (AtRest Step Event.work s →
        (s.exec = .idle ∧ ∀ i w, s.waiters i = some w → w.pc = .blocked) ∨
          (s.exec = .done ∧ ∀ i w, s.waiters i = some w → w.pc = .returned)) ∧
      (s.stored = true → ∃ es' t, Trace Step Unguarded s es' t ∧ (∀ e ∈ es', 0 < e.work) ∧
        t.exec = .done ∧ ∀ i w, t.waiters i = some w → w.pc = .returned) := by
  have hle := (pays.spent_le hrun sound_init).2
  have hzero : init.budget = 0 := rfl
  have hsound := sound hrun.runs
  have hown : ∀ (s : State) (e : Event), 0 < e.work → Unguarded s e ∧ e.brings = 0 := by
    intro s e he
    cases e with
    | call | notify | store => cases he
    | act i a =>
      cases a with
      | wake => cases he
      | _ => exact ⟨trivial, rfl⟩
    | _ => exact ⟨trivial, rfl⟩
  refine ⟨by omega, hsound.at_rest, fun hstored => ?_⟩
  obtain ⟨es', t, hrun', hall, ht⟩ := pays.exists_rest hown hsound
  refine ⟨es', t, hrun', hall, ?_⟩
  rcases (sound (hrun.append hrun').runs).at_rest ht with ⟨hidle, -⟩ | hdone
  · have := (idle_of_run hrun' hall).mp hidle
    simp [State.stored, this] at hstored
  · exact hdone

/-- A result comes while a thread is about to push its continuation. -/
theorem no_wait_in_vain_of_result : ∃ s, s.waiters 0 = some .start ∧ s.exec = .stored ∧
    ∃ es' t, Trace Step Unguarded s es' t ∧ (∀ e ∈ es', 0 < e.work) ∧
      t.exec = .done ∧ ∀ i w, t.waiters i = some w → w.pc = .returned := by
  have h₀ : Trace Step Unguarded init [] init := .nil _
  have h₁ := h₀.snoc trivial (show Step _ .call _ from .call)
  have h := h₁.snoc trivial (show Step _ .store _ from .store rfl)
  exact ⟨_, rfl, rfl, (no_wait_in_vain h).2.2 rfl⟩

end Waiting

end PortableConcurrency
