import PortableConcurrency.Common.Budget
import PortableConcurrency.Waiting.Model

/-!
# Nobody waits in vain, and nobody comes too late

The continuation of a waiting thread notifies with the mutex locked. The
thread cannot return before it has locked the mutex itself, and by then
the continuation is through with the stack of the thread: this is what a
latch, which notifies after it has unlocked, does not have.
-/

namespace PortableConcurrency

namespace Waiting

variable {s s' t : State} {e : Event} {es : List Event} {i j n : ℕ} {w w' : Waiter} {a : Act}
variable {items : List Item} {x : Item}

/-! ## One thread and its continuation -/

/-- Holding the mutex. -/
def Cb.holds : Cb → Bool
  | .setting => true
  | .notifying => true
  | .unlocking => true
  | _ => false

/-- Past `ready = true`. -/
def Cb.told : Cb → Bool
  | .notifying => true
  | .unlocking => true
  | .returning => true
  | .done => true
  | _ => false

/-- Past the last access to what is on the stack of the thread. -/
def Cb.through : Cb → Bool
  | .returning => true
  | .done => true
  | _ => false

/-- Being called. -/
def Cb.active : Cb → Bool
  | .absent => false
  | .linked => false
  | .done => false
  | _ => true

def Pc.holds : Pc → Bool
  | .testing => true
  | .unlocking => true
  | _ => false

/-- Out of `cv.wait`. -/
def Pc.out : Pc → Bool
  | .unlocking => true
  | .leaving => true
  | .returned => true
  | _ => false

/-- **What holds of a call of `wait`.** -/
structure Waiter.Ok (w : Waiter) : Prop where
  absent : w.cb = .absent ↔ w.pc = .pushing
  calling : w.pc = .calling → w.cb.active = true
  thread : w.mtx = .thread ↔ w.pc.holds = true
  callback : w.mtx = .callback ↔ w.cb.holds = true
  flag : w.ready = w.cb.told
  /-- who is out of `cv.wait` has seen the flag with the mutex locked -/
  out : w.pc.out = true → w.cb.through = true
  /-- who waits has not been notified -/
  asleep : w.pc = .blocked → w.cb.told = true → w.cb = .notifying

theorem through_of_told {cb : Cb} (ht : cb.told = true) (hh : cb.holds = false) :
    cb.through = true := by
  cases cb with
  | returning | done => rfl
  | notifying | unlocking => cases hh
  | _ => cases ht

theorem ok_start : Waiter.start.Ok := by
  refine ⟨by simp [Waiter.start], ?_, ?_, ?_, rfl, ?_, ?_⟩ <;>
    simp [Waiter.start, Pc.holds, Cb.holds, Pc.out]

/-- **Every access keeps it.** -/
theorem Waiter.Ok.act (h : w.Ok) (ha : w.act a = some w') : w'.Ok := by
  obtain ⟨pc, cb, mtx, ready⟩ := w
  obtain ⟨habs, hcall, hthr, hcbk, hflag, hout, hasleep⟩ := h
  cases a with
  | lock =>
    simp only [Waiter.act, Option.ite_none_right_eq_some, Option.some.injEq] at ha
    obtain ⟨⟨hpc, hmtx⟩, rfl⟩ := ha
    simp only at hcbk
    subst hmtx
    have hcb : cb.holds = false := by simpa using hcbk
    refine ⟨?_, by simp, by simp [Pc.holds], by simp [hcb], hflag, by simp [Pc.out], by simp⟩
    rcases hpc with rfl | rfl <;> simpa using habs
  | test =>
    simp only [Waiter.act, Option.ite_none_right_eq_some] at ha
    obtain ⟨hpc, ha⟩ := ha
    simp only at hcbk hthr habs hflag ha
    subst hpc
    have hmtx : mtx = .thread := hthr.mpr rfl
    subst hmtx
    have hcb : cb.holds = false := by simpa using hcbk
    cases ready with
    | true =>
      simp only [if_true, Option.some.injEq] at ha
      subst ha
      refine ⟨by simpa using habs, by simp, by simp [Pc.holds], by simpa using hcb, hflag, ?_,
        by simp⟩
      exact fun _ => through_of_told hflag.symm hcb
    | false =>
      simp at ha
      subst ha
      refine ⟨by simpa using habs, by simp, by simp [Pc.holds], by simpa using hcb, hflag,
        by simp [Pc.out], ?_⟩
      intro _ htold
      rw [← hflag] at htold
      cases htold
  | wake =>
    simp only [Waiter.act, Option.ite_none_right_eq_some, Option.some.injEq] at ha
    obtain ⟨hpc, rfl⟩ := ha
    subst hpc
    exact ⟨by simpa using habs, by simp, by simpa [Pc.holds] using hthr, hcbk, hflag,
      by simp [Pc.out], by simp⟩
  | unlock =>
    simp only [Waiter.act, Option.ite_none_right_eq_some, Option.some.injEq] at ha
    obtain ⟨hpc, rfl⟩ := ha
    simp only at hthr hcbk
    subst hpc
    have hmtx : mtx = .thread := hthr.mpr rfl
    subst hmtx
    have hcb : cb.holds = false := by simpa using hcbk
    exact ⟨by simpa using habs, by simp, by simp [Pc.holds], by simpa using hcb, hflag,
      fun _ => hout rfl, by simp⟩
  | leave =>
    simp only [Waiter.act, Option.ite_none_right_eq_some, Option.some.injEq] at ha
    obtain ⟨hpc, rfl⟩ := ha
    subst hpc
    exact ⟨by simpa using habs, by simp, by simpa [Pc.holds] using hthr, hcbk, hflag,
      fun _ => hout rfl, by simp⟩
  | lockGuard =>
    simp only [Waiter.act, Option.ite_none_right_eq_some, Option.some.injEq] at ha
    obtain ⟨⟨hcb, hmtx⟩, rfl⟩ := ha
    subst hcb hmtx
    refine ⟨by simpa using habs, fun _ => rfl, by simpa using hthr, by simp [Cb.holds], hflag, ?_,
      by simp [Cb.told]⟩
    intro hpc
    have := hout hpc
    cases this
  | setReady =>
    simp only [Waiter.act, Option.ite_none_right_eq_some, Option.some.injEq] at ha
    obtain ⟨hcb, rfl⟩ := ha
    subst hcb
    refine ⟨by simpa using habs, fun _ => rfl, hthr, by simpa [Cb.holds] using hcbk, rfl, ?_,
      fun _ _ => rfl⟩
    intro hpc
    have := hout hpc
    cases this
  | notifyOne =>
    simp only [Waiter.act, Option.ite_none_right_eq_some, Option.some.injEq] at ha
    obtain ⟨hcb, rfl⟩ := ha
    subst hcb
    have hnot : pc.out = false := by
      by_contra hpc
      have := hout (by simpa using hpc)
      cases this
    by_cases hpc : pc = .blocked
    · subst hpc
      exact ⟨by simp, by simp, by simpa [Pc.holds] using hthr, by simpa [Cb.holds] using hcbk,
        hflag, by simp [Pc.out], by simp⟩
    · simp only [if_neg hpc]
      exact ⟨by simpa using habs, fun _ => rfl, hthr, by simpa [Cb.holds] using hcbk, hflag,
        by simp [hnot], fun hb => absurd hb hpc⟩
  | unlockGuard =>
    simp only [Waiter.act, Option.ite_none_right_eq_some, Option.some.injEq] at ha
    obtain ⟨hcb, rfl⟩ := ha
    simp only at hcbk hthr
    subst hcb
    have hmtx : mtx = .callback := hcbk.mpr rfl
    subst hmtx
    refine ⟨by simpa using habs, fun _ => rfl, by simpa using hthr, by simp [Cb.holds], hflag,
      fun _ => rfl, ?_⟩
    intro hpc _
    have := hasleep hpc rfl
    cases this

/-- An access leaves the thread and its continuation where they are with
respect to the list. -/
theorem act_side (ha : w.act a = some w') :
    (w'.cb = .linked ↔ w.cb = .linked) ∧ (w'.cb = .absent ↔ w.cb = .absent) ∧
      (w'.cb = .done ↔ w.cb = .done) ∧ (w'.pc = .calling ↔ w.pc = .calling) := by
  obtain ⟨pc, cb, mtx, ready⟩ := w
  cases a with
  | lock =>
    simp only [Waiter.act, Option.ite_none_right_eq_some, Option.some.injEq] at ha
    obtain ⟨⟨rfl | rfl, -⟩, rfl⟩ := ha <;> simp
  | test =>
    simp only [Waiter.act, Option.ite_none_right_eq_some] at ha
    obtain ⟨rfl, ha⟩ := ha
    cases ready with
    | true =>
      simp only [if_true, Option.some.injEq] at ha
      subst ha
      simp
    | false =>
      simp at ha
      subst ha
      simp
  | notifyOne =>
    simp only [Waiter.act, Option.ite_none_right_eq_some, Option.some.injEq] at ha
    obtain ⟨rfl, rfl⟩ := ha
    by_cases hpc : pc = .blocked
    · simp [hpc]
    · simp [hpc]
  | wake | unlock | leave | setReady | unlockGuard =>
    simp only [Waiter.act, Option.ite_none_right_eq_some, Option.some.injEq] at ha
    obtain ⟨rfl, rfl⟩ := ha
    simp
  | lockGuard =>
    simp only [Waiter.act, Option.ite_none_right_eq_some, Option.some.injEq] at ha
    obtain ⟨⟨rfl, -⟩, rfl⟩ := ha
    simp

/-! ## The continuation and the list -/

theorem Waiter.Ok.pushed (h : w.Ok) (hpc : w.pc = .pushing) :
    Waiter.Ok { w with pc := .locking, cb := .linked } := by
  obtain ⟨pc, cb, mtx, ready⟩ := w
  obtain ⟨habs, -, hthr, hcbk, hflag, -, -⟩ := h
  simp only at hpc habs hthr hcbk hflag
  subst hpc
  obtain rfl := habs.mpr rfl
  exact ⟨by simp, by simp, by simpa [Pc.holds] using hthr, by simpa [Cb.holds] using hcbk, hflag,
    by simp [Pc.out], by simp⟩

theorem Waiter.Ok.refused (h : w.Ok) (hpc : w.pc = .pushing) :
    Waiter.Ok { w with pc := .calling, cb := .locking } := by
  obtain ⟨pc, cb, mtx, ready⟩ := w
  obtain ⟨habs, -, hthr, hcbk, hflag, -, -⟩ := h
  simp only at hpc habs hthr hcbk hflag
  subst hpc
  obtain rfl := habs.mpr rfl
  exact ⟨by simp, fun _ => rfl, by simpa [Pc.holds] using hthr, by simpa [Cb.holds] using hcbk,
    hflag, by simp [Pc.out], by simp⟩

theorem Waiter.Ok.begun (h : w.Ok) (hcb : w.cb = .linked) :
    Waiter.Ok { w with cb := .locking } := by
  obtain ⟨pc, cb, mtx, ready⟩ := w
  obtain ⟨habs, -, hthr, hcbk, hflag, hout, -⟩ := h
  simp only at hcb habs hthr hcbk hflag hout
  subst hcb
  exact ⟨by simpa using habs, fun _ => rfl, hthr, by simpa [Cb.holds] using hcbk, hflag,
    fun hpc => absurd (hout hpc) (by simp [Cb.through]), by simp [Cb.told]⟩

theorem Waiter.Ok.finished (h : w.Ok) (hcb : w.cb = .returning) (hpc : w.pc ≠ .calling) :
    Waiter.Ok { w with cb := .done } := by
  obtain ⟨pc, cb, mtx, ready⟩ := w
  obtain ⟨habs, -, hthr, hcbk, hflag, -, hasleep⟩ := h
  simp only at hcb hpc habs hthr hcbk hflag hasleep
  subst hcb
  refine ⟨by simpa using habs, fun hc => absurd hc hpc, hthr, by simpa [Cb.holds] using hcbk, hflag,
    fun _ => rfl, fun hb _ => ?_⟩
  have := hasleep hb rfl
  cases this

theorem Waiter.Ok.resumed (h : w.Ok) (hcb : w.cb = .returning) (hpc : w.pc = .calling) :
    Waiter.Ok { w with pc := .locking, cb := .done } := by
  obtain ⟨pc, cb, mtx, ready⟩ := w
  obtain ⟨-, -, hthr, hcbk, hflag, -, -⟩ := h
  simp only at hcb hpc hthr hcbk hflag
  subst hcb hpc
  exact ⟨by simp, by simp, by simpa [Pc.holds] using hthr, by simpa [Cb.holds] using hcbk, hflag,
    by simp [Pc.out], by simp⟩

theorem active_of_not {cb : Cb} (ha : cb ≠ .absent) (hl : cb ≠ .linked) (hd : cb ≠ .done) :
    cb.active = true := by
  cases cb with
  | absent => exact absurd rfl ha
  | linked => exact absurd rfl hl
  | done => exact absurd rfl hd
  | _ => rfl

theorem active_iff {cb : Cb} : cb.active = true ↔ cb ≠ .absent ∧ cb ≠ .linked ∧ cb ≠ .done := by
  constructor
  · intro h
    refine ⟨?_, ?_, ?_⟩ <;> rintro rfl <;> cases h
  · exact fun h => active_of_not h.1 h.2.1 h.2.2

/-- Whose continuation the list, or the loop, has to see to. -/
def Waiter.Listed (w : Waiter) : Prop :=
  w.cb = .linked ∨ w.cb.active = true ∧ w.pc ≠ .calling

/-- What is in the list, or is left of what was taken from it. -/
def State.pending (s : State) : List Item :=
  match s.exec with
  | .loop items => items
  | .done => []
  | _ => s.list

/-- All of it but the one that is being called. -/
def State.behind (s : State) : List Item :=
  match s.exec with
  | .loop items => items.tail
  | .done => []
  | _ => s.list

theorem set_self (s : State) (i : ℕ) (w : Waiter) : (s.set i w).waiters i = some w :=
  Function.update_self _ _ _

theorem set_other (s : State) (w : Waiter) (h : j ≠ i) : (s.set i w).waiters j = s.waiters j :=
  Function.update_of_ne h _ _

theorem update_cases {f : ℕ → Option Waiter} {v : Waiter}
    (h : Function.update f i (some w) j = some v) :
    (j = i ∧ v = w) ∨ (j ≠ i ∧ f j = some v) := by
  by_cases hji : j = i
  · subst hji
    rw [Function.update_self] at h
    exact .inl ⟨rfl, (Option.some.inj h).symm⟩
  · rw [Function.update_of_ne hji] at h
    exact .inr ⟨hji, h⟩

/-- **What holds of a future state that is waited for**, in every run. -/
structure Sound (s : State) : Prop where
  ok : ∀ i w, s.waiters i = some w → w.Ok
  fresh : ∀ i, s.fresh ≤ i → s.waiters i = none
  there : ∀ i, .waiter i ∈ s.pending → ∃ w, s.waiters i = some w
  listed : ∀ i w, s.waiters i = some w → (w.Listed ↔ .waiter i ∈ s.pending)
  behind : ∀ i w, .waiter i ∈ s.behind → s.waiters i = some w → w.cb = .linked
  once : ∀ i, s.pending.count (.waiter i) ≤ 1
  called : ∀ i w, s.waiters i = some w → w.cb.active = true ∨ w.cb = .done → s.isReady = true

theorem sound_init : Sound init := by
  refine ⟨?_, fun _ _ => rfl, ?_, ?_, ?_, ?_, ?_⟩ <;> simp [init, State.pending, State.behind]

theorem pending_of_open (h : s.isReady = false) : s.pending = s.list ∧ s.behind = s.list := by
  unfold State.isReady at h
  unfold State.pending State.behind
  cases hexec : s.exec with
  | idle | stored => exact ⟨rfl, rfl⟩
  | loop | done =>
    rw [hexec] at h
    cases h

/-- What is behind the first one is in the list. -/
theorem mem_pending_of_behind (h : x ∈ s.behind) : x ∈ s.pending := by
  unfold State.behind at h
  unfold State.pending
  cases hexec : s.exec with
  | idle | stored | done =>
    rw [hexec] at h
    exact h
  | loop items =>
    rw [hexec] at h
    exact List.mem_of_mem_tail h

/-- **A change of one waiter** that the list does not see. -/
theorem Sound.set (h : Sound s) (hw : s.waiters i = some w) (hok : w'.Ok)
    (hlisted : w'.Listed ↔ w.Listed) (hlinked : .waiter i ∈ s.behind → w'.cb = .linked)
    (hcalled : w'.cb.active = true ∨ w'.cb = .done → s.isReady = true) : Sound (s.set i w') := by
  refine ⟨?_, ?_, ?_, ?_, ?_, h.once, ?_⟩
  · intro j v hj
    rcases update_cases hj with ⟨-, rfl⟩ | ⟨-, hj⟩
    · exact hok
    · exact h.ok j v hj
  · intro j hj
    have hji : j ≠ i := by
      rintro rfl
      rw [h.fresh j hj] at hw
      cases hw
    rw [set_other s w' hji]
    exact h.fresh j hj
  · intro j hj
    by_cases hji : j = i
    · subst hji
      exact ⟨w', set_self s j w'⟩
    · rw [set_other s w' hji]
      exact h.there j hj
  · intro j v hj
    rcases update_cases hj with ⟨rfl, rfl⟩ | ⟨-, hj⟩
    · exact hlisted.trans (h.listed j w hw)
    · exact h.listed j v hj
  · intro j v hmem hj
    rcases update_cases hj with ⟨rfl, rfl⟩ | ⟨-, hj⟩
    · exact hlinked hmem
    · exact h.behind j v hmem hj
  · intro j v hj hv
    rcases update_cases hj with ⟨rfl, rfl⟩ | ⟨-, hj⟩
    · exact hcalled hv
    · exact h.called j v hj hv

theorem Sound.call (h : Sound s) : Sound { s with
    waiters := Function.update s.waiters s.fresh (some .start)
    fresh := s.fresh + 1 } := by
  have hnone := h.fresh s.fresh le_rfl
  -- the new one is not in the list
  have hnew : .waiter s.fresh ∉ s.pending := by
    intro hmem
    obtain ⟨v, hv⟩ := h.there s.fresh hmem
    rw [hnone] at hv
    cases hv
  refine ⟨?_, ?_, ?_, ?_, ?_, h.once, ?_⟩
  · intro j v hj
    rcases update_cases hj with ⟨-, rfl⟩ | ⟨-, hj⟩
    · exact ok_start
    · exact h.ok j v hj
  · intro j hj
    have hle : s.fresh + 1 ≤ j := hj
    show Function.update s.waiters s.fresh (some Waiter.start) j = none
    rw [Function.update_of_ne (by omega)]
    exact h.fresh j (by omega)
  · intro j hj
    have hjf : j ≠ s.fresh := by
      rintro rfl
      exact hnew hj
    show ∃ v, Function.update s.waiters s.fresh (some Waiter.start) j = some v
    rw [Function.update_of_ne hjf]
    exact h.there j hj
  · intro j v hj
    rcases update_cases hj with ⟨rfl, rfl⟩ | ⟨-, hj⟩
    · exact ⟨fun hl => by simp [Waiter.Listed, Waiter.start, Cb.active] at hl,
        fun hmem => absurd hmem hnew⟩
    · exact h.listed j v hj
  · intro j v hmem hj
    rcases update_cases hj with ⟨rfl, rfl⟩ | ⟨-, hj⟩
    · exact absurd (mem_pending_of_behind hmem) hnew
    · exact h.behind j v hmem hj
  · intro j v hj hv
    rcases update_cases hj with ⟨rfl, rfl⟩ | ⟨-, hj⟩
    · simp [Waiter.start, Cb.active] at hv
    · exact h.called j v hj hv

/-- An item is pushed to the list. -/
theorem pending_push (hopen : s.isReady = false) (x : Item) :
    State.pending { s with list := x :: s.list } = x :: s.pending ∧
      State.behind { s with list := x :: s.list } = x :: s.behind := by
  obtain ⟨hp, hb⟩ := pending_of_open hopen
  obtain ⟨hp', hb'⟩ := pending_of_open (s := { s with list := x :: s.list }) hopen
  rw [hp, hb, hp', hb']
  exact ⟨rfl, rfl⟩

theorem Sound.push (h : Sound s) (hw : s.waiters i = some w) (hpc : w.pc = .pushing)
    (hopen : s.isReady = false) : Sound { s.set i { w with pc := .locking, cb := .linked } with
      list := .waiter i :: s.list } := by
  have hok := h.ok i w hw
  have habs : w.cb = .absent := hok.absent.mpr hpc
  have hnot : .waiter i ∉ s.pending := by
    rw [← h.listed i w hw]
    simp [Waiter.Listed, habs, Cb.active]
  obtain ⟨hpend, hbehind⟩ := pending_push hopen (.waiter i)
  have hmem : ∀ {l : List Item} {j : ℕ}, j ≠ i →
      (.waiter j ∈ (Item.waiter i :: l) ↔ .waiter j ∈ l) := by
    intro l j hji
    simp [hji]
  refine ⟨?_, ?_, ?_, ?_, ?_, ?_, ?_⟩
  · intro j v hj
    rcases update_cases hj with ⟨-, rfl⟩ | ⟨-, hj⟩
    · exact hok.pushed hpc
    · exact h.ok j v hj
  · intro j hj
    have hji : j ≠ i := by
      rintro rfl
      rw [h.fresh j hj] at hw
      cases hw
    exact (set_other s _ hji).trans (h.fresh j hj)
  · intro j hj
    by_cases hji : j = i
    · subst hji
      exact ⟨_, set_self s j _⟩
    · obtain ⟨v, hv⟩ := h.there j ((hmem hji).mp (hpend ▸ hj))
      exact ⟨v, (set_other s _ hji).trans hv⟩
  · intro j v hj
    rcases update_cases hj with ⟨rfl, rfl⟩ | ⟨hji, hj⟩
    · exact ⟨fun _ => hpend ▸ List.mem_cons_self, fun _ => .inl rfl⟩
    · exact (h.listed j v hj).trans ((hmem hji).symm.trans (by rw [← hpend]; rfl))
  · intro j v hjmem hj
    rcases update_cases hj with ⟨rfl, rfl⟩ | ⟨hji, hj⟩
    · rfl
    · exact h.behind j v ((hmem hji).mp (hbehind ▸ hjmem)) hj
  · intro j
    show List.count (Item.waiter j) (State.pending { s with list := .waiter i :: s.list }) ≤ 1
    rw [hpend]
    by_cases hji : j = i
    · subst hji
      rw [List.count_cons_self, List.count_eq_zero_of_not_mem hnot]
    · rw [List.count_cons_of_ne (by simpa using Ne.symm hji)]
      exact h.once j
  · intro j v hj hv
    rcases update_cases hj with ⟨rfl, rfl⟩ | ⟨-, hj⟩
    · simp [Cb.active] at hv
    · exact h.called j v hj hv

/-- **The loop goes on** when a continuation has returned to it. -/
theorem Sound.finish (h : Sound s) (hexec : s.exec = .loop (.waiter i :: items))
    (hw : s.waiters i = some w) (hcb : w.cb = .returning) :
    Sound { s.set i { w with cb := .done } with exec := .loop items } := by
  have hready : s.isReady = true := by rw [State.isReady, hexec]
  have hpend : s.pending = .waiter i :: items := by rw [State.pending, hexec]
  have hbehind : s.behind = items := by rw [State.behind, hexec]; rfl
  have hlisted : w.Listed := (h.listed i w hw).mpr (hpend ▸ List.mem_cons_self)
  have hpc : w.pc ≠ .calling := by
    rcases hlisted with hl | hl
    · rw [hcb] at hl
      cases hl
    · exact hl.2
  have honce := h.once
  rw [hpend] at honce
  have hnot : .waiter i ∉ items := by
    intro hmem
    have hpos := List.count_pos_iff.mpr hmem
    have hle := honce i
    rw [List.count_cons_self] at hle
    omega
  refine ⟨?_, ?_, ?_, ?_, ?_, ?_, fun _ _ _ _ => rfl⟩
  · intro j v hj
    rcases update_cases hj with ⟨-, rfl⟩ | ⟨-, hj⟩
    · exact (h.ok i w hw).finished hcb hpc
    · exact h.ok j v hj
  · intro j hj
    have hji : j ≠ i := by
      rintro rfl
      rw [h.fresh j hj] at hw
      cases hw
    exact (set_other s _ hji).trans (h.fresh j hj)
  · intro j hj
    have hji : j ≠ i := by
      rintro rfl
      exact hnot hj
    obtain ⟨v, hv⟩ := h.there j (hpend ▸ List.mem_cons_of_mem _ hj)
    exact ⟨v, (set_other s _ hji).trans hv⟩
  · intro j v hj
    rcases update_cases hj with ⟨rfl, rfl⟩ | ⟨hji, hj⟩
    · exact ⟨fun hl => by simp [Waiter.Listed, Cb.active] at hl, fun hmem => absurd hmem hnot⟩
    · rw [h.listed j v hj, hpend]
      simp [hji, State.pending]
  · intro j v hmem hj
    have hitems : .waiter j ∈ items := List.mem_of_mem_tail hmem
    rcases update_cases hj with ⟨rfl, rfl⟩ | ⟨-, hj⟩
    · exact absurd hitems hnot
    · exact h.behind j v (hbehind ▸ hitems) hj
  · intro j
    exact (List.count_le_count_cons).trans (honce j)

theorem Sound.skip (h : Sound s) (hexec : s.exec = .loop (.other :: items)) :
    Sound { s with exec := .loop items } := by
  have hpend : s.pending = .other :: items := by rw [State.pending, hexec]
  have hbehind : s.behind = items := by rw [State.behind, hexec]; rfl
  have honce := h.once
  rw [hpend] at honce
  refine ⟨h.ok, h.fresh, ?_, ?_, ?_, ?_, fun _ _ _ _ => rfl⟩
  · intro j hj
    exact h.there j (hpend ▸ List.mem_cons_of_mem _ hj)
  · intro j v hj
    rw [h.listed j v hj, hpend]
    simp [State.pending]
  · intro j v hmem hj
    exact h.behind j v (hbehind ▸ List.mem_of_mem_tail hmem) hj
  · intro j
    exact (List.count_le_count_cons).trans (honce j)

/-- A step that changes where the loop is, and not what is pending. -/
theorem Sound.of_pending (h : Sound s) (hw : t.waiters = s.waiters) (hf : t.fresh = s.fresh)
    (hp : t.pending = s.pending) (hb : ∀ y ∈ t.behind, y ∈ s.behind)
    (hr : s.isReady = true → t.isReady = true) : Sound t := by
  refine ⟨?_, ?_, ?_, ?_, ?_, ?_, ?_⟩
  · intro i w hi
    exact h.ok i w (hw ▸ hi)
  · intro i hi
    rw [hw]
    exact h.fresh i (hf ▸ hi)
  · intro i hi
    rw [hw]
    exact h.there i (hp ▸ hi)
  · intro i w hi
    rw [hp]
    exact h.listed i w (hw ▸ hi)
  · intro i w hmem hi
    exact h.behind i w (hb _ hmem) (hw ▸ hi)
  · intro i
    rw [hp]
    exact h.once i
  · intro i w hi hv
    exact hr (h.called i w (hw ▸ hi) hv)

theorem Sound.notify (h : Sound s) (hopen : s.isReady = false) :
    Sound { s with list := .other :: s.list } := by
  obtain ⟨hpend, hbehind⟩ := pending_push hopen .other
  refine ⟨h.ok, h.fresh, ?_, ?_, ?_, ?_, h.called⟩
  · intro j hj
    rw [hpend] at hj
    exact h.there j (by simpa using hj)
  · intro j v hj
    rw [h.listed j v hj, hpend]
    simp
  · intro j v hmem hj
    rw [hbehind] at hmem
    exact h.behind j v (by simpa using hmem) hj
  · intro j
    rw [hpend, List.count_cons_of_ne (by simp)]
    exact h.once j

/-- **Every step keeps it.** -/
theorem Sound.step (h : Sound s) (hst : Step s e s') : Sound s' := by
  cases hst with
  | call => exact h.call
  | push hw hpc hopen => exact h.push hw hpc hopen
  | @refuse i w hw hpc hready =>
    have hok := h.ok i w hw
    have habs : w.cb = .absent := hok.absent.mpr hpc
    have hnot : ¬ w.Listed := by simp [Waiter.Listed, habs, Cb.active]
    refine h.set hw (hok.refused hpc) ?_ ?_ fun _ => hready
    · refine ⟨fun hl => ?_, fun hl => absurd hl hnot⟩
      simp [Waiter.Listed] at hl
    · intro hmem
      exact absurd ((h.listed i w hw).mpr (mem_pending_of_behind hmem)) hnot
  | notify hopen => exact h.notify hopen
  | store hidle =>
    refine h.of_pending rfl rfl ?_ ?_ ?_ <;>
      simp [State.pending, State.behind, State.isReady, hidle]
  | consume hexec =>
    refine h.of_pending rfl rfl ?_ ?_ ?_
    · simp [State.pending, hexec]
    · intro y hy
      rw [State.behind, hexec]
      exact List.mem_of_mem_tail hy
    · simp [State.isReady]
  | @begin i w items hexec hw hcb =>
    have hok := h.ok i w hw
    have hpc : w.pc ≠ .calling := by
      intro hc
      have hactive := hok.calling hc
      rw [hcb] at hactive
      cases hactive
    refine h.set hw (hok.begun hcb) ⟨fun _ => .inl hcb, fun _ => .inr ⟨rfl, hpc⟩⟩ ?_ fun _ => ?_
    · -- the item that is called is not behind itself
      intro hmem
      have hle := h.once i
      rw [State.behind, hexec] at hmem
      rw [State.pending, hexec, List.count_cons_self] at hle
      have hpos := List.count_pos_iff.mpr (show .waiter i ∈ items from hmem)
      omega
    · rw [State.isReady, hexec]
  | finish hexec hw hcb => exact h.finish hexec hw hcb
  | @resume i w hw hpc hcb =>
    have hok := h.ok i w hw
    have hnot : ¬ w.Listed := by simp [Waiter.Listed, hcb, hpc]
    refine h.set hw (hok.resumed hcb hpc) ?_ ?_ fun _ => h.called i w hw (.inl (by rw [hcb]; rfl))
    · refine ⟨fun hl => ?_, fun hl => absurd hl hnot⟩
      simp [Waiter.Listed, Cb.active] at hl
    · intro hmem
      exact absurd ((h.listed i w hw).mpr (mem_pending_of_behind hmem)) hnot
  | skip hexec => exact h.skip hexec
  | exit hexec =>
    refine h.of_pending rfl rfl ?_ ?_ ?_ <;>
      simp [State.pending, State.behind, State.isReady, hexec]
  | @act i a w w' hw ha =>
    obtain ⟨hl, habs, hd, hc⟩ := act_side ha
    have hactive : w'.cb.active = true ↔ w.cb.active = true := by
      rw [active_iff, active_iff, ne_eq, habs, ne_eq, hl, ne_eq, hd]
    refine h.set hw ((h.ok i w hw).act ha) ?_ ?_ ?_
    · rw [Waiter.Listed, Waiter.Listed, hl, hactive, ne_eq, hc]
    · exact fun hmem => hl.mpr (h.behind i w hmem hw)
    · rw [hactive, hd]
      exact h.called i w hw

theorem sound (hrun : Runs Step Unguarded init s) : Sound s :=
  hrun.invariant (I := Sound) (fun _ _ _ h _ hst => h.step hst) sound_init

/-! ## Calls of continuations -/

/-- The continuation of the `i`th call of `wait` is called: by the loop, or
by the `push` that is refused. -/
def Event.calls (i : ℕ) : Event → Bool
  | .begin j => j = i
  | .refuse j => j = i
  | _ => false

/-- How often it has been called, by where it is. -/
def State.called (s : State) (i : ℕ) : ℕ :=
  match s.waiters i with
  | some w => if w.cb = .absent ∨ w.cb = .linked then 0 else 1
  | none => 0

theorem called_le_one (s : State) (i : ℕ) : s.called i ≤ 1 := by
  unfold State.called
  split
  · split <;> omega
  · omega

theorem called_congr (h : t.waiters i = s.waiters i) : t.called i = s.called i := by
  simp only [State.called, h]

/-- A waiter whose continuation goes on, or is called. -/
theorem called_set {n : ℕ} (hw : s.waiters i = some w) (ht : t.waiters = (s.set i w').waiters)
    (hn : (if w'.cb = .absent ∨ w'.cb = .linked then 0 else 1) =
      n + if w.cb = .absent ∨ w.cb = .linked then 0 else 1) (j : ℕ) :
    t.called j = (if i = j then n else 0) + s.called j := by
  by_cases hij : i = j
  · subst hij
    simp only [State.called, ht, set_self, hw, hn, if_true]
  · have hother : t.waiters j = s.waiters j := by rw [ht, set_other _ _ (Ne.symm hij)]
    rw [called_congr hother, if_neg hij, zero_add]

/-- **A call is counted once**, by the step that makes it. -/
theorem Sound.called_step (h : Sound s) (hst : Step s e s') (j : ℕ) :
    s'.called j = (if e.calls j then 1 else 0) + s.called j := by
  cases hst with
  | call =>
    have hfresh := h.fresh s.fresh le_rfl
    by_cases hj : j = s.fresh
    · simp [State.called, Event.calls, Waiter.start, hj, hfresh]
    · simp [State.called, Event.calls, hj]
  | @push i w hw hpc hopen =>
    have habs : w.cb = .absent := (h.ok i w hw).absent.mpr hpc
    refine Eq.trans (called_set (n := 0) hw rfl (by simp [habs]) j) ?_
    simp [Event.calls]
  | @refuse i w hw hpc hready =>
    have habs : w.cb = .absent := (h.ok i w hw).absent.mpr hpc
    refine Eq.trans (called_set (n := 1) hw rfl (by simp [habs]) j) ?_
    simp [Event.calls]
  | @begin i w items hexec hw hcb =>
    refine Eq.trans (called_set (n := 1) hw rfl (by simp [hcb]) j) ?_
    simp [Event.calls]
  | @finish i w items hexec hw hcb | @resume i w hw hpc hcb =>
    refine Eq.trans (called_set (n := 0) hw rfl (by simp [hcb]) j) ?_
    simp [Event.calls]
  | @act i a w w' hw ha =>
    obtain ⟨hl, habs, -, -⟩ := act_side ha
    refine Eq.trans (called_set (n := 0) hw rfl (by simp [hl, habs]) j) ?_
    simp [Event.calls]
  | notify | store | consume | skip | exit => simp [Event.calls, State.called]

/-- **The calls of a run.** -/
theorem calls_run (hrun : Trace Step Unguarded init es s) (i : ℕ) :
    es.countP (Event.calls i) = s.called i := by
  have hboth : Sound s ∧ es.countP (Event.calls i) = s.called i := by
    refine hrun.invariant (I := fun es s => Sound s ∧ es.countP (Event.calls i) = s.called i) ?_
      ⟨sound_init, by simp [State.called, init]⟩
    rintro es s e s' ⟨h, hc⟩ - hst
    refine ⟨h.step hst, ?_⟩
    rw [List.countP_append, List.countP_singleton, hc, h.called_step hst, Nat.add_comm]
  exact hboth.2

/-! ## The law -/

/-- The continuation of a thread that waits has not notified it, and is in
the list, or in the loop. -/
theorem Sound.ahead (h : Sound s) (hw : s.waiters i = some w) (hpc : w.pc = .blocked) :
    .waiter i ∈ s.pending ∧ (w.cb.told = true → w.cb = .notifying) := by
  have hok := h.ok i w hw
  have hasleep := hok.asleep hpc
  refine ⟨(h.listed i w hw).mp ?_, hasleep⟩
  have habs : w.cb ≠ .absent := by
    intro ha
    rw [hok.absent.mp ha] at hpc
    cases hpc
  by_cases hl : w.cb = .linked
  · exact .inl hl
  · refine .inr ⟨active_of_not habs hl fun hd => ?_, by rw [hpc]; simp⟩
    have := hasleep (by rw [hd]; rfl)
    rw [hd] at this
    cases this

theorem called_of_through {cb : Cb} (h : cb.through = true) : cb.active = true ∨ cb = .done := by
  cases cb with
  | returning => exact .inl rfl
  | done => exact .inr rfl
  | _ => cases h

/-- **What holds of the calls of `wait`** on a future state, after the
events `es`. -/
structure WaitLaw (es : List Event) (s : State) : Prop where
  /-- nobody is out of `cv.wait` before the state is ready -/
  ready : ∀ i w, s.waiters i = some w → w.pc.out = true → s.isReady = true
  /-- nothing is done with the stack of a thread that has returned -/
  untouched : ∀ i w a, s.waiters i = some w → w.pc = .returned → w.act a = none
  /-- the continuation of a thread that waits is going to be called, or is
  about to notify it -/
  ahead : ∀ i w, s.waiters i = some w → w.pc = .blocked →
    .waiter i ∈ s.pending ∧ (w.cb.told = true → w.cb = .notifying)
  /-- no continuation is called twice in a run, and each has been called
  that is not in the list, or ahead of the loop -/
  once : ∀ i, es.countP (Event.calls i) ≤ 1
  called : ∀ i w, s.waiters i = some w → w.cb ≠ .absent → w.cb ≠ .linked →
    es.countP (Event.calls i) = 1

theorem Waiter.Ok.untouched (h : w.Ok) (hpc : w.pc = .returned) : w.act a = none := by
  have hthrough := h.out (by rw [hpc]; rfl)
  cases a with
  | lock | test | wake | unlock | leave => simp [Waiter.act, hpc]
  | lockGuard | setReady | notifyOne | unlockGuard =>
    refine if_neg fun hcb => ?_
    simp only [hcb, Cb.through] at hthrough
    cases hthrough

theorem wait_law (hrun : Trace Step Unguarded init es s) : WaitLaw es s := by
  have h := sound hrun.runs
  refine ⟨?_, fun i w a hw hpc => (h.ok i w hw).untouched hpc, fun i w hw hpc => h.ahead hw hpc,
    fun i => ?_, fun i w hw habs hl => ?_⟩
  · intro i w hw hout
    exact h.called i w hw (called_of_through ((h.ok i w hw).out hout))
  · rw [calls_run hrun i]
    exact called_le_one s i
  · rw [calls_run hrun i]
    simp [State.called, hw, habs, hl]

/-- A thread is in `cv.wait` when the result comes, and is notified; another
one comes too late to wait, and calls its continuation itself. -/
theorem wait_law_of_result : ∃ es s, s.waiters 0 = some ⟨.woken, .unlocking, .callback, true⟩ ∧
    es.countP (Event.calls 0) = 1 ∧ es.countP (Event.calls 1) = 1 ∧ WaitLaw es s := by
  have h₀ : Trace Step Unguarded init [] init := .nil _
  have h₁ := h₀.snoc trivial (show Step _ .call _ from .call)
  have h₂ := h₁.snoc trivial (show Step _ (.push 0) _ from .push rfl rfl rfl)
  have h₃ := h₂.snoc trivial (show Step _ (.act 0 .lock) _ from .act rfl rfl)
  have h₄ := h₃.snoc trivial (show Step _ (.act 0 .test) _ from .act rfl rfl)
  have h₅ := h₄.snoc trivial (show Step _ .store _ from .store rfl)
  have h₆ := h₅.snoc trivial (show Step _ .consume _ from .consume rfl)
  have h₇ := h₆.snoc trivial (show Step _ (.begin 0) _ from .begin rfl rfl rfl)
  have h₈ := h₇.snoc trivial (show Step _ (.act 0 .lockGuard) _ from .act rfl rfl)
  have h₉ := h₈.snoc trivial (show Step _ (.act 0 .setReady) _ from .act rfl rfl)
  have h₁₀ := h₉.snoc trivial (show Step _ (.act 0 .notifyOne) _ from .act rfl rfl)
  have h₁₁ := h₁₀.snoc trivial (show Step _ .call _ from .call)
  have h₁₂ := h₁₁.snoc trivial (show Step _ (.refuse 1) _ from .refuse rfl rfl rfl)
  exact ⟨_, _, rfl, by decide, by decide, wait_law h₁₂⟩

end Waiting

end PortableConcurrency
