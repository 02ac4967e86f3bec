import PortableConcurrency.Promise.Reference
import Mathlib.Tactic.Common

/-!
# The promise protocol

A program sees of promises and their futures what it sees of the reference
machine. A promise that has a `shared_ptr` is one whose future has not
been made, and there is one promise a state; so a `weak_ptr` can be locked
just when some future has the state.
-/

namespace PortableConcurrency

namespace Promise

open Futures (Exn Storage)

variable {V E : Type*} {w w' : World V E} {m m' : Machine V E} {s x y : ℕ} {o : Object}
variable {p q : Either}

/-! ## What is what -/

/-- The state of a promise. -/
def Either.state : Either → Option ℕ
  | .monostate => none
  | .shared s => some s
  | .weak s => some s

/-- How a variable looks. -/
def Object.handle : Object → Handle
  | .gone => .gone
  | .promise p => .promise p.state
  | .future unique state => .future unique state

/-- The state that a variable names. -/
def Object.state : Object → Option ℕ
  | .gone => none
  | .promise p => p.state
  | .future _ state => state

/-- **What a state is worth**: the result of its channel. -/
structure Shows (st : SharedState V E) (ch : Channel V E) : Prop where
  storage : st.storage = .empty ∧ ch.result = none ∨
    (∃ v, st.storage = .value v ∧ ch.result = some (.ok v)) ∨
      ∃ x, st.storage = .exception x ∧ ch.result = some (.error x)
  executed : st.executed = ch.result.isSome
  canceler : st.canceler = ch.canceler

/-- **Each promise keeps its state in the right way**, and no two the same
one. -/
structure Kept (objects : ℕ → Object) (retrieved : ℕ → Bool) : Prop where
  shared : ∀ x s, objects x = .promise (.shared s) → retrieved s = false
  weak : ∀ x s, objects x = .promise (.weak s) → retrieved s = true
  sole : ∀ x y p q s, objects x = .promise p → objects y = .promise q → p.state = some s →
    q.state = some s → x = y

namespace Kept

variable {objects : ℕ → Object} {retrieved : ℕ → Bool}

/-- Nobody loses by it when a promise goes, or is moved from. -/
theorem clear (h : Kept objects retrieved) (x : ℕ) (ho : ∀ p, o = .promise p → p = .monostate) :
    Kept (Function.update objects x o) retrieved := by
  have hold : ∀ y p s, Function.update objects x o y = .promise p → p.state = some s →
      objects y = .promise p := by
    intro y p s hy hp
    by_cases hxy : y = x
    · subst hxy
      rw [Function.update_self] at hy
      rw [ho p hy] at hp
      cases hp
    · rwa [Function.update_of_ne hxy] at hy
  refine ⟨fun y s hy => ?_, fun y s hy => ?_, fun y z p q s hy hz hp hq => ?_⟩
  · exact h.shared y s (hold y _ s hy rfl)
  · exact h.weak y s (hold y _ s hy rfl)
  · exact h.sole y z p q s (hold y p s hy hp) (hold z q s hz hq) hp hq

/-- A promise gets a state that no other one has. -/
theorem put (h : Kept objects retrieved) (x : ℕ)
    (hnone : ∀ y q s, objects y = .promise q → q.state = some s → p.state ≠ some s)
    (hshared : ∀ s, p = .shared s → retrieved s = false)
    (hweak : ∀ s, p = .weak s → retrieved s = true) :
    Kept (Function.update objects x (.promise p)) retrieved := by
  have hold : ∀ y q, Function.update objects x (.promise p) y = .promise q →
      (y = x ∧ q = p) ∨ objects y = .promise q := by
    intro y q hy
    by_cases hxy : y = x
    · subst hxy
      rw [Function.update_self] at hy
      cases hy
      exact .inl ⟨rfl, rfl⟩
    · rw [Function.update_of_ne hxy] at hy
      exact .inr hy
  refine ⟨fun y s hy => ?_, fun y s hy => ?_, fun y z q r s hy hz hq hr => ?_⟩
  · rcases hold y _ hy with ⟨-, hp⟩ | hy
    · exact hshared s hp.symm
    · exact h.shared y s hy
  · rcases hold y _ hy with ⟨-, hp⟩ | hy
    · exact hweak s hp.symm
    · exact h.weak y s hy
  · rcases hold y q hy with ⟨hyx, rfl⟩ | hy' <;> rcases hold z r hz with ⟨hzx, rfl⟩ | hz'
    · rw [hyx, hzx]
    · exact absurd hq (hnone z r s hz' hr)
    · exact absurd hr (hnone y q s hy' hq)
    · exact h.sole y z q r s hy' hz' hq hr

/-- The future of a state that no promise has does not matter. -/
theorem retrieve (h : Kept objects retrieved) (s : ℕ) (b : Bool)
    (hnone : ∀ y q, objects y = .promise q → q.state ≠ some s) :
    Kept objects (Function.update retrieved s b) := by
  refine ⟨fun y t hy => ?_, fun y t hy => ?_, h.sole⟩
  · rw [Function.update_of_ne (by rintro rfl; exact hnone y _ hy rfl)]
    exact h.shared y t hy
  · rw [Function.update_of_ne (by rintro rfl; exact hnone y _ hy rfl)]
    exact h.weak y t hy

end Kept

/-! ## The simulation -/

/-- **The simulation relation.** -/
structure Sim (w : World V E) (m : Machine V E) : Prop where
  vars : m.vars = w.vars
  fresh : m.fresh = w.fresh
  handles : ∀ x, m.handles x = (w.objects x).handle
  channels : ∀ s, Shows (w.states s) (m.channels s)
  kept : Kept w.objects fun s => (m.channels s).retrieved
  bound : ∀ x s, (w.objects x).state = some s → s < w.fresh
  unused : ∀ x, w.vars ≤ x → w.objects x = .gone

theorem sim_init : Sim (World.init : World V E) Machine.init := by
  refine ⟨rfl, rfl, fun _ => rfl, fun _ => ⟨.inl ⟨rfl, rfl⟩, rfl, rfl⟩, ⟨?_, ?_, ?_⟩, ?_,
    fun _ _ => rfl⟩
  · intro x s h
    cases h
  · intro x s h
    cases h
  · intro x y p q s h
    cases h
  · intro x s h
    cases h

namespace Sim

/-- A variable that is something is in use. -/
theorem lt_vars (h : Sim w m) (hx : w.objects x ≠ .gone) : x < w.vars := by
  by_contra hle
  exact hx (h.unused x (by omega))

/-- **A state lives as long as somebody may see its result.** -/
theorem owned_iff (h : Sim w m) (s : ℕ) : w.Owned s ↔ m.Alive s := by
  constructor
  · rintro ⟨x, hx, href⟩
    have hhandle := h.handles x
    cases ho : w.objects x with
    | gone =>
      rw [ho] at href
      cases href
    | promise p =>
      cases p with
      | shared t =>
        rw [ho] at href hhandle
        obtain rfl : t = s := Option.some.inj href
        exact .inl ⟨h.kept.shared x t ho, x, by rw [h.vars]; exact hx, hhandle⟩
      | monostate | weak t =>
        rw [ho] at href
        cases href
    | future unique state =>
      rw [ho] at href hhandle
      obtain rfl : state = some s := href
      refine .inr ⟨x, by rw [h.vars]; exact hx, ?_⟩
      cases unique
      · exact .inr hhandle
      · exact .inl hhandle
  · rintro (⟨hopen, x, hx, hp⟩ | ⟨x, hx, hf⟩)
    · rw [h.handles x] at hp
      refine ⟨x, by rw [← h.vars]; exact hx, ?_⟩
      cases ho : w.objects x with
      | promise p =>
        rw [ho] at hp
        have hp : p.state = some s := by simpa [Object.handle] using hp
        cases p with
        | shared t => exact hp
        | monostate => cases hp
        | weak t =>
          obtain rfl : t = s := Option.some.inj hp
          rw [h.kept.weak x t ho] at hopen
          cases hopen
      | gone | future =>
        rw [ho] at hp
        cases hp
    · rw [h.handles x] at hf
      refine ⟨x, by rw [← h.vars]; exact hx, ?_⟩
      cases ho : w.objects x with
      | future unique state =>
        rw [ho] at hf
        rcases hf with hf | hf <;> · cases hf; rfl
      | gone | promise =>
        rw [ho] at hf
        rcases hf with hf | hf <;> cases hf

/-- A `weak_ptr` can be locked when some future has the state. -/
theorem owned_iff_held (h : Sim w m) (hx : w.objects x = .promise (.weak s)) :
    w.Owned s ↔ m.Held s := by
  rw [h.owned_iff]
  refine ⟨fun halive => halive.resolve_left fun hopen => ?_, .inr⟩
  have hweak := h.kept.weak x s hx
  rw [hopen.1] at hweak
  cases hweak

/-- The state of a promise that has a `shared_ptr` is alive. -/
theorem owned_of_shared (h : Sim w m) (hx : w.objects x = .promise (.shared s)) : w.Owned s :=
  ⟨x, h.lt_vars (by rw [hx]; simp), by rw [hx]; rfl⟩

/-! ## Parts of the operations -/

theorem update_handles (h : ∀ x, m.handles x = (w.objects x).handle) (x y : ℕ) (o : Object) :
    Function.update m.handles x o.handle y = (Function.update w.objects x o y).handle := by
  by_cases hxy : y = x
  · subst hxy
    rw [Function.update_self, Function.update_self]
  · rw [Function.update_of_ne hxy, Function.update_of_ne hxy, h]

theorem update_bound (h : Sim w m) (x : ℕ) (ho : ∀ s, o.state = some s → s < w.fresh) :
    ∀ y s, (Function.update w.objects x o y).state = some s → s < w.fresh := by
  intro y s hy
  by_cases hxy : y = x
  · subst hxy
    rw [Function.update_self] at hy
    exact ho s hy
  · rw [Function.update_of_ne hxy] at hy
    exact h.bound y s hy

/-- A variable changes. -/
theorem setObject (h : Sim w m) (hx : x < w.vars) (ho : ∀ s, o.state = some s → s < w.fresh)
    (hkept : Kept (Function.update w.objects x o) fun s => (m.channels s).retrieved) :
    Sim (w.setObject x o) (m.setHandle x o.handle) := by
  refine ⟨h.vars, h.fresh, fun y => update_handles h.handles x y o, h.channels, hkept,
    h.update_bound x ho, fun y hy => ?_⟩
  have hne : y ≠ x := by
    have hy : w.vars ≤ y := hy
    omega
  exact (Function.update_of_ne hne _ _).trans (h.unused y hy)

/-- A variable is constructed. -/
theorem push (h : Sim w m) (ho : ∀ s, o.state = some s → s < w.fresh)
    (hkept : Kept (Function.update w.objects w.vars o) fun s => (m.channels s).retrieved) :
    Sim (w.push o) (m.push o.handle) := by
  refine ⟨by rw [Machine.push, h.vars]; rfl, h.fresh, fun y => ?_, h.channels, hkept,
    h.update_bound _ ho, fun y hy => ?_⟩
  · show Function.update m.handles m.vars o.handle y = (Function.update w.objects w.vars o y).handle
    rw [h.vars]
    exact update_handles h.handles w.vars y o
  · have hy : w.vars + 1 ≤ y := hy
    exact (Function.update_of_ne (by omega) _ _).trans (h.unused y (by omega))

/-- A future goes where another one or nothing was, or a promise goes. -/
theorem setOther (h : Sim w m) (hx : x < w.vars) (ho : ∀ s, o.state = some s → s < w.fresh)
    (hpromise : ∀ p, o = .promise p → p = .monostate) :
    Sim (w.setObject x o) (m.setHandle x o.handle) :=
  h.setObject hx ho (h.kept.clear x hpromise)

theorem pushOther (h : Sim w m) (ho : ∀ s, o.state = some s → s < w.fresh)
    (hpromise : ∀ p, o = .promise p → p = .monostate) : Sim (w.push o) (m.push o.handle) :=
  h.push ho (h.kept.clear _ hpromise)

/-- A state changes, as its channel does. -/
theorem setState (h : Sim w m) {st : SharedState V E} {ch : Channel V E} (hshows : Shows st ch)
    (hretrieved : ch.retrieved = (m.channels s).retrieved) :
    Sim (w.setState s st) (m.setChannel s ch) := by
  refine ⟨h.vars, h.fresh, h.handles, fun t => ?_, ?_, h.bound, h.unused⟩
  · show Shows (Function.update w.states s st t) (Function.update m.channels s ch t)
    by_cases hts : t = s
    · subst hts
      rwa [Function.update_self, Function.update_self]
    · rw [Function.update_of_ne hts, Function.update_of_ne hts]
      exact h.channels t
  · have heq : (fun t => ((m.setChannel s ch).channels t).retrieved) =
        fun t => (m.channels t).retrieved := by
      funext t
      by_cases hts : t = s
      · subst hts
        simpa [Machine.setChannel] using hretrieved
      · simp [Machine.setChannel, hts]
    rw [heq]
    exact h.kept

/-- A state is made. -/
theorem alloc (h : Sim w m) (retrieved canceler : Bool) :
    Sim (w.alloc canceler) (m.alloc retrieved canceler) := by
  refine ⟨h.vars, by rw [Machine.alloc, h.fresh]; rfl, h.handles, fun t => ?_, ?_, fun x s hs => ?_,
    h.unused⟩
  · show Shows (Function.update w.states w.fresh _ t) (Function.update m.channels m.fresh _ t)
    rw [h.fresh]
    by_cases hts : t = w.fresh
    · subst hts
      rw [Function.update_self, Function.update_self]
      exact ⟨.inl ⟨rfl, rfl⟩, rfl, rfl⟩
    · rw [Function.update_of_ne hts, Function.update_of_ne hts]
      exact h.channels t
  · have heq : (fun t => ((m.alloc retrieved canceler).channels t).retrieved) =
        Function.update (fun t => (m.channels t).retrieved) m.fresh retrieved := by
      funext t
      by_cases hts : t = m.fresh
      · subst hts
        simp [Machine.alloc]
      · simp [Machine.alloc, hts]
    rw [heq]
    refine h.kept.retrieve m.fresh retrieved fun y q hy hq => ?_
    have := h.bound y m.fresh (by rw [hy]; exact hq)
    have := h.fresh
    omega
  · have hs : (w.objects x).state = some s := hs
    have := h.bound x s hs
    show s < w.fresh + 1
    omega

/-- The state that a promise has given up is free. -/
theorem kept_move (h : Sim w m) (hx : w.objects x = .promise p) (z : ℕ) :
    Kept (Function.update (Function.update w.objects x (.promise .monostate)) z (.promise p))
      fun s => (m.channels s).retrieved := by
  refine (h.kept.clear x (by simp)).put z (fun y q s hy hq hp => ?_) (fun s hs => ?_) fun s hs => ?_
  · by_cases hyx : y = x
    · subst hyx
      rw [Function.update_self] at hy
      cases hy
      cases hq
    · rw [Function.update_of_ne hyx] at hy
      exact hyx (h.kept.sole y x q p s hy hx hq hp)
  · exact h.kept.shared x s (hs ▸ hx)
  · exact h.kept.weak x s (hs ▸ hx)

/-- **`get_future`**: the promise keeps a `weak_ptr` from now on. -/
theorem retrieve (h : Sim w m) (hx : w.objects x = .promise (.shared s)) :
    Sim (w.setObject x (.promise (.weak s)))
      (m.setChannel s { m.channels s with retrieved := true }) := by
  have hs : s < w.fresh := h.bound x s (by rw [hx]; rfl)
  have hlt : x < w.vars := h.lt_vars (by rw [hx]; simp)
  refine ⟨h.vars, h.fresh, fun y => ?_, fun t => ?_, ?_, h.update_bound x ?_, fun y hy => ?_⟩
  · show m.handles y = (Function.update w.objects x _ y).handle
    rw [h.handles y]
    by_cases hyx : y = x
    · subst hyx
      rw [Function.update_self, hx]
      rfl
    · rw [Function.update_of_ne hyx]
  · show Shows (w.states t) (Function.update m.channels s _ t)
    by_cases hts : t = s
    · subst hts
      rw [Function.update_self]
      exact ⟨(h.channels t).storage, (h.channels t).executed, (h.channels t).canceler⟩
    · rw [Function.update_of_ne hts]
      exact h.channels t
  · have heq : (fun t => ((m.setChannel s { m.channels s with retrieved := true }).channels
        t).retrieved) = Function.update (fun t => (m.channels t).retrieved) s true := by
      funext t
      by_cases hts : t = s
      · subst hts
        simp [Machine.setChannel]
      · simp [Machine.setChannel, hts]
    have hobjects : Function.update (Function.update w.objects x (.promise .monostate)) x
        (.promise (.weak s)) = Function.update w.objects x (.promise (.weak s)) :=
      Function.update_idem _ _ _
    have hnone : ∀ y q, Function.update w.objects x (.promise .monostate) y = .promise q →
        q.state ≠ some s := by
      intro y q hy hq
      by_cases hyx : y = x
      · subst hyx
        rw [Function.update_self] at hy
        cases hy
        cases hq
      · rw [Function.update_of_ne hyx] at hy
        exact hyx (h.kept.sole y x q (.shared s) s hy hx hq rfl)
    rw [heq]
    show Kept (Function.update w.objects x _) _
    rw [← hobjects]
    refine ((h.kept.clear x (by simp)).retrieve s true hnone).put x (fun y q t hy hq ht => ?_)
      (by simp) fun t ht => ?_
    · obtain rfl : s = t := Option.some.inj ht
      exact hnone y q hy hq
    · cases ht
      rw [Function.update_self]
  · rintro t ht
    obtain rfl : s = t := Option.some.inj ht
    exact hs
  · have hne : y ≠ x := by
      have hy : w.vars ≤ y := hy
      omega
    exact (Function.update_of_ne hne _ _).trans (h.unused y hy)

end Sim

/-! ## Results -/

/-- What `set_value` and `set_exception` do with a state, by its channel:
they store `x` if nothing is stored yet. -/
def Answers (f : SharedState V E → SharedState V E × Response V E)
    (x : Except E (Except (Exn E) V)) : Prop :=
  ∀ st ch, Shows st ch →
    (∀ r, ch.result = some r → f st = (st, .throws (.error .promiseAlreadySatisfied))) ∧
    (ch.result = none → (∀ e, x = .error e → f st = (st, .throws (.exception (.user e)))) ∧
      ∀ r, x = .ok r → (f st).2 = .done ∧ Shows (f st).1 { ch with result := some r })

theorem answers_emplace (v : Except E V) :
    Answers (fun st : SharedState V E => st.emplace v) (v.map .ok) := by
  intro st ch h
  refine ⟨fun r hr => ?_, fun hnone => ⟨fun e he => ?_, fun r hr => ?_⟩⟩
  · rcases h.storage with ⟨-, hch⟩ | ⟨v', hst, -⟩ | ⟨x, hst, -⟩
    · rw [hr] at hch
      cases hch
    · simp only [SharedState.emplace, hst]
    · simp only [SharedState.emplace, hst]
  · rcases h.storage with ⟨hst, -⟩ | ⟨v', -, hch⟩ | ⟨x, -, hch⟩
    · cases v with
      | ok v => cases he
      | error e' =>
        cases he
        simp only [SharedState.emplace, hst]
    · rw [hnone] at hch
      cases hch
    · rw [hnone] at hch
      cases hch
  · rcases h.storage with ⟨hst, -⟩ | ⟨v', -, hch⟩ | ⟨x, -, hch⟩
    · cases v with
      | error e' => cases hr
      | ok v =>
        cases hr
        simp only [SharedState.emplace, hst]
        exact ⟨trivial, .inr (.inl ⟨v, rfl, rfl⟩), rfl, h.canceler⟩
    · rw [hnone] at hch
      cases hch
    · rw [hnone] at hch
      cases hch

theorem answers_setException (x : Exn E) :
    Answers (fun st : SharedState V E => st.setException x) (.ok (.error x)) := by
  intro st ch h
  refine ⟨fun r hr => ?_, fun hnone => ⟨fun e he => ?_, fun r hr => ?_⟩⟩
  · rcases h.storage with ⟨-, hch⟩ | ⟨v', hst, -⟩ | ⟨x', hst, -⟩
    · rw [hr] at hch
      cases hch
    · simp only [SharedState.setException, hst]
    · simp only [SharedState.setException, hst]
  · cases he
  · cases hr
    rcases h.storage with ⟨hst, -⟩ | ⟨v', -, hch⟩ | ⟨x', -, hch⟩
    · simp only [SharedState.setException, hst]
      exact ⟨trivial, .inr (.inr ⟨x, rfl, rfl⟩), rfl, h.canceler⟩
    · rw [hnone] at hch
      cases hch
    · rw [hnone] at hch
      cases hch

/-- **The same response, and related again**, or no step of either. -/
def Agree (a : Option (World V E × Response V E)) (b : Option (Machine V E × Response V E)) :
    Prop :=
  (a = none ∧ b = none) ∨ ∃ w' m' r, a = some (w', r) ∧ b = some (m', r) ∧ Sim w' m'

theorem agree_none : Agree (none : Option (World V E × Response V E)) none := .inl ⟨rfl, rfl⟩

theorem Sim.agree {r : Response V E} (h : Sim w m) : Agree (some (w, r)) (some (m, r)) :=
  .inr ⟨w, m, r, rfl, rfl, h⟩

namespace Sim

/-- Setting the result of a state that is alive. -/
theorem setAlive {f : SharedState V E → SharedState V E × Response V E}
    {arg : Except E (Except (Exn E) V)} (h : Sim w m) (hf : Answers f arg) (s : ℕ)
    (halive : m.Alive s) : Agree (some (w.setState s (f (w.states s)).1, (f (w.states s)).2))
      (some (m.set s arg)) := by
  obtain ⟨hsome, hnone⟩ := hf _ _ (h.channels s)
  have hsame : w.setState s (w.states s) = w := by simp [World.setState]
  unfold Machine.set
  rw [if_pos halive]
  cases hr : (m.channels s).result with
  | some r =>
    rw [hsome r hr, hsame]
    exact h.agree
  | none =>
    obtain ⟨herror, hok⟩ := hnone hr
    cases arg with
    | error e =>
      rw [herror e rfl, hsame]
      exact h.agree
    | ok r =>
      obtain ⟨hdone, hshows⟩ := hok r rfl
      rw [hdone]
      exact (h.setState hshows rfl).agree

/-- **`set_value` and `set_exception`.** -/
theorem set {f : SharedState V E → SharedState V E × Response V E}
    {arg : Except E (Except (Exn E) V)} (h : Sim w m) (hf : Answers f arg)
    (hx : w.objects x = .promise p) (hs : p.state = some s) :
    Agree (some (w.set p f)) (some (m.set s arg)) := by
  cases p with
  | monostate => cases hs
  | shared t =>
    cases hs
    exact h.setAlive hf s ((h.owned_iff s).mp (h.owned_of_shared hx))
  | weak t =>
    cases hs
    by_cases howned : w.Owned s
    · have hset := h.setAlive hf s ((h.owned_iff s).mp howned)
      simpa only [World.set, World.getState, if_pos howned] using hset
    · have hdead : ¬ m.Alive s := fun halive => howned ((h.owned_iff s).mpr halive)
      simp only [World.set, World.getState, if_neg howned, Machine.set, if_neg hdead]
      exact h.agree

/-- **`abandon`** throws nothing, and gives `broken_promise` to a future
that waits. -/
theorem abandon (h : Sim w m) (hx : w.objects x = .promise p) :
    (w.abandon p).2 = .done ∧ Sim (w.abandon p).1 (m.abandonOf p.state) := by
  cases p with
  | monostate => exact ⟨rfl, h⟩
  | shared s =>
    have hopen := h.kept.shared x s hx
    refine ⟨rfl, ?_⟩
    show Sim w (m.abandon s)
    rw [Machine.abandon, if_neg (by rw [hopen]; simp)]
    exact h
  | weak s =>
    show ((w.abandon (.weak s)).2 = .done) ∧ Sim (w.abandon (.weak s)).1 (m.abandon s)
    have hweak := h.kept.weak x s hx
    have hheld := h.owned_iff_held hx
    have hch := h.channels s
    by_cases howned : w.Owned s
    · rw [World.abandon, if_pos howned, Machine.abandon]
      cases hr : (m.channels s).result with
      | some r =>
        have hex : (w.states s).executed = true := by rw [hch.executed, hr]; rfl
        have hdone : (w.states s).abandon = (w.states s, .done) := by
          simp only [SharedState.abandon, hex]
        rw [hdone, if_neg (by simp)]
        refine ⟨rfl, ?_⟩
        have hsame : w.setState s (w.states s) = w := by simp [World.setState]
        rw [hsame]
        exact h
      | none =>
        have hex : (w.states s).executed = false := by rw [hch.executed, hr]; rfl
        have hempty : (w.states s).storage = .empty := by
          rcases hch.storage with ⟨hst, -⟩ | ⟨v, -, hsome⟩ | ⟨e, -, hsome⟩
          · exact hst
          · rw [hr] at hsome
            cases hsome
          · rw [hr] at hsome
            cases hsome
        have hset : (w.states s).abandon = (w.states s).setException .brokenPromise := by
          simp only [SharedState.abandon, hex, hempty]
        obtain ⟨-, hnone⟩ := answers_setException .brokenPromise _ _ hch
        obtain ⟨hdone, hshows⟩ := (hnone hr).2 _ rfl
        rw [hset, if_pos ⟨hweak, hheld.mp howned, rfl⟩]
        exact ⟨hdone, h.setState hshows rfl⟩
    · rw [World.abandon, if_neg howned, Machine.abandon,
        if_neg fun hcond => howned (hheld.mpr hcond.2.1)]
      exact ⟨rfl, h⟩

/-- A promise takes over the state of another one. -/
theorem moveAssign (h : Sim w m) (hxy : x ≠ y) (hx : x < w.vars)
    (hy : w.objects y = .promise q) :
    Sim ((w.setObject x (.promise q)).setObject y (.promise .monostate))
      ((m.setHandle x (.promise q.state)).setHandle y (.promise none)) := by
  have hlt : y < w.vars := h.lt_vars (by rw [hy]; simp)
  have hmoved : Sim (w.setObject y (.promise .monostate)) (m.setHandle y (.promise none)) :=
    h.setOther hlt (by simp [Object.state, Either.state]) (by simp)
  have hput := hmoved.setObject (x := x) (o := .promise q) hx (fun s hs => h.bound y s (hy ▸ hs))
    (h.kept_move hy x)
  have hw : (w.setObject y (.promise .monostate)).setObject x (.promise q) =
      (w.setObject x (.promise q)).setObject y (.promise .monostate) := by
    unfold World.setObject
    rw [Function.update_comm hxy.symm]
  have hm : (m.setHandle y (.promise none)).setHandle x (.promise q.state) =
      (m.setHandle x (.promise q.state)).setHandle y (.promise none) := by
    unfold Machine.setHandle
    rw [Function.update_comm hxy.symm]
  rw [hw] at hput
  rw [← hm]
  exact hput

/-- A promise and a future come with a new state. -/
theorem makePromise (h : Sim w m) (canceler : Bool) :
    Sim (((w.alloc canceler).push (.promise (.weak w.fresh))).push (.future true (some w.fresh)))
      (((m.alloc true canceler).push (.promise (some m.fresh))).push
        (.future true (some m.fresh))) := by
  have ha := h.alloc true canceler
  have hlt : w.fresh < (w.alloc canceler).fresh := Nat.lt_succ_self _
  have hpush := ha.push (o := .promise (.weak w.fresh))
    (fun s hs => by cases hs; exact hlt) (ha.kept.put _ ?_ (by simp) ?_)
  · rw [h.fresh]
    exact hpush.pushOther (o := .future true (some w.fresh)) (fun s hs => by cases hs; exact hlt)
      (by simp)
  · rintro y r s hy hr hs
    cases hs
    exact absurd (h.bound y w.fresh (by
      have hy : w.objects y = .promise r := hy
      rw [hy]
      exact hr)) (lt_irrefl _)
  · rintro s hs
    cases hs
    simp [Machine.alloc, h.fresh]

/-! ## The operations -/

/-- An operation on a promise. -/
theorem ofPromise (h : Sim w m) (x : ℕ) {f : Either → Option (World V E × Response V E)}
    {g : Option ℕ → Option (Machine V E × Response V E)}
    (hfg : ∀ p, w.objects x = .promise p → Agree (f p) (g p.state)) :
    Agree (match w.objects x with | .promise p => f p | _ => none)
      (match m.handles x with | .promise ch => g ch | _ => none) := by
  rw [h.handles x]
  cases ho : w.objects x with
  | gone | future => exact agree_none
  | promise p => exact hfg p ho

/-- One that a promise which was moved from refuses. -/
theorem ofPromiseState (h : Sim w m) (x : ℕ) {f : Either → World V E × Response V E}
    {g : ℕ → Machine V E × Response V E} (hnone : f .monostate = (w, .throws (.error .noState)))
    (hfg : ∀ p s, w.objects x = .promise p → p.state = some s → Agree (some (f p)) (some (g s))) :
    Agree (match w.objects x with | .promise p => some (f p) | _ => none) (m.onPromise x g) := by
  unfold Machine.onPromise
  rw [h.handles x]
  cases ho : w.objects x with
  | gone | future => exact agree_none
  | promise p =>
    cases p with
    | monostate =>
      show Agree (some (f .monostate)) _
      rw [hnone]
      exact h.agree
    | shared s | weak s => exact hfg _ s ho rfl

/-- An operation on a future. -/
theorem ofFuture (h : Sim w m) (x : ℕ) {f : Bool → Option ℕ → Option (World V E × Response V E)}
    {g : Bool → Option ℕ → Option (Machine V E × Response V E)}
    (hfg : ∀ unique state, w.objects x = .future unique state →
      Agree (f unique state) (g unique state)) :
    Agree (match w.objects x with | .future unique state => f unique state | _ => none)
      (match m.handles x with | .future unique ch => g unique ch | _ => none) := by
  rw [h.handles x]
  cases ho : w.objects x with
  | gone | promise => exact agree_none
  | future unique state => exact hfg unique state ho

/-- A variable that is moved from, or destroyed. -/
theorem vacate (h : Sim w m) (hx : w.objects x ≠ .gone) (ho : o.state = none) :
    Sim (w.setObject x o) (m.setHandle x o.handle) := by
  refine h.setOther (h.lt_vars hx) (fun s hs => ?_) fun p hp => ?_
  · rw [ho] at hs
    cases hs
  · subst hp
    cases p with
    | monostate => rfl
    | shared | weak => cases ho

theorem construct (h : Sim w m) (canceler : Bool) :
    Sim ((w.alloc canceler).push (.promise (.shared w.fresh)))
      ((m.alloc false canceler).push (.promise (some m.fresh))) := by
  have ha := h.alloc false canceler
  have hpush := ha.push (o := .promise (.shared w.fresh))
    (fun s hs => by cases hs; exact Nat.lt_succ_self _) (ha.kept.put _ ?_ ?_ (by simp))
  · rw [h.fresh]
    exact hpush
  · rintro y r s hy hr hs
    cases hs
    exact absurd (h.bound y w.fresh (by rw [show w.objects y = .promise r from hy]; exact hr))
      (lt_irrefl _)
  · rintro s hs
    cases hs
    simp [Machine.alloc, h.fresh]

theorem getFuture (h : Sim w m) (x : ℕ) :
    Agree (w.step (.getFuture x)) (m.step (.getFuture x)) := by
  refine h.ofPromiseState x rfl fun p s ho hs => ?_
  cases p with
  | monostate => cases hs
  | weak t =>
    cases hs
    rw [if_pos (h.kept.weak x s ho)]
    exact h.agree
  | shared t =>
    cases hs
    rw [if_neg (by rw [h.kept.shared x s ho]; simp)]
    refine ((h.retrieve ho).pushOther (o := .future true (some s)) (fun t ht => ?_) (by simp)).agree
    cases ht
    exact h.bound x s (by rw [ho]; rfl)

theorem isAwaiten (h : Sim w m) (x : ℕ) :
    Agree (w.step (.isAwaiten x)) (m.step (.isAwaiten x)) := by
  refine h.ofPromiseState x rfl fun p s ho hs => ?_
  have hanswer : w.isAwaiten p = .answer (m.Alive s) := by
    cases p with
    | monostate => cases hs
    | shared t =>
      cases hs
      simp only [World.isAwaiten, (h.owned_iff s).mp (h.owned_of_shared ho), decide_true]
    | weak t =>
      cases hs
      simp only [World.isAwaiten, h.owned_iff s]
  rw [hanswer]
  exact h.agree

theorem moveConstruct (h : Sim w m) (x : ℕ) :
    Agree (w.step (.moveConstruct x)) (m.step (.moveConstruct x)) := by
  refine h.ofPromise x fun p ho => ?_
  have hclear := h.vacate (o := .promise .monostate) (by rw [ho]; simp) rfl
  exact (hclear.push (o := .promise p) (fun s hs => h.bound x s (ho ▸ hs)) (h.kept_move ho _)).agree

/-- `abandon` leaves the variables alone. -/
theorem abandon_objects (w : World V E) (p : Either) :
    (w.abandon p).1.objects = w.objects ∧ (w.abandon p).1.vars = w.vars := by
  cases p with
  | monostate | shared => exact ⟨rfl, rfl⟩
  | weak s =>
    simp only [World.abandon]
    split <;> exact ⟨rfl, rfl⟩

theorem assign (h : Sim w m) (x y : ℕ) :
    Agree (w.step (.moveAssign x y)) (m.step (.moveAssign x y)) := by
  by_cases hxy : x = y
  · simp only [World.step, Machine.step, if_pos hxy]
    exact agree_none
  simp only [World.step, Machine.step, if_neg hxy, h.handles x, h.handles y]
  cases hox : w.objects x with
  | gone | future => exact agree_none
  | promise p =>
    cases hoy : w.objects y with
    | gone | future => exact agree_none
    | promise q =>
      obtain ⟨hdone, hsim⟩ := h.abandon hox
      obtain ⟨hobjects, hvars⟩ := abandon_objects w p
      simp only [hdone, Object.handle]
      refine (hsim.moveAssign hxy ?_ ?_).agree
      · rw [hvars]
        exact h.lt_vars (by rw [hox]; simp)
      · rw [hobjects]
        exact hoy

theorem destroy (h : Sim w m) (x : ℕ) : Agree (w.step (.destroy x)) (m.step (.destroy x)) := by
  refine h.ofPromise x fun p ho => ?_
  obtain ⟨hdone, hsim⟩ := h.abandon ho
  rw [hdone]
  refine (hsim.vacate (o := .gone) ?_ rfl).agree
  rw [(abandon_objects w p).1, ho]
  simp

/-- A future is constructed from another one, which becomes `o`. -/
theorem passOn (h : Sim w m) (hx : w.objects x ≠ .gone) (ho : o.state = none) (unique : Bool)
    {state : Option ℕ} (hstate : ∀ s, state = some s → s < w.fresh) :
    Sim ((w.setObject x o).push (.future unique state))
      ((m.setHandle x o.handle).push (.future unique state)) :=
  (h.vacate hx ho).pushOther (o := .future unique state) hstate (by simp)

theorem assignFuture (h : Sim w m) (x y : ℕ) :
    Agree (w.step (.assignFuture x y)) (m.step (.assignFuture x y)) := by
  by_cases hxy : x = y
  · simp only [World.step, Machine.step, if_pos hxy]
    exact agree_none
  simp only [World.step, Machine.step, if_neg hxy, h.handles x, h.handles y]
  cases hox : w.objects x with
  | gone | promise => exact agree_none
  | future unique old =>
    cases hoy : w.objects y with
    | gone | promise => exact agree_none
    | future unique' state =>
      simp only [Object.handle]
      by_cases hu : unique = unique'
      · rw [if_pos hu, if_pos hu]
        have hput : Sim (w.setObject x (.future unique state))
            (m.setHandle x (.future unique state)) :=
          h.setOther (h.lt_vars (by rw [hox]; simp)) (fun s hs => h.bound y s (hoy ▸ hs)) (by simp)
        refine (hput.vacate (x := y) (o := .future unique none) ?_ rfl).agree
        show Function.update w.objects x _ y ≠ .gone
        rw [Function.update_of_ne (Ne.symm hxy), hoy]
        simp
      · rw [if_neg hu, if_neg hu]
        exact agree_none

theorem isReady (h : Sim w m) (x : ℕ) : Agree (w.step (.isReady x)) (m.step (.isReady x)) := by
  simp only [World.step, Machine.step, h.handles x]
  cases ho : w.objects x with
  | gone | promise => exact agree_none
  | future unique state =>
    cases state with
    | none => exact h.agree
    | some s =>
      simp only [Object.handle, (h.channels s).executed]
      exact h.agree

theorem get (h : Sim w m) (x : ℕ) : Agree (w.step (.get x)) (m.step (.get x)) := by
  simp only [World.step, Machine.step, h.handles x]
  cases ho : w.objects x with
  | gone | promise => exact agree_none
  | future unique state =>
    cases state with
    | none => exact h.agree
    | some s =>
      have hch := h.channels s
      have hafter : Sim (if unique = true then w.setObject x (.future true none) else w)
          (if unique = true then m.setHandle x (.future true none) else m) := by
        split
        · exact h.vacate (o := .future true none) (by rw [ho]; simp) rfl
        · exact h
      simp only [Object.handle, hch.executed]
      rcases hch.storage with ⟨-, hr⟩ | ⟨v, hst, hr⟩ | ⟨e, hst, hr⟩
      · rw [hr]
        exact agree_none
      · simp only [hr, Option.isSome_some, if_true, SharedState.read, hst, Option.map_some]
        exact hafter.agree
      · simp only [hr, Option.isSome_some, if_true, SharedState.read, hst, Option.map_some]
        exact hafter.agree

/-- **Every operation answers alike.** -/
theorem step (h : Sim w m) (op : Op V E) : Agree (w.step op) (m.step op) := by
  have hbound : ∀ x unique state, w.objects x = .future unique state →
      ∀ s, state = some s → s < w.fresh := fun x unique state ho s hs =>
    h.bound x s (by rw [ho]; exact hs)
  cases op with
  | construct canceler => exact (h.construct canceler).agree
  | makePromise canceler => exact (h.makePromise canceler).agree
  | interruptible => exact (h.makePromise false).agree
  | getFuture x => exact h.getFuture x
  | setValue x v =>
    exact h.ofPromiseState x rfl fun p s ho hs => h.set (answers_emplace v) ho hs
  | setException x e =>
    exact h.ofPromiseState x rfl fun p s ho hs => h.set (answers_setException e) ho hs
  | isAwaiten x => exact h.isAwaiten x
  | moveConstruct x => exact h.moveConstruct x
  | moveAssign x y => exact h.assign x y
  | destroy x => exact h.destroy x
  | share x =>
    simp only [World.step, Machine.step, h.handles x]
    cases ho : w.objects x with
    | gone | promise => exact agree_none
    | future unique state =>
      cases unique with
      | false => exact agree_none
      | true =>
        exact (h.passOn (o := .future true none) (by rw [ho]; simp) rfl false
          (hbound x true state ho)).agree
  | copy x =>
    simp only [World.step, Machine.step, h.handles x]
    cases ho : w.objects x with
    | gone | promise => exact agree_none
    | future unique state =>
      cases unique with
      | true => exact agree_none
      | false =>
        exact (h.pushOther (o := .future false state) (hbound x false state ho) (by simp)).agree
  | moveFuture x =>
    exact h.ofFuture x fun unique state ho =>
      (h.passOn (o := .future unique none) (by rw [ho]; simp) rfl unique
        (hbound x unique state ho)).agree
  | assignFuture x y => exact h.assignFuture x y
  | dropFuture x =>
    exact h.ofFuture x fun unique state ho => (h.vacate (o := .gone) (by rw [ho]; simp) rfl).agree
  | isReady x => exact h.isReady x
  | get x => exact h.get x

/-- The same states are left by the same operations. -/
theorem cancelled (h : Sim w m) (h' : Sim w' m') : w.cancelled w' = m.cancelled m' := by
  unfold World.cancelled Machine.cancelled
  rw [h.fresh]
  refine List.filter_congr fun s _ => ?_
  have hex := (h'.channels s).executed
  have hnone : (w'.states s).executed = false ↔ (m'.channels s).result.isNone = true := by
    rw [hex]
    cases (m'.channels s).result <;> simp
  simp only [h.owned_iff s, h'.owned_iff s, (h'.channels s).canceler, hnone]

/-- **A program sees the same** of related configurations. -/
theorem run (h : Sim w m) (ops : List (Op V E)) : w.run ops = m.run ops := by
  induction ops generalizing w m with
  | nil => rfl
  | cons op ops ih =>
    rcases h.step op with ⟨hw, hm⟩ | ⟨w', m', r, hw, hm, hsim⟩
    · simp only [World.run, Machine.run, hw, hm]
    · simp only [World.run, Machine.run, hw, hm, h.cancelled hsim, ih hsim]

end Sim

/-- **The promise protocol.** Whatever a program does with its promises and
their futures, each operation returns or throws, and calls cancelers, as
the reference machine does. -/
theorem promise_protocol (V E : Type*) (ops : List (Op V E)) :
    (World.init : World V E).run ops = (Machine.init : Machine V E).run ops :=
  sim_init.run ops

/-- The last `set_value` finds nobody who could see its value. -/
example : (World.init : World ℕ ℕ).run [.construct true, .getFuture 0, .getFuture 0,
    .setValue 0 (.ok 5), .setValue 0 (.ok 6), .get 1, .setValue 0 (.ok 7)] =
    [(.done, []), (.done, []), (.throws (.error .futureAlreadyRetrieved), []), (.done, []),
      (.throws (.error .promiseAlreadySatisfied), []), (.value 5, []), (.done, [])] := by
  decide

end Promise

end PortableConcurrency
