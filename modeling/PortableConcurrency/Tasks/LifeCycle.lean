import PortableConcurrency.Tasks.Reference

/-!
# Tasks behave as the reference machine

What a task keeps is forgotten: whether it refers to its state by a
`shared_ptr` or a `weak_ptr` becomes whether its future was retrieved, and
the function, the storage and the list of a state become its phase. Every
operation on what is kept is then the reference machine's on what is
left, because a state has its function exactly until something is stored,
and its list is closed exactly when there is a result.
-/

namespace PortableConcurrency

namespace Tasks

open Futures (Exn)

variable {V E F : Type*} {w w' : World V E F} {st : TaskState V E F} {s x : ℕ}

/-! ## What is forgotten -/

/-- Whether a task refers to its state by a `weak_ptr` says whether its
future was retrieved. -/
def Either.job : Either → Option (ℕ × Bool)
  | .monostate => none
  | .shared s => some (s, false)
  | .weak s => some (s, true)

def Object.handle : Object → Handle
  | .gone => .gone
  | .task p => .task p.job
  | .future unique state => .future unique state

namespace TaskState

/-- The phase of a state. -/
def phase (st : TaskState V E F) : Phase V E F :=
  match st.storage, st.func with
  | .empty, some f => .waiting f
  | .empty, none => .following
  | .value v, _ => .ready (.ok v)
  | .exception x, _ => .ready (.error x)
  | .inner none, _ => .following
  | .inner (some r), _ => .ready r

def job (st : TaskState V E F) : Job V E F := ⟨st.phase, st.detached⟩

/-- **What holds of a state between operations**: it has its function until
something is stored, and its list is closed when there is a result. -/
structure Good (st : TaskState V E F) : Prop where
  func : st.func.isSome = true ↔ st.storage = .empty
  executed : st.executed = st.phase.result.isSome
  detached : st.executed = true → st.detached = false

/-- A good state that has not been called. -/
theorem Good.waiting {f : F} (h : st.Good) (hf : st.func = some f) :
    st.storage = .empty ∧ st.executed = false ∧ st.phase = .waiting f := by
  have hs := h.func.mp (by simp [hf])
  have hp : st.phase = .waiting f := by simp [phase, hs, hf]
  exact ⟨hs, by rw [h.executed, hp]; rfl, hp⟩

/-- One that has. -/
theorem Good.called (h : st.Good) (hf : st.func = none) :
    st.storage ≠ .empty ∧ st.phase.func = none := by
  have hs : st.storage ≠ .empty := fun hs => by
    have := h.func.mpr hs
    simp [hf] at this
  refine ⟨hs, ?_⟩
  unfold phase
  split <;> simp_all [Phase.func]

/-- The function of the phase is the function that is kept. -/
theorem Good.func_phase (h : st.Good) : st.phase.func = st.func := by
  cases hf : st.func with
  | none => exact (h.called hf).2
  | some f => rw [(h.waiting hf).2.2]; rfl

/-- **What is stored when the function is gone.** The list is closed with
it if there is a result. -/
theorem good_stored {y : Stored V E} {p : Phase V E F} {b d : Bool} (hne : y ≠ .empty)
    (hp : (⟨none, y, b, d⟩ : TaskState V E F).phase = p) (hb : b = p.result.isSome)
    (hd : d = (st.detached && p.result.isNone)) : (⟨none, y, b, d⟩ : TaskState V E F).Good ∧
      (⟨none, y, b, d⟩ : TaskState V E F).job = st.job.setPhase p := by
  refine ⟨⟨by simp [hne], by rw [hp]; exact hb, fun hex => ?_⟩, ?_⟩
  · simp only at hex
    rw [hb, Option.isSome_iff_exists] at hex
    obtain ⟨r, hr⟩ := hex
    simp [hd, hr]
  · subst hd
    simp [job, Job.setPhase, hp]

/-- **The first call** calls the function, and stores what it comes to. -/
theorem Good.run {f : F} (h : st.Good) (hf : st.func = some f) (o : Returned V E) :
    ∃ st', st.run o = (st', .done, some f) ∧ st'.Good ∧ st'.job = st.job.setPhase o.phase := by
  obtain ⟨hs, hex, -⟩ := h.waiting hf
  obtain ⟨func, storage, executed, detached⟩ := st
  simp only at hs hex hf
  subst hs hex hf
  rcases o with v | e | _ | _ | r
  all_goals
    refine ⟨_, rfl, ?_⟩
    exact good_stored (by simp [setStateValue, emplace, setException, unwrap, execute]) rfl rfl
      (by simp [setStateValue, emplace, setException, unwrap, execute, Returned.phase,
        Phase.result])

/-- Another call throws. -/
theorem run_of_none (hf : st.func = none) (o : Returned V E) :
    st.run o = (st, .throws (.error .promiseAlreadySatisfied), none) := by
  unfold TaskState.run
  rw [hf]

/-- **A task that goes before it is called** breaks its promise. -/
theorem Good.abandon {f : F} (h : st.Good) (hf : st.func = some f) :
    ∃ st', st.abandon = (st', .done) ∧ st'.Good ∧
      st'.job = st.job.setPhase (.ready (.error .brokenPromise)) := by
  obtain ⟨hs, hex, -⟩ := h.waiting hf
  obtain ⟨func, storage, executed, detached⟩ := st
  simp only at hs hex hf
  subst hs hex hf
  refine ⟨_, rfl, ?_⟩
  exact good_stored (by simp) rfl rfl (by simp [Phase.result])

/-- One that goes afterwards leaves its state alone, also when that was
unwrapped and is not ready. -/
theorem Good.abandon_of_none (h : st.Good) (hf : st.func = none) : st.abandon = (st, .done) := by
  have hs := (h.called hf).1
  have hex := h.executed
  obtain ⟨func, storage, executed, detached⟩ := st
  simp only at hs hf
  subst hf
  cases executed with
  | true => rfl
  | false =>
    cases storage with
    | inner r => rfl
    | empty => exact absurd rfl hs
    | value v | exception x => cases hex

theorem Good.phase_following (h : st.Good) :
    st.phase = .following ↔ st.storage = .inner none := by
  constructor
  · intro hp
    have hfunc := h.func
    unfold phase at hp
    split at hp <;> simp_all
  · intro hs
    unfold phase
    rw [hs]

/-- **The inner state becomes ready.** -/
theorem Good.resolve (h : st.Good) (hp : st.phase = .following) (r : Result V E) :
    ∃ st', st.resolve r = some st' ∧ st'.Good ∧ st'.job = st.job.setPhase (.ready r) := by
  have hs := h.phase_following.mp hp
  have hfunc := h.func
  obtain ⟨func, storage, executed, detached⟩ := st
  simp only at hs hfunc
  subst hs
  obtain rfl : func = none := by simpa using hfunc
  refine ⟨_, rfl, ?_⟩
  exact good_stored (by simp) rfl rfl (by simp [Phase.result])

theorem Good.resolve_of_ne (h : st.Good) (hp : st.phase ≠ .following) (r : Result V E) :
    st.resolve r = none := by
  have hs := mt h.phase_following.mpr hp
  unfold TaskState.resolve
  split <;> simp_all

/-- What is read is the result. -/
theorem Good.read (h : st.Good) (hex : st.executed = true) : st.read = st.phase.result := by
  have hres := h.executed
  rw [hex] at hres
  obtain ⟨func, storage, executed, detached⟩ := st
  cases storage with
  | value | exception => rfl
  | empty => cases func <;> simp [phase, Phase.result] at hres
  | inner r =>
    cases r with
    | none => simp [phase, Phase.result] at hres
    | some r => rfl

theorem Good.detach (h : st.Good) (hex : st.executed = false) :
    ({ st with detached := true } : TaskState V E F).Good :=
  ⟨h.func, h.executed, by simp [hex]⟩

end TaskState

/-- What is left of a configuration. -/
def World.abs (w : World V E F) : Machine V E F :=
  ⟨fun x => (w.objects x).handle, w.vars, fun s => (w.states s).job, w.fresh, w.foreign⟩

/-- All its states are good, and the variables are those that have been
constructed. -/
structure World.Good (w : World V E F) : Prop where
  states : ∀ s, (w.states s).Good
  vars : ∀ x, w.vars ≤ x → w.objects x = .gone

namespace World

/-! ## What is left of the parts -/

theorem abs_handles (w : World V E F) (x : ℕ) : w.abs.handles x = (w.objects x).handle := rfl

theorem abs_jobs (w : World V E F) (s : ℕ) : w.abs.jobs s = (w.states s).job := rfl

theorem abs_setObject (w : World V E F) (x : ℕ) (o : Object) :
    (w.setObject x o).abs = w.abs.setHandle x o.handle := by
  unfold abs setObject Machine.setHandle
  congr 1
  funext y
  by_cases hy : y = x <;> simp [hy]

theorem abs_push (w : World V E F) (o : Object) : (w.push o).abs = w.abs.push o.handle := by
  unfold abs push Machine.push
  congr 1
  funext y
  by_cases hy : y = w.vars <;> simp [hy]

theorem abs_setState (w : World V E F) (s : ℕ) (st : TaskState V E F) :
    (w.setState s st).abs = w.abs.setJob s st.job := by
  unfold abs setState Machine.setJob
  congr 1
  funext t
  by_cases ht : t = s <;> simp [ht]

theorem abs_alloc (w : World V E F) (f : F) : (w.alloc f).abs = w.abs.alloc f := by
  unfold abs alloc Machine.alloc
  congr 1
  funext t
  by_cases ht : t = w.fresh <;> simp [ht, TaskState.job, TaskState.phase]

theorem abs_lend (w : World V E F) (state : Option ℕ) : (w.lend state).abs = w.abs.lend state := by
  cases state <;> rfl

/-- **A state is owned exactly when its job is alive.** -/
theorem owned_iff (w : World V E F) (s : ℕ) : w.Owned s ↔ w.abs.Alive s := by
  have href : ∀ o : Object, o.ref = some s ↔ o.handle.ref = some s := by
    intro o
    cases o with
    | gone | future => rfl
    | task p => cases p <;> rfl
  unfold Owned Machine.Alive
  simp only [href]
  rfl

theorem good_init : Good (init : World V E F) := by
  refine ⟨fun s => ⟨?_, rfl, fun h => rfl⟩, fun x _ => rfl⟩
  simp [init]

theorem Good.lt (h : w.Good) (hx : w.objects x ≠ .gone) : x < w.vars := by
  by_contra hle
  exact hx (h.vars x (by omega))

theorem Good.setState (h : w.Good) (s : ℕ) (hst : st.Good) : (w.setState s st).Good := by
  refine ⟨fun t => ?_, h.vars⟩
  by_cases ht : t = s
  · subst ht
    simpa [World.setState] using hst
  · simpa [World.setState, ht] using h.states t

theorem Good.alloc (h : w.Good) (f : F) : (w.alloc f).Good := by
  refine ⟨fun t => ?_, h.vars⟩
  by_cases ht : t = w.fresh
  · subst ht
    refine ⟨?_, ?_, ?_⟩ <;> simp [World.alloc, TaskState.phase, Phase.result]
  · simpa [World.alloc, ht] using h.states t

theorem Good.lend (h : w.Good) (state : Option ℕ) : (w.lend state).Good := by
  cases state <;> exact ⟨h.states, h.vars⟩

theorem Good.setObject (h : w.Good) (hx : w.objects x ≠ .gone) (o : Object) :
    (w.setObject x o).Good := by
  refine ⟨h.states, fun y hy => ?_⟩
  have hlt := h.lt hx
  simp only [World.setObject] at hy ⊢
  rw [Function.update_of_ne (by omega)]
  exact h.vars y hy

theorem Good.push (h : w.Good) (o : Object) : (w.push o).Good := by
  refine ⟨h.states, fun y hy => ?_⟩
  simp only [World.push] at hy ⊢
  rw [Function.update_of_ne (by omega)]
  exact h.vars y (by omega)

/-- A task whose future has not been retrieved has a state. -/
theorem Good.owned (h : w.Good) (hx : w.objects x = .task (.shared s)) : w.Owned s :=
  .inl ⟨x, h.lt (by rw [hx]; simp), by rw [hx]; rfl⟩

/-! ## Every operation -/

/-- Either neither goes on, or both do, with the same answers. -/
def Agree (a : Option (World V E F × Reply V E × Option F))
    (b : Option (Machine V E F × Reply V E × Option F)) : Prop :=
  (a = none ∧ b = none) ∨ ∃ w' r f, a = some (w', r, f) ∧ b = some (w'.abs, r, f) ∧ w'.Good

theorem agree_none :
    Agree (none : Option (World V E F × Reply V E × Option F)) none := .inl ⟨rfl, rfl⟩

theorem Good.agree {m : Machine V E F} {r : Reply V E} {f : Option F} (h : w.Good)
    (hm : w.abs = m) : Agree (some (w, r, f)) (some (m, r, f)) :=
  .inr ⟨w, r, f, rfl, by rw [hm], h⟩

/-- Only the count changes where the environment lets go. -/
theorem Good.release_step (h : w.Good) (s : ℕ) :
    Agree (w.step (.release s)) (w.abs.step (.release s)) := by
  simp only [World.step, Machine.step]
  by_cases hpos : 0 < w.foreign s
  · rw [if_pos hpos, if_pos (show 0 < w.abs.foreign s from hpos)]
    exact Good.agree ⟨h.states, h.vars⟩ rfl
  · rw [if_neg hpos, if_neg (show ¬ 0 < w.abs.foreign s from hpos)]
    exact agree_none

variable {p : Either}

/-- **What `get_state` finds**: the state, if the job is alive. -/
theorem Good.getState (h : w.Good) (hx : w.objects x = .task p) :
    (p.job = none ∧ w.getState p = .error .noState) ∨
      ∃ s b, p.job = some (s, b) ∧
        w.getState p = .ok (if w.abs.Alive s then some s else none) := by
  cases p with
  | monostate => exact .inl ⟨rfl, rfl⟩
  | shared s =>
    have halive := (owned_iff w s).mp (h.owned hx)
    exact .inr ⟨s, false, rfl, by simp [World.getState, halive]⟩
  | weak s => exact .inr ⟨s, true, rfl, by simp [World.getState, owned_iff]⟩

/-- A call calls the function when the reference machine's does. -/
theorem Good.runs_iff (h : w.Good) (hx : w.objects x = .task p) :
    w.Runs p ↔ w.abs.Calls p.job := by
  unfold World.Runs Machine.Calls
  rcases h.getState hx with ⟨hj, hg⟩ | ⟨s, b, hj, hg⟩
  · simp [hj, hg]
  · by_cases ha : w.abs.Alive s
    · simp only [hj, hg, ha, if_true, true_and, abs_jobs]
      rw [show (w.states s).job.phase = (w.states s).phase from rfl, (h.states s).func_phase]
    · simp [hj, hg, ha]

/-- **Calls agree.** -/
theorem Good.call (h : w.Good) (hx : w.objects x = .task p) (o : Returned V E) :
    Agree (some (w.call p o)) (some (w.abs.call p.job o)) := by
  rcases h.getState hx with ⟨hj, hg⟩ | ⟨s, b, hj, hg⟩
  · simp only [World.call, Machine.call, hj, hg]
    exact h.agree rfl
  · by_cases ha : w.abs.Alive s
    · simp only [World.call, Machine.call, hj, hg, ha, if_true, abs_jobs]
      cases hf : (w.states s).func with
      | none =>
        have hp := ((h.states s).called hf).2
        rw [TaskState.run_of_none hf]
        have hset : w.setState s (w.states s) = w := by simp [World.setState]
        simp only [hset]
        cases hphase : (w.states s).job.phase with
        | waiting f =>
          rw [show (w.states s).phase = .waiting f from hphase] at hp
          cases hp
        | following | ready => exact h.agree rfl
      | some f =>
        obtain ⟨st', hrun, hgood, hjob⟩ := (h.states s).run hf o
        rw [hrun, show (w.states s).job.phase = .waiting f from ((h.states s).waiting hf).2.2]
        exact (h.setState s hgood).agree (by rw [abs_setState, hjob])
    · simp only [World.call, Machine.call, hj, hg, ha, if_false]
      exact h.agree rfl

/-- **Going agrees.** -/
theorem Good.abandon (h : w.Good) (hx : w.objects x = .task p) :
    ∃ w', w.abandon p = (w', .done) ∧ w'.Good ∧ w'.abs = w.abs.abandon p.job ∧
      w'.objects = w.objects := by
  rcases h.getState hx with ⟨hj, hg⟩ | ⟨s, b, hj, hg⟩
  · simp only [World.abandon, Machine.abandon, hj, hg]
    exact ⟨w, rfl, h, rfl, rfl⟩
  · by_cases ha : w.abs.Alive s
    · simp only [World.abandon, Machine.abandon, hj, hg, ha, if_true, abs_jobs]
      cases hf : (w.states s).func with
      | none =>
        have hp := ((h.states s).called hf).2
        rw [(h.states s).abandon_of_none hf]
        have hset : w.setState s (w.states s) = w := by simp [World.setState]
        refine ⟨w, by rw [hset], h, ?_, rfl⟩
        cases hphase : (w.states s).job.phase with
        | waiting f =>
          rw [show (w.states s).phase = .waiting f from hphase] at hp
          cases hp
        | following | ready => rfl
      | some f =>
        obtain ⟨st', hst, hgood, hjob⟩ := (h.states s).abandon hf
        rw [hst, show (w.states s).job.phase = .waiting f from ((h.states s).waiting hf).2.2]
        exact ⟨_, rfl, h.setState s hgood, by rw [abs_setState, hjob], rfl⟩
    · simp only [World.abandon, Machine.abandon, hj, hg, ha, if_false]
      exact ⟨w, rfl, h, rfl, rfl⟩

/-- What a function returns is taken from the same variable. -/
theorem Good.returned (h : w.Good) (hx : w.objects x = .task p) (o : Comes V E) :
    (w.returned o = none ∧ w.abs.returned o = none) ∨ ∃ w' r, w.returned o = some (w', r) ∧
      w.abs.returned o = some (w'.abs, r) ∧ w'.Good ∧ w'.objects x = .task p := by
  cases o with
  | value v => exact .inr ⟨w, _, rfl, rfl, h, hx⟩
  | throws e => exact .inr ⟨w, _, rfl, rfl, h, hx⟩
  | other result => exact .inr ⟨w, _, rfl, rfl, h, hx⟩
  | future y result =>
    simp only [World.returned, Machine.returned, abs_handles]
    cases hy : w.objects y with
    | gone | task => exact .inl ⟨rfl, rfl⟩
    | future unique state =>
      have hxy : x ≠ y := by
        rintro rfl
        rw [hx] at hy
        cases hy
      refine .inr ⟨_, _, rfl, ?_, (h.setObject (by rw [hy]; simp) _).lend state, ?_⟩
      · rw [abs_lend, abs_setObject]
        rfl
      · cases state <;> simp [World.lend, World.setObject, hxy, hx]

/-- The steps of a variable that is a task. -/
theorem ofTask {f : Either → Option (World V E F × Reply V E × Option F)}
    {g : Option (ℕ × Bool) → Option (Machine V E F × Reply V E × Option F)} (w : World V E F)
    (x : ℕ) (hfg : ∀ p, w.objects x = .task p → Agree (f p) (g p.job)) :
    Agree (match w.objects x with | .task p => f p | _ => none)
      (match w.abs.handles x with | .task job => g job | _ => none) := by
  simp only [abs_handles]
  cases hx : w.objects x with
  | gone | future => exact agree_none
  | task p => exact hfg p hx

/-- Of one that is a future. -/
theorem ofFuture {f : Bool → Option ℕ → Option (World V E F × Reply V E × Option F)}
    {g : Bool → Option ℕ → Option (Machine V E F × Reply V E × Option F)} (w : World V E F)
    (x : ℕ) (hfg : ∀ unique state, w.objects x = .future unique state →
      Agree (f unique state) (g unique state)) :
    Agree (match w.objects x with | .future unique state => f unique state | _ => none)
      (match w.abs.handles x with | .future unique job => g unique job | _ => none) := by
  simp only [abs_handles]
  cases hx : w.objects x with
  | gone | task => exact agree_none
  | future unique state => exact hfg unique state hx

/-- A variable that holds something is there. -/
theorem present {o : Object} (hx : w.objects x = o) (ho : o ≠ .gone) : w.objects x ≠ .gone :=
  hx ▸ ho

/-! ## The operations that do more than pass an object on -/

/-- `get_future` takes the future from the state, once. -/
theorem Good.getFuture_step (h : w.Good) (x : ℕ) :
    Agree (w.step (.getFuture x)) (w.abs.step (.getFuture x)) := by
  refine ofTask w x fun p hx => ?_
  cases p with
  | monostate | weak => exact h.agree rfl
  | shared s =>
    refine ((h.setObject (present hx (by simp)) _).push _).agree ?_
    rw [abs_push, abs_setObject]
    rfl

/-- A call runs the function where it is allowed to. -/
theorem Good.call_step (h : w.Good) (x : ℕ) (o : Comes V E) :
    Agree (w.step (.call x o)) (w.abs.step (.call x o)) := by
  refine ofTask w x fun p hx => ?_
  by_cases hr : w.Runs p
  · rw [if_pos hr, if_pos ((h.runs_iff hx).mp hr)]
    rcases h.returned hx o with ⟨hw, hm⟩ | ⟨w', r, hw, hm, hgood, hx'⟩
    · rw [hw, hm]
      exact agree_none
    · rw [hw, hm]
      exact hgood.call hx' r
  · rw [if_neg hr, if_neg (mt (h.runs_iff hx).mpr hr)]
    exact h.call hx _

/-- Who is assigned to abandons its own state first. -/
theorem Good.moveAssign_step (h : w.Good) (x y : ℕ) :
    Agree (w.step (.moveAssign x y)) (w.abs.step (.moveAssign x y)) := by
  simp only [World.step, Machine.step, abs_handles]
  by_cases hxy : x = y
  · rw [if_pos hxy, if_pos hxy]
    exact agree_none
  rw [if_neg hxy, if_neg hxy]
  cases hx : w.objects x with
  | gone | future => exact agree_none
  | task p =>
    cases hy : w.objects y with
    | gone | future => exact agree_none
    | task q =>
      obtain ⟨w', hw, hgood, habs, hobj⟩ := h.abandon hx
      simp only [hw, Object.handle]
      have hput := hgood.setObject (x := x) (hobj ▸ present hx (by simp)) (.task q)
      refine (hput.setObject (x := y) ?_ (.task .monostate)).agree ?_
      · simp [World.setObject, Ne.symm hxy, hobj, hy]
      · rw [abs_setObject, abs_setObject, habs]
        rfl

theorem Good.swap_step (h : w.Good) (x y : ℕ) :
    Agree (w.step (.swap x y)) (w.abs.step (.swap x y)) := by
  simp only [World.step, Machine.step, abs_handles]
  cases hx : w.objects x with
  | gone | future => exact agree_none
  | task p =>
    cases hy : w.objects y with
    | gone | future => exact agree_none
    | task q =>
      have hput := h.setObject (x := x) (present hx (by simp)) (.task q)
      refine (hput.setObject (x := y) ?_ (.task p)).agree ?_
      · by_cases hyx : y = x <;> simp [World.setObject, hyx, hy]
      · rw [abs_setObject, abs_setObject]
        rfl

theorem Good.share_step (h : w.Good) (x : ℕ) :
    Agree (w.step (.share x)) (w.abs.step (.share x)) := by
  simp only [World.step, Machine.step, abs_handles]
  cases hx : w.objects x with
  | gone | task => exact agree_none
  | future unique state =>
    cases unique with
    | false => exact agree_none
    | true =>
      refine ((h.setObject (present hx (by simp)) _).push _).agree ?_
      rw [abs_push, abs_setObject]
      rfl

theorem Good.copy_step (h : w.Good) (x : ℕ) :
    Agree (w.step (.copy x)) (w.abs.step (.copy x)) := by
  simp only [World.step, Machine.step, abs_handles]
  cases hx : w.objects x with
  | gone | task => exact agree_none
  | future unique state =>
    cases unique with
    | true => exact agree_none
    | false => exact (h.push _).agree (abs_push _ _)

theorem Good.assignFuture_step (h : w.Good) (x y : ℕ) :
    Agree (w.step (.assignFuture x y)) (w.abs.step (.assignFuture x y)) := by
  simp only [World.step, Machine.step, abs_handles]
  by_cases hxy : x = y
  · rw [if_pos hxy, if_pos hxy]
    exact agree_none
  rw [if_neg hxy, if_neg hxy]
  cases hx : w.objects x with
  | gone | task => exact agree_none
  | future unique old =>
    cases hy : w.objects y with
    | gone | task => exact agree_none
    | future unique' state =>
      simp only [Object.handle]
      by_cases hu : unique = unique'
      · rw [if_pos hu, if_pos hu]
        have hput := h.setObject (x := x) (present hx (by simp)) (.future unique state)
        refine (hput.setObject (x := y) ?_ (.future unique none)).agree ?_
        · simp [World.setObject, Ne.symm hxy, hy]
        · rw [abs_setObject, abs_setObject]
          rfl
      · rw [if_neg hu, if_neg hu]
        exact agree_none

/-- A state that is not ready is marked. -/
theorem Good.detach_step (h : w.Good) (x : ℕ) :
    Agree (w.step (.detach x)) (w.abs.step (.detach x)) := by
  simp only [World.step, Machine.step, abs_handles, abs_jobs]
  cases hx : w.objects x with
  | gone | task => exact agree_none
  | future unique state =>
    cases state with
    | none => exact h.agree rfl
    | some s =>
      have hg := h.states s
      have hres : (w.states s).executed = (w.states s).job.phase.result.isSome := hg.executed
      simp only [Object.handle, ← hres]
      by_cases hex : (w.states s).executed = true
      · rw [if_pos hex, if_pos hex]
        refine ((h.setObject (present hx (by simp)) _).push _).agree ?_
        rw [abs_push, abs_setObject]
        rfl
      · have hopen : (w.states s).executed = false := by simpa using hex
        rw [if_neg hex, if_neg hex]
        have hput := h.setState s (hg.detach hopen)
        refine ((hput.setObject (x := x) (present hx (by simp)) _).push _).agree ?_
        rw [abs_push, abs_setObject, abs_setState]
        rfl

theorem Good.isReady_step (h : w.Good) (x : ℕ) :
    Agree (w.step (.isReady x)) (w.abs.step (.isReady x)) := by
  simp only [World.step, Machine.step, abs_handles, abs_jobs]
  cases hx : w.objects x with
  | gone | task => exact agree_none
  | future unique state =>
    cases state with
    | none => exact h.agree rfl
    | some s =>
      have hres : (w.states s).executed = (w.states s).job.phase.result.isSome :=
        (h.states s).executed
      simp only [Object.handle, ← hres]
      exact h.agree rfl

/-- `get` reads the result, which only a `shared_future` leaves where it is. -/
theorem Good.get_step (h : w.Good) (x : ℕ) :
    Agree (w.step (.get x)) (w.abs.step (.get x)) := by
  simp only [World.step, Machine.step, abs_handles, abs_jobs]
  cases hx : w.objects x with
  | gone | task => exact agree_none
  | future unique state =>
    cases state with
    | none => exact h.agree rfl
    | some s =>
      have hres : (w.states s).executed = (w.states s).job.phase.result.isSome :=
        (h.states s).executed
      simp only [Object.handle]
      by_cases hex : (w.states s).executed = true
      · rw [if_pos hex, (h.states s).read hex]
        rw [show (w.states s).job.phase = (w.states s).phase from rfl] at hres ⊢
        cases hr : (w.states s).phase.result with
        | none => exact agree_none
        | some r =>
          cases unique with
          | true => exact (h.setObject (present hx (by simp)) _).agree (abs_setObject _ _ _)
          | false => exact h.agree rfl
      · rw [if_neg hex]
        rw [hres] at hex
        rw [Option.isSome_iff_ne_none, not_not] at hex
        rw [hex]
        exact agree_none

/-- What the function has returned becomes ready. -/
theorem Good.resolve_step (h : w.Good) (s : ℕ) (r : Result V E) :
    Agree (w.step (.resolve s r)) (w.abs.step (.resolve s r)) := by
  simp only [World.step, Machine.step, abs_jobs]
  by_cases ha : w.Owned s
  · rw [if_pos ha, if_pos ((owned_iff w s).mp ha)]
    by_cases hp : (w.states s).phase = .following
    · obtain ⟨st', hst, hgood, hjob⟩ := (h.states s).resolve hp r
      rw [hst, show (w.states s).job.phase = .following from hp]
      exact (h.setState s hgood).agree (by rw [abs_setState, hjob])
    · rw [(h.states s).resolve_of_ne hp r]
      cases hphase : (w.states s).job.phase with
      | following => exact absurd hphase hp
      | waiting | ready => exact agree_none
  · rw [if_neg ha, if_neg (mt (owned_iff w s).mpr ha)]
    exact agree_none

/-- **Every operation answers alike.** -/
theorem Good.step (h : w.Good) (op : Op V E F) : Agree (w.step op) (w.abs.step op) := by
  cases op with
  | construct f =>
    exact ((h.alloc f).push _).agree (by rw [abs_push, abs_alloc]; rfl)
  | constructEmpty => exact (h.push _).agree (abs_push _ _)
  | valid x =>
    refine ofTask w x fun p hx => ?_
    have hvalid : (decide (p ≠ .monostate)) = p.job.isSome := by cases p <;> rfl
    rw [hvalid]
    exact h.agree rfl
  | getFuture x => exact h.getFuture_step x
  | call x o => exact h.call_step x o
  | moveConstruct x =>
    refine ofTask w x fun p hx => ?_
    refine ((h.setObject (present hx (by simp)) _).push _).agree ?_
    rw [abs_push, abs_setObject]
    rfl
  | moveAssign x y => exact h.moveAssign_step x y
  | swap x y => exact h.swap_step x y
  | destroy x =>
    refine ofTask w x fun p hx => ?_
    obtain ⟨w', hw, hgood, habs, hobj⟩ := h.abandon hx
    rw [hw]
    refine (hgood.setObject (hobj ▸ present hx (by simp)) _).agree ?_
    rw [abs_setObject, habs]
    rfl
  | share x => exact h.share_step x
  | copy x => exact h.copy_step x
  | moveFuture x =>
    refine ofFuture w x fun unique state hx => ?_
    refine ((h.setObject (present hx (by simp)) _).push _).agree ?_
    rw [abs_push, abs_setObject]
    rfl
  | assignFuture x y => exact h.assignFuture_step x y
  | dropFuture x =>
    refine ofFuture w x fun unique state hx => ?_
    exact (h.setObject (present hx (by simp)) _).agree (abs_setObject _ _ _)
  | detach x => exact h.detach_step x
  | isReady x => exact h.isReady_step x
  | get x => exact h.get_step x
  | give x =>
    refine ofFuture w x fun unique state hx => ?_
    refine ((h.setObject (present hx (by simp)) _).lend _).agree ?_
    rw [abs_lend, abs_setObject]
    rfl
  | release s => exact h.release_step s
  | resolve s r => exact h.resolve_step s r

/-- The same functions are destroyed by the same operations. -/
theorem destroyed_abs (h : w.Good) (h' : w'.Good) : w.destroyed w' = w.abs.destroyed w'.abs := by
  have hfunc : ∀ {w : World V E F}, w.Good → ∀ s, (w.abs.jobs s).phase.func = (w.states s).func :=
    fun h s => (h.states s).func_phase
  unfold World.destroyed Machine.destroyed
  simp only [owned_iff, hfunc h, hfunc h']
  rfl

/-- **A program sees the same.** -/
theorem Good.run (h : w.Good) (ops : List (Op V E F)) : w.run ops = w.abs.run ops := by
  induction ops generalizing w with
  | nil => rfl
  | cons op ops ih =>
    rcases h.step op with ⟨hw, hm⟩ | ⟨w', r, f, hw, hm, hgood⟩
    · simp only [World.run, Machine.run, hw, hm]
    · simp only [World.run, Machine.run, hw, hm, destroyed_abs h hgood, ih hgood]

end World

/-- **The life cycle of tasks.** Whatever a program does with its tasks and
their futures, and the environment with the states, each operation returns
or throws, calls a function and destroys functions as the reference
machine does. -/
theorem life_cycle (V E F : Type*) (ops : List (Op V E F)) :
    (World.init : World V E F).run ops = (Machine.init : Machine V E F).run ops :=
  World.good_init.run ops

/-- The function of a task whose future was dropped is destroyed, and the
call of the task does nothing. -/
example : ((World.init : World ℕ ℕ ℕ).run [.construct 5, .getFuture 0, .dropFuture 1,
    .call 0 (.value 7)]).map (fun x => x.2) = [(none, []), (none, []), (none, [(0, some 5)]),
      (none, [])] := by
  decide

end Tasks

end PortableConcurrency
