import PortableConcurrency.Common.Budget
import PortableConcurrency.Common.Graph
import PortableConcurrency.Coroutines.Meaning

/-!
# Coroutines come to an end

Who awaits whom has no cycle, because a coroutine knows the futures that it
was called with and those of its own calls only. And what there is to do is
what it takes to compute the results one call after the other. So nobody
waits for ever for somebody else, and when all promises outside are
fulfilled all frames are destroyed and all results are there.
-/

namespace PortableConcurrency

namespace Coroutines

open Relation

variable {V E : Type*} {s s' t' : State V E} {e : Event V E} {es es' : List (Event V E)}
variable {acts rest : List (Act V E)} {c : Cell V E} {fr fr' : Frame V E} {b : Body V E}
variable {a : Act V E} {r : Except E V} {f g t τ n : ℕ} {args : List ℕ} {w w' ρ : ℕ → Except E V}

/-! ## Who knows whom -/

/-- A variable of `f` is, or was, a future of `t`. -/
def Knows (s : State V E) (f t : ℕ) : Prop :=
  ∃ fr, s.frames f = some fr ∧ ∃ l ∈ fr.env, l.what = t

/-- Nobody knows what is not made. -/
theorem no_path (h : Tables s) (hne : t ≠ s.fresh) : ¬ ReflTransGen (Knows s) t s.fresh := by
  intro hpath
  rcases hpath.cases_tail with heq | ⟨f, -, fr, hf, l, hl, hwhat⟩
  · exact hne heq.symm
  · have := h.env f fr l hf hl
    omega

theorem knows_spawn (s : State V E) (b : Body V E) (env : List (Local ℕ)) (f t : ℕ)
    (h : Knows (s.spawn b env) f t) :
    Knows s f t ∨ (f = s.fresh ∧ ∃ l ∈ env, l.what = t) := by
  obtain ⟨fr, hf, hl⟩ := h
  rcases spawn_cases hf with ⟨rfl, rfl⟩ | ⟨-, hf⟩
  · exact .inr ⟨rfl, hl⟩
  · exact .inl ⟨fr, hf, hl⟩

theorem acyclic_spawn (h : Graph.Acyclic (Knows s)) (htab : Tables s) {env : List (Local ℕ)}
    (henv : ∀ l ∈ env, l.what < s.fresh) (b : Body V E) :
    Graph.Acyclic (Knows (s.spawn b env)) := by
  refine h.of_new (knows_spawn s b env) ?_
  rintro t ⟨l, hl, rfl⟩
  exact no_path htab (Nat.ne_of_lt (henv l hl))

theorem knows_setFrame (hf : s.frames f = some fr)
    (hfr : ∀ l ∈ fr'.env, ∃ l' ∈ fr.env, l'.what = l.what) (g t : ℕ)
    (h : Knows (s.setFrame f (some fr')) g t) : Knows s g t := by
  obtain ⟨fr'', hg, l, hl, rfl⟩ := h
  rcases frame_cases hg with ⟨rfl, hx⟩ | ⟨-, hg⟩
  · obtain rfl := Option.some.inj hx
    exact ⟨fr, hf, hfr l hl⟩
  · exact ⟨fr'', hg, l, hl, rfl⟩

/-- **Who knows whom has no cycle.** -/
theorem acyclic_step (h : Graph.Acyclic (Knows s)) (htab : Tables s) (hst : Step s e s') :
    Graph.Acyclic (Knows s') := by
  cases hst with
  | @call τ body args share => exact acyclic_spawn h htab (argsOf_lt htab.futures args) body
  | ret _ hf | retExpired _ hf =>
    exact h.mono (knows_setFrame hf fun l hl => ⟨l, mem_unwind hl, rfl⟩)
  | @start τ f fr rest callee next args share ht hf hbody =>
    have hlt := htab.frames f fr hf
    have henv := argsOf_lt (fun l hl => htab.env f fr l hf hl) args
    have hspawn := acyclic_spawn h htab henv callee
    have hnew : ∀ a b, Knows (((s.spawn callee (argsOf args fr.env)).setFrame f (some { fr with
        body := next
        env := .new s.fresh share :: afterArgs args fr.env })).setThread τ
          (.body s.fresh :: .body f :: rest)) a b →
        Knows (s.spawn callee (argsOf args fr.env)) a b ∨ (a = f ∧ b = s.fresh) := by
      rintro a b ⟨fr', ha, l, hl, rfl⟩
      rcases frame_cases ha with ⟨rfl, hx⟩ | ⟨-, ha⟩
      · obtain rfl := Option.some.inj hx
        rcases List.mem_cons.mp hl with rfl | hl
        · exact .inr ⟨rfl, rfl⟩
        · exact .inl ⟨fr, (s.spawn_other _ _ (by omega)).trans hf, what_afterArgs hl⟩
      · exact .inl ⟨fr', ha, l, hl, rfl⟩
    refine hspawn.of_new hnew ?_
    rintro t rfl hpath
    -- what the new one knows, its caller knew
    rcases hpath.cases_head with heq | ⟨b, hedge, hpath⟩
    · omega
    · rcases knows_spawn s _ _ _ _ hedge with ⟨fr', hfresh, -⟩ | ⟨-, l, hl, rfl⟩
      · have := htab.frames _ _ hfresh
        omega
      · have hlt := henv l hl
        obtain ⟨l', hl', hwhat⟩ := what_argsOf hl
        rcases Graph.path_of_new (knows_spawn s callee (argsOf args fr.env)) hpath with
          hpath | ⟨hpath, -⟩
        · exact h f l.what ⟨fr, hf, l', hl', hwhat⟩ hpath
        · exact no_path htab (Nat.ne_of_lt hlt) hpath
  | await _ hf | refuse _ hf | resume _ hf => exact h.mono (knows_setFrame hf fun _ => what_resume)
  | suspend _ hf => exact h.mono (knows_setFrame hf fun l hl => ⟨l, hl, rfl⟩)
  | finish =>
    refine h.mono ?_
    rintro g t ⟨fr, hg, hl⟩
    rcases frame_cases hg with ⟨-, hx⟩ | ⟨-, hg⟩
    · cases hx
    · exact ⟨fr, hg, hl⟩
  | _ => exact h

theorem acyclic (hrun : Runs Step Unguarded (init : State V E) s) :
    Graph.Acyclic (Knows s) := by
  refine hrun.invariant_of (I := Sound) (J := fun s => Graph.Acyclic (Knows s))
    (fun _ _ _ h _ hst => h.step hst) (fun _ _ _ hs _ h _ hst => acyclic_step h hs.tables hst)
    sound_init ?_
  rintro a b ⟨fr, hf, -⟩
  cases hf

/-! ## Who goes on -/

/-- The steps of the threads. -/
def Event.work : Event V E → ℕ
  | .step _ => 1
  | _ => 0

theorem result_of_consumed (h : Sound s) (hc : s.cells t = some c) (hready : c.ready = true) :
    ∃ r, c.result = some r := by
  have hstored := h.stored t
  rw [ofCell_of hc, ofCell_of hc, Cell.consumed, if_pos hready] at hstored
  cases hr : c.result with
  | some r => exact ⟨r, rfl⟩
  | none =>
    have hnone : c.stored = 0 := by rw [Cell.stored, hr]; rfl
    omega

theorem cell_of_awaited (h : Sound s) (hf : s.frames f = some fr) (haw : fr.awaited = some t) :
    ∃ c, s.cells t = some c := by
  obtain ⟨l, hl, rfl, -⟩ := holds_of_awaited haw
  exact (h.tables.cells l.what).mp (h.tables.env f fr l hf hl)

/-- **A thread that is in the middle of something goes on.** -/
theorem exists_step (h : Sound s) (hm : Meant w s) (hlaw : HandleLaw s)
    (ht : s.threads τ = some (a :: rest)) : ∃ s', Step s (.step τ) s' := by
  cases a with
  | body f =>
    obtain ⟨fr, hf, hplace⟩ := h.counted.at_of_top h.tables ht (f := f) (p := .running)
      (by simp [Act.handles])
    have heval := hm.frames f fr hf (by simp [hplace])
    cases hbody : fr.body with
    | ret r =>
      by_cases hheld : (s.setFrame f (some (fr.unwind r))).Held f
      · exact ⟨_, .ret ht hf hbody hheld⟩
      · exact ⟨_, .retExpired ht hf hbody hheld⟩
    | await i next =>
      -- it has a meaning, so there is something to await
      rw [Frame.eval, hbody, Body.eval, map_target] at heval
      obtain ⟨r, hr, -⟩ := Option.bind_eq_some_iff.mp heval
      obtain ⟨t, htarget, -⟩ := Option.map_eq_some_iff.mp hr
      have haw : fr.awaited = some t := by
        rw [Frame.awaited, hbody]
        exact htarget
      obtain ⟨c, hc⟩ := cell_of_awaited h hf haw
      cases hready : c.ready with
      | true =>
        obtain ⟨r, hr⟩ := result_of_consumed h hc hready
        exact ⟨_, .await ht hf haw hc hready hr⟩
      | false => exact ⟨_, .suspend ht hf haw hc hready⟩
    | call callee args share next => exact ⟨_, .start ht hf hbody⟩
  | push f t =>
    obtain ⟨fr, hf, hplace⟩ := h.counted.at_of_top h.tables ht (f := f) (p := .suspended t)
      (by simp [Act.handles])
    have haw := h.awaiting f fr t hf hplace
    obtain ⟨c, hc⟩ := cell_of_awaited h hf haw
    cases hready : c.ready with
    | true =>
      obtain ⟨r, hr⟩ := result_of_consumed h hc hready
      exact ⟨_, .refuse ht hf haw hc hready hr⟩
    | false => exact ⟨_, .push ht hc hready⟩
  | emplace t r =>
    obtain ⟨c, hc, hempty⟩ := hlaw.satisfied τ _ t r ht List.mem_cons_self
    exact ⟨_, .emplace ht hc hempty⟩
  | execute t =>
    have hle := load_le h.tables ht (Act.executes t)
    have hstored := h.stored t
    simp only [load, Act.executes, if_true] at hle
    cases hc : s.cells t with
    | some c => exact ⟨_, .execute ht hc⟩
    | none =>
      simp only [State.ofCell, hc, Option.elim_none] at hstored
      omega
  | loop t items =>
    cases items with
    | nil => exact ⟨_, .exit ht⟩
    | cons f items =>
      obtain ⟨fr, hf, hplace⟩ := h.counted.at_of_top h.tables ht (f := f) (p := .suspended t)
        (by simp [Act.handles])
      have haw := h.awaiting f fr t hf hplace
      obtain ⟨c, hc⟩ := cell_of_awaited h hf haw
      have hready := ready_of_consumed hc (h.looping τ _ t _ ht List.mem_cons_self)
      obtain ⟨r, hr⟩ := result_of_consumed h hc hready
      exact ⟨_, .resume ht hf haw hc hr⟩
  | finish f => exact ⟨_, .finish ht⟩

/-! ## At rest -/

theorem load_at_rest (h : Sound s) (hm : Meant w s) (hlaw : HandleLaw s)
    (hrest : AtRest Step Event.work s) (W : Act V E → ℕ) : s.load W = 0 := by
  refine Table.total_eq_zero fun τ acts hτ => ?_
  cases acts with
  | nil => rfl
  | cons a rest =>
    obtain ⟨s', hst⟩ := exists_step h hm hlaw hτ
    exact absurd (hrest _ _ hst) (by simp [Event.work])

theorem held_lt (h : Tables s) (hheld : s.Held t) : t < s.fresh := by
  rcases hheld with ⟨l, hl, rfl, -⟩ | ⟨f, fr, hf, l, hl, rfl, -⟩
  · exact h.futures l hl
  · exact h.env f fr l hf hl

/-- What is held then has its result, or a coroutine that works on it. -/
theorem held_at_rest (h : Sound s) (hm : Meant w s) (hlaw : HandleLaw s)
    (hpledged : ∀ t c, s.cells t = some c → c.pledged = true → ¬ s.Held t)
    (hrest : AtRest Step Event.work s) (hheld : s.Held t) :
    ∃ c, s.cells t = some c ∧ c.consumed = c.stored ∧
      s.ofFrame Frame.works t + c.stored = 1 := by
  have hload := load_at_rest h hm hlaw hrest
  have hlt := held_lt h.tables hheld
  have hopens := h.promised.held t hlt hheld
  have hstored := h.stored t
  obtain ⟨c, hc⟩ := (h.tables.cells t).mp hlt
  have hnone : c.pledges = 0 := by
    rw [Cell.pledges, if_neg fun hp => hpledged t c hc hp hheld]
  rw [State.opens, hload, ofCell_of hc, ofCell_of hc, hnone] at hopens
  rw [hload, ofCell_of hc, ofCell_of hc] at hstored
  exact ⟨c, hc, by omega, by omega⟩

/-- **Nobody is left.** Whoever was would await another one that is. -/
theorem frames_at_rest (h : Sound s) (hm : Meant w s) (hlaw : HandleLaw s)
    (hacyclic : Graph.Acyclic (Knows s))
    (hpledged : ∀ t c, s.cells t = some c → c.pledged = true → ¬ s.Held t)
    (hrest : AtRest Step Event.work s) (f : ℕ) : s.frames f = none := by
  have hload := load_at_rest h hm hlaw hrest
  have hnone : ∀ f, ¬ ∃ fr, s.frames f = some fr := by
    refine hacyclic.has_end s.fresh (fun f ⟨fr, hf⟩ => h.tables.frames f fr hf) ?_
    rintro f ⟨fr, hf⟩
    have hone := hlaw.one f fr.place
    rw [hload, isAt_of hf, if_pos rfl] at hone
    cases hplace : fr.place with
    | running | done =>
      rw [hplace] at hone
      cases hone
    | suspended t =>
      -- it is in the list of what it awaits, which is not ready
      rw [hplace] at hone
      have hheld := (hlaw.awaited f fr t hf hplace).1
      obtain ⟨c, hc, hconsumed, hopens⟩ := held_at_rest h hm hlaw hpledged hrest hheld
      rw [listed_of hc] at hone
      have hready : c.ready ≠ true := by
        intro hready
        rw [h.emptied t c hc hready, List.count_nil] at hone
        omega
      rw [Cell.consumed, if_neg hready] at hconsumed
      obtain ⟨l, hl, rfl, -⟩ := holds_of_awaited (h.awaiting f fr t hf hplace)
      refine ⟨l.what, ⟨fr, hf, l, hl, rfl⟩, ?_⟩
      cases hg : s.frames l.what with
      | some fr' => exact ⟨fr', rfl⟩
      | none =>
        simp only [State.ofFrame, hg, Option.elim_none] at hopens
        omega
  cases hf : s.frames f with
  | none => rfl
  | some fr => exact absurd ⟨fr, hf⟩ (hnone f)

/-- **Every future that is held is ready.** -/
theorem results_at_rest (h : Sound s) (hm : Meant w s) (hlaw : HandleLaw s)
    (hacyclic : Graph.Acyclic (Knows s))
    (hpledged : ∀ t c, s.cells t = some c → c.pledged = true → ¬ s.Held t)
    (hrest : AtRest Step Event.work s) (hheld : s.Held t) :
    ∃ c, s.cells t = some c ∧ c.ready = true ∧ c.result = some (w t) := by
  obtain ⟨c, hc, hconsumed, hopens⟩ := held_at_rest h hm hlaw hpledged hrest hheld
  have hframe := frames_at_rest h hm hlaw hacyclic hpledged hrest t
  rw [State.ofFrame, hframe, Option.elim_none] at hopens
  have hready : c.ready = true := by
    by_contra hready
    rw [Cell.consumed, if_neg hready] at hconsumed
    omega
  obtain ⟨r, hr⟩ := result_of_consumed h hc hready
  exact ⟨c, hc, hready, hr.trans (congrArg some (hm.cells t c r hc hr).symm)⟩

/-! ## What there is to do -/

/-- **The steps of a body**, and of those that it calls, one after the
other. -/
def Body.cost : Body V E → List (Local (Except E V)) → ℕ
  | .ret _, _ => 3
  | .await i next, env =>
    3 + (target env i).elim 0 fun r => (next r).cost (moveFrom env i)
  | .call callee args share next, env =>
    3 + callee.cost (argsOf args env) + (callee.eval (argsOf args env)).elim 0 fun r =>
      next.cost (.new r share :: afterArgs args env)

def Frame.cost (w : ℕ → Except E V) (fr : Frame V E) : ℕ :=
  if fr.place = .done then 0 else fr.body.cost (fr.env.map (Local.map w))

def Act.cost : Act V E → ℕ
  | .body _ => 2
  | .push _ _ => 1
  | .emplace _ _ => 3
  | .execute _ => 2
  | .loop _ _ => 1
  | .finish _ => 1

def State.budget (w : ℕ → Except E V) (s : State V E) : ℕ :=
  s.load Act.cost + Table.total (fun _ fr => fr.cost w) s.frames s.fresh

theorem cost_of_works (h : fr.place ≠ .done) :
    fr.cost w = fr.body.cost (fr.env.map (Local.map w)) := if_neg h

/-- An await is paid for. -/
theorem cost_resume (haw : fr.awaited = some t) (hr : w t = r) (hplace : fr.place ≠ .done) :
    (fr.resume r).cost w + 3 = fr.cost w := by
  obtain ⟨i, next, hbody, htarget⟩ := exists_await haw
  have hold : fr.cost w = 3 + (next (w t)).cost (moveFrom (fr.env.map (Local.map w)) i) := by
    rw [cost_of_works hplace, hbody, Body.cost, map_target, htarget]
    rfl
  have hnew : (fr.resume r).cost w =
      (next r).cost (moveFrom (fr.env.map (Local.map w)) i) := by
    rw [cost_of_works (by simp [resume_place haw])]
    simp only [Frame.resume, hbody, map_moveFrom]
  rw [hold, hnew, hr]
  omega

/-- And so is a call. -/
theorem cost_call {callee next : Body V E} {share : Bool}
    (hbody : fr.body = .call callee args share next)
    (hr : callee.eval ((argsOf args fr.env).map (Local.map w)) = some (w t))
    (hplace : fr.place ≠ .done) :
    fr.cost w = 3 + callee.cost ((argsOf args fr.env).map (Local.map w)) +
      Frame.cost w { fr with body := next, env := .new t share :: afterArgs args fr.env } := by
  have hnew : Frame.cost w { fr with
      body := next
      env := .new t share :: afterArgs args fr.env } =
    next.cost ((Local.new t share :: afterArgs args fr.env).map (Local.map w)) :=
    cost_of_works hplace
  rw [cost_of_works hplace, hnew, hbody, Body.cost, ← map_argsOf, hr]
  simp only [Option.elim_some, List.map_cons, map_afterArgs]
  rfl

/-- A frame changes. -/
theorem budget_setFrame (h : Tables s) (hf : s.frames f = some fr) (fr' : Frame V E)
    (w : ℕ → Except E V) :
    (s.setFrame f (some fr')).budget w + fr.cost w = s.budget w + fr'.cost w := by
  have htotal := Table.total_update (g := fun _ fr => fr.cost w) (h.frames f fr hf) hf fr'
  show s.load Act.cost +
    Table.total (fun _ fr => fr.cost w) (Function.update s.frames f (some fr')) s.fresh + _ = _
  simp only [State.budget]
  omega

/-- A frame is destroyed. -/
theorem budget_erase (h : Tables s) (hf : s.frames f = some fr) (w : ℕ → Except E V) :
    (s.setFrame f none).budget w + fr.cost w = s.budget w := by
  have htotal := Table.total_erase (g := fun _ fr => fr.cost w) (h.frames f fr hf) hf
  show s.load Act.cost +
    Table.total (fun _ fr => fr.cost w) (Function.update s.frames f none) s.fresh + _ = _
  simp only [State.budget]
  omega

/-- A stack changes. -/
theorem budget_setThread (hlt : τ < s.workers) (ht : s.threads τ = some acts)
    (acts' : List (Act V E)) (w : ℕ → Except E V) :
    (s.setThread τ acts').budget w + load Act.cost acts =
      s.budget w + load Act.cost acts' := by
  have hload : (s.setThread τ acts').load Act.cost + load Act.cost acts =
      s.load Act.cost + load Act.cost acts' :=
    Table.total_update (g := fun _ acts => load Act.cost acts) hlt ht acts'
  show (s.setThread τ acts').load Act.cost +
    Table.total (fun _ fr => fr.cost w) s.frames s.fresh + _ = _
  simp only [State.budget]
  omega

theorem budget_spawn (s : State V E) (b : Body V E) (env : List (Local ℕ))
    (w : ℕ → Except E V) :
    (s.spawn b env).budget w = s.budget w + b.cost (env.map (Local.map w)) := by
  have htotal := Table.total_push (fun _ fr => Frame.cost w fr) s.frames s.fresh
    ⟨b, env, env.length, .running⟩
  have hnew : Frame.cost w ⟨b, env, env.length, .running⟩ =
    b.cost (env.map (Local.map w)) := cost_of_works (by simp)
  show s.load Act.cost + Table.total (fun _ fr => Frame.cost w fr)
    (Function.update s.frames s.fresh (some ⟨b, env, env.length, .running⟩)) (s.fresh + 1) = _
  rw [htotal, hnew, State.budget]
  omega

theorem cost_unwind (fr : Frame V E) (r : Except E V) (w : ℕ → Except E V) :
    (fr.unwind r).cost w = 0 := if_pos unwind_place

/-- **Every step of a thread is paid for.** -/
theorem step_pays (h : Sound s) (hm : Meant w s) (hsolve : Solves w s')
    (hst : Step s (.step τ) s') : s'.budget w + 1 ≤ s.budget w := by
  have hthreads := h.tables.threads
  cases hst with
  | @ret τ f fr r rest ht hf hbody =>
    have hplace := h.counted.place_of_top h.tables ht hf (p := .running) (by simp [Act.handles])
    have hframe := budget_setFrame h.tables hf (fr.unwind r) w
    have hthread := budget_setThread (s := s.setFrame f (some (fr.unwind r))) (hthreads _ _ ht) ht
      (.emplace f r :: .finish f :: rest) w
    have hcost : fr.cost w = 3 := by rw [cost_of_works (by simp [hplace]), hbody]; rfl
    simp only [load, Act.cost, cost_unwind, hcost] at hframe hthread
    omega
  | @retExpired τ f fr r rest ht hf hbody =>
    have hplace := h.counted.place_of_top h.tables ht hf (p := .running) (by simp [Act.handles])
    have hframe := budget_setFrame h.tables hf (fr.unwind r) w
    have hthread := budget_setThread (s := s.setFrame f (some (fr.unwind r))) (hthreads _ _ ht) ht
      (.finish f :: rest) w
    have hcost : fr.cost w = 3 := by rw [cost_of_works (by simp [hplace]), hbody]; rfl
    simp only [load, Act.cost, cost_unwind, hcost] at hframe hthread
    omega
  | @start τ f fr rest callee next args share ht hf hbody =>
    have hplace := h.counted.place_of_top h.tables ht hf (p := .running) (by simp [Act.handles])
    have hlt := h.tables.frames f fr hf
    -- the callee returns what `w` says
    obtain ⟨r, hr, -⟩ := eval_call hbody (hm.frames f fr hf (by simp [hplace]))
    have hnew : w s.fresh = r :=
      hsolve s.fresh callee (argsOf args fr.env) r (Function.update_self _ _ _) hr
    have htab := h.tables.spawn callee
      (argsOf_lt (fun l hl => h.tables.env f fr l hf hl) args)
    have hf' : (s.spawn callee (argsOf args fr.env)).frames f = some fr :=
      (s.spawn_other _ _ (by omega)).trans hf
    have hspawn := budget_spawn s callee (argsOf args fr.env) w
    have hframe := budget_setFrame htab hf' { fr with
      body := next
      env := .new s.fresh share :: afterArgs args fr.env } w
    have hthread := budget_setThread (s := (s.spawn callee (argsOf args fr.env)).setFrame f
      (some { fr with
        body := next
        env := .new s.fresh share :: afterArgs args fr.env })) (hthreads _ _ ht) ht
        (.body s.fresh :: .body f :: rest) w
    have hcost := cost_call hbody (hr.trans (congrArg some hnew.symm))
      (by simp [hplace])
    simp only [load, Act.cost] at hthread
    omega
  | @await τ f t fr c r rest ht hf haw hc hready hr =>
    have hplace := h.counted.place_of_top h.tables ht hf (p := .running) (by simp [Act.handles])
    have hframe := budget_setFrame h.tables hf (fr.resume r) w
    have hcost := cost_resume haw (hm.cells t c r hc hr) (by simp [hplace])
    omega
  | @suspend τ f t fr c rest ht hf haw =>
    have hplace := h.counted.place_of_top h.tables ht hf (p := .running) (by simp [Act.handles])
    have hframe := budget_setFrame h.tables hf { fr with place := .suspended t } w
    have hthread := budget_setThread (s := s.setFrame f (some { fr with place := .suspended t }))
      (hthreads _ _ ht) ht (.push f t :: rest) w
    have hold : fr.cost w = fr.body.cost (fr.env.map (Local.map w)) :=
      cost_of_works (by simp [hplace])
    have hnew : Frame.cost w { fr with place := .suspended t } =
      fr.body.cost (fr.env.map (Local.map w)) := cost_of_works (by simp)
    simp only [load, Act.cost, hold, hnew] at hframe hthread
    omega
  | @push τ f t c rest ht hc =>
    have hthread : (s.setThread τ rest).budget w + _ = _ :=
      budget_setThread (hthreads _ _ ht) ht rest w
    simp only [load, Act.cost] at hthread
    show (s.setThread τ rest).budget w + 1 ≤ s.budget w
    omega
  | @refuse τ f t fr c r rest ht hf haw hc hready hr =>
    have hplace := h.counted.place_of_top h.tables ht hf (p := .suspended t)
      (by simp [Act.handles])
    have hframe := budget_setFrame h.tables hf (fr.resume r) w
    have hthread := budget_setThread (s := s.setFrame f (some (fr.resume r))) (hthreads _ _ ht) ht
      (.body f :: rest) w
    have hcost := cost_resume haw (hm.cells t c r hc hr) (by simp [hplace])
    simp only [load, Act.cost] at hthread
    omega
  | @emplace τ t c r rest ht =>
    have hthread := budget_setThread (hthreads _ _ ht) ht (.execute t :: rest) w
    simp only [load, Act.cost] at hthread
    show (s.setThread τ (.execute t :: rest)).budget w + 1 ≤ s.budget w
    omega
  | @execute τ t c rest ht =>
    have hthread := budget_setThread (hthreads _ _ ht) ht (.loop t c.waiting :: rest) w
    simp only [load, Act.cost] at hthread
    show (s.setThread τ (.loop t c.waiting :: rest)).budget w + 1 ≤ s.budget w
    omega
  | @resume τ f t u fr c r items rest ht hf haw hc hr =>
    have hplace := h.counted.place_of_top h.tables ht hf (p := .suspended t)
      (by simp [Act.handles])
    have hframe := budget_setFrame h.tables hf (fr.resume r) w
    have hthread := budget_setThread (s := s.setFrame f (some (fr.resume r))) (hthreads _ _ ht) ht
      (.body f :: .loop t items :: rest) w
    have hcost := cost_resume haw (hm.cells u c r hc hr) (by simp [hplace])
    simp only [load, Act.cost] at hthread
    omega
  | @exit τ t rest ht =>
    have hthread := budget_setThread (hthreads _ _ ht) ht rest w
    simp only [load, Act.cost] at hthread
    omega
  | @finish τ f rest ht =>
    obtain ⟨fr, hf, hplace⟩ := h.counted.at_of_top h.tables ht (f := f) (p := .done)
      (by simp [Act.handles])
    have hframe := budget_erase h.tables hf w
    have hthread := budget_setThread (s := s.setFrame f none) (hthreads _ _ ht) ht rest w
    have hcost : fr.cost w = 0 := if_pos hplace
    simp only [load, Act.cost] at hthread
    omega

/-! ## Runs of the threads -/

/-- Nothing comes from outside. -/
def Stepping (_ : State V E) (e : Event V E) : Prop := ∃ τ, e = .step τ

theorem Stepping.legal (h : Stepping s e) : Legal s e := by
  obtain ⟨τ, rfl⟩ := h
  intro τ' b args share he
  cases he

/-- **A run of the threads is paid for.** -/
theorem run_pays (h : Sound s) (hhist : History s) (hm : Meant w s)
    (hrun : Trace Step Stepping s es t') (hsolve : Solves w t') :
    Sound t' ∧ History t' ∧ Meant w t' ∧ es.length + t'.budget w ≤ s.budget w := by
  induction hrun with
  | nil => exact ⟨h, hhist, hm, by simp⟩
  | @snoc u t' es e hrun hstep hst ih =>
    -- what is computed in the end is computed on the way
    have hbefore : History u → Solves w u := fun hu => hsolve.before hu hst
    have hu : History u := hrun.runs.invariant_of (I := Sound) (J := History)
      (fun _ _ _ h _ hst => h.step hst) (fun _ _ _ hs _ h _ hst => h.step hs.tables hst) h hhist
    obtain ⟨hs, -, hmu, hle⟩ := ih (hbefore hu)
    have hset : ∀ τ t r, e = .set τ t r → w t = r := by
      obtain ⟨τ, rfl⟩ := hstep
      intro τ' t r he
      cases he
    refine ⟨hs.step hst, hu.step hs.tables hst,
      hmu.step hs.counted hs.tables hsolve hstep.legal hset hst, ?_⟩
    obtain ⟨τ, rfl⟩ := hstep
    have hpays := step_pays hs hmu hsolve hst
    rw [List.length_append, List.length_singleton]
    omega

/-- The results of the calls depend on the calls. -/
theorem values_congr (h : ∀ t, t < n → s'.calls t = s.calls t) :
    s'.values ρ n = s.values ρ n := by
  induction n with
  | zero => rfl
  | succ n ih => rw [State.values, State.values, ih fun t ht => h t (by omega), h n (by omega)]

theorem budget_congr (h : Tables s) (hw : ∀ t, t < s.fresh → w' t = w t) :
    s.budget w' = s.budget w := by
  have hframe : ∀ f fr, s.frames f = some fr → fr.cost w' = fr.cost w := by
    intro f fr hf
    have henv : fr.env.map (Local.map w') = fr.env.map (Local.map w) :=
      List.map_congr_left fun l hl => by rw [Local.map, Local.map, hw _ (h.env f fr l hf hl)]
    rw [Frame.cost, Frame.cost, henv]
  have hle : ∀ {u v : ℕ → Except E V}, (∀ f fr, s.frames f = some fr → fr.cost u = fr.cost v) →
      s.budget u ≤ s.budget v := by
    intro u v huv
    have hmono : Table.total (fun _ fr => fr.cost u) s.frames s.fresh ≤
        Table.total (fun _ fr => fr.cost v) s.frames s.fresh :=
      Table.total_mono fun f fr hf => (huv f fr hf).le
    simp only [State.budget]
    omega
  exact Nat.le_antisymm (hle hframe) (hle fun f fr hf => (hframe f fr hf).symm)

theorem calls_run (hrun : Trace Step Stepping s es t') :
    s.fresh ≤ t'.fresh ∧ ∀ f, f < s.fresh → t'.calls f = s.calls f := by
  induction hrun with
  | nil => exact ⟨le_rfl, fun _ _ => rfl⟩
  | snoc _ _ hst ih =>
    have hfresh := fresh_step hst
    exact ⟨by omega, fun f hf => (calls_step hst (by omega)).trans (ih.2 f hf)⟩

/-- **The promises outside are fulfilled**, or nobody waits for them. -/
def Fulfilled (s : State V E) : Prop :=
  ∀ t c, s.cells t = some c → c.pledged = true → ¬ s.Held t

theorem pledged_step (hst : Step s (.step τ) s') (hc : s'.cells t = some c)
    (hpledged : c.pledged = true) : ∃ c', s.cells t = some c' ∧ c'.pledged = true := by
  have hold : ∀ {u c₁ c₂}, s.cells u = some c₁ → (s.setCell u c₂).cells t = some c →
      c₂.pledged = c₁.pledged → ∃ c', s.cells t = some c' ∧ c'.pledged = true := by
    intro u c₁ c₂ hu hc hsame
    rcases cell_cases hc with ⟨rfl, rfl⟩ | ⟨-, hc⟩
    · exact ⟨c₁, hu, hsame ▸ hpledged⟩
    · exact ⟨c, hc, hpledged⟩
  cases hst with
  | start =>
    rcases cell_cases (s := s) hc with ⟨-, rfl⟩ | ⟨-, hc⟩
    · cases hpledged
    · exact ⟨c, hc, hpledged⟩
  | push _ hu | emplace _ hu | execute _ hu => exact hold hu hc rfl
  | _ => exact ⟨c, hc, hpledged⟩

theorem Fulfilled.run (h : Fulfilled s) (hs : Sound s) (hrun : Trace Step Stepping s es t') :
    Fulfilled t' := by
  induction hrun with
  | nil => exact h
  | @snoc u t' es e hrun hstep hst ih =>
    have hu : Sound u := hrun.runs.invariant (I := Sound) (fun _ _ _ h _ hst => h.step hst) hs
    obtain ⟨τ, rfl⟩ := hstep
    intro t c hc hpledged hheld
    obtain ⟨c', hc', hpledged'⟩ := pledged_step hst hc hpledged
    have hne : t ≠ u.fresh := by
      rintro rfl
      rw [hu.tables.none_cell] at hc'
      cases hc'
    exact ih t c' hc' hpledged' (held_step hst hne hheld)

/-- **All is over**: no frame is left, and every future has its result. -/
structure Over (w : ℕ → Except E V) (s : State V E) : Prop where
  frames : ∀ f, s.frames f = none
  results : ∀ t, s.Held t → ∃ c, s.cells t = some c ∧ c.ready = true ∧ c.result = some (w t)

theorem over_at_rest (hrun : Runs Step Unguarded (init : State V E) s) (hm : Meant w s)
    (hful : Fulfilled s) (hrest : AtRest Step Event.work s) : Over w s := by
  have hs := sound hrun
  have hlaw := handle_law hrun
  exact ⟨frames_at_rest hs hm hlaw (acyclic hrun) hful hrest,
    fun t hheld => results_at_rest hs hm hlaw (acyclic hrun) hful hrest hheld⟩

/-- **Coroutines come to an end.** From any state that coroutines can come
to that await only what they have, the threads make a bounded number of
steps, whatever their order, if nothing else happens. When the promises
outside are fulfilled and no thread can go on, no frame is left, and every
future that is held is ready and has the result that the calls mean; and
the threads get there. -/
theorem comes_to_results (hrun : Trace Step Legal (init : State V E) es s)
    (hset : ∀ τ t r, .set τ t r ∈ es → ρ t = r) :
    (∃ n, ∀ es' t', Trace Step Stepping s es' t' → es'.length ≤ n) ∧
      (Fulfilled s → (AtRest Step Event.work s → ∀ w, IsMeaning s ρ w → Over w s) ∧
        ∃ es' t' w, Trace Step Stepping s es' t' ∧ IsMeaning t' ρ w ∧ Over w t') := by
  have hs := sound hrun.runs.unguarded
  have hhist := history hrun.runs.unguarded
  have hlegal : ∀ {es' t'}, Trace Step Stepping s es' t' → Trace Step Legal init (es ++ es') t' :=
    fun h => hrun.append (h.mono fun _ _ => Stepping.legal)
  have hsets : ∀ {es' t'}, Trace Step Stepping s es' t' →
      ∀ τ t r, .set τ t r ∈ es ++ es' → ρ t = r := by
    intro es' t' h τ t r hmem
    rcases List.mem_append.mp hmem with hmem | hmem
    · exact hset τ t r hmem
    · obtain ⟨_, _, _, _, _, _, ⟨τ', he⟩, _⟩ := h.split hmem
      cases he
  -- what is computed in the end is what `w` says already
  have hmeant : ∀ {es' t'}, Trace Step Stepping s es' t' →
      Meant (t'.values ρ t'.fresh) t' ∧ IsMeaning t' ρ (t'.values ρ t'.fresh) := by
    intro es' t' h
    have hrun' := hlegal h
    have hm := meant hrun' (values_solve (history hrun'.runs.unguarded) ρ) fun τ t r hmem => by
      rw [values_promise (set_promise hrun' hmem).2]
      exact hsets h τ t r hmem
    exact ⟨hm, fun t hcall => values_promise hcall _, hm.calls⟩
  have hbound : ∀ es' t', Trace Step Stepping s es' t' →
      es'.length ≤ s.budget (s.values ρ s.fresh) := by
    intro es' t' h
    obtain ⟨hle, hcalls⟩ := calls_run h
    have hsame : ∀ t, t < s.fresh → t'.values ρ t'.fresh t = s.values ρ s.fresh t := by
      intro t ht
      rw [values_stable ht hle, values_congr hcalls]
    have hm : Meant (t'.values ρ t'.fresh) s := by
      refine meant hrun ?_ fun τ t r hmem => ?_
      · intro f b env r hf
        exact values_solve (history (hlegal h).runs.unguarded) ρ f b env r
          ((hcalls f (hhist.fresh f _ hf)).trans hf)
      · rw [hsame t (set_promise hrun hmem).1, values_promise (set_promise hrun hmem).2]
        exact hset τ t r hmem
    have hpays := (run_pays hs hhist hm h
      (values_solve (history (hlegal h).runs.unguarded) ρ)).2.2.2
    rw [budget_congr hs.tables hsame] at hpays
    omega
  refine ⟨⟨_, hbound⟩, fun hful => ⟨fun hrest w hw => ?_, ?_⟩⟩
  · obtain ⟨hm, hmean⟩ := hmeant (.nil s)
    rw [hmean.unique hhist hw]
    exact over_at_rest hrun.runs.unguarded hm hful hrest
  · have hown : ∀ (s : State V E) (e : Event V E), 0 < e.work → Stepping s e := by
      intro s e he
      cases e with
      | step τ => exact ⟨τ, rfl⟩
      | _ => cases he
    obtain ⟨es', t', h, hrest⟩ := exists_rest_of_length hown hbound
    obtain ⟨hm, hmean⟩ := hmeant h
    exact ⟨es', t', _, h, hmean,
      over_at_rest (hlegal h).runs.unguarded hm (hful.run hs h) hrest⟩

theorem comes_to_results_of_relayed : ∃ s : State ℕ ℕ, s.threads 0 = some [.body 1] ∧
    ∃ es' t' w, Trace Step Stepping s es' t' ∧ IsMeaning t' (fun _ => .ok 5) w ∧ Over w t' := by
  obtain ⟨s, hrun, hthread, hpledged⟩ := relayed_run
  have hful : Fulfilled s := by
    intro t c hc hp
    rw [hpledged t c hc] at hp
    cases hp
  exact ⟨s, hthread, ((comes_to_results hrun fun τ t r hmem => relayed_sets hmem).2 hful).2⟩

end Coroutines

end PortableConcurrency
