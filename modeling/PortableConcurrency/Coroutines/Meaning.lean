import PortableConcurrency.Coroutines.Law

/-!
# What coroutines compute

A coroutine is a function of the results of the futures it is called with,
and a program is read as if every call returned its result at once. That
is what the machine computes, whatever the order of its steps: each result
that is stored is the one that the calls give, if the promises outside are
given theirs.
-/

namespace PortableConcurrency

namespace Coroutines

variable {V E α β : Type*} {s s' t' : State V E} {e : Event V E} {es : List (Event V E)}
variable {acts rest : List (Act V E)} {c : Cell V E} {fr fr' : Frame V E} {b : Body V E}
variable {r : Except E V} {f t τ n m i : ℕ} {args : List ℕ} {w w' ρ : ℕ → Except E V}

/-! ## The denotation -/

/-- **The result of a body**, from those of the futures in its variables.
There is none if it awaits what was moved from. -/
def Body.eval : Body V E → List (Local (Except E V)) → Option (Except E V)
  | .ret r, _ => some r
  | .await i next, env => (target env i).bind fun r => (next r).eval (moveFrom env i)
  | .call callee args share next, env =>
    (callee.eval (argsOf args env)).bind fun r =>
      next.eval (.new r share :: afterArgs args env)

/-! ## Variables and their results -/

theorem map_spent (g : α → β) (l : Local α) : l.spent.map g = (l.map g).spent := by
  obtain ⟨x, kind⟩ := l
  cases kind <;> rfl

theorem map_moveFrom (g : α → β) (env : List (Local α)) (i : ℕ) :
    (moveFrom env i).map (Local.map g) = moveFrom (env.map (Local.map g)) i := by
  refine List.ext_getElem (by simp [moveFrom]) fun j hj hj' => ?_
  simp only [moveFrom, List.getElem_map, List.getElem_modify]
  split
  · exact map_spent g _
  · rfl

theorem map_afterArgs (g : α → β) (args : List ℕ) (env : List (Local α)) :
    (afterArgs args env).map (Local.map g) = afterArgs args (env.map (Local.map g)) := by
  induction args generalizing env with
  | nil => rfl
  | cons i args ih =>
    show (afterArgs args (moveFrom env i)).map (Local.map g) = _
    rw [ih, map_moveFrom]
    rfl

theorem map_argsOf (g : α → β) (args : List ℕ) (env : List (Local α)) :
    (argsOf args env).map (Local.map g) = argsOf args (env.map (Local.map g)) := by
  induction args generalizing env with
  | nil => rfl
  | cons i args ih =>
    simp only [argsOf, List.map_append, ih, map_moveFrom, List.getElem?_map]
    cases env[i]? <;> rfl

theorem map_target (g : α → β) (env : List (Local α)) (i : ℕ) :
    target (env.map (Local.map g)) i = (target env i).map g := by
  simp only [target, List.getElem?_map]
  cases env[i]? with
  | none => rfl
  | some l =>
    obtain ⟨x, kind⟩ := l
    cases kind <;> rfl

/-! ## The results of the calls -/

/-- What a coroutine that is in the middle of its body will return. -/
def Frame.eval (w : ℕ → Except E V) (fr : Frame V E) : Option (Except E V) :=
  fr.body.eval (fr.env.map (Local.map w))

/-- **`w` is what the calls give**, if the promises outside are given `ρ`. -/
structure IsMeaning (s : State V E) (ρ w : ℕ → Except E V) : Prop where
  promises : ∀ t, s.calls t = none → w t = ρ t
  calls : ∀ f b env, s.calls f = some (b, env) → b.eval (env.map (Local.map w)) = some (w f)

/-- What the calls give, as far as they give something. -/
def Solves (w : ℕ → Except E V) (s : State V E) : Prop :=
  ∀ f b env r, s.calls f = some (b, env) → b.eval (env.map (Local.map w)) = some r → w f = r

/-- What was called, with what was there before, has no promise outside. -/
structure History (s : State V E) : Prop where
  fresh : ∀ f x, s.calls f = some x → f < s.fresh
  args : ∀ f b env l, s.calls f = some (b, env) → l ∈ env → l.what < f
  pledged : ∀ t c, s.cells t = some c → c.pledged = true → s.calls t = none

theorem call_cases {env : List (Local ℕ)} {x : Body V E × List (Local ℕ)}
    (h : (s.spawn b env).calls f = some x) :
    (f = s.fresh ∧ x = (b, env)) ∨ (f ≠ s.fresh ∧ s.calls f = some x) := by
  by_cases hf : f = s.fresh
  · subst hf
    have hnew : (s.spawn b env).calls s.fresh = some (b, env) := Function.update_self _ _ _
    exact .inl ⟨rfl, Option.some.inj (h.symm.trans hnew)⟩
  · exact .inr ⟨hf, (Function.update_of_ne hf _ _).symm.trans h⟩

theorem History.spawn (h : History s) (b : Body V E) {env : List (Local ℕ)}
    (henv : ∀ l ∈ env, l.what < s.fresh) : History (s.spawn b env) := by
  refine ⟨fun f x hf => ?_, fun f b' env' l hf hl => ?_, fun t c hc hpledged => ?_⟩
  · show f < s.fresh + 1
    rcases call_cases hf with ⟨rfl, -⟩ | ⟨-, hf⟩
    · omega
    · have := h.fresh f x hf
      omega
  · rcases call_cases hf with ⟨rfl, hx⟩ | ⟨-, hf⟩
    · cases hx
      exact henv l hl
    · exact h.args f b' env' l hf hl
  · rcases cell_cases (s := s) hc with ⟨-, rfl⟩ | ⟨hne, hc⟩
    · cases hpledged
    · exact (Function.update_of_ne hne _ _).trans (h.pledged t c hc hpledged)

theorem History.setCell (h : History s) (hc : c.pledged = true → s.calls t = none) :
    History (s.setCell t c) := by
  refine ⟨h.fresh, h.args, fun u c' hu hpledged => ?_⟩
  rcases cell_cases hu with ⟨rfl, rfl⟩ | ⟨-, hu⟩
  · exact hc hpledged
  · exact h.pledged u c' hu hpledged

theorem History.none_call (h : History s) : s.calls s.fresh = none := by
  cases hf : s.calls s.fresh with
  | none => rfl
  | some x =>
    have := h.fresh _ x hf
    omega

theorem History.step (h : History s) (htab : Tables s) (hst : Step s e s') : History s' := by
  cases hst with
  | promise =>
    have hcell : History (s.setCell s.fresh ⟨none, [], false, true⟩) :=
      h.setCell fun _ => h.none_call
    refine ⟨fun f x hf => ?_, h.args, hcell.pledged⟩
    have := h.fresh f x hf
    show f < s.fresh + 1
    omega
  | @call τ body args share hidle =>
    have hspawn := h.spawn body (argsOf_lt htab.futures args)
    exact ⟨hspawn.fresh, hspawn.args, hspawn.pledged⟩
  | @start τ f fr rest callee next args share ht hf =>
    have hspawn := h.spawn callee (argsOf_lt (fun l hl => htab.env f fr l hf hl) args)
    exact ⟨hspawn.fresh, hspawn.args, hspawn.pledged⟩
  | @set τ t r c _ hc | @setExpired τ t r c _ hc =>
    have hcell : History (s.setCell t { c with pledged := false }) :=
      h.setCell fun hpledged => by cases hpledged
    exact ⟨hcell.fresh, hcell.args, hcell.pledged⟩
  | @push τ f t c rest _ hc =>
    have hcell : History (s.setCell t { c with waiting := f :: c.waiting }) :=
      h.setCell fun hpledged => h.pledged t c hc hpledged
    exact ⟨hcell.fresh, hcell.args, hcell.pledged⟩
  | @emplace τ t c r rest _ hc =>
    have hcell : History (s.setCell t { c with result := some r }) :=
      h.setCell fun hpledged => h.pledged t c hc hpledged
    exact ⟨hcell.fresh, hcell.args, hcell.pledged⟩
  | @execute τ t c rest _ hc =>
    have hcell : History (s.setCell t { c with waiting := [], ready := true }) :=
      h.setCell fun hpledged => h.pledged t c hc hpledged
    exact ⟨hcell.fresh, hcell.args, hcell.pledged⟩
  | _ => exact ⟨h.fresh, h.args, h.pledged⟩

theorem history_init : History (init : State V E) := by
  refine ⟨?_, ?_, ?_⟩
  · intro f x h
    cases h
  · intro f b env l h
    cases h
  · intro t c h
    cases h

/-- What was called stays so. -/
theorem calls_step (hst : Step s e s') (hlt : f < s.fresh) :
    s'.calls f = s.calls f := by
  cases hst with
  | call | start => exact Function.update_of_ne (by omega) _ _
  | _ => rfl

/-! ## Every result is the meaning -/

/-- The coroutines that are called from outside await what they have,
whatever the results. -/
def Legal (s : State V E) (e : Event V E) : Prop :=
  ∀ τ b args share, e = .call τ b args share → ∀ w : ℕ → Except E V,
    (b.eval ((argsOf args s.futures).map (Local.map w))).isSome = true

/-- **What the machine has of the results** agrees with `w`. -/
structure Meant (w : ℕ → Except E V) (s : State V E) : Prop where
  calls : ∀ f b env, s.calls f = some (b, env) → b.eval (env.map (Local.map w)) = some (w f)
  frames : ∀ f fr, s.frames f = some fr → fr.place ≠ .done → fr.eval w = some (w f)
  acts : ∀ τ acts t r, s.threads τ = some acts → .emplace t r ∈ acts → w t = r
  cells : ∀ t c r, s.cells t = some c → c.result = some r → w t = r

theorem meant_init (w : ℕ → Except E V) : Meant w init := by
  refine ⟨?_, ?_, ?_, ?_⟩
  · intro f b env h
    cases h
  · intro f fr h
    cases h
  · intro τ acts t r h
    cases h
  · intro t c r h
    cases h

/-- An await has its result. -/
theorem eval_resume (haw : fr.awaited = some t) (hr : w t = r) :
    (fr.resume r).eval w = fr.eval w := by
  obtain ⟨i, next, hbody, htarget⟩ := exists_await haw
  have hold : fr.eval w = (next (w t)).eval (moveFrom (fr.env.map (Local.map w)) i) := by
    rw [Frame.eval, hbody, Body.eval, map_target, htarget]
    rfl
  rw [hold, ← hr]
  simp only [Frame.eval, Frame.resume, hbody, map_moveFrom]

/-- **A call** is what was called and what comes next. -/
theorem eval_call {callee next : Body V E} {share : Bool}
    (hbody : fr.body = .call callee args share next) (heval : fr.eval w = some r) :
    ∃ r', callee.eval ((argsOf args fr.env).map (Local.map w)) = some r' ∧
      next.eval (.new r' share :: afterArgs args (fr.env.map (Local.map w))) = some r := by
  rw [Frame.eval, hbody, Body.eval, ← map_argsOf] at heval
  exact Option.bind_eq_some_iff.mp heval

theorem Meant.spawn (h : Meant w s) {env : List (Local ℕ)}
    (heval : b.eval (env.map (Local.map w)) = some (w s.fresh)) : Meant w (s.spawn b env) := by
  refine ⟨fun f b' env' hf => ?_, fun f fr hf hdone => ?_, h.acts, fun t c r hc hr => ?_⟩
  · rcases call_cases hf with ⟨rfl, hx⟩ | ⟨-, hf⟩
    · cases hx
      exact heval
    · exact h.calls f b' env' hf
  · rcases spawn_cases hf with ⟨rfl, rfl⟩ | ⟨-, hf⟩
    · exact heval
    · exact h.frames f fr hf hdone
  · rcases cell_cases (s := s) hc with ⟨-, rfl⟩ | ⟨-, hc⟩
    · cases hr
    · exact h.cells t c r hc hr

theorem Meant.setFrame (h : Meant w s) (hfr : fr.place ≠ .done → fr.eval w = some (w f)) :
    Meant w (s.setFrame f (some fr)) := by
  refine ⟨h.calls, fun g fr' hg hdone => ?_, h.acts, h.cells⟩
  rcases frame_cases hg with ⟨rfl, hx⟩ | ⟨-, hg⟩
  · obtain rfl := Option.some.inj hx
    exact hfr hdone
  · exact h.frames g fr' hg hdone

theorem Meant.setCell (h : Meant w s) (hc : ∀ r, c.result = some r → w t = r) :
    Meant w (s.setCell t c) := by
  refine ⟨h.calls, h.frames, h.acts, fun u c' r hu hr => ?_⟩
  rcases cell_cases hu with ⟨rfl, rfl⟩ | ⟨-, hu⟩
  · exact hc r hr
  · exact h.cells u c' r hu hr

/-- **Every step keeps it.** -/
theorem Meant.step (h : Meant w s) (hcount : Counted s) (htab : Tables s)
    (hsolve : Solves w s') (hlegal : Legal s e) (hset : ∀ τ t r, e = .set τ t r → w t = r)
    (hst : Step s e s') : Meant w s' := by
  -- who is on top of a stack, and has not returned
  have htop : ∀ {τ f rest fr p} {a : Act V E}, s.threads τ = some (a :: rest) →
      s.frames f = some fr → 0 < a.handles f p → p ≠ .done → fr.eval w = some (w f) := by
    intro τ f rest fr p a ht hf ha hp
    refine h.frames f fr hf ?_
    rw [hcount.place_of_top htab ht hf ha]
    exact hp
  have hacts : ∀ τ acts t r, s'.threads τ = some acts → .emplace t r ∈ acts → w t = r := by
    intro υ acts t r hυ hmem
    rcases acts_step hst hυ hmem with ⟨acts', hacts', ha⟩ | ⟨_, _, ha, -⟩ | ⟨t', r', ha, hr⟩ |
      ⟨-, hnot⟩
    · exact h.acts υ acts' t r hacts' ha
    · cases ha
    · cases ha
      rcases hr with ⟨τ, rfl⟩ | ⟨rest, fr, ht, hf, hbody⟩
      · exact hset τ t r rfl
      · have heval := htop ht hf (p := .running) (by simp [Act.handles]) (by simp)
        rw [Frame.eval, hbody, Body.eval] at heval
        exact (Option.some.inj heval).symm
    · exact absurd rfl (hnot t r)
  -- it is enough to look at the tables
  have hmeant : ∀ {u : State V E}, Meant w u → u.calls = s'.calls → u.frames = s'.frames →
      u.cells = s'.cells → Meant w s' := by
    intro u hu hcalls hframes hcells
    exact ⟨hcalls ▸ hu.calls, hframes ▸ hu.frames, hacts, hcells ▸ hu.cells⟩
  cases hst with
  | thread | drop | exit => exact hmeant h rfl rfl rfl
  | promise =>
    have hcell : Meant w (s.setCell s.fresh ⟨none, [], false, true⟩) :=
      h.setCell fun r hr => by cases hr
    exact hmeant hcell rfl rfl rfl
  | @call τ body args share hidle =>
    obtain ⟨r, hr⟩ := Option.isSome_iff_exists.mp (hlegal τ body args share rfl w)
    have hnew : w s.fresh = r :=
      hsolve s.fresh body (argsOf args s.futures) r (Function.update_self _ _ _) hr
    exact hmeant (h.spawn (hr.trans (congrArg some hnew.symm))) rfl rfl rfl
  | @set τ t r c _ hc | @setExpired τ t r c _ hc =>
    have hcell : Meant w (s.setCell t { c with pledged := false }) :=
      h.setCell fun r hr => h.cells t c r hc hr
    exact hmeant hcell rfl rfl rfl
  | @ret τ f fr r | @retExpired τ f fr r =>
    have hframe : Meant w (s.setFrame f (some (fr.unwind r))) :=
      h.setFrame fun hdone => absurd unwind_place hdone
    exact hmeant hframe rfl rfl rfl
  | @start τ f fr rest callee next args share ht hf hbody =>
    have heval := htop ht hf (p := .running) (by simp [Act.handles]) (by simp)
    obtain ⟨r, hr, hnext⟩ := eval_call hbody heval
    have hnew : w s.fresh = r :=
      hsolve s.fresh callee (argsOf args fr.env) r (Function.update_self _ _ _) hr
    refine hmeant ((h.spawn (hr.trans (congrArg some hnew.symm))).setFrame (f := f) fun _ => ?_)
      rfl rfl rfl
    rw [← map_afterArgs, ← hnew] at hnext
    exact hnext
  | @await τ f t fr c r rest ht hf haw hc _ hr =>
    have heval := htop ht hf (p := .running) (by simp [Act.handles]) (by simp)
    have hresume := eval_resume haw (h.cells t c r hc hr)
    exact hmeant (h.setFrame fun _ => hresume.trans heval) rfl rfl rfl
  | @suspend τ f t fr c rest ht hf =>
    have heval := htop ht hf (p := .running) (by simp [Act.handles]) (by simp)
    have hframe : Meant w (s.setFrame f (some { fr with place := .suspended t })) :=
      h.setFrame fun _ => heval
    exact hmeant hframe rfl rfl rfl
  | @push τ f t c rest _ hc =>
    have hcell : Meant w (s.setCell t { c with waiting := f :: c.waiting }) :=
      h.setCell fun r hr => h.cells t c r hc hr
    exact hmeant hcell rfl rfl rfl
  | @refuse τ f t fr c r rest ht hf haw hc _ hr =>
    have heval := htop ht hf (p := .suspended t) (by simp [Act.handles]) (by simp)
    have hresume := eval_resume haw (h.cells t c r hc hr)
    exact hmeant (h.setFrame fun _ => hresume.trans heval) rfl rfl rfl
  | @emplace τ t c r rest ht hc =>
    have hcell : Meant w (s.setCell t { c with result := some r }) :=
      h.setCell fun r' hr' => Option.some.inj hr' ▸ h.acts τ _ t r ht List.mem_cons_self
    exact hmeant hcell rfl rfl rfl
  | @execute τ t c rest _ hc =>
    have hcell : Meant w (s.setCell t { c with waiting := [], ready := true }) :=
      h.setCell fun r hr => h.cells t c r hc hr
    exact hmeant hcell rfl rfl rfl
  | @resume τ f t u fr c r items rest ht hf haw hc hr =>
    have heval := htop ht hf (p := .suspended t) (by simp [Act.handles]) (by simp)
    have hresume := eval_resume haw (h.cells u c r hc hr)
    exact hmeant (h.setFrame fun _ => hresume.trans heval) rfl rfl rfl
  | @finish τ f rest =>
    refine ⟨h.calls, fun g fr hg hdone => ?_, hacts, h.cells⟩
    rcases frame_cases hg with ⟨-, hx⟩ | ⟨-, hg⟩
    · cases hx
    · exact h.frames g fr hg hdone

/-- What a run adds to the calls. -/
theorem Solves.before (hhist : History s) (hst : Step s e s') (h : Solves w s') : Solves w s := by
  intro f b env r hf
  refine h f b env r ?_
  rw [calls_step hst (hhist.fresh f _ hf)]
  exact hf

theorem history (hrun : Runs Step Unguarded (init : State V E) s) : History s :=
  hrun.invariant_of (I := Sound) (J := History) (fun _ _ _ h _ hst => h.step hst)
    (fun _ _ _ hs _ h _ hst => h.step hs.tables hst) sound_init history_init

theorem meant (hrun : Trace Step Legal init es s) (hsolve : Solves w s)
    (hset : ∀ τ t r, .set τ t r ∈ es → w t = r) : Meant w s := by
  induction hrun with
  | nil => exact meant_init w
  | @snoc s s' es e hrun hlegal hst ih =>
    have hs := sound hrun.runs.unguarded
    have hm := ih (hsolve.before (history hrun.runs.unguarded) hst) fun τ t r hmem =>
      hset τ t r (List.mem_append_left _ hmem)
    refine hm.step hs.counted hs.tables hsolve hlegal (fun τ t r he => ?_) hst
    exact hset τ t r (he ▸ List.mem_append_right _ List.mem_cons_self)

/-! ## There is one -/

/-- **The results of the first `n` states**, if the promises outside are
given `ρ`. -/
def State.values (s : State V E) (ρ : ℕ → Except E V) : ℕ → ℕ → Except E V
  | 0 => ρ
  | n + 1 =>
    let w := s.values ρ n
    Function.update w n (match s.calls n with
      | some (b, env) => (b.eval (env.map (Local.map w))).getD (ρ n)
      | none => ρ n)

theorem values_beyond (hle : n ≤ t) : s.values ρ n t = ρ t := by
  induction n with
  | zero => rfl
  | succ n ih =>
    rw [State.values, Function.update_of_ne (by omega)]
    exact ih (by omega)

/-- They do not change. -/
theorem values_stable (hlt : t < n) (hle : n ≤ m) : s.values ρ m t = s.values ρ n t := by
  induction m with
  | zero => omega
  | succ m ih =>
    by_cases hm : n = m + 1
    · rw [hm]
    · rw [State.values, Function.update_of_ne (by omega)]
      exact ih (by omega)

theorem values_promise (hcall : s.calls t = none) (n : ℕ) : s.values ρ n t = ρ t := by
  by_cases hle : n ≤ t
  · exact values_beyond hle
  · rw [values_stable (n := t + 1) (by omega) (by omega), State.values]
    simp only [Function.update_self, hcall]

/-- A result is that of the call with the results of its arguments. -/
theorem values_solve (hhist : History s) (ρ : ℕ → Except E V) : Solves (s.values ρ s.fresh) s := by
  intro f b env r hf heval
  have hlt := hhist.fresh f _ hf
  have hargs : env.map (Local.map (s.values ρ s.fresh)) =
      env.map (Local.map (s.values ρ f)) := by
    refine List.map_congr_left fun l hl => ?_
    have hl := hhist.args f b env l hf hl
    rw [Local.map, Local.map, values_stable (n := l.what + 1) (by omega) (by omega),
      values_stable (s := s) (m := f) (n := l.what + 1) (by omega) (by omega)]
  rw [values_stable (n := f + 1) (by omega) (by omega), State.values]
  simp only [Function.update_self, hf]
  rw [← hargs, heval, Option.getD_some]

/-- **There is one meaning** at most. -/
theorem IsMeaning.unique (hhist : History s) (h : IsMeaning s ρ w) (h' : IsMeaning s ρ w') :
    w' = w := by
  funext t
  induction t using Nat.strongRecOn with
  | _ t ih =>
    cases hcall : s.calls t with
    | none => rw [h.promises t hcall, h'.promises t hcall]
    | some x =>
      obtain ⟨b, env⟩ := x
      have hargs : env.map (Local.map w') = env.map (Local.map w) := by
        refine List.map_congr_left fun l hl => ?_
        rw [Local.map, Local.map, ih l.what (hhist.args t b env l hcall hl)]
      have heval := h'.calls t b env hcall
      rw [hargs, h.calls t b env hcall] at heval
      exact (Option.some.inj heval).symm

/-- What is set has a promise outside. -/
theorem set_promise (hrun : Trace Step Legal (init : State V E) es s)
    (hmem : .set τ t r ∈ es) : t < s.fresh ∧ s.calls t = none := by
  induction hrun with
  | nil => cases hmem
  | @snoc s s' es e hrun hlegal hst ih =>
    have hs := sound hrun.runs.unguarded
    have hhist := history hrun.runs.unguarded
    have hbefore : t < s.fresh ∧ s.calls t = none := by
      rcases List.mem_append.mp hmem with hmem | hmem
      · exact ih hmem
      · obtain rfl := List.mem_singleton.mp hmem
        cases hst with
        | set _ hc hpledged | setExpired _ hc hpledged =>
          exact ⟨(hs.tables.cells t).mpr ⟨_, hc⟩, hhist.pledged t _ hc hpledged⟩
    rw [calls_step hst hbefore.1]
    have := fresh_step hst
    exact ⟨by omega, hbefore.2⟩

/-- **Coroutines compute what they mean.** In every run of coroutines that
await only what they have, whatever the order of the steps of the threads
and of what is set outside: there is one way to give a result to each call
as if all of them returned at once, with the promises outside given `ρ`,
and each result that was stored is that one. -/
theorem computes (hrun : Trace Step Legal (init : State V E) es s)
    (hset : ∀ τ t r, .set τ t r ∈ es → ρ t = r) :
    ∃ w, IsMeaning s ρ w ∧ (∀ w', IsMeaning s ρ w' → w' = w) ∧
      ∀ t c r, s.cells t = some c → c.result = some r → r = w t := by
  have hhist := history hrun.runs.unguarded
  have hm := meant hrun (values_solve hhist ρ) fun τ t r hmem => by
    rw [values_promise (set_promise hrun hmem).2]
    exact hset τ t r hmem
  have hmean : IsMeaning s ρ (s.values ρ s.fresh) :=
    ⟨fun t hcall => values_promise hcall _, hm.calls⟩
  exact ⟨_, hmean, fun w' h' => hmean.unique hhist h',
    fun t c r hc hr => (hm.cells t c r hc hr).symm⟩

/-- It calls `relay` with its argument, and awaits that. -/
def relayed : Body ℕ ℕ := .call relay [0] false (.await 0 .ret)

/-- A promise is fulfilled, and then a thread calls `relayed`. -/
def relayedEvents : List (Event ℕ ℕ) :=
  [.thread, .promise false, .set 0 0 (.ok 5), .step 0, .step 0, .step 0,
    .call 0 relayed [0] false]

theorem relayed_run : ∃ s : State ℕ ℕ, Trace Step Legal init relayedEvents s ∧
    s.threads 0 = some [.body 1] ∧ ∀ t c, s.cells t = some c → c.pledged = false := by
  have hother : ∀ {s : State ℕ ℕ} {e}, (∀ τ b args share, e ≠ .call τ b args share) →
      Legal s e := fun he τ b args share h => absurd h (he τ b args share)
  have h₀ : Trace Step Legal (init : State ℕ ℕ) [] init := .nil _
  have h₁ := h₀.snoc (hother (by simp)) (show Step _ .thread _ from .thread)
  have h₂ := h₁.snoc (hother (by simp)) (show Step _ (.promise false) _ from .promise)
  have h₃ := h₂.snoc (hother (by simp)) (show Step _ (.set 0 0 (.ok 5)) _ from
    .set rfl rfl rfl (.inl ⟨⟨0, .future⟩, List.mem_singleton_self _, rfl, by decide⟩))
  have h₄ := h₃.snoc (hother (by simp)) (show Step _ (.step 0) _ from .emplace rfl rfl rfl)
  have h₅ := h₄.snoc (hother (by simp)) (show Step _ (.step 0) _ from .execute rfl rfl)
  have h₆ := h₅.snoc (hother (by simp)) (show Step _ (.step 0) _ from .exit rfl)
  have h := h₆.snoc (by rintro τ b args share ⟨⟩ w; rfl)
    (show Step _ (.call 0 relayed [0] false) _ from .call rfl)
  refine ⟨_, h, rfl, fun t c hc => ?_⟩
  by_cases h₁ : t = 1
  · subst h₁
    exact Option.some.inj hc ▸ rfl
  · by_cases h₀ : t = 0
    · subst h₀
      exact Option.some.inj hc ▸ rfl
    · simp [State.spawn, State.setCell, State.setThread, init, h₀, h₁] at hc

theorem relayed_sets {τ t : ℕ} {r : Except ℕ ℕ} (h : .set τ t r ∈ relayedEvents) :
    .ok 5 = r := by
  simp only [relayedEvents, List.mem_cons, List.not_mem_nil, reduceCtorEq, Event.set.injEq,
    or_false, false_or] at h
  exact h.2.2.symm

theorem computes_of_relayed : ∃ s : State ℕ ℕ, Trace Step Legal init relayedEvents s ∧
    ∃ w, IsMeaning s (fun _ => .ok 5) w ∧ (∀ w', IsMeaning s (fun _ => .ok 5) w' → w' = w) ∧
      ∀ t c r, s.cells t = some c → c.result = some r → r = w t := by
  obtain ⟨s, hrun, -, -⟩ := relayed_run
  exact ⟨s, hrun, computes hrun fun τ t r hmem => relayed_sets hmem⟩

end Coroutines

end PortableConcurrency
