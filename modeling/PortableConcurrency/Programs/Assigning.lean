import PortableConcurrency.Programs.Setting

/-!
# Variables that are made, assigned and destroyed

A variable that is moved over another, or destroyed, does to what it held
what the destructor of that does.
-/

namespace PortableConcurrency

namespace Programs

open Futures (Exn Storage Node Body Obj Action Kind Closure Producer Caller Config Owned Wf)
open Promise (Errc Thrown Either)
open Calls

variable {V E F : Type} {w w' w₁ : World V E F} {s x y : ℕ} {nd : Node V E F}
variable {vars vars' : List Variable} {v v' : Variable} {rest : Multiset (Obj F)}
variable {m : Call V E F (Response V)} {r : Response V} {o : Op V E F}

/-- The constructors. -/
theorem construct_follows {e : Futures.Event V E F} {body : Body F} {vs : List Variable}
    {add : Multiset (Obj F)} (hfree : ∀ s t, e ≠ .unwrap .task s t)
    (hs : Futures.Spawn w.config e 0 ⟨.empty, false, body⟩ add) (hadd : varObjs vs = add) :
    Follows w { w.alloc body with vars := w.vars ++ vs } := by
  refine .of_step hfree ?_
  have hst := Futures.Step.spawn hs (zero_add _).symm
  have hconf : ({ w.alloc body with vars := w.vars ++ vs } : World V E F).config =
      ⟨w.config.setNode w.config.fresh ⟨.empty, false, body⟩, add + w.config.objs,
        w.config.fresh + 1⟩ := by
    have hsum : varObjs (w.vars ++ vs) + w.locals = add + (varObjs w.vars + w.locals) := by
      rw [varObjs_append, hadd]
      abel
    simp only [World.config, World.alloc, hsum]
    rfl
  rw [hconf]
  exact hst

/-- A variable is moved into one that is constructed. -/
theorem move_follows {v₀ : Variable} (hx : w.vars[x]? = some v)
    (h₀ : (v₀.objs : Multiset (Obj F)) = 0) :
    Follows w { w with vars := (w.vars ++ [v]).set x v₀ } := by
  obtain ⟨rest, hrest, hset⟩ := config_push_set hx
  refine .of_eq ?_
  rw [(hset v₀ v).1, h₀, zero_add, ← hrest]

/-- A variable is written in one step. -/
theorem set_follows {v₀ : Variable} {e : Futures.Event V E F} (hfree : ∀ s t, e ≠ .unwrap .task s t)
    (hx : w.vars[x]? = some v) (hm : Futures.Move w.config e v.objs v₀.objs) :
    Follows w { w with vars := w.vars.set x v₀ } := by
  obtain ⟨rest, hrest, hset⟩ := config_set hx
  refine .of_step hfree ?_
  rw [hset v₀]
  exact .move hm hrest

/-- One future is moved over another. -/
theorem assign_follows {unique : Bool} {state state' : Option ℕ}
    (hx : w.vars[x]? = some (.future unique state))
    (hy : w.vars[y]? = some (.future unique state')) :
    Follows w { w with
      vars := (w.vars.set y (.future unique none)).set x (.future unique state') } := by
  by_cases hxy : x = y
  · subst hxy
    refine .of_eq ?_
    have hself : w.vars.set x (.future unique state') = w.vars := by
      obtain ⟨hlt, hget⟩ := List.getElem?_eq_some_iff.mp hy
      rw [← hget, List.set_getElem_self]
    rw [List.set_set, hself]
  · rw [← List.set_comm _ _ hxy]
    obtain ⟨rest, hrest, hset⟩ := varObjs_assign (F := F) (e := .future unique none) hx hy rfl
    cases state with
    | none =>
      refine .of_eq ?_
      rw [show (Variable.future unique none).objs = (0 : Multiset (Obj F)) from rfl,
        zero_add] at hrest
      simp only [World.config, hset, hrest]
    | some s =>
      refine .of_step (e := .dropFuture s) (by simp) ?_
      have ho : w.config.objs = {.future unique s} + (rest + w.locals) := by
        change varObjs w.vars + w.locals = _
        rw [hrest, add_assoc]
        rfl
      have hst := Futures.Step.move (.dropFuture unique s) ho
      rw [zero_add] at hst
      simp only [World.config, hset]
      exact hst

/-- A `shared_future` is copied. -/
theorem copy_follows {state : Option ℕ} (hx : w.vars[x]? = some (.future false state)) :
    Follows w { w with vars := w.vars ++ [.future false state] } := by
  cases state with
  | none =>
    refine .of_eq ?_
    rw [config_push]
    exact congrArg (fun objs => { w.config with objs := objs }) (zero_add _)
  | some s =>
    obtain ⟨rest, hrest, -⟩ := config_set hx
    refine .of_step (e := .copy s) (by simp) ?_
    have hst := Futures.Step.move (.copy s) hrest
    rw [config_push, hrest]
    change Futures.Step w.config _ { w.config with
      objs := {.future false s} + ({.future false s} + rest) }
    rw [← add_assoc]
    exact hst

/-- One `shared_future` is copied over another: it is copied, and the old
one goes. -/
theorem copyAssign_follows {state state' : Option ℕ} (hx : w.vars[x]? = some (.future false state))
    (hy : w.vars[y]? = some (.future false state')) :
    Follows w { w with vars := w.vars.set x (.future false state') } := by
  obtain ⟨rest, hrest, hset⟩ := config_set hx
  refine (copy_follows hy).trans ?_
  have hcopy := config_push (w := w) (.future false state')
  cases state with
  | none =>
    refine Follows.of_eq ?_
    have hnone : (Variable.future false none).objs = (0 : Multiset (Obj F)) := rfl
    rw [hset, hcopy, hrest, hnone, zero_add]
  | some s =>
    refine Follows.of_step (e := .dropFuture s) (by simp) ?_
    rw [hset, hcopy, hrest]
    have hst := Futures.Step.move (c := { w.config with
      objs :=
        (Variable.future false state').objs + ((Variable.future false (some s)).objs + rest) })
      (.dropFuture false s) (add_left_comm _ _ _)
    rw [zero_add] at hst
    exact hst

/-- A promise or a task is destroyed, or another one is moved over it. -/
theorem drop_follows {p : Either} {vars : List Variable} (h : Wf w.config)
    (hab : w.vars[x]? = some (.promise p) ∧ Call.abandonPromise p w = .ok () w₁ ∨
      w.vars[x]? = some (.task p) ∧ Call.abandonTask p w = .ok () w₁)
    (hrest : ∀ v, w.vars[x]? = some v → ∃ rest : Multiset (Obj F),
      varObjs w.vars = v.objs + rest ∧ varObjs vars = rest) :
    w₁.vars = w.vars ∧ Follows w { w₁ with vars := vars } := by
  rcases hab with ⟨hx, hab⟩ | ⟨hx, hab⟩
  · obtain ⟨rest, ho, hvars⟩ := hrest _ hx
    have hobjs : w.config.objs = Producer.objs .promise p + (rest + w.locals) := by
      change varObjs w.vars + w.locals = _
      rw [ho, add_assoc]
      rfl
    exact abandonPromise_follows h hab hobjs (by rw [hvars])
  · obtain ⟨rest, ho, hvars⟩ := hrest _ hx
    have hobjs : w.config.objs = Producer.objs .task p + (rest + w.locals) := by
      change varObjs w.vars + w.locals = _
      rw [ho, add_assoc]
      rfl
    exact abandonTask_follows h hx hab hobjs (by rw [hvars])

/-- What is assigned to abandons its state first; a future only lets go of it. -/
theorem assign_op_follows (h : Wf w.config) (hb : (Op.assign x y).body w.vars = some m)
    (hr : m w = .ok r w') : Follows w w' := by
  simp only [Op.body] at hb
  split at hb
  · rename_i p q hx hy
    cases hb
    obtain ⟨⟨⟩, w₁, hab, hr⟩ := bind_ok (void_ok hr)
    obtain ⟨hv, hf⟩ := drop_follows h (.inl ⟨hx, hab⟩) fun v hx' => by
      obtain rfl := Option.some.inj (hx.symm.trans hx')
      exact varObjs_assign (e := .promise .monostate) hx hy rfl
    cases hr
    rw [← hv] at hf
    exact hf
  · rename_i p q hx hy
    cases hb
    obtain ⟨⟨⟩, w₁, hab, hr⟩ := bind_ok (void_ok hr)
    obtain ⟨hv, hf⟩ := drop_follows h (.inr ⟨hx, hab⟩) fun v hx' => by
      obtain rfl := Option.some.inj (hx.symm.trans hx')
      exact varObjs_assign (e := .task .monostate) hx hy rfl
    cases hr
    rw [← hv] at hf
    exact hf
  · rename_i u a u' a' hx hy
    split at hb
    · rename_i hu
      subst hu
      cases hb
      cases hr
      exact assign_follows hx hy
    · cases hb
  · cases hb

/-- And so does what is destroyed. -/
theorem destroy_op_follows (h : Wf w.config) (hb : (Op.destroy x).body w.vars = some m)
    (hr : m w = .ok r w') : Follows w w' := by
  have hdestroy : ∀ {x : ℕ} v, w.vars[x]? = some v → ∃ rest : Multiset (Obj F),
      varObjs w.vars = v.objs + rest ∧ varObjs (w.vars.set x .gone) = rest := by
    intro x v hx
    obtain ⟨rest, ho, hset⟩ := varObjs_set (F := F) hx
    exact ⟨rest, ho, (hset .gone).trans (zero_add _)⟩
  simp only [Op.body] at hb
  split at hb
  · rename_i hx
    cases hb
    obtain ⟨⟨⟩, w₁, hab, hr⟩ := bind_ok (void_ok hr)
    obtain ⟨hv, hf⟩ := drop_follows h (.inl ⟨hx, hab⟩) hdestroy
    cases hr
    rw [← hv] at hf
    exact hf
  · rename_i hx
    cases hb
    obtain ⟨⟨⟩, w₁, hab, hr⟩ := bind_ok (void_ok hr)
    obtain ⟨hv, hf⟩ := drop_follows h (.inr ⟨hx, hab⟩) hdestroy
    cases hr
    rw [← hv] at hf
    exact hf
  · rename_i unique state hx
    cases hb
    cases hr
    cases state with
    | none =>
      obtain ⟨rest, hrest, hset⟩ := config_set hx
      refine .of_eq ?_
      rw [hset]
      exact config_self hrest.symm
    | some s => exact set_follows (by simp) hx (.dropFuture unique s)
  · cases hb

/-- `share` passes the state on, if there is one. -/
theorem share_op_follows (hb : (Op.share x).body w.vars = some m)
    (hr : m w = .ok r w') : Follows w w' := by
  simp only [Op.body] at hb
  split at hb <;> cases hb
  rename_i state hx
  cases hr
  obtain ⟨rest, hrest, hset⟩ := config_push_set hx
  cases state with
  | none =>
    refine .of_eq ?_
    rw [(hset _ _).1]
    refine config_self ?_
    rw [hrest]
    exact congrArg _ (zero_add _)
  | some s =>
    refine .of_step (e := .share s) (by simp) ?_
    rw [(hset _ _).1]
    have hst := Futures.Step.move (.share s) hrest
    rw [← zero_add ({.future false s} + rest)] at hst
    exact hst

end Programs

end PortableConcurrency
