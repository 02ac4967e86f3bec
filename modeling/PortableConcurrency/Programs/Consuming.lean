import PortableConcurrency.Programs.Effects

/-!
# Calls of futures

What waits for a result, reads it, or passes it on.
-/

namespace PortableConcurrency

namespace Programs

open Futures (Exn Storage Node Body Obj Action Kind Closure Producer Caller Config Owned Wf)
open Promise (Errc Thrown Either)
open Calls

variable {V E F : Type} {w w' w₁ : World V E F} {s x y : ℕ} {nd : Node V E F}
variable {vars vars' : List Variable} {v v' : Variable} {rest : Multiset (Obj F)}

/-- `is_ready` changes nothing. -/
theorem isReady_ok {state : Option ℕ} {b : Bool} (h : Call.isReady state w = .ok b w') :
    w' = w := by
  cases state with
  | none => cases h
  | some s =>
    cases h
    rfl

/-- `notify` and `wait`. -/
theorem notify_follows {unique : Bool} {state : Option ℕ}
    (hx : w.vars[x]? = some (.future unique state)) (hr : Call.notify state w = .ok () w') :
    Follows w w' := by
  cases state with
  | none => cases hr
  | some s =>
    have hw' : { w with locals := w.config.push s .notify ::ₘ w.locals } = w' := by
      cases hr
      rfl
    subst w'
    obtain ⟨rest, hrest, -⟩ := config_set hx
    refine .of_step (e := .notify s) (by simp) ?_
    have hst := Futures.Step.move (.notify unique s) hrest
    rw [Multiset.insert_eq_cons, Multiset.cons_add, Multiset.singleton_add] at hst
    rw [config_addLocal, hrest]
    change Futures.Step w.config _ { w.config with
      objs := w.config.push s .notify ::ₘ ({.future unique s} + rest) }
    rw [Multiset.singleton_add, Multiset.cons_swap]
    exact hst

/-- `get`. -/
theorem get_follows {unique : Bool} {state : Option ℕ} {a : Except (Exn E) V}
    (hx : w.vars[x]? = some (.future unique state))
    (hr : (∃ b, Call.get' x unique state a w = .ok b w') ∨
      ∃ b, Call.get' x unique state a w = .error b w') : Follows w w' := by
  have hw' : w' = w ∨ unique = true ∧ w' = { w with vars := w.vars.set x (.future true none) } := by
    cases state with
    | none =>
      rcases hr with ⟨b, hr⟩ | ⟨b, hr⟩
      · cases hr
      · cases hr
        exact .inl rfl
    | some s =>
      cases unique <;> cases a <;> rcases hr with ⟨b, hr⟩ | ⟨b, hr⟩ <;> cases hr <;> simp
  rcases hw' with rfl | ⟨rfl, rfl⟩
  · exact .of_eq rfl
  · obtain ⟨rest, hrest, hset⟩ := config_set hx
    cases state with
    | none =>
      refine .of_eq ?_
      rw [hset, ← hrest]
    | some s =>
      refine .of_step (e := .dropFuture s) (by simp) ?_
      rw [hset]
      exact Futures.Step.move (.dropFuture true s) hrest

/-- `detach`. -/
theorem detach_follows {unique : Bool} {state : Option ℕ}
    (hx : w.vars[x]? = some (.future unique state))
    (hr : Call.detach x unique state w = .ok () w') : Follows w w' := by
  cases state with
  | none => cases hr
  | some s =>
    have hw' : { w with
        vars := w.vars.set x (.future unique none) ++ [.future unique (some s)]
        locals := w.config.push s (.detached s) ::ₘ w.locals } = w' := by
      cases hr
      rfl
    subst w'
    obtain ⟨rest, hrest, hset⟩ := config_push_set hx
    refine .of_step (e := .detach s) (by simp) ?_
    have hst := Futures.Step.move (.detach unique s) hrest
    have hconf := config_addLocal (w := { w with
      vars := w.vars.set x (.future unique none) ++ [.future unique (some s)] })
      (w.config.push s (.detached s))
    rw [hconf, (hset _ _).2]
    rw [Multiset.insert_eq_cons, Multiset.cons_add, Multiset.singleton_add] at hst
    change Futures.Step w.config _ { w.config with
      objs := w.config.push s (.detached s) ::ₘ (0 + ({.future unique s} + rest)) }
    rw [zero_add, Multiset.singleton_add, Multiset.cons_swap]
    exact hst

/-- A closure is pushed onto a list in the same way when another state is
made before. -/
theorem push_alloc {k : Closure} {body : Body F} (hs : s ≠ w.fresh) :
    (w.alloc body).config.push s k = w.config.push s k := by
  have hnodes : (w.alloc body).config.nodes s = w.config.nodes s := Function.update_of_ne hs _ _
  unfold Config.push Config.isExecuted
  rw [hnodes]

/-- **`then` and `next`.** -/
theorem attach_follows (h : Wf w.config) {unique : Bool} {state : Option ℕ} {kind : Kind} {fn : F}
    (hx : w.vars[x]? = some (.future unique state))
    (hr : Call.attach x unique state kind fn w = .ok () w') : Follows w w' := by
  cases state with
  | none => cases hr
  | some s =>
    obtain ⟨rest, hrest, hset⟩ := config_push_set hx
    have hs : s ≠ w.fresh := by
      have hmem : .future unique s ∈ w.config.objs := by
        rw [hrest]
        exact Multiset.mem_add.mpr (.inl (Multiset.mem_singleton_self _))
      have hlt := h.names _ hmem s (by simp [Obj.names])
      exact Nat.ne_of_lt hlt
    obtain ⟨a, ha⟩ : ∃ a : Action F, a = ⟨kind, unique, fn, s⟩ := ⟨_, rfl⟩
    obtain ⟨k, hk⟩ : ∃ k, k = (w.alloc (.cnt true (some a))).config.push s (.schedule w.fresh) :=
      ⟨_, rfl⟩
    have hst : Futures.Step w.config (.attach w.fresh a)
        ⟨w.config.setNode w.config.fresh ⟨.empty, false, .cnt true (some a)⟩,
          (.future true w.fresh ::ₘ k ::ₘ a.keeps) + rest, w.config.fresh + 1⟩ := by
      rw [hk, push_alloc hs, ha]
      exact .spawn (.attach ⟨kind, unique, fn, s⟩) hrest
    refine .of_step (e := .attach w.fresh a) (by simp) ?_
    -- the variables that are left, and what the continuation leaves to the future
    obtain ⟨vars, hw', hobjs⟩ : ∃ vars, w' = { w.alloc (.cnt true (some a)) with
        vars := vars, locals := k ::ₘ w.locals } ∧
        varObjs vars + w.locals = {.future true w.fresh} + (a.keeps + rest) := by
      by_cases hb : (unique || decide (kind = .interruptible)) = true
      · refine ⟨w.vars.set x (.future unique none) ++ [.future true (some w.fresh)], ?_, ?_⟩
        · unfold Call.attach at hr
          simp only [hb] at hr
          cases hr
          rw [hk, ha]
          rfl
        · have hkeeps : a.keeps = 0 := by
            unfold Action.keeps
            rw [ha, if_neg]
            rintro ⟨hu, hk⟩
            rw [show unique = false from hu, Bool.false_or, decide_eq_true_eq] at hb
            exact hk hb
          have hobjs := congrArg Config.objs (hset (.future unique none) (.future true w.fresh)).2
          rw [hkeeps, zero_add]
          exact hobjs.trans (zero_add _)
      · refine ⟨w.vars ++ [.future true (some w.fresh)], ?_, ?_⟩
        · unfold Call.attach at hr
          simp only [hb] at hr
          cases hr
          rw [hk, ha]
          rfl
        · have hkeeps : a.keeps = {.future unique s} := by
            unfold Action.keeps
            rw [Bool.not_eq_true, Bool.or_eq_false_iff, decide_eq_false_iff_not] at hb
            obtain ⟨rfl, hk⟩ := hb
            rw [ha]
            exact if_pos ⟨rfl, hk⟩
          have hobjs := congrArg Config.objs (config_push (w := w) (.future true (some w.fresh)))
          rw [hkeeps]
          exact hobjs.trans (by rw [hrest]; rfl)
    subst hw'
    have hconf : ({ w.alloc (.cnt true (some a)) with
        vars := vars, locals := k ::ₘ w.locals } : World V E F).config =
        ⟨w.config.setNode w.config.fresh ⟨.empty, false, .cnt true (some a)⟩,
          (.future true w.fresh ::ₘ k ::ₘ a.keeps) + rest, w.config.fresh + 1⟩ := by
      have hsum : varObjs vars + k ::ₘ w.locals =
          (.future true w.fresh ::ₘ k ::ₘ a.keeps) + rest := by
        rw [Multiset.add_cons, hobjs, Multiset.singleton_add, Multiset.cons_swap,
          Multiset.cons_add, Multiset.cons_add]
      simp only [World.config, World.alloc, hsum]
      rfl
    rw [hconf]
    exact hst

end Programs

end PortableConcurrency
