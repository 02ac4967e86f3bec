import Mathlib.Tactic.Abel
import PortableConcurrency.Futures.Claims
import PortableConcurrency.Programs.Guarantee

/-!
# What a call does to the world

The statements of a call, each with what it leaves behind when it returns,
and what that is of the configuration: which objects its variables are, and
which node has changed. A call follows a configuration if the configuration
can make the step, or the steps, that the call has made.
-/

namespace PortableConcurrency

namespace Programs

open Futures (Exn Storage Node Body Obj Action Kind Closure Producer Caller Config Owned Wf)
open Promise (Errc Thrown Either)
open Calls

variable {V E F : Type} {w w' w₁ : World V E F} {s x y : ℕ} {nd : Node V E F}
variable {vars vars' : List Variable} {v v' : Variable} {rest : Multiset (Obj F)}
variable {m : Call V E F (Response V)} {r : Response V} {o : Op V E F}

/-! ## Variables -/

/-- The objects of variables that follow one another. -/
theorem varObjs_append (xs ys : List Variable) :
    (varObjs (xs ++ ys) : Multiset (Obj F)) = varObjs xs + varObjs ys := by
  induction xs with
  | nil => simp [varObjs]
  | cons x xs ih => simp [varObjs, ih, add_assoc]

theorem varObjs_push (v : Variable) :
    (varObjs (vars ++ [v]) : Multiset (Obj F)) = varObjs vars + v.objs := by
  rw [varObjs_append]
  simp [varObjs]

/-- **A variable is written.** -/
theorem varObjs_set (hx : vars[x]? = some v) : ∃ rest : Multiset (Obj F),
    varObjs vars = v.objs + rest ∧ ∀ v', varObjs (vars.set x v') = v'.objs + rest := by
  induction vars generalizing x with
  | nil => simp at hx
  | cons u vars ih =>
    cases x with
    | zero =>
      obtain rfl : u = v := by simpa using hx
      exact ⟨varObjs vars, rfl, fun v' => rfl⟩
    | succ x =>
      obtain ⟨rest, hrest, hset⟩ := ih (x := x) (by simpa using hx)
      refine ⟨u.objs + rest, ?_, fun v' => ?_⟩
      · rw [varObjs, hrest, add_left_comm]
      · rw [List.set_cons_succ, varObjs, hset v', add_left_comm]

theorem getElem?_set (hx : vars[x]? = some v) (v' : Variable) : (vars.set x v')[x]? = some v' := by
  obtain ⟨hlt, -⟩ := List.getElem?_eq_some_iff.mp hx
  simp [hlt]

/-- What stands at `y` once the variable there has been moved to `x`. -/
theorem getElem?_moved {q : Variable} (hy : vars[y]? = some q) (hx : vars[x]? = some v) :
    (vars.set x q)[y]? = some q := by
  by_cases hxy : x = y
  · subst hxy
    exact getElem?_set hx q
  · rw [List.getElem?_set_ne hxy, hy]

/-- **One variable is moved over another**, which loses what it had. -/
theorem varObjs_assign {p q e : Variable} (hx : vars[x]? = some p) (hy : vars[y]? = some q)
    (he : (e.objs : Multiset (Obj F)) = 0) : ∃ rest : Multiset (Obj F),
    varObjs vars = p.objs + rest ∧ varObjs ((vars.set x q).set y e) = rest := by
  obtain ⟨rest, hrest, hset⟩ := varObjs_set (F := F) hx
  obtain ⟨rest', hrest', hset'⟩ := varObjs_set (F := F) (getElem?_moved hy hx)
  have heq : rest = rest' := add_left_cancel ((hset q).symm.trans hrest')
  exact ⟨rest, hrest, by rw [hset' e, he, zero_add, heq]⟩

/-- Two variables that are swapped are the same objects. -/
theorem varObjs_swap {p q : Variable} (hx : vars[x]? = some p) (hy : vars[y]? = some q) :
    (varObjs ((vars.set x q).set y p) : Multiset (Obj F)) = varObjs vars := by
  obtain ⟨rest, hrest, hset⟩ := varObjs_set (F := F) hx
  obtain ⟨rest', hrest', hset'⟩ := varObjs_set (F := F) (getElem?_moved hy hx)
  have heq : rest = rest' := add_left_cancel ((hset q).symm.trans hrest')
  rw [hset' p, hrest, heq]

/-! ## Statements -/

/-- `lock` succeeds exactly while there is an owner. -/
theorem owned_iff (h : Wf w.config) {n : ℕ} : w.owned n = true ↔ Owned w.config n := by
  unfold World.owned Owned
  simp only [Bool.or_eq_true, decide_eq_true_eq, Multiset.countP_pos, List.any_eq_true,
    List.mem_range, Option.any_eq_true]
  refine or_congr Iff.rfl ⟨?_, ?_⟩
  · rintro ⟨m, -, nd, hm, hin⟩
    exact ⟨m, nd, hm, hin⟩
  · rintro ⟨m, nd, hm, hin⟩
    exact ⟨m, h.bound m nd hm, nd, hm, hin⟩

theorem lock_apply (w : World V E F) (s : ℕ) :
    Call.lock s w = .ok (if w.owned s then some s else none) w := rfl

theorem storage_apply (hn : w.nodes s = some nd) : Call.storage s w = .ok nd.storage w := by
  change EStateM.Result.ok _ w = _
  rw [hn]

theorem executed_apply (hn : w.nodes s = some nd) : Call.executed s w = .ok nd.executed w := by
  change EStateM.Result.ok (w.config.isExecuted s) w = _
  rw [Futures.isExecuted_eq (show w.config.nodes s = some nd from hn)]

/-- A node is written. -/
def World.setNode (w : World V E F) (s : ℕ) (nd : Node V E F) : World V E F :=
  { w with nodes := Function.update w.nodes s (some nd) }

/-- What changing a node does. -/
theorem modifyNode_apply (hn : w.nodes s = some nd) (f : Node V E F → Node V E F) :
    Call.modifyNode s f w = .ok () (w.setNode s (f nd)) := by
  change EStateM.Result.ok () _ = _
  simp only [hn]
  rfl

/-- A check that returns has found nothing. -/
theorem throwIf_ok {b : Bool} {x : Errc} (h : Call.throwIf b x w = .ok () w') :
    b = false ∧ w' = w := by
  cases b with
  | true => cases h
  | false =>
    cases h
    exact ⟨rfl, rfl⟩

/-- The function of a task is there. -/
theorem hasFunc_ok {b : Bool} (hn : w.nodes s = some nd) (h : Call.hasFunc s w = .ok b w') :
    w' = w ∧ (b = true → ∃ fn, nd.body = .task (some fn)) := by
  obtain ⟨st, ex, body⟩ := nd
  change EStateM.Result.ok _ w = _ at h
  simp only [hn] at h
  cases h
  refine ⟨rfl, fun hb => ?_⟩
  split at hb
  · rename_i heq
    cases heq
    exact ⟨_, rfl⟩
  · cases hb

/-- A result is stored, and the list is going to be closed. -/
def World.settle (w : World V E F) (s : ℕ) (nd : Node V E F) (x : Storage V E) : World V E F :=
  { w.setNode s { nd with storage := x } with locals := .execute s ::ₘ w.locals }

theorem setNode_setNode (w : World V E F) (s : ℕ) (nd nd' : Node V E F) :
    (w.setNode s nd).setNode s nd' = w.setNode s nd' := by
  simp [World.setNode]

theorem nodes_setNode (w : World V E F) (s : ℕ) (nd : Node V E F) :
    (w.setNode s nd).nodes s = some nd := by
  simp [World.setNode]

/-- A node that is written over itself. -/
theorem setNode_self (hn : w.nodes s = some nd) : w.setNode s nd = w := by
  simp [World.setNode, ← hn]

theorem isEmpty_iff {x : Storage V E} : Storage.isEmpty x = true ↔ x = .empty := by
  cases x <;> simp [Storage.isEmpty]

/-- **`emplace`** returns if the state is empty and the value can be
constructed. -/
theorem emplace_apply (hn : w.nodes s = some nd) (a : Except E V) : Call.emplace s a w =
    if Storage.isEmpty nd.storage then
      match a with
      | .ok v => .ok () (w.settle s nd (.value v))
      | .error e => .error (.exception (.user e)) w
    else .error (.error .promiseAlreadySatisfied) w := by
  unfold Call.emplace
  rw [bind_apply (storage_apply hn)]
  by_cases he : Storage.isEmpty nd.storage = true
  · rw [if_pos he, bind_apply (by rw [he]; rfl)]
    have hempty := isEmpty_iff.mp he
    cases a with
    | ok v =>
      have h : Call.emplaceStorage s (.ok v) w =
          .ok () (w.setNode s { nd with storage := .value v }) := by
        unfold Call.emplaceStorage
        rw [bind_apply (modifyNode_apply hn _)]
        refine (modifyNode_apply (nodes_setNode _ _ _) _).trans ?_
        rw [setNode_setNode]
      rw [bind_apply h]
      rfl
    | error e =>
      have h : Call.emplaceStorage s (.error e : Except E V) w =
          .error (.exception (.user e)) w := by
        unfold Call.emplaceStorage
        rw [bind_apply (modifyNode_apply hn _)]
        change EStateM.Result.error _ (w.setNode s { nd with storage := .empty }) = _
        rw [← hempty, setNode_self hn]
      rw [bind_throws h]
  · have hb : (!Storage.isEmpty nd.storage) = true := by simpa using he
    rw [if_neg he, bind_throws (by rw [hb]; rfl)]

/-- `set_exception` returns if the state is empty. -/
theorem setException_apply (hn : w.nodes s = some nd) (a : Exn E) : Call.setException s a w =
    if Storage.isEmpty nd.storage then .ok () (w.settle s nd (.exception a))
    else .error (.error .promiseAlreadySatisfied) w := by
  unfold Call.setException
  rw [bind_apply (storage_apply hn)]
  by_cases he : Storage.isEmpty nd.storage = true
  · rw [if_pos he, bind_apply (by rw [he]; rfl), bind_apply (modifyNode_apply hn _)]
    rfl
  · have hb : (!Storage.isEmpty nd.storage) = true := by simpa using he
    rw [if_neg he, bind_throws (by rw [hb]; rfl)]

/-- **`abandon`** that does not terminate the program. -/
theorem abandon_ok (hn : w.nodes s = some nd) (h : Call.abandon s w = .ok () w') :
    ((nd.executed = true ∨ ∃ t, nd.storage = .inner t) ∧ w' = w) ∨
      (nd.executed = false ∧ nd.storage = .empty ∧
        w' = w.settle s nd (.exception .brokenPromise)) := by
  unfold Call.abandon at h
  rw [bind_apply (executed_apply hn), bind_apply (storage_apply hn)] at h
  by_cases hgo : (!nd.executed && !Storage.isInner nd.storage) = true
  · rw [if_pos hgo, setException_apply hn] at h
    by_cases he : Storage.isEmpty nd.storage = true
    · rw [if_pos he] at h
      cases h
      have hex : nd.executed = false := by
        by_contra hex
        simp [hex] at hgo
      exact .inr ⟨hex, isEmpty_iff.mp he, rfl⟩
    · rw [if_neg he] at h
      cases h
  · rw [if_neg hgo] at h
    cases h
    refine .inl ⟨?_, rfl⟩
    cases hex : nd.executed with
    | true => exact .inl rfl
    | false =>
      cases hs : nd.storage with
      | inner t => exact .inr ⟨t, rfl⟩
      | _ => simp [hex, hs, Storage.isInner] at hgo

/-- A state is made, with this body. -/
def World.alloc (w : World V E F) (body : Body F) : World V E F :=
  { w with
    nodes := Function.update w.nodes w.fresh (some ⟨.empty, false, body⟩)
    fresh := w.fresh + 1 }

/-! ## Calls and steps -/

/-- The configuration steps that a call makes. -/
def Free (_ : Config V E F) (e : Futures.Event V E F) : Prop := ∀ s t, e ≠ .unwrap .task s t

/-- **What happens to the configuration** between two worlds is a run. -/
abbrev Follows (w w' : World V E F) : Prop := Runs Futures.Step Free w.config w'.config

/-- A call that changes nothing in the configuration. -/
theorem Follows.of_eq (h : w'.config = w.config) : Follows w w' := by
  unfold Follows
  rw [h]
  exact .refl _

/-- **A call that is one step.** -/
theorem Follows.of_step {e : Futures.Event V E F} (hfree : ∀ s t, e ≠ .unwrap .task s t)
    (hst : Futures.Step w.config e w'.config) : Follows w w' := .single hfree hst

theorem config_self {objs : Multiset (Obj F)} (h : objs = w.config.objs) :
    { w.config with objs := objs } = w.config := by
  rw [h]

/-- A variable is written, in the configuration. -/
theorem config_set (hx : w.vars[x]? = some v) : ∃ rest : Multiset (Obj F),
    w.config.objs = v.objs + rest ∧ ∀ v',
      ({ w with vars := w.vars.set x v' } : World V E F).config =
        { w.config with objs := v'.objs + rest } := by
  obtain ⟨rest, hrest, hset⟩ := varObjs_set (F := F) hx
  refine ⟨rest + w.locals, ?_, fun v' => ?_⟩
  · change varObjs w.vars + w.locals = _
    rw [hrest, add_assoc]
  · simp only [World.config, hset v', add_assoc]

theorem config_addLocal (o : Obj F) : ({ w with locals := o ::ₘ w.locals } : World V E F).config =
    { w.config with objs := o ::ₘ w.config.objs } := by
  simp only [World.config, Multiset.add_cons]

/-- A variable is constructed. -/
theorem config_push (v : Variable) :
    ({ w with vars := w.vars ++ [v] } : World V E F).config =
      { w.config with objs := v.objs + w.config.objs } := by
  simp only [World.config, varObjs_push]
  congr 1
  abel

/-- A variable is constructed from another one. -/
theorem config_push_set (hx : w.vars[x]? = some v) : ∃ rest : Multiset (Obj F),
    w.config.objs = v.objs + rest ∧ ∀ v₀ v',
      ({ w with vars := (w.vars ++ [v']).set x v₀ } : World V E F).config =
          { w.config with objs := v₀.objs + (v'.objs + rest) } ∧
        ({ w with vars := w.vars.set x v₀ ++ [v'] } : World V E F).config =
          { w.config with objs := v₀.objs + (v'.objs + rest) } := by
  obtain ⟨rest, hrest, hset⟩ := varObjs_set (F := F) hx
  have hlt := (List.getElem?_eq_some_iff.mp hx).1
  refine ⟨rest + w.locals, ?_, fun v₀ v' => ?_⟩
  · change varObjs w.vars + w.locals = _
    rw [hrest, add_assoc]
  · have hobjs : (varObjs (w.vars.set x v₀ ++ [v']) : Multiset (Obj F)) + w.locals =
        v₀.objs + (v'.objs + (rest + w.locals)) := by
      rw [varObjs_push, hset v₀]
      abel
    rw [List.set_append_left _ _ hlt]
    simp only [World.config, hobjs, and_self]

/-- What storing a result is in the configuration. -/
theorem config_settle {a : Storage V E} : (w.settle s nd a).config =
    { w.config with
      nodes := w.config.setNode s { nd with storage := a }
      objs := .execute s ::ₘ w.config.objs } := by
  simp only [World.config, World.settle, World.setNode, Multiset.add_cons]
  rfl

/-- A variable owns its state. -/
theorem owned_of_var (hx : w.vars[x]? = some v) {o : Obj F} (ho : o ∈ v.objs) {n : ℕ}
    (hn : n ∈ o.refs) : Owned w.config n := by
  obtain ⟨rest, hrest, -⟩ := config_set hx
  exact .inl ⟨o, by rw [hrest]; exact Multiset.mem_add.mpr (.inl ho), hn⟩

/-! ## What is returned -/

/-- What a call without a result has done when it returns. -/
theorem void_ok {m : Call V E F Unit} (h : m.void w = .ok r w') : m w = .ok () w' := by
  obtain ⟨u, t, hm, h⟩ := bind_ok h
  cases h
  exact hm

theorem bool_ok {m : Call V E F Bool} (h : m.bool w = .ok r w') : ∃ b, m w = .ok b w' := by
  obtain ⟨b, t, hm, h⟩ := bind_ok h
  cases h
  exact ⟨b, hm⟩

end Programs

end PortableConcurrency
