import PortableConcurrency.Futures.Producers
import PortableConcurrency.Pool.Lifetimes

/-!
# A `packaged_task` in a pool

`async` hands a `packaged_task` to an executor as a function object, and
the executor calls it and destroys it. What it does with the function
object decides what is stored: the function's result when it is called,
and `broken_promise` when it is destroyed uncalled.
-/

namespace PortableConcurrency

namespace Futures

open Pool (Mark)

variable {V E F : Type*} {c c' : Config V E F} {e : Event V E F} {fes : List (Event V E F)}
variable {rem add rest : Multiset (Obj F)} {n : ℕ} {nd nd' : Node V E F} {fn : F}

/-! ## What is done with the function object -/

/-- What an event does with the `packaged_task` of `n`. -/
def Event.taskMark (n : ℕ) : Event V E F → Option Mark
  | .callTask s _ => if s = n then some .run else none
  | .clean s => if s = n then some .done else none
  | .drop .task s => if s = n then some .destroyed else none
  | _ => none

/-- What has been done with it. -/
def taskLife (n : ℕ) (fes : List (Event V E F)) : List Mark := fes.filterMap (Event.taskMark n)

theorem taskLife_append (fes : List (Event V E F)) (e : Event V E F) :
    taskLife n (fes ++ [e]) = taskLife n fes ++ (e.taskMark n).toList := by
  rw [taskLife, List.filterMap_append]
  cases h : e.taskMark n <;> simp [h, taskLife]

/-- A call of the task of `n` returns. One that ends by an exception, which
leaves no result, ends the program, since `process_queue` is `noexcept`. -/
def Returning (n : ℕ) (c : Config V E F) (e : Event V E F) : Prop :=
  e = .clean n → HasResult c n

/-- The user's function of the task of `n` is being called. -/
def Obj.calls (n : ℕ) : Obj F → Bool
  | .invoked .task s => s = n
  | _ => false

/-- `task_state::run` has yet to clean the function. -/
def Obj.cleans (n : ℕ) : Obj F → Bool
  | .cleaning s => s = n
  | _ => false

/-- Calls of the task of `n` that begin, whose function ends, and that are
over. -/
def Event.begins (n : ℕ) : Event V E F → ℕ
  | .callTask s _ => if s = n then 1 else 0
  | _ => 0

def Event.ends (n : ℕ) : Event V E F → ℕ
  | .ret .task s _ => if s = n then 1 else 0
  | .unwrap .task s _ => if s = n then 1 else 0
  | _ => 0

def Event.cleans (n : ℕ) : Event V E F → ℕ
  | .clean s => if s = n then 1 else 0
  | _ => 0

@[simp] theorem calls_inputObjs (l : List Input) :
    tally (Obj.calls n) (inputObjs l : Multiset (Obj F)) = 0 := tally_inputObjs (fun _ _ => rfl) l

@[simp] theorem cleans_inputObjs (l : List Input) :
    tally (Obj.cleans n) (inputObjs l : Multiset (Obj F)) = 0 := tally_inputObjs (fun _ _ => rfl) l

@[simp] theorem calls_keeps (a : Action F) : tally (Obj.calls n) a.keeps = 0 :=
  tally_keeps (fun _ _ => rfl) a

@[simp] theorem cleans_keeps (a : Action F) : tally (Obj.cleans n) a.keeps = 0 :=
  tally_keeps (fun _ _ => rfl) a

theorem calls_push (t : ℕ) (k : Closure) : (c.push t k).calls n = false := by
  unfold Config.push
  split <;> rfl

theorem cleans_push (t : ℕ) (k : Closure) : (c.push t k).cleans n = false := by
  unfold Config.push
  split <;> rfl

@[simp] theorem calls_executeIf (b : Bool) (w : ℕ) :
    tally (Obj.calls n) (executeIf b w : Multiset (Obj F)) = 0 := by
  simp [tally_executeIf, Obj.calls]

@[simp] theorem cleans_executeIf (b : Bool) (w : ℕ) :
    tally (Obj.cleans n) (executeIf b w : Multiset (Obj F)) = 0 := by
  simp [tally_executeIf, Obj.cleans]

/-- **The account of calls.** -/
theorem step_calls (hst : Step c e c') :
    e.begins n + tally (Obj.calls n) c.objs = e.ends n + tally (Obj.calls n) c'.objs := by
  refine hst.balance (fun _ _ => rfl) (fun _ _ => rfl) (fun _ => rfl) (fun _ => rfl) ?_ ?_ ?_ ?_ ?_
    ?_
  · intro rem add hm
    cases hm with
    | notify | detach | subscribe =>
      simp only [Multiset.insert_eq_cons, tally_cons, tally_singleton, calls_push]
      simp [Event.begins, Event.ends, Obj.calls]
    | _ => simp [Event.begins, Event.ends, Obj.calls, sharedObjs]
  · intro rem add nd hs
    cases hs with
    | attach a =>
      simp only [tally_cons, tally_singleton, calls_push, calls_keeps]
      simp [Event.begins, Event.ends, Obj.calls]
    | _ => simp [Event.begins, Event.ends, Obj.calls]
  · intro rem add s x clean hs
    cases hs with
    | ret g => cases g <;> simp [Event.begins, Event.ends, Obj.calls, cleanup]
    | abandon g => cases g <;> simp [Event.begins, Event.ends, Obj.calls]
    | _ => simp [Event.begins, Event.ends, Obj.calls]
  · rintro g s t u rfl
    cases g <;> simp [Event.begins, Event.ends, Obj.calls, cleanup]
  · intro rem add s nd body ht
    cases ht <;> simp [Event.begins, Event.ends, Obj.calls]
  · rintro s (rfl | rfl) <;> rfl

/-- **The account of the functions to be cleaned.** -/
theorem step_cleans (hst : Step c e c') :
    e.ends n + tally (Obj.cleans n) c.objs = e.cleans n + tally (Obj.cleans n) c'.objs := by
  refine hst.balance (fun _ _ => rfl) (fun _ _ => rfl) (fun _ => rfl) (fun _ => rfl) ?_ ?_ ?_ ?_ ?_
    ?_
  · intro rem add hm
    cases hm with
    | notify | detach | subscribe =>
      simp only [Multiset.insert_eq_cons, tally_cons, tally_singleton, cleans_push]
      simp [Event.ends, Event.cleans, Obj.cleans]
    | _ => simp [Event.ends, Event.cleans, Obj.cleans, sharedObjs]
  · intro rem add nd hs
    cases hs with
    | attach a =>
      simp only [tally_cons, tally_singleton, cleans_push, cleans_keeps]
      simp [Event.ends, Event.cleans, Obj.cleans]
    | _ => simp [Event.ends, Event.cleans, Obj.cleans]
  · intro rem add s x clean hs
    cases hs with
    | ret g => cases g <;> simp [Event.ends, Event.cleans, Obj.cleans, cleanup]
    | abandon g => cases g <;> simp [Event.ends, Event.cleans, Obj.cleans]
    | _ => simp [Event.ends, Event.cleans, Obj.cleans]
  · rintro g s t u rfl
    cases g <;> simp [Event.ends, Event.cleans, Obj.cleans, cleanup]
  · intro rem add s nd body ht
    cases ht <;> simp [Event.ends, Event.cleans, Obj.cleans]
  · rintro s (rfl | rfl) <;> rfl

/-! ## What is stored -/

/-- **What a step stores in the state of a task.** -/
inductive Stores (n : ℕ) : Event V E F → Storage V E → Storage V E → Prop
  | same (e : Event V E F) (x : Storage V E) : Stores n e x x
  | ret (r : Ret V E) : Stores n (.ret .task n r) .empty r.storage
  | unwrap (t : ℕ) (x : Storage V E) : Stores n (.unwrap .task n t) x (.inner t)
  | abandon : Stores n (.drop .task n) .empty (.exception .brokenPromise)

theorem Step.stores (h : Sound c) (hst : Step c e c') (hk : HasKind c n .task)
    (hn : c.nodes n = some nd) (hn' : c'.nodes n = some nd') :
    Stores n e nd.storage nd'.storage := by
  have hkind : ∀ {rem rest : Multiset (Obj F)} {o}, c.objs = rem + rest → o ∈ rem → o.Kinded c :=
    fun ho hr => h.lists.kinded _ (mem_of_rem ho hr)
  have htask := hk nd hn
  cases hst.node hn' with
  | same hm =>
    obtain rfl := Option.some.inj (hn.symm.trans hm)
    exact .same _ _
  | spawn hf =>
    have := h.wf.bound n nd hn
    omega
  | settle hm hempty hs ho =>
    obtain rfl := Option.some.inj (hn.symm.trans hm)
    rw [hempty]
    -- nobody else has a claim on the state of a task
    cases hs with
    | setValue owning | setException owning =>
      have hp := hkind ho (o := .handle .promise owning n) (by simp) nd hn
      rw [htask] at hp
      rcases hp with hp | hp <;> cases hp
    | abandon g owning =>
      cases g with
      | task => exact .abandon
      | promise =>
        have hp := hkind ho (o := .handle .promise owning n) (by simp) nd hn
        rw [htask] at hp
        rcases hp with hp | hp <;> cases hp
      | action =>
        have hp := (hkind ho (o := .handle .action owning n) (by simp)).2 nd hn
        rw [htask] at hp
        cases hp
    | passError _ _ a =>
      have hp := hkind ho (o := .running n a) (by simp) nd hn
      rw [htask] at hp
      cases hp
    | ret g _ r =>
      cases g with
      | task => exact .ret r
      | cnt =>
        have hp := hkind ho (o := .invoked .cnt n) (by simp) nd hn
        rw [htask] at hp
        cases hp
  | @unwrap _ g t u rest hm he ho =>
    obtain rfl := Option.some.inj (hn.symm.trans hm)
    subst he
    cases g with
    | task => exact .unwrap t _
    | cnt =>
      have hp := hkind ho (o := .invoked .cnt n) (by simp) nd hn
      rw [htask] at hp
      cases hp
  | touch hm | execute hm =>
    obtain rfl := Option.some.inj (hn.symm.trans hm)
    exact .same _ _

/-- **A task that is destroyed with an empty state abandons it.** -/
theorem Step.abandons (h : Sound c) (hst : Step c (.drop .task n) c') (howned : Owned c n)
    (hn : c.nodes n = some nd) (hn' : c'.nodes n = some nd') (hk : nd.body.kind = .task)
    (hempty : nd.storage = .empty) : nd'.storage = .exception .brokenPromise := by
  cases hst with
  | move hm =>
    cases hm with
    | dropExpired _ _ hexp => exact absurd howned hexp
  | spawn hs => cases hs
  | settle hs =>
    cases hs with
    | abandon =>
      obtain ⟨-, rfl⟩ | ⟨hne, -⟩ := setNode_eq hn'
      · rfl
      · exact absurd rfl hne
  | touch ht _ hm =>
    cases ht with
    | abandon _ _ _ _ _ _ hdone =>
      obtain rfl := Option.some.inj (hn.symm.trans hm)
      rcases hdone with hex | ⟨t, ht⟩
      · refine absurd hempty (h.stored.nodes n (by rw [Futures.isExecuted_eq hn, hex]) nd hn ?_)
        rw [hk]
        simp
      · rw [hempty] at ht
        cases ht

/-- The function's result. -/
def Given (fes : List (Event V E F)) (n : ℕ) (x : Storage V E) : Prop :=
  (∃ r, .ret .task n r ∈ fes ∧ x = r.storage) ∨ ∃ t, .unwrap .task n t ∈ fes ∧ x = .inner t

theorem Given.ne_empty {x : Storage V E} (h : Given fes n x) : x ≠ .empty := by
  rcases h with ⟨r, -, rfl⟩ | ⟨t, -, rfl⟩
  · cases r <;> simp [Ret.storage]
  · simp

theorem Given.append {x : Storage V E} (h : Given fes n x) (e : Event V E F) :
    Given (fes ++ [e]) n x := by
  rcases h with ⟨r, hr, hx⟩ | ⟨t, ht, hx⟩
  · exact .inl ⟨r, List.mem_append_left _ hr, hx⟩
  · exact .inr ⟨t, List.mem_append_left _ ht, hx⟩

/-! ## Its life -/

/-- Called once and destroyed, or destroyed uncalled, or on the way there. -/
def Allowed (l : List Mark) : Prop := l <+: [.run, .done, .destroyed] ∨ l <+: [.destroyed]

instance : DecidablePred Allowed := fun l =>
  inferInstanceAs (Decidable (l <+: [.run, .done, .destroyed] ∨ l <+: [.destroyed]))

theorem Allowed.of_append {l l' : List Mark} (h : Allowed (l ++ l')) : Allowed l :=
  h.imp (List.prefix_append l l').trans (List.prefix_append l l').trans

/-- **Where the life of a task is**: what has been done with it, how many
calls of its function there are and how many that are to be cleaned up
after, and what is stored. -/
inductive TaskPhase (fes : List (Event V E F)) (n : ℕ) : List Mark → ℕ → ℕ → Storage V E → Prop
  | waiting {i k : ℕ} {x : Storage V E} (hi : i = 0) (hk : k = 0) (hx : x = .empty) :
      TaskPhase fes n [] i k x
  | running {i k : ℕ} {x : Storage V E} (hi : i = 1) (hk : k = 0) (hx : x = .empty) :
      TaskPhase fes n [.run] i k x
  | ended {i k : ℕ} {x : Storage V E} (hi : i = 0) (hk : k = 1) (hx : x = .empty ∨ Given fes n x) :
      TaskPhase fes n [.run] i k x
  | done {i k : ℕ} {x : Storage V E} (hi : i = 0) (hk : k = 0) (hx : Given fes n x) :
      TaskPhase fes n [.run, .done] i k x
  | executed {i k : ℕ} {x : Storage V E} (hi : i = 0) (hk : k = 0) (hx : Given fes n x) :
      TaskPhase fes n [.run, .done, .destroyed] i k x
  | abandoned {i k : ℕ} {x : Storage V E} (hi : i = 0) (hk : k = 0)
      (hx : x = .exception .brokenPromise) : TaskPhase fes n [.destroyed] i k x

section Next

variable {l : List Mark} {i i' k k' : ℕ} {x x' : Storage V E}

/-- The past grows. -/
theorem TaskPhase.append (h : TaskPhase fes n l i k x) (e : Event V E F) :
    TaskPhase (fes ++ [e]) n l i k x := by
  cases h with
  | waiting hi hk hx => exact .waiting hi hk hx
  | running hi hk hx => exact .running hi hk hx
  | ended hi hk hx => exact .ended hi hk (hx.imp_right fun hx => hx.append e)
  | done hi hk hx => exact .done hi hk (hx.append e)
  | executed hi hk hx => exact .executed hi hk (hx.append e)
  | abandoned hi hk hx => exact .abandoned hi hk hx

/-- The function ends: nothing else is done meanwhile. -/
theorem TaskPhase.end (h : TaskPhase fes n l i k x) (hi : i = i' + 1) (hk : k' = k + 1)
    (hx : x' = .empty ∨ Given fes n x') : TaskPhase fes n l i' k' x' := by
  cases h with
  | running => exact .ended (by omega) (by omega) hx
  | waiting hi₀ | ended hi₀ | done hi₀ | executed hi₀ | abandoned hi₀ => omega

/-- **A life goes from phase to phase.** -/
theorem TaskPhase.next (h : TaskPhase fes n l i k x)
    (hcalls : e.begins n + i = e.ends n + i') (hcleans : e.ends n + k = e.cleans n + k')
    (hstores : Stores n e x x')
    (habandon : e = .drop .task n → x = .empty → x' = .exception .brokenPromise)
    (hreturns : e = .clean n → x ≠ .empty) (hlife : Allowed (l ++ (e.taskMark n).toList)) :
    TaskPhase (fes ++ [e]) n (l ++ (e.taskMark n).toList) i' k' x' := by
  have h := h.append e
  cases hstores with
  | ret r =>
    simp only [Event.begins, Event.ends, Event.cleans, if_true] at hcalls hcleans
    simp only [Event.taskMark, Option.toList_none, List.append_nil]
    exact h.end (by omega) (by omega) (.inr (.inl ⟨r, by simp, rfl⟩))
  | unwrap t =>
    simp only [Event.begins, Event.ends, Event.cleans, if_true] at hcalls hcleans
    simp only [Event.taskMark, Option.toList_none, List.append_nil]
    exact h.end (by omega) (by omega) (.inr (.inr ⟨t, by simp, rfl⟩))
  | abandon =>
    simp only [Event.begins, Event.ends, Event.cleans] at hcalls hcleans
    simp only [Event.taskMark, if_true, Option.toList_some] at hlife ⊢
    cases h with
    | waiting => exact .abandoned (by omega) (by omega) rfl
    | done _ _ hx => exact absurd rfl hx.ne_empty
    | running | ended | executed | abandoned => exact absurd hlife (by decide)
  | same =>
    cases hm : e.taskMark n with
    | none =>
      rw [Option.toList_none, List.append_nil]
      have hbegins : e.begins n = 0 := by
        cases e <;> simp_all [Event.taskMark, Event.begins]
      have hclean : e.cleans n = 0 := by
        cases e <;> simp_all [Event.taskMark, Event.cleans]
      by_cases hends : e.ends n = 0
      · obtain rfl : i' = i := by omega
        obtain rfl : k' = k := by omega
        exact h
      · have hone : e.ends n ≤ 1 := by
          unfold Event.ends
          split <;> first | (split <;> omega) | omega
        -- a call that leaves no result
        have hempty : x = .empty := by
          cases h with
          | running _ _ hx => exact hx
          | waiting hi | ended hi | done hi | executed hi | abandoned hi => omega
        exact h.end (by omega) (by omega) (.inl hempty)
    | some mark =>
      rw [hm, Option.toList_some] at hlife
      rw [Option.toList_some]
      unfold Event.taskMark at hm
      split at hm <;> simp only [Option.ite_none_right_eq_some, Option.some.injEq, reduceCtorEq]
        at hm
      · obtain ⟨rfl, rfl⟩ := hm
        simp only [Event.begins, Event.ends, Event.cleans, if_true] at hcalls hcleans
        cases h with
        | waiting _ _ hx => exact .running (by omega) (by omega) hx
        | running | ended | done | executed | abandoned => exact absurd hlife (by decide)
      · obtain ⟨rfl, rfl⟩ := hm
        simp only [Event.begins, Event.ends, Event.cleans, if_true] at hcalls hcleans
        cases h with
        | ended _ _ hx => exact .done (by omega) (by omega) (hx.resolve_left (hreturns rfl))
        | running => omega
        | waiting | done | executed | abandoned => exact absurd hlife (by decide)
      · obtain ⟨rfl, rfl⟩ := hm
        simp only [Event.begins, Event.ends, Event.cleans] at hcalls hcleans
        cases h with
        | waiting _ _ hx =>
          have hx' := habandon rfl hx
          rw [hx] at hx'
          cases hx'
        | done _ _ hx => exact .executed (by omega) (by omega) hx
        | running | ended | executed | abandoned => exact absurd hlife (by decide)

end Next

/-- Nothing happens to a task that is yet to be made. -/
theorem Step.taskMark_none (h : Wf c) (hst : Step c e c') (hle : c.fresh ≤ n) :
    e.taskMark n = none := by
  have hlt : ∀ {rem rest : Multiset (Obj F)} {o : Obj F} {m : ℕ}, c.objs = rem + rest → o ∈ rem →
      m ∈ o.names → m ≠ n := fun ho hr hm => by
    have := h.names_of_rem ho hr hm
    omega
  cases e with
  | callTask s fn =>
    cases hst with
    | move hm ho =>
      cases hm with
      | callTask owning =>
        simp [Event.taskMark,
          hlt ho (o := .handle .task owning s) (by simp) (List.mem_singleton_self _)]
    | spawn hs | settle hs | touch hs => cases hs
  | clean s =>
    cases hst with
    | touch ht ho =>
      cases ht with
      | clean =>
        simp [Event.taskMark, hlt ho (o := .cleaning s) (by simp) (List.mem_singleton_self _)]
    | move hs | spawn hs | settle hs => cases hs
  | drop g s =>
    cases g with
    | promise | action => rfl
    | task =>
      have hs : ∃ owning, .handle .task owning s ∈ c.objs := by
        cases hst with
        | move hm ho =>
          cases hm with
          | dropExpired => exact ⟨false, mem_of_rem ho (by simp)⟩
        | settle hs ho =>
          cases hs with
          | abandon _ owning => exact ⟨owning, mem_of_rem ho (by simp)⟩
        | touch ht ho =>
          cases ht with
          | abandon _ owning => exact ⟨owning, mem_of_rem ho (by simp)⟩
        | spawn hs => cases hs
      obtain ⟨owning, hmem⟩ := hs
      have := h.names _ hmem s (List.mem_singleton_self _)
      have hne : s ≠ n := by omega
      simp [Event.taskMark, hne]
  | _ => rfl

/-- The step that makes a task. -/
theorem Step.newTask (h : Wf c) (hst : Step c (.newTask n fn) c') : n = c.fresh ∧
    n < c'.fresh ∧ c'.nodes n = some ⟨.empty, false, .task (some fn)⟩ ∧
    tally (Obj.calls n) c'.objs = 0 ∧ tally (Obj.cleans n) c'.objs = 0 := by
  have hcalls := step_calls (n := n) hst
  have hcleans := step_cleans (n := n) hst
  have hfresh : n = c.fresh ∧ n < c'.fresh ∧
      c'.nodes n = some ⟨.empty, false, .task (some fn)⟩ := by
    cases hst with
    | spawn hs ho =>
      cases hs with
      | newTask => exact ⟨rfl, Nat.lt_succ_self _, by simp [Config.setNode]⟩
    | move hs | settle hs | touch hs => cases hs
  obtain ⟨rfl, hlt, hn'⟩ := hfresh
  have hnone : ∀ o ∈ c.objs, o.calls c.fresh = false ∧ o.cleans c.fresh = false := by
    intro o ho
    have hnames := h.names o ho
    cases o with
    | invoked g s =>
      have := hnames s (List.mem_singleton_self _)
      cases g <;> simp [Obj.calls, Obj.cleans, this.ne]
    | cleaning s =>
      have := hnames s (List.mem_singleton_self _)
      simp [Obj.calls, Obj.cleans, this.ne]
    | _ => exact ⟨rfl, rfl⟩
  rw [tally_eq_zero fun o ho => (hnone o ho).1] at hcalls
  rw [tally_eq_zero fun o ho => (hnone o ho).2] at hcleans
  simp only [Event.begins, Event.ends, Event.cleans] at hcalls hcleans
  exact ⟨rfl, hlt, hn', by omega, by omega⟩

/-- **The life of a task that somebody still waits for.** -/
theorem taskPhase_run (hrun : Trace Step (Returning n) init fes c) (hnew : .newTask n fn ∈ fes)
    (howned : Owned c n) (hlife : Allowed (taskLife n fes)) :
    ∃ nd, c.nodes n = some nd ∧ ∃ fes', fes' ⊆ fes ∧ TaskPhase fes' n (taskLife n fes)
      (tally (Obj.calls n) c.objs) (tally (Obj.cleans n) c.objs) nd.storage := by
  obtain ⟨fes₁, fes₂, c₁, c₂, rfl, hrun₁, -, hst, hrun₂⟩ := hrun.split hnew
  have hsound : ∀ {fes c}, Trace Step (Returning n) (init : Config V E F) fes c → Sound c :=
    fun h => h.runs.invariant (fun _ _ _ hi _ hst => hi.step hst) sound_init
  have h₁ := hsound hrun₁
  obtain ⟨hn₁, hlt, hn₂, hcalls, hcleans⟩ := hst.newTask h₁.wf
  -- before it is made
  have hbefore : taskLife n fes₁ = [] := by
    have hall : Wf c₁ ∧ (c₁.fresh ≤ n → taskLife n fes₁ = []) := by
      refine hrun₁.invariant (I := fun es c => Wf c ∧ (c.fresh ≤ n → taskLife n es = [])) ?_
        ⟨wf_init, fun _ => rfl⟩
      rintro es c e c' ⟨h, ih⟩ - hst
      refine ⟨h.step hst, fun hle => ?_⟩
      have hle : c.fresh ≤ n := hst.fresh_le.trans hle
      rw [taskLife_append, ih hle, hst.taskMark_none h hle]
      rfl
    exact hall.2 hn₁.ge
  have hwhole : taskLife n (fes₁ ++ .newTask n fn :: fes₂) = taskLife n fes₂ := by
    have hnone : Event.taskMark n (.newTask n fn : Event V E F) = none := rfl
    rw [taskLife, List.filterMap_append, ← taskLife, hbefore, List.filterMap_cons, hnone]
    rfl
  rw [hwhole] at hlife ⊢
  have hall : Sound c ∧ n < c.fresh ∧ HasKind c n .task ∧ (Owned c n → Allowed (taskLife n fes₂) →
      ∃ nd, c.nodes n = some nd ∧ TaskPhase fes₂ n (taskLife n fes₂)
        (tally (Obj.calls n) c.objs) (tally (Obj.cleans n) c.objs) nd.storage) := by
    refine hrun₂.invariant (I := fun es c => Sound c ∧ n < c.fresh ∧ HasKind c n .task ∧
      (Owned c n → Allowed (taskLife n es) → ∃ nd, c.nodes n = some nd ∧
        TaskPhase es n (taskLife n es) (tally (Obj.calls n) c.objs)
          (tally (Obj.cleans n) c.objs) nd.storage)) ?_ ⟨h₁.step hst, hlt, ?_, fun _ _ => ?_⟩
    · rintro es c e c' ⟨h, hlt, hk, ih⟩ hok hst
      refine ⟨h.step hst, hlt.trans_le hst.fresh_le, hk.mono (hst.le h.wf hlt), fun ho hl => ?_⟩
      have hbefore : Owned c n := (hst.owned ho).resolve_right fun hf => by omega
      rw [taskLife_append] at hl ⊢
      obtain ⟨nd, hn, hphase⟩ := ih hbefore hl.of_append
      obtain ⟨nd', hn'⟩ := (h.step hst).wf.alive n ho
      refine ⟨nd', hn', hphase.next (step_calls hst) (step_cleans hst)
        (hst.stores h hk hn hn') ?_ ?_ hl⟩
      · rintro rfl hempty
        exact hst.abandons h hbefore hn hn' (hk nd hn) hempty
      · intro he
        refine hok he nd hn ?_
        rw [hk nd hn]
        simp
    · intro nd hn
      rw [hn₂] at hn
      rw [← Option.some.inj hn]
      rfl
    · exact ⟨_, hn₂, .waiting hcalls hcleans rfl⟩
  obtain ⟨nd, hn, hphase⟩ := hall.2.2.2 howned hlife
  exact ⟨nd, hn, fes₂, fun e he => by simp [he], hphase⟩

/-! ## It is ready -/

/-- A state that is ready and has `x`. -/
def ReadyWith (c : Config V E F) (n : ℕ) (x : Storage V E) : Prop :=
  ∃ nd, c.nodes n = some nd ∧ nd.executed = true ∧ nd.storage = x

/-- **The outcome of the function of a task**: it is ready with that, or
unwrapped onto the future that the function returned. -/
def HasOutcome (fes : List (Event V E F)) (c : Config V E F) (n : ℕ) : Prop :=
  (∃ r, .ret .task n r ∈ fes ∧ ReadyWith c n r.storage) ∨
    ∃ t nd, .unwrap .task n t ∈ fes ∧ c.nodes n = some nd ∧ nd.storage = .inner t

/-- A task that somebody still waits for has the outcome of its function
when it has been called, and `broken_promise` when it has not. -/
theorem outcome_of_life (hrun : Trace Step (Returning n) init fes c)
    (hnew : .newTask n fn ∈ fes) (howned : Owned c n) (hidle : .execute n ∉ c.objs) :
    (taskLife n fes = [.run, .done, .destroyed] → HasOutcome fes c n) ∧
      (taskLife n fes = [.destroyed] → ReadyWith c n (.exception .brokenPromise)) := by
  have hready : ∀ {nd : Node V E F}, c.nodes n = some nd → nd.storage ≠ .empty →
      (∀ t, nd.storage ≠ .inner t) → nd.executed = true := fun hn hs hne =>
    (Reachable.announced hrun.runs n _ hn hs hne).resolve_right hidle
  refine ⟨fun hlife => ?_, fun hlife => ?_⟩
  · obtain ⟨nd, hn, fes', hsub, hphase⟩ := taskPhase_run hrun hnew howned (by rw [hlife]; decide)
    rw [hlife] at hphase
    cases hphase with
    | executed hi hk hgiven =>
      rcases hgiven with ⟨r, hr, hx⟩ | ⟨t, ht, hx⟩
      · refine .inl ⟨r, hsub hr, nd, hn, hready hn ?_ ?_, hx⟩
        · rw [hx]
          cases r <;> simp [Ret.storage]
        · rw [hx]
          cases r <;> simp [Ret.storage]
      · exact .inr ⟨t, nd, hsub ht, hn, hx⟩
  · obtain ⟨nd, hn, fes', hsub, hphase⟩ := taskPhase_run hrun hnew howned (by rw [hlife]; decide)
    rw [hlife] at hphase
    cases hphase with
    | abandoned hi hk hx =>
      exact ⟨nd, hn, hready hn (by simp [hx]) (by simp [hx]), hx⟩

end Futures

end PortableConcurrency
