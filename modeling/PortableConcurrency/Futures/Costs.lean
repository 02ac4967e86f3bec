import PortableConcurrency.Common.Budget
import PortableConcurrency.Futures.Making
import PortableConcurrency.Futures.Tokens

/-!
# What the library has still to do

A closure in a list is going to be called, an action run, a result
announced, a local destroyed. Each object stands for a bounded number of
steps of the library's own, and each operation of the user's adds a few.
The loop of a combinator is the only one whose length is not known
beforehand: it has as many turns as there are inputs left.

A function of the user's that runs is going to end. It may return a
future, which is more work than a value.
-/

namespace PortableConcurrency

namespace Futures

variable {V E F : Type*} {c c' : Config V E F} {e : Event V E F} {len len' : ℕ → ℕ}
variable {rem add rest : Multiset (Obj F)} {s t n w i : ℕ} {o : Obj F} {nd nd' : Node V E F}

/-- The steps a closure leads to, its call and its end included. -/
def Closure.cost : Closure → ℕ
  | .notify => 2
  | .schedule _ => 12
  | .unwrapCb _ => 4
  | .detached _ => 2
  | .combine _ _ => 4

/-- The steps an object leads to, when `len w` are the inputs of `w`. -/
def Obj.cost (len : ℕ → ℕ) : Obj F → ℕ
  | .handle .action _ _ => 10
  | .handle _ _ _ => 0
  | .future _ _ => 0
  | .linked _ k => k.cost
  | .queued _ k => k.cost
  | .spent _ _ => 1
  | .execute _ => 2
  | .running _ _ => 9
  | .invoked _ _ => 7
  | .subscribing _ _ => 6
  | .cleaning _ => 1
  | .making w i => 5 * (len w - i) + 3
  | .held _ => 1

namespace Config

/-- The inputs of a combinator. -/
def inputs (c : Config V E F) (w : ℕ) : ℕ := (c.nodes w).elim 0 fun nd => nd.body.futures.length

/-- All of that, and a destructor for each state. -/
def budget (c : Config V E F) : ℕ :=
  weigh (Obj.cost c.inputs) c.objs + Table.total (fun _ _ => 1) c.nodes c.fresh

end Config

/-- **The steps that are the library's**, an executor's, or the end of a
user function. A future that is returned is the user's doing. -/
@[simp] def Event.work : Event V E F → ℕ
  | .register _ _ | .finish _ | .call _ _ | .run _ | .invoke _ _ | .passError _ _ _ | .ret _ _ _ |
    .subscribe _ _ | .clean _ | .execute _ | .release | .destroy _ => 1
  | .drop .action _ => 1
  | _ => 0

/-- What an operation of the user's gives the library to do. -/
@[simp] def Event.brings : Event V E F → ℕ
  | .newPromise _ => 1
  | .newTask _ _ => 1
  | .attach _ _ => 13
  | .combine _ futures => 5 * futures.length + 4
  | .notify _ => 2
  | .detach _ => 2
  | .take _ => 1
  | .set _ _ => 2
  | .drop .action _ => 0
  | .drop _ _ => 2
  | .callTask _ _ => 7
  | _ => 0

/-! ## What the parts of a step cost -/

@[simp] theorem push_cost (k : Closure) : (c.push t k : Obj F).cost len = k.cost := by
  unfold Config.push
  split <;> rfl

@[simp] theorem weigh_inputObjs (l : List Input) :
    weigh (Obj.cost len) (inputObjs l : Multiset (Obj F)) = 0 := by
  refine weigh_eq_zero fun o ho => ?_
  obtain ⟨f, -, rfl⟩ := mem_inputObjs.mp ho
  rfl

@[simp] theorem weigh_sharedObjs (l : List Input) :
    weigh (Obj.cost len) (sharedObjs l : Multiset (Obj F)) = 0 := weigh_inputObjs _

@[simp] theorem weigh_keeps (a : Action F) : weigh (Obj.cost len) a.keeps = 0 := by
  refine weigh_eq_zero fun o ho => ?_
  obtain ⟨-, -, rfl⟩ := mem_keeps.mp ho
  rfl

theorem weigh_cleanup_le (len : ℕ → ℕ) (h : Caller) (s : ℕ) :
    weigh (Obj.cost len) (cleanup h s : Multiset (Obj F)) ≤ 1 := by
  cases h <;> simp [cleanup, Obj.cost]

theorem weigh_executeIf_le (len : ℕ → ℕ) (b : Bool) (s : ℕ) :
    weigh (Obj.cost len) (executeIf b s : Multiset (Obj F)) ≤ 2 := by
  cases b <;> simp [executeIf, Obj.cost]

theorem unlink_cost (o : Obj F) : (o.unlink s).cost len = o.cost len := by
  cases o with
  | linked t k =>
    simp only [Obj.unlink]
    split <;> rfl
  | _ => rfl

/-- **Steps that change no node.** -/
theorem Move.pays (hm : Move c e rem add) :
    weigh (Obj.cost c.inputs) add + e.work ≤ weigh (Obj.cost c.inputs) rem + e.brings := by
  cases hm with
  | getFuture h s hh =>
    cases h with
    | action => exact absurd rfl hh
    | promise | task => simp [Obj.cost, Event.work]
  | dropExpired h s =>
    cases h <;> simp [Obj.cost, Event.work, Event.brings]
  | callPlain t k hk =>
    rcases hk with rfl | ⟨s, rfl⟩ <;> simp [Obj.cost, Closure.cost, Event.work]
  | callExpired t s k hk =>
    rcases hk with rfl | rfl <;> simp [Obj.cost, Closure.cost, Event.work]
  | notify | detach | subscribe =>
    simp only [Multiset.insert_eq_cons, weigh_cons, weigh_singleton, push_cost, Closure.cost]
    simp [Obj.cost, Event.work, Event.brings]
  | register w i nd f hn hi =>
    have hlt : i < c.inputs w := by
      simp only [Config.inputs, hn, Option.elim_some]
      exact (List.getElem?_eq_some_iff.mp hi).1
    simp only [Multiset.insert_eq_cons, weigh_cons, weigh_singleton, Obj.cost, Closure.cost,
      Event.work]
    omega
  | _ => simp [Obj.cost, Closure.cost, Event.work, Event.brings]

/-- **A new node**, and its destructor. -/
theorem Spawn.pays (len : ℕ → ℕ) (hs : Spawn c e rem nd add)
    (hlen : len' c.fresh = nd.body.futures.length) :
    weigh (Obj.cost len') add + e.work + 1 ≤ weigh (Obj.cost len) rem + e.brings := by
  cases hs with
  | attach a =>
    simp only [weigh_cons, weigh_keeps, push_cost, Closure.cost]
    simp [Obj.cost, Event.work, Event.brings]
  | whenAll l | whenAny l =>
    simp only [weigh_singleton, weigh_inputObjs, Obj.cost, hlen, Body.futures, Event.work,
      Event.brings]
    omega
  | _ => simp [Obj.cost, Event.work, Event.brings]

/-- **A result is stored**, to be announced. -/
theorem Settle.pays (len : ℕ → ℕ) {x : Storage V E} {clean : Body F → Body F}
    (hs : Settle c e rem s x clean add) :
    2 + weigh (Obj.cost len) add + e.work ≤ weigh (Obj.cost len) rem + e.brings := by
  cases hs with
  | abandon h => cases h <;> simp [Obj.cost, Event.work, Event.brings]
  | ret h s r =>
    have hle : weigh (Obj.cost len) (cleanup h s : Multiset (Obj F)) ≤ 1 := weigh_cleanup_le len h s
    simp only [weigh_singleton, Obj.cost, Event.work, Event.brings]
    omega
  | _ => simp [Obj.cost, Event.work, Event.brings]

theorem Touch.pays {body : Body F} (ht : Touch c e rem s nd body add)
    (hlen : len s = nd.body.futures.length) (hlen' : len' s = body.futures.length) :
    weigh (Obj.cost len') add + e.work ≤ weigh (Obj.cost len) rem + e.brings := by
  cases ht with
  | abandon h => cases h <;> simp [Obj.cost, Event.work, Event.brings]
  | notify t w pos nd =>
    have hle : weigh (Obj.cost len') (executeIf (nd.body.notify pos).2 s : Multiset (Obj F)) ≤ 2 :=
      weigh_executeIf_le len' _ s
    simp only [weigh_cons, weigh_singleton, Obj.cost, Closure.cost, Event.work]
    omega
  | register w i nd f hi =>
    have hle : weigh (Obj.cost len') (executeIf (nd.body.notify i).2 s : Multiset (Obj F)) ≤ 2 :=
      weigh_executeIf_le len' _ s
    have hlt : i < nd.body.futures.length := (List.getElem?_eq_some_iff.mp hi).1
    rw [Body.notify_futures] at hlen'
    simp only [weigh_cons, weigh_singleton, Obj.cost, hlen, hlen', Event.work]
    omega
  | finish w i nd hi =>
    have hle : weigh (Obj.cost len') (executeIf nd.body.finish.2 s : Multiset (Obj F)) ≤ 2 :=
      weigh_executeIf_le len' _ s
    simp only [weigh_cons, weigh_singleton, Obj.cost, Event.work]
    omega
  | _ => simp [Obj.cost, Closure.cost, Event.work, Event.brings]

/-! ## What a step costs -/

theorem inputs_eq (hn : c.nodes w = some nd) : c.inputs w = nd.body.futures.length := by
  simp [Config.inputs, hn]

/-- **The frame rule**: what an object stands for does not grow. -/
theorem Step.cost_le (h : Wf c) (hst : Step c e c') (hmem : o ∈ c.objs) :
    o.cost c'.inputs ≤ o.cost c.inputs := by
  cases o with
  | making w i =>
    have hle : c'.inputs w ≤ c.inputs w := by
      cases hn' : c'.nodes w with
      | none => simp [Config.inputs, hn']
      | some nd' =>
        obtain ⟨nd, hn⟩ := hst.old (h.names _ hmem w (by simp [Obj.names])) hn'
        rw [inputs_eq hn, inputs_eq hn']
        rcases hst.futures h hn hn' with hfut | ⟨hnil, -⟩
        · rw [hfut]
        · simp [hnil]
    simp only [Obj.cost]
    omega
  | handle g b s => cases g <;> exact le_rfl
  | _ => exact le_rfl

theorem Step.weigh_le (h : Wf c) (hst : Step c e c') (objs : Multiset (Obj F))
    (hsub : ∀ o ∈ objs, o ∈ c.objs) :
    weigh (Obj.cost c'.inputs) objs ≤ weigh (Obj.cost c.inputs) objs :=
  weigh_le_of_mem fun o ho => hst.cost_le h (hsub o ho)

/-- **Every step is paid for.** -/
theorem Step.pays (h : Wf c) (hst : Step c e c') : c'.budget + e.work ≤ c.budget + e.brings := by
  have hle := fun objs => hst.weigh_le h objs
  unfold Config.budget
  cases hst with
  | @move e rem add rest hm ho =>
    have hpays := hm.pays
    have hsame : weigh (Obj.cost (Config.inputs { c with objs := add + rest })) (add + rest) =
        weigh (Obj.cost c.inputs) (add + rest) := rfl
    simp only [hsame, ho, weigh_add]
    omega
  | @spawn e rem add rest nd hs ho =>
    have hrest := hle rest fun o => mem_of_rest ho
    have hlen : Config.inputs ⟨c.setNode c.fresh nd, add + rest, c.fresh + 1⟩ c.fresh =
        nd.body.futures.length := inputs_eq (by simp [Config.setNode])
    have hpays := hs.pays c.inputs hlen
    have htotal := Table.total_push (fun _ _ => 1) c.nodes c.fresh nd
    simp only [Config.setNode] at hrest hpays ⊢
    simp only [ho, weigh_add]
    omega
  | @settle e rem add rest s x clean nd hs ho hn hempty =>
    have hrest := hle rest fun o => mem_of_rest ho
    have hrem := hle rem fun o => mem_of_rem ho
    have htotal := total_setNode (fun _ _ => 1) { nd with storage := x, body := clean nd.body } h hn
    have hpays := hs.pays (Config.inputs { c with
      nodes := c.setNode s { nd with storage := x, body := clean nd.body }
      objs := .execute s ::ₘ (add + rest) })
    simp only [weigh_cons, weigh_add, ho]
    simp only [Obj.cost]
    omega
  | @unwrap g s t u rest nd ho hn =>
    have hrest := hle rest fun o => mem_of_rest ho
    have htotal := total_setNode (fun _ _ => 1) { nd with storage := .inner t } h hn
    have hclean : weigh (Obj.cost (Config.inputs { c with
      nodes := c.setNode s { nd with storage := .inner t }
      objs := .subscribing s t ::ₘ (cleanup g s + rest) })) (cleanup g s : Multiset (Obj F)) ≤ 1 :=
      weigh_cleanup_le _ g s
    simp only [ho, Multiset.insert_eq_cons, weigh_cons, weigh_singleton, weigh_add]
    simp only [Obj.cost, Event.work, Event.brings]
    omega
  | @touch e rem add rest s nd body ht ho hn =>
    have hrest := hle rest fun o => mem_of_rest ho
    have htotal := total_setNode (fun _ _ => 1) { nd with body := body } h hn
    have hlen : Config.inputs { c with
      nodes := c.setNode s { nd with body := body }, objs := add + rest } s =
        body.futures.length := by simp [Config.inputs, Config.setNode]
    have hpays := ht.pays (inputs_eq hn) hlen
    simp only [ho, weigh_add]
    omega
  | @execute s rest nd ho hn =>
    have hrest := hle rest fun o => mem_of_rest ho
    have htotal := total_setNode (fun _ _ => 1) { nd with executed := true } h hn
    simp only [ho, weigh_cons, weigh_singleton, weigh_add,
      weigh_map_of _ (fun o => unlink_cost o)]
    simp only [Obj.cost, Event.work, Event.brings]
    omega
  | @destroy s nd hn hun =>
    have hobjs := hle c.objs fun _ => id
    have hfilter := weigh_filter_le (fun o : Obj F => ¬ o.isLinked s = true) (Obj.cost
      (Config.inputs { c with
        nodes := Function.update c.nodes s none
        objs := c.objs.filter fun o => ¬ o.isLinked s })) c.objs
    have htotal := Table.total_erase (g := fun _ _ => 1) (h.bound s nd hn) hn
    simp only [Event.work, Event.brings]
    omega

end Futures

end PortableConcurrency
