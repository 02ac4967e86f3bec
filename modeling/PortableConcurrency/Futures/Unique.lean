import PortableConcurrency.Common.Graph
import PortableConcurrency.Futures.Tokens

/-!
# One future

What users do with `future`s, as far as it decides who may move a result
out. Beside the steps of the model these are `future::get` of a plain
value, the functions whose result is a `shared_future`, and a function of
a `packaged_task` that returns an rvalue reference to a future: `state_of`
copies the pointer out of what it is given, so the caller's future stays
valid.

Unless that happens, at most one `future` refers to a state or to those
unwrapped onto it, and its result is moved out once at most.
-/

namespace PortableConcurrency

namespace Futures

variable {V E F : Type*} {ty : ℕ → Bool} {c c' : Config V E F} {e : Event V E F}
variable {s t m n l : ℕ} {rem add rest : Multiset (Obj F)} {nd : Node V E F}

/-- What is done with futures, and the state whose result that moves
out. -/
inductive Act (V E F : Type*)
  /-- a step of the model -/
  | call (e : Event V E F) (out : Option ℕ)
  /-- `future::get`, except of a sequence -/
  | get (s : ℕ) (out : Option ℕ)
  /-- `packaged_task::get_future` when it returns a `shared_future` -/
  | getShared (s : ℕ)
  /-- `make_then_state` when it returns a `shared_future` -/
  | attachShared (s : ℕ) (a : Action F)
  /-- a task's function returns an rvalue reference to a future of its
  caller's -/
  | keep (s t : ℕ)

namespace Act

/-- The state whose result is moved out. -/
def out : Act V E F → Option ℕ
  | .call _ out => out
  | .get _ out => out
  | _ => none

/-- The state whose token is used up. -/
def spends : Act V E F → Option ℕ
  | .call e _ => e.spends
  | .get s _ => some s
  | _ => none

end Act

/-- `std::move(state->value_ref())`, and what is left where it was. -/
def Outcome.moved (l : ℕ) : Outcome V E → Option ℕ
  | .exception _ => none
  | _ => some l

/-- What reading with the token of a state moves out. -/
def MovesOut (c : Config V E F) (out : Option ℕ) : Option ℕ → Prop
  | none => out = none
  | some s => ∃ l x, Resolves c s l x ∧ out = x.moved l

/-- **The uses of futures.** A state with `ty` has a `future`, one without
a `shared_future`. -/
inductive Use (ty : ℕ → Bool) : Config V E F → Act V E F → Config V E F → Prop
  | call {c c' : Config V E F} {e : Event V E F} {out : Option ℕ} (hst : Step c e c')
      (hfits : Fits ty e) (hne : ∀ g s n, e ≠ .unwrap g s n) (hout : MovesOut c out e.spends) :
      Use ty c (.call e out) c'
  /-- `unwrap` is passed a temporary, or a future that was moved from; a
  `shared_future` can be made from a `future` -/
  | unwrap {c : Config V E F} {g : Caller} {s n : ℕ} {u : Bool} {rest : Multiset (Obj F)}
      {nd : Node V E F} (ho : c.objs = {.invoked g s, .future u n} + rest)
      (hn : c.nodes s = some nd) (hu : ty s = true → u = true) :
      Use ty c (.call (.unwrap g s n) none) { c with
        nodes := c.setNode s { nd with storage := .inner n }
        objs := .subscribing s n ::ₘ (cleanup g s + rest) }
  /-- `unwrap` is passed a reference, and the future stays as it was -/
  | keep {c : Config V E F} {s n : ℕ} {u : Bool} {rest : Multiset (Obj F)} {nd : Node V E F}
      (ho : c.objs = {.invoked .task s, .future u n} + rest) (hn : c.nodes s = some nd)
      (hu : ty s = true → u = true) :
      Use ty c (.keep s n) { c with
        nodes := c.setNode s { nd with storage := .inner n }
        objs := .subscribing s n ::ₘ (cleanup .task s + (.future u n ::ₘ rest)) }
  | get {c : Config V E F} {s l : ℕ} {x : Outcome V E} {rest : Multiset (Obj F)}
      (ho : c.objs = {.future true s} + rest) (hr : Resolves c s l x) (hx : x ≠ .futures) :
      Use ty c (.get s (x.moved l)) { c with objs := {.held s} + rest }
  | getShared {c : Config V E F} {s : ℕ} {rest : Multiset (Obj F)}
      (ho : c.objs = {.handle .task true s} + rest) (hty : ty s = false) :
      Use ty c (.getShared s) { c with objs := {.handle .task false s, .future false s} + rest }
  | attachShared {c : Config V E F} {a : Action F} {rest : Multiset (Obj F)}
      (ho : c.objs = {.future a.unique a.parent} + rest) (hty : ty c.fresh = false) :
      Use ty c (.attachShared c.fresh a) ⟨c.setNode c.fresh ⟨.empty, false, .cnt true (some a)⟩,
        .future false c.fresh ::ₘ c.push a.parent (.schedule c.fresh) ::ₘ (a.keeps + rest),
        c.fresh + 1⟩

/-- A task's function that returns a reference to a future its caller
keeps, so that two futures refer to one state. -/
def Act.Copies (ty : ℕ → Bool) (a : Act V E F) : Prop := ∃ s n, a = .keep s n ∧ ty s = true

/-! ## Unwrapped states -/

/-- `s` was unwrapped onto `t`. -/
def Inner (c : Config V E F) (s t : ℕ) : Prop := ∃ nd, c.nodes s = some nd ∧ nd.storage = .inner t

/-- **`s` is `l`, or has been unwrapped onto it**, in any number of
steps. -/
def Reaches (c : Config V E F) : ℕ → ℕ → Prop := Relation.ReflTransGen (Inner c)

/-- Whether an object is a valid `future` of `s`. -/
def Obj.isFuture (s : ℕ) : Obj F → Bool
  | .future true n => n = s
  | _ => false

/-- **The valid `future`s of `s`**: those of users, and those in the
sequences of combinators. -/
def validFutures (c : Config V E F) (s : ℕ) : ℕ :=
  tally (Obj.isFuture s) c.objs +
    Table.total (fun _ nd => nd.body.futures.count (true, s)) c.nodes c.fresh

/-- A valid `future` is a token. -/
theorem validFutures_le (ty : ℕ → Bool) (c : Config V E F) (s : ℕ) :
    validFutures c s ≤ tokens ty c s := by
  have hobjs : tally (Obj.isFuture s) c.objs ≤ tally (Obj.token ty s) c.objs := by
    refine tally_mono (fun o ho => ?_) _
    unfold Obj.isFuture at ho
    split at ho
    · simpa [Obj.token] using ho
    · cases ho
  have hbodies : Table.total (fun _ nd => nd.body.futures.count (true, s)) c.nodes c.fresh ≤
      Table.total (fun _ nd => nd.body.tokens s) c.nodes c.fresh := by
    refine Table.total_mono fun m nd _ => ?_
    cases nd.body <;> simp [Body.futures, Body.tokens]
  unfold validFutures tokens
  omega

/-! ## What a use does -/

/-- What a use does with tokens and arrows. -/
inductive Effect (ty : ℕ → Bool) (c : Config V E F) (a : Act V E F) (c' : Config V E F) : Prop
  /-- no state is unwrapped -/
  | still
      (htok : ∀ t, tokens ty c' t + (if a.spends = some t then 1 else 0) ≤
        tokens ty c t + if c.fresh = t ∧ ty t = true then 1 else 0)
      (harr : ∀ t, arrows ty c' t ≤ arrows ty c t) (hinner : ∀ m k, Inner c' m k → Inner c m k)
  /-- `s` is unwrapped onto `n` -/
  | unwrap (s n : ℕ) (hsp : a.spends = none)
      (htok : ∀ t, tokens ty c' t + (if ty s = true ∧ n = t then 1 else 0) ≤ tokens ty c t)
      (harr : ∀ t, arrows ty c' t ≤ arrows ty c t + if ty s = true ∧ n = t then 1 else 0)
      (hinner : ∀ m k, Inner c' m k → Inner c m k ∨ (m = s ∧ k = n))

theorem Step.inner (hst : Step c e c') (hne : ∀ g s n, e ≠ .unwrap g s n) (h : Inner c' m n) :
    Inner c m n := by
  obtain ⟨nd', hn', hs⟩ := h
  cases hst.node hn' with
  | same hn => exact ⟨nd', hn, hs⟩
  | spawn hn hsp => cases hsp <;> cases hs
  | settle hn hempty hse =>
    have hx := hse.isInner (t := n)
    simp only at hs
    simp [hs, Storage.isInner] at hx
  | unwrap hn he => exact absurd he (hne _ _ _)
  | touch hn | execute hn => exact ⟨_, hn, hs⟩

/-- A step that leaves the nodes alone leaves the arrows alone. -/
theorem Effect.of_objs {a : Act V E F} (ho : c.objs = rem + rest)
    (htok : ∀ t, tally (Obj.token ty t) add + (if a.spends = some t then 1 else 0) ≤
      tally (Obj.token ty t) rem) : Effect ty c a { c with objs := add + rest } := by
  refine .still (fun t => ?_) (fun t => le_rfl) fun m k h => h
  have := htok t
  simp only [tokens, ho, tally_add]
  omega

/-- `s` is unwrapped onto `n`, for which a token of `n` is given. -/
theorem Effect.of_unwrap {a : Act V E F} {objs : Multiset (Obj F)} (add : Multiset (Obj F))
    (h : Wf c) (ho : c.objs = rem + rest) (hobjs : objs = add + rest) (hn : c.nodes s = some nd)
    (hsp : a.spends = none)
    (htok : ∀ t, tally (Obj.token ty t) add + (if ty s = true ∧ n = t then 1 else 0) ≤
      tally (Obj.token ty t) rem) :
    Effect ty c a { c with
      nodes := c.setNode s { nd with storage := .inner n }, objs := objs } := by
  refine .unwrap s n hsp (fun t => ?_) (fun t => ?_) fun m k hin => ?_
  · have hrem := htok t
    have hset := total_setNode (fun _ nd => nd.body.tokens t) { nd with storage := .inner n } h hn
    simp only [tokens, ho, hobjs, tally_add] at *
    omega
  · have hset := total_setNode
      (fun m nd => if ty m = true ∧ nd.storage.isInner t = true then 1 else 0)
      { nd with storage := .inner n } h hn
    simp only [arrows, Storage.isInner, decide_eq_true_eq] at *
    omega
  · obtain ⟨nd', hn', hs⟩ := hin
    obtain ⟨rfl, rfl⟩ | ⟨-, hn'⟩ := setNode_eq hn'
    · exact .inr ⟨rfl, (Storage.inner.inj hs).symm⟩
    · exact .inl ⟨nd', hn', hs⟩

/-- **The effect of a use**, one case per kind. -/
theorem Use.effect {a : Act V E F} (hu : Use ty c a c') (h : Wf c) (hok : ¬ a.Copies ty) :
    Effect ty c a c' := by
  cases hu with
  | call hst hfits hne =>
    exact .still (fun t => hst.tokens h hfits t) (fun t => hst.arrows h hne t)
      fun m k hin => hst.inner hne hin
  | @unwrap g s n u rest nd ho hn hu =>
    refine .of_unwrap _ h ho (Multiset.cons_add _ _ _).symm hn rfl fun t => ?_
    by_cases hs : ty s = true
    · simp [token_cleanup, Obj.token, hu hs, hs]
    · simp [token_cleanup, Obj.token, hs]
  | @keep s n u rest nd ho hn hu =>
    have hs : ¬ ty s = true := fun hs => hok ⟨s, n, rfl, hs⟩
    refine .of_unwrap (.subscribing s n ::ₘ (cleanup .task s + {.future u n})) h ho ?_ hn rfl
      fun t => ?_
    · rw [Multiset.cons_add, add_assoc, Multiset.singleton_add]
    · simp [token_cleanup, Obj.token, hs]
  | get ho hr hx =>
    refine Effect.of_objs ho fun t => ?_
    simp [Obj.token, Act.spends]
  | getShared ho hty =>
    refine Effect.of_objs ho fun t => ?_
    simp [Obj.token, Act.spends]
  | @attachShared a rest ho hty =>
    refine .still (fun t => ?_) (fun t => ?_) fun m k hin => ?_
    · simp only [tokens, Config.setNode, Table.total_push, ho, tally_cons, tally_add, push_token,
        token_keeps, tally_singleton]
      simp [Obj.token, Body.tokens, Act.spends]
      omega
    · simp only [arrows, Config.setNode, Table.total_push]
      simp [Storage.isInner]
    · obtain ⟨nd, hn, hs⟩ := hin
      obtain ⟨rfl, rfl⟩ | ⟨-, hn⟩ := setNode_eq hn
      · cases hs
      · exact ⟨nd, hn, hs⟩

/-- Every use keeps the references alive. -/
theorem Use.wf {a : Act V E F} (hu : Use ty c a c') (h : Wf c) : Wf c' := by
  cases hu with
  | call hst => exact h.step hst
  | unwrap ho hn => exact h.step (.unwrap ho hn)
  | @keep s n u rest nd ho hn =>
    -- the future is copied, and the copy moved from
    have h₁ : Wf { c with objs := {.invoked .task s, .future u n} + (.future u n ::ₘ rest) } := by
      refine h.replace {.invoked .task s, .future u n, .future u n} ho ?_ fun o hmem k hk => ?_
      · simp only [Multiset.insert_eq_cons, Multiset.cons_add, Multiset.singleton_add]
      · simp only [Multiset.insert_eq_cons, Multiset.mem_cons, Multiset.mem_singleton] at hmem
        rcases hmem with rfl | rfl | rfl
        · exact ⟨.invoked .task s, by simp, hk⟩
        · exact ⟨.future u n, by simp, hk⟩
        · exact ⟨.future u n, by simp, hk⟩
    exact h₁.step (.unwrap rfl hn)
  | @get s l x rest ho =>
    refine h.replace _ ho rfl fun o hmem n hn => ⟨.future true s, by simp, ?_⟩
    obtain rfl := Multiset.mem_singleton.mp hmem
    exact hn
  | @getShared s rest ho =>
    refine h.replace _ ho rfl fun o hmem n hn => ⟨.handle .task true s, by simp, ?_⟩
    simp only [Multiset.insert_eq_cons, Multiset.mem_cons, Multiset.mem_singleton] at hmem
    rcases hmem with rfl | rfl <;> exact hn
  | @attachShared a rest ho hty =>
    have h₁ := h.step (.spawn (.attach a) ho)
    have ho₁ : (.future true c.fresh ::ₘ c.push a.parent (.schedule c.fresh) ::ₘ a.keeps) + rest =
        {.future true c.fresh} + (c.push a.parent (.schedule c.fresh) ::ₘ (a.keeps + rest)) := by
      rw [Multiset.singleton_add]
      simp only [Multiset.cons_add]
    refine h₁.replace {.future false c.fresh} ho₁ ?_ fun o hmem n hn =>
      ⟨.future true c.fresh, by simp, ?_⟩
    · rw [Multiset.singleton_add]
    · obtain rfl := Multiset.mem_singleton.mp hmem
      exact hn

theorem Use.fresh_le {a : Act V E F} (hu : Use ty c a c') : c.fresh ≤ c'.fresh := by
  cases hu with
  | call hst => exact hst.fresh_le
  | attachShared => exact Nat.le_succ _
  | unwrap | keep | get | getShared => exact le_rfl

/-! ## One token -/

/-- **A state has one token at most**, and if one was unwrapped onto it
that has it instead. Only a state with a `future` has any. -/
structure Exclusive (ty : ℕ → Bool) (c : Config V E F) : Prop extends Wf c where
  le_one : ∀ t, tokens ty c t + arrows ty c t ≤ 1
  typed : ∀ t, 0 < tokens ty c t + arrows ty c t → ty t = true

theorem exclusive_init : Exclusive ty (init : Config V E F) := by
  have hzero : ∀ t, tokens ty (init : Config V E F) t + arrows ty (init : Config V E F) t = 0 :=
    fun t => by simp [tokens, arrows, init, Table.total]
  refine ⟨wf_init, fun t => ?_, fun t ht => ?_⟩
  · rw [hzero]
    omega
  · rw [hzero] at ht
    omega

theorem Exclusive.step {a : Act V E F} (h : Exclusive ty c) (hu : Use ty c a c')
    (hok : ¬ a.Copies ty) : Exclusive ty c' := by
  have hwf' := hu.wf h.toWf
  have hfresh := h.tokens_fresh ty
  cases hu.effect h.toWf hok with
  | still htok harr =>
    refine ⟨hwf', fun t => ?_, fun t ht => ?_⟩
    · have := htok t
      have := harr t
      have := h.le_one t
      by_cases hf : c.fresh = t ∧ ty t = true
      · obtain ⟨rfl, hty⟩ := hf
        simp only [hty, and_self, if_true] at *
        omega
      · simp only [hf, if_false] at *
        omega
    · have htok := htok t
      have := harr t
      by_cases hf : c.fresh = t ∧ ty t = true
      · exact hf.2
      · rw [if_neg hf] at htok
        exact h.typed t (by omega)
  | unwrap s n hsp htok harr =>
    refine ⟨hwf', fun t => ?_, fun t ht => ?_⟩
    · have := htok t
      have := harr t
      have := h.le_one t
      omega
    · have := htok t
      have := harr t
      exact h.typed t (by omega)

/-! ## The root of a state -/

/-- An arrow that counts. -/
def Lineage (ty : ℕ → Bool) (c : Config V E F) (s t : ℕ) : Prop := ty s = true ∧ Inner c s t

namespace Exclusive

theorem arrows_pos (h : Exclusive ty c) (hl : Lineage ty c s t) : 0 < arrows ty c t := by
  obtain ⟨hty, nd, hn, hs⟩ := hl
  have := Table.le_total (h.bound s nd hn) hn
    (g := fun m nd => if ty m = true ∧ nd.storage.isInner t = true then 1 else 0)
  simp only [hty, hs, isInner_inner] at this
  simp at this
  exact this

/-- Only one state was unwrapped onto another. -/
theorem unique (h : Exclusive ty c) (hs : Lineage ty c s t) (hm : Lineage ty c m t) : s = m := by
  by_contra hne
  obtain ⟨hty, nd, hn, hin⟩ := hs
  obtain ⟨hty', nd', hn', hin'⟩ := hm
  have htwo := Table.add_le_total
    (g := fun m nd => if ty m = true ∧ nd.storage.isInner t = true then 1 else 0) hne
    (h.bound s nd hn) (h.bound m nd' hn') hn hn'
  have hone := h.le_one t
  simp only [hty, hty', hin, hin', isInner_inner] at htwo
  simp only [arrows] at hone
  simp at htwo
  omega

/-- What a `future` was unwrapped onto is a state with a `future`. -/
theorem lineage (h : Exclusive ty c) (hs : ty s = true) (hr : Reaches c s l) :
    ty l = true ∧ Relation.ReflTransGen (Lineage ty c) s l := by
  induction hr with
  | refl => exact ⟨hs, .refl⟩
  | tail _ hin ih =>
    have hl := And.intro ih.1 hin
    exact ⟨h.typed _ (Nat.lt_add_left _ (h.arrows_pos hl)), ih.2.tail hl⟩

/-- **Two tokens that lead to one state are one.** -/
theorem same (h : Exclusive ty c) (hs : 0 < tokens ty c s) (hm : 0 < tokens ty c m)
    (hr : Reaches c s l) (hr' : Reaches c m l) : s = m := by
  have hty : ∀ {s}, 0 < tokens ty c s → ty s = true := fun hs => h.typed _ (Nat.add_pos_left hs _)
  -- a state with a token has no arrow into it
  have hroot : ∀ {s m}, 0 < tokens ty c m → Relation.ReflTransGen (Lineage ty c) s m → s = m := by
    intro s m hm hr
    rcases hr.cases_tail with rfl | ⟨k, -, hl⟩
    · rfl
    · have := h.le_one m
      have := h.arrows_pos hl
      omega
  have hl := Relation.reflTransGen_swap.mpr (h.lineage (hty hs) hr).2
  have hl' := Relation.reflTransGen_swap.mpr (h.lineage (hty hm) hr').2
  have hback : Relator.RightUnique (Function.swap (Lineage ty c)) :=
    fun _ _ _ hx hy => h.unique hx hy
  rcases hl.total_of_right_unique hback hl' with hsm | hms
  · exact (hroot hs (Relation.reflTransGen_swap.mp hsm)).symm
  · exact hroot hm (Relation.reflTransGen_swap.mp hms)

end Exclusive

/-! ## Moving a result out -/

/-- **Nobody has a token that leads to `l`.** -/
def Spent (ty : ℕ → Bool) (c : Config V E F) (l : ℕ) : Prop :=
  l < c.fresh ∧ ∀ s, Reaches c s l → tokens ty c s = 0

/-- A state that is not there yet has not been unwrapped. -/
theorem Wf.reaches_fresh (h : Wf c) (hr : Reaches c c.fresh l) : l = c.fresh := by
  rcases hr.cases_head with heq | ⟨k, ⟨nd, hn, -⟩, -⟩
  · exact heq.symm
  · exact absurd (h.bound _ nd hn) (lt_irrefl _)

/-- **A result that has been moved out stays out of reach.** -/
theorem Spent.step {a : Act V E F} (hs : Spent ty c l) (h : Exclusive ty c) (hu : Use ty c a c')
    (hok : ¬ a.Copies ty) : Spent ty c' l := by
  refine ⟨hs.1.trans_le hu.fresh_le, fun m hr => ?_⟩
  cases hu.effect h.toWf hok with
  | still htok harr hinner =>
    have hr : Reaches c m l := Relation.ReflTransGen.mono hinner _ _ hr
    have hne : c.fresh ≠ m := by
      rintro rfl
      have := h.reaches_fresh hr
      have := hs.1
      omega
    have := htok m
    have := hs.2 m hr
    simp only [hne, false_and, if_false] at *
    omega
  | unwrap s n hsp htok harr hinner =>
    by_contra hpos
    have hm := htok m
    rcases Graph.path_of_new hinner hr with hr | ⟨hms, k, hk, hnl⟩
    · have := hs.2 m hr
      omega
    · -- the new arrow counts, so its token was at `n`
      subst hk
      have hty : ty m = true := h.typed m (by omega)
      have hn := htok k
      have hzero := hs.2 k hnl
      simp only [(h.lineage hty hms).1, and_self, if_true] at hn
      omega

/-- Whoever moves a result out had the last token that leads to it. -/
theorem Spent.of_spends {a : Act V E F} (h : Exclusive ty c) (hu : Use ty c a c')
    (hok : ¬ a.Copies ty) (hsp : a.spends = some s) (hr : Reaches c s l) (hlt : l < c.fresh) :
    Spent ty c' l ∧ 0 < tokens ty c s := by
  have hne : ∀ {m}, Reaches c m l → c.fresh ≠ m := by
    rintro m hr rfl
    have := h.reaches_fresh hr
    omega
  cases hu.effect h.toWf hok with
  | unwrap s' n hsp' =>
    rw [hsp] at hsp'
    cases hsp'
  | still htok harr hinner =>
    have hs := htok s
    have hone := h.le_one s
    simp only [hsp, hne hr, false_and, if_true, if_false] at hs
    refine ⟨⟨hlt.trans_le hu.fresh_le, fun m hm => ?_⟩, by omega⟩
    have hm : Reaches c m l := Relation.ReflTransGen.mono hinner _ _ hm
    by_cases hpos : 0 < tokens ty c m
    · obtain rfl := h.same hpos (by omega) hm hr
      omega
    · have := htok m
      simp only [hne hm, false_and, if_false] at this
      omega

theorem Resolves.reaches {x : Outcome V E} (hr : Resolves c s l x) :
    Reaches c s l ∧ ∃ nd, c.nodes l = some nd := by
  induction hr with
  | leaf hn => exact ⟨.refl, _, hn⟩
  | inner hn _ _ hs _ ih => exact ⟨.head ⟨_, hn, hs⟩ ih.1, ih.2⟩

theorem Outcome.moved_eq {x : Outcome V E} {k : ℕ} (h : x.moved l = some k) : l = k := by
  cases x with
  | exception => cases h
  | value | futures => exact Option.some.inj h

/-- A result is moved out with a token that leads to it. -/
theorem Use.moves_out {a : Act V E F} (hu : Use ty c a c') (h : Wf c) (hout : a.out = some l) :
    ∃ s, a.spends = some s ∧ Reaches c s l ∧ l < c.fresh := by
  have hread : ∀ {s k x}, Resolves c s k x → x.moved k = some l → Reaches c s l ∧ l < c.fresh := by
    intro s k x hr hx
    obtain rfl := Outcome.moved_eq hx
    obtain ⟨hreach, nd, hn⟩ := hr.reaches
    exact ⟨hreach, h.bound _ nd hn⟩
  cases hu with
  | @call c' e out hst hfits hne hmv =>
    obtain rfl : out = some l := hout
    cases hsp : e.spends with
    | none =>
      rw [hsp] at hmv
      cases hmv
    | some s =>
      rw [hsp] at hmv
      obtain ⟨k, x, hr, hx⟩ := hmv
      exact ⟨s, hsp, hread hr hx.symm⟩
  | @get s k x rest ho hr hx => exact ⟨s, rfl, hread hr hout⟩
  | unwrap | keep | getShared | attachShared => cases hout

/-! ## The law -/

/-- The states whose results were moved out, in order. -/
def movedOut (acts : List (Act V E F)) : List ℕ := acts.filterMap Act.out

/-- **The law of unique ownership** for `l` and the states that were
unwrapped onto it. -/
structure UniqueLaw (c : Config V E F) (acts : List (Act V E F)) (l : ℕ) : Prop where
  /-- a state has one valid `future` at most -/
  one : ∀ s, Reaches c s l → validFutures c s ≤ 1
  /-- and only one of these states has -/
  same : ∀ s m, Reaches c s l → Reaches c m l → 0 < validFutures c s → 0 < validFutures c m → s = m
  /-- the result is moved out once at most -/
  once : (movedOut acts).count l ≤ 1

/-- No task's function returns a reference to a future that its caller
keeps. -/
def NoCopies (ty : ℕ → Bool) (_ : Config V E F) (a : Act V E F) : Prop := ¬ a.Copies ty

/-- What is known of the results that were moved out. -/
def MovedOnce (ty : ℕ → Bool) (acts : List (Act V E F)) (c : Config V E F) : Prop :=
  ∀ l, (movedOut acts).count l ≤ 1 ∧ (0 < (movedOut acts).count l → Spent ty c l)

theorem MovedOnce.step {acts : List (Act V E F)} {a : Act V E F} (hm : MovedOnce ty acts c)
    (h : Exclusive ty c) (hok : NoCopies ty c a) (hu : Use ty c a c') :
    MovedOnce ty (acts ++ [a]) c' := by
  intro l
  have hcount : (movedOut (acts ++ [a])).count l =
      (movedOut acts).count l + if a.out = some l then 1 else 0 := by
    unfold movedOut
    rw [List.filterMap_append, List.count_append]
    cases hout : a.out with
    | none => simp [hout]
    | some k => simp [hout, List.count_singleton]
  by_cases hout : a.out = some l
  · obtain ⟨s, hsp, hr, hlt⟩ := hu.moves_out h.toWf hout
    obtain ⟨hspent, hpos⟩ := Spent.of_spends h hu hok hsp hr hlt
    -- it was not moved out before, since there was a token
    have hzero : (movedOut acts).count l = 0 := by
      by_contra hne
      have := ((hm l).2 (by omega)).2 s hr
      omega
    rw [hcount, hzero, if_pos hout]
    exact ⟨le_rfl, fun _ => hspent⟩
  · rw [hcount, if_neg hout]
    exact ⟨(hm l).1, fun hpos => ((hm l).2 hpos).step h hu hok⟩

/-- **A `future` is the only one of its state**, as long as no function of
a task gives away a future that somebody keeps. -/
theorem unique_law {acts : List (Act V E F)} (htr : Trace (Use ty) (NoCopies ty) init acts c) :
    ∀ l, UniqueLaw c acts l := by
  have hinv : Exclusive ty c ∧ MovedOnce ty acts c := by
    refine htr.invariant (I := fun acts c => Exclusive ty c ∧ MovedOnce ty acts c) ?_
      ⟨exclusive_init, fun l => ⟨Nat.zero_le _, fun hpos => absurd hpos (lt_irrefl _)⟩⟩
    rintro acts c a c' ⟨h, hm⟩ hok hu
    exact ⟨h.step hu hok, hm.step h hok hu⟩
  obtain ⟨h, hm⟩ := hinv
  intro l
  refine ⟨fun s _ => ?_, fun s m hr hr' hs hm => ?_, (hm l).1⟩
  · have := h.le_one s
    have := validFutures_le ty c s
    omega
  · have hs' := validFutures_le ty c s
    have hm' := validFutures_le ty c m
    exact h.same (by omega) (by omega) hr hr'

theorem Use.of_step (hst : Step c e c') (hfits : Fits ty e) (hne : ∀ g s n, e ≠ .unwrap g s n)
    (hsp : e.spends = none) : Use ty c (.call e none) c' :=
  .call hst hfits hne (by rw [hsp]; rfl)

/-- The future a task's function returns is a temporary. -/
theorem unique_law_of_unwrap : ∃ (acts : List (Act Unit Unit Unit)) (c : Config Unit Unit Unit),
    Reaches c 1 0 ∧ validFutures c 1 = 1 ∧ UniqueLaw c acts 0 := by
  have hok : ∀ (c : Config Unit Unit Unit) e out, NoCopies (fun _ => true) c (.call e out) := by
    rintro c e out ⟨s, n, h, -⟩
    cases h
  have h₀ : Trace (Use fun _ => true) (NoCopies fun _ => true) (init : Config Unit Unit Unit) []
    init := .nil _
  have h₁ := h₀.snoc (hok _ _ _) (.of_step (.spawn (.makePromise false)
    (Multiset.zero_add _).symm) rfl (by rintro _ _ _ ⟨⟩) rfl)
  have h₂ := h₁.snoc (hok _ _ _) (.of_step (.spawn (.newTask ()) (Multiset.zero_add _).symm)
    trivial (by rintro _ _ _ ⟨⟩) rfl)
  have h₃ := h₂.snoc (hok _ _ _) (.of_step (.move (.getFuture .task 1 (by simp))
    (show _ = _ + ({.handle .promise false 0, .future true 0} : Multiset (Obj Unit)) by decide))
    rfl (by rintro _ _ _ ⟨⟩) rfl)
  have h₄ := h₃.snoc (hok _ _ _) (.of_step (.move (.callTask false 1 () _
    (.inl ⟨.future true 1, by decide, by decide⟩) rfl rfl) (show _ = _ + ({.future true 1,
      .handle .promise false 0, .future true 0} : Multiset (Obj Unit)) by decide))
    trivial (by rintro _ _ _ ⟨⟩) rfl)
  have h₅ := h₄.snoc (hok _ _ _) (.unwrap (show _ = {.invoked .task 1, .future true 0} +
    ({.handle .task false 1, .future true 1, .handle .promise false 0} : Multiset (Obj Unit)) by
      decide) rfl fun _ => rfl)
  exact ⟨_, _, .single ⟨_, rfl, rfl⟩, by decide, unique_law h₅ 0⟩

/-- **A future that is kept.** The function of a task returns a reference
to the future of a promise. Then there are two, and the value is moved
out of both. -/
theorem not_unique_of_keep : ∃ (acts acts' : List (Act Unit Unit Unit))
    (c c' : Config Unit Unit Unit), Trace (Use fun _ => true) Unguarded init acts c ∧
      validFutures c 0 = 1 ∧ validFutures c 1 = 1 ∧ Reaches c 1 0 ∧
      Trace (Use fun _ => true) Unguarded c acts' c' ∧ (movedOut acts').count 0 = 2 := by
  have h₀ : Trace (Use fun _ => true) Unguarded (init : Config Unit Unit Unit) [] init := .nil _
  have h₁ := h₀.snoc trivial (.of_step (.spawn (.makePromise false) (Multiset.zero_add _).symm) rfl
    (by rintro _ _ _ ⟨⟩) rfl)
  have h₂ := h₁.snoc trivial (.of_step (.spawn (.newTask ()) (Multiset.zero_add _).symm) trivial
    (by rintro _ _ _ ⟨⟩) rfl)
  have h₃ := h₂.snoc trivial (.of_step (.move (.getFuture .task 1 (by simp))
    (show _ = _ + ({.handle .promise false 0, .future true 0} : Multiset (Obj Unit)) by decide))
    rfl (by rintro _ _ _ ⟨⟩) rfl)
  have h₄ := h₃.snoc trivial (.of_step (.move (.callTask false 1 () _
    (.inl ⟨.future true 1, by decide, by decide⟩) rfl rfl) (show _ = _ + ({.future true 1,
      .handle .promise false 0, .future true 0} : Multiset (Obj Unit)) by decide)) trivial
    (by rintro _ _ _ ⟨⟩) rfl)
  have h₅ := h₄.snoc trivial (.keep (show _ = {.invoked .task 1, .future true 0} +
    ({.handle .task false 1, .future true 1, .handle .promise false 0} : Multiset (Obj Unit)) by
      decide) rfl fun _ => rfl)
  -- from here on the value is stored, and both futures are read
  have r₁ := h₅.last.snoc trivial (.of_step (.move (.subscribe 1 0)
    (show _ = _ + ({.cleaning 1, .future true 0, .handle .task false 1, .future true 1,
      .handle .promise false 0} : Multiset (Obj Unit)) by decide)) trivial (by rintro _ _ _ ⟨⟩) rfl)
  have r₂ := r₁.snoc trivial (.of_step (.settle (.setValue false 0 ()
    (.inl ⟨.future true 0, by decide, by decide⟩)) (show _ = _ + ({.held 1, .linked 0 (.unwrapCb 1),
      .cleaning 1, .future true 0, .handle .task false 1, .future true 1} : Multiset (Obj Unit)) by
        decide) rfl rfl) trivial (by rintro _ _ _ ⟨⟩) rfl)
  have r₃ := r₂.snoc trivial (.of_step (.execute (s := 0) (show _ = _ + ({.handle .promise false 0,
    .held 1, .linked 0 (.unwrapCb 1), .cleaning 1, .future true 0, .handle .task false 1,
      .future true 1} : Multiset (Obj Unit)) by decide) rfl) trivial (by rintro _ _ _ ⟨⟩) rfl)
  have r₄ := r₃.snoc trivial (.of_step (.move (.callUnwrap 0 1
    (.inl ⟨.future true 1, by decide, by decide⟩)) (show _ = _ + ({.held 0,
      .handle .promise false 0, .held 1, .cleaning 1, .future true 0, .handle .task false 1,
        .future true 1} : Multiset (Obj Unit)) by decide)) trivial (by rintro _ _ _ ⟨⟩) rfl)
  have r₅ := r₄.snoc trivial (.of_step (.execute (s := 1) (show _ = _ + ({.spent 0 (.unwrapCb 1),
    .held 0, .handle .promise false 0, .held 1, .cleaning 1, .future true 0, .handle .task false 1,
      .future true 1} : Multiset (Obj Unit)) by decide) rfl) trivial (by rintro _ _ _ ⟨⟩) rfl)
  have r₆ := r₅.snoc trivial (.get (s := 1) (l := 0) (x := .value ()) (show _ = _ + ({.held 1,
    .spent 0 (.unwrapCb 1), .held 0, .handle .promise false 0, .held 1, .cleaning 1, .future true 0,
      .handle .task false 1} : Multiset (Obj Unit)) by decide)
    (.inner rfl rfl rfl rfl (.leaf rfl rfl rfl)) (by simp))
  have r₇ := r₆.snoc trivial (.get (s := 0) (l := 0) (x := .value ()) (show _ = _ + ({.held 1,
    .held 1, .spent 0 (.unwrapCb 1), .held 0, .handle .promise false 0, .held 1, .cleaning 1,
      .handle .task false 1} : Multiset (Obj Unit)) by decide) (.leaf rfl rfl rfl) (by simp))
  exact ⟨_, _, _, _, h₅, by decide, by decide, .single ⟨_, rfl, rfl⟩, r₇, by decide⟩

end Futures

end PortableConcurrency
