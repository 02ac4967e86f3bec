import PortableConcurrency.Futures.Claims
import PortableConcurrency.Common.Table

/-!
# Tokens

The right to move the result out of a state is a token. It is with who
can still give the state's `future` away, then with that `future`, and
goes along when the `future` is captured by a continuation, becomes an
element of a combinator's sequence or is passed to a user's function. A
`shared_future` has none. No step of the library makes a second token of
a state, and reading a value with a token uses it up.
-/

namespace PortableConcurrency

namespace Futures

variable {V E F : Type*} {c c' : Config V E F} {e : Event V E F} {ty : ℕ → Bool}
variable {rem add rest : Multiset (Obj F)} {s t n : ℕ} {o : Obj F} {nd : Node V E F}

/-- Whether an object has the token of `t`. The states with `ty` have a
`future`, the others a `shared_future`. -/
def Obj.token (ty : ℕ → Bool) (t : ℕ) : Obj F → Bool
  | .handle _ owning s => owning && ty s && decide (s = t)
  | .future unique s => unique && decide (s = t)
  | .running _ a => a.unique && decide (a.parent = t)
  | .making w _ => w = t
  | _ => false

/-- How many tokens of `t` the captures of a continuation or the sequence
of a combinator have. -/
def Body.tokens (t : ℕ) : Body F → ℕ
  | .cnt _ (some a) => if a.unique = true ∧ a.parent = t then 1 else 0
  | .whenAll futures _ => futures.count (true, t)
  | .whenAny futures _ _ => futures.count (true, t)
  | _ => 0

/-- **The tokens of `t`.** -/
def tokens (ty : ℕ → Bool) (c : Config V E F) (t : ℕ) : ℕ :=
  tally (Obj.token ty t) c.objs + Table.total (fun _ nd => nd.body.tokens t) c.nodes c.fresh

/-- The state whose token an event uses up. -/
def Event.spends : Event V E F → Option ℕ
  | .take s => some s
  | .invoke _ a => if a.kind = .next ∧ a.unique = true then some a.parent else none
  | _ => none

/-- What a user gets from `get_future` and from the functions that make a
state is a `future`. -/
def Fits (ty : ℕ → Bool) : Event V E F → Prop
  | .newPromise s | .combine s _ | .getFuture s | .attach s _ => ty s = true
  | _ => True

/-- How many tokens of `t` that is. -/
def Event.spent (e : Event V E F) (t : ℕ) : ℕ := if e.spends = some t then 1 else 0

/-! ## What the steps do with tokens -/

/-- Each future of a sequence is a token. -/
theorem token_inputObjs (l : List Input) :
    tally (Obj.token ty t) (inputObjs l : Multiset (Obj F)) = l.count (true, t) := by
  induction l with
  | nil => rfl
  | cons f l ih =>
    have hcons : (inputObjs (f :: l) : Multiset (Obj F)) = .future f.1 f.2 ::ₘ inputObjs l := rfl
    obtain ⟨u, s⟩ := f
    rw [hcons, tally_cons, ih, List.count_cons]
    cases u <;> simp [Obj.token]

theorem token_sharedObjs (l : List Input) :
    tally (Obj.token ty t) (sharedObjs l : Multiset (Obj F)) = 0 := by
  rw [sharedObjs, token_inputObjs, List.count_eq_zero]
  simp

theorem token_keeps (a : Action F) : tally (Obj.token ty t) a.keeps = 0 := by
  refine tally_eq_zero fun o ho => ?_
  obtain ⟨-, -, rfl⟩ := mem_keeps.mp ho
  rfl

theorem token_cleanup (h : Caller) (n : ℕ) :
    tally (Obj.token ty t) (cleanup h n : Multiset (Obj F)) = 0 := tally_cleanup (fun _ => rfl) h n

theorem token_executeIf (b : Bool) (w : ℕ) :
    tally (Obj.token ty t) (executeIf b w : Multiset (Obj F)) = 0 := by
  simp [tally_executeIf, Obj.token]

theorem push_token (k : Closure) : (c.push n k : Obj F).token ty t = false := by
  unfold Config.push
  split <;> rfl

theorem unlink_token (o : Obj F) (n : ℕ) : (o.unlink n).token ty t = o.token ty t := by
  cases o with
  | linked t' k =>
    simp only [Obj.unlink]
    split <;> rfl
  | _ => rfl

/-- Cleaning only takes tokens away. -/
theorem Body.clean_tokens (h : Producer) (body : Body F) :
    (body.clean h).tokens t ≤ body.tokens t := by
  cases h <;> cases body <;> simp [Body.clean, Body.tokens]

theorem Body.notify_tokens (pos : ℕ) (body : Body F) :
    (body.notify pos).1.tokens t = body.tokens t := by
  cases body with
  | whenAny l flag index => cases flag <;> rfl
  | promise | task | cnt | whenAll => rfl

theorem Body.finish_tokens (body : Body F) : body.finish.1.tokens t = body.tokens t := by
  cases body <;> rfl

/-- A sequence that is moved out takes its tokens with it. -/
theorem Body.moveFutures_tokens (body : Body F) :
    body.moveFutures.tokens t + body.futures.count (true, t) = body.tokens t := by
  cases body <;> simp [Body.moveFutures, Body.futures, Body.tokens]

/-- A step that changes no node makes no token, and uses up those it spends. -/
theorem Move.tokens (hm : Move c e rem add) (hfits : Fits ty e) (t : ℕ) :
    tally (Obj.token ty t) add + e.spent t ≤ tally (Obj.token ty t) rem := by
  cases hm with
  | getFuture h s =>
    have hty : ty s = true := hfits
    simp [Obj.token, Event.spent, Event.spends, hty]
  | notify | detach | subscribe =>
    simp only [Multiset.insert_eq_cons, tally_cons, tally_singleton, push_token]
    simp [Event.spent, Event.spends, Obj.token]
  | peek s w nd =>
    simp [token_sharedObjs, Event.spent, Event.spends, Obj.token]
  | invokeNextShared s w a nd hk hu =>
    simp [token_sharedObjs, Event.spent, Event.spends, Obj.token, hu]
  | invokeNext s l a v hk =>
    cases hu : a.unique <;> simp [Event.spent, Event.spends, Obj.token, hu, hk]
  | invokeThen s a hk | invokeInterruptible s a hk =>
    simp [Event.spent, Event.spends, Obj.token, hk]
  | _ => simp [Event.spent, Event.spends, Obj.token]

/-- A new node has at most one token. -/
theorem Spawn.tokens (hs : Spawn c e rem nd add) (hfits : Fits ty e) (t : ℕ) :
    tally (Obj.token ty t) add + nd.body.tokens t + e.spent t ≤
      tally (Obj.token ty t) rem + if c.fresh = t ∧ ty t = true then 1 else 0 := by
  by_cases hf : c.fresh = t
  · subst hf
    cases hs with
    | newTask =>
      cases hty : ty c.fresh <;> simp [Obj.token, Body.tokens, Event.spent, Event.spends, hty]
    | newPromise | makePromise =>
      have hty : ty c.fresh = true := hfits
      simp [Obj.token, Body.tokens, Event.spent, Event.spends, hty]
    | attach a =>
      have hty : ty c.fresh = true := hfits
      simp only [tally_cons, tally_singleton, push_token, token_keeps]
      simp [Obj.token, Body.tokens, Event.spent, Event.spends, hty]
      omega
    | whenAll l | whenAny l =>
      have hty : ty c.fresh = true := hfits
      simp [token_inputObjs, Obj.token, Body.tokens, Event.spent, Event.spends, hty]
      omega
    | readySequence body hbody =>
      have hty : ty c.fresh = true := hfits
      rcases hbody with rfl | rfl <;>
        simp [Obj.token, Body.tokens, Event.spent, Event.spends, hty]
  · cases hs with
    | attach a =>
      simp only [tally_cons, tally_singleton, push_token, token_keeps]
      simp [Obj.token, Body.tokens, Event.spent, Event.spends, hf]
    | readySequence body hbody =>
      rcases hbody with rfl | rfl <;>
        simp [Obj.token, Body.tokens, Event.spent, Event.spends, hf]
    | _ => simp [token_inputObjs, Obj.token, Body.tokens, Event.spent, Event.spends, hf]

/-- Neither does one that stores a result. -/
theorem Settle.tokens {x : Storage V E} {clean : Body F → Body F}
    (hs : Settle c e rem s x clean add) (ty : ℕ → Bool) (body : Body F) (t : ℕ) :
    tally (Obj.token ty t) add + (clean body).tokens t + e.spent t ≤
      tally (Obj.token ty t) rem + body.tokens t := by
  cases hs with
  | abandon h =>
    have := Body.clean_tokens (t := t) h body
    simp [Event.spent, Event.spends]
    omega
  | ret h => simp [token_cleanup, Obj.token, Event.spent, Event.spends]
  | _ => simp [Obj.token, Event.spent, Event.spends]

/-- Neither does one that changes a body. -/
theorem Touch.tokens {body : Body F} (ht : Touch c e rem s nd body add) (ty : ℕ → Bool) (t : ℕ) :
    tally (Obj.token ty t) add + body.tokens t + e.spent t ≤
      tally (Obj.token ty t) rem + nd.body.tokens t := by
  cases ht with
  | abandon h =>
    have := Body.clean_tokens (t := t) h nd.body
    simp [Event.spent, Event.spends]
    omega
  | clean =>
    have := Body.clean_tokens (t := t) .task nd.body
    simp [Event.spent, Event.spends]
    omega
  | schedule t' s _ a hlock hb =>
    rw [hb]
    cases a <;> simp [Obj.token, Body.tokens, Event.spent, Event.spends]
  | run s _ exec a hlock hb =>
    rw [hb]
    simp [Obj.token, Body.tokens, Event.spent, Event.spends]
  | notify | register =>
    simp [token_executeIf, Body.notify_tokens, Obj.token, Event.spent, Event.spends]
  | finish =>
    simp [token_executeIf, Body.finish_tokens, Obj.token, Event.spent, Event.spends]
  | take =>
    have := Body.moveFutures_tokens (t := t) nd.body
    simp [token_inputObjs, Obj.token, Event.spent, Event.spends]
    omega
  | invokeNext s' w a _ hk hu =>
    have := Body.moveFutures_tokens (t := t) nd.body
    simp [token_inputObjs, Obj.token, Event.spent, Event.spends, hk, hu]
    omega

/-! ## Steps -/

/-- A node is overwritten. -/
theorem total_setNode (g : ℕ → Node V E F → ℕ) (nd' : Node V E F) (h : Wf c)
    (hn : c.nodes s = some nd) :
    Table.total g (c.setNode s nd') c.fresh + g s nd = Table.total g c.nodes c.fresh + g s nd' :=
  Table.total_update (h.bound s nd hn) hn nd'

/-- **No step makes a second token**, and one that reads a value with a
token uses it up. -/
theorem Step.tokens (hst : Step c e c') (h : Wf c) (hfits : Fits ty e) (t : ℕ) :
    tokens ty c' t + e.spent t ≤ tokens ty c t + if c.fresh = t ∧ ty t = true then 1 else 0 := by
  unfold Futures.tokens
  cases hst with
  | move hm ho =>
    have := hm.tokens hfits t
    simp only [ho, tally_add]
    omega
  | @spawn _ rem add rest nd hs ho =>
    have htok := hs.tokens hfits t
    have hpush := Table.total_push (fun _ nd => nd.body.tokens t) c.nodes c.fresh nd
    simp only [Config.setNode, hpush]
    rw [ho, tally_add, tally_add]
    omega
  | @settle _ rem add rest s x clean nd hs ho hn =>
    have htok := hs.tokens ty nd.body t
    have hset := total_setNode (fun _ nd => nd.body.tokens t)
      { nd with storage := x, body := clean nd.body } h hn
    simp only [ho, tally_cons, tally_add, Obj.token] at *
    simp
    omega
  | @unwrap g s t' u rest nd ho hn =>
    have hset := total_setNode (fun _ nd => nd.body.tokens t) { nd with storage := .inner t' } h hn
    simp only [ho, tally_cons, tally_add, Obj.token, token_cleanup] at *
    simp [Event.spent, Event.spends]
    omega
  | @touch _ rem add rest s nd body ht ho hn =>
    have htok := ht.tokens ty t
    have hset := total_setNode (fun _ nd => nd.body.tokens t) { nd with body := body } h hn
    simp only [ho, tally_add] at *
    omega
  | @execute s rest nd ho hn =>
    have hset := total_setNode (fun _ nd => nd.body.tokens t) { nd with executed := true } h hn
    have hmap : tally (Obj.token ty t) (rest.map (Obj.unlink s)) = tally (Obj.token ty t) rest :=
      tally_map_of _ (fun o => unlink_token o s) rest
    simp only [ho, tally_cons, tally_add, hmap] at *
    simp [Obj.token, Event.spent, Event.spends]
    omega
  | @destroy s nd hn =>
    have hobjs := tally_filter_le (fun o : Obj F => ¬ o.isLinked s) (Obj.token ty t) c.objs
    have hnodes := Table.total_erase_le (fun _ nd => nd.body.tokens t) c.nodes c.fresh s
    have hspent : (Event.destroy s : Event V E F).spent t = 0 := rfl
    simp only [hspent]
    omega

/-! ## Inner states -/

/-- Whether a storage refers to `t`. -/
def Storage.isInner (t : ℕ) : Storage V E → Bool
  | .inner n => n = t
  | _ => false

@[simp] theorem isInner_inner : (Storage.inner n : Storage V E).isInner t = decide (n = t) := rfl

/-- How many states with a `future` have been unwrapped onto `t`. -/
def arrows (ty : ℕ → Bool) (c : Config V E F) (t : ℕ) : ℕ :=
  Table.total (fun m nd => if ty m = true ∧ nd.storage.isInner t = true then 1 else 0)
    c.nodes c.fresh

/-- What is stored directly refers to no state. -/
theorem Settle.isInner {x : Storage V E} {clean : Body F → Body F}
    (hs : Settle c e rem s x clean add) : x.isInner t = false := by
  cases hs with
  | ret h s r => cases r <;> rfl
  | _ => rfl

/-- Only `unwrap` adds an arrow. -/
theorem Step.arrows (hst : Step c e c') (h : Wf c) (hne : ∀ g s n, e ≠ .unwrap g s n) (t : ℕ) :
    arrows ty c' t ≤ arrows ty c t := by
  unfold Futures.arrows
  have hset : ∀ {s nd nd'}, c.nodes s = some nd →
      (nd'.storage.isInner t = true → nd.storage.isInner t = true) →
      Table.total (fun m nd => if ty m = true ∧ nd.storage.isInner t = true then 1 else 0)
        (c.setNode s nd') c.fresh ≤
      Table.total (fun m nd => if ty m = true ∧ nd.storage.isInner t = true then 1 else 0)
        c.nodes c.fresh := by
    intro s nd nd' hn himp
    have := total_setNode
      (fun m nd => if ty m = true ∧ nd.storage.isInner t = true then 1 else 0) nd' h hn
    by_cases hnew : ty s = true ∧ nd'.storage.isInner t = true
    · have hold := And.intro hnew.1 (himp hnew.2)
      simp only [hnew, hold] at this
      omega
    · simp only [hnew] at this
      simp at this
      omega
  cases hst with
  | move => exact le_rfl
  | @spawn _ rem add rest nd hs ho =>
    have hempty : nd.storage.isInner t = false := by cases hs <;> rfl
    simp only [Config.setNode, Table.total_push]
    simp [hempty]
  | settle hs ho hn =>
    refine hset hn fun hin => ?_
    rw [hs.isInner] at hin
    cases hin
  | unwrap => exact absurd rfl (hne _ _ _)
  | touch ht ho hn => exact hset hn id
  | execute ho hn => exact hset hn id
  | destroy => exact Table.total_erase_le _ _ _ _

/-! ## New states -/

theorem Obj.token_names (h : o.token ty t = true) : t ∈ o.names := by
  unfold Obj.token at h
  split at h <;> simp_all [Obj.names]

theorem Body.tokens_refs {body : Body F} (h : 0 < body.tokens t) : t ∈ body.refs := by
  unfold Body.tokens at h
  split at h
  · split at h
    · rename_i ha
      simp [Body.refs, ha.2]
    · omega
  · exact List.mem_map_of_mem (List.count_pos_iff.mp h)
  · exact List.mem_map_of_mem (List.count_pos_iff.mp h)
  · omega

/-- A state that is not there yet has no token, and nothing was unwrapped
onto it. -/
theorem Wf.tokens_fresh (h : Wf c) (ty : ℕ → Bool) :
    tokens ty c c.fresh + arrows ty c c.fresh = 0 := by
  have hrefs : ∀ m nd, c.nodes m = some nd → c.fresh ∉ nd.refs :=
    fun m nd hn hmem => h.not_owned_fresh (.inr ⟨m, nd, hn, hmem⟩)
  have hobjs : tally (Obj.token ty c.fresh) c.objs = 0 := by
    refine tally_eq_zero fun o ho => ?_
    by_contra hne
    exact lt_irrefl _ (h.names o ho _ (Obj.token_names (by simpa using hne)))
  have hbodies : Table.total (fun _ nd => nd.body.tokens c.fresh) c.nodes c.fresh = 0 := by
    refine Table.total_eq_zero fun m nd hn => ?_
    by_contra hne
    exact hrefs m nd hn (List.mem_append_right _ (Body.tokens_refs (by omega)))
  have harrows : arrows ty c c.fresh = 0 := by
    refine Table.total_eq_zero fun m nd hn => ?_
    rw [if_neg]
    rintro ⟨-, hin⟩
    refine hrefs m nd hn (List.mem_append_left _ ?_)
    cases hs : nd.storage with
    | inner k =>
      rw [hs] at hin
      obtain rfl : k = c.fresh := by simpa [Storage.isInner] using hin
      simp [Storage.refs]
    | empty | value | exception =>
      rw [hs] at hin
      cases hin
  unfold tokens
  omega

/-- Objects are replaced by others that name nodes the old ones own. -/
theorem Wf.replace {objs : Multiset (Obj F)} (h : Wf c) (add : Multiset (Obj F))
    (ho : c.objs = rem + rest) (hobjs : objs = add + rest)
    (hadd : ∀ o ∈ add, ∀ n ∈ o.names, ∃ o' ∈ rem, n ∈ o'.refs) :
    Wf { c with objs := objs } := by
  subst hobjs
  have howned : ∀ o ∈ add, ∀ n ∈ o.names, Owned c n := fun o hmem n hn => by
    obtain ⟨o', hmem', hn'⟩ := hadd o hmem n hn
    exact owned_of_mem ho hmem' hn'
  refine ⟨fun n hn => ?_, h.bound, fun o hmem n hn => ?_⟩
  · rcases hn with ⟨o, hmem, hn⟩ | hn
    · rcases Multiset.mem_add.mp hmem with hmem | hmem
      · exact h.alive n (howned o hmem n (Obj.refs_subset_names hn))
      · exact h.alive n (owned_of_rest ho hmem hn)
    · exact h.alive n (.inr hn)
  · rcases Multiset.mem_add.mp hmem with hmem | hmem
    · exact h.owned_lt (howned o hmem n hn)
    · exact h.names_of_rest ho hmem hn

end Futures

end PortableConcurrency
