import PortableConcurrency.Futures.Claims

/-!
# Unwrapped states

`unwrap` stores the inner state and leaves a callback on it; the callback
closes the list of the outer one. A state that is unwrapped is therefore
closed after the inner one, which is why reading a result comes to an end.

All this rests on one proviso. `unwrap` does not look whether the storage
is empty, as `emplace` and `set_exception` do, and a `packaged_task` that
is called again from its own function can have been given a result by
then.
-/

namespace PortableConcurrency

namespace Futures

variable {V E F : Type*} {c c' : Config V E F} {e : Event V E F}
variable {rem add rest : Multiset (Obj F)} {s t n : ℕ} {o : Obj F} {nd nd' : Node V E F}

/-- **A task's function that returns a future returns it to a state that
has no result yet.** -/
def FirstResult (c : Config V E F) (e : Event V E F) : Prop :=
  ∀ s t nd, e = .unwrap .task s t → c.nodes s = some nd → nd.storage = .empty

/-- Under the proviso, every `unwrap` finds an empty storage: of a
continuation it does in any case. -/
theorem Inv.unwrap_empty (h : Inv c) (hok : FirstResult c e) {g : Caller} {u : Bool}
    (he : e = .unwrap g s t) (ho : c.objs = {.invoked g s, .future u t} + rest)
    (hn : c.nodes s = some nd) : nd.storage = .empty := by
  cases g with
  | task => exact hok s t nd he hn
  | cnt => exact (h.claimed.pending (.invoked .cnt s) (mem_of_rem ho (by simp)) nd hn).1

/-- **What was stored stays**, alternative and target. -/
theorem Step.storage_eq (h : Inv c) (hok : FirstResult c e) (hst : Step c e c')
    (hn : c.nodes n = some nd) (hn' : c'.nodes n = some nd') (hs : nd.storage ≠ .empty) :
    nd'.storage = nd.storage := by
  cases hst.node hn' with
  | same hm => rw [Option.some.inj (hn.symm.trans hm)]
  | spawn hf =>
    subst hf
    exact absurd (h.wf.bound _ _ hn) (lt_irrefl _)
  | settle hm hempty =>
    obtain rfl := Option.some.inj (hn.symm.trans hm)
    exact absurd hempty hs
  | unwrap hm he ho =>
    obtain rfl := Option.some.inj (hn.symm.trans hm)
    exact absurd (h.unwrap_empty hok he ho hn) hs
  | touch hm | execute hm => rw [Option.some.inj (hn.symm.trans hm)]

/-- If `s` is alive it has been unwrapped onto `t`. -/
def Onto (c : Config V E F) (s t : ℕ) : Prop := ∀ nd, c.nodes s = some nd → nd.storage = .inner t

/-- If `s` is alive and has been unwrapped, the inner state is ready. -/
def InnerReady (c : Config V E F) (s : ℕ) : Prop :=
  ∀ nd t, c.nodes s = some nd → nd.body.kind ≠ .combinator → nd.storage = .inner t →
    c.isExecuted t = true

/-- **The way from the `unwrap` to the closing of the list.** -/
def Obj.Unwrapping (c : Config V E F) : Obj F → Prop
  | .subscribing s t => Onto c s t
  | .linked t (.unwrapCb s) => Onto c s t
  | .queued t (.unwrapCb s) => Onto c s t
  | .execute s => InnerReady c s
  | _ => True

/-- **A state that was unwrapped is closed after the inner one.** -/
structure Unwrapped (c : Config V E F) : Prop where
  objs : ∀ o ∈ c.objs, o.Unwrapping c
  nodes : ∀ n, c.isExecuted n = true → InnerReady c n

theorem unwrapped_init : Unwrapped (init : Config V E F) := by
  constructor <;> simp [init, Config.isExecuted]

/-- Nobody destroys an inner state. -/
theorem Wf.inner_alive (h : Wf c) (hn : c.nodes s = some nd) (hs : nd.storage = .inner t) :
    ∃ ndt, c.nodes t = some ndt :=
  h.alive t (.inr ⟨s, nd, hn, List.mem_append_left _ (by simp [hs, Storage.refs])⟩)

/-- A state stays unwrapped onto the same state. -/
theorem Onto.step (h : Inv c) (hok : FirstResult c e) (hst : Step c e c') (hlt : s < c.fresh)
    (ht : Onto c s t) : Onto c' s t := by
  intro nd' hn'
  obtain ⟨nd, hn⟩ := hst.old hlt hn'
  rw [hst.storage_eq h hok hn hn' (by simp [ht nd hn]), ht nd hn]

/-- **What a ready state was unwrapped onto stays ready.** -/
theorem InnerReady.step (h : Inv c) (hok : FirstResult c e) (hst : Step c e c')
    (hlt : s < c.fresh) (hres : HasResult c s) (hr : InnerReady c s) : InnerReady c' s := by
  intro nd' t hn' hk hs
  obtain ⟨nd, hn⟩ := hst.old hlt hn'
  rw [(hst.node_le h.wf hn hn').kind] at hk
  rw [hst.storage_eq h hok hn hn' (hres nd hn hk)] at hs
  obtain ⟨ndt', ht'⟩ := (h.wf.step hst).inner_alive hn'
    (by rw [hst.storage_eq h hok hn hn' (hres nd hn hk), hs])
  rw [isExecuted_eq ht']
  exact hst.isExecuted h.wf (hr nd t hn hk hs) ht'

/-- What an object says about an inner state stays true. -/
theorem Obj.Unwrapping.step (h : Inv c) (hok : FirstResult c e) (hst : Step c e c')
    (hlt : ∀ n ∈ o.names, n < c.fresh) (hres : o.Stored c) (hs : o.Unwrapping c) :
    o.Unwrapping c' := by
  cases o with
  | execute s => exact InnerReady.step h hok hst (hlt s (by simp [Obj.names])) hres hs
  | subscribing s t => exact Onto.step h hok hst (hlt s (by simp [Obj.names])) hs
  | linked t k | queued t k =>
    cases k with
    | unwrapCb s =>
      exact Onto.step h hok hst (hlt s (by simp [Obj.names, Closure.names])) hs
    | _ => trivial
  | _ => trivial

/-- A callback is pushed onto the list of the inner state. -/
theorem push_unwrapping {k : Closure} (hk : ∀ s, k = .unwrapCb s → Onto c s t) :
    (c.push t k : Obj F).Unwrapping c := by
  unfold Config.push
  split <;> cases k <;> first | trivial | exact hk _ rfl

theorem inputObjs_unwrapping {l : List Input} (h : o ∈ inputObjs l) : o.Unwrapping c := by
  obtain ⟨f, -, rfl⟩ := mem_inputObjs.mp h
  trivial

/-- A combinator is not unwrapped. -/
theorem HasKind.innerReady (h : HasKind c n .combinator) : InnerReady c n :=
  fun nd _ hn hk => absurd (h nd hn) hk

/-- A step that changes no node adds only objects that are right about inner
states. -/
theorem Move.unwrapping (hm : Move c e rem add) (h : Wf c) (hk : ∀ o ∈ rem, o.Kinded c)
    (hs : ∀ o ∈ rem, o.Unwrapping c) (hmem : o ∈ add) : o.Unwrapping c := by
  cases hm with
  | peek =>
    simp only [Multiset.mem_cons] at hmem
    rcases hmem with rfl | hmem
    · trivial
    · exact inputObjs_unwrapping hmem
  | invokeNextShared =>
    simp only [Multiset.mem_cons] at hmem
    rcases hmem with rfl | rfl | hmem
    · trivial
    · trivial
    · exact inputObjs_unwrapping hmem
  | notify u s | detach u s =>
    simp only [Multiset.insert_eq_cons, Multiset.mem_cons, Multiset.mem_singleton] at hmem
    rcases hmem with rfl | rfl
    · trivial
    · exact push_unwrapping (by simp)
  | subscribe s t =>
    simp only [Multiset.insert_eq_cons, Multiset.mem_cons, Multiset.mem_singleton] at hmem
    rcases hmem with rfl | rfl
    · trivial
    · refine push_unwrapping fun s' hs' => ?_
      cases hs'
      exact hs (.subscribing s t) (by simp)
  | callUnwrap t s =>
    have honto : Onto c s t := hs (.queued t (.unwrapCb s)) (by simp)
    have hclosed : Closed c t := (hk (.queued t (.unwrapCb s)) (by simp)).2
    simp only [Multiset.insert_eq_cons, Multiset.mem_cons, Multiset.mem_singleton] at hmem
    rcases hmem with rfl | rfl
    · trivial
    · intro nd t' hn _ ht'
      obtain ⟨ndt, ht⟩ := h.inner_alive hn (honto nd hn)
      rw [honto nd hn] at ht'
      cases ht'
      rw [isExecuted_eq ht]
      exact hclosed ndt ht
  | _ =>
    simp_all
    try grind [Obj.Unwrapping]

theorem Spawn.unwrapping (hs : Spawn c e rem nd add) (hmem : o ∈ add) : o.Unwrapping c' := by
  cases hs with
  | attach a =>
    simp only [Multiset.mem_cons, mem_keeps] at hmem
    rcases hmem with rfl | rfl | ⟨-, -, rfl⟩
    · trivial
    · unfold Config.push
      split <;> trivial
    · trivial
  | _ =>
    simp_all
    grind [Obj.Unwrapping]

/-- So does one that stores a result. -/
theorem Settle.unwrapping {x : Storage V E} {clean : Body F → Body F}
    (hs : Settle c e rem s x clean add) (hmem : o ∈ add) : o.Unwrapping c := by
  cases hs with
  | ret g s r =>
    obtain ⟨-, rfl⟩ := mem_cleanup.mp hmem
    trivial
  | _ => simp_all [Obj.Unwrapping]

/-- So does one that changes a body. -/
theorem Touch.unwrapping {body : Body F} (ht : Touch c e rem s nd body add)
    (hk : ∀ o ∈ rem, o.Kinded c) (hmem : o ∈ add) : o.Unwrapping c := by
  cases ht with
  | notify t w pos =>
    have hq : HasKind c s .combinator := (hk (.queued t (.combine s pos)) (by simp)).1
    simp only [Multiset.mem_cons, mem_executeIf] at hmem
    rcases hmem with rfl | ⟨-, rfl⟩
    · trivial
    · exact hq.innerReady
  | register w i =>
    have hw : HasKind c s .combinator := hk (.making s i) (by simp)
    simp only [Multiset.mem_cons, mem_executeIf] at hmem
    rcases hmem with rfl | rfl | ⟨-, rfl⟩
    · trivial
    · trivial
    · exact hw.innerReady
  | finish w i =>
    have hw : HasKind c s .combinator := hk (.making s i) (by simp)
    simp only [Multiset.mem_cons, mem_executeIf] at hmem
    rcases hmem with rfl | ⟨-, rfl⟩
    · trivial
    · exact hw.innerReady
  | take =>
    simp only [Multiset.mem_cons] at hmem
    rcases hmem with rfl | hmem
    · trivial
    · exact inputObjs_unwrapping hmem
  | invokeNext =>
    simp only [Multiset.mem_cons] at hmem
    rcases hmem with rfl | rfl | hmem
    · trivial
    · trivial
    · exact inputObjs_unwrapping hmem
  | _ => simp_all <;> grind [Obj.Unwrapping]

/-- A list is closed only after that of the inner state. -/
theorem Unwrapped.nodes_step (h : Inv c) (hok : FirstResult c e) (hu : Unwrapped c)
    (hst : Step c e c') : ∀ n, c'.isExecuted n = true → InnerReady c' n := by
  intro n hex
  obtain ⟨nd', hn', hex'⟩ := node_of_isExecuted hex
  have hold : ∀ nd, c.nodes n = some nd → nd.executed = true → InnerReady c' n := by
    intro nd hn hex
    rw [← isExecuted_eq hn] at hex
    exact (hu.nodes n hex).step h hok hst (h.wf.bound n _ hn) (h.stored.nodes n hex)
  cases hst.node hn' with
  | spawn hf hsp ho =>
    cases hsp with
    | readySequence body hbody =>
      intro nd t hn hk
      obtain rfl := Option.some.inj (hn.symm.trans hn')
      rcases hbody with rfl | rfl <;> exact absurd rfl hk
    | _ => simp at hex'
  | same hn => exact hold _ hn hex'
  | settle hn | unwrap hn | touch hn => exact hold _ hn hex'
  | execute hn he ho =>
    have hmem := mem_of_rem (o := .execute n) ho (by simp)
    exact InnerReady.step h hok hst (h.wf.bound n _ hn) (h.stored.objs _ hmem) (hu.objs _ hmem)

/-- **The step lemma.** -/
theorem Unwrapped.step (h : Inv c) (hok : FirstResult c e) (hu : Unwrapped c)
    (hst : Step c e c') : Unwrapped c' := by
  refine ⟨?_, hu.nodes_step h hok hst⟩
  have hnew : ∀ {o : Obj F}, o.Unwrapping c → o.Stored c → (∀ n ∈ o.names, n < c.fresh) →
      o.Unwrapping c' := fun hs hres hlt => Obj.Unwrapping.step h hok hst hlt hres hs
  have hold : ∀ o ∈ c.objs, o.Unwrapping c' := fun o ho =>
    hnew (hu.objs o ho) (h.stored.objs o ho) (h.wf.names o ho)
  have hkind : ∀ {rem rest : Multiset (Obj F)}, c.objs = rem + rest → ∀ o ∈ rem, o.Kinded c :=
    fun ho o hr => h.lists.kinded o (mem_of_rem ho hr)
  refine hst.forall_objs hold ?_ ?_ ?_ ?_ ?_ ?_
  · intro rem add rest hm ho o hmem
    refine hnew ?_ ?_ fun n hn => h.wf.move_names hm ho hmem hn
    · exact hm.unwrapping h.wf (hkind ho) (fun o hr => hu.objs o (mem_of_rem ho hr)) hmem
    · exact hm.stored (fun o hr => h.stored.objs o (mem_of_rem ho hr)) hmem
  · exact fun hsp _ _ o hmem => hsp.unwrapping hmem
  · intro rem add rest s x clean nd hse ho hnd hnd'
    refine ⟨fun nd' t hn' _ ht => ?_, fun o hmem => ?_⟩
    · -- a result that is stored by itself is no inner state
      rw [hnd'] at hn'
      obtain rfl := Option.some.inj hn'
      have hrefs := hse.storage_refs
      rw [show x = .inner t from ht] at hrefs
      cases hrefs
    · exact hnew (hse.unwrapping hmem) (hse.stored hmem) fun n hn =>
        h.wf.settle_names hse ho hmem hn
  · intro g s t u rest nd _ ho hnd hnd'
    refine ⟨fun nd' hn' => ?_, fun _ => trivial⟩
    rw [hnd'] at hn'
    rw [← Option.some.inj hn']
  · intro rem add rest s nd body ht ho hnd o hmem
    exact hnew (ht.unwrapping (hkind ho) hmem) (ht.stored (hkind ho) hmem) fun n hn =>
      h.wf.touch_names ht ho hnd hmem hn
  · intro s rest nd _ ho hnd hnd'
    refine ⟨trivial, fun k hk => ?_⟩
    have hk' : (Obj.linked s k : Obj F).Unwrapping c' := hold _ hk
    cases k <;> exact hk'

/-! ## One signal -/

/-- Whether an object is on its way to close the list of `s`. -/
def Obj.signals (s : ℕ) : Obj F → Bool
  | .execute n => n = s
  | .subscribing n _ => n = s
  | .linked _ (.unwrapCb n) => n = s
  | .queued _ (.unwrapCb n) => n = s
  | _ => false

@[simp] theorem signals_inputObjs (l : List Input) :
    tally (Obj.signals s) (inputObjs l : Multiset (Obj F)) = 0 := tally_inputObjs (fun _ _ => rfl) l

@[simp] theorem signals_sharedObjs (l : List Input) :
    tally (Obj.signals s) (sharedObjs l : Multiset (Obj F)) = 0 :=
  tally_inputObjs (fun _ _ => rfl) _

@[simp] theorem signals_keeps (a : Action F) : tally (Obj.signals s) a.keeps = 0 :=
  tally_keeps (fun _ _ => rfl) a

@[simp] theorem signals_cleanup (h : Caller) (n : ℕ) :
    tally (Obj.signals s) (cleanup h n : Multiset (Obj F)) = 0 := tally_cleanup (fun _ => rfl) h n

theorem signals_unlink (o : Obj F) (t : ℕ) : (o.unlink t).signals s = o.signals s := by
  cases o with
  | linked t' k =>
    simp only [Obj.unlink]
    split <;> cases k <;> rfl
  | _ => rfl

/-- A callback signals whether it is linked or queued. -/
theorem push_signals (k : Closure) :
    (c.push t k : Obj F).signals s = (Obj.linked t k : Obj F).signals s := by
  unfold Config.push
  split <;> cases k <;> rfl

/-- `1` when there is a result. -/
def Storage.filled : Storage V E → ℕ
  | .empty => 0
  | _ => 1

/-- **A state with a result is closed, or is going to be, once.** -/
def Signalled (c : Config V E F) : Prop :=
  ∀ s nd, Owned c s → c.nodes s = some nd → nd.body.kind ≠ .combinator →
    tally (Obj.signals s) c.objs + (if nd.executed then 1 else 0) = nd.storage.filled

/-- The signals to a state that has an owner are as many as before. -/
theorem Move.signals (hm : Move c e rem add) (hs : Owned c s) :
    tally (Obj.signals s) add = tally (Obj.signals s) rem := by
  cases hm with
  | callPlain t k hk => rcases hk with rfl | ⟨_, rfl⟩ <;> simp [Obj.signals]
  | callExpired t s' k hk hexp =>
    rcases hk with rfl | rfl
    · simp [Obj.signals]
    · have hne : s' ≠ s := by
        rintro rfl
        exact hexp hs
      simp [Obj.signals, hne]
  | notify | detach | subscribe =>
    simp only [Multiset.insert_eq_cons, tally_cons, tally_singleton, push_signals]
    simp [Obj.signals]
  | _ => simp [Obj.signals]

/-- So they are when a result is stored. -/
theorem Settle.signals {x : Storage V E} {clean : Body F → Body F}
    (hs : Settle c e rem n x clean add) :
    tally (Obj.signals s) add = tally (Obj.signals s) rem := by
  cases hs <;> simp [Obj.signals]

/-- So they are when a node is made. -/
theorem Spawn.signals (hs : Spawn c e rem nd add) :
    tally (Obj.signals s) add = tally (Obj.signals s) rem := by
  cases hs with
  | attach a =>
    simp only [tally_cons, push_signals]
    simp [Obj.signals]
  | _ => simp [Obj.signals]

/-- A body changes without a signal, except that of a combinator. -/
theorem Touch.signals {body : Body F} (ht : Touch c e rem n nd body add)
    (hs : n = s → nd.body.kind ≠ .combinator) (hk : ∀ o ∈ rem, o.Kinded c)
    (hn : c.nodes n = some nd) :
    tally (Obj.signals s) add = tally (Obj.signals s) rem := by
  have hne : nd.body.kind = .combinator → n ≠ s := fun hc hns => hs hns hc
  cases ht with
  | notify t w pos =>
    have hw := hne ((hk (.queued t (.combine n pos)) (by simp)).1 nd hn)
    simp [Obj.signals, tally_executeIf, hw]
  | register w i =>
    have hw := hne (hk (.making n i) (by simp) nd hn)
    simp [Obj.signals, tally_executeIf, hw]
  | finish w i =>
    have hw := hne (hk (.making n i) (by simp) nd hn)
    simp [Obj.signals, tally_executeIf, hw]
  | _ => simp [Obj.signals]

theorem signalled_init : Signalled (init : Config V E F) := by
  intro s nd _ hn
  simp [init] at hn

theorem Obj.signals_names (h : o.signals s = true) : s ∈ o.names := by
  unfold Obj.signals at h
  split at h <;> simp_all [Obj.names, Closure.names]

/-- Nothing is on its way to a state that is not made yet. -/
theorem Wf.signals_fresh (h : Wf c) : tally (Obj.signals c.fresh) c.objs = 0 := by
  refine tally_eq_zero fun o ho => ?_
  by_contra hs
  have := h.names o ho _ (Obj.signals_names (by simpa using hs))
  omega

theorem Settle.filled {x : Storage V E} {clean : Body F → Body F}
    (hs : Settle c e rem n x clean add) : x.filled = 1 := by
  cases hs with
  | ret g s r => cases r <;> rfl
  | _ => rfl

/-- **The step lemma.** -/
theorem Signalled.step (h : Inv c) (hok : FirstResult c e) (hu : Unwrapped c) (hs : Signalled c)
    (hst : Step c e c') : Signalled c' := by
  intro s nd' howned' hn' hk'
  have hst' := hst
  have hkind : ∀ {rem rest : Multiset (Obj F)}, c.objs = rem + rest → ∀ o ∈ rem, o.Kinded c :=
    fun ho o hr => h.lists.kinded o (mem_of_rem ho hr)
  -- the count before the step, of a state that was there
  have hbefore : ∀ {nd : Node V E F}, c.nodes s = some nd → nd.body.kind ≠ .combinator →
      tally (Obj.signals s) c.objs + (if nd.executed then 1 else 0) = nd.storage.filled := by
    intro nd hn hk
    refine hs s nd ((hst.owned howned').resolve_right ?_) hn hk
    rintro ⟨rfl, -⟩
    exact lt_irrefl _ (h.wf.bound _ _ hn)
  have howned : s ≠ c.fresh → Owned c s := fun hne =>
    (hst.owned howned').resolve_right fun hf => hne hf.1
  cases hst with
  | @move _ rem add rest hm ho =>
    have hlt := h.wf.bound s nd' hn'
    have hcount := hbefore hn' hk'
    rw [ho, tally_add, ← hm.signals (howned (by omega))] at hcount
    simpa using hcount
  | @spawn _ rem add rest nd hsp ho =>
    simp only [tally_add, hsp.signals]
    rw [← tally_add, ← ho]
    obtain ⟨rfl, rfl⟩ | ⟨-, hn⟩ := setNode_eq hn'
    · rw [h.wf.signals_fresh]
      cases hsp with
      | readySequence body hbody =>
        rcases hbody with rfl | rfl <;> exact absurd rfl hk'
      | _ => rfl
    · exact hbefore hn hk'
  | @settle _ rem add rest n x clean nd hse ho hnd hempty =>
    simp only [tally_cons, tally_add, hse.signals]
    rw [← tally_add, ← ho]
    obtain ⟨rfl, rfl⟩ | ⟨hne, hn⟩ := setNode_eq hn'
    · have hcount := hbefore hnd (by rwa [← hse.kind nd.body])
      simp only [hempty, Storage.filled] at hcount
      simp only [Obj.signals, hse.filled]
      simp
      omega
    · have hcount := hbefore hn hk'
      simpa [Obj.signals, Ne.symm hne] using hcount
  | @unwrap g n t u rest nd ho hnd =>
    have hcount : ∀ {nd}, c.nodes s = some nd → nd.body.kind ≠ .combinator →
        tally (Obj.signals s) rest + (if nd.executed then 1 else 0) = nd.storage.filled := by
      intro nd hn hk
      have hcount := hbefore hn hk
      rw [ho] at hcount
      simpa [Obj.signals] using hcount
    obtain ⟨rfl, rfl⟩ | ⟨hne, hn⟩ := setNode_eq hn'
    · have hcount := hcount hnd hk'
      rw [h.unwrap_empty hok rfl ho hnd] at hcount
      simp only [Storage.filled] at hcount
      simp [Obj.signals, Storage.filled]
      omega
    · simpa [Obj.signals, Ne.symm hne] using hcount hn hk'
  | @touch _ rem add rest n nd body ht ho hnd =>
    simp only [tally_add]
    rw [ht.signals (s := s) ?_ (hkind ho) hnd, ← tally_add, ← ho]
    · obtain ⟨rfl, rfl⟩ | ⟨-, hn⟩ := setNode_eq hn'
      · have hcount := hbefore hnd (ht.kind ▸ hk')
        exact hcount
      · exact hbefore hn hk'
    · rintro rfl
      obtain ⟨-, rfl⟩ | ⟨hne, -⟩ := setNode_eq hn'
      · exact ht.kind ▸ hk'
      · exact absurd rfl hne
  | @execute n rest nd ho hnd =>
    simp only [tally_cons, tally_map_of _ (fun o => signals_unlink o n) rest]
    have hcount : ∀ {nd}, c.nodes s = some nd → nd.body.kind ≠ .combinator →
        tally (Obj.signals s) rest + (if n = s then 1 else 0) + (if nd.executed then 1 else 0) =
          nd.storage.filled := by
      intro nd hn hk
      have hcount := hbefore hn hk
      rw [ho] at hcount
      simpa [Obj.signals] using hcount
    obtain ⟨rfl, rfl⟩ | ⟨hne, hn⟩ := setNode_eq hn'
    · have hcount := hcount hnd hk'
      have hle : nd.storage.filled ≤ 1 := by cases nd.storage <;> simp [Storage.filled]
      simp [Obj.signals] at hcount ⊢
      split at hcount <;> omega
    · simpa [Obj.signals, Ne.symm hne] using hcount hn hk'
  | @destroy n nd hnd hun =>
    have hns : s ≠ n := by
      rintro rfl
      simp at hn'
    have hn : c.nodes s = some nd' := by simpa [hns] using hn'
    simp only
    rw [tally_filter_of]
    · exact hbefore hn hk'
    -- the callbacks that go with the list of `n` are of nobody's state
    · intro o hmem ho hl
      cases o with
      | linked t k =>
        obtain rfl : t = n := by simpa [Obj.isLinked] using hl
        cases k with
        | unwrapCb s' =>
          obtain rfl : s' = s := by simpa [Obj.signals] using ho
          have honto : Onto c s' t := hu.objs _ hmem
          refine hun (.inr ⟨s', nd', hn, List.mem_append_left _ ?_⟩)
          simp [honto nd' hn, Storage.refs]
        | _ => simp [Obj.signals] at ho
      | _ => simp [Obj.isLinked] at hl

/-! ## Results stand -/

/-- What is read depends on the storage and on the kind. -/
theorem Node.outcome_eq (hs : nd'.storage = nd.storage)
    (hbody : nd'.body.isCombinator = nd.body.isCombinator) : nd'.outcome = nd.outcome := by
  rw [Node.outcome, Node.outcome, hs, hbody]

/-- What a state has itself, it keeps. -/
theorem Step.outcome {x : Outcome V E} (h : Inv c) (hok : FirstResult c e) (hst : Step c e c')
    (hn : c.nodes n = some nd) (hn' : c'.nodes n = some nd') (hx : nd.outcome = some x) :
    nd'.outcome = some x := by
  have hbody := (hst.node_le h.wf hn hn').isCombinator
  by_cases hcomb : nd.body.isCombinator = true
  · rw [Node.outcome, if_pos hcomb] at hx
    rw [Node.outcome, if_pos (hbody.trans hcomb), hx]
  · have hs : nd.storage ≠ .empty := by
      intro hs
      rw [Node.outcome, if_neg hcomb, hs] at hx
      cases hx
    rw [Node.outcome_eq (hst.storage_eq h hok hn hn' hs) hbody, hx]

/-- **A state that is alive keeps what it resolves to**, at the same
place. -/
theorem Resolves.step {l : ℕ} {x : Outcome V E} (h : Inv c) (hok : FirstResult c e)
    (hst : Step c e c') (hx : Resolves c s l x) (hn' : c'.nodes s = some nd') :
    Resolves c' s l x := by
  induction hx generalizing nd' with
  | leaf hn hex hout =>
    exact .leaf hn' ((hst.node_le h.wf hn hn').executed hex) (hst.outcome h hok hn hn' hout)
  | @inner s t l nd x hn hex hbody hs ht ih =>
    have hle := hst.node_le h.wf hn hn'
    have hs' := (hst.storage_eq h hok hn hn' (by simp [hs])).trans hs
    -- the inner state lives on, since the outer one refers to it
    obtain ⟨ndt', ht'⟩ := (h.wf.step hst).inner_alive hn' hs'
    exact .inner hn' (hle.executed hex) (by rw [hle.isCombinator, hbody]) hs' (ih ht')

/-- **What holds of the runs that keep to the proviso.** -/
structure Steady (c : Config V E F) : Prop extends Inv c where
  unwrapped : Unwrapped c
  signalled : Signalled c

theorem steady_init : Steady (init : Config V E F) := ⟨inv_init, unwrapped_init, signalled_init⟩

theorem Steady.step (h : Steady c) (hok : FirstResult c e) (hst : Step c e c') : Steady c' :=
  ⟨h.toInv.step hst, h.unwrapped.step h.toInv hok hst,
    h.signalled.step h.toInv hok h.unwrapped hst⟩

/-- **It holds in every run in which no result is overwritten.** -/
theorem Reachable.steady (h : Reachable FirstResult c) : Steady c :=
  h.invariant (fun _ _ _ hi hok hst => hi.step hok hst) steady_init

end Futures

end PortableConcurrency
