import PortableConcurrency.Futures.Ownership

/-!
# Continuation lists

What no step takes back: what kind of node an address names, that its
list is closed, and that a closure is linked exactly while its list is
open. `Kinded` is what an object may rely on for good.
-/

namespace PortableConcurrency

namespace Futures

variable {V E F : Type*} {c c' : Config V E F} {e : Event V E F}
variable {rem add rest : Multiset (Obj F)} {s t n : ℕ} {o : Obj F} {nd nd' : Node V E F}

/-! ## What happens to a node -/

/-- The four classes that derive from `future_state`. -/
inductive Body.Kind
  | promise
  | task
  | cnt
  | combinator
  deriving DecidableEq, Repr

/-- Which of them a body is. -/
def Body.kind : Body F → Body.Kind
  | .promise _ => .promise
  | .task _ => .task
  | .cnt _ _ => .cnt
  | .whenAll _ _ => .combinator
  | .whenAny _ _ _ => .combinator

/-- The two ways to ask for a combinator. -/
theorem Body.isCombinator_iff {body : Body F} :
    body.isCombinator = true ↔ body.kind = .combinator := by
  cases body <;> simp [Body.isCombinator, Body.kind]

@[simp] theorem Body.clean_kind (h : Producer) (body : Body F) :
    (body.clean h).kind = body.kind := by
  cases h <;> cases body <;> rfl

@[simp] theorem Body.notify_kind (pos : ℕ) (body : Body F) :
    (body.notify pos).1.kind = body.kind := by
  cases body with
  | whenAny l b i => cases b <;> rfl
  | _ => rfl

@[simp] theorem Body.finish_kind (body : Body F) : body.finish.1.kind = body.kind := by
  cases body <;> rfl

@[simp] theorem Body.moveFutures_kind (body : Body F) :
    body.moveFutures.kind = body.kind := by
  cases body <;> rfl

/-- A step that changes a body leaves its kind. -/
theorem Touch.kind {body : Body F} (ht : Touch c e rem s nd body add) :
    body.kind = nd.body.kind := by
  cases ht with
  | schedule _ _ _ a hlock hb | run _ _ _ a hlock hb => rw [hb]; rfl
  | _ => simp

/-- So does one that stores a result. -/
theorem Settle.kind {x : Storage V E} {clean : Body F → Body F}
    (hs : Settle c e rem s x clean add) (body : Body F) : (clean body).kind = body.kind := by
  cases hs with
  | abandon => exact Body.clean_kind _ _
  | _ => rfl

/-- **What no step undoes.** -/
structure Node.Le (nd nd' : Node V E F) : Prop where
  kind : nd'.body.kind = nd.body.kind
  executed : nd.executed = true → nd'.executed = true

theorem Node.Le.isCombinator (h : nd.Le nd') :
    nd'.body.isCombinator = nd.body.isCombinator := by
  rw [Bool.eq_iff_iff, Body.isCombinator_iff, Body.isCombinator_iff, h.kind]

theorem Node.Le.refl (nd : Node V E F) : nd.Le nd := ⟨rfl, id⟩

/-- **A node keeps its kind, and a closed list stays closed.** -/
theorem Step.node_le (h : Wf c) (hst : Step c e c') (hn : c.nodes n = some nd)
    (hn' : c'.nodes n = some nd') : nd.Le nd' := by
  cases hst.node hn' with
  | same hm =>
    exact Option.some.inj (hn.symm.trans hm) ▸ Node.Le.refl _
  | spawn hf =>
    subst hf
    exact absurd (h.bound _ _ hn) (lt_irrefl _)
  | settle hm hempty hs =>
    obtain rfl := Option.some.inj (hn.symm.trans hm)
    exact ⟨hs.kind _, id⟩
  | unwrap hm =>
    obtain rfl := Option.some.inj (hn.symm.trans hm)
    exact ⟨rfl, id⟩
  | touch hm ht =>
    obtain rfl := Option.some.inj (hn.symm.trans hm)
    exact ⟨ht.kind, id⟩
  | execute hm =>
    obtain rfl := Option.some.inj (hn.symm.trans hm)
    exact ⟨rfl, fun _ => rfl⟩

/-- `executed()` of a state that is alive. -/
theorem isExecuted_eq (hn : c.nodes n = some nd) : c.isExecuted n = nd.executed := by
  simp [Config.isExecuted, hn]

/-- A closed list is that of a state that is alive. -/
theorem node_of_isExecuted (h : c.isExecuted n = true) :
    ∃ nd, c.nodes n = some nd ∧ nd.executed = true := by
  unfold Config.isExecuted at h
  split at h
  · exact ⟨_, ‹_›, h⟩
  · cases h

/-- A closed list stays closed, for as long as there is one. -/
theorem Step.isExecuted (h : Wf c) (hst : Step c e c') (hs : c.isExecuted n = true)
    (hn' : c'.nodes n = some nd') : nd'.executed = true := by
  obtain ⟨nd, hn, hex⟩ := node_of_isExecuted hs
  exact (hst.node_le h hn hn').executed hex

/-- Only a step that makes a node gives an address one. -/
theorem Step.old (hst : Step c e c') (hlt : n < c.fresh) (hn' : c'.nodes n = some nd') :
    ∃ nd, c.nodes n = some nd := by
  cases hst.node hn' with
  | spawn hf => omega
  | same hn | settle hn | unwrap hn | touch hn | execute hn => exact ⟨_, hn⟩

/-- **What a node keeps along a run**, for as long as it is alive. -/
theorem runs_keep {ok : Config V E F → Event V E F → Prop} {I P : Config V E F → Prop}
    (hI : ∀ c e c', I c → ok c e → Step c e c' → I c')
    (hP : ∀ {c e c' nd nd'}, I c → ok c e → Step c e c' → c.nodes n = some nd →
      c'.nodes n = some nd' → P c → P c')
    (hrun : Runs Step ok c c') (h0 : I c) (hlt : n < c.fresh) (hn' : c'.nodes n = some nd')
    (hp : P c) : P c' := by
  have hboth : (I c' ∧ n < c'.fresh) ∧ ((∃ nd', c'.nodes n = some nd') → P c') := by
    clear hn'
    induction hrun with
    | refl => exact ⟨⟨h0, hlt⟩, fun _ => hp⟩
    | tail _ hok hst ih =>
      obtain ⟨⟨hi, hlt⟩, hp⟩ := ih
      refine ⟨⟨hI _ _ _ hi hok hst, hlt.trans_le hst.fresh_le⟩, ?_⟩
      rintro ⟨nd', hn'⟩
      obtain ⟨nd, hn⟩ := hst.old hlt hn'
      exact hP hi hok hst hn hn' (hp ⟨nd, hn⟩)
  exact hboth.2 ⟨nd', hn'⟩

/-- A state that is gone does not come back. -/
theorem gone_run {ok : Config V E F → Event V E F → Prop} (hrun : Runs Step ok c c')
    (hlt : s < c.fresh) (hn : c.nodes s = none) : c'.nodes s = none := by
  have hboth : s < c'.fresh ∧ c'.nodes s = none := by
    refine hrun.invariant (I := fun c => s < c.fresh ∧ c.nodes s = none) ?_ ⟨hlt, hn⟩
    rintro c e c' ⟨hlt, hn⟩ - hst
    refine ⟨hlt.trans_le hst.fresh_le, ?_⟩
    by_contra hne
    obtain ⟨nd', hn'⟩ := Option.ne_none_iff_exists'.mp hne
    obtain ⟨nd, hm⟩ := hst.old hlt hn'
    rw [hn] at hm
    cases hm
  exact hboth.2

/-! ## What an object may rely on -/

/-- If `n` is alive it is of the kind `k`. -/
def HasKind (c : Config V E F) (n : ℕ) (k : Body.Kind) : Prop :=
  ∀ nd, c.nodes n = some nd → nd.body.kind = k

/-- If `n` is alive its list is closed. -/
def Closed (c : Config V E F) (n : ℕ) : Prop :=
  ∀ nd, c.nodes n = some nd → nd.executed = true

/-- What a closure expects of the states it names. -/
def Closure.Kinded (c : Config V E F) : Closure → Prop
  | .notify => True
  | .schedule s => HasKind c s .cnt
  | .unwrapCb s => ∀ nd, c.nodes s = some nd → nd.body.kind ≠ .combinator
  | .detached _ => True
  | .combine w _ => HasKind c w .combinator

/-- **What an object says of the nodes it names**, once and for all. -/
def Obj.Kinded (c : Config V E F) : Obj F → Prop
  | .handle .promise _ s =>
    ∀ nd, c.nodes s = some nd → nd.body.kind = .promise ∨ nd.body.kind = .cnt
  | .handle .task _ s => HasKind c s .task
  | .handle .action owning s => owning = false ∧ HasKind c s .cnt
  | .future _ _ => True
  | .linked _ k => k.Kinded c
  | .queued t k => k.Kinded c ∧ Closed c t
  | .spent t k => k.Kinded c ∧ Closed c t
  | .execute _ => True
  | .running s _ => HasKind c s .cnt
  | .invoked .task s => HasKind c s .task
  | .invoked .cnt s => HasKind c s .cnt
  | .subscribing s _ => ∀ nd, c.nodes s = some nd → nd.body.kind ≠ .combinator
  | .cleaning s => HasKind c s .task
  | .making w _ => HasKind c w .combinator
  | .held _ => True

/-- Between two configurations: nodes keep what they have. -/
def Config.Le (c c' : Config V E F) (n : ℕ) : Prop :=
  ∀ nd', c'.nodes n = some nd' → ∃ nd, c.nodes n = some nd ∧ nd.Le nd'

/-- **A step leaves every state what it was**, or destroys it. -/
theorem Step.le (h : Wf c) (hst : Step c e c') (hlt : n < c.fresh) : c.Le c' n := by
  intro nd' hn'
  obtain ⟨nd, hn⟩ := hst.old hlt hn'
  exact ⟨nd, hn, hst.node_le h hn hn'⟩

theorem HasKind.mono {k : Body.Kind} (h : HasKind c n k) (hle : c.Le c' n) : HasKind c' n k := by
  intro nd' hn'
  obtain ⟨nd, hn, hle⟩ := hle nd' hn'
  rw [hle.kind, h nd hn]

theorem Closed.mono (h : Closed c n) (hle : c.Le c' n) : Closed c' n := by
  intro nd' hn'
  obtain ⟨nd, hn, hle⟩ := hle nd' hn'
  exact hle.executed (h nd hn)

theorem Closure.Kinded.mono {k : Closure} (h : k.Kinded c) (hle : ∀ n ∈ k.names, c.Le c' n) :
    k.Kinded c' := by
  cases k with
  | notify | detached => trivial
  | schedule s | combine s => exact HasKind.mono h (hle s (by simp [Closure.names]))
  | unwrapCb s =>
    intro nd' hn'
    obtain ⟨nd, hn, hle⟩ := hle s (by simp [Closure.names]) nd' hn'
    rw [hle.kind]
    exact h nd hn

/-- What an object expects of the states stays true. -/
theorem Obj.Kinded.mono (h : o.Kinded c) (hle : ∀ n ∈ o.names, c.Le c' n) : o.Kinded c' := by
  cases o with
  | handle g u s =>
    have hs := hle s (by simp [Obj.names])
    cases g with
    | promise =>
      intro nd' hn'
      obtain ⟨nd, hn, hle⟩ := hs nd' hn'
      rw [hle.kind]
      exact h nd hn
    | task => exact HasKind.mono h hs
    | action => exact ⟨h.1, h.2.mono hs⟩
  | future | execute | held => trivial
  | linked t k => exact Closure.Kinded.mono h fun n hn => hle n (List.mem_cons_of_mem _ hn)
  | queued t k | spent t k =>
    exact ⟨h.1.mono fun n hn => hle n (List.mem_cons_of_mem _ hn),
      h.2.mono (hle t (by simp [Obj.names]))⟩
  | running s a => exact HasKind.mono h (hle s (by simp [Obj.names]))
  | invoked g s => cases g <;> exact HasKind.mono h (hle s (by simp [Obj.names]))
  | subscribing s t =>
    intro nd' hn'
    obtain ⟨nd, hn, hle⟩ := hle s (by simp [Obj.names]) nd' hn'
    rw [hle.kind]
    exact h nd hn
  | cleaning s | making s => exact HasKind.mono h (hle s (by simp [Obj.names]))

/-- A closure expects no more when it is pushed. -/
theorem push_kinded {k : Closure} (hk : k.Kinded c) : (c.push t k : Obj F).Kinded c := by
  unfold Config.push
  split
  · rename_i h
    refine ⟨hk, fun nd hn => ?_⟩
    rwa [isExecuted_eq hn] at h
  · exact hk

theorem inputObjs_kinded {l : List Input} (h : o ∈ inputObjs l) : o.Kinded c := by
  obtain ⟨f, -, rfl⟩ := mem_inputObjs.mp h
  trivial

/-- A step that changes no node adds only objects that find what they expect. -/
theorem Move.kinded (hm : Move c e rem add) (h : ∀ o ∈ rem, o.Kinded c) (hmem : o ∈ add) :
    o.Kinded c := by
  cases hm with
  | getFuture g s hg =>
    have hg' := h _ (Multiset.mem_singleton_self _)
    cases g <;> simp_all [Obj.Kinded] <;> grind [Obj.Kinded]
  | peek s w nd =>
    rcases Multiset.mem_cons.mp hmem with rfl | hmem
    · trivial
    · exact inputObjs_kinded hmem
  | invokeNextShared s w a nd =>
    simp only [Multiset.mem_cons] at hmem
    rcases hmem with rfl | rfl | hmem
    · exact h (.running s a) (by simp)
    · trivial
    · exact inputObjs_kinded hmem
  | notify u s | detach u s =>
    simp only [Multiset.insert_eq_cons, Multiset.mem_cons, Multiset.mem_singleton] at hmem
    rcases hmem with rfl | rfl
    · trivial
    · exact push_kinded trivial
  | subscribe s t =>
    simp only [Multiset.insert_eq_cons, Multiset.mem_cons, Multiset.mem_singleton] at hmem
    rcases hmem with rfl | rfl
    · trivial
    · exact push_kinded (h (.subscribing s t) (by simp))
  | _ => simp_all [Obj.Kinded, Closure.Kinded] <;> grind [Obj.Kinded, Closure.Kinded, HasKind]

/-- So does one that stores a result. -/
theorem Settle.kinded {x : Storage V E} {clean : Body F → Body F}
    (hs : Settle c e rem s x clean add) (h : ∀ o ∈ rem, o.Kinded c) (hmem : o ∈ add) :
    o.Kinded c := by
  cases hs with
  | ret g s r =>
    obtain ⟨rfl, rfl⟩ := mem_cleanup.mp hmem
    exact h (.invoked .task s) (by simp)
  | passError => exact Multiset.mem_singleton.mp hmem ▸ trivial
  | _ => simp_all

/-- So does one that changes a body. -/
theorem Touch.kinded {body : Body F} (ht : Touch c e rem s nd body add)
    (hs : c.nodes s = some nd) (h : ∀ o ∈ rem, o.Kinded c) (hmem : o ∈ add) : o.Kinded c := by
  have hkind : ∀ k, nd.body.kind = k → HasKind c s k := by
    intro k hk nd' hn
    rw [hs] at hn
    rwa [← Option.some.inj hn]
  cases ht with
  | schedule t _ _ a hlock hb =>
    have hq := h (.queued t (.schedule s)) (by simp)
    simp only [Multiset.insert_eq_cons, Multiset.mem_cons, Multiset.mem_singleton] at hmem
    rcases hmem with rfl | rfl
    · exact hq
    · exact ⟨rfl, hq.1⟩
  | run _ _ x a hlock hb =>
    obtain rfl := Multiset.mem_singleton.mp hmem
    exact hkind _ (by rw [hb]; rfl)
  | notify t w pos =>
    simp only [Multiset.mem_cons, mem_executeIf] at hmem
    rcases hmem with rfl | ⟨-, rfl⟩
    · exact h (.queued t (.combine s pos)) (by simp)
    · trivial
  | register w i _ f hi hready =>
    have hw : HasKind c s .combinator := h (.making s i) (by simp)
    simp only [Multiset.mem_cons, mem_executeIf] at hmem
    rcases hmem with rfl | rfl | ⟨-, rfl⟩
    · exact hw
    · refine ⟨hw, fun nd hn => ?_⟩
      rwa [isExecuted_eq hn] at hready
    · trivial
  | finish w i =>
    simp only [Multiset.mem_cons, mem_executeIf] at hmem
    rcases hmem with rfl | ⟨-, rfl⟩ <;> trivial
  | take =>
    rcases Multiset.mem_cons.mp hmem with rfl | hmem
    · trivial
    · exact inputObjs_kinded hmem
  | invokeNext s' w a =>
    simp only [Multiset.mem_cons] at hmem
    rcases hmem with rfl | rfl | hmem
    · exact h (.running s' a) (by simp)
    · trivial
    · exact inputObjs_kinded hmem
  | abandon | clean => simp at hmem

/-- The objects a new node comes with are about a node of its kind. -/
theorem Spawn.kinded (hs : Spawn c e rem nd add) (h : Wf c) (ho : c.objs = rem + rest)
    (hc : c'.nodes c.fresh = some nd) (hle : ∀ n < c.fresh, c.Le c' n) (hmem : o ∈ add) :
    o.Kinded c' := by
  have hkind : HasKind c' c.fresh nd.body.kind := by
    intro nd' hn
    rw [hc] at hn
    rw [← Option.some.inj hn]
  cases hs with
  | newPromise b =>
    obtain rfl := Multiset.mem_singleton.mp hmem
    exact fun nd hn => .inl (hkind nd hn)
  | makePromise b =>
    simp only [Multiset.insert_eq_cons, Multiset.mem_cons, Multiset.mem_singleton] at hmem
    rcases hmem with rfl | rfl
    · exact fun nd hn => .inl (hkind nd hn)
    · trivial
  | newTask =>
    obtain rfl := Multiset.mem_singleton.mp hmem
    exact hkind
  | attach a =>
    have hp : a.parent < c.fresh :=
      h.names_of_rem ho (o := .future a.unique a.parent) (by simp) (by simp [Obj.names])
    simp only [Multiset.mem_cons, mem_keeps] at hmem
    rcases hmem with rfl | rfl | ⟨-, -, rfl⟩
    · trivial
    · unfold Config.push
      split
      · rename_i hex
        refine ⟨hkind, fun nd' hn' => ?_⟩
        obtain ⟨nd, hn, hle⟩ := hle _ hp nd' hn'
        rw [isExecuted_eq hn] at hex
        exact hle.executed hex
      · exact hkind
    · trivial
  | whenAll l | whenAny l =>
    obtain rfl := Multiset.mem_singleton.mp hmem
    exact hkind
  | readySequence =>
    obtain rfl := Multiset.mem_singleton.mp hmem
    trivial

/-- **The objects and the lists agree with the nodes.** -/
structure Lists (c : Config V E F) : Prop where
  kinded : ∀ o ∈ c.objs, o.Kinded c
  linked : ∀ t k, .linked t k ∈ c.objs → ∃ nd, c.nodes t = some nd ∧ nd.executed = false

theorem lists_init : Lists (init : Config V E F) := by
  constructor <;> simp [init]

/-- Every object goes on finding what it expects. -/
theorem Lists.kinded_step (h : Wf c) (hl : Lists c) (hst : Step c e c') :
    ∀ o ∈ c'.objs, o.Kinded c' := by
  have hle : ∀ n < c.fresh, c.Le c' n := fun n hlt => hst.le h hlt
  -- an object that was not there is about nodes that were
  have hnew : ∀ {o : Obj F}, o.Kinded c → (∀ n ∈ o.names, n < c.fresh) → o.Kinded c' :=
    fun hk hn => hk.mono fun n hmem => hle n (hn n hmem)
  have hrem : ∀ {rem rest : Multiset (Obj F)}, c.objs = rem + rest → ∀ o ∈ rem, o.Kinded c :=
    fun ho o hr => hl.kinded o (mem_of_rem ho hr)
  refine hst.forall_objs (fun o ho => hnew (hl.kinded o ho) (h.names o ho)) ?_ ?_ ?_ ?_ ?_ ?_
  · exact fun hm ho o hmem => hnew (hm.kinded (hrem ho) hmem) fun n hn => h.move_names hm ho hmem hn
  · exact fun hs ho hc o hmem => hs.kinded h ho hc hle hmem
  · refine fun hs ho hnd _ => ⟨trivial, fun o hmem => ?_⟩
    exact hnew (hs.kinded (hrem ho) hmem) fun n hn => h.settle_names hs ho hmem hn
  · intro g s t u rest nd _ ho hnd _
    have hk := hrem ho (.invoked g s) (by simp)
    have hs := h.bound _ _ hnd
    refine ⟨fun nd' hn' => ?_, ?_⟩
    · obtain ⟨nd₀, hn₀, hle⟩ := hle s hs nd' hn'
      rw [hle.kind]
      cases g <;> simp [hk nd₀ hn₀]
    · rintro rfl
      exact HasKind.mono hk (hle s hs)
  · exact fun ht ho hnd o hmem =>
      hnew (ht.kinded hnd (hrem ho) hmem) fun n hn => h.touch_names ht ho hnd hmem hn
  · intro s rest nd _ ho hnd hnd'
    refine ⟨trivial, fun k hk => ⟨?_, fun nd' hn' => ?_⟩⟩
    · have hk' : (Obj.linked s k : Obj F).Kinded c' := hnew (hl.kinded _ hk) (h.names _ hk)
      exact hk'
    · rw [hnd'] at hn'
      rw [← Option.some.inj hn']

/-- A pushed closure is in the list only if the list is open. -/
theorem push_linked {k k' : Closure} (h : (.linked t k : Obj F) = c.push s k') :
    t = s ∧ k = k' ∧ c.isExecuted s = false := by
  unfold Config.push at h
  split at h
  · cases h
  · rename_i hs
    cases h
    exact ⟨rfl, rfl, by simpa using hs⟩

theorem not_linked_inputs {l : List Input} {k : Closure} :
    (.linked t k : Obj F) ∉ inputObjs l := by
  intro h
  obtain ⟨f, -, hf⟩ := mem_inputObjs.mp h
  cases hf

/-- A closure is linked to a list that is open and has an owner. -/
theorem Move.linked {k : Closure} (hm : Move c e rem add) (ho : c.objs = rem + rest)
    (hmem : .linked t k ∈ add) : Owned c t ∧ c.isExecuted t = false := by
  cases hm with
  | notify u s | detach u s =>
    simp only [Multiset.insert_eq_cons, Multiset.mem_cons, Multiset.mem_singleton,
      reduceCtorEq, false_or] at hmem
    obtain ⟨rfl, -, hs⟩ := push_linked hmem
    exact ⟨owned_of_mem ho (o := .future u t) (by simp) (by simp [Obj.refs]), hs⟩
  | subscribe s t' =>
    simp only [Multiset.insert_eq_cons, Multiset.mem_cons, Multiset.mem_singleton,
      reduceCtorEq, false_or] at hmem
    obtain ⟨rfl, -, hs⟩ := push_linked hmem
    exact ⟨owned_of_mem ho (o := .subscribing s t) (by simp) (by simp [Obj.refs]), hs⟩
  | register w i nd f hn hi hpend =>
    simp only [Multiset.insert_eq_cons, Multiset.mem_cons, Multiset.mem_singleton,
      reduceCtorEq, false_or, Obj.linked.injEq] at hmem
    obtain ⟨rfl, -⟩ := hmem
    exact ⟨owned_of_futures hn (List.mem_of_getElem? hi), hpend⟩
  | peek => simp [sharedObjs, not_linked_inputs] at hmem
  | invokeNextShared => simp [sharedObjs, not_linked_inputs] at hmem
  | _ => simp at hmem

/-- What is linked with a new state is in an open list. -/
theorem Spawn.linked {k : Closure} (hs : Spawn c e rem nd add) (ho : c.objs = rem + rest)
    (hmem : .linked t k ∈ add) : Owned c t ∧ c.isExecuted t = false := by
  cases hs with
  | attach a =>
    simp only [Multiset.mem_cons, mem_keeps, reduceCtorEq, false_or, and_false, or_false] at hmem
    obtain ⟨rfl, -, hs⟩ := push_linked hmem
    exact ⟨owned_of_mem ho (o := .future a.unique a.parent) (by simp) (by simp [Obj.refs]), hs⟩
  | _ => simp at hmem

/-- Only `push` links a closure. -/
theorem Settle.not_linked {x : Storage V E} {clean : Body F → Body F} {k : Closure}
    (hs : Settle c e rem s x clean add) : .linked t k ∉ add := by
  cases hs with
  | ret => simp [mem_cleanup]
  | _ => simp

theorem Touch.not_linked {body : Body F} {k : Closure} (ht : Touch c e rem s nd body add) :
    .linked t k ∉ add := by
  cases ht with
  | notify | register | finish => simp [mem_executeIf]
  | take | invokeNext => simp [not_linked_inputs]
  | _ => simp

/-- Every linked closure goes on being in an open list. -/
theorem Lists.linked_step (h : Wf c) (hl : Lists c) (hst : Step c e c') (t : ℕ) (k : Closure)
    (hmem : .linked t k ∈ c'.objs) : ∃ nd, c'.nodes t = some nd ∧ nd.executed = false := by
  -- a step other than `execute` leaves every open list open
  have hset : ∀ {s nd nd₁}, c.nodes s = some nd → nd₁.executed = nd.executed →
      (∃ nd, c.nodes t = some nd ∧ nd.executed = false) →
      ∃ nd, c.setNode s nd₁ t = some nd ∧ nd.executed = false := by
    rintro s nd nd₁ hs hex ⟨nd₀, hn₀, hex₀⟩
    by_cases hts : t = s
    · subst hts
      rw [hs] at hn₀
      exact ⟨nd₁, by simp [Config.setNode], by rw [hex, Option.some.inj hn₀, hex₀]⟩
    · exact ⟨nd₀, by simp [Config.setNode, hts, hn₀], hex₀⟩
  have hnew : Owned c t ∧ c.isExecuted t = false →
      ∃ nd, c.nodes t = some nd ∧ nd.executed = false := by
    rintro ⟨howned, hex⟩
    obtain ⟨nd, hn⟩ := h.alive t howned
    exact ⟨nd, hn, by rwa [isExecuted_eq hn] at hex⟩
  have hrest : ∀ {rem rest}, c.objs = rem + rest → .linked t k ∈ rest →
      ∃ nd, c.nodes t = some nd ∧ nd.executed = false := fun ho hmem =>
    hl.linked t k (by rw [ho]; exact Multiset.mem_add.mpr (.inr hmem))
  cases hst with
  | move hm ho =>
    rcases Multiset.mem_add.mp hmem with hmem | hmem
    · exact hnew (hm.linked ho hmem)
    · exact hrest ho hmem
  | spawn hs ho =>
    have hold : ∃ nd, c.nodes t = some nd ∧ nd.executed = false := by
      rcases Multiset.mem_add.mp hmem with hmem | hmem
      · exact hnew (hs.linked ho hmem)
      · exact hrest ho hmem
    obtain ⟨nd, hn, hex⟩ := hold
    have hne : t ≠ c.fresh := by
      rintro rfl
      exact lt_irrefl _ (h.bound _ _ hn)
    exact ⟨nd, by simp [Config.setNode, hne, hn], hex⟩
  | settle hs ho hnd =>
    refine hset hnd rfl (hrest ho ?_)
    simpa [hs.not_linked] using hmem
  | unwrap ho hnd =>
    refine hset hnd rfl (hrest ho ?_)
    simpa [mem_cleanup] using hmem
  | touch ht ho hnd =>
    refine hset hnd rfl (hrest ho ?_)
    simpa [ht.not_linked] using hmem
  | @execute s rest nd ho hnd =>
    obtain ⟨o', ho', heq⟩ : ∃ o' ∈ rest, o'.unlink s = .linked t k := by simpa using hmem
    cases o' with
    | linked t' k' =>
      by_cases hts : t' = s
      · simp [Obj.unlink, hts] at heq
      · obtain ⟨rfl, rfl⟩ : t' = t ∧ k' = k := by simpa [Obj.unlink, hts] using heq
        obtain ⟨nd₀, hn₀, hex₀⟩ := hrest ho ho'
        exact ⟨nd₀, by simp [Config.setNode, hts, hn₀], hex₀⟩
    | _ => simp [Obj.unlink] at heq
  | @destroy s nd hs hun =>
    obtain ⟨hmem, hne⟩ := Multiset.mem_filter.mp hmem
    obtain ⟨nd₀, hn₀, hex₀⟩ := hl.linked t k hmem
    have hts : t ≠ s := by simpa [Obj.isLinked] using hne
    exact ⟨nd₀, by simp [hts, hn₀], hex₀⟩

/-- **The step lemma.** -/
theorem Lists.step (h : Wf c) (hl : Lists c) (hst : Step c e c') : Lists c' :=
  ⟨hl.kinded_step h hst, hl.linked_step h hst⟩

/-! ## Between operations -/

/-- Whether an object is part of a call that is in progress. -/
def Obj.inProgress : Obj F → Bool
  | .handle _ _ _ => false
  | .future _ _ => false
  | .linked _ _ => false
  | _ => true

/-- Between operations. -/
def Idle (c : Config V E F) : Prop := ∀ o ∈ c.objs, o.inProgress = false

end Futures

end PortableConcurrency
