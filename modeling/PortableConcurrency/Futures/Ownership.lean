import PortableConcurrency.Futures.Model
import Mathlib.Tactic.Common

/-!
# Ownership

A reference is copied from a reference: whatever a step adds refers to
nodes that had an owner before it, or to the node it makes. So a node
that has lost its last owner never finds another, and every owned node is
alive.
-/

namespace PortableConcurrency

namespace Futures

variable {V E F : Type*} {c c' : Config V E F} {e : Event V E F}
variable {rem add rest : Multiset (Obj F)} {s t n : ℕ} {o : Obj F}

/-- What a sequence becomes: a future for each element. -/
theorem mem_inputObjs {l : List Input} : o ∈ (inputObjs l : Multiset (Obj F)) ↔
    ∃ f ∈ l, o = .future f.1 f.2 := by
  simp only [inputObjs, Multiset.mem_coe, List.mem_map]
  constructor
  · rintro ⟨f, hf, rfl⟩
    exact ⟨f, hf, rfl⟩
  · rintro ⟨f, hf, rfl⟩
    exact ⟨f, hf, rfl⟩

/-- A `notify` that goes on adds one `execute`, and nothing else. -/
theorem mem_executeIf {b : Bool} : o ∈ (executeIf b s : Multiset (Obj F)) ↔
    b = true ∧ o = .execute s := by
  cases b <;> simp [executeIf]

theorem mem_cleanup {h : Caller} : o ∈ (cleanup h s : Multiset (Obj F)) ↔
    h = .task ∧ o = .cleaning s := by
  cases h <;> simp [cleanup]

/-- What stays with the user when a continuation is attached. -/
theorem mem_keeps {a : Action F} : o ∈ a.keeps ↔
    a.unique = false ∧ a.kind ≠ .interruptible ∧ o = .future false a.parent := by
  unfold Action.keeps
  split
  · rename_i h
    simp [h]
  · rename_i h
    simp only [Multiset.notMem_zero, false_iff]
    tauto

/-- Who refers to a node of the sequence of a living combinator owns it. -/
theorem owned_of_futures {w : ℕ} {nd : Node V E F} (hn : c.nodes w = some nd)
    {f : Input} (hf : f ∈ nd.body.futures) : Owned c f.2 := by
  refine .inr ⟨w, nd, hn, List.mem_append_right _ ?_⟩
  cases hb : nd.body with
  | whenAll l r | whenAny l b i =>
    rw [hb] at hf
    exact List.mem_map.mpr ⟨f, hf, rfl⟩
  | promise b | task g | cnt x a => simp [hb, Body.futures] at hf

/-- What a step takes owned its states before. -/
theorem owned_of_mem (ho : c.objs = rem + rest) (h : o ∈ rem) (hn : n ∈ o.refs) : Owned c n :=
  .inl ⟨o, by rw [ho]; exact Multiset.mem_add.mpr (.inl h), hn⟩

/-- A closure owns the same whether it is linked or queued. -/
theorem push_refs (k : Closure) : (c.push t k).refs = k.refs := by
  unfold Config.push
  split <;> rfl

/-- **The references a step adds were there.** -/
theorem Move.refs (hm : Move c e rem add) (ho : c.objs = rem + rest) (h : o ∈ add)
    (hn : n ∈ o.refs) : Owned c n := by
  have hrem : ∀ o ∈ rem, n ∈ o.refs → Owned c n := fun o h hn => owned_of_mem ho h hn
  cases hm with
  | peek s w nd hr hw =>
    simp only [sharedObjs, Multiset.mem_cons, mem_inputObjs, List.mem_filter] at h
    rcases h with rfl | ⟨f, ⟨hf, -⟩, rfl⟩
    · exact hrem _ (by simp) hn
    · obtain rfl : n = f.2 := by simpa [Obj.refs] using hn
      exact owned_of_futures hw hf
  | invokeNextShared s w a nd hk hu hr hw =>
    simp only [sharedObjs, Multiset.mem_cons, mem_inputObjs, List.mem_filter] at h
    rcases h with rfl | rfl | ⟨f, ⟨hf, -⟩, rfl⟩
    · exact hrem _ (Multiset.mem_singleton_self _) (by simp_all [Obj.refs])
    · exact hrem _ (Multiset.mem_singleton_self _) (by simp_all [Obj.refs])
    · obtain rfl : n = f.2 := by simpa [Obj.refs] using hn
      exact owned_of_futures hw hf
  | _ => simp_all [Obj.refs, Closure.refs] <;> grind [Obj.refs, Closure.refs, push_refs]

/-- The objects that come with a new node own that, or what had an owner. -/
theorem Spawn.refs {nd : Node V E F} (hs : Spawn c e rem nd add) (ho : c.objs = rem + rest)
    (h : o ∈ add) (hn : n ∈ o.refs) : Owned c n ∨ n = c.fresh := by
  have hrem : ∀ o ∈ rem, n ∈ o.refs → Owned c n := fun o h hn => owned_of_mem ho h hn
  cases hs with
  | attach a =>
    simp only [Multiset.mem_cons, mem_keeps] at h
    rcases h with rfl | rfl | ⟨hu, -, rfl⟩
    · exact .inr (by simpa [Obj.refs] using hn)
    · simp [push_refs, Closure.refs] at hn
    · exact .inl (hrem (.future a.unique a.parent) (by simp) (by simpa [Obj.refs] using hn))
  | _ => simp_all [Obj.refs] <;> grind [Obj.refs]

/-- The references of a node that is made are those of its caller. -/
theorem Spawn.node_refs {nd : Node V E F} (hs : Spawn c e rem nd add) (ho : c.objs = rem + rest)
    (hn : n ∈ nd.refs) : Owned c n := by
  cases hs with
  | attach a =>
    exact owned_of_mem ho (o := .future a.unique a.parent) (by simp)
      (by simpa [Node.refs, Storage.refs, Body.refs, Obj.refs] using hn)
  | whenAll l | whenAny l =>
    obtain ⟨f, hf, rfl⟩ : ∃ f ∈ l, f.2 = n := by
      simpa [Node.refs, Storage.refs, Body.refs] using hn
    exact owned_of_mem ho (o := .future f.1 f.2) (mem_inputObjs.mpr ⟨f, hf, rfl⟩)
      (by simp [Obj.refs])
  | readySequence body hbody =>
    rcases hbody with rfl | rfl <;> simp [Node.refs, Storage.refs, Body.refs] at hn
  | newPromise | makePromise | newTask => simp [Node.refs, Storage.refs, Body.refs] at hn

/-- The objects that come with a result own only what had an owner. -/
theorem Settle.refs {x : Storage V E} {clean : Body F → Body F}
    (hs : Settle c e rem s x clean add) (ho : c.objs = rem + rest) (h : o ∈ add)
    (hn : n ∈ o.refs) : Owned c n := by
  have hrem : ∀ o ∈ rem, n ∈ o.refs → Owned c n := fun o h hn => owned_of_mem ho h hn
  cases hs with
  | ret h' s r =>
    obtain ⟨-, rfl⟩ := mem_cleanup.mp h
    exact hrem _ (Multiset.mem_singleton_self _) (by simpa [Obj.refs] using hn)
  | _ => simp_all [Obj.refs]

/-- The state that gets a result has an owner. -/
theorem Settle.owned {x : Storage V E} {clean : Body F → Body F}
    (hs : Settle c e rem s x clean add) (ho : c.objs = rem + rest) : Owned c s := by
  cases hs with
  | setValue _ _ _ hlock | setException _ _ _ hlock | abandon _ _ _ hlock => exact hlock
  | passError s l a => exact owned_of_mem ho (o := .running s a) (by simp) (by simp [Obj.refs])
  | ret h s => exact owned_of_mem ho (o := .invoked h s) (by simp) (by simp [Obj.refs])

/-- A result that is stored directly refers to no state. -/
theorem Settle.storage_refs {x : Storage V E} {clean : Body F → Body F}
    (hs : Settle c e rem s x clean add) : x.refs = [] := by
  cases hs with
  | ret h s r => cases r <;> rfl
  | _ => rfl

/-- Cleaning only takes references away. -/
theorem Body.clean_refs {h : Producer} {body : Body F} (hn : n ∈ (body.clean h).refs) :
    n ∈ body.refs := by
  cases h <;> cases body <;> simp_all [Body.clean, Body.refs]

theorem Settle.clean_refs {x : Storage V E} {clean : Body F → Body F} {body : Body F}
    (hs : Settle c e rem s x clean add) (hn : n ∈ (clean body).refs) : n ∈ body.refs := by
  cases hs with
  | abandon => exact Body.clean_refs hn
  | _ => exact hn

/-- The objects that come with a changed body own only what had an owner. -/
theorem Touch.refs {nd : Node V E F} {body : Body F} (ht : Touch c e rem s nd body add)
    (ho : c.objs = rem + rest) (hs : c.nodes s = some nd) (h : o ∈ add) (hn : n ∈ o.refs) :
    Owned c n := by
  have hrem : ∀ o ∈ rem, n ∈ o.refs → Owned c n := fun o h hn => owned_of_mem ho h hn
  cases ht with
  | notify t w pos =>
    simp only [Multiset.mem_cons, mem_executeIf] at h
    refine hrem (.queued t (.combine s pos)) (by simp) ?_
    rcases h with rfl | ⟨-, rfl⟩ <;> simpa [Obj.refs, Closure.refs] using hn
  | register w i _ f hi =>
    simp only [Multiset.mem_cons, mem_executeIf] at h
    refine hrem (.making s i) (by simp) ?_
    rcases h with rfl | rfl | ⟨-, rfl⟩ <;> simpa [Obj.refs, Closure.refs] using hn
  | finish w i =>
    simp only [Multiset.mem_cons, mem_executeIf] at h
    refine hrem (.making s i) (by simp) ?_
    rcases h with rfl | ⟨-, rfl⟩ <;> simpa [Obj.refs] using hn
  | take s' w =>
    simp only [Multiset.mem_cons, mem_inputObjs] at h
    rcases h with rfl | ⟨f, hf, rfl⟩
    · exact hrem (.future true s') (by simp) (by simpa [Obj.refs] using hn)
    · obtain rfl : n = f.2 := by simpa [Obj.refs] using hn
      exact owned_of_futures hs hf
  | invokeNext s' w a =>
    simp only [Multiset.mem_cons, mem_inputObjs] at h
    rcases h with rfl | rfl | ⟨f, hf, rfl⟩
    · exact hrem (.running s' a) (by simp) (by simp_all [Obj.refs])
    · exact hrem (.running s' a) (by simp) (by simp_all [Obj.refs])
    · obtain rfl : n = f.2 := by simpa [Obj.refs] using hn
      exact owned_of_futures hs hf
  | run s _ x a hlock hb =>
    obtain rfl := Multiset.mem_singleton.mp h
    rcases List.mem_cons.mp hn with rfl | hn
    · exact hlock
    · refine .inr ⟨s, nd, hs, List.mem_append_right _ ?_⟩
      simpa [hb, Body.refs] using hn
  | abandon | schedule | clean =>
    simp_all [Obj.refs, Closure.refs] <;> grind [Obj.refs, Closure.refs]

/-- `notify` adds no reference. -/
theorem Body.notify_refs {pos : ℕ} {body : Body F} (hn : n ∈ (body.notify pos).1.refs) :
    n ∈ body.refs := by
  cases body with
  | whenAny l b i => cases b <;> exact hn
  | whenAll | promise | task | cnt => exact hn

/-- Moving a sequence out only takes references away. -/
theorem Body.moveFutures_refs {body : Body F} (hn : n ∈ body.moveFutures.refs) :
    n ∈ body.refs := by
  cases body <;> simp_all [Body.moveFutures, Body.refs]

/-- A step that changes a body leaves it no new references. -/
theorem Touch.body_refs {nd : Node V E F} {body : Body F} (ht : Touch c e rem s nd body add)
    (hn : n ∈ body.refs) : n ∈ nd.body.refs := by
  cases ht with
  | abandon | clean => exact Body.clean_refs hn
  | schedule _ _ _ a hlock hb =>
    rw [hb]
    cases a <;> exact hn
  | run _ _ _ a hlock hb => simp [Body.refs] at hn
  | notify | register => exact Body.notify_refs hn
  | finish => cases hb : nd.body <;> simp_all [Body.finish, Body.refs]
  | take | invokeNext => exact Body.moveFutures_refs hn

/-! ## Steps -/

/-- A node of the updated table is the new one or an old one. -/
theorem setNode_eq {nd nd' : Node V E F} {m : ℕ} (h : c.setNode s nd m = some nd') :
    (m = s ∧ nd' = nd) ∨ (m ≠ s ∧ c.nodes m = some nd') := by
  unfold Config.setNode at h
  by_cases hm : m = s
  · subst hm
    simp only [Function.update_self, Option.some.injEq] at h
    exact .inl ⟨rfl, h.symm⟩
  · rw [Function.update_of_ne hm] at h
    exact .inr ⟨hm, h⟩

/-- **What can have become of the node at `n`.** -/
inductive NodeStep (c : Config V E F) (e : Event V E F) (c' : Config V E F) (n : ℕ) :
    Node V E F → Prop
  | same {nd : Node V E F} (hn : c.nodes n = some nd) : NodeStep c e c' n nd
  | spawn {nd : Node V E F} {rem add rest : Multiset (Obj F)} (hn : n = c.fresh)
      (hs : Spawn c e rem nd add) (ho : c.objs = rem + rest) (ho' : c'.objs = add + rest)
      (hfresh : c'.fresh = c.fresh + 1) : NodeStep c e c' n nd
  | settle {nd : Node V E F} {rem add rest : Multiset (Obj F)} {x : Storage V E}
      {clean : Body F → Body F} (hn : c.nodes n = some nd) (hempty : nd.storage = .empty)
      (hs : Settle c e rem n x clean add) (ho : c.objs = rem + rest) :
      NodeStep c e c' n { nd with storage := x, body := clean nd.body }
  | unwrap {nd : Node V E F} {h : Caller} {t : ℕ} {u : Bool} {rest : Multiset (Obj F)}
      (hn : c.nodes n = some nd) (he : e = .unwrap h n t)
      (ho : c.objs = {.invoked h n, .future u t} + rest) :
      NodeStep c e c' n { nd with storage := .inner t }
  | touch {nd : Node V E F} {rem add rest : Multiset (Obj F)} {body : Body F}
      (hn : c.nodes n = some nd) (ht : Touch c e rem n nd body add) (ho : c.objs = rem + rest) :
      NodeStep c e c' n { nd with body := body }
  | execute {nd : Node V E F} {rest : Multiset (Obj F)} (hn : c.nodes n = some nd)
      (he : e = .execute n) (ho : c.objs = {.execute n} + rest) :
      NodeStep c e c' n { nd with executed := true }

/-- **The inversion lemma for nodes.** -/
theorem Step.node {nd' : Node V E F} (hst : Step c e c') (hn' : c'.nodes n = some nd') :
    NodeStep c e c' n nd' := by
  cases hst with
  | move => exact .same hn'
  | spawn hs ho =>
    obtain ⟨rfl, rfl⟩ | ⟨-, hn'⟩ := setNode_eq hn'
    · exact .spawn rfl hs ho rfl rfl
    · exact .same hn'
  | settle hs ho hn hempty =>
    obtain ⟨rfl, rfl⟩ | ⟨-, hn'⟩ := setNode_eq hn'
    · exact .settle hn hempty hs ho
    · exact .same hn'
  | unwrap ho hn =>
    obtain ⟨rfl, rfl⟩ | ⟨-, hn'⟩ := setNode_eq hn'
    · exact .unwrap hn rfl ho
    · exact .same hn'
  | touch ht ho hn =>
    obtain ⟨rfl, rfl⟩ | ⟨-, hn'⟩ := setNode_eq hn'
    · exact .touch hn ht ho
    · exact .same hn'
  | execute ho hn =>
    obtain ⟨rfl, rfl⟩ | ⟨-, hn'⟩ := setNode_eq hn'
    · exact .execute hn rfl ho
    · exact .same hn'
  | @destroy s nd hn hun =>
    by_cases hns : n = s
    · simp [hns] at hn'
    · exact .same (by simpa [hns] using hn')

/-- The owners after a step, by where they come from. -/
theorem Owned.of_setNode {nd : Node V E F} {objs : Multiset (Obj F)} {k : ℕ}
    (h : Owned ⟨c.setNode s nd, objs, k⟩ n) (hobjs : ∀ o ∈ objs, n ∈ o.refs → Owned c n)
    (hnode : n ∈ nd.refs → Owned c n) : Owned c n := by
  rcases h with ⟨o, ho, hn⟩ | ⟨m, nd', hm, hn⟩
  · exact hobjs o ho hn
  · obtain ⟨rfl, rfl⟩ | ⟨-, hm⟩ := setNode_eq hm
    · exact hnode hn
    · exact .inr ⟨m, nd', hm, hn⟩

/-- What a step leaves owns its states already. -/
theorem owned_of_rest (ho : c.objs = rem + rest) (h : o ∈ rest) (hn : n ∈ o.refs) : Owned c n :=
  .inl ⟨o, by rw [ho]; exact Multiset.mem_add.mpr (.inr h), hn⟩

/-- Leaving a list changes no reference. -/
theorem Obj.unlink_refs (s : ℕ) (o : Obj F) : (o.unlink s).refs = o.refs := by
  cases o with
  | linked t k =>
    simp only [Obj.unlink]
    split <;> rfl
  | _ => rfl

/-- **A node that has no owner never gets one**, unless it is new. -/
theorem Step.owned (hst : Step c e c') (h : Owned c' n) :
    Owned c n ∨ (n = c.fresh ∧ ∃ nd, c'.nodes n = some nd) := by
  cases hst with
  | @move _ rem add rest hm ho =>
    refine .inl ?_
    rcases h with ⟨o, hmem, hn⟩ | h
    · rcases Multiset.mem_add.mp hmem with hmem | hmem
      · exact hm.refs ho hmem hn
      · exact owned_of_rest ho hmem hn
    · exact .inr h
  | @spawn _ rem add rest nd hs ho =>
    by_cases hf : n = c.fresh
    · exact .inr ⟨hf, nd, by simp [Config.setNode, hf]⟩
    refine .inl (h.of_setNode (fun o hmem hn => ?_) fun hn => hs.node_refs ho hn)
    rcases Multiset.mem_add.mp hmem with hmem | hmem
    · exact (hs.refs ho hmem hn).resolve_right hf
    · exact owned_of_rest ho hmem hn
  | @settle _ rem add rest s x clean nd hs ho hnd hempty =>
    refine .inl (h.of_setNode (fun o hmem hn => ?_) fun hn => ?_)
    · rcases Multiset.mem_cons.mp hmem with rfl | hmem
      · obtain rfl : n = s := by simpa [Obj.refs] using hn
        exact hs.owned ho
      rcases Multiset.mem_add.mp hmem with hmem | hmem
      · exact hs.refs ho hmem hn
      · exact owned_of_rest ho hmem hn
    · refine .inr ⟨s, nd, hnd, List.mem_append_right _ (hs.clean_refs ?_)⟩
      simpa [Node.refs, hs.storage_refs] using hn
  | @unwrap h' s t u rest nd ho hnd =>
    have hs : Owned c s := owned_of_mem ho (o := .invoked h' s) (by simp) (by simp [Obj.refs])
    have ht : Owned c t := owned_of_mem ho (o := .future u t) (by simp) (by simp [Obj.refs])
    refine .inl (h.of_setNode (fun o hmem hn => ?_) fun hn => ?_)
    · rcases Multiset.mem_cons.mp hmem with rfl | hmem
      · rcases List.mem_cons.mp hn with rfl | hn
        · exact hs
        · exact List.mem_singleton.mp hn ▸ ht
      rcases Multiset.mem_add.mp hmem with hmem | hmem
      · obtain ⟨-, rfl⟩ := mem_cleanup.mp hmem
        obtain rfl : n = s := by simpa [Obj.refs] using hn
        exact hs
      · exact owned_of_rest ho hmem hn
    · rcases List.mem_append.mp hn with hn | hn
      · exact List.mem_singleton.mp hn ▸ ht
      · exact .inr ⟨s, nd, hnd, List.mem_append_right _ hn⟩
  | @touch _ rem add rest s nd body ht ho hnd =>
    refine .inl (h.of_setNode (fun o hmem hn => ?_) fun hn => ?_)
    · rcases Multiset.mem_add.mp hmem with hmem | hmem
      · exact ht.refs ho hnd hmem hn
      · exact owned_of_rest ho hmem hn
    · refine .inr ⟨s, nd, hnd, ?_⟩
      rcases List.mem_append.mp hn with hn | hn
      · exact List.mem_append_left _ hn
      · exact List.mem_append_right _ (ht.body_refs hn)
  | @execute s rest nd ho hnd =>
    refine .inl (h.of_setNode (fun o hmem hn => ?_) fun hn => .inr ⟨s, nd, hnd, hn⟩)
    rcases Multiset.mem_cons.mp hmem with rfl | hmem
    · exact owned_of_mem ho (o := .execute s) (by simp) hn
    · obtain ⟨o', ho', rfl⟩ := Multiset.mem_map.mp hmem
      rw [Obj.unlink_refs] at hn
      exact owned_of_rest ho ho' hn
  | @destroy s nd hnd hun =>
    refine .inl ?_
    rcases h with ⟨o, hmem, hn⟩ | ⟨m, nd', hm, hn⟩
    · exact .inl ⟨o, (Multiset.mem_filter.mp hmem).1, hn⟩
    · by_cases hms : m = s
      · subst hms
        simp at hm
      · exact .inr ⟨m, nd', by simpa [hms] using hm, hn⟩

theorem mem_of_rem (ho : c.objs = rem + rest) (h : o ∈ rem) : o ∈ c.objs := by
  rw [ho]
  exact Multiset.mem_add.mpr (.inl h)

theorem mem_of_rest (ho : c.objs = rem + rest) (h : o ∈ rest) : o ∈ c.objs := by
  rw [ho]
  exact Multiset.mem_add.mpr (.inr h)

/-- **The rule for what holds of every object**: of those that were there
before, and of those each kind of step adds. -/
theorem Step.forall_objs {P : Obj F → Prop} (hst : Step c e c') (hold : ∀ o ∈ c.objs, P o)
    (hmove : ∀ {rem add rest}, Move c e rem add → c.objs = rem + rest → ∀ o ∈ add, P o)
    (hspawn : ∀ {rem add rest nd}, Spawn c e rem nd add → c.objs = rem + rest →
      c'.nodes c.fresh = some nd → ∀ o ∈ add, P o)
    (hsettle : ∀ {rem add rest s x clean nd}, Settle c e rem s x clean add →
      c.objs = rem + rest → c.nodes s = some nd →
      c'.nodes s = some { nd with storage := x, body := clean nd.body } →
      P (.execute s) ∧ ∀ o ∈ add, P o)
    (hunwrap : ∀ {h s t u rest nd}, e = .unwrap h s t →
      c.objs = {.invoked h s, .future u t} + rest → c.nodes s = some nd →
      c'.nodes s = some { nd with storage := .inner t } →
      P (.subscribing s t) ∧ (h = .task → P (.cleaning s)))
    (htouch : ∀ {rem add rest s nd body}, Touch c e rem s nd body add → c.objs = rem + rest →
      c.nodes s = some nd → ∀ o ∈ add, P o)
    (hexecute : ∀ {s rest nd}, e = .execute s → c.objs = {.execute s} + rest →
      c.nodes s = some nd → c'.nodes s = some { nd with executed := true } →
      P (.held s) ∧ ∀ k, .linked s k ∈ c.objs → P (.queued s k)) :
    ∀ o ∈ c'.objs, P o := by
  have hself : ∀ s nd, c.setNode s nd s = some nd := fun s nd => by simp [Config.setNode]
  intro o hmem
  cases hst with
  | move hm ho =>
    rcases Multiset.mem_add.mp hmem with hmem | hmem
    · exact hmove hm ho o hmem
    · exact hold o (mem_of_rest ho hmem)
  | spawn hs ho =>
    rcases Multiset.mem_add.mp hmem with hmem | hmem
    · exact hspawn hs ho (hself _ _) o hmem
    · exact hold o (mem_of_rest ho hmem)
  | settle hs ho hnd =>
    obtain ⟨hexec, hadd⟩ := hsettle hs ho hnd (hself _ _)
    rcases Multiset.mem_cons.mp hmem with rfl | hmem
    · exact hexec
    rcases Multiset.mem_add.mp hmem with hmem | hmem
    · exact hadd o hmem
    · exact hold o (mem_of_rest ho hmem)
  | unwrap ho hnd =>
    obtain ⟨hsub, hclean⟩ := hunwrap rfl ho hnd (hself _ _)
    rcases Multiset.mem_cons.mp hmem with rfl | hmem
    · exact hsub
    rcases Multiset.mem_add.mp hmem with hmem | hmem
    · obtain ⟨hh, rfl⟩ := mem_cleanup.mp hmem
      exact hclean hh
    · exact hold o (mem_of_rest ho hmem)
  | touch ht ho hnd =>
    rcases Multiset.mem_add.mp hmem with hmem | hmem
    · exact htouch ht ho hnd o hmem
    · exact hold o (mem_of_rest ho hmem)
  | @execute s rest nd ho hnd =>
    obtain ⟨hheld, hqueued⟩ := hexecute rfl ho hnd (hself _ _)
    rcases Multiset.mem_cons.mp hmem with rfl | hmem
    · exact hheld
    obtain ⟨o', ho', rfl⟩ := Multiset.mem_map.mp hmem
    have hmem' := mem_of_rest ho ho'
    cases o' with
    | linked t k =>
      by_cases hts : t = s
      · subst hts
        simpa [Obj.unlink] using hqueued k hmem'
      · simpa [Obj.unlink, hts] using hold _ hmem'
    | _ => exact hold _ hmem'
  | destroy => exact hold o (Multiset.mem_filter.mp hmem).1

/-! ## Addresses -/

/-- The nodes a closure names, weakly or not. -/
def Closure.names : Closure → List ℕ
  | .notify => []
  | .schedule c => [c]
  | .unwrapCb s => [s]
  | .detached s => [s]
  | .combine w _ => [w]

/-- The nodes an object names, weakly or not. -/
def Obj.names : Obj F → List ℕ
  | .handle _ _ s => [s]
  | .future _ s => [s]
  | .linked t k => t :: k.names
  | .queued t k => t :: k.names
  | .spent t k => t :: k.names
  | .execute s => [s]
  | .running c a => [c, a.parent]
  | .invoked _ s => [s]
  | .subscribing s t => [s, t]
  | .cleaning s => [s]
  | .making w _ => [w]
  | .held s => [s]

/-- **Every reference is to a living node, and no name is new.** -/
structure Wf (c : Config V E F) : Prop where
  alive : ∀ n, Owned c n → ∃ nd, c.nodes n = some nd
  bound : ∀ n nd, c.nodes n = some nd → n < c.fresh
  names : ∀ o ∈ c.objs, ∀ n ∈ o.names, n < c.fresh

theorem wf_init : Wf (init : Config V E F) := by
  refine ⟨?_, ?_, ?_⟩
  · rintro n (⟨o, ho, -⟩ | ⟨m, nd, hm, -⟩)
    · simp [init] at ho
    · simp [init] at hm
  · simp [init]
  · simp [init]

/-- The address counter. -/
theorem Step.fresh_le (hst : Step c e c') : c.fresh ≤ c'.fresh := by
  cases hst with
  | spawn => exact Nat.le_succ _
  | _ => exact le_rfl

/-- A node lives on until its destructor runs, which is when it has no
owner. -/
theorem Step.alive {nd : Node V E F} (hst : Step c e c') (hn : c.nodes n = some nd) :
    (∃ nd', c'.nodes n = some nd') ∨ (e = .destroy n ∧ ¬ Owned c n) := by
  have hset : ∀ s nd', ∃ nd'', c.setNode s nd' n = some nd'' := by
    intro s nd'
    by_cases hns : n = s
    · exact ⟨nd', by simp [Config.setNode, hns]⟩
    · exact ⟨nd, by simp [Config.setNode, hns, hn]⟩
  cases hst with
  | move => exact .inl ⟨nd, hn⟩
  | spawn | settle | unwrap | touch | execute => exact .inl (hset _ _)
  | @destroy s nd' hs hun =>
    by_cases hns : n = s
    · subst hns
      exact .inr ⟨rfl, hun⟩
    · exact .inl ⟨nd, by simp [hns, hn]⟩

/-- A new address is that of a new node. -/
theorem Step.new_alive (hst : Step c e c') (hlt : n < c'.fresh) (hge : ¬ n < c.fresh) :
    ∃ nd, c'.nodes n = some nd := by
  cases hst with
  | @spawn _ _ _ _ nd =>
    obtain rfl : n = c.fresh := by
      have : n < c.fresh + 1 := hlt
      omega
    exact ⟨nd, by simp [Config.setNode]⟩
  | _ => exact absurd hlt hge

/-! ## Steps of one event -/

/-- **What a destructor does**: it runs when there is no owner left. -/
theorem Step.destroy_inv (hst : Step c (.destroy n) c') : ∃ nd, c.nodes n = some nd ∧
    ¬ Owned c n ∧ c' = { c with
      nodes := Function.update c.nodes n none
      objs := c.objs.filter fun o => ¬ o.isLinked n } := by
  cases hst with
  | destroy hn hun => exact ⟨_, hn, hun, rfl⟩
  | move hm => cases hm
  | spawn hs => cases hs
  | settle hs => cases hs
  | touch ht => cases ht

/-- **What `execute` does**: the list is closed, and its closures are queued. -/
theorem Step.execute_inv (hst : Step c (.execute n) c') : ∃ rest nd,
    c.objs = {.execute n} + rest ∧ c.nodes n = some nd ∧ c' = { c with
      nodes := c.setNode n { nd with executed := true }
      objs := .held n ::ₘ rest.map (Obj.unlink n) } := by
  cases hst with
  | execute ho hn => exact ⟨_, _, ho, hn, rfl⟩
  | move hm => cases hm
  | spawn hs => cases hs
  | settle hs => cases hs
  | touch ht => cases ht

/-- **What `unwrap` does**: the storage is overwritten, and the callback is
pushed next. -/
theorem Step.unwrap_inv {g : Caller} (hst : Step c (.unwrap g n t) c') : ∃ u rest nd,
    c.objs = {.invoked g n, .future u t} + rest ∧ c.nodes n = some nd ∧ c' = { c with
      nodes := c.setNode n { nd with storage := .inner t }
      objs := .subscribing n t ::ₘ (cleanup g n + rest) } := by
  cases hst with
  | unwrap ho hn => exact ⟨_, _, _, ho, hn, rfl⟩
  | move hm => cases hm
  | spawn hs => cases hs
  | settle hs => cases hs
  | touch ht => cases ht

/-- **What a combinator starts with**: a new node. -/
theorem Step.combine_inv {l : List Input} (hst : Step c (.combine n l) c') :
    ∃ rem add rest nd, Spawn c (.combine n l) rem nd add ∧ c.objs = rem + rest ∧
      c' = ⟨c.setNode c.fresh nd, add + rest, c.fresh + 1⟩ := by
  cases hst with
  | spawn hs ho => exact ⟨_, _, _, _, hs, ho, rfl⟩
  | move hm => cases hm
  | settle hs => cases hs
  | touch ht => cases ht

/-- Whoever refers to a state names it. -/
theorem Obj.refs_subset_names (h : n ∈ o.refs) : n ∈ o.names := by
  cases o with
  | handle h' u s => cases u <;> simp_all [Obj.refs, Obj.names]
  | linked t k | queued t k | spent t k =>
    cases k <;> simp_all [Obj.refs, Obj.names, Closure.refs, Closure.names]
  | _ => simp_all [Obj.refs, Obj.names]

theorem push_names (k : Closure) : (c.push t k : Obj F).names = t :: k.names := by
  unfold Config.push
  split <;> rfl

namespace Wf

/-- What has an owner was made before. -/
theorem owned_lt (h : Wf c) (hn : Owned c n) : n < c.fresh := by
  obtain ⟨nd, hnd⟩ := h.alive n hn
  exact h.bound n nd hnd

/-- Nobody owns what has not been made. -/
theorem not_owned_fresh (h : Wf c) : ¬ Owned c c.fresh := fun hn => by
  have := h.owned_lt hn
  omega

/-- What a step takes names only states that were made. -/
theorem names_of_rem (h : Wf c) (ho : c.objs = rem + rest) (hmem : o ∈ rem) (hn : n ∈ o.names) :
    n < c.fresh :=
  h.names o (by rw [ho]; exact Multiset.mem_add.mpr (.inl hmem)) n hn

/-- What a step leaves names only states that were made. -/
theorem names_of_rest (h : Wf c) (ho : c.objs = rem + rest) (hmem : o ∈ rest)
    (hn : n ∈ o.names) : n < c.fresh :=
  h.names o (by rw [ho]; exact Multiset.mem_add.mpr (.inr hmem)) n hn

theorem inputs_lt (h : Wf c) {w : ℕ} {nd : Node V E F} (hw : c.nodes w = some nd)
    {l : List Input} (hl : ∀ f ∈ l, f ∈ nd.body.futures) (hmem : o ∈ inputObjs l)
    (hn : n ∈ o.names) : n < c.fresh := by
  obtain ⟨f, hf, rfl⟩ := mem_inputObjs.mp hmem
  obtain rfl : n = f.2 := by simpa [Obj.names] using hn
  exact h.owned_lt (owned_of_futures hw (hl f hf))

/-- So does what it adds. -/
theorem move_names (h : Wf c) (hm : Move c e rem add) (ho : c.objs = rem + rest) (hmem : o ∈ add)
    (hn : n ∈ o.names) : n < c.fresh := by
  have hrem : ∀ o ∈ rem, n ∈ o.names → n < c.fresh := fun o hmem hn => h.names_of_rem ho hmem hn
  cases hm with
  | peek s w nd hr hw =>
    rcases Multiset.mem_cons.mp hmem with rfl | hmem
    · exact hrem _ (by simp) hn
    · exact h.inputs_lt hw (fun f hf => List.mem_of_mem_filter hf) hmem hn
  | invokeNextShared s w a nd hk hu hr hw =>
    have ha : ∀ m ∈ [s, a.parent], n = m → n < c.fresh := by
      rintro m hm rfl
      exact hrem (.running s a) (by simp) (by simpa [Obj.names] using hm)
    simp only [Multiset.mem_cons] at hmem
    rcases hmem with rfl | rfl | hmem
    · exact ha s (by simp) (by simpa [Obj.names] using hn)
    · exact ha a.parent (by simp) (by simpa [Obj.names] using hn)
    · exact h.inputs_lt hw (fun f hf => List.mem_of_mem_filter hf) hmem hn
  | register w i nd f hw hi hpend =>
    have hf : f.2 < c.fresh := h.owned_lt (owned_of_futures hw (List.mem_of_getElem? hi))
    have hwf : w < c.fresh := h.bound w nd hw
    simp only [Multiset.insert_eq_cons, Multiset.mem_cons, Multiset.mem_singleton] at hmem
    rcases hmem with rfl | rfl <;> simp [Obj.names, Closure.names] at hn <;> grind
  | _ =>
    simp_all [Obj.names, Closure.names] <;> grind [Obj.names, Closure.names, push_names]

/-- What comes with a new node may name that too. -/
theorem spawn_names {nd : Node V E F} (h : Wf c) (hs : Spawn c e rem nd add)
    (ho : c.objs = rem + rest) (hmem : o ∈ add) (hn : n ∈ o.names) : n < c.fresh + 1 := by
  cases hs with
  | attach a =>
    have hp : a.parent < c.fresh :=
      h.names_of_rem ho (o := .future a.unique a.parent) (by simp) (by simp [Obj.names])
    simp only [Multiset.mem_cons, mem_keeps] at hmem
    rcases hmem with rfl | rfl | ⟨-, -, rfl⟩
    · simp [Obj.names] at hn
      omega
    · simp [push_names, Closure.names] at hn
      omega
    · simp [Obj.names] at hn
      omega
  | _ => simp_all [Obj.names] <;> grind [Obj.names]

theorem settle_names {x : Storage V E} {clean : Body F → Body F} (h : Wf c)
    (hs : Settle c e rem s x clean add) (ho : c.objs = rem + rest) (hmem : o ∈ add)
    (hn : n ∈ o.names) : n < c.fresh := by
  have hrem : ∀ o ∈ rem, n ∈ o.names → n < c.fresh := fun o hmem hn => h.names_of_rem ho hmem hn
  cases hs with
  | ret h' s r =>
    obtain ⟨-, rfl⟩ := mem_cleanup.mp hmem
    exact hrem _ (Multiset.mem_singleton_self _) hn
  | _ => simp_all [Obj.names]

theorem touch_names {nd : Node V E F} {body : Body F} (h : Wf c)
    (ht : Touch c e rem s nd body add) (ho : c.objs = rem + rest) (hs : c.nodes s = some nd)
    (hmem : o ∈ add) (hn : n ∈ o.names) : n < c.fresh := by
  have hrem : ∀ o ∈ rem, n ∈ o.names → n < c.fresh := fun o hmem hn => h.names_of_rem ho hmem hn
  have hlt : s < c.fresh := h.bound s nd hs
  cases ht with
  | register w i _ f hi =>
    have hf : f.2 < c.fresh := h.owned_lt (owned_of_futures hs (List.mem_of_getElem? hi))
    simp only [Multiset.mem_cons, mem_executeIf] at hmem
    rcases hmem with rfl | rfl | ⟨-, rfl⟩ <;> simp [Obj.names, Closure.names] at hn <;> grind
  | notify t w pos =>
    simp only [Multiset.mem_cons, mem_executeIf] at hmem
    rcases hmem with rfl | ⟨-, rfl⟩
    · exact hrem _ (Multiset.mem_singleton_self _) hn
    · obtain rfl : n = s := by simpa [Obj.names] using hn
      exact hlt
  | finish w i =>
    simp only [Multiset.mem_cons, mem_executeIf] at hmem
    rcases hmem with rfl | ⟨-, rfl⟩ <;> simp [Obj.names] at hn <;> grind
  | take s' w =>
    rcases Multiset.mem_cons.mp hmem with rfl | hmem
    · exact hrem _ (Multiset.mem_singleton_self _) hn
    · exact h.inputs_lt hs (fun _ hf => hf) hmem hn
  | invokeNext s' w a =>
    have ha : ∀ m ∈ [s', a.parent], n = m → n < c.fresh := by
      rintro m hm rfl
      exact hrem (.running s' a) (by simp) (by simpa [Obj.names] using hm)
    simp only [Multiset.mem_cons] at hmem
    rcases hmem with rfl | rfl | hmem
    · exact ha s' (by simp) (by simpa [Obj.names] using hn)
    · exact ha a.parent (by simp) (by simpa [Obj.names] using hn)
    · exact h.inputs_lt hs (fun _ hf => hf) hmem hn
  | run s _ x a hlock hb =>
    obtain rfl := Multiset.mem_singleton.mp hmem
    rcases List.mem_cons.mp hn with rfl | hn
    · exact hlt
    · refine h.owned_lt (.inr ⟨s, nd, hs, List.mem_append_right _ ?_⟩)
      simpa [hb, Body.refs] using hn
  | abandon | schedule | clean =>
    simp_all [Obj.names, Closure.names] <;> grind [Obj.names, Closure.names]

/-- **Every step keeps the references alive and the names bounded.** -/
theorem step (h : Wf c) (hst : Step c e c') : Wf c' := by
  have hfresh := hst.fresh_le
  refine ⟨fun n hn => ?_, ?_, ?_⟩
  · obtain hold | ⟨-, hnd⟩ := hst.owned hn
    · obtain ⟨nd, hnd⟩ := h.alive n hold
      obtain hnd' | ⟨-, hun⟩ := hst.alive hnd
      · exact hnd'
      · exact absurd hold hun
    · exact hnd
  · intro n nd' hn'
    cases hst.node hn' with
    | spawn hn _ _ _ hf => omega
    | same hn | settle hn | unwrap hn | touch hn | execute hn =>
      exact (h.bound n _ hn).trans_le hfresh
  · intro o hmem n hn
    cases hst with
    | move hm ho =>
      rcases Multiset.mem_add.mp hmem with hmem | hmem
      · exact h.move_names hm ho hmem hn
      · exact h.names_of_rest ho hmem hn
    | spawn hs ho =>
      rcases Multiset.mem_add.mp hmem with hmem | hmem
      · exact h.spawn_names hs ho hmem hn
      · exact Nat.lt_succ_of_lt (h.names_of_rest ho hmem hn)
    | settle hs ho hnd =>
      rcases Multiset.mem_cons.mp hmem with rfl | hmem
      · obtain rfl : n = _ := by simpa [Obj.names] using hn
        exact h.bound _ _ hnd
      rcases Multiset.mem_add.mp hmem with hmem | hmem
      · exact h.settle_names hs ho hmem hn
      · exact h.names_of_rest ho hmem hn
    | @unwrap h' s t u rest nd ho hnd =>
      have ht : t < c.fresh :=
        h.names_of_rem ho (o := .future u t) (by simp) (by simp [Obj.names])
      have hs := h.bound _ _ hnd
      rcases Multiset.mem_cons.mp hmem with rfl | hmem
      · simp [Obj.names] at hn
        rcases hn with rfl | rfl <;> assumption
      rcases Multiset.mem_add.mp hmem with hmem | hmem
      · obtain ⟨-, rfl⟩ := mem_cleanup.mp hmem
        obtain rfl : n = _ := by simpa [Obj.names] using hn
        exact hs
      · exact h.names_of_rest ho hmem hn
    | touch ht ho hnd =>
      rcases Multiset.mem_add.mp hmem with hmem | hmem
      · exact h.touch_names ht ho hnd hmem hn
      · exact h.names_of_rest ho hmem hn
    | @execute s rest nd ho hnd =>
      rcases Multiset.mem_cons.mp hmem with rfl | hmem
      · obtain rfl : n = _ := by simpa [Obj.names] using hn
        exact h.bound _ _ hnd
      · obtain ⟨o', ho', rfl⟩ := Multiset.mem_map.mp hmem
        refine h.names_of_rest ho ho' ?_
        cases o' with
        | linked t k =>
          simp only [Obj.unlink] at hn
          split at hn <;> exact hn
        | _ => exact hn
    | destroy => exact h.names o (Multiset.mem_filter.mp hmem).1 n hn

end Wf

/-- **Names and owners are in order in every run.** -/
theorem Reachable.wf {ok : Config V E F → Event V E F → Prop} (h : Reachable ok c) : Wf c :=
  h.invariant (fun _ _ _ hi _ hst => hi.step hst) wf_init

/-- Addresses are not reused. -/
theorem fresh_le_run {ok : Config V E F → Event V E F → Prop} (hrun : Runs Step ok c c') :
    c.fresh ≤ c'.fresh :=
  hrun.invariant (I := fun c' => c.fresh ≤ c'.fresh) (fun _ _ _ h _ hst => h.trans hst.fresh_le)
    le_rfl

/-- **Ownership is lost for good**: along a run no node that was there
gets an owner back. -/
theorem owned_run {ok : Config V E F → Event V E F → Prop} (hrun : Runs Step ok c c')
    (hn : n < c.fresh) (hun : ¬ Owned c n) : ¬ Owned c' n := by
  have hboth : n < c'.fresh ∧ ¬ Owned c' n := by
    refine hrun.invariant (I := fun c => n < c.fresh ∧ ¬ Owned c n) ?_ ⟨hn, hun⟩
    rintro c e c' ⟨hn, hun⟩ - hst
    refine ⟨hn.trans_le hst.fresh_le, fun howned => ?_⟩
    obtain hold | ⟨rfl, -⟩ := hst.owned howned
    · exact hun hold
    · exact lt_irrefl _ hn
  exact hboth.2

end Futures

end PortableConcurrency
