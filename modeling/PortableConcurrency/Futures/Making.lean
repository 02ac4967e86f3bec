import PortableConcurrency.Futures.Registration

/-!
# While `make` runs

Until `make` of a combinator returns, nobody but `make` and the closures it
has registered refers to the combinator. In particular nobody has a future
that leads to it, so nobody moves its sequence away.
-/

namespace PortableConcurrency

namespace Futures

variable {V E F : Type*} {c c' : Config V E F} {e : Event V E F}
variable {rem add rest : Multiset (Obj F)} {s t n w i : ℕ} {o : Obj F}
variable {nd nd' : Node V E F}

/-- The references of an object, but for those the combinator's own calls
have to it. -/
def Obj.shown : Obj F → List ℕ
  | .linked _ (.combine _ _) => []
  | .queued _ (.combine _ _) => []
  | .spent _ (.combine _ _) => []
  | .execute _ => []
  | .making _ _ => []
  | .held _ => []
  | o => o.refs

/-- Somebody else refers to `n`. -/
def Shown (c : Config V E F) (n : ℕ) : Prop :=
  (∃ o ∈ c.objs, n ∈ o.shown) ∨ ∃ m nd, c.nodes m = some nd ∧ n ∈ nd.refs

/-- Who shows a state owns it. -/
theorem Obj.shown_refs (h : n ∈ o.shown) : n ∈ o.refs := by
  unfold Obj.shown at h
  split at h <;> simp_all

theorem Shown.owned (h : Shown c n) : Owned c n := by
  rcases h with ⟨o, ho, hn⟩ | h
  · exact .inl ⟨o, ho, Obj.shown_refs hn⟩
  · exact .inr h

theorem shown_of_rem (ho : c.objs = rem + rest) (h : o ∈ rem) (hn : n ∈ o.shown) : Shown c n :=
  .inl ⟨o, mem_of_rem ho h, hn⟩

/-- The inputs of a combinator are shown. -/
theorem shown_of_futures {nd : Node V E F} (hn : c.nodes w = some nd) {f : Input}
    (hf : f ∈ nd.body.futures) : Shown c f.2 := by
  refine .inr ⟨w, nd, hn, List.mem_append_right _ ?_⟩
  cases hb : nd.body with
  | whenAll l r | whenAny l b i =>
    rw [hb] at hf
    exact List.mem_map.mpr ⟨f, hf, rfl⟩
  | promise b | task g | cnt x a => simp [hb, Body.futures] at hf

theorem push_shown (k : Closure) : (c.push t k : Obj F).shown = (Obj.linked t k : Obj F).shown := by
  unfold Config.push
  split <;> cases k <;> rfl

/-- A combinator is shown only by who it was shown to. -/
theorem Move.shown (hm : Move c e rem add) (ho : c.objs = rem + rest)
    (hk : HasKind c n .combinator) (h : o ∈ add) (hn : n ∈ o.shown) : Shown c n := by
  have hrem : ∀ o ∈ rem, n ∈ o.shown → Shown c n := fun o h hn => shown_of_rem ho h hn
  cases hm with
  | peek s w nd hr hw =>
    simp only [sharedObjs, Multiset.mem_cons, mem_inputObjs, List.mem_filter] at h
    rcases h with rfl | ⟨f, ⟨hf, -⟩, rfl⟩
    · exact hrem _ (by simp) hn
    · obtain rfl : n = f.2 := by simpa [Obj.shown, Obj.refs] using hn
      exact shown_of_futures hw hf
  | invokeNextShared s w a nd hkind hu hr hw =>
    simp only [sharedObjs, Multiset.mem_cons, mem_inputObjs, List.mem_filter] at h
    rcases h with rfl | rfl | ⟨f, ⟨hf, -⟩, rfl⟩
    · exact hrem (.running s a) (by simp) (by simp_all [Obj.shown, Obj.refs])
    · simp [Obj.shown] at hn
    · obtain rfl : n = f.2 := by simpa [Obj.shown, Obj.refs] using hn
      exact shown_of_futures hw hf
  | callTask owning s fn nd hlock hs hf =>
    simp only [Multiset.insert_eq_cons, Multiset.mem_cons, Multiset.mem_singleton] at h
    rcases h with rfl | rfl
    · exact hrem _ (by simp) hn
    · -- a task is no combinator
      obtain rfl : n = s := by simpa [Obj.shown, Obj.refs] using hn
      have hcomb := hk nd hs
      rw [hf] at hcomb
      cases hcomb
  | notify u s =>
    simp only [Multiset.insert_eq_cons, Multiset.mem_cons, Multiset.mem_singleton] at h
    rcases h with rfl | rfl
    · exact hrem _ (by simp) hn
    · rw [push_shown] at hn
      simp [Obj.shown, Obj.refs, Closure.refs] at hn
  | detach u s =>
    simp only [Multiset.insert_eq_cons, Multiset.mem_cons, Multiset.mem_singleton] at h
    rcases h with rfl | rfl
    · exact hrem _ (by simp) hn
    · rw [push_shown] at hn
      exact hrem (.future u s) (by simp) (by simpa [Obj.shown, Obj.refs, Closure.refs] using hn)
  | subscribe s t =>
    simp only [Multiset.insert_eq_cons, Multiset.mem_cons, Multiset.mem_singleton] at h
    rcases h with rfl | rfl
    · simp [Obj.shown] at hn
    · rw [push_shown] at hn
      simp [Obj.shown, Obj.refs, Closure.refs] at hn
  | callPlain t k hplain =>
    obtain rfl := Multiset.mem_singleton.mp h
    refine hrem (.queued t k) (by simp) ?_
    rcases hplain with rfl | ⟨s, rfl⟩ <;> exact hn
  | callExpired t s k hk' hexp =>
    obtain rfl := Multiset.mem_singleton.mp h
    rcases hk' with rfl | rfl <;> simp [Obj.shown, Obj.refs, Closure.refs] at hn
  | _ => simp_all [Obj.shown, Obj.refs] <;> grind [Obj.shown, Obj.refs, Closure.refs]

/-- A step that stores a result shows no state that was not shown before. -/
theorem Settle.shown {x : Storage V E} {clean : Body F → Body F}
    (hs : Settle c e rem s x clean add) (ho : c.objs = rem + rest) (h : o ∈ add)
    (hn : n ∈ o.shown) : Shown c n := by
  have hrem : ∀ o ∈ rem, n ∈ o.shown → Shown c n := fun o h hn => shown_of_rem ho h hn
  cases hs with
  | ret g s r =>
    obtain ⟨-, rfl⟩ := mem_cleanup.mp h
    exact hrem _ (Multiset.mem_singleton_self _) (by simpa [Obj.shown, Obj.refs] using hn)
  | _ => simp_all [Obj.shown]

/-- Of the steps that change a body only the end of `make` shows a
combinator. -/
theorem Touch.shown {body : Body F} (ht : Touch c e rem s nd body add) (ho : c.objs = rem + rest)
    (hs : c.nodes s = some nd) (hk : HasKind c n .combinator) (hfin : e ≠ .finish n)
    (h : o ∈ add) (hn : n ∈ o.shown) : Shown c n := by
  have hrem : ∀ o ∈ rem, n ∈ o.shown → Shown c n := fun o h hn => shown_of_rem ho h hn
  cases ht with
  | notify t w pos =>
    simp only [Multiset.mem_cons, mem_executeIf] at h
    rcases h with rfl | ⟨-, rfl⟩ <;> simp [Obj.shown] at hn
  | register w i _ f hi =>
    simp only [Multiset.mem_cons, mem_executeIf] at h
    rcases h with rfl | rfl | ⟨-, rfl⟩ <;> simp [Obj.shown] at hn
  | finish w i =>
    simp only [Multiset.mem_cons, mem_executeIf] at h
    rcases h with rfl | ⟨-, rfl⟩
    · obtain rfl : n = s := by simpa [Obj.shown, Obj.refs] using hn
      exact absurd rfl hfin
    · simp [Obj.shown] at hn
  | take s' w =>
    simp only [Multiset.mem_cons, mem_inputObjs] at h
    rcases h with rfl | ⟨f, hf, rfl⟩
    · simp [Obj.shown] at hn
    · obtain rfl : n = f.2 := by simpa [Obj.shown, Obj.refs] using hn
      exact shown_of_futures hs hf
  | invokeNext s' w a =>
    simp only [Multiset.mem_cons, mem_inputObjs] at h
    rcases h with rfl | rfl | ⟨f, hf, rfl⟩
    · exact hrem (.running s' a) (by simp) (by simp_all [Obj.shown, Obj.refs])
    · simp [Obj.shown] at hn
    · obtain rfl : n = f.2 := by simpa [Obj.shown, Obj.refs] using hn
      exact shown_of_futures hs hf
  | run s _ x a hlock hb =>
    obtain rfl := Multiset.mem_singleton.mp h
    rcases List.mem_cons.mp hn with rfl | hn
    · -- a continuation is no combinator
      have hcomb := hk nd hs
      rw [hb] at hcomb
      cases hcomb
    · refine .inr ⟨s, nd, hs, List.mem_append_right _ ?_⟩
      simpa [hb, Body.refs] using hn
  | schedule t s _ a =>
    simp only [Multiset.insert_eq_cons, Multiset.mem_cons, Multiset.mem_singleton] at h
    rcases h with rfl | rfl <;> simp [Obj.shown, Obj.refs, Closure.refs] at hn
  | abandon | clean => simp at h

/-- A step that makes a node shows no other that was not shown before. -/
theorem Spawn.shown (hs : Spawn c e rem nd add) (ho : c.objs = rem + rest) (hne : n ≠ c.fresh)
    (h : o ∈ add) (hn : n ∈ o.shown) : Shown c n := by
  have hrem : ∀ o ∈ rem, n ∈ o.shown → Shown c n := fun o h hn => shown_of_rem ho h hn
  cases hs with
  | attach a =>
    simp only [Multiset.mem_cons, mem_keeps] at h
    rcases h with rfl | rfl | ⟨hu, -, rfl⟩
    · exact absurd (by simpa [Obj.shown, Obj.refs] using hn) hne
    · rw [push_shown] at hn
      simp [Obj.shown, Obj.refs, Closure.refs] at hn
    · exact hrem (.future a.unique a.parent) (by simp) (by simpa [Obj.shown, Obj.refs] using hn)
  | _ => simp_all [Obj.shown, Obj.refs] <;> grind [Obj.shown, Obj.refs]

/-- The references of a node that is made were shown. -/
theorem Spawn.node_shown (hs : Spawn c e rem nd add) (ho : c.objs = rem + rest)
    (hn : n ∈ nd.refs) : Shown c n := by
  cases hs with
  | attach a =>
    refine shown_of_rem ho (o := .future a.unique a.parent) (by simp) ?_
    simpa [Node.refs, Storage.refs, Body.refs, Obj.shown, Obj.refs] using hn
  | whenAll l | whenAny l =>
    obtain ⟨f, hf, rfl⟩ : ∃ f ∈ l, f.2 = n := by
      simpa [Node.refs, Storage.refs, Body.refs] using hn
    exact shown_of_rem ho (o := .future f.1 f.2) (mem_inputObjs.mpr ⟨f, hf, rfl⟩)
      (by simp [Obj.shown, Obj.refs])
  | readySequence body hbody =>
    rcases hbody with rfl | rfl <;> simp [Node.refs, Storage.refs, Body.refs] at hn
  | newPromise | makePromise | newTask => simp [Node.refs, Storage.refs, Body.refs] at hn

/-- Where a node was changed: what is shown was, if the new objects and the
new body show nothing new. -/
theorem Shown.of_setNode {objs : Multiset (Obj F)} {k : ℕ}
    (h : Shown ⟨c.setNode s nd, objs, k⟩ n) (hobjs : ∀ o ∈ objs, n ∈ o.shown → Shown c n)
    (hnode : n ∈ nd.refs → Shown c n) : Shown c n := by
  rcases h with ⟨o, ho, hn⟩ | ⟨m, nd', hm, hn⟩
  · exact hobjs o ho hn
  · obtain ⟨rfl, rfl⟩ | ⟨-, hm⟩ := setNode_eq hm
    · exact hnode hn
    · exact .inr ⟨m, nd', hm, hn⟩

/-- Leaving a list shows nothing. -/
theorem Obj.unlink_shown (s : ℕ) (o : Obj F) : (o.unlink s).shown = o.shown := by
  cases o with
  | linked t k =>
    simp only [Obj.unlink]
    split <;> cases k <;> rfl
  | _ => rfl

/-- **A combinator is first shown by the end of its `make`.** -/
theorem Step.shown (hst : Step c e c') (hk : HasKind c n .combinator) (hlt : n < c.fresh)
    (hfin : e ≠ .finish n) (h : Shown c' n) : Shown c n := by
  have hrest : ∀ {rem rest : Multiset (Obj F)}, c.objs = rem + rest → ∀ o ∈ rest, n ∈ o.shown →
      Shown c n := fun ho o hmem hn => .inl ⟨o, mem_of_rest ho hmem, hn⟩
  cases hst with
  | @move _ rem add rest hm ho =>
    rcases h with ⟨o, hmem, hn⟩ | h
    · rcases Multiset.mem_add.mp hmem with hmem | hmem
      · exact hm.shown ho hk hmem hn
      · exact hrest ho o hmem hn
    · exact .inr h
  | @spawn _ rem add rest nd hs ho =>
    refine h.of_setNode (fun o hmem hn => ?_) fun hn => hs.node_shown ho hn
    rcases Multiset.mem_add.mp hmem with hmem | hmem
    · exact hs.shown ho (by omega) hmem hn
    · exact hrest ho o hmem hn
  | @settle _ rem add rest s x clean nd hs ho hnd hempty =>
    refine h.of_setNode (fun o hmem hn => ?_) fun hn => ?_
    · rcases Multiset.mem_cons.mp hmem with rfl | hmem
      · simp [Obj.shown] at hn
      rcases Multiset.mem_add.mp hmem with hmem | hmem
      · exact hs.shown ho hmem hn
      · exact hrest ho o hmem hn
    · refine .inr ⟨s, nd, hnd, List.mem_append_right _ (hs.clean_refs ?_)⟩
      simpa [Node.refs, hs.storage_refs] using hn
  | @unwrap g s t u rest nd ho hnd =>
    have hs : n = s → Shown c n := by
      rintro rfl
      exact shown_of_rem ho (o := .invoked g n) (by simp) (by simp [Obj.shown, Obj.refs])
    have ht : n = t → Shown c n := by
      rintro rfl
      exact shown_of_rem ho (o := .future u n) (by simp) (by simp [Obj.shown, Obj.refs])
    refine h.of_setNode (fun o hmem hn => ?_) fun hn => ?_
    · rcases Multiset.mem_cons.mp hmem with rfl | hmem
      · rcases List.mem_cons.mp hn with hn | hn
        · exact hs hn
        · exact ht (List.mem_singleton.mp hn)
      rcases Multiset.mem_add.mp hmem with hmem | hmem
      · obtain ⟨-, rfl⟩ := mem_cleanup.mp hmem
        exact hs (by simpa [Obj.shown, Obj.refs] using hn)
      · exact hrest ho o hmem hn
    · rcases List.mem_append.mp hn with hn | hn
      · exact ht (List.mem_singleton.mp hn)
      · exact .inr ⟨s, nd, hnd, List.mem_append_right _ hn⟩
  | @touch _ rem add rest s nd body ht ho hnd =>
    refine h.of_setNode (fun o hmem hn => ?_) fun hn => ?_
    · rcases Multiset.mem_add.mp hmem with hmem | hmem
      · exact ht.shown ho hnd hk hfin hmem hn
      · exact hrest ho o hmem hn
    · refine .inr ⟨s, nd, hnd, ?_⟩
      rcases List.mem_append.mp hn with hn | hn
      · exact List.mem_append_left _ hn
      · exact List.mem_append_right _ (ht.body_refs hn)
  | @execute s rest nd ho hnd =>
    refine h.of_setNode (fun o hmem hn => ?_) fun hn => .inr ⟨s, nd, hnd, hn⟩
    rcases Multiset.mem_cons.mp hmem with rfl | hmem
    · simp [Obj.shown] at hn
    · obtain ⟨o', ho', rfl⟩ := Multiset.mem_map.mp hmem
      rw [Obj.unlink_shown] at hn
      exact hrest ho o' ho' hn
  | @destroy s nd hnd hun =>
    rcases h with ⟨o, hmem, hn⟩ | ⟨m, nd', hm, hn⟩
    · exact .inl ⟨o, (Multiset.mem_filter.mp hmem).1, hn⟩
    · by_cases hms : m = s
      · subst hms
        simp at hm
      · exact .inr ⟨m, nd', by simpa [hms] using hm, hn⟩

/-! ## One loop, and nobody else -/

/-- Whether an object is the loop of `make` of `w`. -/
def Obj.makes (w : ℕ) : Obj F → Bool
  | .making v _ => v = w
  | _ => false

@[simp] theorem makes_inputObjs (l : List Input) :
    tally (Obj.makes w) (inputObjs l : Multiset (Obj F)) = 0 := tally_inputObjs (fun _ _ => rfl) l

@[simp] theorem makes_sharedObjs (l : List Input) :
    tally (Obj.makes w) (sharedObjs l : Multiset (Obj F)) = 0 :=
  tally_inputObjs (fun _ _ => rfl) _

@[simp] theorem makes_keeps (a : Action F) : tally (Obj.makes w) a.keeps = 0 :=
  tally_keeps (fun _ _ => rfl) a

@[simp] theorem makes_cleanup (h : Caller) (n : ℕ) :
    tally (Obj.makes w) (cleanup h n : Multiset (Obj F)) = 0 := tally_cleanup (fun _ => rfl) h n

@[simp] theorem makes_executeIf (b : Bool) (n : ℕ) :
    tally (Obj.makes w) (executeIf b n : Multiset (Obj F)) = 0 := by
  simp [tally_executeIf, Obj.makes]

/-- No closure makes a combinator. -/
@[simp] theorem makes_push (k : Closure) : (c.push t k : Obj F).makes w = false := by
  unfold Config.push
  split <;> rfl

theorem makes_unlink (o : Obj F) (t : ℕ) : (o.unlink t).makes w = o.makes w := by
  cases o with
  | linked t' k =>
    simp only [Obj.unlink]
    split <;> rfl
  | _ => rfl

/-- Only the loop of `make` does. -/
theorem Obj.eq_of_makes (h : o.makes w = true) : ∃ i, o = .making w i := by
  cases o with
  | making v i =>
    obtain rfl : v = w := by simpa [Obj.makes] using h
    exact ⟨i, rfl⟩
  | _ => simp [Obj.makes] at h

/-- The loops that make `w` are as many before as after a step that changes
no node. -/
theorem Move.makes (hm : Move c e rem add) : tally (Obj.makes w) add = tally (Obj.makes w) rem := by
  cases hm with
  | notify | detach | subscribe =>
    simp only [Multiset.insert_eq_cons, tally_cons, tally_singleton, makes_push]
    simp [Obj.makes]
  | _ => simp [Obj.makes]

/-- So they are when a result is stored. -/
theorem Settle.makes {x : Storage V E} {clean : Body F → Body F}
    (hs : Settle c e rem n x clean add) :
    tally (Obj.makes w) add = tally (Obj.makes w) rem := by
  cases hs <;> simp [Obj.makes]

/-- Of the steps that change a body only the end of `make` ends a loop. -/
theorem Touch.makes {body : Body F} (ht : Touch c e rem n nd body add) :
    (e ≠ .finish w → tally (Obj.makes w) add = tally (Obj.makes w) rem) ∧
      (e = .finish w → tally (Obj.makes w) add + 1 = tally (Obj.makes w) rem) := by
  cases ht with
  | finish =>
    simp only [Obj.makes, tally_cons, tally_singleton, makes_executeIf]
    refine ⟨fun hne => ?_, fun he => ?_⟩
    · have hnw : n ≠ w := fun h => hne (by rw [h])
      simp [hnw]
    · cases he
      simp
  | _ => simp [Obj.makes]

/-- A new loop comes with a new state. -/
theorem Spawn.makes (hs : Spawn c e rem nd add) :
    tally (Obj.makes w) add = tally (Obj.makes w) rem ∨
      (w = c.fresh ∧ tally (Obj.makes w) add = 1) := by
  cases hs with
  | attach a =>
    simp only [tally_cons, makes_push]
    simp [Obj.makes]
  | whenAll | whenAny =>
    by_cases hw : c.fresh = w <;> simp [Obj.makes, hw]
  | _ => simp [Obj.makes]

/-- **Loops do not multiply**, and `finish` ends one. -/
theorem Step.makes (hst : Step c e c') (hw : w ≠ c.fresh) :
    (e ≠ .finish w → tally (Obj.makes w) c'.objs = tally (Obj.makes w) c.objs) ∧
      (e = .finish w → tally (Obj.makes w) c'.objs + 1 = tally (Obj.makes w) c.objs) := by
  cases hst with
  | move hm ho =>
    rw [ho, tally_add, tally_add, hm.makes]
    refine ⟨fun _ => rfl, fun he => ?_⟩
    subst he
    cases hm
  | spawn hs ho =>
    rw [ho, tally_add, tally_add, hs.makes.resolve_right fun hf => hw hf.1]
    refine ⟨fun _ => rfl, fun he => ?_⟩
    subst he
    cases hs
  | settle hs ho =>
    rw [ho]
    simp only [tally_cons, tally_add, hs.makes, Obj.makes]
    refine ⟨by simp, fun he => ?_⟩
    subst he
    cases hs
  | unwrap ho =>
    rw [ho]
    simp [Obj.makes]
  | touch ht ho =>
    rw [ho, tally_add, tally_add]
    obtain ⟨heq, hfin⟩ := ht.makes (w := w)
    exact ⟨fun hne => by rw [heq hne], fun he => by have := hfin he; omega⟩
  | @execute s rest nd ho =>
    rw [ho]
    simp only [tally_cons, tally_add, tally_singleton, tally_map_of _ (fun o => makes_unlink o s)]
    simp [Obj.makes]
  | destroy =>
    refine ⟨fun _ => tally_filter_of _ fun o _ hmakes => ?_, by simp⟩
    obtain ⟨i, rfl⟩ := Obj.eq_of_makes hmakes
    simp [Obj.isLinked]

/-- A new state has at most one loop. -/
theorem Step.makes_fresh (h : tally (Obj.makes c.fresh) c.objs = 0) (hst : Step c e c') :
    tally (Obj.makes c.fresh) c'.objs ≤ 1 := by
  cases hst with
  | move hm ho =>
    rw [ho, tally_add] at h
    rw [tally_add, hm.makes]
    omega
  | spawn hs ho =>
    rw [ho, tally_add] at h
    rw [tally_add]
    rcases hs.makes (w := c.fresh) with heq | ⟨-, heq⟩ <;> omega
  | settle hs ho =>
    rw [ho, tally_add] at h
    simp only [tally_cons, tally_add, hs.makes, Obj.makes]
    simp
    omega
  | unwrap ho =>
    rw [ho, tally_add] at h
    simp [Obj.makes]
    omega
  | touch ht ho =>
    rw [ho, tally_add] at h
    obtain ⟨heq, hfin⟩ := ht.makes (w := c.fresh)
    rw [tally_add]
    by_cases he : e = .finish c.fresh
    · have := hfin he
      omega
    · have := heq he
      omega
  | @execute s rest nd ho =>
    rw [ho, tally_add] at h
    simp only [tally_cons, tally_map_of _ (fun o => makes_unlink o s), Obj.makes]
    simp
    omega
  | destroy => exact (tally_filter_le _ _ _).trans (by omega)

/-- **While the loop of `make` runs, nobody else refers to the
combinator**, and there is one loop. -/
structure Private (c : Config V E F) : Prop where
  sole : ∀ w, tally (Obj.makes w) c.objs ≤ 1
  hidden : ∀ w i, .making w i ∈ c.objs → ¬ Shown c w
  within : ∀ w i nd, .making w i ∈ c.objs → c.nodes w = some nd → i ≤ nd.body.futures.length

theorem private_init : Private (init : Config V E F) := by
  refine ⟨fun w => by simp [init], ?_, ?_⟩ <;> simp [init]

/-- A state that has not been made has none. -/
theorem Wf.makes_fresh (h : Wf c) : tally (Obj.makes c.fresh) c.objs = 0 := by
  refine tally_eq_zero fun o ho => ?_
  by_contra hne
  obtain ⟨i, rfl⟩ := Obj.eq_of_makes (by simpa using hne)
  exact lt_irrefl _ (h.names _ ho c.fresh (by simp [Obj.names]))

/-- Who can read a combinator was shown it. -/
theorem Reads.shown {m : ℕ} (hread : Reads c.objs m) (hr : Resolves c m n .futures) :
    Shown c n := by
  have hm : Shown c m := by
    rcases hread with hmem | ⟨s, a, hmem, rfl⟩
    · exact .inl ⟨_, hmem, by simp [Obj.shown, Obj.refs]⟩
    · exact .inl ⟨_, hmem, by simp [Obj.shown, Obj.refs]⟩
  generalize (.futures : Outcome V E) = x at hr
  clear hread
  induction hr with
  | leaf => exact hm
  | @inner s t l nd x hn hex hbody hs ht ih =>
    exact ih (.inr ⟨s, nd, hn, List.mem_append_left _ (by simp [hs, Storage.refs])⟩)

/-- The sequence stays while the loop runs. -/
theorem Private.futures (hp : Private c) (h : Wf c) (hst : Step c e c')
    (hmem : .making w i ∈ c.objs) (hn : c.nodes w = some nd) (hn' : c'.nodes w = some nd') :
    nd'.body.futures = nd.body.futures := by
  refine (hst.futures h hn hn').resolve_right ?_
  rintro ⟨-, m, hr, hread⟩
  exact hp.hidden w i hmem (hread.shown hr)

theorem push_ne_making (k : Closure) : (c.push t k : Obj F) ≠ .making w i := by
  unfold Config.push
  split <;> simp

/-- A loop of `make` comes alone. -/
theorem Spawn.eq_of_making (hs : Spawn c e rem nd add) (hmem : .making w i ∈ add) :
    add = {.making c.fresh 0} := by
  cases hs with
  | whenAll | whenAny => rfl
  | attach a =>
    simp only [Multiset.mem_cons, mem_keeps] at hmem
    rcases hmem with hmem | hmem | ⟨-, -, hmem⟩
    · cases hmem
    · exact absurd hmem.symm (push_ne_making _)
    · cases hmem
  | _ => simp at hmem

theorem Wf.nodes_fresh (h : Wf c) : c.nodes c.fresh = none := by
  by_contra hne
  obtain ⟨nd, hn⟩ := Option.ne_none_iff_exists'.mp hne
  exact lt_irrefl _ (h.bound _ _ hn)

/-- A new loop is about a combinator nobody has seen. -/
theorem Step.fresh_hidden (h : Wf c) (hst : Step c e c') (hmem : .making c.fresh i ∈ c'.objs) :
    ¬ Shown c' c.fresh := by
  intro hshown
  -- only a step that makes the node can show it
  have hold : c'.nodes c.fresh = none → False := fun hnone => by
    obtain hold | ⟨-, nd', hn'⟩ := hst.owned hshown.owned
    · exact h.not_owned_fresh hold
    · rw [hnone] at hn'
      cases hn'
  have hset : ∀ {s nd nd'}, c.nodes s = some nd → c.setNode s nd' c.fresh = none := by
    intro s nd nd' hn
    have hne : c.fresh ≠ s := by
      rintro rfl
      exact lt_irrefl _ (h.bound _ _ hn)
    simp [Config.setNode, hne, h.nodes_fresh]
  cases hst with
  | move => exact hold h.nodes_fresh
  | settle _ _ hn => exact hold (hset hn)
  | unwrap _ hn | touch _ _ hn | execute _ hn => exact hold (hset hn)
  | @destroy s nd hn =>
    refine hold ?_
    by_cases hs : c.fresh = s
    · simp [hs]
    · simp [hs, h.nodes_fresh]
  | @spawn _ rem add rest nd hs ho =>
    have hno : ∀ o ∈ rest, c.fresh ∉ o.names := fun o hmem hn =>
      lt_irrefl _ (h.names o (mem_of_rest ho hmem) _ hn)
    have hmem : .making c.fresh i ∈ add := (Multiset.mem_add.mp hmem).resolve_right fun hr =>
      hno _ hr (by simp [Obj.names])
    refine h.not_owned_fresh (hshown.of_setNode (fun o ho' hn => ?_) fun hn => ?_).owned
    · rcases Multiset.mem_add.mp ho' with ho' | ho'
      · rw [hs.eq_of_making hmem] at ho'
        obtain rfl := Multiset.mem_singleton.mp ho'
        simp [Obj.shown] at hn
      · exact absurd (Obj.refs_subset_names (Obj.shown_refs hn)) (hno o ho')
    · exact hs.node_shown ho hn

/-- Each combinator is made once. -/
theorem Private.sole_step (h : Wf c) (hp : Private c) (hst : Step c e c') (w : ℕ) :
    tally (Obj.makes w) c'.objs ≤ 1 := by
  by_cases hw : w = c.fresh
  · subst hw
    exact hst.makes_fresh h.makes_fresh
  · have hsole := hp.sole w
    obtain ⟨heq, hfin⟩ := hst.makes hw
    by_cases he : e = .finish w
    · have := hfin he
      omega
    · rwa [heq he]

/-- Nobody is shown a combinator that is still being made. -/
theorem Private.hidden_step (h : Wf c) (hl : Lists c) (hp : Private c) (hst : Step c e c')
    (hmem : .making w i ∈ c'.objs) : ¬ Shown c' w := by
  intro hshown
  by_cases hw : w = c.fresh
  · subst hw
    exact hst.fresh_hidden h hmem hshown
  · have hpos : 0 < tally (Obj.makes w) c'.objs := tally_pos hmem (by simp [Obj.makes])
    obtain ⟨heq, hfin⟩ := hst.makes hw
    have hsole := hp.sole w
    -- a second loop would be left
    have hne : e ≠ .finish w := fun he => by
      have := hfin he
      omega
    rw [heq hne] at hpos
    obtain ⟨o, ho, hmakes⟩ := exists_of_tally_pos hpos
    obtain ⟨j, rfl⟩ := Obj.eq_of_makes hmakes
    refine hp.hidden w j ho (hst.shown (hl.kinded _ ho) ?_ hne hshown)
    exact h.names _ ho w (by simp [Obj.names])

/-- Whether the loop an object stands for is within the sequence. -/
def Obj.Within (c : Config V E F) : Obj F → Prop
  | .making w i => ∀ nd, c.nodes w = some nd → i ≤ nd.body.futures.length
  | _ => True

theorem not_making_inputs {l : List Input} : (.making w i : Obj F) ∉ inputObjs l := by
  intro h
  obtain ⟨f, -, hf⟩ := mem_inputObjs.mp h
  cases hf

/-- A loop that goes on has come past an input. -/
theorem Move.new_making (hm : Move c e rem add) (hmem : .making w i ∈ add) :
    ∃ j nd, i = j + 1 ∧ .making w j ∈ rem ∧ c.nodes w = some nd ∧ j < nd.body.futures.length := by
  cases hm with
  | register w' j nd f hn hj =>
    obtain ⟨rfl, rfl⟩ : w = w' ∧ i = j + 1 := by simpa using hmem
    exact ⟨j, nd, rfl, by simp, hn, (List.getElem?_eq_some_iff.mp hj).1⟩
  | notify | detach | subscribe =>
    simp only [Multiset.insert_eq_cons, Multiset.mem_cons, Multiset.mem_singleton, reduceCtorEq,
      false_or] at hmem
    exact absurd hmem.symm (push_ne_making _)
  | peek | invokeNextShared => simp [sharedObjs, not_making_inputs] at hmem
  | _ => simp at hmem

/-- So has one at an input that is ready. -/
theorem Touch.new_making {body : Body F} (ht : Touch c e rem s nd body add)
    (hs : c.nodes s = some nd) (hmem : .making w i ∈ add) :
    ∃ j nd, i = j + 1 ∧ .making w j ∈ rem ∧ c.nodes w = some nd ∧ j < nd.body.futures.length := by
  cases ht with
  | register w' j _ f hj =>
    obtain ⟨rfl, rfl⟩ : w = s ∧ i = j + 1 := by simpa [mem_executeIf] using hmem
    exact ⟨j, nd, rfl, by simp, hs, (List.getElem?_eq_some_iff.mp hj).1⟩
  | notify | finish => simp [mem_executeIf] at hmem
  | take | invokeNext => simp [not_making_inputs] at hmem
  | _ => simp at hmem

/-- The loop stays within the sequence. -/
theorem Private.within_step (h : Wf c) (hp : Private c) (hst : Step c e c') :
    ∀ o ∈ c'.objs, o.Within c' := by
  -- the loop has come past an input of a sequence that stays
  have hnext : ∀ {w i nd}, .making w i ∈ c.objs → c.nodes w = some nd →
      i < nd.body.futures.length → (Obj.making w (i + 1) : Obj F).Within c' := by
    intro w i nd hmem hn hlt nd' hn'
    rw [hp.futures h hst hmem hn hn']
    exact hlt
  refine hst.forall_objs (fun o hmem => ?_) ?_ ?_ ?_ ?_ ?_ ?_
  · cases o with
    | making w i =>
      intro nd' hn'
      obtain ⟨nd, hn⟩ := hst.old (h.names _ hmem w (by simp [Obj.names])) hn'
      rw [hp.futures h hst hmem hn hn']
      exact hp.within w i nd hmem hn
    | _ => trivial
  · intro rem add rest hm ho o hmem
    cases o with
    | making w i =>
      obtain ⟨j, nd, rfl, hr, hn, hlt⟩ := hm.new_making hmem
      exact hnext (mem_of_rem ho hr) hn hlt
    | _ => trivial
  · intro rem add rest nd hs ho hn o hmem
    cases o with
    | making w i =>
      rw [hs.eq_of_making hmem] at hmem
      obtain ⟨rfl, rfl⟩ : w = c.fresh ∧ i = 0 := by simpa using hmem
      exact fun _ _ => Nat.zero_le _
    | _ => trivial
  · intro rem add rest s x clean nd hs ho _ _
    refine ⟨trivial, fun o hmem => ?_⟩
    cases hs with
    | ret g s r =>
      obtain ⟨-, rfl⟩ := mem_cleanup.mp hmem
      trivial
    | abandon => simp at hmem
    | _ =>
      obtain rfl := Multiset.mem_singleton.mp hmem
      trivial
  · exact fun _ _ _ _ => ⟨trivial, fun _ => trivial⟩
  · intro rem add rest s nd body ht ho hs o hmem
    cases o with
    | making w i =>
      obtain ⟨j, nd, rfl, hr, hn, hlt⟩ := ht.new_making hs hmem
      exact hnext (mem_of_rem ho hr) hn hlt
    | _ => trivial
  · exact fun _ _ _ _ => ⟨trivial, fun _ _ => trivial⟩

/-- **The step lemma.** -/
theorem Private.step (h : Wf c) (hl : Lists c) (hp : Private c) (hst : Step c e c') :
    Private c' :=
  ⟨hp.sole_step h hst, fun _ _ hmem => hp.hidden_step h hl hst hmem,
    fun _ _ nd hmem hn => hp.within_step h hst _ hmem nd hn⟩

/-- **What holds of the combinators in every run.** -/
structure Assembled (c : Config V E F) : Prop extends Inv c where
  registered : Registered c
  placed : Placed c
  hidden : Private c

theorem assembled_init : Assembled (init : Config V E F) :=
  ⟨inv_init, registered_init, placed_init, private_init⟩

theorem Assembled.step (h : Assembled c) (hst : Step c e c') : Assembled c' :=
  ⟨h.toInv.step hst, h.registered.step h.wf hst, h.placed.step h.wf hst,
    h.hidden.step h.wf h.lists hst⟩

theorem Reachable.assembled {ok : Config V E F → Event V E F → Prop} (h : Reachable ok c) :
    Assembled c :=
  h.invariant (fun _ _ _ hi _ hst => hi.step hst) assembled_init

/-! ## What `make` was given -/

/-- **The sequence `L` is kept in `w`**, in its order, until it is taken
from a ready combinator. -/
structure Kept (c : Config V E F) (w : ℕ) (L : List Input) : Prop where
  bound : ∀ f ∈ L, f.2 < c.fresh
  futures : ∀ nd, c.nodes w = some nd →
    nd.body.futures = L ∨ (nd.body.futures = [] ∧ nd.executed = true)

variable {L : List Input}

/-- **A sequence stays as it was given**, until it is taken. -/
theorem Kept.step (hk : Kept c w L) (h : Wf c) (hst : Step c e c') (hn : c.nodes w = some nd) :
    Kept c' w L := by
  refine ⟨fun f hf => (hk.bound f hf).trans_le hst.fresh_le, fun nd' hn' => ?_⟩
  have hle := hst.node_le h hn hn'
  obtain hfut | ⟨hnil, m, hr, -⟩ := hst.futures h hn hn'
  · rw [hfut]
    exact (hk.futures nd hn).imp_right fun hm => ⟨hm.1, hle.executed hm.2⟩
  · have hex := hr.executed
    rw [isExecuted_eq hn] at hex
    exact .inr ⟨hnil, hle.executed hex⟩

/-- `make` starts with the sequence it is given. -/
theorem Step.combine (h : Wf c) (hst : Step c (.combine w L) c') :
    w = c.fresh ∧ (∀ f ∈ L, f.2 < c.fresh) ∧ Kept c' w L ∧ ∃ nd, c'.nodes w = some nd ∧
      nd.body.futures = L ∧ (nd.executed = true → L = []) := by
  obtain ⟨rem, add, rest, nd, hs, ho, rfl⟩ := hst.combine_inv
  have hnode : ∀ nd', c.setNode c.fresh nd c.fresh = some nd' → nd' = nd := by
    intro nd' hn
    simpa [Config.setNode] using hn.symm
  have hself : c.setNode c.fresh nd c.fresh = some nd := by simp [Config.setNode]
  cases hs with
  | whenAll l | whenAny l =>
    have hold : ∀ f ∈ L, f.2 < c.fresh := fun f hf => h.names_of_rem ho (o := .future f.1 f.2)
      (mem_inputObjs.mpr ⟨f, hf, rfl⟩) (by simp [Obj.names])
    refine ⟨rfl, hold, ⟨fun f hf => Nat.lt_succ_of_lt (hold f hf), fun nd' hn => .inl ?_⟩, _,
      hself, rfl, by simp⟩
    rw [hnode nd' hn]
    rfl
  | readySequence body hbody =>
    have hfut : body.futures = [] := by rcases hbody with rfl | rfl <;> rfl
    refine ⟨rfl, by simp, ⟨by simp, fun nd' hn => .inl ?_⟩, _, hself, hfut, fun _ => rfl⟩
    rw [hnode nd' hn, hfut]

end Futures

end PortableConcurrency
