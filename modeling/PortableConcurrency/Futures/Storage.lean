import PortableConcurrency.Futures.Lists

/-!
# Stored results

A result is stored before the list is closed, and what is stored is not
unstored. Both hold of every run, also of one in which a storage is
overwritten.
-/

namespace PortableConcurrency

namespace Futures

variable {V E F : Type*} {c c' : Config V E F} {e : Event V E F}
variable {rem add rest : Multiset (Obj F)} {s t n : ℕ} {o : Obj F} {nd nd' : Node V E F}

/-- What is stored is a result. -/
theorem Settle.storage_ne {x : Storage V E} {clean : Body F → Body F}
    (hs : Settle c e rem s x clean add) : x ≠ .empty := by
  cases hs with
  | ret g s r => cases r <;> simp [Ret.storage]
  | _ => simp

/-- A storage that was written stays written. -/
theorem Step.stored (h : Wf c) (hst : Step c e c') (hn : c.nodes n = some nd)
    (hn' : c'.nodes n = some nd') (hs : nd.storage ≠ .empty) : nd'.storage ≠ .empty := by
  cases hst.node hn' with
  | same hm => exact Option.some.inj (hn.symm.trans hm) ▸ hs
  | spawn hf =>
    subst hf
    exact absurd (h.bound _ _ hn) (lt_irrefl _)
  | settle hm hempty hse => exact hse.storage_ne
  | unwrap => simp
  | touch hm | execute hm => exact Option.some.inj (hn.symm.trans hm) ▸ hs

/-- If `n` is alive, and not a combinator, it has a result. -/
def HasResult (c : Config V E F) (n : ℕ) : Prop :=
  ∀ nd, c.nodes n = some nd → nd.body.kind ≠ .combinator → nd.storage ≠ .empty

/-- **A result is not lost.** -/
theorem HasResult.step (h : Wf c) (hst : Step c e c') (hr : HasResult c n) (hlt : n < c.fresh) :
    HasResult c' n := by
  intro nd' hn' hk
  obtain ⟨nd, hn⟩ := hst.old hlt hn'
  rw [(hst.node_le h hn hn').kind] at hk
  exact hst.stored h hn hn' (hr nd hn hk)

/-- The objects that come after a result: whoever is about to close the
list, or waits for an inner state to do it. -/
def Obj.Stored (c : Config V E F) : Obj F → Prop
  | .execute s => HasResult c s
  | .subscribing s _ => HasResult c s
  | .linked _ (.unwrapCb s) => HasResult c s
  | .queued _ (.unwrapCb s) => HasResult c s
  | _ => True

/-- **A closed list has a result before it.** -/
structure Stored (c : Config V E F) : Prop where
  objs : ∀ o ∈ c.objs, o.Stored c
  nodes : ∀ n, c.isExecuted n = true → HasResult c n

/-- What an object follows on is still there after a step. -/
theorem Obj.Stored.step (h : Wf c) (hst : Step c e c') (hlt : ∀ n ∈ o.names, n < c.fresh)
    (hs : o.Stored c) : o.Stored c' := by
  cases o with
  | execute s | subscribing s t => exact HasResult.step h hst hs (hlt s (by simp [Obj.names]))
  | linked t k | queued t k =>
    cases k with
    | unwrapCb s =>
      exact HasResult.step h hst hs (hlt s (by simp [Obj.names, Closure.names]))
    | _ => trivial
  | _ => trivial

/-- A callback that is pushed follows on a result. -/
theorem push_stored {k : Closure} (hk : ∀ s, k = .unwrapCb s → HasResult c s) :
    (c.push t k : Obj F).Stored c := by
  unfold Config.push
  split <;> cases k <;> first | trivial | exact hk _ rfl

theorem inputObjs_stored {l : List Input} (h : o ∈ inputObjs l) : o.Stored c := by
  obtain ⟨f, -, rfl⟩ := mem_inputObjs.mp h
  trivial

/-- A combinator has no storage of its own. -/
theorem HasKind.hasResult (h : HasKind c n .combinator) : HasResult c n :=
  fun nd hn hk => absurd (h nd hn) hk

/-- What a step adds follows on a result, when it changes no node. -/
theorem Move.stored (hm : Move c e rem add) (hs : ∀ o ∈ rem, o.Stored c) (hmem : o ∈ add) :
    o.Stored c := by
  cases hm with
  | peek | invokeNextShared =>
    simp only [Multiset.mem_cons] at hmem
    rcases hmem with rfl | hmem
    · trivial
    · first
      | exact inputObjs_stored hmem
      | rcases hmem with rfl | hmem
        · trivial
        · exact inputObjs_stored hmem
  | notify u s | detach u s =>
    simp only [Multiset.insert_eq_cons, Multiset.mem_cons, Multiset.mem_singleton] at hmem
    rcases hmem with rfl | rfl
    · trivial
    · exact push_stored (by simp)
  | subscribe s t =>
    simp only [Multiset.insert_eq_cons, Multiset.mem_cons, Multiset.mem_singleton] at hmem
    rcases hmem with rfl | rfl
    · trivial
    · refine push_stored fun s' hs' => ?_
      cases hs'
      exact hs (.subscribing s t) (by simp)
  | callUnwrap t s =>
    have hq : HasResult c s := hs (.queued t (.unwrapCb s)) (by simp)
    simp only [Multiset.insert_eq_cons, Multiset.mem_cons, Multiset.mem_singleton] at hmem
    rcases hmem with rfl | rfl
    · trivial
    · exact hq
  | _ => simp_all <;> grind [Obj.Stored]

/-- So it does when a body is changed. -/
theorem Touch.stored {body : Body F} (ht : Touch c e rem s nd body add)
    (hk : ∀ o ∈ rem, o.Kinded c) (hmem : o ∈ add) : o.Stored c := by
  cases ht with
  | notify t w pos =>
    have hq : HasKind c s .combinator := (hk (.queued t (.combine s pos)) (by simp)).1
    simp only [Multiset.mem_cons, mem_executeIf] at hmem
    rcases hmem with rfl | ⟨-, rfl⟩
    · trivial
    · exact hq.hasResult
  | register w i _ f hi hready =>
    have hw : HasKind c s .combinator := hk (.making s i) (by simp)
    simp only [Multiset.mem_cons, mem_executeIf] at hmem
    rcases hmem with rfl | rfl | ⟨-, rfl⟩
    · trivial
    · trivial
    · exact hw.hasResult
  | finish w i =>
    have hw : HasKind c s .combinator := hk (.making s i) (by simp)
    simp only [Multiset.mem_cons, mem_executeIf] at hmem
    rcases hmem with rfl | ⟨-, rfl⟩
    · trivial
    · exact hw.hasResult
  | take | invokeNext =>
    simp only [Multiset.mem_cons] at hmem
    rcases hmem with rfl | hmem
    · trivial
    · first
      | exact inputObjs_stored hmem
      | rcases hmem with rfl | hmem
        · trivial
        · exact inputObjs_stored hmem
  | _ => simp_all <;> grind [Obj.Stored]

theorem stored_init : Stored (init : Config V E F) := by
  constructor <;> simp [init, Config.isExecuted]

/-- So it does when a node is made. -/
theorem Spawn.stored (hs : Spawn c e rem nd add) (hmem : o ∈ add) : o.Stored c' := by
  cases hs with
  | attach a =>
    simp only [Multiset.mem_cons, mem_keeps] at hmem
    rcases hmem with rfl | rfl | ⟨-, -, rfl⟩
    · trivial
    · unfold Config.push
      split <;> trivial
    · trivial
  | _ =>
    simp_all
    grind [Obj.Stored]

/-- So it does when a result is stored. -/
theorem Settle.stored {x : Storage V E} {clean : Body F → Body F}
    (hs : Settle c e rem s x clean add) (hmem : o ∈ add) : o.Stored c := by
  cases hs with
  | ret g s r =>
    obtain ⟨-, rfl⟩ := mem_cleanup.mp hmem
    trivial
  | _ => simp_all [Obj.Stored]

/-- The list that an `execute` closes belongs to a state with a result. -/
theorem Stored.nodes_step (h : Wf c) (hs : Stored c) (hst : Step c e c') :
    ∀ n, c'.isExecuted n = true → HasResult c' n := by
  intro n hex
  obtain ⟨nd', hn', hex'⟩ := node_of_isExecuted hex
  cases hst.node hn' with
  | spawn hf hsp ho =>
    cases hsp with
    | readySequence body hbody =>
      intro nd hn hk
      obtain rfl := Option.some.inj (hn.symm.trans hn')
      rcases hbody with rfl | rfl <;> exact absurd rfl hk
    | _ => simp at hex'
  | same hn | settle hn | unwrap hn | touch hn =>
    exact (hs.nodes n (by rw [isExecuted_eq hn]; exact hex')).step h hst (h.bound n _ hn)
  | execute hn he ho =>
    have hr : HasResult c n := hs.objs (.execute n) (mem_of_rem ho (by simp))
    exact hr.step h hst (h.bound n _ hn)

/-- **The step lemma.** -/
theorem Stored.step (h : Wf c) (hl : Lists c) (hs : Stored c) (hst : Step c e c') : Stored c' := by
  refine ⟨?_, hs.nodes_step h hst⟩
  have hnew : ∀ {o : Obj F}, o.Stored c → (∀ n ∈ o.names, n < c.fresh) → o.Stored c' :=
    fun hk hn => Obj.Stored.step h hst hn hk
  have hrem : ∀ {rem rest : Multiset (Obj F)}, c.objs = rem + rest → ∀ o ∈ rem, o.Stored c :=
    fun ho o hr => hs.objs o (mem_of_rem ho hr)
  refine hst.forall_objs (fun o ho => hnew (hs.objs o ho) (h.names o ho)) ?_ ?_ ?_ ?_ ?_ ?_
  · exact fun hm ho o hmem => hnew (hm.stored (hrem ho) hmem) fun n hn => h.move_names hm ho hmem hn
  · exact fun hsp _ _ o hmem => hsp.stored hmem
  · intro rem add rest s x clean nd hse ho hnd hnd'
    refine ⟨fun nd' hn' _ => ?_, fun o hmem => ?_⟩
    · rw [hnd'] at hn'
      rw [← Option.some.inj hn']
      exact hse.storage_ne
    · exact hnew (hse.stored hmem) fun n hn => h.settle_names hse ho hmem hn
  · intro g s t u rest nd _ ho hnd hnd'
    refine ⟨fun nd' hn' _ => ?_, fun _ => trivial⟩
    rw [hnd'] at hn'
    rw [← Option.some.inj hn']
    simp
  · refine fun ht ho hnd o hmem =>
      hnew (ht.stored (fun o hr => hl.kinded o (mem_of_rem ho hr)) hmem) fun n hn =>
        h.touch_names ht ho hnd hmem hn
  · intro s rest nd _ ho hnd hnd'
    refine ⟨trivial, fun k hk => ?_⟩
    have hk' : (Obj.linked s k : Obj F).Stored c' := hnew (hs.objs _ hk) (h.names _ hk)
    cases k <;> exact hk'

/-- The invariants that hold whatever the program does. -/
structure Sound (c : Config V E F) : Prop where
  wf : Wf c
  lists : Lists c
  stored : Stored c

theorem sound_init : Sound (init : Config V E F) := ⟨wf_init, lists_init, stored_init⟩

theorem Sound.step (h : Sound c) (hst : Step c e c') : Sound c' :=
  ⟨h.wf.step hst, h.lists.step h.wf hst, h.stored.step h.wf h.lists hst⟩

end Futures

end PortableConcurrency
