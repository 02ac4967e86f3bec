import PortableConcurrency.Futures.Reading

/-!
# The unwrapping law

A state that was unwrapped onto another one is ready when the inner one is
and has called back, and is then the inner one to all readers. Whatever
becomes of the producer of the outer state, it is not abandoned. What
keeps the outer state alive meanwhile is not only its futures: a
continuation that was attached to it owns it too, and its list goes on to
be called without a single future on it.
-/

namespace PortableConcurrency

namespace Futures

variable {V E F : Type*} {c c' : Config V E F} {e : Event V E F}
variable {rem add rest : Multiset (Obj F)} {s t n : ℕ} {o : Obj F} {nd nd' : Node V E F}

/-! ## Readiness -/

/-- Whether an object is a closure of the list of `s` that has left it. -/
def Obj.calledOf (s : ℕ) : Obj F → Bool
  | .queued t _ => t = s
  | .spent t _ => t = s
  | _ => false

/-- **Nobody owns `s`, it is not ready, and nothing of its list has been
called.** -/
structure Forgotten (c : Config V E F) (s : ℕ) : Prop where
  unowned : ¬ Owned c s
  pending : c.isExecuted s = false
  uncalled : ∀ o ∈ c.objs, o.calledOf s = false

theorem push_calledOf {k : Closure} (hs : c.isExecuted s = false) :
    (c.push t k : Obj F).calledOf s = false := by
  unfold Config.push
  split
  · rename_i hex
    simp only [Obj.calledOf, decide_eq_false_iff_not]
    rintro rfl
    rw [hs] at hex
    cases hex
  · rfl

theorem inputObjs_calledOf {l : List Input} (h : o ∈ inputObjs l) : o.calledOf s = false := by
  obtain ⟨f, -, rfl⟩ := mem_inputObjs.mp h
  rfl

theorem Move.calledOf (hm : Move c e rem add) (hs : c.isExecuted s = false)
    (hrem : ∀ o ∈ rem, o.calledOf s = false) (hmem : o ∈ add) : o.calledOf s = false := by
  cases hm with
  | peek =>
    simp only [Multiset.mem_cons] at hmem
    rcases hmem with rfl | hmem
    · rfl
    · exact inputObjs_calledOf hmem
  | invokeNextShared =>
    simp only [Multiset.mem_cons] at hmem
    rcases hmem with rfl | rfl | hmem
    · rfl
    · rfl
    · exact inputObjs_calledOf hmem
  | notify | detach | subscribe =>
    simp only [Multiset.insert_eq_cons, Multiset.mem_cons, Multiset.mem_singleton] at hmem
    rcases hmem with rfl | rfl
    · rfl
    · exact push_calledOf hs
  | _ => simp_all [Obj.calledOf] <;> grind [Obj.calledOf]

theorem Spawn.calledOf (hsp : Spawn c e rem nd add) (hs : c.isExecuted s = false)
    (hmem : o ∈ add) : o.calledOf s = false := by
  cases hsp with
  | attach a =>
    simp only [Multiset.mem_cons, mem_keeps] at hmem
    rcases hmem with rfl | rfl | ⟨-, -, rfl⟩
    · rfl
    · exact push_calledOf hs
    · rfl
  | _ =>
    simp_all
    grind [Obj.calledOf]

theorem Touch.calledOf {body : Body F} (ht : Touch c e rem n nd body add)
    (hs : c.isExecuted s = false) (hrem : ∀ o ∈ rem, o.calledOf s = false) (hmem : o ∈ add) :
    o.calledOf s = false := by
  cases ht with
  | register w i _ f hi hready =>
    simp only [Multiset.mem_cons, mem_executeIf] at hmem
    rcases hmem with rfl | rfl | ⟨-, rfl⟩
    · rfl
    · simp only [Obj.calledOf, decide_eq_false_iff_not]
      rintro rfl
      rw [hs] at hready
      cases hready
    · rfl
  | notify | finish =>
    simp only [Multiset.mem_cons, mem_executeIf] at hmem
    rcases hmem with rfl | ⟨-, rfl⟩
    · simp_all [Obj.calledOf]
    · rfl
  | take =>
    simp only [Multiset.mem_cons] at hmem
    rcases hmem with rfl | hmem
    · rfl
    · exact inputObjs_calledOf hmem
  | invokeNext =>
    simp only [Multiset.mem_cons] at hmem
    rcases hmem with rfl | rfl | hmem
    · rfl
    · rfl
    · exact inputObjs_calledOf hmem
  | _ => simp_all [Obj.calledOf] <;> grind [Obj.calledOf]

/-- **A forgotten state stays forgotten.** -/
theorem Forgotten.step (hf : Forgotten c s) (hlt : s < c.fresh) (hst : Step c e c') :
    Forgotten c' s := by
  refine ⟨fun howned => ?_, ?_, ?_⟩
  · obtain hold | ⟨rfl, -⟩ := hst.owned howned
    · exact hf.unowned hold
    · exact lt_irrefl _ hlt
  · by_contra hex
    obtain ⟨nd', hn', hex'⟩ := node_of_isExecuted (by simpa using hex)
    have hpend := hf.pending
    cases hst.node hn' with
    | spawn hfresh => omega
    | execute _ _ ho =>
      exact hf.unowned (owned_of_mem ho (o := .execute s) (by simp) (by simp [Obj.refs]))
    | same hn | settle hn | unwrap hn | touch hn =>
      rw [isExecuted_eq hn] at hpend
      rw [hpend] at hex'
      cases hex'
  · refine hst.forall_objs hf.uncalled ?_ ?_ ?_ ?_ ?_ ?_
    · exact fun hm ho o hmem =>
        hm.calledOf hf.pending (fun o hr => hf.uncalled o (mem_of_rem ho hr)) hmem
    · exact fun hsp _ _ o hmem => hsp.calledOf hf.pending hmem
    · intro rem add rest n x clean nd hse ho _ _
      refine ⟨rfl, fun o hmem => ?_⟩
      cases hse with
      | ret g n r =>
        obtain ⟨-, rfl⟩ := mem_cleanup.mp hmem
        rfl
      | _ => simp_all <;> rfl
    · exact fun _ _ _ _ => ⟨rfl, fun _ => rfl⟩
    · exact fun ht ho _ o hmem =>
        ht.calledOf hf.pending (fun o hr => hf.uncalled o (mem_of_rem ho hr)) hmem
    · intro n rest nd _ ho _ _
      refine ⟨rfl, fun k _ => ?_⟩
      simp only [Obj.calledOf, decide_eq_false_iff_not]
      rintro rfl
      exact hf.unowned (owned_of_mem ho (o := .execute n) (by simp) (by simp [Obj.refs]))

theorem Forgotten.run {ok : Config V E F → Event V E F → Prop} (hf : Forgotten c s)
    (hlt : s < c.fresh) (hrun : Runs Step ok c c') : Forgotten c' s := by
  have hboth : s < c'.fresh ∧ Forgotten c' s := by
    refine hrun.invariant (I := fun c => s < c.fresh ∧ Forgotten c s) ?_ ⟨hlt, hf⟩
    rintro c e c' ⟨hlt, hf⟩ - hst
    exact ⟨hlt.trans_le hst.fresh_le, hf.step hlt hst⟩
  exact hboth.2

end Futures

end PortableConcurrency
