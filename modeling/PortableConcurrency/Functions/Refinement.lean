import PortableConcurrency.Common.Runs
import PortableConcurrency.Functions.Reference

/-!
# `unique_function` is an owning reference

The code and the reference machine take the same operations. As long as no
object with a callable is moved onto itself, and as long as no call reaches
what a move has left, or a reference that a lambda has turned into a
copy that is converted otherwise, they answer the same, whatever is stored where; and every
callable is destroyed once, when its owner goes.
-/

namespace PortableConcurrency

namespace Functions

variable {K S A L V E : Type*}

/-- **`f` holds a callable of type `k` in state `s`.** -/
inductive Carries (storable : K → Bool) (m : Memory S) : Small K → K → S → Prop
  | inline {k : K} {s : S} {b : ℕ} : storable k = true → (m.get b).content = .state s →
      Carries storable m ⟨some (.inline k), b⟩ k s
  | boxed {k : K} {s : S} {b p : ℕ} : storable k = false →
      (m.get b).content = .pointer (some p) → (m.get p).content = .state s →
      Carries storable m ⟨some (.boxed k), b⟩ k s

/-- An object carries its callable as long as what it owns is left alone. -/
theorem Carries.congr {storable : K → Bool} {m m' : Memory S} {f : Small K} {k : K} {s : S}
    (h : Carries storable m f k s)
    (hc : ∀ c, Owns m f.buffer c → (m'.get c).content = (m.get c).content) :
    Carries storable m' f k s := by
  cases h with
  | inline hk hs => exact .inline hk ((hc _ (.inl rfl)).trans hs)
  | boxed hk hp hs => exact .boxed hk ((hc _ (.inl rfl)).trans hp) ((hc _ (.inr hp)).trans hs)

/-- An object that carries a callable has a table. -/
theorem Carries.vtbl {storable : K → Bool} {m : Memory S} {f : Small K} {k : K} {s : S}
    (h : Carries storable m f k s) : ∃ t b, f = ⟨some t, b⟩ := by
  cases h with
  | inline => exact ⟨_, _, rfl⟩
  | boxed => exact ⟨_, _, rfl⟩

namespace World

variable {T : Types K S A L V E} {storable : K → Bool} {conv : Conversion L V E}
variable {w w' : World K S} {x y z : Slot} {f : Small K} {k : K} {s : S}

/-- **Owners are in order, and the objects hold at least what `g` says.** -/
structure Holding (storable : K → Bool) (w : World K S) (g : Slot → Option (K × S)) : Prop where
  owned : ∃ own, Owned w own
  carries : ∀ z k s, g z = some (k, s) → ∃ f, w.fns z = some f ∧ Carries storable w.mem f k s

variable {g g' : Slot → Option (K × S)}

theorem Holding.mono (h : Holding storable w g) (hg : ∀ z k s, g' z = some (k, s) →
    g z = some (k, s)) : Holding storable w g' :=
  ⟨h.owned, fun z k s hz => h.carries z k s (hg z k s hz)⟩

/-- An object without a table holds nothing. -/
theorem Holding.eq_none (h : Holding storable w g) (hz : ∀ t b, w.fns z ≠ some ⟨some t, b⟩) :
    g z = none := by
  by_contra hg
  obtain ⟨⟨k, s⟩, hks⟩ := Option.ne_none_iff_exists'.mp hg
  obtain ⟨f, hf, hc⟩ := h.carries z k s hks
  obtain ⟨t, b, rfl⟩ := hc.vtbl
  exact hz t b hf

/-! ## The steps the operations are made of -/

/-- An object without a table may be replaced by another one. -/
theorem Holding.setFn (h : Holding storable w g) {f : Option (Small K)}
    (hold : ∀ t b, w.fns z ≠ some ⟨some t, b⟩) (hnew : ∀ t b, f ≠ some ⟨some t, b⟩) :
    Holding storable (w.setFn z f) g := by
  obtain ⟨own, ho⟩ := h.owned
  refine ⟨⟨own, ho.setFn hold hnew⟩, fun x k s hx => ?_⟩
  obtain ⟨f', hf, hc⟩ := h.carries x k s hx
  refine ⟨f', ?_, hc⟩
  have hxz : x ≠ z := by
    rintro rfl
    rw [h.eq_none hold] at hx
    cases hx
  simpa [World.setFn, hxz] using hf

/-- **A callable is destroyed.** -/
theorem Holding.vacate (h : Holding storable w g) (hz : w.fns z = some f) {f' : Option (Small K)}
    (hnew : ∀ t b, f' ≠ some ⟨some t, b⟩) :
    Holding storable ⟨f.destroy w.mem, Function.update w.fns z f'⟩ (Function.update g z none) := by
  obtain ⟨own, ho⟩ := h.owned
  refine ⟨⟨_, ho.vacate hz hnew⟩, fun x k s hx => ?_⟩
  have hxz : x ≠ z := by
    rintro rfl
    rw [Function.update_self] at hx
    cases hx
  rw [Function.update_of_ne hxz] at hx
  obtain ⟨f'', hf, hc⟩ := h.carries x k s hx
  refine ⟨f'', by simpa [hxz] using hf, hc.congr fun c _ => ?_⟩
  unfold Small.destroy
  split
  · exact destroy_content c
  · rfl

/-- **What `y` held is held by `z`.** -/
theorem Holding.take (T : Types K S A L V E) (h : Holding storable w g) {rhs : Small K}
    (hy : w.fns y = some rhs) (hz : ∀ t b, w.fns z ≠ some ⟨some t, b⟩) :
    Holding storable ⟨(rhs.moveFrom T w.mem).1,
      Function.update w.fns z (some (rhs.moveFrom T w.mem).2)⟩
      (Function.update (Function.update g y none) z (g y)) := by
  obtain ⟨own, ho⟩ := h.owned
  obtain ⟨vtbl, b⟩ := rhs
  cases vtbl with
  | none =>
    have hgy : g y = none := h.eq_none (by simp [hy])
    have hset : Holding storable (w.setFn z (some ⟨none, 0⟩)) g := h.setFn hz (by simp)
    refine hset.mono fun x k s hx => ?_
    by_cases hxz : x = z
    · rw [hxz, Function.update_self, hgy] at hx
      cases hx
    · rw [Function.update_of_ne hxz] at hx
      by_cases hxy : x = y
      · rw [hxy, Function.update_self] at hx
        cases hx
      · rwa [Function.update_of_ne hxy] at hx
  | some t =>
    have hshaped := ho.shaped y t b hy
    have halive := (ho.of_holds (holds_buffer hy)).2
    have hget := move_get (t := t) T halive
    have hlt : ∀ x c, w.Holds x c → c < w.mem.fresh := fun x c hc => (ho.of_holds hc).1
    have hkeep : ∀ c, c < w.mem.fresh → c ≠ b →
        ((t.move T w.mem b).1.get c).content = (w.mem.get c).content := by
      intro c hc hcb
      rw [hget, if_neg (by omega), if_neg hcb]
    refine ⟨ho.take T hy hz, fun x k s hx => ?_⟩
    by_cases hxz : x = z
    · subst hxz
      rw [Function.update_self] at hx
      obtain ⟨f, hf, hc⟩ := h.carries y k s hx
      obtain rfl := Option.some.inj (hy.symm.trans hf)
      refine ⟨⟨some t, w.mem.fresh⟩, Function.update_self .., ?_⟩
      have hnew : ((t.move T w.mem b).1.get w.mem.fresh).content = (w.mem.get b).content := by
        rw [hget, if_pos rfl]
      cases hc with
      | inline hk hs => exact .inline hk (hnew.trans hs)
      | boxed hk hp hs =>
        refine .boxed hk (hnew.trans hp) ?_
        rw [← hs]
        exact hkeep _ (hlt y _ ⟨_, b, hy, .inr hp⟩) (hshaped.pointer_ne hp)
    · rw [Function.update_of_ne hxz] at hx
      have hxy : x ≠ y := by
        rintro rfl
        rw [Function.update_self] at hx
        cases hx
      rw [Function.update_of_ne hxy] at hx
      obtain ⟨f, hf, hc⟩ := h.carries x k s hx
      refine ⟨f, by simpa [hxz] using hf, hc.congr fun c hown => ?_⟩
      obtain ⟨t', b', rfl⟩ := hc.vtbl
      have hx' : w.Holds x c := ⟨t', b', hf, hown⟩
      refine hkeep c (hlt x c hx') ?_
      rintro rfl
      exact hxy (ho.unique hx' (holds_buffer hy))

/-- **A callable is stored in the object.** -/
theorem Holding.embed (h : Holding storable w g) (hz : w.fns z = none) (hk : storable k = true) :
    Holding storable ⟨(w.mem.construct (.state s)).1,
      Function.update w.fns z (some ⟨some (.inline k), w.mem.fresh⟩)⟩
      (Function.update g z (some (k, s))) := by
  obtain ⟨own, ho⟩ := h.owned
  refine ⟨ho.embed hz k s, fun x k' s' hx => ?_⟩
  by_cases hxz : x = z
  · subst hxz
    rw [Function.update_self] at hx
    cases hx
    exact ⟨_, Function.update_self .., .inline hk (by simp [Memory.construct_get])⟩
  · rw [Function.update_of_ne hxz] at hx
    obtain ⟨f, hf, hc⟩ := h.carries x k' s' hx
    refine ⟨f, by simpa [hxz] using hf, hc.congr fun c hown => ?_⟩
    obtain ⟨t, b, rfl⟩ := hc.vtbl
    have hlt := (ho.of_holds ⟨t, b, hf, hown⟩).1
    rw [Memory.construct_get, if_neg (by omega)]

/-- **A callable is moved to the heap.** -/
theorem Holding.makeLambda (h : Holding storable w g) (hz : w.fns .lambda = none)
    (hk : storable k = false) (s : S) : ∃ w', w.makeLambda k s = some w' ∧
      Holding storable w' (Function.update g .lambda (some (k, s))) ∧
      w'.fns = Function.update w.fns .lambda (some ⟨some (.boxed k), w.mem.fresh + 1⟩) := by
  obtain ⟨own, ho⟩ := h.owned
  obtain ⟨w', own', hw', ho', hfns, hold, hptr, hheap⟩ := ho.makeLambda hz k s
  refine ⟨w', hw', ⟨⟨own', ho'⟩, fun x k' s' hx => ?_⟩, hfns⟩
  rw [hfns]
  by_cases hxz : x = .lambda
  · subst hxz
    rw [Function.update_self] at hx
    cases hx
    exact ⟨_, Function.update_self .., .boxed hk hptr hheap⟩
  · rw [Function.update_of_ne hxz] at hx
    obtain ⟨f, hf, hc⟩ := h.carries x k' s' hx
    refine ⟨f, by simpa [hxz] using hf, hc.congr fun c hown => ?_⟩
    obtain ⟨t, b, rfl⟩ := hc.vtbl
    rw [hold c (ho.of_holds ⟨t, b, hf, hown⟩).1]

/-! ## The operations -/

theorem Holding.create (h : Holding storable w g) (hz : w.fns z = none) :
    ∃ w', w.create z = some w' ∧ w'.fns = Function.update w.fns z (some .empty) ∧
      Holding storable w' g := by
  refine ⟨w.setFn z (some .empty), by simp only [World.create, hz], rfl, ?_⟩
  exact h.setFn (by simp [hz]) (by simp [Small.empty])

/-- **The callable of another object is taken over.** -/
theorem Holding.moveConstruct (T : Types K S A L V E) (h : Holding storable w g)
    (hz : w.fns z = none) (hy : w.fns y ≠ none) :
    ∃ w' f, w.moveConstruct T z y = some w' ∧ w'.fns = Function.update w.fns z (some f) ∧
      Holding storable w' (Function.update (Function.update g y none) z (g y)) := by
  obtain ⟨rhs, hrhs⟩ := Option.ne_none_iff_exists'.mp hy
  refine ⟨_, _, by simp only [World.moveConstruct, hz, hrhs]; rfl, rfl, ?_⟩
  exact h.take T hrhs (by simp [hz])

/-- **An assignment between two objects**: first the old callable is
destroyed. -/
theorem Holding.moveAssign (T : Types K S A L V E) (h : Holding storable w g) (hxy : x ≠ y)
    (hx : w.fns x ≠ none) (hy : w.fns y ≠ none) :
    ∃ w' f, w.moveAssign T x y = some w' ∧ w'.fns = Function.update w.fns x (some f) ∧
      Holding storable w' (Function.update (Function.update g y none) x (g y)) := by
  obtain ⟨f, hf⟩ := Option.ne_none_iff_exists'.mp hx
  obtain ⟨rhs, hrhs⟩ := Option.ne_none_iff_exists'.mp hy
  have hvacant : Holding storable ⟨f.destroy w.mem, Function.update w.fns x (some .empty)⟩
      (Function.update g x none) := h.vacate hf (by simp [Small.empty])
  have htaken := hvacant.take (y := y) (z := x) T
    (show Function.update w.fns x (some .empty) y = some rhs by simp [hxy.symm, hrhs])
    (by simp [Small.empty])
  refine ⟨_, _, by simp only [World.moveAssign, hf, hrhs]; rfl, rfl, ?_⟩
  rw [Function.update_idem] at htaken
  refine htaken.mono fun z k s hz => ?_
  by_cases hzx : z = x
  · simpa [hzx, hxy.symm] using hz
  · by_cases hzy : z = y
    · simp [hzy, hxy.symm] at hz
    · simpa [hzx, hzy] using hz

/-- An object is destroyed, with what it holds. -/
theorem Holding.destroy (h : Holding storable w g) (hx : w.fns x ≠ none) :
    ∃ w', w.destroy x = some w' ∧ w'.fns = Function.update w.fns x none ∧
      Holding storable w' (Function.update g x none) := by
  obtain ⟨f, hf⟩ := Option.ne_none_iff_exists'.mp hx
  refine ⟨_, by simp only [World.destroy, hf]; rfl, rfl, ?_⟩
  exact h.vacate hf (by simp)

/-- **The constructor that allocates.** -/
theorem Holding.box (T : Types K S A L V E) (h : Holding storable w g) (hz : w.fns z = none)
    (hzl : z ≠ .lambda) (hzt : z ≠ .temporary) (hl : w.fns .lambda = none)
    (ht : w.fns .temporary = none) (hk : storable k = false) (s : S) :
    ∃ w' f, w.box T z k s = some w' ∧ w'.fns = Function.update w.fns z (some f) ∧
      Holding storable w' (Function.update g z (some (k, s))) := by
  have hgl : g .lambda = none := h.eq_none (by simp [hl])
  have hgt : g .temporary = none := h.eq_none (by simp [ht])
  obtain ⟨w₁, e₁, f₁, h₁⟩ := h.create hz
  obtain ⟨w₂, e₂, h₂, f₂⟩ := h₁.makeLambda (by simp [f₁, hzl.symm, hl]) hk s
  obtain ⟨w₃, t, e₃, f₃, h₃⟩ := h₂.moveConstruct (z := .temporary) (y := .lambda) T
    (by simp [f₂, f₁, hzt.symm, ht]) (by simp [f₂])
  obtain ⟨w₄, f, e₄, f₄, h₄⟩ := h₃.moveAssign (y := .temporary) T hzt
    (by simp [f₃, f₂, f₁, hzt, hzl]) (by simp [f₃])
  obtain ⟨w₅, e₅, f₅, h₅⟩ := h₄.destroy (x := .temporary) (by simp [f₄, f₃, hzt.symm])
  obtain ⟨w₆, e₆, f₆, h₆⟩ := h₅.destroy (x := .lambda) (by simp [f₅, f₄, f₃, f₂, hzl.symm])
  refine ⟨w₆, f, ?_, ?_, h₆.mono fun x k' s' hx => ?_⟩
  · simp only [World.box, e₁, e₂, e₃, e₄, e₅, e₆, Option.bind_some]
  · funext x
    rw [f₆, f₅, f₄, f₃, f₂, f₁]
    by_cases hxl : x = .lambda
    · simp [hxl, hzl.symm, hl]
    · by_cases hxt : x = .temporary
      · simp [hxt, hzt.symm, ht]
      · by_cases hxz : x = z
        · simp [hxz, hzl, hzt]
        · simp [hxl, hxt, hxz]
  · by_cases hxl : x = .lambda
    · simp [hxl, hzl.symm, hgl] at hx
    · by_cases hxt : x = .temporary
      · simp [hxt, hzt.symm, hgt] at hx
      · by_cases hxz : x = z
        · simpa [hxz, hzl, hzt] using hx
        · simpa [hxl, hxt, hxz] using hx

/-- **`std::swap` of two objects.** -/
theorem Holding.swap (T : Types K S A L V E) (h : Holding storable w g) (hxy : x ≠ y)
    (hxt : x ≠ .temporary) (hyt : y ≠ .temporary) (hx : w.fns x ≠ none) (hy : w.fns y ≠ none)
    (ht : w.fns .temporary = none) :
    ∃ w' f f', w.swap T x y = some w' ∧
      w'.fns = Function.update (Function.update w.fns x (some f)) y (some f') ∧
      Holding storable w' (Function.update (Function.update g x (g y)) y (g x)) := by
  have hgt : g .temporary = none := h.eq_none (by simp [ht])
  obtain ⟨w₁, t, e₁, f₁, h₁⟩ := h.moveConstruct (z := .temporary) (y := x) T ht hx
  obtain ⟨w₂, f, e₂, f₂, h₂⟩ := h₁.moveAssign T hxy (by simpa [f₁, hxt] using hx)
    (by simpa [f₁, hyt] using hy)
  obtain ⟨w₃, f', e₃, f₃, h₃⟩ := h₂.moveAssign (y := .temporary) T hyt
    (by simpa [f₂, f₁, hxy.symm, hyt] using hy) (by simp [f₂, f₁, hxt.symm])
  obtain ⟨w₄, e₄, f₄, h₄⟩ := h₃.destroy (x := .temporary)
    (by simp [f₃, f₂, f₁, hxt.symm, hyt.symm])
  refine ⟨w₄, f, f', ?_, ?_, h₄.mono fun z k s hz => ?_⟩
  · simp only [World.swap, e₁, e₂, e₃, e₄, Option.bind_some]
  · funext z
    rw [f₄, f₃, f₂, f₁]
    by_cases hzt : z = .temporary
    · simp [hzt, hxt.symm, hyt.symm, ht]
    · by_cases hzy : z = y
      · simp [hzy, hyt]
      · by_cases hzx : z = x
        · simp [hzx, hxy, hxt]
        · simp [hzt, hzy, hzx]
  · by_cases hzt : z = .temporary
    · simp [hzt, hxt.symm, hyt.symm, hgt] at hz
    · by_cases hzy : z = y
      · simpa [hzy, hyt, hyt.symm, hxt, hxt.symm, hxy, hxy.symm] using hz
      · by_cases hzx : z = x
        · simpa [hzx, hxy, hxt, hxt.symm, hyt, hyt.symm, hxy.symm] using hz
        · simpa [hzt, hzy, hzx] using hz

/-- An object of `x` changes its state. -/
theorem Holding.use (h : Holding storable w g) {c : ℕ} (hx : w.Holds x c)
    (hs : (w.mem.get c).content = .state s) (s' : S) :
    Holding storable { w with mem := w.mem.use c (.state s') } (Function.update g x none) := by
  obtain ⟨own, ho⟩ := h.owned
  refine ⟨⟨own, ho.use hx hs⟩, fun z k t hz => ?_⟩
  have hzx : z ≠ x := by
    rintro rfl
    rw [Function.update_self] at hz
    cases hz
  rw [Function.update_of_ne hzx] at hz
  obtain ⟨f, hf, hc⟩ := h.carries z k t hz
  refine ⟨f, hf, hc.congr fun d hown => ?_⟩
  obtain ⟨t', b, rfl⟩ := hc.vtbl
  rw [Memory.use_get (ho.of_holds hx).2, if_neg]
  rintro rfl
  exact hzx (ho.unique ⟨t', b, hf, hown⟩ hx)

theorem Holding.insert (h : Holding storable w (Function.update g x none)) (hf : w.fns x = some f)
    (hc : Carries storable w.mem f k s) :
    Holding storable w (Function.update g x (some (k, s))) := by
  refine ⟨h.owned, fun z k' s' hz => ?_⟩
  by_cases hzx : z = x
  · subst hzx
    rw [Function.update_self] at hz
    cases hz
    exact ⟨f, hf, hc⟩
  · rw [Function.update_of_ne hzx] at hz
    exact h.carries z k' s' (by rwa [Function.update_of_ne hzx])

/-- **A call of what is held**: the state is kept, and a reference is
converted as one, unless it passes through a lambda. -/
theorem Holding.call (T : Types K S A L V E) (conv : Conversion L V E) (h : Holding storable w g)
    (hx : g x = some (k, s)) (a : A) :
    ∃ w', w.call T conv x a = some (w', .returned ((if storable k then (T.call k s a).2
        else (T.call k s a).2.decay T.copy).convert conv)) ∧ w'.fns = w.fns ∧
      Holding storable w' (Function.update g x (some (k, (T.call k s a).1))) := by
  obtain ⟨own, ho⟩ := h.owned
  obtain ⟨f, hf, hc⟩ := h.carries x k s hx
  cases hc with
  | @inline _ _ b hk hs =>
    have hxb : w.Holds x b := holds_buffer hf
    refine ⟨{ w with mem := w.mem.use b (.state (T.call k s a).1) }, ?_, rfl, ?_⟩
    · simp only [World.call, hf, Option.map_some, Small.call, Vtbl.call, hs, hk, if_true]
    · refine (h.use hxb hs _).insert hf (.inline hk ?_)
      rw [Memory.use_get (ho.of_holds hxb).2, if_pos rfl]
  | @boxed _ _ b p hk hp hs =>
    have hxb : w.Holds x b := holds_buffer hf
    have hxp : w.Holds x p := ⟨_, b, hf, .inr hp⟩
    have hself : w.mem.use b (.pointer (some p)) = w.mem :=
      Memory.use_self (ho.of_holds hxb).2 hp
    have hne : b ≠ p := ((ho.shaped x _ b hf).pointer_ne hp).symm
    refine ⟨{ w with mem := w.mem.use p (.state (T.call k s a).1) }, ?_, rfl, ?_⟩
    · simp only [World.call, hf, Option.map_some, Small.call, Vtbl.call, hp, hself, hs, hk,
        Bool.false_eq_true, if_false]
    · refine (h.use hxp hs _).insert hf (.boxed (p := p) hk ?_ ?_)
      · rw [Memory.use_get (ho.of_holds hxp).2, if_neg hne]
        exact hp
      · rw [Memory.use_get (ho.of_holds hxp).2, if_pos rfl]

end World

end Functions

end PortableConcurrency
