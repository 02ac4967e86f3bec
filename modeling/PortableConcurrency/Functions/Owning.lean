import PortableConcurrency.Functions.Refinement

/-!
# When `unique_function` is an owning reference

The two machines are run side by side. Three things set them apart, and
nothing else does: an object that has a table is assigned to itself, which
destroys its callable and then moves from it; a call reaches what a move
has left, because that was moved on; and a lambda returns a copy where its
callable returns a reference, and the copy is converted to something else.
-/

namespace PortableConcurrency

namespace Functions

variable {K S A L V E : Type*}

/-! ## Misuses are not undone -/

namespace Memory

variable {m m' m'' : Memory S} {c : ℕ} {x : Content S}

/-- What has been misused in `m` has been misused in `m'`. -/
def Le (m m' : Memory S) : Prop :=
  m.fresh ≤ m'.fresh ∧ ∀ c, c < m.fresh → (m.get c).misuses ≤ (m'.get c).misuses

theorem Le.refl (m : Memory S) : m.Le m := ⟨Nat.le_refl _, fun _ _ => Nat.le_refl _⟩

theorem Le.trans (h : m.Le m') (h' : m'.Le m'') : m.Le m'' :=
  ⟨Nat.le_trans h.1 h'.1,
    fun c hc => Nat.le_trans (h.2 c hc) (h'.2 c (Nat.lt_of_lt_of_le hc h.1))⟩

end Memory

namespace World

variable {T : Types K S A L V E} {w w' : World K S} {x y z : Slot} {f rhs : Small K}

/-- Nothing happens if there is no callable. -/
theorem moveAssign_self (hx : w.fns x = some f) (hf : f.vtbl = none) :
    w.moveAssign T x x = some (w.setFn x (some ⟨none, 0⟩)) := by
  simp only [World.moveAssign, hx, Small.moveAssign, Small.moveFrom, Small.destroy, hf, setFn]

theorem swap_self (hx : w.fns x = some f) (hf : f.vtbl = none) (hxt : x ≠ .temporary)
    (ht : w.fns .temporary = none) :
    w.swap T x x = some (w.setFn x (some ⟨none, 0⟩)) := by
  have h₁ : w.moveConstruct T .temporary x = some (w.setFn .temporary (some ⟨none, 0⟩)) := by
    simp only [World.moveConstruct, ht, hx, Small.moveFrom, hf, setFn]
  have h₂ : (w.setFn .temporary (some ⟨none, 0⟩)).moveAssign T x x =
      some ((w.setFn .temporary (some ⟨none, 0⟩)).setFn x (some ⟨none, 0⟩)) :=
    moveAssign_self (f := f) (by simp [setFn, hxt, hx]) hf
  have h₃ : ((w.setFn .temporary (some ⟨none, 0⟩)).setFn x (some ⟨none, 0⟩)).moveAssign T x
      .temporary = some ((w.setFn .temporary (some ⟨none, 0⟩)).setFn x (some ⟨none, 0⟩)) := by
    simp only [World.moveAssign, setFn, Function.update_self, Function.update_of_ne hxt.symm,
      Small.moveAssign, Small.moveFrom, Small.destroy, Function.update_idem]
  have h₄ : ((w.setFn .temporary (some ⟨none, 0⟩)).setFn x (some ⟨none, 0⟩)).destroy .temporary =
      some (w.setFn x (some ⟨none, 0⟩)) := by
    simp only [World.destroy, setFn, Function.update_self, Function.update_of_ne hxt.symm,
      Small.destroy, Option.some.injEq, World.mk.injEq, true_and]
    funext z
    by_cases hz : z = .temporary
    · simp [hz, hxt.symm, ht]
    · simp [Function.update_apply, hz]
  simp only [World.swap, h₁, h₂, h₃, h₄, Option.bind_some]

end World

/-! ## Side by side -/

/-- What the objects hold, by the reference machine. -/
def Refs.contents (o : Refs K S) : Slot → Option (K × S)
  | .var x => (o x).bind Ref.content
  | _ => none

theorem Refs.contents_set (o : Refs K S) (x : ℕ) (r : Option (Ref K S)) :
    (o.set x r).contents = Function.update o.contents (.var x) (r.bind Ref.content) := by
  funext z
  cases z with
  | var y =>
    by_cases hy : y = x
    · simp [Refs.contents, Refs.set, hy]
    · simp [Refs.contents, Refs.set, hy]
  | lambda => simp [Refs.contents]
  | temporary => simp [Refs.contents]

/-- **The code and the reference machine.** -/
structure Both (K S : Type*) where
  world : World K S
  refs : Refs K S

namespace Both

variable {T : Types K S A L V E} {storable : K → Bool} {conv : Conversion L V E}
variable {s s' : Both K S} {op : Op K S A} {w' : World K S} {ans : Answer L V E}

def init (x : Content S) : Both K S := ⟨World.init x, fun _ => none⟩

def Step (T : Types K S A L V E) (storable : K → Bool) (conv : Conversion L V E) (s : Both K S)
    (op : Op K S A) (s' : Both K S) : Prop :=
  ∃ a a', s.world.step T storable conv op = some (s'.world, a) ∧
    s.refs.step T conv op = some (s'.refs, a')

/-- **No call of an object that has been moved from.** -/
def Allowed (s : Both K S) (op : Op K S A) : Prop :=
  ∀ x a r, op = .call x a → s.refs x = some r → r.movedFrom = false

/-- **What must not be done**: assigning an object with a table to itself,
calling what a moved-from object has been moved to, and calling a callable
on the heap that returns a reference, unless a copy of what it refers to
is converted to the same. -/
structure Careful (T : Types K S A L V E) (storable : K → Bool) (conv : Conversion L V E)
    (s : Both K S) (op : Op K S A) : Prop where
  self : ∀ x f, op = .moveAssign x x ∨ op = .swap x x → s.world.fns (.var x) = some f →
    f.vtbl = none
  left : ∀ x a m f, op = .call x a → s.refs x = some ⟨none, m⟩ →
    s.world.fns (.var x) = some f → f.vtbl = none
  decayed : ∀ x a k t m l v, op = .call x a → s.refs x = some ⟨some (k, t), m⟩ →
    storable k = false → (T.call k t a).2 = .ref l v →
      ((Result.ref l v).decay T.copy).convert conv = (Result.ref l v).convert conv

/-- **The two states fit together.** -/
structure Fits (storable : K → Bool) (s : Both K S) : Prop where
  same : ∀ x, s.world.fns (.var x) = none ↔ s.refs x = none
  lambda : s.world.fns .lambda = none
  temporary : s.world.fns .temporary = none
  holding : s.world.Holding storable s.refs.contents

theorem Fits.fn_ne (h : Fits storable s) {x : ℕ} {r : Ref K S} (hx : s.refs x = some r) :
    s.world.fns (.var x) ≠ none := fun hf => by
  rw [(h.same x).mp hf] at hx
  cases hx

theorem Fits.ref_of (h : Fits storable s) {x : ℕ} {f : Small K}
    (hx : s.world.fns (.var x) = some f) : ∃ r, s.refs x = some r := by
  refine Option.ne_none_iff_exists'.mp fun ho => ?_
  rw [(h.same x).mpr ho] at hx
  cases hx

/-- An object that carries no table holds nothing. -/
theorem Fits.content_eq_none (h : Fits storable s) {x : ℕ} {r : Ref K S} {f : Small K}
    (hx : s.refs x = some r) (hf : s.world.fns (.var x) = some f) (hv : f.vtbl = none) :
    r.content = none := by
  have hnone := h.holding.eq_none (z := .var x) (by
    rintro t b hfn
    obtain rfl := Option.some.inj (hf.symm.trans hfn)
    cases hv)
  simpa [Refs.contents, hx] using hnone

/-- After an operation on `x`. -/
theorem Fits.set (h : Fits storable s) {x : ℕ} {r : Option (Ref K S)} {f : Option (Small K)}
    {g : Slot → Option (K × S)} (hfns : w'.fns = Function.update s.world.fns (.var x) f)
    (hsame : f = none ↔ r = none) (hw : w'.Holding storable g)
    (hg : ∀ z k t, (s.refs.set x r).contents z = some (k, t) → g z = some (k, t)) :
    Fits storable ⟨w', s.refs.set x r⟩ := by
  refine ⟨fun y => ?_, ?_, ?_, hw.mono hg⟩
  · by_cases hy : y = x
    · simp [hfns, Refs.set, hy, hsame]
    · simpa [hfns, Refs.set, hy] using h.same y
  · simpa [hfns] using h.lambda
  · simpa [hfns] using h.temporary

/-- After a move. -/
theorem Fits.pass (h : Fits storable s) {z y : ℕ} {r : Ref K S} {f : Small K}
    (hy : s.refs y = some r) (hfns : w'.fns = Function.update s.world.fns (.var z) (some f))
    (hw : w'.Holding storable (Function.update (Function.update s.refs.contents (.var y) none)
      (.var z) (s.refs.contents (.var y)))) : Fits storable ⟨w', s.refs.pass z y r⟩ := by
  have hcontent : s.refs.contents (.var y) = r.content := by simp [Refs.contents, hy]
  refine ⟨fun x => ?_, ?_, ?_, ?_⟩
  · by_cases hxz : x = z
    · simp [hfns, Refs.pass, Refs.set, hxz]
    · by_cases hxy : x = y
      · subst hxy
        simpa [hfns, Refs.pass, Refs.set, hxz] using h.fn_ne hy
      · simpa [hfns, Refs.pass, Refs.set, hxz, hxy] using h.same x
  · simpa [hfns] using h.lambda
  · simpa [hfns] using h.temporary
  · simpa only [Refs.pass, Refs.contents_set, Option.bind_some, hcontent] using hw

/-- The answer of a lambda is that of its callable, unless a reference
comes back and is converted otherwise than its copy. -/
theorem decay_convert {copy : V → Except E V} {r : Result L V E} (h : ∀ l v, r = .ref l v →
    (r.decay copy).convert conv = r.convert conv) : (r.decay copy).convert conv = r.convert conv := by
  cases r with
  | value v => rfl
  | ref l v => exact h l v rfl
  | throws e => rfl

/-- Where `R` is a reference type, no callable on the heap that returns a
reference may be called. -/
theorem Careful.not_ref {x : ℕ} {a : A} {k : K} {t : S} {m : Bool}
    (hc : Careful T storable .toReference s (.call x a)) (hr : s.refs x = some ⟨some (k, t), m⟩)
    (hk : storable k = false) (l : L) (v : V) : (T.call k t a).2 ≠ .ref l v := by
  intro hres
  have hconv := hc.decayed x a k t m l v rfl hr hk hres
  unfold Result.decay at hconv
  cases hcopy : T.copy v <;> simp [hcopy, Result.convert, Conversion.toReference] at hconv

/-- A new object without a callable. -/
theorem Fits.create (h : Fits storable s) {z : ℕ} (hst : s.world.create (.var z) = some w') :
    ∃ o', s.refs.create z none = some o' ∧ Fits storable ⟨w', o'⟩ := by
  have hz : s.world.fns (.var z) = none := by
    unfold World.create at hst
    split at hst
    · assumption
    · cases hst
  obtain ⟨w'', hw, hfns, hhold⟩ := h.holding.create hz
  obtain rfl := Option.some.inj (hst.symm.trans hw)
  have ho : s.refs z = none := (h.same z).mp hz
  refine ⟨s.refs.set z (some ⟨none, false⟩), by simp only [Refs.create, ho],
    h.set hfns (by simp) hhold fun x k t hx => ?_⟩
  rw [Refs.contents_set] at hx
  by_cases hxz : x = .var z
  · simp [hxz] at hx
  · rwa [Function.update_of_ne hxz] at hx

/-- A new object with a callable. -/
theorem Fits.construct (h : Fits storable s) {z : ℕ} {k : K} {t : S}
    (hst : s.world.construct T storable (.var z) k (some t) = some w') :
    ∃ o', s.refs.create z (some (k, t)) = some o' ∧ Fits storable ⟨w', o'⟩ := by
  have hz : s.world.fns (.var z) = none := by
    simp only [World.construct] at hst
    split at hst
    · unfold World.embed at hst
      split at hst
      · assumption
      · cases hst
    · simp only [World.box, Option.bind_eq_some_iff] at hst
      obtain ⟨w₁, h₁, -⟩ := hst
      unfold World.create at h₁
      split at h₁
      · assumption
      · cases h₁
  have ho : s.refs z = none := (h.same z).mp hz
  have hcontents : ∀ x k' t', (s.refs.set z (some ⟨some (k, t), false⟩)).contents x =
      some (k', t') → Function.update s.refs.contents (.var z) (some (k, t)) x = some (k', t') := by
    intro x k' t' hx
    rwa [Refs.contents_set] at hx
  refine ⟨s.refs.set z (some ⟨some (k, t), false⟩), by simp only [Refs.create, ho], ?_⟩
  by_cases hk : storable k = true
  · simp only [World.construct, hk, if_true, World.embed, hz] at hst
    obtain rfl := Option.some.inj hst
    exact h.set rfl (by simp) (h.holding.embed hz hk) hcontents
  · have hk : storable k = false := by simpa using hk
    obtain ⟨w'', f, hw, hfns, hhold⟩ := h.holding.box T hz (by simp) (by simp) h.lambda
      h.temporary hk t
    simp only [World.construct, hk, Bool.false_eq_true, if_false] at hst
    obtain rfl := Option.some.inj (hst.symm.trans hw)
    exact h.set hfns (by simp) hhold hcontents

theorem Fits.moveConstruct (h : Fits storable s) {z y : ℕ}
    (hst : s.world.moveConstruct T (.var z) (.var y) = some w') :
    ∃ r, s.refs z = none ∧ s.refs y = some r ∧ Fits storable ⟨w', s.refs.pass z y r⟩ := by
  unfold World.moveConstruct at hst
  split at hst
  · rename_i rhs hz hy
    obtain ⟨r, hr⟩ := h.ref_of hy
    obtain ⟨w'', f, hw, hfns, hhold⟩ := h.holding.moveConstruct T hz (h.fn_ne hr)
    have hst' : s.world.moveConstruct T (.var z) (.var y) = some w' := by
      simp only [World.moveConstruct, hz, hy]
      exact hst
    obtain rfl := Option.some.inj (hst'.symm.trans hw)
    exact ⟨r, (h.same z).mp hz, hr, h.pass hr hfns hhold⟩
  · cases hst

/-- **An assignment**, to another object or to one without a table. -/
theorem Fits.moveAssign (h : Fits storable s) {x y : ℕ}
    (hself : ∀ f, x = y → s.world.fns (.var x) = some f → f.vtbl = none)
    (hst : s.world.moveAssign T (.var x) (.var y) = some w') :
    ∃ r r', s.refs x = some r' ∧ s.refs y = some r ∧ Fits storable ⟨w', s.refs.pass x y r⟩ := by
  obtain ⟨f, rhs, hf, hrhs⟩ : ∃ f rhs, s.world.fns (.var x) = some f ∧
      s.world.fns (.var y) = some rhs := by
    unfold World.moveAssign at hst
    split at hst
    · exact ⟨_, _, by assumption, by assumption⟩
    · cases hst
  obtain ⟨r', hr'⟩ := h.ref_of hf
  obtain ⟨r, hr⟩ := h.ref_of hrhs
  refine ⟨r, r', hr', hr, ?_⟩
  by_cases hxy : x = y
  · subst hxy
    have hv := hself f rfl hf
    have hnone := h.content_eq_none hr hf hv
    rw [World.moveAssign_self hf hv] at hst
    obtain rfl := Option.some.inj hst
    have hhold : (s.world.setFn (.var x) (some ⟨none, 0⟩)).Holding storable s.refs.contents := by
      refine h.holding.setFn ?_ (by simp)
      rintro t b hfn
      obtain rfl := Option.some.inj (hf.symm.trans hfn)
      cases hv
    refine h.pass hr rfl (hhold.mono fun z k t hz => ?_)
    by_cases hzx : z = .var x
    · simpa [hzx] using hz
    · simpa [hzx] using hz
  · obtain ⟨w'', f', hw, hfns, hhold⟩ := h.holding.moveAssign T
      (by simpa using hxy : Slot.var x ≠ .var y) (h.fn_ne hr') (h.fn_ne hr)
    obtain rfl := Option.some.inj (hst.symm.trans hw)
    exact h.pass hr hfns hhold

/-- The operands of an exchange exist. -/
theorem exists_of_swap {w : World K S} {x y : Slot} (hyt : y ≠ .temporary)
    (hst : w.swap T x y = some w') : (∃ f, w.fns x = some f) ∧ ∃ f, w.fns y = some f := by
  simp only [World.swap, Option.bind_eq_some_iff] at hst
  obtain ⟨w₁, h₁, w₂, h₂, -⟩ := hst
  unfold World.moveConstruct at h₁
  split at h₁
  · rename_i rhs _ hx
    obtain rfl := Option.some.inj h₁
    refine ⟨⟨rhs, hx⟩, ?_⟩
    unfold World.moveAssign at h₂
    split at h₂
    · rename_i f f' _ hy
      exact ⟨f', by simpa [hyt] using hy⟩
    · cases h₂
  · cases h₁

/-- **An exchange.** -/
theorem Fits.swap (h : Fits storable s) {x y : ℕ}
    (hself : ∀ f, x = y → s.world.fns (.var x) = some f → f.vtbl = none)
    (hst : s.world.swap T (.var x) (.var y) = some w') :
    ∃ r r', s.refs x = some r ∧ s.refs y = some r' ∧ Fits storable
      ⟨w', (s.refs.set x (some ⟨r'.content, false⟩)).set y (some ⟨r.content, false⟩)⟩ := by
  obtain ⟨⟨f, hf⟩, f', hf'⟩ := exists_of_swap (by simp) hst
  obtain ⟨r, hr⟩ := h.ref_of hf
  obtain ⟨r', hr'⟩ := h.ref_of hf'
  refine ⟨r, r', hr, hr', ?_⟩
  by_cases hxy : x = y
  · subst hxy
    obtain rfl := Option.some.inj (hr.symm.trans hr')
    have hv := hself f rfl hf
    have hnone := h.content_eq_none hr hf hv
    rw [World.swap_self hf hv (by simp) h.temporary] at hst
    obtain rfl := Option.some.inj hst
    have hhold : (s.world.setFn (.var x) (some ⟨none, 0⟩)).Holding storable s.refs.contents := by
      refine h.holding.setFn ?_ (by simp)
      rintro t b hfn
      obtain rfl := Option.some.inj (hf.symm.trans hfn)
      cases hv
    rw [show (s.refs.set x (some ⟨r.content, false⟩)).set x (some ⟨r.content, false⟩) =
      s.refs.set x (some ⟨r.content, false⟩) from Function.update_idem ..]
    refine h.set rfl (by simp) hhold fun z k t hz => ?_
    rw [Refs.contents_set] at hz
    by_cases hzx : z = .var x
    · simp [hzx, hnone] at hz
    · rwa [Function.update_of_ne hzx] at hz
  · have hne : Slot.var x ≠ .var y := by simpa using hxy
    obtain ⟨w'', g, g', hw, hfns, hhold⟩ := h.holding.swap T hne (by simp) (by simp)
      (h.fn_ne hr) (h.fn_ne hr') h.temporary
    obtain rfl := Option.some.inj (hst.symm.trans hw)
    have hx : s.refs.contents (.var x) = r.content := by simp [Refs.contents, hr]
    have hy : s.refs.contents (.var y) = r'.content := by simp [Refs.contents, hr']
    refine ⟨fun z => ?_, ?_, ?_, ?_⟩
    · by_cases hzy : z = y
      · simp [hfns, Refs.set, hzy]
      · by_cases hzx : z = x
        · simp [hfns, Refs.set, hzx, hxy]
        · simpa [hfns, Refs.set, hzx, hzy] using h.same z
    · simpa [hfns] using h.lambda
    · simpa [hfns] using h.temporary
    · simpa only [Refs.contents_set, Option.bind_some, hx, hy] using hhold

theorem Fits.destroy (h : Fits storable s) {x : ℕ} (hst : s.world.destroy (.var x) = some w') :
    ∃ r, s.refs x = some r ∧ Fits storable ⟨w', s.refs.set x none⟩ := by
  obtain ⟨f, hf⟩ : ∃ f, s.world.fns (.var x) = some f := by
    unfold World.destroy at hst
    split at hst
    · exact ⟨_, by assumption⟩
    · cases hst
  obtain ⟨r, hr⟩ := h.ref_of hf
  obtain ⟨w'', hw, hfns, hhold⟩ := h.holding.destroy (h.fn_ne hr)
  obtain rfl := Option.some.inj (hst.symm.trans hw)
  refine ⟨r, hr, h.set hfns (by simp) hhold fun z k t hz => ?_⟩
  rwa [Refs.contents_set] at hz

/-- **A call.** -/
theorem Fits.call (h : Fits storable s) {x : ℕ} {a : A}
    (hc : Careful T storable conv s (.call x a))
    (hst : s.world.call T conv (.var x) a = some (w', ans)) :
    ∃ o', s.refs.step T conv (.call x a) = some (o', ans) ∧ Fits storable ⟨w', o'⟩ := by
  obtain ⟨f, hf, hans⟩ := Option.map_eq_some_iff.mp hst
  obtain ⟨⟨content, m⟩, hr⟩ := h.ref_of hf
  cases content with
  | none =>
    have hv := hc.left x a m f rfl hr hf
    simp only [Small.call, hv, Prod.mk.injEq] at hans
    obtain ⟨rfl, rfl⟩ := hans
    exact ⟨s.refs, by simp only [Refs.step, hr], h⟩
  | some c =>
    obtain ⟨k, t⟩ := c
    have hcontent : s.refs.contents (.var x) = some (k, t) := by simp [Refs.contents, hr]
    obtain ⟨w'', hw, hfns, hhold⟩ := h.holding.call T conv hcontent a
    obtain ⟨rfl, rfl⟩ := Prod.mk.inj (Option.some.inj (hst.symm.trans hw))
    refine ⟨s.refs.set x (some ⟨some (k, (T.call k t a).1), m⟩), ?_, ?_⟩
    · simp only [Refs.step, hr]
      cases hk : storable k with
      | true => rfl
      | false =>
        rw [if_neg (by simp), decay_convert fun l v hres => ?_]
        rw [hres]
        exact hc.decayed x a k t m l v rfl hr hk hres
    · have hsame : s.world.fns (.var x) = some f := hf
      refine h.set (f := some f) ?_ (by simp) hhold fun z k' t' hz => ?_
      · rw [hfns, ← hsame, Function.update_eq_self]
      · rwa [Refs.contents_set] at hz

/-- **The step lemma.** A careful operation keeps the two together, and
they answer the same. -/
theorem Fits.step (h : Fits storable s) (hc : Careful T storable conv s op)
    (hst : s.world.step T storable conv op = some (w', ans)) :
    ∃ o', s.refs.step T conv op = some (o', ans) ∧ Fits storable ⟨w', o'⟩ := by
  cases op with
  | empty z =>
    obtain ⟨w'', hw, heq⟩ := Option.map_eq_some_iff.mp hst
    obtain ⟨rfl, rfl⟩ := Prod.mk.inj heq
    obtain ⟨o', ho, hfits⟩ := h.create hw
    exact ⟨o', by simp only [Refs.step, ho, Option.map_some], hfits⟩
  | construct z k f =>
    obtain ⟨w'', hw, heq⟩ := Option.map_eq_some_iff.mp hst
    obtain ⟨rfl, rfl⟩ := Prod.mk.inj heq
    cases f with
    | none =>
      obtain ⟨o', ho, hfits⟩ := h.create hw
      exact ⟨o', by simp only [Refs.step, Option.map_none, ho, Option.map_some], hfits⟩
    | some t =>
      obtain ⟨o', ho, hfits⟩ := h.construct hw
      exact ⟨o', by simp only [Refs.step, Option.map_some, ho], hfits⟩
  | moveConstruct z y =>
    obtain ⟨w'', hw, heq⟩ := Option.map_eq_some_iff.mp hst
    obtain ⟨rfl, rfl⟩ := Prod.mk.inj heq
    obtain ⟨r, hz, hy, hfits⟩ := h.moveConstruct hw
    exact ⟨_, by simp only [Refs.step, hz, hy], hfits⟩
  | moveAssign x y =>
    obtain ⟨w'', hw, heq⟩ := Option.map_eq_some_iff.mp hst
    obtain ⟨rfl, rfl⟩ := Prod.mk.inj heq
    have hself : ∀ f, x = y → s.world.fns (.var x) = some f → f.vtbl = none := by
      rintro f rfl hf
      exact hc.self x f (.inl rfl) hf
    obtain ⟨r, r', hx, hy, hfits⟩ := h.moveAssign hself hw
    exact ⟨_, by simp only [Refs.step, hx, hy], hfits⟩
  | swap x y =>
    obtain ⟨w'', hw, heq⟩ := Option.map_eq_some_iff.mp hst
    obtain ⟨rfl, rfl⟩ := Prod.mk.inj heq
    have hself : ∀ f, x = y → s.world.fns (.var x) = some f → f.vtbl = none := by
      rintro f rfl hf
      exact hc.self x f (.inr rfl) hf
    obtain ⟨r, r', hx, hy, hfits⟩ := h.swap hself hw
    exact ⟨_, by simp only [Refs.step, hx, hy], hfits⟩
  | call x a => exact h.call hc hst
  | destroy x =>
    obtain ⟨w'', hw, heq⟩ := Option.map_eq_some_iff.mp hst
    obtain ⟨rfl, rfl⟩ := Prod.mk.inj heq
    obtain ⟨r, hx, hfits⟩ := h.destroy hw
    exact ⟨_, by simp only [Refs.step, hx], hfits⟩

/-- **In lockstep, with two ways of storing.** Careful operations answer
the same, whatever is on the heap. -/
theorem answer_eq {storable₁ storable₂ : K → Bool} {w₁ w₁' w₂ w₂' : World K S} {o : Refs K S}
    {a₁ a₂ : Answer L V E} (h₁ : Fits storable₁ ⟨w₁, o⟩) (h₂ : Fits storable₂ ⟨w₂, o⟩)
    (hc₁ : Careful T storable₁ conv ⟨w₁, o⟩ op)
    (hc₂ : Careful T storable₂ conv ⟨w₂, o⟩ op)
    (hst₁ : w₁.step T storable₁ conv op = some (w₁', a₁))
    (hst₂ : w₂.step T storable₂ conv op = some (w₂', a₂)) :
    a₁ = a₂ ∧ ∃ o', Fits storable₁ ⟨w₁', o'⟩ ∧ Fits storable₂ ⟨w₂', o'⟩ := by
  obtain ⟨o₁, ho₁, hfits₁⟩ := h₁.step hc₁ hst₁
  obtain ⟨o₂, ho₂, hfits₂⟩ := h₂.step hc₂ hst₂
  obtain ⟨rfl, rfl⟩ := Prod.mk.inj (Option.some.inj (ho₁.symm.trans ho₂))
  exact ⟨rfl, o₁, hfits₁, hfits₂⟩

end Both

end Functions

end PortableConcurrency
