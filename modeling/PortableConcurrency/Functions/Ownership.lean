import PortableConcurrency.Functions.Model

/-!
# Who owns a callable

Every object that is alive has one owner: the `unique_function` in whose
buffer it is, or whose lambda points to it. A destructor, a move and a call
keep this up, as long as nothing is moved onto itself; and what a
`unique_function` carries goes where it is moved.
-/

namespace PortableConcurrency

namespace Functions

variable {K S A L V E : Type*}

/-! ## Memory -/

namespace Memory

variable {m : Memory S} {c d : ℕ} {x : Content S}

theorem construct_get : (m.construct x).1.get c = if c = m.fresh then ⟨x, 0, 0⟩ else m.get c := by
  simp only [construct, Function.update_apply]

@[simp] theorem construct_fresh : (m.construct x).1.fresh = m.fresh + 1 := rfl

@[simp] theorem construct_snd : (m.construct x).2 = m.fresh := rfl

theorem free_get : (m.free c).get d =
    if d = c then { m.get c with destructions := (m.get c).destructions + 1 } else m.get d := by
  simp only [free, set, Function.update_apply]

@[simp] theorem free_fresh : (m.free c).fresh = m.fresh := rfl

@[simp] theorem free_content : ((m.free c).get d).content = (m.get d).content := by
  rw [free_get]
  split
  · rename_i h
    rw [h]
  · rfl

@[simp] theorem use_fresh : (m.use c x).fresh = m.fresh := rfl

/-- An object that is used while it is alive. -/
theorem use_get (h : (m.get c).destructions = 0) : (m.use c x).get d =
    if d = c then { m.get c with content := x } else m.get d := by
  simp only [use, set, Function.update_apply, h, if_true, Nat.add_zero]

/-- A use that leaves a living object as it was. -/
theorem use_self (h : (m.get c).destructions = 0) (hx : (m.get c).content = x) :
    m.use c x = m := by
  have hmis : (m.get c).misuses + (if (m.get c).destructions = 0 then 0 else 1) =
      (m.get c).misuses := by rw [if_pos h, Nat.add_zero]
  have hi : (⟨x, (m.get c).destructions, (m.get c).misuses⟩ : Instance S) = m.get c := by
    rw [← hx]
  simp only [use, set, hmis, hi, Function.update_eq_self]

end Memory

/-- A table fits what it is used on. -/
def Shaped (m : Memory S) : Vtbl K → ℕ → Prop
  | .inline _, b => ∃ s, (m.get b).content = .state s
  | .boxed _, b => ∃ p, (m.get b).content = .pointer p ∧
      ∀ c, p = some c → ∃ s, (m.get c).content = .state s

/-- What the buffer `b` owns. -/
def Owns (m : Memory S) (b c : ℕ) : Prop := c = b ∨ (m.get b).content = .pointer (some c)

instance [DecidableEq S] (m : Memory S) (b c : ℕ) : Decidable (Owns m b c) :=
  inferInstanceAs (Decidable (c = b ∨ (m.get b).content = .pointer (some c)))

section Shape

variable {m : Memory S} {t : Vtbl K} {b c : ℕ}

/-- What a lambda points to is not a lambda. -/
theorem Shaped.pointer (h : Shaped m t b) (hc : (m.get b).content = .pointer (some c)) :
    ∃ s, (m.get c).content = .state s := by
  cases t with
  | inline k =>
    obtain ⟨s, hs⟩ := h
    rw [hs] at hc
    cases hc
  | boxed k =>
    obtain ⟨p, hp, hstate⟩ := h
    rw [hp] at hc
    exact hstate c (Content.pointer.inj hc)

theorem Shaped.pointer_ne (h : Shaped m t b) (hc : (m.get b).content = .pointer (some c)) :
    c ≠ b := by
  rintro rfl
  obtain ⟨s, hs⟩ := h.pointer hc
  rw [hs] at hc
  cases hc

/-- **The destructor runs once for each object the buffer owns**, and for
no other. -/
theorem Shaped.destroy_get (h : Shaped m t b) (d : ℕ) :
    (Owns m b d → (t.destroy m b).get d =
      { m.get d with destructions := (m.get d).destructions + 1 }) ∧
    (¬ Owns m b d → (t.destroy m b).get d = m.get d) := by
  cases t with
  | inline k =>
    obtain ⟨s, hs⟩ := h
    have howns : Owns m b d ↔ d = b := by simp [Owns, hs]
    have hdestroy : (Vtbl.inline k).destroy m b = m.free b := by simp only [Vtbl.destroy]
    rw [howns, hdestroy, Memory.free_get]
    refine ⟨fun hd => by rw [if_pos hd, hd], fun hd => if_neg hd⟩
  | boxed k =>
    obtain ⟨p, hp, -⟩ := id h
    cases p with
    | none =>
      have howns : Owns m b d ↔ d = b := by simp [Owns, hp]
      have hdestroy : (Vtbl.boxed k).destroy m b = m.free b := by simp only [Vtbl.destroy, hp]
      rw [howns, hdestroy, Memory.free_get]
      refine ⟨fun hd => by rw [if_pos hd, hd], fun hd => if_neg hd⟩
    | some p =>
      have hne : p ≠ b := h.pointer_ne hp
      have howns : Owns m b d ↔ d = b ∨ d = p := by simp [Owns, hp, eq_comm]
      have hdestroy : (Vtbl.boxed k).destroy m b = (m.free b).free p := by
        simp only [Vtbl.destroy, hp]
      rw [howns, hdestroy, Memory.free_get]
      by_cases hdp : d = p
      · subst hdp
        rw [if_pos rfl, Memory.free_get, if_neg hne]
        simp
      · rw [if_neg hdp, Memory.free_get]
        by_cases hdb : d = b
        · subst hdb
          simp
        · simp [hdb, hdp]

@[simp] theorem destroy_content (d : ℕ) :
    ((t.destroy m b).get d).content = (m.get d).content := by
  unfold Vtbl.destroy
  split
  · simp
  · simp

@[simp] theorem destroy_fresh : (t.destroy m b).fresh = m.fresh := by
  unfold Vtbl.destroy
  split
  · simp
  · simp

/-- A table fits as long as the contents keep their kind. -/
theorem Shaped.congr {m' : Memory S} (h : Shaped m t b)
    (hb : (m'.get b).content = (m.get b).content)
    (hc : ∀ c s, (m.get b).content = .pointer (some c) → (m.get c).content = .state s →
      ∃ s', (m'.get c).content = .state s') : Shaped m' t b := by
  cases t with
  | inline k =>
    obtain ⟨s, hs⟩ := h
    exact ⟨s, hb.trans hs⟩
  | boxed k =>
    obtain ⟨p, hp, hstate⟩ := h
    refine ⟨p, hb.trans hp, ?_⟩
    rintro c rfl
    obtain ⟨s, hs⟩ := hstate c rfl
    exact hc c s hp hs

/-- **A move, from an object that is alive.** -/
theorem move_get (T : Types K S A L V E) (halive : (m.get b).destructions = 0)
    (d : ℕ) : (t.move T m b).1.get d =
      if d = m.fresh then ⟨(m.get b).content, 0, 0⟩
      else if d = b then { m.get b with content := t.residue T (m.get b).content }
      else m.get d := by
  simp only [Vtbl.move, Memory.construct_get, Memory.use_fresh, Memory.use_get halive]

end Shape

/-! ## Owners -/

namespace World

variable {w : World K S} {own : ℕ → Option Slot} {x y z : Slot} {t : Vtbl K} {b c : ℕ}

/-- `z` owns `c`. -/
def Holds (w : World K S) (z : Slot) (c : ℕ) : Prop :=
  ∃ t b, w.fns z = some ⟨some t, b⟩ ∧ Owns w.mem b c

/-- **Every living object has one owner, and no object has been misused.** -/
structure Owned (w : World K S) (own : ℕ → Option Slot) : Prop where
  holds : ∀ z c, w.Holds z c ↔ own c = some z
  alive : ∀ c, own c ≠ none ↔ c < w.mem.fresh ∧ (w.mem.get c).destructions = 0
  once : ∀ c, (w.mem.get c).destructions ≤ 1 ∧ (w.mem.get c).misuses = 0
  shaped : ∀ z t b, w.fns z = some ⟨some t, b⟩ → Shaped w.mem t b

theorem Owned.of_holds (h : Owned w own) (hc : w.Holds z c) :
    c < w.mem.fresh ∧ (w.mem.get c).destructions = 0 :=
  (h.alive c).mp (by rw [(h.holds z c).mp hc]; simp)

theorem Owned.unique (h : Owned w own) (hy : w.Holds y c) (hz : w.Holds z c) : y = z :=
  Option.some.inj (((h.holds y c).mp hy).symm.trans ((h.holds z c).mp hz))

theorem holds_buffer (hz : w.fns z = some ⟨some t, b⟩) : w.Holds z b := ⟨t, b, hz, .inl rfl⟩

theorem holds_iff (hz : w.fns z = some ⟨some t, b⟩) : w.Holds z c ↔ Owns w.mem b c := by
  constructor
  · rintro ⟨t', b', hz', ho⟩
    obtain ⟨-, rfl⟩ : t = t' ∧ b = b' := by simpa using hz.symm.trans hz'
    exact ho
  · exact fun ho => ⟨t, b, hz, ho⟩

theorem not_holds (hz : ∀ t b, w.fns z ≠ some ⟨some t, b⟩) : ¬ w.Holds z c :=
  fun ⟨t, b, h, _⟩ => hz t b h

/-- Other objects keep what they own, if what is in their buffers stays. -/
theorem holds_congr {w' : World K S} (hfn : w'.fns z = w.fns z)
    (hb : ∀ t b, w.fns z = some ⟨some t, b⟩ → (w'.mem.get b).content = (w.mem.get b).content) :
    w'.Holds z c ↔ w.Holds z c := by
  constructor
  · rintro ⟨t, b, hz, ho⟩
    rw [hfn] at hz
    refine ⟨t, b, hz, ?_⟩
    rwa [Owns, hb t b hz] at ho
  · rintro ⟨t, b, hz, ho⟩
    refine ⟨t, b, hfn.trans hz, ?_⟩
    rwa [Owns, hb t b hz]

/-- **An object without a callable is there, or not.** -/
theorem Owned.setFn (h : Owned w own) {f : Option (Small K)}
    (hold : ∀ t b, w.fns z ≠ some ⟨some t, b⟩) (hnew : ∀ t b, f ≠ some ⟨some t, b⟩) :
    Owned (w.setFn z f) own where
  holds x c := by
    by_cases hx : x = z
    · subst hx
      rw [← h.holds]
      have h' : ¬ (w.setFn x f).Holds x c := not_holds (by simpa [World.setFn] using hnew)
      exact iff_of_false h' (not_holds hold)
    · rw [← h.holds]
      exact holds_congr (by simp [World.setFn, hx]) fun _ _ _ => rfl
  alive := h.alive
  once := h.once
  shaped x t b hx := by
    by_cases hxz : x = z
    · subst hxz
      exact absurd (by simpa [World.setFn] using hx) (hnew t b)
    · exact h.shaped x t b (by simpa [World.setFn, hxz] using hx)

/-- **A destructor.** What `z` owned is gone. -/
theorem Owned.vacate (h : Owned w own) {f : Small K} {g : Option (Small K)}
    (hz : w.fns z = some f) (hg : ∀ t b, g ≠ some ⟨some t, b⟩) :
    Owned ⟨f.destroy w.mem, Function.update w.fns z g⟩
      (fun c => if own c = some z then none else own c) := by
  obtain ⟨vtbl, b⟩ := f
  cases vtbl with
  | none =>
    have hold : ∀ t b, w.fns z ≠ some ⟨some t, b⟩ := by simp [hz]
    have hown : (fun c => if own c = some z then none else own c) = own := by
      funext c
      refine if_neg fun hc => ?_
      exact not_holds hold ((h.holds z c).mpr hc)
    rw [hown]
    exact h.setFn hold hg
  | some t =>
    have hshaped := h.shaped z t b hz
    have hmem : (⟨some t, b⟩ : Small K).destroy w.mem = t.destroy w.mem b := rfl
    have howns : ∀ c, Owns w.mem b c ↔ own c = some z := fun c => by
      rw [← h.holds, holds_iff hz]
    refine ⟨?_, ?_, ?_, ?_⟩
    · intro x c
      by_cases hx : x = z
      · subst hx
        refine iff_of_false (not_holds (by simpa using hg)) ?_
        split
        · simp
        · assumption
      · have hcongr : (⟨t.destroy w.mem b, Function.update w.fns z g⟩ : World K S).Holds x c ↔
            w.Holds x c := holds_congr (by simp [hx]) fun _ _ _ => by simp
        rw [hmem, hcongr, h.holds]
        constructor
        · intro hc
          rw [if_neg, hc]
          rw [hc]
          exact fun heq => hx (Option.some.inj heq)
        · intro hc
          split at hc
          · cases hc
          · exact hc
    · intro c
      by_cases hc : Owns w.mem b c
      · have hget := (hshaped.destroy_get c).1 hc
        rw [hmem, hget, if_pos ((howns c).mp hc)]
        simp
      · have hget := (hshaped.destroy_get c).2 hc
        have hne := mt (howns c).mpr hc
        rw [hmem, hget, if_neg hne, destroy_fresh]
        exact h.alive c
    · intro c
      by_cases hc : Owns w.mem b c
      · have hget := (hshaped.destroy_get c).1 hc
        have halive := (h.of_holds ((holds_iff hz).mpr hc)).2
        rw [hmem, hget]
        simp [halive, (h.once c).2]
      · have hget := (hshaped.destroy_get c).2 hc
        rw [hmem, hget]
        exact h.once c
    · intro x t' b' hx
      by_cases hxz : x = z
      · subst hxz
        exact absurd (by simpa using hx) (hg t' b')
      · have hold := h.shaped x t' b' (by simpa [hxz] using hx)
        rw [hmem]
        exact hold.congr (by simp) fun c s _ hs => ⟨s, by simpa using hs⟩

/-- **A move to an object without a callable.** The new object in `z` has
what was in `y`; what is left in `y` points to nothing. -/
theorem Owned.take (T : Types K S A L V E) (h : Owned w own) (hy : w.fns y = some ⟨some t, b⟩)
    (hz : ∀ t b, w.fns z ≠ some ⟨some t, b⟩) :
    ∃ own', Owned ⟨(t.move T w.mem b).1,
      Function.update w.fns z (some ⟨some t, w.mem.fresh⟩)⟩ own' := by
  classical
  have hyz : y ≠ z := by
    rintro rfl
    exact hz t b hy
  obtain ⟨hlt, halive⟩ := h.of_holds (holds_buffer hy)
  have hshaped := h.shaped y t b hy
  have hget := move_get (t := t) T halive
  have hbf : b ≠ w.mem.fresh := by omega
  have hnew : ((t.move T w.mem b).1.get w.mem.fresh).content = (w.mem.get b).content := by
    rw [hget, if_pos rfl]
  have hleft : ∀ c, ((t.move T w.mem b).1.get b).content ≠ .pointer (some c) := by
    intro c
    rw [hget, if_neg hbf, if_pos rfl]
    cases t with
    | inline k =>
      obtain ⟨s, hs⟩ := hshaped
      simp [Vtbl.residue, hs]
    | boxed k =>
      obtain ⟨p, hp, -⟩ := hshaped
      simp [Vtbl.residue, hp]
  -- the other buffers are where they were
  have hother : ∀ x t' b', x ≠ y → w.fns x = some ⟨some t', b'⟩ →
      b' ≠ b ∧ b' < w.mem.fresh := by
    rintro x t' b' hx hfn
    refine ⟨?_, (h.of_holds (holds_buffer hfn)).1⟩
    rintro rfl
    exact hx (h.unique (holds_buffer hfn) (holds_buffer hy))
  have htarget : ∀ c, (w.mem.get b).content = .pointer (some c) → w.Holds y c :=
    fun c hc => ⟨t, b, hy, .inr hc⟩
  refine ⟨fun c => if c = w.mem.fresh ∨ (w.mem.get b).content = .pointer (some c) then some z
    else own c, ?_, ?_, ?_, ?_⟩
  · intro x c
    by_cases hxz : x = z
    · subst hxz
      rw [holds_iff (b := w.mem.fresh) (t := t) (by simp)]
      simp only [Owns, hnew]
      constructor
      · exact fun hc => if_pos hc
      · intro hc
        by_contra hno
        rw [if_neg hno] at hc
        exact not_holds hz ((h.holds x c).mpr hc)
    · by_cases hxy : x = y
      · subst hxy
        rw [holds_iff (b := b) (t := t) (by simp [hxz, hy])]
        simp only [Owns, hleft, or_false]
        constructor
        · rintro rfl
          rw [if_neg, ← h.holds]
          · exact holds_buffer hy
          · rintro (hc | hc)
            · exact hbf hc
            · exact hshaped.pointer_ne hc rfl
        · intro hc
          split at hc
          · exact absurd (Option.some.inj hc).symm hxz
          · rename_i hno
            rcases (holds_iff hy).mp ((h.holds x c).mpr hc) with hc | hc
            · exact hc
            · exact absurd (.inr hc) hno
      · have hcongr : (⟨(t.move T w.mem b).1,
            Function.update w.fns z (some ⟨some t, w.mem.fresh⟩)⟩ : World K S).Holds x c ↔
              w.Holds x c := by
          refine holds_congr (by simp [hxz]) fun t' b' hfn => ?_
          obtain ⟨hne, hlt'⟩ := hother x t' b' hxy hfn
          rw [hget, if_neg (by omega), if_neg hne]
        rw [hcongr, h.holds]
        constructor
        · intro hc
          rw [if_neg, hc]
          rintro (rfl | hp)
          · exact absurd (h.of_holds ((h.holds x _).mpr hc)).1 (by omega)
          · exact hxy (h.unique ((h.holds x c).mpr hc) (htarget c hp))
        · intro hc
          split at hc
          · exact absurd (Option.some.inj hc).symm hxz
          · exact hc
  · intro c
    simp only [hget]
    have hfresh : (t.move T w.mem b).1.fresh = w.mem.fresh + 1 := rfl
    rw [hfresh]
    by_cases hc : c = w.mem.fresh
    · simp [hc]
    · by_cases hp : (w.mem.get b).content = .pointer (some c)
      · have hal := h.of_holds (htarget c hp)
        have hcb := hshaped.pointer_ne hp
        simp only [hc, hp, or_true, if_true, if_false, hcb, hal.2]
        simp
        omega
      · have hal := h.alive c
        by_cases hcb : c = b
        · subst hcb
          simp only [hc, hp, or_self, if_false, if_true]
          rw [hal]
          omega
        · simp only [hc, hp, or_self, if_false, hcb]
          rw [hal]
          omega
  · intro c
    simp only [hget]
    split
    · simp
    · split
      · exact h.once b
      · exact h.once c
  · intro x t' b' hx
    by_cases hxz : x = z
    · subst hxz
      obtain ⟨rfl, rfl⟩ : t = t' ∧ w.mem.fresh = b' := by simpa using hx
      cases t with
      | inline k =>
        obtain ⟨s, hs⟩ := hshaped
        exact ⟨s, hnew.trans hs⟩
      | boxed k =>
        obtain ⟨p, hp, hstate⟩ := id hshaped
        refine ⟨p, hnew.trans hp, ?_⟩
        rintro c rfl
        have hlt' := (h.of_holds (htarget c hp)).1
        rw [hget, if_neg (by omega), if_neg (hshaped.pointer_ne hp)]
        exact hstate c rfl
    · have hfn : w.fns x = some ⟨some t', b'⟩ := by simpa [hxz] using hx
      have hold := h.shaped x t' b' hfn
      by_cases hxy : x = y
      · subst hxy
        obtain ⟨rfl, rfl⟩ : t = t' ∧ b = b' := by simpa using hy.symm.trans hfn
        cases t with
        | inline k =>
          obtain ⟨s, hs⟩ := hshaped
          refine ⟨T.residue k s, ?_⟩
          rw [hget, if_neg hbf, if_pos rfl]
          simp [Vtbl.residue, hs]
        | boxed k =>
          obtain ⟨p, hp, -⟩ := hshaped
          refine ⟨none, ?_, by simp⟩
          rw [hget, if_neg hbf, if_pos rfl]
          simp [Vtbl.residue, hp]
      · obtain ⟨hne, hlt'⟩ := hother x t' b' hxy hfn
        refine hold.congr ?_ fun c s hc hs => ?_
        · rw [hget, if_neg (by omega), if_neg hne]
        · have hx' : w.Holds x c := ⟨t', b', hfn, .inr hc⟩
          have hcf := (h.of_holds hx').1
          refine ⟨s, ?_⟩
          rw [hget, if_neg (by omega), if_neg]
          · exact hs
          · rintro rfl
            exact hxy (h.unique hx' (holds_buffer hy))

/-- **A callable in the buffer of a new object.** -/
theorem Owned.embed (h : Owned w own) (hz : w.fns z = none) (k : K) (s : S) :
    ∃ own', Owned ⟨(w.mem.construct (.state s)).1,
      Function.update w.fns z (some ⟨some (.inline k), w.mem.fresh⟩)⟩ own' := by
  have hnone : ∀ t b, w.fns z ≠ some ⟨some t, b⟩ := by simp [hz]
  have hlt : ∀ x c, w.Holds x c → c ≠ w.mem.fresh := fun x c hc =>
    Nat.ne_of_lt (h.of_holds hc).1
  refine ⟨fun c => if c = w.mem.fresh then some z else own c, ?_, ?_, ?_, ?_⟩
  · intro x c
    by_cases hxz : x = z
    · subst hxz
      rw [holds_iff (b := w.mem.fresh) (t := .inline k) (by simp)]
      simp only [Owns, Memory.construct_get, if_true]
      constructor
      · rintro (hc | hc)
        · exact if_pos hc
        · cases hc
      · intro hc
        by_contra hno
        rw [if_neg (fun hc => hno (.inl hc))] at hc
        exact not_holds hnone ((h.holds x c).mpr hc)
    · have hcongr : (⟨(w.mem.construct (.state s)).1,
          Function.update w.fns z (some ⟨some (.inline k), w.mem.fresh⟩)⟩ : World K S).Holds x c ↔
          w.Holds x c := by
        refine holds_congr (by simp [hxz]) fun t b hfn => ?_
        rw [Memory.construct_get, if_neg (hlt x b (holds_buffer hfn))]
      rw [hcongr, h.holds]
      constructor
      · intro hc
        rw [if_neg (hlt x c ((h.holds x c).mpr hc)), hc]
      · intro hc
        split at hc
        · exact absurd (Option.some.inj hc).symm hxz
        · exact hc
  · intro c
    have hal := h.alive c
    simp only [Memory.construct_get, Memory.construct_fresh]
    by_cases hc : c = w.mem.fresh
    · simp [hc]
    · simp only [if_neg hc, hal]
      omega
  · intro c
    simp only [Memory.construct_get]
    split
    · simp
    · exact h.once c
  · intro x t b hx
    by_cases hxz : x = z
    · subst hxz
      obtain ⟨rfl, rfl⟩ : Vtbl.inline k = t ∧ w.mem.fresh = b := by simpa using hx
      exact ⟨s, by simp [Memory.construct_get]⟩
    · have hfn : w.fns x = some ⟨some t, b⟩ := by simpa [hxz] using hx
      refine (h.shaped x t b hfn).congr ?_ fun c s' hc hs => ⟨s', ?_⟩
      · simp only [Memory.construct_get, if_neg (hlt x b (holds_buffer hfn))]
      · simp only [Memory.construct_get, if_neg (hlt x c ⟨t, b, hfn, .inr hc⟩)]
        exact hs

/-- **A lambda with a callable on the heap.** -/
theorem Owned.makeLambda (h : Owned w own) (hz : w.fns .lambda = none) (k : K) (s : S) :
    ∃ w' own', w.makeLambda k s = some w' ∧ Owned w' own' ∧
      w'.fns = Function.update w.fns .lambda (some ⟨some (.boxed k), w.mem.fresh + 1⟩) ∧
      (∀ c, c < w.mem.fresh → w'.mem.get c = w.mem.get c) ∧
      (w'.mem.get (w.mem.fresh + 1)).content = .pointer (some w.mem.fresh) ∧
      (w'.mem.get w.mem.fresh).content = .state s := by
  have hnone : ∀ t b, w.fns .lambda ≠ some ⟨some t, b⟩ := by simp [hz]
  have hlt : ∀ x c, w.Holds x c → c < w.mem.fresh := fun x c hc => (h.of_holds hc).1
  let m := ((w.mem.construct (.state s)).1.construct (.pointer (some w.mem.fresh))).1
  have hget : ∀ c, m.get c = if c = w.mem.fresh + 1 then ⟨.pointer (some w.mem.fresh), 0, 0⟩
      else if c = w.mem.fresh then ⟨.state s, 0, 0⟩ else w.mem.get c := by
    intro c
    simp only [m, Memory.construct_get, Memory.construct_fresh]
  have hold : ∀ c, c < w.mem.fresh → m.get c = w.mem.get c := by
    intro c hc
    rw [hget, if_neg (by omega), if_neg (by omega)]
  have hptr : (m.get (w.mem.fresh + 1)).content = .pointer (some w.mem.fresh) := by
    rw [hget, if_pos rfl]
  have hheap : (m.get w.mem.fresh).content = .state s := by
    rw [hget, if_neg (by omega), if_pos rfl]
  refine ⟨⟨m, Function.update w.fns .lambda (some ⟨some (.boxed k), w.mem.fresh + 1⟩)⟩,
    fun c => if c = w.mem.fresh ∨ c = w.mem.fresh + 1 then some .lambda else own c,
    ?_, ⟨?_, ?_, ?_, ?_⟩, rfl, hold, hptr, hheap⟩
  · simp only [World.makeLambda, hz]
    rfl
  · intro x c
    by_cases hxz : x = .lambda
    · subst hxz
      rw [holds_iff (b := w.mem.fresh + 1) (t := .boxed k) (by simp)]
      simp only [Owns, hptr, Content.pointer.injEq, Option.some.injEq]
      constructor
      · intro hc
        exact if_pos (by omega)
      · intro hc
        by_contra hno
        rw [if_neg (by omega)] at hc
        exact not_holds hnone ((h.holds _ c).mpr hc)
    · have hcongr : (⟨m, Function.update w.fns .lambda
          (some ⟨some (.boxed k), w.mem.fresh + 1⟩)⟩ : World K S).Holds x c ↔ w.Holds x c := by
        refine holds_congr (by simp [hxz]) fun t b hfn => ?_
        exact congrArg Instance.content (hold b (hlt x b (holds_buffer hfn)))
      rw [hcongr, h.holds]
      constructor
      · intro hc
        have hc' := hlt x c ((h.holds x c).mpr hc)
        rw [if_neg (by omega), hc]
      · intro hc
        split at hc
        · exact absurd (Option.some.inj hc).symm hxz
        · exact hc
  · intro c
    have hal := h.alive c
    have hfresh : m.fresh = w.mem.fresh + 2 := rfl
    simp only [hget, hfresh]
    by_cases hc₁ : c = w.mem.fresh + 1
    · simp [hc₁]
    · by_cases hc : c = w.mem.fresh
      · simp [hc]
      · simp only [hc, hc₁, or_self, if_false, hal]
        omega
  · intro c
    simp only [hget]
    split
    · simp
    · split
      · simp
      · exact h.once c
  · intro x t b hx
    by_cases hxz : x = .lambda
    · subst hxz
      obtain ⟨rfl, rfl⟩ : Vtbl.boxed k = t ∧ w.mem.fresh + 1 = b := by simpa using hx
      refine ⟨some w.mem.fresh, hptr, ?_⟩
      rintro c hc
      obtain rfl := Option.some.inj hc
      exact ⟨s, hheap⟩
    · have hfn : w.fns x = some ⟨some t, b⟩ := by simpa [hxz] using hx
      refine (h.shaped x t b hfn).congr ?_ fun c s' hc hs => ⟨s', ?_⟩
      · exact congrArg Instance.content (hold b (hlt x b (holds_buffer hfn)))
      · rw [hold c (hlt x c ⟨t, b, hfn, .inr hc⟩)]
        exact hs

/-- **A living callable is used**, and its state changes. -/
theorem Owned.use (h : Owned w own) (hc : w.Holds x c) {s s' : S}
    (hs : (w.mem.get c).content = .state s) :
    Owned { w with mem := w.mem.use c (.state s') } own := by
  have halive := (h.of_holds hc).2
  have hget : ∀ d, ((w.mem.use c (.state s')).get d) =
      if d = c then { w.mem.get c with content := .state s' } else w.mem.get d :=
    fun d => Memory.use_get halive
  have hptr : ∀ d p, ((w.mem.use c (.state s')).get d).content = .pointer p ↔
      (w.mem.get d).content = .pointer p := by
    intro d p
    rw [hget]
    split
    · rename_i hd
      rw [hd, hs]
      simp
    · rfl
  refine ⟨?_, ?_, ?_, ?_⟩
  · intro z d
    rw [← h.holds]
    constructor
    · rintro ⟨t, b, hz, ho⟩
      exact ⟨t, b, hz, by simpa only [Owns, hptr] using ho⟩
    · rintro ⟨t, b, hz, ho⟩
      exact ⟨t, b, hz, by simpa only [Owns, hptr] using ho⟩
  · intro d
    rw [h.alive, hget]
    split
    · rename_i hd
      rw [hd]
      rfl
    · rfl
  · intro d
    simp only [hget]
    split
    · exact h.once c
    · exact h.once d
  · intro z t b hz
    have hold := h.shaped z t b hz
    cases t with
    | inline k =>
      obtain ⟨s₀, hs₀⟩ := hold
      by_cases hb : b = c
      · exact ⟨s', by simp [hget, hb]⟩
      · exact ⟨s₀, by simpa [hget, hb] using hs₀⟩
    | boxed k =>
      obtain ⟨p, hp, hstate⟩ := hold
      refine ⟨p, (hptr b p).mpr hp, fun d hd => ?_⟩
      obtain ⟨s₀, hs₀⟩ := hstate d hd
      by_cases hdc : d = c
      · exact ⟨s', by simp [hget, hdc]⟩
      · exact ⟨s₀, by simpa [hget, hdc] using hs₀⟩

end World

end Functions

end PortableConcurrency
