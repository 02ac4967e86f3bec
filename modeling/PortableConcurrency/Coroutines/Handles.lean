import PortableConcurrency.Coroutines.Tables

/-!
# One handle for each coroutine

The handle of a coroutine is an address that nobody owns. That it is used
once for each suspension, and never after the frame is gone, is because
there is one of it: on the stack of a thread while the coroutine runs, in
the list of the state that it awaits while it is suspended. This is counted
here, over all threads and all lists.
-/

namespace PortableConcurrency

namespace Coroutines

variable {V E : Type*} {s s' : State V E} {e : Event V E} {acts acts' rest : List (Act V E)}
variable {c c' : Cell V E} {fr fr' : Frame V E} {a : Act V E} {r : Except E V}
variable {f g t u τ : ℕ} {p : At}

/-! ## Counting on the stacks -/

/-- What the activities of a thread weigh together. -/
def load (W : Act V E → ℕ) : List (Act V E) → ℕ
  | [] => 0
  | a :: acts => W a + load W acts

theorem le_load {W : Act V E → ℕ} (h : a ∈ acts) : W a ≤ load W acts := by
  induction acts with
  | nil => cases h
  | cons b acts ih =>
    rcases List.mem_cons.mp h with rfl | h
    · exact Nat.le_add_right _ _
    · have := ih h
      simp only [load]
      omega

namespace State

/-- What the activities of all threads weigh together. -/
def load (s : State V E) (W : Act V E → ℕ) : ℕ :=
  Table.total (fun _ acts => Coroutines.load W acts) s.threads s.workers

/-- The coroutine `f` is at `p`. -/
def isAt (s : State V E) (f : ℕ) (p : At) : ℕ :=
  (s.frames f).elim 0 fun fr => if fr.place = p then 1 else 0

/-- The handles of `f` in the list of the state that `p` says. -/
def listed (s : State V E) (f : ℕ) : At → ℕ
  | .suspended t => (s.cells t).elim 0 fun c => c.waiting.count f
  | _ => 0

end State

/-- The handles of `f` with a thread, for a coroutine at `p`. -/
def Act.handles (f : ℕ) (p : At) : Act V E → ℕ
  | .body g => if f = g ∧ .running = p then 1 else 0
  | .push g t => if f = g ∧ .suspended t = p then 1 else 0
  | .loop t items => if .suspended t = p then items.count f else 0
  | .finish g => if f = g ∧ .done = p then 1 else 0
  | .emplace _ _ => 0
  | .execute _ => 0

/-- What a change of one stack comes to. -/
theorem load_setThread (h : Tables s) (ht : s.threads τ = some acts) (acts' : List (Act V E))
    (W : Act V E → ℕ) :
    (s.setThread τ acts').load W + load W acts = s.load W + load W acts' :=
  Table.total_update (g := fun _ acts => load W acts) (h.threads τ acts ht) ht acts'

theorem load_le (h : Tables s) (ht : s.threads τ = some acts) (W : Act V E → ℕ) :
    load W acts ≤ s.load W :=
  Table.le_total (g := fun _ acts => load W acts) (h.threads τ acts ht) ht

/-! ## The handles of a coroutine -/

theorem isAt_of (hf : s.frames f = some fr) (p : At) :
    s.isAt f p = if fr.place = p then 1 else 0 := by
  simp only [State.isAt, hf, Option.elim_some]

theorem isAt_setFrame (s : State V E) (f : ℕ) (fr : Frame V E) (g : ℕ) (p : At) :
    (s.setFrame f (some fr)).isAt g p =
      if g = f then if fr.place = p then 1 else 0 else s.isAt g p := by
  by_cases hg : g = f
  · subst hg
    rw [if_pos rfl, isAt_of (s.setFrame_self g _)]
  · rw [if_neg hg, State.isAt, s.setFrame_other _ hg]
    rfl

theorem isAt_erase (s : State V E) (f g : ℕ) (p : At) :
    (s.setFrame f none).isAt g p = if g = f then 0 else s.isAt g p := by
  by_cases hg : g = f
  · subst hg
    rw [if_pos rfl, State.isAt, s.setFrame_self]
    rfl
  · rw [if_neg hg, State.isAt, s.setFrame_other _ hg]
    rfl

theorem isAt_spawn (s : State V E) (body : Body V E) (env : List (Local ℕ)) (g : ℕ) (p : At) :
    (s.spawn body env).isAt g p =
      if g = s.fresh then if At.running = p then 1 else 0 else s.isAt g p := by
  by_cases hg : g = s.fresh
  · subst hg
    rw [if_pos rfl, isAt_of (s.spawn_self body env)]
  · rw [if_neg hg, State.isAt, s.spawn_other _ _ hg]
    rfl

theorem listed_of (hc : s.cells t = some c) (g : ℕ) :
    s.listed g (.suspended t) = c.waiting.count g := by
  simp only [State.listed, hc, Option.elim_some]

theorem listed_setCell (s : State V E) (t : ℕ) (c : Cell V E) (g : ℕ) (p : At) :
    (s.setCell t c).listed g p =
      if .suspended t = p then c.waiting.count g else s.listed g p := by
  cases p with
  | suspended u =>
    by_cases hu : u = t
    · subst hu
      rw [if_pos rfl, listed_of (s.setCell_self u _)]
    · rw [if_neg (by simpa using Ne.symm hu), State.listed, s.setCell_other _ hu]
      rfl
  | _ => rfl

/-- A state that is made has nobody in its list. -/
theorem listed_newCell (h : Tables s) (hc : c.waiting = []) (g : ℕ) (p : At) :
    State.listed { s with
      cells := Function.update s.cells s.fresh (some c)
      fresh := s.fresh + 1 } g p = s.listed g p := by
  refine (listed_setCell s s.fresh c g p).trans ?_
  by_cases hp : .suspended s.fresh = p
  · subst hp
    rw [if_pos rfl, State.listed, h.none_cell, hc]
    rfl
  · rw [if_neg hp]

/-- **There is one handle for each coroutine**, and none for what was
destroyed. -/
def Counted (s : State V E) : Prop :=
  ∀ f p, s.load (Act.handles f p) + s.listed f p = s.isAt f p

theorem count_handle (g f : ℕ) (items : List ℕ) :
    (f :: items).count g = items.count g + if g = f then 1 else 0 := by
  by_cases hg : g = f
  · rw [hg, List.count_cons_self, if_pos rfl]
  · rw [List.count_cons_of_ne (Ne.symm hg), if_neg hg, Nat.add_zero]

/-- A coroutine that has a handle is there. -/
theorem Counted.exists_frame (h : Counted s) (hpos : 0 < s.load (Act.handles f p) + s.listed f p) :
    ∃ fr, s.frames f = some fr ∧ fr.place = p := by
  have hcount := h f p
  cases hf : s.frames f with
  | none =>
    simp only [State.isAt, hf, Option.elim_none] at hcount
    omega
  | some fr =>
    refine ⟨fr, rfl, ?_⟩
    by_contra hne
    rw [isAt_of hf, if_neg hne] at hcount
    omega

theorem Counted.at_of_top (h : Counted s) (htab : Tables s) (ht : s.threads τ = some (a :: rest))
    (ha : 0 < a.handles f p) : ∃ fr, s.frames f = some fr ∧ fr.place = p := by
  have hle := load_le htab ht (Act.handles f p)
  simp only [load] at hle
  exact h.exists_frame (by omega)

/-- **A coroutine moves**, and its handle with it. -/
theorem Counted.move (h : Counted s) (htab : Tables s) (hf : s.frames f = some fr)
    (ht : s.threads τ = some acts)
    (hmove : ∀ g p, load (Act.handles g p) acts' + (if g = f ∧ fr.place = p then 1 else 0) =
      load (Act.handles g p) acts + if g = f ∧ fr'.place = p then 1 else 0) :
    Counted ((s.setFrame f (some fr')).setThread τ acts') := by
  intro g p
  have hcount := h g p
  have hload := load_setThread htab ht acts' (Act.handles g p)
  have hbal := hmove g p
  show (s.setThread τ acts').load (Act.handles g p) + s.listed g p =
    (s.setFrame f (some fr')).isAt g p
  rw [isAt_setFrame]
  by_cases hg : g = f
  · subst hg
    rw [isAt_of hf] at hcount
    simp only [true_and, if_true] at hbal ⊢
    omega
  · simp only [hg, false_and, if_false] at hbal ⊢
    omega

theorem Counted.place_of_top (h : Counted s) (htab : Tables s)
    (ht : s.threads τ = some (a :: rest)) (hf : s.frames f = some fr) (ha : 0 < a.handles f p) :
    fr.place = p := by
  obtain ⟨fr', hf', hplace⟩ := h.at_of_top htab ht ha
  rw [hf] at hf'
  exact Option.some.inj hf' ▸ hplace

/-- A step of a thread that is not about a coroutine. -/
theorem Counted.setThread (h : Counted s) (htab : Tables s) (ht : s.threads τ = some acts)
    (hsame : ∀ g p, load (Act.handles g p) acts' = load (Act.handles g p) acts) :
    Counted (s.setThread τ acts') := by
  intro g p
  have hcount := h g p
  have hload := load_setThread htab ht acts' (Act.handles g p)
  have hbal := hsame g p
  show (s.setThread τ acts').load (Act.handles g p) + s.listed g p = s.isAt g p
  omega

/-- The list of a state changes, and the stack with it. -/
theorem Counted.setCell (h : Counted s) (htab : Tables s) (hc : s.cells t = some c)
    (ht : s.threads τ = some acts)
    (hmove : ∀ g p, load (Act.handles g p) acts' +
        (if .suspended t = p then c'.waiting.count g else 0) =
      load (Act.handles g p) acts + if .suspended t = p then c.waiting.count g else 0) :
    Counted ((s.setCell t c').setThread τ acts') := by
  intro g p
  have hcount := h g p
  have hload := load_setThread htab ht acts' (Act.handles g p)
  have hbal := hmove g p
  show (s.setThread τ acts').load (Act.handles g p) + (s.setCell t c').listed g p = s.isAt g p
  rw [listed_setCell]
  by_cases hp : .suspended t = p
  · subst hp
    rw [listed_of hc] at hcount
    simp only [if_true] at hbal ⊢
    omega
  · simp only [hp, if_false] at hbal ⊢
    omega

/-- The list of a state stays as it is. -/
theorem Counted.setResult (h : Counted s) (hc : s.cells t = some c)
    (hsame : c'.waiting = c.waiting) : Counted (s.setCell t c') := by
  intro g p
  have hcount := h g p
  show s.load (Act.handles g p) + (s.setCell t c').listed g p = s.isAt g p
  rw [listed_setCell]
  by_cases hp : .suspended t = p
  · subst hp
    rw [listed_of hc] at hcount
    rw [if_pos rfl, hsame]
    exact hcount
  · rw [if_neg hp]
    exact hcount

/-- A coroutine goes on. -/
theorem Counted.setFrame (h : Counted s) (hf : s.frames f = some fr)
    (hplace : fr'.place = fr.place) : Counted (s.setFrame f (some fr')) := by
  intro g p
  have hcount := h g p
  show s.load (Act.handles g p) + s.listed g p = (s.setFrame f (some fr')).isAt g p
  rw [isAt_setFrame]
  by_cases hg : g = f
  · subst hg
    rw [isAt_of hf] at hcount
    rw [if_pos rfl, hplace]
    exact hcount
  · rw [if_neg hg]
    exact hcount

/-- A coroutine is called. -/
theorem Counted.spawn (h : Counted s) (htab : Tables s) (ht : s.threads τ = some acts)
    (hnew : ∀ g p, load (Act.handles g p) acts' =
      load (Act.handles g p) acts + if g = s.fresh ∧ .running = p then 1 else 0)
    (body : Body V E) (env : List (Local ℕ)) :
    Counted ((s.spawn body env).setThread τ acts') := by
  intro g p
  have hcount := h g p
  have hload := load_setThread htab ht acts' (Act.handles g p)
  have hlisted := listed_newCell htab (c := ⟨none, [], false, false⟩) rfl g p
  have hbal := hnew g p
  show (s.setThread τ acts').load (Act.handles g p) +
    State.listed { s with
      cells := Function.update s.cells s.fresh (some ⟨none, [], false, false⟩)
      fresh := s.fresh + 1 } g p = (s.spawn body env).isAt g p
  rw [isAt_spawn, hlisted]
  by_cases hg : g = s.fresh
  · subst hg
    -- nothing has that address
    have hnone : s.isAt s.fresh p = 0 := by
      rw [State.isAt, htab.none_frame]
      rfl
    simp only [true_and, if_true] at hbal ⊢
    omega
  · simp only [hg, false_and, if_false] at hbal ⊢
    omega

/-- A frame is destroyed. -/
theorem Counted.erase (h : Counted s) (htab : Tables s) (hf : s.frames f = some fr)
    (ht : s.threads τ = some acts)
    (hgone : ∀ g p, load (Act.handles g p) acts' + (if g = f ∧ fr.place = p then 1 else 0) =
      load (Act.handles g p) acts) : Counted ((s.setFrame f none).setThread τ acts') := by
  intro g p
  have hcount := h g p
  have hload := load_setThread htab ht acts' (Act.handles g p)
  have hbal := hgone g p
  show (s.setThread τ acts').load (Act.handles g p) + s.listed g p =
    (s.setFrame f none).isAt g p
  rw [isAt_erase]
  by_cases hg : g = f
  · subst hg
    rw [isAt_of hf] at hcount
    simp only [true_and, if_true] at hbal ⊢
    omega
  · simp only [hg, false_and, if_false] at hbal ⊢
    omega

/-- **Every step keeps the count.** -/
theorem Counted.step (h : Counted s) (htab : Tables s) (hst : Step s e s') : Counted s' := by
  cases hst with
  | thread =>
    intro g p
    have hload := Table.total_push (fun _ acts => load (Act.handles (V := V) (E := E) g p) acts)
      s.threads s.workers []
    have hcount := h g p
    show Table.total _ _ _ + s.listed g p = s.isAt g p
    rw [hload]
    exact hcount
  | @promise share =>
    intro g p
    have hcount := h g p
    have hlisted := listed_newCell htab (c := ⟨none, [], false, true⟩) rfl g p
    show s.load (Act.handles g p) + _ = s.isAt g p
    exact hlisted ▸ hcount
  | @call τ body args share hidle =>
    refine h.spawn htab hidle (fun g p => ?_) body (argsOf args s.futures)
    simp [load, Act.handles]
  | set hidle hc =>
    exact h.setCell htab hc hidle fun g p => by simp [load, Act.handles]
  | setExpired hidle hc =>
    exact h.setResult hc rfl
  | drop => exact h
  | @ret τ f fr r rest ht hf =>
    have hplace := h.place_of_top htab ht hf (p := .running) (by simp [Act.handles])
    refine h.move htab hf ht fun g p => ?_
    simp only [load, Act.handles, hplace, unwind_place]
    omega
  | @retExpired τ f fr r rest ht hf =>
    have hplace := h.place_of_top htab ht hf (p := .running) (by simp [Act.handles])
    refine h.move htab hf ht fun g p => ?_
    simp only [load, Act.handles, hplace, unwind_place]
    omega
  | @start τ f fr rest callee next args share ht hf hbody =>
    have hne : f ≠ s.fresh := by
      have := htab.frames f fr hf
      omega
    have hspawn : Counted ((s.spawn callee (argsOf args fr.env)).setThread τ
        (.body s.fresh :: .body f :: rest)) := by
      refine h.spawn htab ht (fun g p => ?_) callee (argsOf args fr.env)
      simp only [load, Act.handles]
      omega
    exact hspawn.setFrame (show (s.spawn callee (argsOf args fr.env)).frames f = some fr by
      rw [s.spawn_other _ _ hne, hf]) rfl
  | @await τ f t fr c r rest ht hf haw =>
    have hplace := h.place_of_top htab ht hf (p := .running) (by simp [Act.handles])
    exact h.setFrame hf ((resume_place haw).trans hplace.symm)
  | @suspend τ f t fr c rest ht hf =>
    have hplace := h.place_of_top htab ht hf (p := .running) (by simp [Act.handles])
    refine h.move htab hf ht fun g p => ?_
    simp only [load, Act.handles, hplace]
    omega
  | @push τ f t c rest ht hc =>
    refine h.setCell htab hc ht fun g p => ?_
    simp only [load, Act.handles]
    by_cases hp : .suspended t = p
    · simp only [hp, and_true, if_true, count_handle]
      omega
    · simp only [hp, and_false, if_false]
      omega
  | @refuse τ f t fr c r rest ht hf haw =>
    have hplace := h.place_of_top htab ht hf (p := .suspended t) (by simp [Act.handles])
    refine h.move htab hf ht fun g p => ?_
    simp only [load, Act.handles, hplace, resume_place haw]
    omega
  | emplace ht hc =>
    refine h.setCell htab hc ht fun g p => ?_
    simp only [load, Act.handles]
  | @execute τ t c rest ht hc =>
    refine h.setCell htab hc ht fun g p => ?_
    simp only [load, Act.handles, List.count_nil, ite_self]
    omega
  | @resume τ f t u fr c r items rest ht hf haw =>
    have hplace := h.place_of_top htab ht hf (p := .suspended t) (by simp [Act.handles])
    refine h.move htab hf ht fun g p => ?_
    simp only [load, Act.handles, hplace, resume_place haw]
    by_cases hp : .suspended t = p
    · simp only [hp, and_true, if_true, count_handle]
      omega
    · simp only [hp, and_false, if_false]
      omega
  | exit ht =>
    refine h.setThread htab ht fun g p => ?_
    simp only [load, Act.handles, List.count_nil, ite_self, Nat.zero_add]
  | @finish τ f rest ht =>
    obtain ⟨fr, hf, hplace⟩ := h.at_of_top htab ht (f := f) (p := .done) (by simp [Act.handles])
    refine h.erase htab hf ht fun g p => ?_
    simp only [load, Act.handles, hplace]
    omega

end Coroutines

end PortableConcurrency
