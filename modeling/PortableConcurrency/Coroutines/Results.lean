import PortableConcurrency.Coroutines.Handles

/-!
# Who sets a result

A state has one promise: in the frame of its coroutine until that returns,
or outside. So its result is set once, and its list is consumed once and
is empty afterwards. What is awaited is held by the one who awaits it, and
what is held has a promise or a result.
-/

namespace PortableConcurrency

namespace Coroutines

variable {V E : Type*} {s s' : State V E} {e : Event V E} {acts acts' rest : List (Act V E)}
variable {c c' : Cell V E} {fr fr' : Frame V E} {a : Act V E} {r : Except E V}
variable {f g t u τ υ : ℕ} {p : At} {items : List ℕ} {φ : Cell V E → ℕ} {ψ : Frame V E → ℕ}

/-! ## Suspended coroutines and lists -/

theorem frame_cases {x : Option (Frame V E)} (h : (s.setFrame f x).frames g = some fr) :
    (g = f ∧ x = some fr) ∨ (g ≠ f ∧ s.frames g = some fr) := by
  by_cases hg : g = f
  · subst hg
    exact .inl ⟨rfl, (s.setFrame_self g x).symm.trans h⟩
  · exact .inr ⟨hg, (s.setFrame_other x hg).symm.trans h⟩

theorem spawn_cases {body : Body V E} {env : List (Local ℕ)}
    (h : (s.spawn body env).frames g = some fr) :
    (g = s.fresh ∧ fr = ⟨body, env, env.length, .running⟩) ∨
      (g ≠ s.fresh ∧ s.frames g = some fr) := by
  by_cases hg : g = s.fresh
  · subst hg
    rw [s.spawn_self] at h
    exact .inl ⟨rfl, (Option.some.inj h).symm⟩
  · exact .inr ⟨hg, (s.spawn_other body env hg).symm.trans h⟩

theorem cell_cases (h : (s.setCell t c).cells u = some c') :
    (u = t ∧ c' = c) ∨ (u ≠ t ∧ s.cells u = some c') := by
  by_cases hu : u = t
  · subst hu
    rw [s.setCell_self] at h
    exact .inl ⟨rfl, (Option.some.inj h).symm⟩
  · exact .inr ⟨hu, (s.setCell_other c hu).symm.trans h⟩

/-- What a suspended coroutine awaits is what its handle is in the list
of. -/
def Awaiting (s : State V E) : Prop :=
  ∀ f fr t, s.frames f = some fr → fr.place = .suspended t → fr.awaited = some t

/-- A frame that does not wait is written. -/
theorem Awaiting.setFrame (h : Awaiting s) (hfr : ∀ t, fr.place = .suspended t → fr.awaited = some t) :
    Awaiting (s.setFrame f (some fr)) := by
  intro g fr' t hg hplace
  rcases frame_cases hg with ⟨-, hx⟩ | ⟨-, hg⟩
  · obtain rfl := Option.some.inj hx
    exact hfr t hplace
  · exact h g fr' t hg hplace

/-- A new coroutine awaits nothing. -/
theorem Awaiting.spawn (h : Awaiting s) (body : Body V E) (env : List (Local ℕ)) :
    Awaiting (s.spawn body env) := by
  intro g fr' t hg hplace
  rcases spawn_cases hg with ⟨-, rfl⟩ | ⟨-, hg⟩
  · cases hplace
  · exact h g fr' t hg hplace

/-- **The step lemma.** -/
theorem Awaiting.step (h : Awaiting s) (hcount : Counted s) (htab : Tables s)
    (hst : Step s e s') : Awaiting s' := by
  cases hst with
  | call => exact h.spawn _ _
  | ret | retExpired =>
    refine h.setFrame fun t ht => ?_
    rw [unwind_place] at ht
    cases ht
  | @start τ f fr rest callee next args share ht hf =>
    have hplace := hcount.place_of_top htab ht hf (p := .running) (by simp [Act.handles])
    refine Awaiting.setFrame (h.spawn _ _) fun t hsusp => ?_
    rw [hplace] at hsusp
    cases hsusp
  | await _ _ haw | refuse _ _ haw | resume _ _ haw =>
    refine h.setFrame fun t ht => ?_
    rw [resume_place haw] at ht
    cases ht
  | suspend _ _ haw =>
    refine h.setFrame fun u hu => ?_
    cases hu
    exact haw
  | finish =>
    intro g fr' t hg hplace
    rcases frame_cases hg with ⟨-, hx⟩ | ⟨-, hg⟩
    · cases hx
    · exact h g fr' t hg hplace
  | _ => exact h

/-- A list that was consumed stays empty. -/
def Emptied (s : State V E) : Prop :=
  ∀ t c, s.cells t = some c → c.ready = true → c.waiting = []

theorem Emptied.setCell (h : Emptied s) (hc : c.ready = true → c.waiting = []) :
    Emptied (s.setCell t c) := by
  intro u c' hu hready
  rcases cell_cases hu with ⟨-, rfl⟩ | ⟨-, hu⟩
  · exact hc hready
  · exact h u c' hu hready

/-- **The step lemma.** -/
theorem Emptied.step (h : Emptied s) (hst : Step s e s') : Emptied s' := by
  cases hst with
  | promise | call | start => exact h.setCell (t := s.fresh) (fun hready => by cases hready)
  | set _ hc | setExpired _ hc | emplace _ hc =>
    have hempty := h _ _ hc
    exact h.setCell hempty
  | push _ _ hready => exact h.setCell fun hr => absurd hr (by simp [hready])
  | execute => exact h.setCell fun _ => rfl
  | _ => exact h

/-! ## Counting states and frames -/

namespace State

/-- What a state is counted for. -/
def ofCell (s : State V E) (φ : Cell V E → ℕ) (t : ℕ) : ℕ := (s.cells t).elim 0 φ

/-- What a frame is counted for. -/
def ofFrame (s : State V E) (ψ : Frame V E → ℕ) (f : ℕ) : ℕ := (s.frames f).elim 0 ψ

end State

theorem ofCell_of (hc : s.cells t = some c) (φ : Cell V E → ℕ) : s.ofCell φ t = φ c := by
  rw [State.ofCell, hc, Option.elim_some]

theorem ofFrame_of (hf : s.frames f = some fr) (ψ : Frame V E → ℕ) : s.ofFrame ψ f = ψ fr := by
  rw [State.ofFrame, hf, Option.elim_some]

/-- What is counted of a state, after it has changed. -/
theorem ofCell_setCell (s : State V E) (φ : Cell V E → ℕ) (t : ℕ) (c : Cell V E) (u : ℕ) :
    (s.setCell t c).ofCell φ u = if u = t then φ c else s.ofCell φ u := by
  by_cases hu : u = t
  · subst hu
    rw [if_pos rfl, ofCell_of (s.setCell_self u c)]
  · rw [if_neg hu, State.ofCell, s.setCell_other c hu]
    rfl

/-- What is counted of a frame, after it has changed. -/
theorem ofFrame_setFrame (s : State V E) (ψ : Frame V E → ℕ) (f : ℕ) (x : Option (Frame V E))
    (g : ℕ) : (s.setFrame f x).ofFrame ψ g = if g = f then x.elim 0 ψ else s.ofFrame ψ g := by
  by_cases hg : g = f
  · subst hg
    rw [if_pos rfl, State.ofFrame, s.setFrame_self]
  · rw [if_neg hg, State.ofFrame, s.setFrame_other x hg]
    rfl

/-- What is counted of a frame, after a call. -/
theorem ofFrame_spawn (s : State V E) (ψ : Frame V E → ℕ) (body : Body V E)
    (env : List (Local ℕ)) (g : ℕ) : (s.spawn body env).ofFrame ψ g =
      if g = s.fresh then ψ ⟨body, env, env.length, .running⟩ else s.ofFrame ψ g := by
  by_cases hg : g = s.fresh
  · subst hg
    rw [if_pos rfl, ofFrame_of (s.spawn_self body env)]
  · rw [if_neg hg, State.ofFrame, s.spawn_other body env hg]
    rfl

/-! ## The promise and the result -/

/-- One if there is a result. -/
def Cell.stored (c : Cell V E) : ℕ := if c.result.isSome then 1 else 0

/-- One if the list has been consumed. -/
def Cell.consumed (c : Cell V E) : ℕ := if c.ready then 1 else 0

/-- One if there is a promise. -/
def Cell.pledges (c : Cell V E) : ℕ := if c.pledged then 1 else 0

/-- A coroutine that has not returned has the promise of its state. -/
def Frame.works (fr : Frame V E) : ℕ := if fr.place = .done then 0 else 1

/-- A thread has the result of `t`. -/
def Act.sets (t : ℕ) : Act V E → ℕ
  | .emplace u _ => if t = u then 1 else 0
  | _ => 0

/-- It has stored it. -/
def Act.executes (t : ℕ) : Act V E → ℕ
  | .execute u => if t = u then 1 else 0
  | _ => 0

/-- The promise of `t`, or its result. -/
def State.opens (s : State V E) (t : ℕ) : ℕ :=
  s.load (Act.sets t) + s.ofCell Cell.pledges t + s.ofFrame Frame.works t + s.ofCell Cell.stored t

/-- **A result is stored before the list is consumed**, which somebody has
still to do. -/
def Stored (s : State V E) : Prop :=
  ∀ t, s.load (Act.executes t) + s.ofCell Cell.consumed t = s.ofCell Cell.stored t

/-- A thread may go on as long as it goes on executing the same lists. -/
theorem Stored.setThread (h : Stored s) (htab : Tables s) (ht : s.threads τ = some acts)
    (hsame : ∀ t, load (Act.executes t) acts' = load (Act.executes t) acts) :
    Stored (s.setThread τ acts') := by
  intro t
  have hstored := h t
  have hload := load_setThread htab ht acts' (Act.executes t)
  have hbal := hsame t
  show (s.setThread τ acts').load (Act.executes t) + s.ofCell Cell.consumed t =
    s.ofCell Cell.stored t
  omega

/-- A state may change its result and its list together. -/
theorem Stored.setCell (h : Stored s) (hc : s.cells t = some c)
    (hsame : c'.stored + c.consumed = c.stored + c'.consumed) : Stored (s.setCell t c') := by
  intro u
  have hstored := h u
  show s.load (Act.executes u) + (s.setCell t c').ofCell Cell.consumed u =
    (s.setCell t c').ofCell Cell.stored u
  rw [ofCell_setCell, ofCell_setCell]
  by_cases hu : u = t
  · subst hu
    rw [ofCell_of hc, ofCell_of hc] at hstored
    simp only [if_true]
    omega
  · simp only [hu, if_false]
    exact hstored

theorem Stored.newCell (h : Stored s) (htab : Tables s) (hc : c.consumed = c.stored) :
    Stored { s with
      cells := Function.update s.cells s.fresh (some c)
      fresh := s.fresh + 1 } := by
  intro u
  have hstored := h u
  show s.load (Act.executes u) + (s.setCell s.fresh c).ofCell Cell.consumed u =
    (s.setCell s.fresh c).ofCell Cell.stored u
  rw [ofCell_setCell, ofCell_setCell]
  by_cases hu : u = s.fresh
  · subst hu
    rw [State.ofCell, State.ofCell, htab.none_cell] at hstored
    simp only [Option.elim_none, if_true] at hstored ⊢
    omega
  · simp only [hu, if_false]
    exact hstored

/-- **The step lemma.** -/
theorem Stored.step (h : Stored s) (htab : Tables s) (hst : Step s e s') : Stored s' := by
  cases hst with
  | thread =>
    intro t
    have hload := Table.total_push (fun _ acts => load (Act.executes (V := V) (E := E) t) acts)
      s.threads s.workers []
    have hstored := h t
    show Table.total _ _ _ + s.ofCell Cell.consumed t = s.ofCell Cell.stored t
    rw [hload]
    exact hstored
  | promise => exact h.newCell htab rfl
  | call hidle =>
    refine (h.newCell htab (c := ⟨none, [], false, false⟩) rfl).setThread (htab.newCell _) hidle
      fun t => ?_
    simp only [load, Act.executes]
  | @set τ t r c hidle hc =>
    have hcell : Stored (s.setCell t { c with pledged := false }) := h.setCell hc rfl
    refine hcell.setThread (htab.setCell hc _) hidle fun t => ?_
    simp only [load, Act.executes]
  | setExpired hidle hc => exact h.setCell hc rfl
  | drop => exact h
  | ret ht | retExpired ht =>
    refine h.setThread htab ht fun t => ?_
    simp only [load, Act.executes, Nat.zero_add]
  | start ht hf =>
    refine (h.newCell htab (c := ⟨none, [], false, false⟩) rfl).setThread (htab.newCell _) ht
      fun t => ?_
    simp only [load, Act.executes, Nat.zero_add]
  | await => exact h
  | suspend ht | refuse ht | resume ht | exit ht | finish ht =>
    refine h.setThread htab ht fun t => ?_
    simp only [load, Act.executes, Nat.zero_add]
  | @push τ f t c rest ht hc =>
    have hcell : Stored (s.setCell t { c with waiting := f :: c.waiting }) := h.setCell hc rfl
    refine hcell.setThread (htab.setCell hc _) ht fun t => ?_
    simp only [load, Act.executes, Nat.zero_add]
  | @emplace τ t c r rest ht hc hempty =>
    intro u
    have hstored := h u
    have hload := load_setThread htab ht (.execute t :: rest) (Act.executes u)
    simp only [load, Act.executes] at hload
    show (s.setThread τ (.execute t :: rest)).load (Act.executes u) +
      (s.setCell t { c with result := some r }).ofCell Cell.consumed u =
        (s.setCell t { c with result := some r }).ofCell Cell.stored u
    rw [ofCell_setCell, ofCell_setCell]
    by_cases hu : u = t
    · subst hu
      rw [ofCell_of hc, ofCell_of hc] at hstored
      simp only [Cell.stored, Cell.consumed, hempty, Option.isSome_some, Option.isSome_none,
        if_true] at hstored hload ⊢
      simp only [Bool.false_eq_true, if_false] at hstored
      omega
    · simp only [hu, if_false] at hload ⊢
      omega
  | @execute τ t c rest ht hc =>
    intro u
    have hstored := h u
    have hle := load_le htab ht (Act.executes u)
    have hload := load_setThread htab ht (.loop t c.waiting :: rest) (Act.executes u)
    simp only [load, Act.executes] at hload hle
    show (s.setThread τ (.loop t c.waiting :: rest)).load (Act.executes u) +
      (s.setCell t { c with waiting := [], ready := true }).ofCell Cell.consumed u =
        (s.setCell t { c with waiting := [], ready := true }).ofCell Cell.stored u
    rw [ofCell_setCell, ofCell_setCell]
    by_cases hu : u = t
    · subst hu
      rw [ofCell_of hc, ofCell_of hc] at hstored
      have hone : c.stored ≤ 1 := by
        unfold Cell.stored
        split <;> omega
      simp only [Cell.consumed, if_true] at hstored hload hle ⊢
      show _ = c.stored
      omega
    · simp only [hu, if_false] at hload ⊢
      omega

/-! ## What is held -/

theorem held_setFrame (h : (s.setFrame f (some fr)).Held t) (hfr : Holds fr.env t → s.Held t) :
    s.Held t := by
  rcases h with h | ⟨g, fr', hg, hholds⟩
  · exact .inl h
  · rcases frame_cases hg with ⟨-, hx⟩ | ⟨-, hg⟩
    · obtain rfl := Option.some.inj hx
      exact hfr hholds
    · exact .inr ⟨g, fr', hg, hholds⟩

/-- A new frame holds what its arguments do. -/
theorem held_spawn {body : Body V E} {env : List (Local ℕ)} (h : (s.spawn body env).Held t)
    (henv : Holds env t → s.Held t) : s.Held t := by
  rcases h with h | ⟨g, fr', hg, hholds⟩
  · exact .inl h
  · rcases spawn_cases hg with ⟨-, rfl⟩ | ⟨-, hg⟩
    · exact henv hholds
    · exact .inr ⟨g, fr', hg, hholds⟩

/-- The new variable of a call. -/
theorem holds_new {share : Bool} {env : List (Local ℕ)} (hne : t ≠ u)
    (h : Holds (.new u share :: env) t) : Holds env t := by
  obtain ⟨l, hl, rfl, hkind⟩ := h
  rcases List.mem_cons.mp hl with rfl | hl
  · exact absurd rfl hne
  · exact ⟨l, hl, rfl, hkind⟩

/-- **Nobody gets hold of a state again** that nobody holds. -/
theorem held_step (hst : Step s e s') (hne : t ≠ s.fresh) (h : s'.Held t) : s.Held t := by
  cases hst with
  | promise =>
    rcases h with h | h
    · exact .inl (holds_new hne h)
    · exact .inr h
  | call =>
    have hspawn : ∀ {body : Body V E} {args : List ℕ},
        (s.spawn body (argsOf args s.futures)).Held t → s.Held t :=
      fun h => held_spawn h fun hargs => .inl (holds_argsOf hargs)
    rcases h with h | h
    · exact .inl (holds_afterArgs (holds_new hne h))
    · exact hspawn (.inr h)
  | drop =>
    rcases h with ⟨l, hl, hx⟩ | h
    · exact .inl ⟨l, List.mem_of_mem_eraseIdx hl, hx⟩
    · exact .inr h
  | ret _ hf | retExpired _ hf =>
    exact held_setFrame h fun hholds => .inr ⟨_, _, hf, holds_unwind hholds⟩
  | start _ hf =>
    rcases h with h | ⟨g, fr', hg, hholds⟩
    · exact .inl h
    · rcases frame_cases hg with ⟨-, hx⟩ | ⟨-, hg⟩
      · obtain rfl := Option.some.inj hx
        exact .inr ⟨_, _, hf, holds_afterArgs (holds_new hne hholds)⟩
      · rcases spawn_cases hg with ⟨-, rfl⟩ | ⟨-, hg⟩
        · exact .inr ⟨_, _, hf, holds_argsOf hholds⟩
        · exact .inr ⟨g, fr', hg, hholds⟩
  | await _ hf | refuse _ hf | resume _ hf =>
    exact held_setFrame h fun hholds => .inr ⟨_, _, hf, holds_resume hholds⟩
  | suspend _ hf => exact held_setFrame h fun hholds => .inr ⟨_, _, hf, hholds⟩
  | finish =>
    rcases h with h | ⟨g, fr', hg, hholds⟩
    · exact .inl h
    · rcases frame_cases hg with ⟨-, hx⟩ | ⟨-, hg⟩
      · cases hx
      · exact .inr ⟨g, fr', hg, hholds⟩
  | _ => exact h

/-! ## One promise -/

/-- What can still set a state, after a thread has gone on. -/
theorem opens_setThread (hlt : τ < s.workers) (ht : s.threads τ = some acts)
    (acts' : List (Act V E)) (t : ℕ) :
    (s.setThread τ acts').opens t + load (Act.sets t) acts =
      s.opens t + load (Act.sets t) acts' := by
  have hload : (s.setThread τ acts').load (Act.sets t) + load (Act.sets t) acts =
      s.load (Act.sets t) + load (Act.sets t) acts' :=
    Table.total_update (g := fun _ acts => load (Act.sets t) acts) hlt ht acts'
  show (s.setThread τ acts').load (Act.sets t) + s.ofCell Cell.pledges t +
    s.ofFrame Frame.works t + s.ofCell Cell.stored t + _ = _
  simp only [State.opens]
  omega

/-- The same, after a state has changed. -/
theorem opens_setCell (hc : s.cells u = some c) (c' : Cell V E) (t : ℕ) :
    (s.setCell u c').opens t + (if t = u then c.pledges + c.stored else 0) =
      s.opens t + if t = u then c'.pledges + c'.stored else 0 := by
  show s.load (Act.sets t) + (s.setCell u c').ofCell Cell.pledges t + s.ofFrame Frame.works t +
    (s.setCell u c').ofCell Cell.stored t + _ = _
  rw [ofCell_setCell, ofCell_setCell, State.opens]
  by_cases htu : t = u
  · subst htu
    rw [ofCell_of hc, ofCell_of hc]
    simp only [if_true]
    omega
  · simp only [htu, if_false]

/-- The same, after a frame has changed. -/
theorem opens_setFrame (hf : s.frames f = some fr) (x : Option (Frame V E)) (t : ℕ) :
    (s.setFrame f x).opens t + (if t = f then fr.works else 0) =
      s.opens t + if t = f then x.elim 0 Frame.works else 0 := by
  show s.load (Act.sets t) + s.ofCell Cell.pledges t + (s.setFrame f x).ofFrame Frame.works t +
    s.ofCell Cell.stored t + _ = _
  rw [ofFrame_setFrame, State.opens]
  by_cases htf : t = f
  · subst htf
    rw [ofFrame_of hf]
    simp only [if_true]
    omega
  · simp only [htf, if_false]

/-- A new state has its promise outside. -/
theorem opens_newCell (htab : Tables s) (c : Cell V E) (t : ℕ) :
    State.opens { s with
      cells := Function.update s.cells s.fresh (some c)
      fresh := s.fresh + 1 } t =
        s.opens t + if t = s.fresh then c.pledges + c.stored else 0 := by
  show s.load (Act.sets t) + (s.setCell s.fresh c).ofCell Cell.pledges t +
    s.ofFrame Frame.works t + (s.setCell s.fresh c).ofCell Cell.stored t = _
  rw [ofCell_setCell, ofCell_setCell, State.opens]
  by_cases ht : t = s.fresh
  · subst ht
    have hnone : ∀ φ : Cell V E → ℕ, s.ofCell φ s.fresh = 0 := by
      intro φ
      rw [State.ofCell, htab.none_cell]
      rfl
    simp only [if_true, hnone]
    omega
  · simp only [ht, if_false]
    omega

/-- Or in its frame. -/
theorem opens_spawn (htab : Tables s) (body : Body V E) (env : List (Local ℕ)) (t : ℕ) :
    (s.spawn body env).opens t = s.opens t + if t = s.fresh then 1 else 0 := by
  have hcell := opens_newCell htab ⟨none, [], false, false⟩ t
  have hpledge : Cell.pledges (⟨none, [], false, false⟩ : Cell V E) +
      Cell.stored (⟨none, [], false, false⟩ : Cell V E) = 0 := rfl
  have hframe := ofFrame_spawn s Frame.works body env t
  have hwork : Frame.works (⟨body, env, env.length, .running⟩ : Frame V E) = 1 := rfl
  have hnone : s.ofFrame Frame.works s.fresh = 0 := by
    rw [State.ofFrame, htab.none_frame]
    rfl
  rw [hpledge, ite_self, Nat.add_zero] at hcell
  have hsplit : (s.spawn body env).opens t + s.ofFrame Frame.works t =
      State.opens { s with
        cells := Function.update s.cells s.fresh (some ⟨none, [], false, false⟩)
        fresh := s.fresh + 1 } t + (s.spawn body env).ofFrame Frame.works t := by
    show s.load (Act.sets t) + (s.setCell s.fresh _).ofCell Cell.pledges t +
      (s.spawn body env).ofFrame Frame.works t + (s.setCell s.fresh _).ofCell Cell.stored t + _ =
        s.load (Act.sets t) + (s.setCell s.fresh _).ofCell Cell.pledges t +
          s.ofFrame Frame.works t + (s.setCell s.fresh _).ofCell Cell.stored t + _
    omega
  rw [hframe, hwork] at hsplit
  by_cases ht : t = s.fresh
  · subst ht
    simp only [if_true] at hsplit ⊢
    omega
  · simp only [ht, if_false] at hsplit ⊢
    omega

/-- A thread that has no result. -/
theorem opens_goes_on (hlt : τ < s.workers) (ht : s.threads τ = some acts)
    (hsame : load (Act.sets t) acts' = load (Act.sets t) acts) :
    (s.setThread τ acts').opens t = s.opens t := by
  have hthread := opens_setThread hlt ht acts' t
  omega

/-- A coroutine that still works. -/
theorem opens_works (hf : s.frames f = some fr) (fr' : Frame V E) (hsame : fr'.works = fr.works)
    (t : ℕ) :
    (s.setFrame f (some fr')).opens t = s.opens t := by
  have hframe := opens_setFrame hf (some fr') t
  rw [Option.elim_some, hsame] at hframe
  omega

theorem opens_same {n n' m : ℕ} (h : n' = n) :
    (t = m ∧ m < m ∧ n' = n + 1) ∨ (¬ (t = m ∧ m < m) ∧ n' = n) ∨ (n' + 1 = n ∧ ¬ s'.Held t) :=
  .inr (.inl ⟨fun hfresh => Nat.lt_irrefl _ hfresh.2, h⟩)

theorem opens_fresh {n n' : ℕ} (h : n' = n + if t = s.fresh then 1 else 0) :
    (t = s.fresh ∧ s.fresh < s.fresh + 1 ∧ n' = n + 1) ∨
      (¬ (t = s.fresh ∧ s.fresh < s.fresh + 1) ∧ n' = n) ∨ (n' + 1 = n ∧ ¬ s'.Held t) := by
  split at h
  · exact .inl ⟨‹_›, Nat.lt_succ_self _, h⟩
  · exact .inr (.inl ⟨fun hfresh => absurd hfresh.1 ‹_›, h⟩)

/-- A coroutine that goes on has not returned. -/
theorem works_of_top (hcount : Counted s) (htab : Tables s) (ht : s.threads τ = some (a :: rest))
    (hf : s.frames f = some fr) (ha : a = .body f ∨ ∃ t, 0 < a.handles f (.suspended t)) :
    fr.works = 1 := by
  have hplace : fr.place ≠ .done := by
    rcases ha with rfl | ⟨t, ha⟩
    · rw [hcount.place_of_top htab ht hf (p := .running) (by simp [Act.handles])]
      simp
    · rw [hcount.place_of_top htab ht hf ha]
      simp
  rw [Frame.works, if_neg hplace]

theorem works_resume (haw : fr.awaited = some u) (r : Except E V) : (fr.resume r).works = 1 := by
  rw [Frame.works, resume_place haw]
  rfl

/-- **What becomes of the promise of `t`**: nothing, if its result is not
thrown away. -/
theorem opens_step (hcount : Counted s) (htab : Tables s) (hst : Step s e s') (t : ℕ) :
    (t = s.fresh ∧ s.fresh < s'.fresh ∧ s'.opens t = s.opens t + 1) ∨
      (¬ (t = s.fresh ∧ s.fresh < s'.fresh) ∧ s'.opens t = s.opens t) ∨
        (s'.opens t + 1 = s.opens t ∧ ¬ s'.Held t) := by
  cases hst with
  | thread =>
    refine .inr (.inl ⟨by simp, ?_⟩)
    have hload := Table.total_push (fun _ acts => load (Act.sets (V := V) (E := E) t) acts)
      s.threads s.workers []
    show Table.total _ _ _ + s.ofCell Cell.pledges t + s.ofFrame Frame.works t +
      s.ofCell Cell.stored t = s.opens t
    rw [hload]
    rfl
  | @promise share =>
    have hnew : State.opens { s with
        cells := Function.update s.cells s.fresh (some ⟨none, [], false, true⟩)
        futures := .new s.fresh share :: s.futures
        fresh := s.fresh + 1 } t = s.opens t + if t = s.fresh then 1 else 0 :=
      opens_newCell htab ⟨none, [], false, true⟩ t
    exact opens_fresh hnew
  | @call τ body args share hidle =>
    have hspawn := opens_spawn htab body (argsOf args s.futures) t
    have hthread := opens_setThread (s := s.spawn body (argsOf args s.futures))
      (htab.threads _ _ hidle) hidle [.body s.fresh] t
    simp only [load, Act.sets, Nat.add_zero] at hthread
    exact opens_fresh (hthread.trans hspawn)
  | @set τ u r c hidle hc hpledged =>
    have hcell := opens_setCell hc { c with pledged := false } t
    have hthread := opens_setThread (s := s.setCell u { c with pledged := false })
      (htab.threads _ _ hidle) hidle [.emplace u r] t
    have hold : c.pledges = 1 := by rw [Cell.pledges, hpledged, if_pos rfl]
    have hnew : Cell.pledges { c with pledged := false } = 0 := rfl
    have hsame : Cell.stored { c with pledged := false } = c.stored := rfl
    simp only [load, Act.sets, hold, hnew, hsame] at hthread hcell
    refine opens_same ?_
    split at hcell
    · rw [if_pos ‹_›] at hthread
      omega
    · rw [if_neg ‹_›] at hthread
      omega
  | @setExpired τ u r c hidle hc hpledged hheld =>
    have hcell := opens_setCell hc { c with pledged := false } t
    have hold : c.pledges = 1 := by rw [Cell.pledges, hpledged, if_pos rfl]
    have hnew : Cell.pledges { c with pledged := false } = 0 := rfl
    have hsame : Cell.stored { c with pledged := false } = c.stored := rfl
    simp only [hold, hnew, hsame] at hcell
    split at hcell
    · subst t
      exact .inr (.inr ⟨by omega, hheld⟩)
    · exact opens_same (by omega)
  | drop => exact opens_same rfl
  | @ret τ f fr r rest ht hf hbody hheld =>
    have hwork := works_of_top hcount htab ht hf (.inl rfl)
    have hframe := opens_setFrame hf (some (fr.unwind r)) t
    have hthread := opens_setThread (s := s.setFrame f (some (fr.unwind r)))
      (htab.threads _ _ ht) ht (.emplace f r :: .finish f :: rest) t
    have hdone : (fr.unwind r).works = 0 := by rw [Frame.works, unwind_place, if_pos rfl]
    simp only [load, Act.sets, Option.elim_some, hwork, hdone] at hthread hframe
    refine opens_same ?_
    split at hframe
    · rw [if_pos ‹_›] at hthread
      omega
    · rw [if_neg ‹_›] at hthread
      omega
  | @retExpired τ f fr r rest ht hf hbody hheld =>
    have hwork := works_of_top hcount htab ht hf (.inl rfl)
    have hframe := opens_setFrame hf (some (fr.unwind r)) t
    have hthread := opens_setThread (s := s.setFrame f (some (fr.unwind r)))
      (htab.threads _ _ ht) ht (.finish f :: rest) t
    have hdone : (fr.unwind r).works = 0 := by rw [Frame.works, unwind_place, if_pos rfl]
    simp only [load, Act.sets, Option.elim_some, hwork, hdone] at hthread hframe
    split at hframe
    · subst t
      exact .inr (.inr ⟨by omega, hheld⟩)
    · exact opens_same (by omega)
  | @start τ f fr rest callee next args share ht hf hbody =>
    have hne : f ≠ s.fresh := by
      have := htab.frames f fr hf
      omega
    have hspawn := opens_spawn htab callee (argsOf args fr.env) t
    have hf' : (s.spawn callee (argsOf args fr.env)).frames f = some fr := by
      rw [s.spawn_other _ _ hne, hf]
    have hframe := opens_works hf' { fr with
      body := next
      env := .new s.fresh share :: afterArgs args fr.env } rfl t
    refine opens_fresh (Eq.trans ?_ (hframe.trans hspawn))
    exact opens_goes_on (htab.threads _ _ ht) ht (by simp only [load, Act.sets, Nat.zero_add])
  | @await τ f u fr c r rest ht hf haw =>
    have hwork := works_of_top hcount htab ht hf (.inl rfl)
    exact opens_same (opens_works hf (fr.resume r) ((works_resume haw r).trans hwork.symm) t)
  | @suspend τ f u fr c rest ht hf haw =>
    have hwork := works_of_top hcount htab ht hf (.inl rfl)
    have hframe := opens_works hf { fr with place := .suspended u } hwork.symm t
    refine opens_same (Eq.trans ?_ hframe)
    exact opens_goes_on (htab.threads _ _ ht) ht (by simp only [load, Act.sets, Nat.zero_add])
  | @push τ f u c rest ht hc =>
    have hcell := opens_setCell hc { c with waiting := f :: c.waiting } t
    have hthread := opens_setThread (s := s.setCell u { c with waiting := f :: c.waiting })
      (htab.threads _ _ ht) ht rest t
    simp only [load, Act.sets, Nat.zero_add] at hthread
    have hsame : Cell.pledges { c with waiting := f :: c.waiting } +
      Cell.stored { c with waiting := f :: c.waiting } = c.pledges + c.stored := rfl
    rw [hsame] at hcell
    exact opens_same (by omega)
  | @refuse τ f u fr c r rest ht hf haw =>
    have hwork := works_of_top hcount htab ht hf (.inr ⟨u, by simp [Act.handles]⟩)
    have hframe := opens_works hf (fr.resume r) ((works_resume haw r).trans hwork.symm) t
    refine opens_same (Eq.trans ?_ hframe)
    exact opens_goes_on (htab.threads _ _ ht) ht (by simp only [load, Act.sets, Nat.zero_add])
  | @emplace τ u c r rest ht hc hempty =>
    have hcell := opens_setCell hc { c with result := some r } t
    have hthread := opens_setThread (s := s.setCell u { c with result := some r })
      (htab.threads _ _ ht) ht (.execute u :: rest) t
    have hold : c.stored = 0 := by rw [Cell.stored, hempty]; rfl
    have hnew : Cell.stored { c with result := some r } = 1 := rfl
    have hsame : Cell.pledges { c with result := some r } = c.pledges := rfl
    simp only [load, Act.sets, hold, hnew, hsame] at hthread hcell
    refine opens_same ?_
    split at hcell
    · rw [if_pos ‹_›] at hthread
      omega
    · rw [if_neg ‹_›] at hthread
      omega
  | @execute τ u c rest ht hc =>
    have hcell := opens_setCell hc { c with waiting := [], ready := true } t
    have hthread := opens_setThread (s := s.setCell u { c with waiting := [], ready := true })
      (htab.threads _ _ ht) ht (.loop u c.waiting :: rest) t
    simp only [load, Act.sets, Nat.zero_add] at hthread
    have hsame : Cell.pledges { c with waiting := [], ready := true } +
      Cell.stored { c with waiting := [], ready := true } = c.pledges + c.stored := rfl
    rw [hsame] at hcell
    exact opens_same (by omega)
  | @resume τ f u v fr c r items rest ht hf haw =>
    have hwork := works_of_top hcount htab ht hf (.inr ⟨u, by simp [Act.handles]⟩)
    have hframe := opens_works hf (fr.resume r) ((works_resume haw r).trans hwork.symm) t
    refine opens_same (Eq.trans ?_ hframe)
    exact opens_goes_on (htab.threads _ _ ht) ht (by simp only [load, Act.sets, Nat.zero_add])
  | exit ht =>
    refine opens_same ?_
    exact opens_goes_on (htab.threads _ _ ht) ht (by simp only [load, Act.sets, Nat.zero_add])
  | @finish τ f rest ht =>
    obtain ⟨fr, hf, hplace⟩ := hcount.at_of_top htab ht (f := f) (p := .done)
      (by simp [Act.handles])
    have hframe := opens_setFrame hf none t
    have hthread := opens_setThread (s := s.setFrame f none) (htab.threads _ _ ht) ht rest t
    have hwork : fr.works = 0 := by rw [Frame.works, if_pos hplace]
    simp only [load, Act.sets, Nat.zero_add, hwork, Option.elim_none, ite_self] at hthread hframe
    exact opens_same (by omega)

/-- **A state has one promise or one result**, and if it is held it has
one. -/
structure Promised (s : State V E) : Prop where
  once : ∀ t, s.opens t ≤ 1
  unmade : ∀ t, s.fresh ≤ t → s.opens t = 0
  held : ∀ t, t < s.fresh → s.Held t → s.opens t = 1

/-- A step allocates one address at most. -/
theorem fresh_step (hst : Step s e s') : s'.fresh = s.fresh ∨ s'.fresh = s.fresh + 1 := by
  cases hst with
  | promise | call | start => exact .inr rfl
  | _ => exact .inl rfl

/-- **The step lemma.** -/
theorem Promised.step (h : Promised s) (hcount : Counted s) (htab : Tables s)
    (hst : Step s e s') : Promised s' := by
  have hopens := opens_step hcount htab hst
  have hfresh := fresh_step hst
  refine ⟨fun t => ?_, fun t ht => ?_, fun t ht hheld => ?_⟩
  · have honce := h.once t
    rcases hopens t with ⟨rfl, -, ht⟩ | ⟨-, ht⟩ | ⟨ht, -⟩
    · have := h.unmade s.fresh le_rfl
      omega
    · omega
    · omega
  · have hnone := h.unmade t (by omega)
    rcases hopens t with ⟨rfl, hlt, -⟩ | ⟨-, ht⟩ | ⟨ht, -⟩
    · omega
    · omega
    · omega
  · rcases hopens t with ⟨rfl, -, hsum⟩ | ⟨hold, hsum⟩ | ⟨-, hnot⟩
    · have := h.unmade s.fresh le_rfl
      omega
    · have hne : t ≠ s.fresh := by
        rintro rfl
        exact hold ⟨rfl, by omega⟩
      have := h.held t (by omega) (held_step hst hne hheld)
      omega
    · exact absurd hheld hnot

end Coroutines

end PortableConcurrency
