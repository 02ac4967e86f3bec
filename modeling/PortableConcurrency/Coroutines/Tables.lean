import PortableConcurrency.Coroutines.Model

/-!
# What is allocated

Addresses of states and frames are given out one after the other, and
variables hold no others. What is in a variable after a step was in one
before.
-/

namespace PortableConcurrency

namespace Coroutines

variable {V E : Type*} {s s' : State V E} {e : Event V E} {acts acts' rest : List (Act V E)}
variable {c c' : Cell V E} {fr fr' : Frame V E} {r : Except E V} {f g t τ : ℕ}

/-! ## What holds of the tables -/

/-- **What is allocated.** -/
structure Tables (s : State V E) : Prop where
  cells : ∀ t, t < s.fresh ↔ ∃ c, s.cells t = some c
  frames : ∀ f fr, s.frames f = some fr → f < s.fresh
  threads : ∀ τ acts, s.threads τ = some acts → τ < s.workers
  env : ∀ f fr l, s.frames f = some fr → l ∈ fr.env → l.what < s.fresh
  futures : ∀ l ∈ s.futures, l.what < s.fresh

/-- The next address is that of no state yet. -/
theorem Tables.none_cell (h : Tables s) : s.cells s.fresh = none := by
  cases hc : s.cells s.fresh with
  | none => rfl
  | some c =>
    have := (h.cells s.fresh).mpr ⟨c, hc⟩
    omega

theorem Tables.none_frame (h : Tables s) : s.frames s.fresh = none := by
  cases hf : s.frames s.fresh with
  | none => rfl
  | some fr =>
    have := h.frames _ _ hf
    omega

/-! ## Variables -/

variable {α β : Type*} {env : List (Local α)} {l : Local α} {args : List ℕ} {i : ℕ} {x : α}

/-- A local that was moved from is about the same state. -/
theorem spent_what (l : Local α) : l.spent.what = l.what := by
  unfold Local.spent
  split <;> rfl

/-- What is still valid was not moved from. -/
theorem spent_kind (h : l.spent.kind ≠ .moved) : l.spent = l := by
  unfold Local.spent at h ⊢
  split at h
  · rw [if_pos ‹_›]
  · exact absurd rfl h

/-- Whoever is in the variables afterwards was there before. -/
theorem of_mem_moveFrom (h : l ∈ moveFrom env i) : ∃ l' ∈ env, l = l' ∨ l = l'.spent := by
  obtain ⟨j, hj, rfl⟩ := List.mem_iff_getElem.mp h
  simp only [moveFrom, List.length_modify] at hj
  refine ⟨env[j], List.getElem_mem hj, ?_⟩
  simp only [moveFrom, List.getElem_modify]
  split
  · exact .inr rfl
  · exact .inl rfl

/-- Moving from a local makes no other one valid. -/
theorem holds_moveFrom (h : Holds (moveFrom env i) x) : Holds env x := by
  obtain ⟨l, hl, rfl, hkind⟩ := h
  obtain ⟨l', hl', rfl | rfl⟩ := of_mem_moveFrom hl
  · exact ⟨l, hl', rfl, hkind⟩
  · rw [spent_kind hkind] at hkind
    exact ⟨l', hl', (spent_what l').symm, hkind⟩

/-- It changes no address in a variable. -/
theorem what_moveFrom (h : l ∈ moveFrom env i) : ∃ l' ∈ env, l'.what = l.what := by
  obtain ⟨l', hl', rfl | rfl⟩ := of_mem_moveFrom h
  · exact ⟨l, hl', rfl⟩
  · exact ⟨l', hl', (spent_what l').symm⟩

/-- Passing arguments makes no local valid. -/
theorem holds_afterArgs (h : Holds (afterArgs args env) x) : Holds env x := by
  induction args generalizing env with
  | nil => exact h
  | cons i args ih => exact holds_moveFrom (ih h)

/-- It changes no address in a variable. -/
theorem what_afterArgs (h : l ∈ afterArgs args env) : ∃ l' ∈ env, l'.what = l.what := by
  induction args generalizing env with
  | nil => exact ⟨l, h, rfl⟩
  | cons i args ih =>
    obtain ⟨l', hl', hwhat⟩ := ih h
    obtain ⟨l'', hl'', hwhat'⟩ := what_moveFrom hl'
    exact ⟨l'', hl'', hwhat'.trans hwhat⟩

/-- What an argument holds, a local did. -/
theorem holds_argsOf (h : Holds (argsOf args env) x) : Holds env x := by
  induction args generalizing env with
  | nil =>
    obtain ⟨l, hl, -⟩ := h
    cases hl
  | cons i args ih =>
    obtain ⟨l, hl, rfl, hkind⟩ := h
    rcases List.mem_append.mp hl with hl | hl
    · exact ⟨l, List.mem_of_getElem? (Option.mem_toList.mp hl), rfl, hkind⟩
    · exact holds_moveFrom (ih ⟨l, hl, rfl, hkind⟩)

theorem what_argsOf (h : l ∈ argsOf args env) : ∃ l' ∈ env, l'.what = l.what := by
  induction args generalizing env with
  | nil => cases h
  | cons i args ih =>
    rcases List.mem_append.mp h with hl | hl
    · exact ⟨l, List.mem_of_getElem? (Option.mem_toList.mp hl), rfl⟩
    · obtain ⟨l', hl', hwhat⟩ := ih hl
      obtain ⟨l'', hl'', hwhat'⟩ := what_moveFrom hl'
      exact ⟨l'', hl'', hwhat'.trans hwhat⟩

/-- Arguments are about states that were made. -/
theorem argsOf_lt {env : List (Local ℕ)} {n : ℕ} (h : ∀ l ∈ env, l.what < n) (args : List ℕ) :
    ∀ l ∈ argsOf args env, l.what < n := by
  intro l hl
  obtain ⟨l', hl', hwhat⟩ := what_argsOf hl
  exact hwhat ▸ h l' hl'

/-- What is awaited is held by a local. -/
theorem holds_of_target (h : target env i = some x) : Holds env x := by
  obtain ⟨l, hl, hx⟩ := Option.bind_eq_some_iff.mp h
  by_cases hkind : l.kind = .moved
  · rw [if_pos hkind] at hx
    cases hx
  · rw [if_neg hkind] at hx
    exact ⟨l, List.mem_of_getElem? hl, Option.some.inj hx, hkind⟩

theorem holds_of_awaited (h : fr.awaited = some t) : Holds fr.env t := by
  unfold Frame.awaited at h
  split at h
  · exact holds_of_target h
  · cases h

/-! ## What a step does to the frame -/

/-- A frame awaits where its body is at a `co_await`. -/
theorem exists_await (h : fr.awaited = some t) : ∃ i next, fr.body = .await i next ∧
    target fr.env i = some t := by
  cases hbody : fr.body with
  | await i next =>
    simp only [Frame.awaited, hbody] at h
    exact ⟨i, next, rfl, h⟩
  | _ =>
    simp only [Frame.awaited, hbody] at h
    cases h

/-- A frame that is resumed runs. -/
theorem resume_place (h : fr.awaited = some t) : (fr.resume r).place = .running := by
  obtain ⟨i, next, hbody, -⟩ := exists_await h
  simp only [Frame.resume, hbody]

/-- Its locals hold no more than they did. -/
theorem holds_resume (h : Holds (fr.resume r).env t) : Holds fr.env t := by
  unfold Frame.resume at h
  split at h
  · exact holds_moveFrom h
  · exact h

theorem what_resume {l : Local ℕ} (h : l ∈ (fr.resume r).env) : ∃ l' ∈ fr.env, l'.what = l.what := by
  unfold Frame.resume at h
  split at h
  · exact what_moveFrom h
  · exact ⟨l, h, rfl⟩

/-- A frame that is unwound is done. -/
theorem unwind_place : (fr.unwind r).place = .done := by
  cases r <;> rfl

/-- Unwinding makes no locals. -/
theorem mem_unwind {l : Local ℕ} (h : l ∈ (fr.unwind r).env) : l ∈ fr.env := by
  cases r with
  | ok => exact h
  | error => exact List.mem_of_mem_drop h

theorem holds_unwind (h : Holds (fr.unwind r).env t) : Holds fr.env t := by
  obtain ⟨l, hl, hx⟩ := h
  exact ⟨l, mem_unwind hl, hx⟩

/-! ## What holds of the tables after a step -/

namespace Tables

/-- A thread that goes on allocates nothing. -/
theorem setThread (h : Tables s) (ht : s.threads τ = some acts) (acts' : List (Act V E)) :
    Tables (s.setThread τ acts') := by
  refine ⟨h.cells, h.frames, ?_, h.env, h.futures⟩
  intro υ acts'' hυ
  by_cases hne : υ = τ
  · exact hne ▸ h.threads τ acts ht
  · exact h.threads υ acts'' (by rwa [s.setThread_other _ hne] at hυ)

/-- So does a state that changes. -/
theorem setCell (h : Tables s) (hc : s.cells t = some c) (c' : Cell V E) :
    Tables (s.setCell t c') := by
  refine ⟨?_, h.frames, h.threads, h.env, h.futures⟩
  intro u
  show u < s.fresh ↔ _
  by_cases hne : u = t
  · subst hne
    rw [s.setCell_self, h.cells u]
    exact ⟨fun _ => ⟨c', rfl⟩, fun _ => ⟨c, hc⟩⟩
  · rw [s.setCell_other _ hne]
    exact h.cells u

/-- So does a frame whose locals are about states that were made. -/
theorem setFrame (h : Tables s) (hf : s.frames f = some fr)
    (henv : ∀ l ∈ fr'.env, l.what < s.fresh) : Tables (s.setFrame f (some fr')) := by
  refine ⟨h.cells, ?_, h.threads, ?_, h.futures⟩
  · intro g fr'' hg
    by_cases hne : g = f
    · exact hne ▸ h.frames f fr hf
    · exact h.frames g fr'' (by rwa [s.setFrame_other _ hne] at hg)
  · intro g fr'' l hg hl
    by_cases hne : g = f
    · subst hne
      rw [s.setFrame_self] at hg
      obtain rfl := Option.some.inj hg
      exact henv l hl
    · exact h.env g fr'' l (by rwa [s.setFrame_other _ hne] at hg) hl

/-- A frame can be destroyed. -/
theorem eraseFrame (h : Tables s) (f : ℕ) : Tables (s.setFrame f none) := by
  have hother : ∀ g fr'', (s.setFrame f none).frames g = some fr'' → s.frames g = some fr'' := by
    intro g fr'' hg
    by_cases hne : g = f
    · subst hne
      rw [s.setFrame_self] at hg
      cases hg
    · rwa [s.setFrame_other _ hne] at hg
  exact ⟨h.cells, fun g fr'' hg => h.frames g fr'' (hother g fr'' hg), h.threads,
    fun g fr'' l hg hl => h.env g fr'' l (hother g fr'' hg) hl, h.futures⟩

/-- The user may have any futures of states that were made. -/
theorem setFutures (h : Tables s) {futures : List (Local ℕ)}
    (hfut : ∀ l ∈ futures, l.what < s.fresh) : Tables { s with futures := futures } :=
  ⟨h.cells, h.frames, h.threads, h.env, hfut⟩

/-- The next address is allocated. -/
theorem newCell (h : Tables s) (c' : Cell V E) : Tables { s with
    cells := Function.update s.cells s.fresh (some c')
    fresh := s.fresh + 1 } := by
  refine ⟨?_, ?_, h.threads, ?_, ?_⟩
  · intro u
    show u < s.fresh + 1 ↔ ∃ c, Function.update s.cells s.fresh (some c') u = some c
    by_cases hne : u = s.fresh
    · subst hne
      rw [Function.update_self]
      exact ⟨fun _ => ⟨c', rfl⟩, fun _ => by omega⟩
    · rw [Function.update_of_ne hne, ← h.cells u]
      omega
  · intro g fr'' hg
    have := h.frames g fr'' hg
    show g < s.fresh + 1
    omega
  · intro g fr'' l hg hl
    have := h.env g fr'' l hg hl
    show l.what < s.fresh + 1
    omega
  · intro l hl
    have := h.futures l hl
    show l.what < s.fresh + 1
    omega

/-- A coroutine that is called gets the next address, for its state and its
frame. -/
theorem spawn (h : Tables s) (body : Body V E) {env : List (Local ℕ)}
    (henv : ∀ l ∈ env, l.what < s.fresh) : Tables (s.spawn body env) := by
  have hnew := h.newCell ⟨none, [], false, false⟩
  refine ⟨hnew.cells, ?_, hnew.threads, ?_, hnew.futures⟩
  · intro g fr'' hg
    by_cases hne : g = s.fresh
    · subst hne
      show s.fresh < s.fresh + 1
      omega
    · exact hnew.frames g fr'' (by rwa [s.spawn_other _ _ hne] at hg)
  · intro g fr'' l hg hl
    by_cases hne : g = s.fresh
    · subst hne
      rw [s.spawn_self] at hg
      obtain rfl := Option.some.inj hg
      have := henv l hl
      show l.what < s.fresh + 1
      omega
    · exact hnew.env g fr'' l (by rwa [s.spawn_other _ _ hne] at hg) hl

/-- The variables of a frame that goes on. -/
theorem env_resume (h : Tables s) (hf : s.frames f = some fr) :
    ∀ l ∈ (fr.resume r).env, l.what < s.fresh := by
  intro l hl
  obtain ⟨l', hl', hwhat⟩ := what_resume hl
  exact hwhat ▸ h.env f fr l' hf hl'

/-- **Every step keeps them.** -/
theorem step (h : Tables s) (hst : Step s e s') : Tables s' := by
  cases hst with
  | thread =>
    refine ⟨h.cells, h.frames, ?_, h.env, h.futures⟩
    intro υ acts'' hυ
    show υ < s.workers + 1
    by_cases hne : υ = s.workers
    · omega
    · have := h.threads υ acts'' (by simpa only [Function.update_of_ne hne] using hυ)
      omega
  | promise =>
    refine (h.newCell _).setFutures fun l hl => ?_
    show l.what < s.fresh + 1
    rcases List.mem_cons.mp hl with rfl | hl
    · exact Nat.lt_succ_self _
    · have := h.futures l hl
      omega
  | @call τ body args share hidle =>
    have henv := argsOf_lt h.futures args
    refine ((h.spawn _ henv).setThread hidle _).setFutures fun l hl => ?_
    show l.what < s.fresh + 1
    rcases List.mem_cons.mp hl with rfl | hl
    · exact Nat.lt_succ_self _
    · obtain ⟨l', hl', hwhat⟩ := what_afterArgs hl
      have := h.futures l' hl'
      omega
  | set hidle hc => exact (h.setCell hc _).setThread hidle _
  | setExpired _ hc => exact h.setCell hc _
  | drop => exact h.setFutures fun l hl => h.futures l (List.mem_of_mem_eraseIdx hl)
  | ret ht hf | retExpired ht hf =>
    exact (h.setFrame hf fun l hl => h.env _ _ l hf (mem_unwind hl)).setThread ht _
  | @start τ f fr rest callee next args share ht hf hbody =>
    have henv := argsOf_lt (fun l hl => h.env f fr l hf hl) args
    have hne : f ≠ s.fresh := by
      have := h.frames f fr hf
      omega
    have hf' : (s.spawn callee (argsOf args fr.env)).frames f = some fr := by
      rw [s.spawn_other _ _ hne, hf]
    refine ((h.spawn _ henv).setFrame hf' fun l hl => ?_).setThread ht _
    show l.what < s.fresh + 1
    rcases List.mem_cons.mp hl with rfl | hl
    · exact Nat.lt_succ_self _
    · obtain ⟨l', hl', hwhat⟩ := what_afterArgs hl
      have := h.env f fr l' hf hl'
      omega
  | await ht hf => exact h.setFrame hf (h.env_resume hf)
  | @suspend τ f t fr c rest ht hf =>
    have hframe : Tables (s.setFrame f (some { fr with place := .suspended t })) :=
      h.setFrame hf fun l hl => h.env _ _ l hf hl
    exact hframe.setThread ht _
  | push ht hc => exact (h.setCell hc _).setThread ht _
  | refuse ht hf => exact (h.setFrame hf (h.env_resume hf)).setThread ht _
  | emplace ht hc => exact (h.setCell hc _).setThread ht _
  | execute ht hc => exact (h.setCell hc _).setThread ht _
  | resume ht hf => exact (h.setFrame hf (h.env_resume hf)).setThread ht _
  | exit ht => exact h.setThread ht _
  | finish ht => exact (h.eraseFrame _).setThread ht _

end Tables

theorem tables_init : Tables (init : State V E) := by
  refine ⟨fun t => ⟨fun h => absurd h (Nat.not_lt_zero _), fun h => ?_⟩, ?_, ?_, ?_, ?_⟩ <;>
    simp [init] at *

end Coroutines

end PortableConcurrency
