import PortableConcurrency.Coroutines.Results

/-!
# What becomes of a handle

Every coroutine has one handle, which is where the coroutine is: on the
stack of one thread, or in the list of the state that it awaits. It goes on
when that state is ready, with its result, and has not been destroyed by
then. And what it awaits has somebody who will set its result.
-/

namespace PortableConcurrency

namespace Coroutines

variable {V E : Type*} {s s' : State V E} {e : Event V E} {acts acts' rest : List (Act V E)}
variable {c c' : Cell V E} {fr fr' : Frame V E} {a : Act V E} {r : Except E V}
variable {f g t u τ υ : ℕ} {p : At} {items : List ℕ}

/-! ## The loop -/

/-- A list that was consumed is not filled again. -/
theorem consumed_step (htab : Tables s) (hst : Step s e s') (h : s.ofCell Cell.consumed t = 1) :
    s'.ofCell Cell.consumed t = 1 := by
  have hsome : ∀ {u c}, s.cells u = some c → (∀ {c'}, Cell.consumed c ≤ Cell.consumed c' →
      Cell.consumed c' ≤ 1 → (s.setCell u c').ofCell Cell.consumed t = 1) := by
    intro u c hc c' hle hone
    rw [ofCell_setCell]
    split
    · subst t
      rw [ofCell_of hc] at h
      omega
    · exact h
  have hone : ∀ c : Cell V E, c.consumed ≤ 1 := by
    intro c
    unfold Cell.consumed
    split <;> omega
  have hfresh : ∀ c, (s.setCell s.fresh c).ofCell Cell.consumed t = 1 := by
    intro c
    rw [ofCell_setCell]
    split
    · subst t
      rw [State.ofCell, htab.none_cell] at h
      cases h
    · exact h
  cases hst with
  | promise | call | start => exact hfresh _
  | set _ hc | setExpired _ hc | push _ hc | emplace _ hc => exact hsome hc le_rfl (hone _)
  | execute _ hc => exact hsome hc (hone _) le_rfl
  | _ => exact h

/-- Who is in the loop over a list has consumed it. -/
def Looping (s : State V E) : Prop :=
  ∀ τ acts t items, s.threads τ = some acts → .loop t items ∈ acts → s.ofCell Cell.consumed t = 1

theorem thread_cases (h : (s.setThread τ acts).threads υ = some acts') :
    (υ = τ ∧ acts' = acts) ∨ (υ ≠ τ ∧ s.threads υ = some acts') := by
  by_cases hυ : υ = τ
  · subst hυ
    rw [s.setThread_self] at h
    exact .inl ⟨rfl, (Option.some.inj h).symm⟩
  · exact .inr ⟨hυ, (s.setThread_other acts hυ).symm.trans h⟩

/-- **The activities of a thread after a step**: those that were there, or
what is now on top. -/
theorem acts_step (hst : Step s e s') (h : s'.threads υ = some acts') (ha : a ∈ acts') :
    (∃ acts, s.threads υ = some acts ∧ a ∈ acts) ∨
      (∃ t items, a = .loop t items ∧
        (s'.ofCell Cell.consumed t = 1 ∨ ∃ acts items', s.threads υ = some acts ∧
          .loop t items' ∈ acts)) ∨
      (∃ t r, a = .emplace t r ∧ ((∃ τ, e = .set τ t r) ∨
        ∃ rest fr, s.threads υ = some (.body t :: rest) ∧ s.frames t = some fr ∧
          fr.body = .ret r)) ∨
      (∀ t items, a ≠ .loop t items) ∧ ∀ t r, a ≠ .emplace t r := by
  have hold : ∀ {b : Act V E} {rest}, s.threads υ = some (b :: rest) → a ∈ rest →
      ∃ acts, s.threads υ = some acts ∧ a ∈ acts :=
    fun ht ha => ⟨_, ht, List.mem_cons_of_mem _ ha⟩
  cases hst with
  | thread =>
    rcases thread_cases (s := s) h with ⟨-, rfl⟩ | ⟨-, h⟩
    · cases ha
    · exact .inl ⟨acts', h, ha⟩
  | promise | setExpired | drop | await => exact .inl ⟨acts', h, ha⟩
  | call =>
    rcases thread_cases (s := s) h with ⟨-, rfl⟩ | ⟨-, h⟩
    · obtain rfl := List.mem_singleton.mp ha
      exact .inr (.inr (.inr (by simp)))
    · exact .inl ⟨acts', h, ha⟩
  | set =>
    rcases thread_cases (s := s) h with ⟨rfl, rfl⟩ | ⟨-, h⟩
    · obtain rfl := List.mem_singleton.mp ha
      exact .inr (.inr (.inl ⟨_, _, rfl, .inl ⟨_, rfl⟩⟩))
    · exact .inl ⟨acts', h, ha⟩
  | ret ht hf hbody =>
    rcases thread_cases (s := s) h with ⟨rfl, rfl⟩ | ⟨-, h⟩
    · rcases List.mem_cons.mp ha with rfl | ha
      · exact .inr (.inr (.inl ⟨_, _, rfl, .inr ⟨_, _, ht, hf, hbody⟩⟩))
      · rcases List.mem_cons.mp ha with rfl | ha
        · exact .inr (.inr (.inr (by simp)))
        · exact .inl (hold ht ha)
    · exact .inl ⟨acts', h, ha⟩
  | retExpired ht | refuse ht | emplace ht =>
    rcases thread_cases (s := s) h with ⟨rfl, rfl⟩ | ⟨-, h⟩
    · rcases List.mem_cons.mp ha with rfl | ha
      · exact .inr (.inr (.inr (by simp)))
      · exact .inl (hold ht ha)
    · exact .inl ⟨acts', h, ha⟩
  | suspend ht =>
    rcases thread_cases (s := s) h with ⟨rfl, rfl⟩ | ⟨-, h⟩
    · rcases List.mem_cons.mp ha with rfl | ha
      · exact .inr (.inr (.inr (by simp)))
      · exact .inl (hold ht ha)
    · exact .inl ⟨acts', h, ha⟩
  | start ht =>
    rcases thread_cases (s := s) h with ⟨rfl, rfl⟩ | ⟨-, h⟩
    · rcases List.mem_cons.mp ha with rfl | ha
      · exact .inr (.inr (.inr (by simp)))
      · exact .inl ⟨_, ht, ha⟩
    · exact .inl ⟨acts', h, ha⟩
  | push ht | exit ht | finish ht =>
    rcases thread_cases (s := s) h with ⟨rfl, rfl⟩ | ⟨-, h⟩
    · exact .inl (hold ht ha)
    · exact .inl ⟨acts', h, ha⟩
  | @execute τ t c rest ht hc =>
    rcases thread_cases (s := s) h with ⟨rfl, rfl⟩ | ⟨-, h⟩
    · rcases List.mem_cons.mp ha with rfl | ha
      · refine .inr (.inl ⟨_, _, rfl, .inl ?_⟩)
        show (s.setCell t _).ofCell Cell.consumed t = 1
        rw [ofCell_setCell, if_pos rfl]
        rfl
      · exact .inl (hold ht ha)
    · exact .inl ⟨acts', h, ha⟩
  | resume ht =>
    rcases thread_cases (s := s) h with ⟨rfl, rfl⟩ | ⟨-, h⟩
    · rcases List.mem_cons.mp ha with rfl | ha
      · exact .inr (.inr (.inr (by simp)))
      · rcases List.mem_cons.mp ha with rfl | ha
        · exact .inr (.inl ⟨_, _, rfl, .inr ⟨_, _, ht, List.mem_cons_self⟩⟩)
        · exact .inl (hold ht ha)
    · exact .inl ⟨acts', h, ha⟩

theorem Looping.step (h : Looping s) (htab : Tables s) (hst : Step s e s') : Looping s' := by
  intro υ acts' t items hυ hmem
  rcases acts_step hst hυ hmem with ⟨acts, hacts, ha⟩ | ⟨t', items', ha, hloop⟩ |
    ⟨t', r, ha, -⟩ | ⟨hnot, -⟩
  · exact consumed_step htab hst (h υ acts t items hacts ha)
  · cases ha
    rcases hloop with hloop | ⟨acts, items', hacts, ha⟩
    · exact hloop
    · exact consumed_step htab hst (h υ acts t items' hacts ha)
  · cases ha
  · exact absurd rfl (hnot t items)

/-! ## All of it -/

/-- **What holds in every run.** -/
structure Sound (s : State V E) : Prop where
  tables : Tables s
  counted : Counted s
  awaiting : Awaiting s
  emptied : Emptied s
  looping : Looping s
  stored : Stored s
  promised : Promised s

theorem sound_init : Sound (init : State V E) := by
  refine ⟨tables_init, ?_, ?_, ?_, ?_, ?_, ?_⟩
  · intro f p
    cases p <;> rfl
  · intro f fr t hf
    cases hf
  · intro t c hc
    cases hc
  · intro τ acts t items hτ
    cases hτ
  · intro t
    rfl
  · exact ⟨fun t => Nat.zero_le _, fun t _ => rfl, fun t ht => absurd ht (Nat.not_lt_zero t)⟩

theorem Sound.step (h : Sound s) (hst : Step s e s') : Sound s' :=
  ⟨h.tables.step hst, h.counted.step h.tables hst, h.awaiting.step h.counted h.tables hst,
    h.emptied.step hst, h.looping.step h.tables hst, h.stored.step h.tables hst,
    h.promised.step h.counted h.tables hst⟩

theorem sound (hrun : Runs Step Unguarded init s) : Sound s :=
  hrun.invariant (I := Sound) (fun _ _ _ h _ hst => h.step hst) sound_init

/-! ## The law -/

/-- **What holds of the handles of coroutines**, and of the results they
wait for. -/
structure HandleLaw (s : State V E) : Prop where
  /-- every coroutine has one, where it is, and what was destroyed has none -/
  one : ∀ f p, s.load (Act.handles f p) + s.listed f p = s.isAt f p
  /-- who is suspended stays so until what it awaits is ready, is not
  destroyed, and goes on with the result -/
  resumed : ∀ e s' f fr t, Step s e s' → s.frames f = some fr → fr.place = .suspended t →
    s'.frames f = some fr ∨
      ∃ c r, s.cells t = some c ∧ c.ready = true ∧ c.result = some r ∧
        s'.frames f = some (fr.resume r)
  /-- what is awaited is held, and has a promise or a result -/
  awaited : ∀ f fr t, s.frames f = some fr → fr.place = .suspended t →
    s.Held t ∧ s.opens t = 1
  /-- no promise finds a result that was set already -/
  satisfied : ∀ τ acts t r, s.threads τ = some acts → .emplace t r ∈ acts →
    ∃ c, s.cells t = some c ∧ c.result = none

theorem ready_of_consumed (hc : s.cells t = some c) (h : s.ofCell Cell.consumed t = 1) :
    c.ready = true := by
  rw [ofCell_of hc, Cell.consumed] at h
  by_contra hready
  rw [if_neg hready] at h
  cases h

/-- A suspended coroutine is touched by those only who have its handle. -/
theorem Sound.resumed (h : Sound s) (hst : Step s e s') (hf : s.frames f = some fr)
    (hplace : fr.place = .suspended t) : s'.frames f = some fr ∨
      ∃ c r, s.cells t = some c ∧ c.ready = true ∧ c.result = some r ∧
        s'.frames f = some (fr.resume r) := by
  have hfresh : f ≠ s.fresh := by
    have := h.tables.frames f fr hf
    omega
  -- who runs, or has returned, is somebody else
  have hother : ∀ {τ g rest} {a : Act V E} {p}, s.threads τ = some (a :: rest) →
      0 < a.handles g p → p ≠ .suspended t → f ≠ g := by
    rintro τ g rest a p ht ha hp rfl
    exact hp ((h.counted.place_of_top h.tables ht hf ha).symm.trans hplace)
  have hrunning : ∀ {τ g rest}, s.threads τ = some (.body g :: rest) → f ≠ g :=
    fun ht => hother (p := .running) ht (by simp [Act.handles]) (by simp)
  cases hst with
  | call => exact .inl ((s.spawn_other _ _ hfresh).trans hf)
  | ret ht | retExpired ht | await ht | suspend ht =>
    exact .inl ((s.setFrame_other _ (hrunning ht)).trans hf)
  | @start τ g fr' rest callee next args share ht =>
    have hspawn := s.spawn_other callee (argsOf args fr'.env) hfresh
    exact .inl ((State.setFrame_other _ _ (hrunning ht)).trans (hspawn.trans hf))
  | @refuse τ g u fr' c r rest ht hg haw hc hready hr =>
    by_cases hfg : f = g
    · subst hfg
      have hsusp := h.counted.place_of_top h.tables ht hf (p := .suspended u)
        (by simp [Act.handles])
      obtain rfl : u = t := by simpa using hsusp.symm.trans hplace
      obtain rfl := Option.some.inj (hg.symm.trans hf)
      exact .inr ⟨c, r, hc, hready, hr, s.setFrame_self _ _⟩
    · exact .inl ((s.setFrame_other _ hfg).trans hf)
  | @resume τ g u v fr' c r items rest ht hg haw hc hr =>
    by_cases hfg : f = g
    · subst hfg
      have hsusp := h.counted.place_of_top h.tables ht hf (p := .suspended u)
        (by simp [Act.handles])
      obtain rfl : u = t := by simpa using hsusp.symm.trans hplace
      obtain rfl := Option.some.inj (hg.symm.trans hf)
      obtain rfl : v = u :=
        Option.some.inj (haw.symm.trans (h.awaiting f fr' u hf hplace))
      have hready := ready_of_consumed hc (h.looping τ _ v _ ht List.mem_cons_self)
      exact .inr ⟨c, r, hc, hready, hr, s.setFrame_self _ _⟩
    · exact .inl ((s.setFrame_other _ hfg).trans hf)
  | @finish τ g rest ht =>
    have hne := hother (g := g) (p := .done) ht (by simp [Act.handles]) (by simp)
    exact .inl ((s.setFrame_other _ hne).trans hf)
  | _ => exact .inl hf

/-- **One handle for each coroutine.** In every run, whatever its coroutines
do and however its threads take turns: a coroutine has one handle as long
as it is there, and none when it was destroyed. It goes on from an await
once, when what it awaits is ready, and with its result. What it awaits is
held, by itself at least, and has a result or somebody who will set it, and
nobody sets a result that is there already. -/
theorem handle_law (hrun : Runs Step Unguarded (init : State V E) s) : HandleLaw s := by
  have h := sound hrun
  refine ⟨h.counted, fun e s' f fr t hst hf hplace => h.resumed hst hf hplace, ?_, ?_⟩
  · intro f fr t hf hplace
    have hholds := holds_of_awaited (h.awaiting f fr t hf hplace)
    have hheld : s.Held t := .inr ⟨f, fr, hf, hholds⟩
    obtain ⟨l, hl, rfl, -⟩ := hholds
    exact ⟨hheld, h.promised.held l.what (h.tables.env f fr l hf hl) hheld⟩
  · intro τ acts t r hτ hmem
    have hsets : 1 ≤ load (Act.sets t) acts := by
      have := le_load (W := Act.sets t) hmem
      simpa [Act.sets] using this
    have hle := load_le h.tables hτ (Act.sets t)
    have honce := h.promised.once t
    have hlt : t < s.fresh := by
      by_contra hge
      have := h.promised.unmade t (by omega)
      simp only [State.opens] at this
      omega
    obtain ⟨c, hc⟩ := (h.tables.cells t).mp hlt
    refine ⟨c, hc, ?_⟩
    simp only [State.opens, ofCell_of hc] at honce
    cases hr : c.result with
    | none => rfl
    | some r =>
      have hstored : c.stored = 1 := by rw [Cell.stored, hr]; rfl
      omega

/-- It awaits its argument and returns it. -/
def relay : Body ℕ ℕ := .await 0 .ret

/-- A promise is fulfilled that a coroutine awaits, which is about to be
resumed. -/
theorem handle_law_of_relay : ∃ s : State ℕ ℕ, s.threads 0 = some [.loop 0 [1]] ∧
    HandleLaw s := by
  have h₀ : Runs Step Unguarded (init : State ℕ ℕ) init := .refl _
  have h₁ := h₀.tail trivial (show Step _ .thread _ from .thread)
  have h₂ := h₁.tail trivial (show Step _ (.promise false) _ from .promise)
  have h₃ := h₂.tail trivial (show Step _ (.call 0 relay [0] false) _ from .call rfl)
  have h₄ := h₃.tail trivial (show Step _ (.step 0) _ from
    .suspend (t := 0) rfl rfl rfl rfl rfl)
  have h₅ := h₄.tail trivial (show Step _ (.step 0) _ from .push rfl rfl rfl)
  have h₆ := h₅.tail trivial (show Step _ (.set 0 0 (.ok 5)) _ from
    .set rfl rfl rfl (.inr ⟨1, _, rfl, ⟨0, .future⟩, List.mem_singleton_self _, rfl, by decide⟩))
  have h₇ := h₆.tail trivial (show Step _ (.step 0) _ from .emplace rfl rfl rfl)
  have h := h₇.tail trivial (show Step _ (.step 0) _ from .execute rfl rfl)
  exact ⟨_, rfl, handle_law h⟩

end Coroutines

end PortableConcurrency
