import PortableConcurrency.Stack.Deallocation

/-!
# The once-consumable stack — linearizability

The object the stack implements is `Once`: a list that grows at its front
until it is taken. `Shows` reads it off the heap, and every atomic step
either leaves it alone or makes one call of it, the call whose code the
step belongs to. The rest says where each node ends up: who deallocates
it, and that somebody does, once.
-/

namespace PortableConcurrency

namespace Stack

/-! ## The object -/

/-- **What the stack is for**: the elements put in, latest first, until
somebody takes all of them. -/
inductive Once (α : Type*)
  | pending (l : List α)
  | taken

namespace Once

variable {α : Type*}

/-- Returns whether the element got in. -/
def push (x : α) : Once α → Once α × Bool
  | pending l => (pending (x :: l), true)
  | taken => (taken, false)

def consume : Once α → Once α × List α
  | pending l => (taken, l)
  | taken => (taken, [])

end Once

variable {Op T : Type*} [DecidableEq Op] {input : Op → T} {s t : State Op T}
variable {i : Op} {a : ℕ} {p : Ptr} {e : Event Op}

/-- **Reading a list of the heap**: the calls and values met from `p` on. -/
def Walks (heap : ℕ → Option (Node Op T)) : Ptr → List (Op × T) → Prop
  | p, [] => p = .null
  | p, (i, v) :: l => ∃ a q, p = .node a ∧ heap a = some ⟨some v, q, i⟩ ∧ Walks heap q l

/-- The object a live stack shows. -/
def Shows (s : State Op T) : Once (Op × T) → Prop
  | .pending l => s.head ≠ .marker ∧ Walks s.heap s.head l
  | .taken => s.head = .marker

/-- The calls that have got in with their values, latest first. -/
def State.entries (input : Op → T) (s : State Op T) : List (Op × T) :=
  s.pushed.map fun i => (i, input i)

/-- A call of `push` has its return value. -/
def Phase.Settled (ph : Phase) : Prop :=
  ph = .succeeded ∨ ∃ p, ph = .failed p

/-- The object of a state, by its head and its successful calls. -/
def State.object (input : Op → T) (s : State Op T) : Once (Op × T) :=
  if s.head = .marker then .taken else .pending (s.entries input)

/-- **The call that a step makes**, if any: a step settles a push, or is
the exchange of `consume`, or makes no call. -/
inductive Effect (input : Op → T) (s : State Op T) (t : State Op T) :
    Event Op → Once (Op × T) → Once (Op × T) → Prop
  | accepted {e : Event Op} {o o' : Once (Op × T)} {i : Op} (hbefore : ¬ (s.phase i).Settled)
      (hafter : t.phase i = .succeeded) (hcall : o.push (i, input i) = (o', true)) :
      Effect input s t e o o'
  | refused {e : Event Op} {o o' : Once (Op × T)} {i : Op} {p : Ptr}
      (hbefore : ¬ (s.phase i).Settled) (hafter : t.phase i = .failed p)
      (hcall : o.push (i, input i) = (o', false)) : Effect input s t e o o'
  | consumed {o o' : Once (Op × T)} {p : Ptr} {l : List (Op × T)}
      (hafter : t.holder = .consumer p) (hlist : Walks t.heap p l)
      (hcall : o.consume = (o', l)) : Effect input s t .consume o o'
  | silent {e : Event Op} {o : Once (Op × T)} (hcons : e ≠ .consume)
      (hphase : ∀ i, (t.phase i).Settled ↔ (s.phase i).Settled) : Effect input s t e o o

/-! ## What the invariant says of the object -/

omit [DecidableEq Op] in
theorem Chain.walks {cell : Op → ℕ} {heap : ℕ → Option (Node Op T)} {l : List Op} :
    ∀ {p : Ptr}, Chain input cell heap p l → Walks heap p (l.map fun i => (i, input i)) := by
  induction l with
  | nil => intro p h; exact h
  | cons i l ih =>
    rintro p ⟨hp, q, hq, hl⟩
    exact ⟨cell i, q, hp, hq, ih hl⟩

namespace Inv

omit [DecidableEq Op] in
/-- Until somebody takes it, the whole list hangs from the head. -/
theorem walks_head (h : Inv input s) (hhold : s.holder = .stack) :
    Walks s.heap s.head (s.entries input) := by
  obtain ⟨gone, rest, hsplit, hchain, -, -, hstack⟩ := h.list
  have hgone := hstack hhold
  subst hgone
  rw [State.listHead, hhold] at hchain
  have hw := hchain.walks
  rwa [State.entries, hsplit]

omit [DecidableEq Op] in
theorem shows_pending (h : Inv input s) (hlive : s.destroyed = false) (hm : s.head ≠ .marker) :
    Shows s (.pending (s.entries input)) :=
  ⟨hm, h.walks_head (h.holder_eq hlive hm)⟩

omit [DecidableEq Op] in
/-- A live stack shows one object or the other. -/
theorem shows (h : Inv input s) (hlive : s.destroyed = false) :
    Shows s (s.object input) := by
  unfold State.object
  split
  · assumption
  · exact h.shows_pending hlive ‹_›

end Inv

/-! ## Linearization -/

omit [DecidableEq Op] in
theorem object_congr (hhead : t.head = s.head) (hpush : t.pushed = s.pushed) :
    t.object input = s.object input := by
  simp only [State.object, State.entries, hhead, hpush]

theorem load_effect (hi : s.phase i = .allocated a) :
    Effect input s (s.load i a) (.load i) (s.object input) ((s.load i a).object input) := by
  rw [object_congr load_frame.1 load_frame.2.1]
  by_cases hm : s.head = .marker
  · refine .refused (i := i) (p := .node a) (by simp [Phase.Settled, hi]) ?_ ?_
    · simp [load_phase, hm]
    · simp [State.object, hm, Once.push]
  · refine .silent (by simp) fun j => ?_
    by_cases hj : j = i
    · subst hj
      simp [load_phase, hm, hi, Phase.Settled]
    · simp [load_phase, hj]

theorem cas_effect {q : Ptr} (hi : s.phase i = .linking a) (hq : q ≠ .marker) :
    Effect input s (s.cas i a q) (.cas i) (s.object input) ((s.cas i a q).object input) := by
  obtain ⟨heq, hhead, hpush⟩ | ⟨hne, hhead, hpush⟩ := cas_frame (s := s) (i := i) (a := a) (q := q)
  · refine .accepted (i := i) (by simp [Phase.Settled, hi]) (by simp [cas_phase hi, heq]) ?_
    simp [State.object, State.entries, heq, hq, hhead, hpush, Once.push]
  · rw [object_congr hhead hpush]
    by_cases hm : s.head = .marker
    · refine .refused (i := i) (p := .node a) (by simp [Phase.Settled, hi]) ?_ ?_
      · simp only [cas_phase hi, if_neg hne, if_pos hm, if_true]
      · simp [State.object, hm, Once.push]
    · refine .silent (by simp) fun j => ?_
      by_cases hj : j = i
      · subst hj
        simp [cas_phase hi, hne, hm, hi, Phase.Settled]
      · simp [cas_phase hi, hj]

omit [DecidableEq Op] in
theorem consume_effect (h : Inv input s) (honce : s.holder = .stack) :
    Effect input s s.consume .consume (s.object input) (s.consume.object input) := by
  have hm : s.head ≠ .marker := fun hm => by
    obtain ⟨p, hp⟩ := h.marker.mp hm
    rw [honce] at hp
    cases hp
  refine .consumed (p := s.head) (l := s.entries input) ?_ (h.walks_head honce) ?_
  · simp [State.consume, hm]
  · simp [State.object, State.consume, hm, Once.consume]

/-- **Every step of a live stack makes its call of the object**, or
none. -/
theorem effect_step (h : Inv input s) (hst : Step s e t) (hlive : t.destroyed = false) :
    Effect input s t e (s.object input) (t.object input) := by
  cases hst with
  | @begin i a _ hi _ =>
    refine .silent (by simp) fun j => ?_
    by_cases hj : j = i
    · subst hj
      simp [State.allocate, hi, Phase.Settled]
    · simp [State.allocate, hj]
  | load hi => exact load_effect hi
  | cas hi hnd => exact cas_effect hi (h.next_ne_marker hi hnd)
  | consume _ honce => exact consume_effect h honce
  | destroy =>
    unfold State.destroy at hlive
    split at hlive <;> cases hlive
  | @free r i a nd hp hnd =>
    rw [object_congr free_frame.1 free_frame.2.1]
    refine .silent (by simp) fun j => ?_
    rw [free_phase]
    split
    · rename_i hj
      obtain ⟨rfl, rfl⟩ := hj
      have hph : s.phase j = .failed (.node a) := by
        simp only [State.deleting] at hp
        grind
      simp [hph, Phase.Settled]
    · rfl

/-! ## The result -/

/-- **What holds of the stack in a state**, and of every step and every
run from there. -/
structure Linearized (input : Op → T) (s : State Op T) : Prop where
  /-- a live stack shows an object, and each step makes its call of it -/
  object : s.destroyed = false → ∃ o, Shows s o ∧ ∀ e t, Step s e t → t.destroyed = false →
    ∃ o', Shows t o' ∧ Effect input s t e o o'
  /-- the pushes that returned true are listed, each once -/
  returned_true : ∀ i, s.phase i = .succeeded ↔ i ∈ s.pushed
  once : s.pushed.Nodup
  /-- and the list grows by successful exchanges only, at its front -/
  exchanged : ∀ e t, Step s e t → t.pushed = s.pushed ∨ ∃ i a, e = .cas i ∧
    s.phase i = .linking a ∧ t.head = .node a ∧ t.phase i = .succeeded ∧ t.pushed = i :: s.pushed
  unconsumed : s.holder = .stack → Walks s.heap s.head (s.entries input)
  consumed : ∀ t, Step s .consume t → ∃ p, t.holder = .consumer p ∧
    Walks t.heap p (s.entries input) ∧ t.pushed = s.pushed ∧ t.isConsumed
  sealed : s.isConsumed → ∀ t, Runs Step Unguarded s t → t.isConsumed ∧ t.pushed = s.pushed
  /-- a load or an exchange that sees the marker makes the push fail -/
  refused : ∀ i e t, e = .load i ∨ e = .cas i → Step s e t → s.isConsumed →
    (∃ p, t.phase i = .failed p) ∧ t.arg i = some (input i) ∧ t.pushed = s.pushed
  returned_false : ∀ i p, s.phase i = .failed p → s.isConsumed ∧ s.arg i = some (input i) ∧
    i ∉ s.pushed ∧ ∀ t, Runs Step Unguarded s t → ∃ p, t.phase i = .failed p
  /-- a node is deallocated at most once, and by whom -/
  releaser : ∀ i, s.released i = [] ∨ (s.released i = [.push] ∧ s.phase i = .failed .null) ∨
    (i ∈ s.pushed ∧ ((s.released i = [.consumer] ∧ s.isConsumed) ∨
      (s.released i = [.destructor] ∧ s.destroyed = true ∧ ¬ s.isConsumed)))
  /-- until then it is in the heap, and its deleter gets on -/
  in_heap : ∀ i, s.phase i ≠ .idle → s.released i = [] →
    ∃ nd, s.heap (s.cell i) = some nd ∧ nd.owner = i
  freed : ∀ a nd, s.heap a = some nd → s.released nd.owner = []
  progress : ∀ r i a, s.deleting r i = some (.node a) → ∃ t, Step s (.free r i) t
  /-- its step takes the node it has reached out of the heap and records
  itself as the one releaser; no other step records anything -/
  frees : ∀ r i t, Step s (.free r i) t → ∃ a nd, s.deleting r i = some (.node a) ∧
    s.heap a = some nd ∧ t.heap = Function.update s.heap a none ∧
    t.deleting r i = some nd.next ∧ s.released nd.owner = [] ∧
    t.released = Function.update s.released nd.owner [r]
  keeps : ∀ e t, Step s e t → (∀ r i, e ≠ .free r i) → t.released = s.released
  /-- the nodes before a deleter are counted: its steps lower the count
  and no step raises it, or moves the deleter otherwise -/
  left : ∀ r i, 0 < s.left r i ↔ ∃ a, s.deleting r i = some (.node a)
  lowered : ∀ r i t, Step s (.free r i) t → t.left r i + 1 = s.left r i
  unhindered : ∀ r i p, s.deleting r i = some p → ∀ e t, Step s e t →
    t.left r i < s.left r i ∨ (t.deleting r i = some p ∧ t.left r i = s.left r i)
  /-- so a deleter reaches the end of its list, by its own steps, and the
  stack can always be brought to the end of them all -/
  ends : ∀ r i p, s.deleting r i = some p →
    ∃ t, Runs Step (fun _ e => e = .free r i) s t ∧ t.deleting r i = some .null
  finishes : ∃ t, Runs Step Unguarded s t ∧ t.Finished
  finished : s.Finished → ∀ i, s.phase i ≠ .idle → ∃ r, s.released i = [r]

/-- The steps after the exchange of `consume`, all of them. -/
theorem Inv.sealed_run (h : Inv input s) (hm : s.head = .marker)
    (hrun : Runs Step Unguarded s t) : t.head = .marker ∧ t.pushed = s.pushed := by
  refine hrun.invariant_of (I := Inv input) (J := fun t => t.head = .marker ∧ t.pushed = s.pushed)
    (fun _ _ _ hi _ hst => inv_step hi hst) ?_ h ⟨hm, rfl⟩
  rintro u e v hu - ⟨hhead, hpush⟩ - hst
  obtain ⟨hhead', hpush'⟩ := consumed_step hu hst hhead
  exact ⟨hhead', hpush'.trans hpush⟩

theorem Inv.refused_step (h : Inv input s) (hst : Step s e t) (he : e = .load i ∨ e = .cas i)
    (hm : s.head = .marker) : ∃ p, t.phase i = .failed p := by
  cases hst with
  | @load j a hj =>
    obtain rfl : j = i := by simpa using he
    exact ⟨.node a, by simp [load_phase, hm]⟩
  | @cas j a nd hj hnd =>
    obtain rfl : j = i := by simpa using he
    have hne : s.head ≠ nd.next := by
      rw [hm]
      exact (h.next_ne_marker hj hnd).symm
    exact ⟨.node a, by simp only [cas_phase hj, if_neg hne, if_pos hm, if_true]⟩
  | begin | consume | destroy | free => simp at he

theorem Inv.exchanged_step (hst : Step s e t) : t.pushed = s.pushed ∨ ∃ i a, e = .cas i ∧
    s.phase i = .linking a ∧ t.head = .node a ∧ t.phase i = .succeeded ∧
      t.pushed = i :: s.pushed := by
  cases hst with
  | begin | consume => exact .inl rfl
  | load | free => simp
  | @cas i a nd hi hnd =>
    obtain ⟨heq, hhead, hpush⟩ | ⟨-, -, hpush⟩ :=
      cas_frame (s := s) (i := i) (a := a) (q := nd.next)
    · exact .inr ⟨i, a, rfl, hi, hhead, by simp [cas_phase hi, heq], hpush⟩
    · exact .inl hpush
  | destroy =>
    unfold State.destroy
    split <;> exact .inl rfl

/-- **`once_consumable_stack` is linearizable**, as a stack that is
consumed once, under any interleaving of any number of pushes. -/
theorem linearizable (h : Reachable input s) : Linearized input s := by
  have hinv := h.inv
  refine ⟨?_, hinv.succeeded, hinv.nodup, fun _ _ => Inv.exchanged_step, hinv.walks_head,
    ?_, ?_, ?_, ?_, ?_, fun _ => hinv.in_heap, fun a nd hnd => (hinv.owned a nd hnd).2.2, ?_, ?_,
    fun _ _ => Step.released, fun _ _ => hinv.left_pos, ?_, fun _ _ _ hp _ _ hst =>
    hinv.left_step hst hp, fun _ _ _ => hinv.left_run, h.finishes, fun hfin _ => hinv.finished hfin⟩
  · intro hlive
    refine ⟨s.object input, hinv.shows hlive, fun e t hst hlive' => ?_⟩
    exact ⟨t.object input, (inv_step hinv hst).shows hlive', effect_step hinv hst hlive'⟩
  · intro t hst
    cases hst with
    | consume _ honce =>
      have hm : s.head ≠ .marker := fun hm => by
        obtain ⟨p, hp⟩ := hinv.marker.mp hm
        rw [honce] at hp
        cases hp
      refine ⟨s.head, by simp [State.consume, hm], hinv.walks_head honce, rfl, ?_⟩
      simp [State.consume, State.isConsumed]
  · intro hm t hrun
    obtain ⟨hhead, hpush⟩ := hinv.sealed_run (by simpa [State.isConsumed] using hm) hrun
    exact ⟨by simp [State.isConsumed, hhead], hpush⟩
  · intro i e t he hst hm
    have hm' : s.head = .marker := by simpa [State.isConsumed] using hm
    obtain ⟨p, hp⟩ := hinv.refused_step hst he hm'
    exact ⟨⟨p, hp⟩, ((inv_step hinv hst).failed i p hp).2.1, (consumed_step hinv hst hm').2⟩
  · intro i p hp
    obtain ⟨hm, harg, -⟩ := hinv.failed i p hp
    refine ⟨by simp [State.isConsumed, hm], harg, fun hmem => ?_, fun t hrun => ?_⟩
    · rw [(hinv.succeeded i).mpr hmem] at hp
      cases hp
    · exact hrun.invariant (I := fun t => ∃ p, t.phase i = .failed p)
        (fun _ _ _ hi _ hst => (settled_step hst).2 hi) ⟨p, hp⟩
  · intro i
    obtain hrel | hrel | ⟨hmem, hrel⟩ := hinv.releaser i
    · exact .inl hrel
    · exact .inr (.inl hrel)
    · cases hh : s.holder with
      | stack => exact .inl (by simpa [hh, Holder.releasers] using hrel)
      | consumer p =>
        refine .inr (.inr ⟨hmem, .inl ⟨by simpa [hh, Holder.releasers] using hrel, ?_⟩⟩)
        simp [State.isConsumed, hinv.marker.mpr ⟨p, hh⟩]
      | destructor p =>
        refine .inr (.inr ⟨hmem, .inr ⟨by simpa [hh, Holder.releasers] using hrel,
          hinv.destroyed p hh, ?_⟩⟩)
        simp [State.isConsumed, hinv.marker, hh]
  · intro r i a hp
    obtain ⟨nd, hnd⟩ := hinv.deleting hp
    exact ⟨_, .free hp hnd⟩
  · intro r i t hst
    cases hst with
    | @free _ _ a nd hp hnd =>
      obtain ⟨hheap, hnext, hnone, hrel⟩ := hinv.free_spec (r := r) (i := i) hnd
      exact ⟨a, nd, hp, hnd, hheap, hnext, hnone, hrel⟩
  · intro r i t hst
    cases hst with
    | free hp hnd => exact hinv.left_free hp hnd

/-- A push that wins against `consume` and one that loses to it. Both
nodes are deallocated, by the push that lost and by the consumer's list,
and the stack is destroyed. -/
theorem linearizable_of_race : ∃ s : State ℕ ℕ, s.pushed = [0] ∧ s.phase 1 = .failed .null ∧
    s.released 0 = [.consumer] ∧ s.released 1 = [.push] ∧ s.Finished ∧
      Linearized (fun i => 10 * i) s := by
  have h₀ : Reachable (fun i => 10 * i) (init fun i => 10 * i : State ℕ ℕ) := .refl _
  have h₁ := h₀.tail trivial (.begin (i := 0) (a := 0) rfl rfl rfl)
  have h₂ := h₁.tail trivial (.load (i := 0) (a := 0) rfl)
  have h₃ := h₂.tail trivial (.cas (i := 0) (a := 0) rfl rfl)
  have h₄ := h₃.tail trivial (.begin (i := 1) (a := 1) rfl rfl rfl)
  have h₅ := h₄.tail trivial (.load (i := 1) (a := 1) rfl)
  have h₆ := h₅.tail trivial (.consume rfl rfl)
  have h₇ := h₆.tail trivial (.cas (i := 1) (a := 1) rfl rfl)
  have h₈ := h₇.tail trivial (.free (r := .push) (i := 1) (a := 1) rfl rfl)
  have h₉ := h₈.tail trivial (.free (r := .consumer) (i := 0) (a := 0) rfl rfl)
  have h₁₀ := h₉.tail trivial (.destroy rfl fun i hi => by
    match i with
    | 0 | 1 | _ + 2 => exact hi)
  have hquiet := Inv.quiet (Reachable.inv h₁₀) rfl
  exact ⟨_, rfl, rfl, rfl, rfl, ⟨rfl, hquiet, .inr rfl⟩, linearizable h₁₀⟩

end Stack

end PortableConcurrency
