import PortableConcurrency.Stack.Linearizable

/-!
# The push loop of the stack

A compare-exchange of `push` fails only if another push has succeeded, or
the stack was consumed, since this push last read the head. So the loop of
a push turns once for each of them, and once more at most, whatever the
schedule is.

The pointer comparison cannot be deceived. Addresses are reused, but no
node leaves the list before the stack is consumed, so the head that was
read comes back to no push: an exchange succeeds if and only if nobody has
changed the head since.
-/

namespace PortableConcurrency

namespace Stack

/-! ## The accesses to the head -/

/-- An access to `head_`, with what came of it. -/
inductive Access (Op : Type*)
  /-- the load of `push` -/
  | load (i : Op)
  /-- a compare-exchange that fails, and reads the head -/
  | failed (i : Op)
  /-- one that succeeds -/
  | linked (i : Op)
  /-- the exchange of `consume` -/
  | consumed
  deriving DecidableEq, Repr

namespace Access

variable {Op : Type*} [DecidableEq Op]

/-- `push` number `i` makes it. -/
def By (i : Op) : Access Op → Bool
  | load j => j = i
  | failed j => j = i
  | linked j => j = i
  | consumed => false

/-- `push` number `i` reads the head with it, into `node->next`. -/
def reads (i : Op) : Access Op → Bool
  | load j => j = i
  | failed j => j = i
  | _ => false

/-- It is a `compare_exchange_strong` of `push` number `i`. -/
def attempts (i : Op) : Access Op → Bool
  | failed j => j = i
  | linked j => j = i
  | _ => false

/-- It completes a push or the `consume`, and changes the head. -/
def completes : Access Op → Bool
  | linked _ => true
  | consumed => true
  | _ => false

/-- It completes an operation other than `push` number `i`. -/
def interferes (i : Op) (x : Access Op) : Bool := x.completes && !x.By i

end Access

variable {Op T : Type*} [DecidableEq Op] {input : Op → T} {s t : State Op T}
variable {i j : Op} {a : ℕ} {p q : Ptr} {e : Event Op} {x : Access Op} {log : List (Access Op)}
variable {nd : Node Op T}

/-- `node->next` of a push in its loop, the expected value. -/
def State.expected (s : State Op T) (i : Op) : Option Ptr :=
  match s.phase i with
  | .linking a => (s.heap a).map Node.next
  | _ => none

/-- The access to the head that a step makes, if any. -/
def State.access (s : State Op T) : Event Op → Option (Access Op)
  | .load i => some (.load i)
  | .cas i => if s.expected i = some s.head then some (.linked i) else some (.failed i)
  | .consume => some .consumed
  | _ => none

/-- **A run with all accesses to the head**, latest first. -/
inductive Recorded (input : Op → T) : State Op T → List (Access Op) → Prop
  | init : Recorded input (init input) []
  | step {s t : State Op T} {e : Event Op} {log : List (Access Op)} (h : Recorded input s log)
      (hst : Step s e t) : Recorded input t ((s.access e).toList ++ log)

/-- `log = l₂ ++ r :: l₁`, where `r` is the latest read of push `i`, so
that `l₂` is what has happened since. -/
def Since (i : Op) (log l₂ : List (Access Op)) : Prop :=
  ∃ r l₁, log = l₂ ++ r :: l₁ ∧ r.reads i = true ∧ ∀ x ∈ l₂, x.By i = false

theorem Recorded.reachable (h : Recorded input s log) : Reachable input s := by
  induction h with
  | init => exact .refl _
  | step _ hst ih => exact ih.tail trivial hst

/-- Every run has its record. -/
theorem Reachable.recorded (h : Reachable input s) : ∃ log, Recorded input s log := by
  induction h with
  | refl => exact ⟨[], .init⟩
  | tail _ _ hst ih =>
    obtain ⟨log, hrec⟩ := ih
    exact ⟨_, hrec.step hst⟩

/-- A part of a record is the record of a part of the run. -/
theorem Recorded.split (h : Recorded input s log) {l₂ l₁ : List (Access Op)}
    (hl : log = l₂ ++ x :: l₁) :
    ∃ s₀ e s₁, Recorded input s₀ l₁ ∧ Step s₀ e s₁ ∧ s₀.access e = some x := by
  induction h generalizing l₂ with
  | init => simp at hl
  | @step s t e log h hst ih =>
    cases hx : s.access e with
    | none =>
      rw [hx] at hl
      exact ih hl
    | some y =>
      rw [hx] at hl
      cases l₂ with
      | nil =>
        obtain ⟨rfl, rfl⟩ : y = x ∧ log = l₁ := by simpa using hl
        exact ⟨s, e, t, h, hst, hx⟩
      | cons z l₂ =>
        obtain ⟨-, htail⟩ : y = z ∧ log = l₂ ++ x :: l₁ := by simpa using hl
        exact ih htail

/-! ## What a step does to the head -/

omit [DecidableEq Op] in
/-- The expected value of a push, once its node is known. -/
theorem expected_eq (hi : s.phase i = .linking a) (hnd : s.heap a = some nd) :
    s.expected i = some nd.next := by
  simp [State.expected, hi, hnd]

/-- **Only completions change the head.** -/
theorem Step.head (hst : Step s e t) (hx : ∀ x, s.access e = some x → x.completes = false) :
    t.head = s.head := by
  cases hst with
  | begin => rfl
  | load => exact load_frame.1
  | @cas i a nd hi hnd =>
    rcases cas_frame (s := s) (i := i) (a := a) (q := nd.next) with ⟨heq, -⟩ | ⟨-, hhead, -⟩
    · have := hx (.linked i) (by simp [State.access, expected_eq hi hnd, heq])
      cases this
    · exact hhead
  | consume => exact absurd (hx .consumed rfl) (by simp [Access.completes])
  | destroy =>
    unfold State.destroy
    split <;> rfl
  | free => exact free_frame.1

/-- What the head is after a completion. -/
theorem Step.completes (hst : Step s e t) (hx : s.access e = some x) (hc : x.completes = true) :
    (x = .consumed ∧ t.head = .marker) ∨
      ∃ j a, x = .linked j ∧ s.phase j = .linking a ∧ t.head = .node a := by
  cases hst with
  | begin | destroy | free => cases hx
  | load =>
    cases hx
    cases hc
  | @cas i a nd hi hnd =>
    simp only [State.access, expected_eq hi hnd, Option.some.injEq] at hx
    split at hx
    · cases hx
      rename_i heq
      exact .inr ⟨i, a, rfl, hi, by simp [State.cas, heq]⟩
    · cases hx
      cases hc
  | consume =>
    cases hx
    exact .inl ⟨rfl, rfl⟩

/-- **A push in its loop sees nothing of the other steps.** -/
theorem Step.linking_frame (h : Inv input s) (hst : Step s e t) (hi : s.phase i = .linking a)
    (he : e ≠ .cas i) : t.phase i = .linking a ∧ t.heap a = s.heap a := by
  obtain ⟨-, ⟨q, -, hheap⟩, -⟩ := h.linking i a hi
  -- the nodes of two pushes are different
  have hother : ∀ {b : ℕ} {nd : Node Op T}, s.heap b = some nd → nd.owner ≠ i → a ≠ b := by
    rintro b nd hb hne rfl
    rw [hheap] at hb
    cases hb
    exact hne rfl
  cases hst with
  | @begin j b hlive hj hfree =>
    have hji : i ≠ j := by
      rintro rfl
      simp [hi] at hj
    have hba : a ≠ b := by
      rintro rfl
      simp [hheap] at hfree
    simp [State.allocate, hji, hba, hi]
  | @load j b hj =>
    have hji : i ≠ j := by
      rintro rfl
      simp [hi] at hj
    have hba := hother (h.allocated j b hj).2.1 (Ne.symm hji)
    refine ⟨by rw [load_phase, if_neg hji, hi], ?_⟩
    unfold State.load
    split <;> simp [State.giveBack, State.setNext, State.setPhase, hba]
  | @cas j b nd hj hnd =>
    have hji : i ≠ j := fun heq => he (by rw [heq])
    obtain ⟨-, ⟨q', -, hb⟩, -⟩ := h.linking j b hj
    have hba := hother hb (Ne.symm hji)
    refine ⟨by rw [cas_phase hj, if_neg hji, hi], ?_⟩
    unfold State.cas
    split_ifs <;> simp [State.giveBack, State.setNext, State.setPhase, hba]
  | consume => exact ⟨hi, rfl⟩
  | destroy =>
    unfold State.destroy
    split <;> exact ⟨hi, rfl⟩
  | @free r j b nd hp hnd =>
    have hphase : (s.free r j b nd).phase i = .linking a := by
      rw [free_phase, if_neg, hi]
      rintro ⟨rfl, rfl⟩
      simp [State.deleting, hi] at hp
    obtain ⟨-, ⟨q', -, hafter⟩, -⟩ := (h.free hp hnd).linking i a hphase
    have hba : a ≠ b := by
      rintro rfl
      cases r <;> simp [State.free, State.setPhase] at hafter
    refine ⟨hphase, ?_⟩
    cases r <;> simp [State.free, State.setPhase, hba]

/-- Whoever is in its loop after a step was there before, or has just
loaded the head. -/
theorem Step.linking_back (hst : Step s e t) (hi : t.phase i = .linking a) :
    s.phase i = .linking a ∨ (e = .load i ∧ s.phase i = .allocated a ∧ s.head ≠ .marker) := by
  cases hst with
  | @begin j b =>
    by_cases hij : i = j
    · simp [State.allocate, hij] at hi
    · exact .inl (by simpa [State.allocate, hij] using hi)
  | @load j b hj =>
    rw [load_phase] at hi
    split_ifs at hi with hij hm
    · obtain ⟨rfl, rfl⟩ : i = j ∧ b = a := ⟨hij, by simpa using hi⟩
      exact .inr ⟨rfl, hj, hm⟩
    · exact .inl hi
  | @cas j b nd hj hnd =>
    rw [cas_phase hj] at hi
    split_ifs at hi with hij
    · obtain ⟨rfl, rfl⟩ : i = j ∧ b = a := ⟨hij, by simpa using hi⟩
      exact .inl hj
    · exact .inl hi
  | consume => exact .inl hi
  | destroy =>
    unfold State.destroy at hi
    split at hi <;> exact .inl hi
  | @free r j b nd =>
    rw [free_phase] at hi
    split_ifs at hi
    exact .inl hi

/-- **A push that goes on has stored the head it read.** -/
theorem Step.reads (h : Inv input s) (hst : Step s e t) (he : e = .load i ∨ e = .cas i)
    (hi : t.phase i = .linking a) :
    t.head = s.head ∧ (∃ nd, t.heap a = some nd ∧ nd.next = t.head) ∧
      ∃ x, s.access e = some x ∧ x.reads i = true := by
  rcases he with rfl | rfl
  · cases hst with
    | @load _ b hj =>
      have hm : s.head ≠ .marker := fun hm => by simp [load_phase, hm] at hi
      obtain rfl : b = a := by simpa [load_phase, hm] using hi
      obtain ⟨-, hheap, -⟩ := h.allocated i b hj
      refine ⟨load_frame.1, ⟨⟨some (input i), s.head, i⟩, ?_, ?_⟩, .load i, rfl, ?_⟩
      · simp [State.load, hm, State.setNext, State.setPhase, hheap]
      · exact load_frame.1.symm
      · simp [Access.reads]
  · cases hst with
    | @cas _ b nd hj hnd =>
      have hq : s.head ≠ nd.next := fun hq => by simp [cas_phase hj, hq] at hi
      have hm : s.head ≠ .marker := fun hm => by
        simp [cas_phase hj, hm, hm ▸ hq] at hi
      obtain rfl : b = a := by simpa [cas_phase hj, hq, hm] using hi
      have hcas : s.cas i b nd.next = s.setNext b s.head := by simp [State.cas, hq, hm]
      refine ⟨by rw [hcas]; rfl, ⟨{ nd with next := s.head }, ?_, ?_⟩, .failed i, ?_, ?_⟩
      · simp [hcas, State.setNext, hnd]
      · rw [hcas]
        rfl
      · simp only [State.access, expected_eq hj hnd, Option.some.injEq]
        exact if_neg fun heq => hq heq.symm
      · simp [Access.reads]

/-! ## What has happened since -/

omit [DecidableEq Op] in
/-- While the stack has not been consumed, its head is null or the node of
a push that has succeeded. -/
theorem Inv.head_published (h : Inv input s) (hlive : s.destroyed = false)
    (hm : s.head ≠ .marker) : s.head = .null ∨ ∃ k ∈ s.pushed, s.head = .node (s.cell k) := by
  have hhold := h.holder_eq hlive hm
  obtain ⟨gone, rest, hpushed, hchain, -, -, hgone⟩ := h.list
  rw [hgone hhold, List.nil_append] at hpushed
  subst hpushed
  simp only [State.listHead, hhold] at hchain
  cases hp : s.pushed with
  | nil =>
    rw [hp] at hchain
    exact .inl hchain
  | cons k l =>
    rw [hp] at hchain
    exact .inr ⟨k, List.mem_cons_self, hchain.1⟩

/-- **The pushes in their loops**: what each expects, what has happened
since it read that, and how often it has tried. -/
structure Watched (s : State Op T) (log : List (Access Op)) : Prop where
  /-- it expects null or a node that was published -/
  published : ∀ i a nd, s.phase i = .linking a → s.heap a = some nd → s.head ≠ .marker →
    nd.next = .null ∨ ∃ k ∈ s.pushed, nd.next = .node (s.cell k)
  /-- it will succeed if and only if nobody has changed the head since -/
  since : ∀ i a nd, s.phase i = .linking a → s.heap a = some nd →
    ∃ l₂, Since i log l₂ ∧ (nd.next = s.head ↔ ∀ x ∈ l₂, x.completes = false)
  /-- each failed attempt was somebody else's success -/
  tried : ∀ i a nd, s.phase i = .linking a → s.heap a = some nd → ∀ l₂ l₁,
    log = l₂ ++ .load i :: l₁ →
    l₂.countP (Access.attempts i) + (if nd.next = s.head then 0 else 1) ≤
      l₂.countP (Access.interferes i)
  /-- it has not read the head before -/
  unread : ∀ i, (s.phase i = .idle ∨ ∃ a, s.phase i = .allocated a) → ∀ x ∈ log, x.By i = false
  /-- and the pushes that are over -/
  ended : ∀ i, ((∃ p, s.phase i = .failed p) ∨ s.phase i = .succeeded) → ∀ l₂ l₁,
    log = l₂ ++ .load i :: l₁ →
    l₂.countP (Access.attempts i) ≤ l₂.countP (Access.interferes i) + 1

omit [DecidableEq Op] in
/-- The node of a push in its loop is not in the list. -/
theorem Inv.unpublished (h : Inv input s) (hm : s.head ≠ .marker) {k : Op} (hk : k ∈ s.pushed)
    (hi : s.phase i = .linking a) : s.cell k ≠ a := by
  obtain ⟨-, ⟨q, -, hheap⟩, -⟩ := h.linking i a hi
  have hhold := h.holder_eq (h.live (i := i) (by simp [hi, Phase.Running])) hm
  obtain ⟨gone, rest, hpushed, hchain, -, -, hgone⟩ := h.list
  have hrest : k ∈ rest := by
    rw [hpushed, hgone hhold] at hk
    exact hk
  exact h.not_mem_chain hheap (by simp [hi]) hpushed hchain k hrest

/-- Who makes an access. -/
theorem access_by (hx : s.access e = some x) (hby : x.By i = true) : e = .load i ∨ e = .cas i := by
  cases e with
  | load j =>
    cases hx
    exact .inl (by simpa [Access.By] using hby)
  | cas j =>
    refine .inr ?_
    simp only [State.access] at hx
    split at hx <;> cases hx <;> simpa [Access.By] using hby
  | consume =>
    cases hx
    cases hby
  | begin | destroy | free => cases hx

/-- **A completion is seen by every push in its loop**: the new head is not
what the push expects. -/
theorem Watched.expects_other (hw : Watched s log) (h : Inv input s) (hst : Step s e t)
    (hx : s.access e = some x) (hc : x.completes = true) (hby : x.By i = false)
    (hi : s.phase i = .linking a) (hnd : s.heap a = some nd) : nd.next ≠ t.head := by
  rcases hst.completes hx hc with ⟨-, hhead⟩ | ⟨j, b, rfl, hj, hhead⟩
  · rw [hhead]
    exact h.next_ne_marker hi hnd
  · rw [hhead]
    obtain ⟨-, ⟨q, hq, hheap⟩, -⟩ := h.linking j b hj
    -- the exchange of `j` has found the head it expected, which is not the marker
    have hm : s.head ≠ .marker := by
      rcases access_by (i := j) hx (by simp [Access.By]) with rfl | rfl
      · cases hx
      · simp only [State.access, expected_eq hj hheap, Option.some.injEq] at hx
        split at hx <;> cases hx
        rename_i heq
        rw [← heq]
        exact hq
    rcases hw.published i a nd hi hnd hm with hnull | ⟨k, hk, hnode⟩
    · simp [hnull]
    · rw [hnode]
      intro heq
      exact h.unpublished hm hk hj (by simpa using heq)

theorem Watched.since_step (hw : Watched s log) (h : Inv input s) (hst : Step s e t)
    (hi : t.phase i = .linking a) (hnd : t.heap a = some nd) :
    ∃ l₂, Since i ((s.access e).toList ++ log) l₂ ∧
      (nd.next = t.head ↔ ∀ x ∈ l₂, x.completes = false) := by
  by_cases he : e = .load i ∨ e = .cas i
  · obtain ⟨hhead, ⟨nd', hnd', hnext⟩, x, hx, hr⟩ := hst.reads h he hi
    obtain rfl := Option.some.inj (hnd.symm.trans hnd')
    refine ⟨[], ⟨x, log, by simp [hx], hr, by simp⟩, iff_of_true hnext (by simp)⟩
  obtain ⟨hload, hcas⟩ := not_or.mp he
  have hi₀ := (hst.linking_back hi).resolve_right fun hl => hload hl.1
  have hnd₀ : s.heap a = some nd := by rw [← (hst.linking_frame h hi₀ hcas).2, hnd]
  obtain ⟨l₂, ⟨r, l₁, hlog, hr, hno⟩, hiff⟩ := hw.since i a nd hi₀ hnd₀
  cases hx : s.access e with
  | none =>
    refine ⟨l₂, ⟨r, l₁, hlog, hr, hno⟩, ?_⟩
    rw [hst.head (by simp [hx])]
    exact hiff
  | some x =>
    have hby : x.By i = false := by
      by_contra hby
      exact he (access_by hx (by simpa using hby))
    refine ⟨x :: l₂, ⟨r, l₁, by simp [hlog], hr, by simpa [hby] using hno⟩, ?_⟩
    cases hc : x.completes with
    | false =>
      have hhead := hst.head fun y hy => by
        obtain rfl := Option.some.inj (hx.symm.trans hy)
        exact hc
      simp [hhead, hiff, hc]
    | true =>
      exact iff_of_false (hw.expects_other h hst hx hc hby hi₀ hnd₀) (by simp [hc])

/-- The node of a push is where it was allocated. -/
theorem Step.cell (hst : Step s e t) (he : ∀ a, e ≠ .begin i a) : t.cell i = s.cell i := by
  cases hst with
  | @begin j b =>
    have hij : i ≠ j := fun heq => he b (by rw [heq])
    simp [State.allocate, hij]
  | load =>
    unfold State.load
    split <;> rfl
  | cas =>
    unfold State.cas
    split_ifs <;> rfl
  | consume => rfl
  | destroy =>
    unfold State.destroy
    split <;> rfl
  | @free r => cases r <;> rfl

theorem Watched.published_step (hw : Watched s log) (h : Inv input s) (hst : Step s e t)
    (hi : t.phase i = .linking a) (hnd : t.heap a = some nd) (hm : t.head ≠ .marker) :
    nd.next = .null ∨ ∃ k ∈ t.pushed, nd.next = .node (t.cell k) := by
  have ht := inv_step h hst
  by_cases he : e = .load i ∨ e = .cas i
  · obtain ⟨-, ⟨nd', hnd', hnext⟩, -⟩ := hst.reads h he hi
    obtain rfl := Option.some.inj (hnd.symm.trans hnd')
    rw [hnext]
    exact ht.head_published (ht.live (i := i) (by simp [hi, Phase.Running])) hm
  obtain ⟨hload, hcas⟩ := not_or.mp he
  have hi₀ := (hst.linking_back hi).resolve_right fun hl => hload hl.1
  have hnd₀ : s.heap a = some nd := by rw [← (hst.linking_frame h hi₀ hcas).2, hnd]
  have hm₀ : s.head ≠ .marker := fun hm₀ => hm (consumed_step h hst hm₀).1
  rcases hw.published i a nd hi₀ hnd₀ hm₀ with hnull | ⟨k, hk, hnode⟩
  · exact .inl hnull
  refine .inr ⟨k, ?_, ?_⟩
  · rcases Inv.exchanged_step hst with hp | ⟨j, b, -, -, -, -, hp⟩
    · rw [hp]
      exact hk
    · rw [hp]
      exact List.mem_cons_of_mem _ hk
  · rw [hnode, hst.cell]
    rintro b rfl
    -- it is not called twice
    cases hst with
    | begin _ hidle => simp [(h.succeeded k).mpr hk] at hidle

/-- A push that is over was over, unless this step ends it. -/
theorem Step.over_back (hst : Step s e t) (he : e ≠ .load i ∧ e ≠ .cas i)
    (hi : (∃ p, t.phase i = .failed p) ∨ t.phase i = .succeeded) :
    (∃ p, s.phase i = .failed p) ∨ s.phase i = .succeeded := by
  cases hst with
  | @begin j b =>
    by_cases hij : i = j
    · simp [State.allocate, hij] at hi
    · simpa [State.allocate, hij] using hi
  | @load j b hj =>
    have hij : i ≠ j := fun heq => he.1 (by rw [heq])
    simpa [load_phase, hij] using hi
  | @cas j b nd hj =>
    have hij : i ≠ j := fun heq => he.2 (by rw [heq])
    simpa [cas_phase hj, hij] using hi
  | consume => exact hi
  | destroy =>
    unfold State.destroy at hi
    split at hi <;> exact hi
  | @free r j b nd hp =>
    simp only [free_phase] at hi
    split_ifs at hi with hij
    · obtain ⟨rfl, rfl⟩ := hij
      refine .inl ⟨.node b, ?_⟩
      simp only [State.deleting] at hp
      split at hp
      · cases hp
        assumption
      · cases hp
    · exact hi

/-- Who has not read the head had not before. -/
theorem Step.unread_back (hst : Step s e t)
    (hi : t.phase i = .idle ∨ ∃ a, t.phase i = .allocated a) :
    (s.phase i = .idle ∨ ∃ a, s.phase i = .allocated a) ∧ e ≠ .load i ∧ e ≠ .cas i := by
  cases hst with
  | @begin j b hlive hj =>
    refine ⟨?_, by simp, by simp⟩
    by_cases hij : i = j
    · exact .inl (hij ▸ hj)
    · simpa [State.allocate, hij] using hi
  | @load j b hj =>
    by_cases hij : i = j
    · simp only [load_phase, hij, if_true] at hi
      split_ifs at hi <;> simp at hi
    · refine ⟨by simpa [load_phase, hij] using hi, ?_, by simp⟩
      simpa using Ne.symm hij
  | @cas j b nd hj =>
    by_cases hij : i = j
    · simp only [cas_phase hj, hij, if_true] at hi
      split_ifs at hi <;> simp at hi
    · refine ⟨by simpa [cas_phase hj, hij] using hi, by simp, ?_⟩
      simpa using Ne.symm hij
  | consume => exact ⟨hi, by simp, by simp⟩
  | destroy =>
    unfold State.destroy at hi
    split at hi <;> exact ⟨hi, by simp, by simp⟩
  | @free r j b nd =>
    simp only [free_phase] at hi
    split_ifs at hi
    · simp at hi
    · exact ⟨hi, by simp, by simp⟩

theorem Watched.unread_step (hw : Watched s log) (hst : Step s e t)
    (hi : t.phase i = .idle ∨ ∃ a, t.phase i = .allocated a) :
    ∀ x ∈ (s.access e).toList ++ log, x.By i = false := by
  obtain ⟨hi₀, hload, hcas⟩ := hst.unread_back hi
  intro x hx
  rcases List.mem_append.mp hx with hx | hx
  · by_contra hby
    rcases access_by (Option.mem_toList.mp hx) (by simpa using hby) with he | he
    · exact hload he
    · exact hcas he
  · exact hw.unread i hi₀ x hx

/-- The load of a push is the first access it makes. -/
theorem Watched.not_loaded (hw : Watched s log) (hi : s.phase i = .allocated a)
    {l₂ l₁ : List (Access Op)} : log ≠ l₂ ++ .load i :: l₁ := by
  rintro rfl
  have := hw.unread i (.inr ⟨a, hi⟩) (.load i) (by simp)
  simp [Access.By] at this

omit [DecidableEq Op] in
/-- What comes before the load of a push in a longer record. -/
theorem split_cons {y : Access Op} {l₂ l₁ : List (Access Op)} (hy : y ≠ .load i)
    (hlog : y :: log = l₂ ++ .load i :: l₁) : ∃ l, l₂ = y :: l ∧ log = l ++ .load i :: l₁ := by
  cases l₂ with
  | nil => exact absurd (List.cons.inj hlog).1 hy
  | cons z l =>
    obtain ⟨rfl, htail⟩ := List.cons.inj hlog
    exact ⟨l, rfl, htail⟩

theorem Watched.tried_step (hw : Watched s log) (h : Inv input s) (hst : Step s e t)
    (hi : t.phase i = .linking a) (hnd : t.heap a = some nd) (l₂ l₁ : List (Access Op))
    (hlog : (s.access e).toList ++ log = l₂ ++ .load i :: l₁) :
    l₂.countP (Access.attempts i) + (if nd.next = t.head then 0 else 1) ≤
      l₂.countP (Access.interferes i) := by
  by_cases he : e = .load i ∨ e = .cas i
  · obtain ⟨-, ⟨nd', hnd', hnext⟩, -⟩ := hst.reads h he hi
    obtain rfl := Option.some.inj (hnd.symm.trans hnd')
    rw [if_pos hnext]
    rcases he with rfl | rfl
    · cases hst with
      | load hj =>
        cases l₂ with
        | nil => simp
        | cons y l₂ => exact absurd (List.cons.inj hlog).2 (hw.not_loaded hj)
    · cases hst with
      | @cas _ b nd₀ hj hnd₀ =>
        -- it has failed, so somebody has interfered
        have hne : nd₀.next ≠ s.head := fun heq => by simp [cas_phase hj, heq] at hi
        have hfail : s.access (.cas i) = some (.failed i) := by
          simp [State.access, expected_eq hj hnd₀, hne]
        rw [hfail] at hlog
        obtain ⟨l, rfl, hrest⟩ := split_cons (by simp) hlog
        have hold := hw.tried i b nd₀ hj hnd₀ l l₁ hrest
        rw [if_neg hne] at hold
        simp only [List.countP_cons, Access.attempts, Access.interferes, Access.completes,
          decide_true, if_true, Bool.false_and, Bool.false_eq_true, if_false]
        omega
  obtain ⟨hload, hcas⟩ := not_or.mp he
  have hi₀ := (hst.linking_back hi).resolve_right fun hl => hload hl.1
  have hnd₀ : s.heap a = some nd := by rw [← (hst.linking_frame h hi₀ hcas).2, hnd]
  cases hx : s.access e with
  | none =>
    rw [hx] at hlog
    rw [hst.head (by simp [hx])]
    exact hw.tried i a nd hi₀ hnd₀ l₂ l₁ hlog
  | some x =>
    have hby : x.By i = false := by
      by_contra hby
      exact he (access_by hx (by simpa using hby))
    rw [hx] at hlog
    obtain ⟨l, rfl, hrest⟩ := split_cons (by rintro rfl; simp [Access.By] at hby) hlog
    have hold := hw.tried i a nd hi₀ hnd₀ l l₁ hrest
    have hquiet : x.attempts i = false := by
      cases x <;> simp_all [Access.attempts, Access.By]
    cases hc : x.completes with
    | false =>
      have hhead := hst.head fun y hy => by
        obtain rfl := Option.some.inj (hx.symm.trans hy)
        exact hc
      simpa [List.countP_cons, hquiet, Access.interferes, hc, hhead] using hold
    | true =>
      have hrival : x.interferes i = true := by simp [Access.interferes, hc, hby]
      simp only [List.countP_cons, hquiet, hrival, Bool.false_eq_true, if_true, if_false]
      split_ifs at hold ⊢ <;> omega

theorem Watched.over_step (hw : Watched s log) (hst : Step s e t)
    (hi : (∃ p, t.phase i = .failed p) ∨ t.phase i = .succeeded) (l₂ l₁ : List (Access Op))
    (hlog : (s.access e).toList ++ log = l₂ ++ .load i :: l₁) :
    l₂.countP (Access.attempts i) ≤ l₂.countP (Access.interferes i) + 1 := by
  by_cases he : e = .load i ∨ e = .cas i
  · rcases he with rfl | rfl
    · cases hst with
      | load hj =>
        cases l₂ with
        | nil => simp
        | cons y l₂ => exact absurd (List.cons.inj hlog).2 (hw.not_loaded hj)
    · cases hst with
      | @cas _ b nd hj hnd =>
        -- this attempt is the last
        obtain ⟨x, hx, hne, hquiet⟩ : ∃ x, s.access (.cas i) = some x ∧ x ≠ .load i ∧
            x.interferes i = false := by
          simp only [State.access]
          split
          · exact ⟨_, rfl, by simp, by simp [Access.interferes, Access.By]⟩
          · exact ⟨_, rfl, by simp, by simp [Access.interferes, Access.completes]⟩
        rw [hx] at hlog
        obtain ⟨l, rfl, hrest⟩ := split_cons hne hlog
        have hold := hw.tried i b nd hj hnd l l₁ hrest
        simp only [List.countP_cons, hquiet, Bool.false_eq_true, if_false]
        split_ifs at hold ⊢ <;> omega
  obtain ⟨hload, hcas⟩ := not_or.mp he
  have hi₀ := hst.over_back ⟨hload, hcas⟩ hi
  cases hx : s.access e with
  | none =>
    rw [hx] at hlog
    exact hw.ended i hi₀ l₂ l₁ hlog
  | some x =>
    have hby : x.By i = false := by
      by_contra hby
      exact he (access_by hx (by simpa using hby))
    rw [hx] at hlog
    obtain ⟨l, rfl, hrest⟩ := split_cons (by rintro rfl; simp [Access.By] at hby) hlog
    have hold := hw.ended i hi₀ l l₁ hrest
    have hquiet : x.attempts i = false := by
      cases x <;> simp_all [Access.attempts, Access.By]
    simp only [List.countP_cons, hquiet, Bool.false_eq_true, if_false]
    omega

theorem Watched.step (hw : Watched s log) (h : Inv input s) (hst : Step s e t) :
    Watched t ((s.access e).toList ++ log) :=
  ⟨fun _ _ _ hi hnd hm => hw.published_step h hst hi hnd hm,
    fun _ _ _ hi hnd => hw.since_step h hst hi hnd,
    fun _ _ _ hi hnd => hw.tried_step h hst hi hnd,
    fun _ hi => hw.unread_step hst hi, fun _ hi => hw.over_step hst hi⟩

theorem Recorded.watched (h : Recorded input s log) : Watched s log := by
  induction h with
  | init => constructor <;> simp [Stack.init]
  | step h hst ih => exact ih.step h.reachable.inv hst

/-! ## The law -/

/-- **The push loop.** The record is latest first. -/
structure PushLoop (input : Op → T) (s : State Op T) (log : List (Access Op)) : Prop where
  /-- since its last read, somebody else has succeeded before each failed
  exchange of a push -/
  failed : ∀ i l l', log = l' ++ .failed i :: l →
    ∃ l₂, Since i l l₂ ∧ ∃ x ∈ l₂, x.interferes i = true
  /-- and nobody before a successful one -/
  linked : ∀ i l l', log = l' ++ .linked i :: l →
    ∃ l₂, Since i l l₂ ∧ ∀ x ∈ l₂, x.completes = false
  /-- so between a read and the exchange, or with the exchange, some
  operation completes -/
  round : ∀ i x l l', log = l' ++ x :: l → x.attempts i = true →
    ∃ l₂, Since i l l₂ ∧ ∃ y ∈ x :: l₂, y.completes = true
  /-- a push tries once for each other completion since its load, and once
  more at most -/
  attempts : ∀ i l₃ l₂ l₁, log = l₃ ++ l₂ ++ .load i :: l₁ →
    l₂.countP (Access.attempts i) ≤ l₂.countP (Access.interferes i) + 1
  /-- and when it has tried more often than that it is over -/
  ended : ∀ i l₂ l₁, log = l₂ ++ .load i :: l₁ →
    l₂.countP (Access.interferes i) < l₂.countP (Access.attempts i) →
      ∀ a, s.phase i ≠ .linking a
  /-- nothing keeps it from trying -/
  goes_on : ∀ i a, s.phase i = .linking a → ∃ t, Step s (.cas i) t
  /-- what it publishes is linked to the actual head, and to all that is in
  the list -/
  published : ∀ i t, Step s (.cas i) t → t.phase i = .succeeded →
    ∃ a nd, s.phase i = .linking a ∧ s.heap a = some nd ∧ nd.next = s.head ∧
      t.head = .node a ∧ t.heap a = some nd ∧ Walks t.heap nd.next (s.entries input) ∧
      t.entries input = (i, input i) :: s.entries input

/-- What has happened since the last read of a push that now tries, and
whether it succeeds. -/
theorem Recorded.attempt (h : Recorded input s log) (hst : Step s e t) (hx : s.access e = some x)
    (hi : x.attempts i = true) :
    ∃ l₂, Since i log l₂ ∧ (x = .linked i ↔ ∀ y ∈ l₂, y.completes = false) := by
  have hby : x.By i = true := by cases x <;> simp_all [Access.attempts, Access.By]
  rcases access_by hx hby with rfl | rfl
  · cases hx
    cases hi
  · cases hst with
    | @cas _ a nd hj hnd =>
      obtain ⟨l₂, hsince, hiff⟩ := h.watched.since i a nd hj hnd
      refine ⟨l₂, hsince, ?_⟩
      rw [← hiff]
      simp only [State.access, expected_eq hj hnd, Option.some.injEq] at hx
      split at hx <;> cases hx <;> simp_all

theorem Recorded.attempts_le (h : Recorded input s log) {l₂ l₁ : List (Access Op)}
    (hlog : log = l₂ ++ .load i :: l₁) :
    l₂.countP (Access.attempts i) ≤ l₂.countP (Access.interferes i) + 1 := by
  have hw := h.watched
  have hloaded : ∀ {a}, s.phase i ≠ .idle ∧ s.phase i ≠ .allocated a := fun {a} => by
    constructor <;> intro hi
    · have := hw.unread i (.inl hi) (.load i) (by simp [hlog])
      simp [Access.By] at this
    · exact hw.not_loaded hi hlog
  cases hi : s.phase i with
  | idle => exact absurd hi (hloaded (a := 0)).1
  | allocated a => exact absurd hi hloaded.2
  | linking a =>
    obtain ⟨-, ⟨q, -, hheap⟩, -⟩ := h.reachable.inv.linking i a hi
    have := hw.tried i a _ hi hheap l₂ l₁ hlog
    split_ifs at this <;> omega
  | failed p => exact hw.ended i (.inl ⟨p, hi⟩) l₂ l₁ hlog
  | succeeded => exact hw.ended i (.inr hi) l₂ l₁ hlog

/-- The record of a part of the run that ends within `l₃`. -/
theorem Recorded.drop (h : Recorded input s log) {l₃ l : List (Access Op)}
    (hlog : log = l₃ ++ l) : ∃ s₀, Recorded input s₀ l := by
  rcases List.eq_nil_or_concat l₃ with rfl | ⟨l₃, x, rfl⟩
  · exact ⟨s, by simpa [hlog] using h⟩
  · rw [List.concat_append] at hlog
    obtain ⟨s₀, e, s₁, hrec, -⟩ := h.split hlog
    exact ⟨s₀, hrec⟩

/-- **The push loop terminates under every schedule with bounded
interference**, and is not deceived by the reuse of addresses. -/
theorem push_loop (h : Recorded input s log) : PushLoop input s log := by
  have hinv := h.reachable.inv
  have hattempt : ∀ i x l l', log = l' ++ x :: l → x.attempts i = true →
      ∃ l₂, Since i l l₂ ∧ (x = .linked i ↔ ∀ y ∈ l₂, y.completes = false) := by
    intro i x l l' hlog hx
    obtain ⟨s₀, e, s₁, hrec, hst, hacc⟩ := h.split hlog
    exact hrec.attempt hst hacc hx
  refine ⟨?_, ?_, ?_, ?_, ?_, ?_, ?_⟩
  · intro i l l' hlog
    obtain ⟨l₂, hsince, hiff⟩ := hattempt i _ l l' hlog (by simp [Access.attempts])
    refine ⟨l₂, hsince, ?_⟩
    by_contra hno
    refine absurd (hiff.mpr fun y hy => ?_) (by simp)
    obtain ⟨r, l₁, -, -, hby⟩ := hsince
    by_contra hc
    exact hno ⟨y, hy, by simp [Access.interferes, hby y hy, hc]⟩
  · intro i l l' hlog
    obtain ⟨l₂, hsince, hiff⟩ := hattempt i _ l l' hlog (by simp [Access.attempts])
    exact ⟨l₂, hsince, hiff.mp rfl⟩
  · intro i x l l' hlog hx
    obtain ⟨l₂, hsince, hiff⟩ := hattempt i x l l' hlog hx
    refine ⟨l₂, hsince, ?_⟩
    by_contra hno
    have hx' : x = .linked i := hiff.mpr fun y hy => by
      by_contra hc
      exact hno ⟨y, List.mem_cons_of_mem _ hy, by simpa using hc⟩
    exact hno ⟨x, List.mem_cons_self, by rw [hx']; rfl⟩
  · intro i l₃ l₂ l₁ hlog
    have hlog : log = l₃ ++ (l₂ ++ .load i :: l₁) := by simp [hlog]
    obtain ⟨s₀, hrec⟩ := h.drop hlog
    exact hrec.attempts_le rfl
  · intro i l₂ l₁ hlog hlt a hi
    obtain ⟨-, ⟨q, -, hheap⟩, -⟩ := hinv.linking i a hi
    have := h.watched.tried i a _ hi hheap l₂ l₁ hlog
    split_ifs at this <;> omega
  · intro i a hi
    obtain ⟨-, ⟨q, -, hheap⟩, -⟩ := hinv.linking i a hi
    exact ⟨_, .cas hi hheap⟩
  · intro i t hst hsucc
    have ht := inv_step hinv hst
    cases hst with
    | @cas _ a nd hi hnd =>
      have heq : s.head = nd.next := by
        by_contra hne
        rw [cas_phase hi, if_pos rfl, if_neg hne] at hsucc
        split_ifs at hsucc
      have hcas : s.cas i a nd.next =
          { s.setPhase i .succeeded with head := .node a, pushed := i :: s.pushed } := by
        simp [State.cas, heq]
      rw [hcas] at ht ⊢
      have hm : s.head ≠ .marker := heq ▸ hinv.next_ne_marker hi hnd
      have hhold := hinv.holder_eq (hinv.live (i := i) (by simp [hi, Phase.Running])) hm
      obtain ⟨b, q, hb, hheap, hwalks⟩ := ht.walks_head hhold
      obtain rfl : a = b := by simpa using hb
      obtain rfl := Option.some.inj (hnd.symm.trans hheap)
      exact ⟨a, _, hi, hnd, heq.symm, rfl, hnd, hwalks, rfl⟩

/-- Two pushes race with each other and with `consume`. -/
theorem push_loop_of_race : ∃ (s : State ℕ ℕ) (log : List (Access ℕ)),
    log = [.failed 1, .consumed, .failed 1, .linked 0, .load 1, .load 0] ∧
      s.phase 0 = .succeeded ∧ s.phase 1 = .failed (.node 1) ∧
        PushLoop (fun i => 10 * i) s log := by
  have h₀ : Recorded (fun i => 10 * i) (init fun i => 10 * i : State ℕ ℕ) [] := .init
  have h₁ := h₀.step (.begin (i := 0) (a := 0) rfl rfl rfl)
  have h₂ := h₁.step (.begin (i := 1) (a := 1) rfl rfl rfl)
  have h₃ := h₂.step (.load (i := 0) (a := 0) rfl)
  have h₄ := h₃.step (.load (i := 1) (a := 1) rfl)
  have h₅ := h₄.step (.cas (i := 0) (a := 0) rfl rfl)
  have h₆ := h₅.step (.cas (i := 1) (a := 1) rfl rfl)
  have h₇ := h₆.step (.consume rfl rfl)
  have h₈ := h₇.step (.cas (i := 1) (a := 1) rfl rfl)
  exact ⟨_, _, rfl, rfl, rfl, push_loop h₈⟩

end Stack

end PortableConcurrency
