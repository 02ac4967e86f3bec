import PortableConcurrency.Stack.Steps

/-!
# The once-consumable stack — where each node ends up

A node is deallocated by the push that failed, by the list the consumer
took or by the destructor's list. A deleter deallocates the node it has
reached, whose record was empty before and names the deleter after, and
`State.left` counts the nodes it still has before it: its own steps lower
the count and nobody raises it. So a deleter comes to the end of its
list, and every stack can be brought to the state in which each node has
been deallocated, once.
-/

namespace PortableConcurrency

namespace Stack

variable {Op T : Type*} [DecidableEq Op] {input : Op → T} {s t : State Op T}
variable {i : Op} {a : ℕ} {p : Ptr} {e : Event Op} {r : Releaser}

/-! ## Releasers -/

/-- Nothing is left to do: the stack is destroyed, no call of `push` is
in progress and the list of whoever took the nodes is used up. -/
def State.Finished (s : State Op T) : Prop :=
  s.destroyed = true ∧ (∀ i, ¬ (s.phase i).Running) ∧ (s.holder = .stack ∨ s.listHead = .null)

omit [DecidableEq Op] in
/-- **A node has one releaser**, named by how its call ended. -/
theorem Inv.releaser (h : Inv input s) (i : Op) :
    s.released i = [] ∨ (s.released i = [.push] ∧ s.phase i = .failed .null) ∨
      (i ∈ s.pushed ∧ s.released i = s.holder.releasers) := by
  cases hph : s.phase i with
  | idle => exact .inl (h.idle i hph).2
  | allocated a => exact .inl (h.allocated i a hph).2.2
  | linking a => exact .inl (h.linking i a hph).2.2
  | failed p =>
    obtain ⟨-, -, ⟨-, -, hrel⟩ | ⟨rfl, hrel⟩⟩ := h.failed i p hph
    · exact .inl hrel
    · exact .inr (.inl ⟨hrel, rfl⟩)
  | succeeded =>
    have hmem := (h.succeeded i).mp hph
    obtain ⟨gone, rest, hsplit, -, hrest, hgone, -⟩ := h.list
    rw [hsplit] at hmem ⊢
    rcases List.mem_append.mp hmem with hi | hi
    · exact .inr (.inr ⟨hmem, hgone i hi⟩)
    · exact .inl (hrest i hi)

omit [DecidableEq Op] in
/-- A node not yet deallocated is in the heap, where its call put it. -/
theorem Inv.in_heap (h : Inv input s) (hi : s.phase i ≠ .idle) (hrel : s.released i = []) :
    ∃ nd, s.heap (s.cell i) = some nd ∧ nd.owner = i := by
  cases hph : s.phase i with
  | idle => exact absurd hph hi
  | allocated a =>
    obtain ⟨hcell, hheap, -⟩ := h.allocated i a hph
    exact ⟨_, hcell ▸ hheap, rfl⟩
  | linking a =>
    obtain ⟨hcell, ⟨q, -, hheap⟩, -⟩ := h.linking i a hph
    exact ⟨_, hcell ▸ hheap, rfl⟩
  | failed p =>
    obtain ⟨-, -, ⟨-, hheap, -⟩ | ⟨-, hrel'⟩⟩ := h.failed i p hph
    · exact ⟨_, hheap, rfl⟩
    · rw [hrel] at hrel'
      cases hrel'
  | succeeded =>
    have hmem := (h.succeeded i).mp hph
    obtain ⟨gone, rest, hsplit, hchain, -, hgone, hstack⟩ := h.list
    rw [hsplit] at hmem
    rcases List.mem_append.mp hmem with hi' | hi'
    · -- a node that is gone from the owner's list has its releaser
      have hr := hgone i hi'
      rw [hrel] at hr
      cases hh : s.holder with
      | stack => simp [hstack hh] at hi'
      | consumer p => simp [hh, Holder.releasers] at hr
      | destructor p => simp [hh, Holder.releasers] at hr
    · obtain ⟨q, hq⟩ := hchain.heap_eq i hi'
      exact ⟨_, hq, rfl⟩

omit [DecidableEq Op] in
/-- A deleter that has reached a node finds it. -/
theorem Inv.deleting (h : Inv input s)
    (hp : s.deleting r i = some (.node a)) : ∃ nd, s.heap a = some nd := by
  obtain ⟨gone, rest, -, hchain, -, -, -⟩ := h.list
  have hhead : s.listHead = .node a → ∃ nd, s.heap a = some nd := by
    intro hh
    rw [hh] at hchain
    cases rest with
    | nil => cases hchain
    | cons j rest =>
      obtain ⟨hj, q, hq, -⟩ := hchain
      exact ⟨_, Ptr.node.inj hj ▸ hq⟩
  cases r with
  | push =>
    have hph : s.phase i = .failed (.node a) := by
      simp only [State.deleting] at hp
      grind
    obtain ⟨-, -, ⟨hcell, hheap, -⟩ | ⟨hnull, -⟩⟩ := h.failed i _ hph
    · exact ⟨_, Ptr.node.inj hcell ▸ hheap⟩
    · cases hnull
  | consumer =>
    refine hhead ?_
    simp only [State.deleting, State.listHead] at hp ⊢
    grind
  | destructor =>
    refine hhead ?_
    simp only [State.deleting, State.listHead] at hp ⊢
    grind

omit [DecidableEq Op] in
/-- **At the end every node has been deallocated**, once. -/
theorem Inv.finished (h : Inv input s) (hfin : s.Finished) (hi : s.phase i ≠ .idle) :
    ∃ r, s.released i = [r] := by
  obtain ⟨hdead, hquiet, hlist⟩ := hfin
  have hrun := hquiet i
  cases hph : s.phase i with
  | idle => exact absurd hph hi
  | allocated a => simp [hph, Phase.Running] at hrun
  | linking a => simp [hph, Phase.Running] at hrun
  | failed p =>
    obtain ⟨-, -, ⟨rfl, -, -⟩ | ⟨-, hrel⟩⟩ := h.failed i p hph
    · simp [hph, Phase.Running] at hrun
    · exact ⟨_, hrel⟩
  | succeeded =>
    have hmem := (h.succeeded i).mp hph
    obtain ⟨gone, rest, hsplit, hchain, -, hgone, -⟩ := h.list
    cases hh : s.holder with
    | stack => simp [h.emptied hdead hh] at hmem
    | consumer p | destructor p =>
      have hnull : s.listHead = .null := by simpa [hh] using hlist
      rw [hnull] at hchain
      cases rest with
      | nil =>
        have hr := hgone i (by simpa [hsplit] using hmem)
        exact ⟨_, by simpa [hh, Holder.releasers] using hr⟩
      | cons j rest => cases hchain.1

/-! ## What a deleter does -/

omit [DecidableEq Op] in
/-- Where a deleter is: in a call that failed, or in the list it owns. -/
theorem deleting_cases (hp : s.deleting r i = some p) : (r = .push ∧ s.phase i = .failed p) ∨
    (r = .consumer ∧ s.holder = .consumer p) ∨ (r = .destructor ∧ s.holder = .destructor p) := by
  cases r <;> simp only [State.deleting] at hp <;> grind

/-- The pushed nodes that nobody has deallocated yet. -/
def State.unreleased (s : State Op T) : List Op := s.pushed.filter fun i => s.released i = []

omit [DecidableEq Op] in
/-- They are the ones that hang from the owner's pointer. -/
theorem Inv.chain_unreleased (h : Inv input s) (hhold : s.holder ≠ .stack) :
    Chain input s.cell s.heap s.listHead s.unreleased := by
  obtain ⟨gone, rest, hsplit, hchain, hrest, hgone, -⟩ := h.list
  have hne : s.holder.releasers ≠ [] := by
    cases hh : s.holder with
    | stack => exact absurd hh hhold
    | consumer p | destructor p => simp [Holder.releasers]
  have hnone : gone.filter (fun i => s.released i = []) = [] := by
    simpa [List.filter_eq_nil_iff] using fun i hi => (hgone i hi).trans_ne hne
  have hall : rest.filter (fun i => s.released i = []) = rest := by
    simpa [List.filter_eq_self] using hrest
  rwa [State.unreleased, hsplit, List.filter_append, hnone, hall, List.nil_append]

/-- **How many nodes a deleter still has before it.** -/
def State.left (s : State Op T) : Releaser → Op → ℕ
  | .push, i => match s.phase i with
    | .failed (.node _) => 1
    | _ => 0
  | .consumer, _ => match s.holder with
    | .consumer _ => s.unreleased.length
    | _ => 0
  | .destructor, _ => match s.holder with
    | .destructor _ => s.unreleased.length
    | _ => 0

/-- **What a step of a deleter frees**: the node it has reached, of which
no deallocation has been recorded. It goes on with the next one. -/
theorem Inv.free_spec {nd : Node Op T} (h : Inv input s) (hnd : s.heap a = some nd) :
    (s.free r i a nd).heap = Function.update s.heap a none ∧
      (s.free r i a nd).deleting r i = some nd.next ∧ s.released nd.owner = [] ∧
      (s.free r i a nd).released = Function.update s.released nd.owner [r] := by
  have hrel := (h.owned a nd hnd).2.2
  cases r <;> simp [State.free, State.setPhase, State.deleting, hrel]

/-- The other steps deallocate nothing. -/
theorem Step.released (hst : Step s e t) (he : ∀ r i, e ≠ .free r i) : t.released = s.released := by
  cases hst with
  | begin | consume => rfl
  | load =>
    unfold State.load
    split <;> rfl
  | cas =>
    unfold State.cas
    split_ifs <;> rfl
  | destroy =>
    unfold State.destroy
    split <;> rfl
  | free => exact absurd rfl (he _ _)

omit [DecidableEq Op] in
/-- The first node of an owned list is the first one not deallocated. -/
theorem Inv.unreleased_cons {nd : Node Op T} (h : Inv input s) (hhold : s.holder ≠ .stack)
    (hhead : s.listHead = .node a) (hnd : s.heap a = some nd) :
    ∃ rest, s.unreleased = nd.owner :: rest := by
  have hchain := h.chain_unreleased hhold
  rw [hhead] at hchain
  cases hl : s.unreleased with
  | nil =>
    rw [hl] at hchain
    cases hchain
  | cons j rest =>
    rw [hl] at hchain
    obtain ⟨hj, q, hheap, -⟩ := hchain
    obtain rfl : a = s.cell j := Ptr.node.inj hj
    obtain rfl : nd = ⟨some (input j), q, j⟩ := Option.some.inj (hnd.symm.trans hheap)
    exact ⟨rest, rfl⟩

/-- Deallocating the first of them leaves the others. -/
theorem Inv.unreleased_free {nd : Node Op T} {rest : List Op} (h : Inv input s)
    (hl : s.unreleased = nd.owner :: rest) : (s.free r i a nd).unreleased = rest := by
  have hpush : (s.free r i a nd).pushed = s.pushed := free_frame.2.1
  have hrel : ∀ j, decide ((s.free r i a nd).released j = []) =
      (decide (j ≠ nd.owner) && decide (s.released j = [])) := by
    intro j
    by_cases hj : j = nd.owner
    · cases r <;> simp [State.free, State.setPhase, hj]
    · cases r <;> simp [State.free, State.setPhase, hj]
  have hfil : (s.free r i a nd).unreleased = s.unreleased.filter fun j => j ≠ nd.owner := by
    simp only [State.unreleased, hpush, List.filter_filter, hrel]
  have hnodup : (nd.owner :: rest).Nodup := hl ▸ h.nodup.filter _
  rw [hfil, hl, List.filter_cons_of_neg (by simp), List.filter_eq_self]
  intro j hj
  have hjo : j ≠ nd.owner := by
    rintro rfl
    exact (List.nodup_cons.mp hnodup).1 hj
  simpa using hjo

/-- **Its own steps bring a deleter to the end of its list.** -/
theorem Inv.left_free {nd : Node Op T} (h : Inv input s) (hp : s.deleting r i = some (.node a))
    (hnd : s.heap a = some nd) : (s.free r i a nd).left r i + 1 = s.left r i := by
  obtain ⟨rfl, hi⟩ | ⟨rfl, hh⟩ | ⟨rfl, hh⟩ := deleting_cases hp
  · obtain ⟨-, -, ⟨hcell, hheap, -⟩ | ⟨hnull, -⟩⟩ := h.failed i _ hi
    · obtain rfl : a = s.cell i := Ptr.node.inj hcell
      obtain rfl : nd = ⟨none, .null, i⟩ := Option.some.inj (hnd.symm.trans hheap)
      simp [State.left, free_phase, hi]
    · cases hnull
  · obtain ⟨rest, hl⟩ := h.unreleased_cons (by simp [hh]) (by simp [State.listHead, hh]) hnd
    have hrest := h.unreleased_free (r := .consumer) (i := i) (a := a) hl
    have hhold : (s.free .consumer i a nd).holder = .consumer nd.next := rfl
    simp only [State.left, hhold, hh, hrest, hl, List.length_cons]
  · obtain ⟨rest, hl⟩ := h.unreleased_cons (by simp [hh]) (by simp [State.listHead, hh]) hnd
    have hrest := h.unreleased_free (r := .destructor) (i := i) (a := a) hl
    have hhold : (s.free .destructor i a nd).holder = .destructor nd.next := rfl
    simp only [State.left, hhold, hh, hrest, hl, List.length_cons]

omit [DecidableEq Op] in
/-- A list that is deleted ends in null. -/
theorem Inv.deleting_ne_marker (h : Inv input s) : s.deleting r i ≠ some .marker := by
  intro hp
  have hlist : s.holder ≠ .stack → s.listHead ≠ .marker := by
    intro hhold hhead
    have hchain := h.chain_unreleased hhold
    rw [hhead] at hchain
    cases hl : s.unreleased with
    | nil =>
      rw [hl] at hchain
      cases hchain
    | cons j rest =>
      rw [hl] at hchain
      cases hchain.1
  obtain ⟨-, hi⟩ | ⟨-, hh⟩ | ⟨-, hh⟩ := deleting_cases hp
  · obtain ⟨-, -, ⟨hcell, -⟩ | ⟨hnull, -⟩⟩ := h.failed i _ hi
    · cases hcell
    · cases hnull
  · exact hlist (by simp [hh]) (by simp [State.listHead, hh])
  · exact hlist (by simp [hh]) (by simp [State.listHead, hh])

omit [DecidableEq Op] in
/-- The count is zero when the deleter has nothing before it. -/
theorem Inv.left_pos (h : Inv input s) :
    0 < s.left r i ↔ ∃ a, s.deleting r i = some (.node a) := by
  have hlist : ∀ p, s.holder ≠ .stack → s.listHead = p →
      (0 < s.unreleased.length ↔ ∃ a, p = .node a) := by
    rintro p hhold rfl
    have hchain := h.chain_unreleased hhold
    cases hl : s.unreleased with
    | nil =>
      rw [hl] at hchain
      have hnull : s.listHead = .null := hchain
      simp [hnull]
    | cons j rest =>
      rw [hl] at hchain
      simp [hchain.1]
  cases r with
  | push =>
    cases hi : s.phase i with
    | failed p => cases p <;> simp [State.left, State.deleting, hi]
    | idle | allocated | linking | succeeded => simp [State.left, State.deleting, hi]
  | consumer =>
    cases hh : s.holder with
    | consumer p =>
      simpa [State.left, State.deleting, hh] using hlist p (by simp [hh]) (by simp [State.listHead, hh])
    | stack | destructor => simp [State.left, State.deleting, hh]
  | destructor =>
    cases hh : s.holder with
    | destructor p =>
      simpa [State.left, State.deleting, hh] using hlist p (by simp [hh]) (by simp [State.listHead, hh])
    | stack | consumer => simp [State.left, State.deleting, hh]

/-- The nodes of an owned list stay as they are while somebody else's
step is taken. -/
theorem Inv.owned_step (h : Inv input s) (hst : Step s e t) (hhold : s.holder ≠ .stack)
    (hfree : ∀ r i, e = .free r i → r = .push) :
    t.holder = s.holder ∧ t.unreleased = s.unreleased := by
  cases hst with
  | begin => exact ⟨rfl, rfl⟩
  | load =>
    unfold State.load
    split <;> exact ⟨rfl, rfl⟩
  | @cas j a nd hj hnd =>
    have hlive := h.live (i := j) (by simp [hj, Phase.Running])
    have hm : s.head = .marker := by
      by_contra hm
      exact hhold (h.holder_eq hlive hm)
    have hne : s.head ≠ nd.next := hm ▸ (h.next_ne_marker hj hnd).symm
    unfold State.cas
    rw [if_neg hne, if_pos hm]
    exact ⟨rfl, rfl⟩
  | consume _ honce => exact absurd honce hhold
  | destroy hlive =>
    have hm : s.head = .marker := by
      by_contra hm
      exact hhold (h.holder_eq hlive hm)
    simp [State.destroy, hm, State.unreleased]
  | @free r j a nd hp hnd =>
    obtain rfl := hfree r j rfl
    obtain ⟨-, hj⟩ | ⟨hr, -⟩ | ⟨hr, -⟩ := deleting_cases hp
    · obtain ⟨-, -, ⟨hcell, hheap, -⟩ | ⟨hnull, -⟩⟩ := h.failed j _ hj
      · obtain rfl : a = s.cell j := Ptr.node.inj hcell
        obtain rfl : nd = ⟨none, .null, j⟩ := Option.some.inj (hnd.symm.trans hheap)
        refine ⟨rfl, List.filter_congr fun k hk => ?_⟩
        have hkj : k ≠ j := by
          rintro rfl
          rw [(h.succeeded k).mpr hk] at hj
          cases hj
        simp [State.free, State.setPhase, hkj]
      · cases hnull
    · cases hr
    · cases hr

/-- A push that failed is moved on by its own deleter only. -/
theorem failed_step (hst : Step s e t) (hi : s.phase i = .failed p) (he : e ≠ .free .push i) :
    t.phase i = .failed p := by
  cases hst with
  | @begin j a _ hj _ =>
    have hij : i ≠ j := by
      rintro rfl
      rw [hi] at hj
      cases hj
    simpa [State.allocate, hij] using hi
  | load hj => grind [load_phase]
  | cas hj hnd => grind [cas_phase]
  | consume => exact hi
  | destroy =>
    unfold State.destroy
    split <;> exact hi
  | @free r j a nd hp hnd =>
    rw [free_phase, if_neg, hi]
    rintro ⟨rfl, rfl⟩
    exact he rfl

/-- **Nobody holds a deleter up**: a step brings it to its next node, or
leaves it where it is. -/
theorem Inv.left_step (h : Inv input s) (hst : Step s e t) (hp : s.deleting r i = some p) :
    t.left r i < s.left r i ∨ (t.deleting r i = some p ∧ t.left r i = s.left r i) := by
  by_cases hown : ∃ j, e = .free r j ∧ (r = .push → j = i)
  · obtain ⟨j, rfl, hj⟩ := hown
    cases hst with
    | @free _ _ a nd hp' hnd =>
      have hij : s.left r i = s.left r j ∧
          (s.free r j a nd).left r i = (s.free r j a nd).left r j := by
        cases r with
        | push => simp [hj rfl]
        | consumer | destructor => exact ⟨rfl, rfl⟩
      have hlt := h.left_free hp' hnd
      omega
  · refine .inr ?_
    obtain ⟨rfl, hi⟩ | ⟨rfl, hh⟩ | ⟨rfl, hh⟩ := deleting_cases hp
    · have hne : e ≠ .free .push i := fun he => hown ⟨i, he, fun _ => rfl⟩
      simp [State.deleting, State.left, failed_step hst hi hne, hi]
    all_goals
      -- an owned list has one deleter
      have hfree : ∀ r j, e = .free r j → r = .push := by
        rintro r j rfl
        cases hst with
        | free hp' =>
          obtain ⟨rfl, -⟩ | ⟨rfl, hh'⟩ | ⟨rfl, hh'⟩ := deleting_cases hp'
          · rfl
          all_goals
            rw [hh] at hh'
            first
              | exact absurd ⟨j, rfl, by simp⟩ hown
              | cases hh'
      obtain ⟨hhold, hl⟩ := h.owned_step hst (by simp [hh]) hfree
      simp only [State.deleting, State.left, hhold, hh, hl, and_self]

/-- **A deleter comes to the end of its list**, by its own steps. -/
theorem Inv.left_run (h : Inv input s) (hp : s.deleting r i = some p) :
    ∃ t, Runs Step (fun _ e => e = .free r i) s t ∧ t.deleting r i = some .null := by
  induction hn : s.left r i generalizing s p with
  | zero =>
    have hnone : ¬ ∃ a, s.deleting r i = some (.node a) := by
      rw [← h.left_pos]
      omega
    refine ⟨s, .refl s, ?_⟩
    cases p with
    | null => exact hp
    | node a => exact absurd ⟨a, hp⟩ hnone
    | marker => exact absurd hp h.deleting_ne_marker
  | succ n ih =>
    obtain ⟨a, ha⟩ := h.left_pos.mp (by omega : 0 < s.left r i)
    obtain ⟨nd, hnd⟩ := h.deleting ha
    have hleft := h.left_free ha hnd
    obtain ⟨t, hrun, hnull⟩ := ih (h.free ha hnd) (h.free_spec hnd).2.1 (by omega)
    have hone : Runs Step (fun _ e => e = .free r i) s (s.free r i a nd) := .single rfl (.free ha hnd)
    exact ⟨t, hone.trans hrun, hnull⟩

/-! ## The end -/

/-- The calls of `push` that have begun are finitely many. -/
theorem Reachable.begun (h : Reachable input s) : ∃ l : List Op, ∀ i, s.phase i ≠ .idle → i ∈ l := by
  refine h.invariant (I := fun s => ∃ l : List Op, ∀ i, s.phase i ≠ .idle → i ∈ l) ?_
    ⟨[], fun i hi => absurd rfl hi⟩
  rintro s e t ⟨l, hl⟩ - hst
  cases hst with
  | @begin j a _ _ _ =>
    refine ⟨j :: l, fun i hi => ?_⟩
    by_cases hij : i = j
    · simp [hij]
    · exact List.mem_cons_of_mem j (hl i (by simpa [State.allocate, hij] using hi))
  | @load j a hj => exact ⟨l, fun i hi => hl i (by grind [load_phase])⟩
  | @cas j a nd hj hnd => exact ⟨l, fun i hi => hl i (by grind [cas_phase])⟩
  | consume => exact ⟨l, hl⟩
  | destroy =>
    refine ⟨l, fun i hi => hl i ?_⟩
    unfold State.destroy at hi
    split at hi <;> exact hi
  | @free r j a nd hp hnd =>
    refine ⟨l, fun i hi => hl i ?_⟩
    rw [free_phase] at hi
    split at hi
    · rename_i hij
      obtain ⟨rfl, rfl⟩ := hij
      obtain ⟨-, hph⟩ | ⟨hr, -⟩ | ⟨hr, -⟩ := deleting_cases hp
      · simp [hph]
      · cases hr
      · cases hr
    · exact hi

/-- A push whose node is given back deallocates it. -/
theorem Inv.failed_run (h : Inv input s) (hi : s.phase i = .failed p) :
    ∃ t, Runs Step Unguarded s t ∧ ¬ (t.phase i).Running ∧ ∀ j, j ≠ i → t.phase j = s.phase j := by
  obtain ⟨-, -, ⟨rfl, hheap, -⟩ | ⟨rfl, -⟩⟩ := h.failed i p hi
  · have hp : s.deleting .push i = some (.node (s.cell i)) := by simp [State.deleting, hi]
    refine ⟨_, Runs.single trivial (Step.free hp hheap), ?_, fun j hj => ?_⟩
    · simp [free_phase, Phase.Running]
    · simp [free_phase, hj]
  · exact ⟨s, .refl s, by simp [hi, Phase.Running], fun _ _ => rfl⟩

/-- A push whose exchange finds the head it expects succeeds. -/
theorem linked_run (nd : Node Op T) (hi : s.phase i = .linking a) (hnd : s.heap a = some nd)
    (heq : s.head = nd.next) :
    ∃ t, Runs Step Unguarded s t ∧ ¬ (t.phase i).Running ∧ ∀ j, j ≠ i → t.phase j = s.phase j := by
  refine ⟨_, Runs.single trivial (Step.cas hi hnd), ?_, fun j hj => ?_⟩
  · simp [cas_phase hi, heq, Phase.Running]
  · simp [cas_phase hi, hj]

/-- A push left alone gets through its loop: an exchange that fails has
stored the head it saw, so that the next one succeeds. -/
theorem Inv.linking_run (h : Inv input s) (hi : s.phase i = .linking a) :
    ∃ t, Runs Step Unguarded s t ∧ ¬ (t.phase i).Running ∧ ∀ j, j ≠ i → t.phase j = s.phase j := by
  obtain ⟨-, ⟨q, -, hheap⟩, -⟩ := h.linking i a hi
  by_cases heq : s.head = q
  · exact linked_run _ hi hheap heq
  · have hst : Step s (.cas i) (s.cas i a q) := .cas hi hheap
    have hother : ∀ j, j ≠ i → (s.cas i a q).phase j = s.phase j := by
      intro j hj
      rw [cas_phase hi, if_neg hj]
    have hgo : ∃ t, Runs Step Unguarded (s.cas i a q) t ∧ ¬ (t.phase i).Running ∧
        ∀ j, j ≠ i → t.phase j = (s.cas i a q).phase j := by
      by_cases hm : s.head = .marker
      · exact (inv_step h hst).failed_run (p := .node a) (by
          simp only [cas_phase hi, if_neg heq, if_pos hm, if_true])
      · refine linked_run (a := a) ⟨some (input i), s.head, i⟩ ?_ ?_ ?_
        · simp only [cas_phase hi, if_neg heq, if_neg hm, if_true]
        · simp [State.cas, heq, hm, State.setNext, hheap]
        · simp [State.cas, heq, hm, State.setNext]
    obtain ⟨t, hrun, hquiet, hframe⟩ := hgo
    exact ⟨t, (Runs.single trivial hst).trans hrun, hquiet,
      fun j hj => (hframe j hj).trans (hother j hj)⟩

/-- **A push left alone returns**, and no other call is touched. -/
theorem Inv.push_run (h : Inv input s) (i : Op) :
    ∃ t, Runs Step Unguarded s t ∧ ¬ (t.phase i).Running ∧ ∀ j, j ≠ i → t.phase j = s.phase j := by
  cases hi : s.phase i with
  | idle | succeeded => exact ⟨s, .refl s, by simp [hi, Phase.Running], fun _ _ => rfl⟩
  | failed p => exact h.failed_run hi
  | linking a => exact h.linking_run hi
  | allocated a =>
    have hst : Step s (.load i) (s.load i a) := .load hi
    have hother : ∀ j, j ≠ i → (s.load i a).phase j = s.phase j := by
      intro j hj
      rw [load_phase, if_neg hj]
    have hgo : ∃ t, Runs Step Unguarded (s.load i a) t ∧ ¬ (t.phase i).Running ∧
        ∀ j, j ≠ i → t.phase j = (s.load i a).phase j := by
      by_cases hm : s.head = .marker
      · exact (inv_step h hst).failed_run (p := .node a) (by simp [load_phase, hm])
      · exact (inv_step h hst).linking_run (a := a) (by simp [load_phase, hm])
    obtain ⟨t, hrun, hquiet, hframe⟩ := hgo
    exact ⟨t, (Runs.single trivial hst).trans hrun, hquiet,
      fun j hj => (hframe j hj).trans (hother j hj)⟩

theorem Inv.runs (h : Inv input s) (hrun : Runs Step Unguarded s t) : Inv input t :=
  hrun.invariant (fun _ _ _ hi _ hst => inv_step hi hst) h

/-- The pushes return one after the other. -/
theorem Inv.quiet_run (h : Inv input s) (l : List Op) : ∃ t, Runs Step Unguarded s t ∧
    (∀ i ∈ l, ¬ (t.phase i).Running) ∧ ∀ i, ¬ (s.phase i).Running → ¬ (t.phase i).Running := by
  induction l with
  | nil => exact ⟨s, .refl s, by simp, fun _ hi => hi⟩
  | cons j l ih =>
    obtain ⟨t, hrun, hl, hstay⟩ := ih
    obtain ⟨u, hrun', hj, hframe⟩ := (h.runs hrun).push_run j
    have hkeep : ∀ i, ¬ (t.phase i).Running → ¬ (u.phase i).Running := by
      intro i hi
      by_cases hij : i = j
      · exact hij ▸ hj
      · rwa [hframe i hij]
    refine ⟨u, hrun.trans hrun', fun i hi => ?_, fun i hi => hkeep i (hstay i hi)⟩
    rcases List.mem_cons.mp hi with rfl | hi
    · exact hj
    · exact hkeep i (hl i hi)

/-- A deleter of a destroyed stack's list brings it to its end. -/
theorem Inv.deleter_run (h : Inv input s) (hdead : s.destroyed = true) (hr : r ≠ .push)
    (hp : s.deleting r i = some p) : ∃ t, Runs Step Unguarded s t ∧ t.Finished := by
  obtain ⟨t, hrun, hnull⟩ := h.left_run hp
  have hdead' : t.destroyed = true := by
    refine hrun.invariant (I := fun t => t.destroyed = true) ?_ hdead
    rintro u e v hd rfl hst
    cases hst with
    | free => simpa using hd
  have hrun' : Runs Step Unguarded s t := hrun.unguarded
  refine ⟨t, hrun', hdead', (h.runs hrun').quiet hdead', .inr ?_⟩
  obtain ⟨rfl, -⟩ | ⟨-, hh⟩ | ⟨-, hh⟩ := deleting_cases hnull
  · exact absurd rfl hr
  · simp [State.listHead, hh]
  · simp [State.listHead, hh]

theorem Inv.finish_run (h : Inv input s) (hdead : s.destroyed = true) :
    ∃ t, Runs Step Unguarded s t ∧ t.Finished := by
  by_cases hnull : s.holder = .stack ∨ s.listHead = .null
  · exact ⟨s, .refl s, hdead, h.quiet hdead, hnull⟩
  · obtain ⟨hhold, hhead⟩ := not_or.mp hnull
    have hchain := h.chain_unreleased hhold
    cases hl : s.unreleased with
    | nil =>
      rw [hl] at hchain
      exact absurd hchain hhead
    | cons j rest =>
      cases hh : s.holder with
      | stack => exact absurd hh hhold
      | consumer p =>
        exact h.deleter_run (r := .consumer) (i := j) (p := p) hdead (by simp)
          (by simp [State.deleting, hh])
      | destructor p =>
        exact h.deleter_run (r := .destructor) (i := j) (p := p) hdead (by simp)
          (by simp [State.deleting, hh])

/-- **Every stack can be brought to its end**: the pushes in progress
return, the destructor runs and the list that is left is deleted. -/
theorem Reachable.finishes (h : Reachable input s) : ∃ t, Runs Step Unguarded s t ∧ t.Finished := by
  obtain ⟨l, hl⟩ := h.begun
  obtain ⟨t, hrun, hquiet, hstay⟩ := h.inv.quiet_run l
  have hinv : Inv input t := h.inv.runs hrun
  have hnone : ∀ i, ¬ (t.phase i).Running := by
    intro i
    by_cases hi : i ∈ l
    · exact hquiet i hi
    · refine hstay i ?_
      have hidle : s.phase i = .idle := by_contra fun hc => hi (hl i hc)
      simp [hidle, Phase.Running]
  cases hdead : t.destroyed with
  | true =>
    obtain ⟨u, hrun', hfin⟩ := hinv.finish_run hdead
    exact ⟨u, hrun.trans hrun', hfin⟩
  | false =>
    have hst : Step t .destroy t.destroy := .destroy hdead hnone
    have hdead' : t.destroy.destroyed = true := by
      unfold State.destroy
      split <;> rfl
    obtain ⟨u, hrun', hfin⟩ := (inv_step hinv hst).finish_run hdead'
    exact ⟨u, (hrun.tail trivial hst).trans hrun', hfin⟩

end Stack

end PortableConcurrency
