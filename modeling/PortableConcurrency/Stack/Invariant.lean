import PortableConcurrency.Stack.Model
import Mathlib.Data.List.Nodup
import Mathlib.Tactic.Common

/-!
# The once-consumable stack — the invariant

Every call's node is where its phase says, nobody else's link runs
through it, and what was pushed is a linked chain from whoever owns it.
Each of the step functions preserves this. A node's address is tied to
its call through `cell`, so two live nodes at one address belong to one
call; that is what makes a stale `node->next` harmless.
-/

namespace PortableConcurrency

namespace Stack

variable {Op T : Type*} [DecidableEq Op] {input : Op → T} {s : State Op T}
variable {i j : Op} {a : ℕ} {p q : Ptr}

/-! ## Chains -/

/-- **The nodes of `l` are linked in order from `p`**, each still holding
the value its call pushed. -/
def Chain (input : Op → T) (cell : Op → ℕ) (heap : ℕ → Option (Node Op T)) :
    Ptr → List Op → Prop
  | p, [] => p = .null
  | p, i :: l => p = .node (cell i) ∧
      ∃ q, heap (cell i) = some ⟨some (input i), q, i⟩ ∧ Chain input cell heap q l

omit [DecidableEq Op] in
/-- A chain reads the heap at its own cells only. -/
theorem Chain.congr {cell cell' : Op → ℕ} {heap heap' : ℕ → Option (Node Op T)} {l : List Op}
    (hc : ∀ i ∈ l, cell' i = cell i) (hh : ∀ i ∈ l, heap' (cell i) = heap (cell i)) :
    ∀ {p : Ptr}, Chain input cell heap p l → Chain input cell' heap' p l := by
  induction l with
  | nil => intro p h; exact h
  | cons i l ih =>
    rintro p ⟨hp, q, hq, hl⟩
    refine ⟨by rw [hc i (by simp), hp], q, ?_, ?_⟩
    · rw [hc i (by simp), hh i (by simp), hq]
    · exact ih (fun j hj => hc j (by simp [hj])) (fun j hj => hh j (by simp [hj])) hl

omit [DecidableEq Op] in
/-- Every call of a chain has its node in the heap. -/
theorem Chain.heap_eq {cell : Op → ℕ} {heap : ℕ → Option (Node Op T)} {l : List Op} :
    ∀ {p : Ptr}, Chain input cell heap p l →
      ∀ i ∈ l, ∃ q, heap (cell i) = some ⟨some (input i), q, i⟩ := by
  induction l with
  | nil => intro p _ i hi; simp at hi
  | cons j l ih =>
    rintro p ⟨-, q, hq, hl⟩ i hi
    rcases List.mem_cons.mp hi with rfl | hi
    · exact ⟨q, hq⟩
    · exact ih hl i hi

/-! ## The invariant -/

/-- The pointer from which the pushed nodes are owned. -/
def State.listHead (s : State Op T) : Ptr :=
  match s.holder with
  | .stack => s.head
  | .consumer p => p
  | .destructor p => p

/-- Who has deallocated the nodes that are gone from the owner's list. -/
def Holder.releasers : Holder → List Releaser
  | .stack => []
  | .consumer _ => [.consumer]
  | .destructor _ => [.destructor]

/-- **The invariant.** -/
structure Inv (input : Op → T) (s : State Op T) : Prop where
  idle : ∀ i, s.phase i = .idle → s.arg i = some (input i) ∧ s.released i = []
  allocated : ∀ i a, s.phase i = .allocated a → s.cell i = a ∧
    s.heap a = some ⟨some (input i), .null, i⟩ ∧ s.released i = []
  linking : ∀ i a, s.phase i = .linking a → s.cell i = a ∧
    (∃ q, q ≠ .marker ∧ s.heap a = some ⟨some (input i), q, i⟩) ∧ s.released i = []
  failed : ∀ i p, s.phase i = .failed p → s.head = .marker ∧ s.arg i = some (input i) ∧
    ((p = .node (s.cell i) ∧ s.heap (s.cell i) = some ⟨none, .null, i⟩ ∧ s.released i = []) ∨
      (p = .null ∧ s.released i = [.push]))
  succeeded : ∀ i, s.phase i = .succeeded ↔ i ∈ s.pushed
  nodup : s.pushed.Nodup
  owned : ∀ a nd, s.heap a = some nd →
    s.cell nd.owner = a ∧ s.phase nd.owner ≠ .idle ∧ s.released nd.owner = []
  marker : s.head = .marker ↔ ∃ p, s.holder = .consumer p
  list : ∃ gone rest, s.pushed = gone ++ rest ∧
    Chain input s.cell s.heap s.listHead rest ∧ (∀ i ∈ rest, s.released i = []) ∧
    (∀ i ∈ gone, s.released i = s.holder.releasers) ∧ (s.holder = .stack → gone = [])
  destroyed : ∀ p, s.holder = .destructor p → s.destroyed = true
  emptied : s.destroyed = true → s.holder = .stack → s.pushed = []
  quiet : s.destroyed = true → ∀ i, ¬ (s.phase i).Running

omit [DecidableEq Op] in
theorem inv_init : Inv input (init input : State Op T) := by
  constructor <;> simp [init, Chain, State.listHead]

namespace Inv

theorem allocate (h : Inv input s) (hlive : s.destroyed = false) (hi : s.phase i = .idle)
    (hfree : s.heap a = none) : Inv input (s.allocate i a) := by
  have hpush : i ∉ s.pushed := fun hm => by
    rw [(h.succeeded i).mpr hm] at hi
    cases hi
  have hrel : s.released i = [] := (h.idle i hi).2
  have hcell : ∀ nd b, s.heap b = some nd → nd.owner ≠ i ∧ b ≠ a := by
    intro nd b hb
    refine ⟨?_, ?_⟩
    · rintro rfl
      exact (h.owned b nd hb).2.1 hi
    · rintro rfl
      rw [hfree] at hb
      cases hb
  obtain ⟨gone, rest, hsplit, hchain, hrest, hgone, hstack⟩ := h.list
  constructor
  all_goals simp only [State.allocate, Function.update_apply]
  · grind [h.idle]
  · grind [h.idle, h.allocated]
  · grind [h.linking]
  · grind [h.failed]
  · grind [h.succeeded]
  · exact h.nodup
  · grind [h.owned]
  · exact h.marker
  · refine ⟨gone, rest, hsplit, ?_, hrest, hgone, hstack⟩
    have hmem : ∀ j ∈ rest, j ≠ i ∧ s.cell j ≠ a := by
      intro j hj
      obtain ⟨q, hq⟩ := hchain.heap_eq j hj
      exact hcell _ _ hq
    refine Chain.congr ?_ ?_ hchain
    · intro j hj
      simp [(hmem j hj).1]
    · intro j hj
      simp [(hmem j hj).2]
  · exact h.destroyed
  · exact h.emptied
  · simp [hlive]

omit [DecidableEq Op] in
/-- A destroyed stack has no call in progress. -/
theorem live (h : Inv input s) (hi : (s.phase i).Running) : s.destroyed = false := by
  by_contra hd
  exact h.quiet (by simpa using hd) i hi

omit [DecidableEq Op] in
/-- A stack that is neither consumed nor destroyed owns its nodes. -/
theorem holder_eq (h : Inv input s) (hlive : s.destroyed = false) (hm : s.head ≠ .marker) :
    s.holder = .stack := by
  cases hh : s.holder with
  | stack => rfl
  | consumer p => exact absurd (h.marker.mpr ⟨p, hh⟩) hm
  | destructor p => simp [h.destroyed p hh] at hlive

omit [DecidableEq Op] in
/-- The node of a call in progress is in nobody's chain. -/
theorem not_mem_chain (h : Inv input s) {nd : Node Op T} (ha : s.heap a = some nd)
    (hph : s.phase nd.owner ≠ .succeeded) {rest gone : List Op} (hs : s.pushed = gone ++ rest)
    (hchain : Chain input s.cell s.heap p rest) : ∀ j ∈ rest, s.cell j ≠ a := by
  rintro j hj rfl
  obtain ⟨q, hq⟩ := hchain.heap_eq j hj
  rw [ha] at hq
  have hown : nd.owner = j := by rw [Option.some.inj hq]
  exact hph (hown ▸ (h.succeeded j).mpr (by rw [hs]; simp [hj]))

theorem load (h : Inv input s) (hi : s.phase i = .allocated a) : Inv input (s.load i a) := by
  obtain ⟨hcell, hheap, hrel⟩ := h.allocated i a hi
  obtain ⟨gone, rest, hsplit, hchain, hrest, hgone, hstack⟩ := h.list
  have hmem := h.not_mem_chain hheap (by simp [hi]) hsplit hchain
  have hlive : s.destroyed = false := h.live (i := i) (by simp [hi, Phase.Running])
  unfold State.load
  split
  · rename_i hm
    constructor
    all_goals simp only [State.giveBack, Function.update_apply, hheap]
    · grind [h.idle]
    · grind [h.allocated]
    · grind [h.linking]
    · grind [h.failed]
    · grind [h.succeeded]
    · exact h.nodup
    · grind [h.owned]
    · exact h.marker
    · exact ⟨gone, rest, hsplit, Chain.congr (fun _ _ => rfl) (by grind) hchain, hrest, hgone,
        hstack⟩
    · exact h.destroyed
    · exact h.emptied
    · simp [hlive]
  · rename_i hm
    constructor
    all_goals simp only [State.setNext, State.setPhase, Function.update_apply, hheap]
    · grind [h.idle]
    · grind [h.allocated]
    · grind [h.linking]
    · grind [h.failed]
    · grind [h.succeeded]
    · exact h.nodup
    · grind [h.owned]
    · exact h.marker
    · exact ⟨gone, rest, hsplit, Chain.congr (fun _ _ => rfl) (by grind) hchain, hrest, hgone,
        hstack⟩
    · exact h.destroyed
    · exact h.emptied
    · simp [hlive]


/-- **A successful exchange appends.** The link set before it is the old
head, so the chain of the stack grows by the call's node. -/
theorem cas_success (h : Inv input s) (hi : s.phase i = .linking a)
    (hcell : s.cell i = a) (hheap : s.heap a = some ⟨some (input i), s.head, i⟩)
    (hm : s.head ≠ .marker) (hrel : s.released i = []) :
    Inv input { s.setPhase i .succeeded with head := .node a, pushed := i :: s.pushed } := by
  have hpush : i ∉ s.pushed := fun hmem => by
    rw [(h.succeeded i).mpr hmem] at hi
    cases hi
  have hlive : s.destroyed = false := h.live (i := i) (by simp [hi, Phase.Running])
  -- neither consumed nor destroyed, so the chain still hangs from the head
  have hhold : s.holder = .stack := h.holder_eq hlive hm
  obtain ⟨gone, rest, hsplit, hchain, hrest, hgone, hstack⟩ := h.list
  have hgone' := hstack hhold
  subst hgone'
  constructor
  all_goals simp only [State.setPhase, Function.update_apply]
  · grind [h.idle]
  · grind [h.allocated]
  · grind [h.linking]
  · intro j p hj
    split at hj
    · cases hj
    · exact absurd (h.failed j p hj).1 hm
  · grind [h.succeeded]
  · exact List.nodup_cons.mpr ⟨hpush, h.nodup⟩
  · grind [h.owned]
  · simp [hhold]
  · refine ⟨[], i :: rest, by simp [hsplit], ?_, ?_, by simp, by simp⟩
    · simp only [State.listHead, hhold, Chain, hcell, hheap] at hchain ⊢
      exact ⟨trivial, s.head, rfl, hchain⟩
    · simpa [hrel] using hrest
  · exact h.destroyed
  · simp [hlive]
  · simp [hlive]

theorem cas {nd : Node Op T} (h : Inv input s) (hi : s.phase i = .linking a)
    (hnd : s.heap a = some nd) : Inv input (s.cas i a nd.next) := by
  obtain ⟨hcell, ⟨q, hq, hheap⟩, hrel⟩ := h.linking i a hi
  obtain rfl : nd = ⟨some (input i), q, i⟩ := Option.some.inj (hnd.symm.trans hheap)
  obtain ⟨gone, rest, hsplit, hchain, hrest, hgone, hstack⟩ := h.list
  have hmem := h.not_mem_chain hheap (by simp [hi]) hsplit hchain
  have hlive : s.destroyed = false := h.live (i := i) (by simp [hi, Phase.Running])
  unfold State.cas
  split
  · rename_i heq
    obtain rfl : s.head = q := heq
    exact h.cas_success hi hcell hheap hq hrel
  split
  · rename_i hm
    constructor
    all_goals simp only [State.giveBack, State.setNext, Function.update_apply, hheap]
    · grind [h.idle]
    · grind [h.allocated]
    · grind [h.linking]
    · grind [h.failed]
    · grind [h.succeeded]
    · exact h.nodup
    · grind [h.owned]
    · exact h.marker
    · exact ⟨gone, rest, hsplit, Chain.congr (fun _ _ => rfl) (by grind) hchain, hrest, hgone,
        hstack⟩
    · exact h.destroyed
    · exact h.emptied
    · simp [hlive]
  · rename_i hm
    constructor
    all_goals simp only [State.setNext, Function.update_apply, hheap]
    · exact h.idle
    · grind [h.allocated]
    · grind [h.linking]
    · grind [h.failed]
    · exact h.succeeded
    · exact h.nodup
    · grind [h.owned]
    · exact h.marker
    · exact ⟨gone, rest, hsplit, Chain.congr (fun _ _ => rfl) (by grind) hchain, hrest, hgone,
        hstack⟩
    · exact h.destroyed
    · exact h.emptied
    · simp [hlive]

omit [DecidableEq Op] in
theorem consume (h : Inv input s) (honce : s.holder = .stack) :
    Inv input s.consume := by
  obtain ⟨gone, rest, hsplit, hchain, hrest, hgone, hstack⟩ := h.list
  have hm : s.head ≠ .marker := fun hm => by
    obtain ⟨p, hp⟩ := h.marker.mp hm
    rw [honce] at hp
    cases hp
  constructor
  all_goals simp only [State.consume, if_neg hm]
  · exact h.idle
  · exact h.allocated
  · exact h.linking
  · exact fun j p hp => ⟨trivial, (h.failed j p hp).2⟩
  · exact h.succeeded
  · exact h.nodup
  · exact h.owned
  · simp
  · have hgone' := hstack honce
    subst hgone'
    refine ⟨[], rest, hsplit, ?_, hrest, by simp, by simp⟩
    simpa [State.listHead, honce] using hchain
  · simp
  · simp
  · exact h.quiet

omit [DecidableEq Op] in
theorem destroy (h : Inv input s) (hlive : s.destroyed = false)
    (hquiet : ∀ i, ¬ (s.phase i).Running) : Inv input s.destroy := by
  obtain ⟨gone, rest, hsplit, hchain, hrest, hgone, hstack⟩ := h.list
  unfold State.destroy
  split
  · rename_i hm
    refine ⟨h.idle, h.allocated, h.linking, h.failed, h.succeeded, h.nodup, h.owned, h.marker,
      h.list, fun _ _ => rfl, ?_, fun _ => hquiet⟩
    intro _ hhold
    have hgone' := hstack hhold
    subst hgone'
    -- the head is null: a marker would mean that somebody has consumed
    rcases hm with hnull | hmark
    · cases rest with
      | nil => exact hsplit
      | cons j rest =>
        rw [State.listHead, show s.holder = .stack from hhold] at hchain
        cases hnull.symm.trans hchain.1
    · obtain ⟨p, hp⟩ := h.marker.mp hmark
      rw [show s.holder = .stack from hhold] at hp
      cases hp
  · rename_i hm
    obtain ⟨-, hm⟩ := not_or.mp hm
    have hhold : s.holder = .stack := h.holder_eq hlive hm
    have hgone' := hstack hhold
    subst hgone'
    refine ⟨h.idle, h.allocated, h.linking, h.failed, h.succeeded, h.nodup, h.owned, ?_, ?_,
      fun _ _ => rfl, by simp, fun _ => hquiet⟩
    · simpa using hm
    · refine ⟨[], rest, hsplit, ?_, hrest, by simp, by simp⟩
      simpa [State.listHead, hhold] using hchain

theorem free_push (h : Inv input s) {nd : Node Op T} (hi : s.phase i = .failed (.node a))
    (hnd : s.heap a = some nd) : Inv input (s.free .push i a nd) := by
  have hlive : s.destroyed = false := h.live (i := i) (by simp [hi, Phase.Running])
  obtain ⟨hm, harg, hcase⟩ := h.failed i _ hi
  obtain ⟨hcell, hheap, hrel⟩ | ⟨hnull, -⟩ := hcase
  · obtain ⟨gone, rest, hsplit, hchain, hrest, hgone, hstack⟩ := h.list
    obtain rfl : a = s.cell i := Ptr.node.inj hcell
    obtain rfl : nd = ⟨none, .null, i⟩ := Option.some.inj (hnd.symm.trans hheap)
    have hmem := h.not_mem_chain hheap (by simp [hi]) hsplit hchain
    have hpush : i ∉ s.pushed := fun hmem => by
      rw [(h.succeeded i).mpr hmem] at hi
      cases hi
    constructor
    all_goals simp only [State.free, State.setPhase, Function.update_apply]
    · grind [h.idle]
    · grind [h.allocated]
    · grind [h.linking]
    · grind [h.failed]
    · grind [h.succeeded]
    · exact h.nodup
    · grind [h.owned]
    · exact h.marker
    · refine ⟨gone, rest, hsplit, Chain.congr (fun _ _ => rfl) (by grind) hchain, ?_, ?_, hstack⟩
      · grind
      · grind
    · exact h.destroyed
    · exact h.emptied
    · simp [hlive]
  · cases hnull

/-- **Deallocating the first node of an owned list** leaves the rest of
it, whether the consumer or the destructor owns it. -/
theorem free_held (h : Inv input s) {nd : Node Op T} {hold : Ptr → Holder} {r : Releaser}
    (hr : hold = .consumer ∧ r = .consumer ∨ hold = .destructor ∧ r = .destructor)
    (hhold : s.holder = hold (.node a)) (hnd : s.heap a = some nd) :
    Inv input { s with
      heap := Function.update s.heap a none
      released := Function.update s.released nd.owner (r :: s.released nd.owner)
      holder := hold nd.next } := by
  obtain ⟨gone, rest, hsplit, hchain, hrest, hgone, hstack⟩ := h.list
  have hhead : s.listHead = .node a := by
    rcases hr with ⟨rfl, -⟩ | ⟨rfl, -⟩ <;> rw [State.listHead, hhold]
  rw [hhead] at hchain
  cases rest with
  | nil => cases hchain
  | cons j rest =>
    obtain ⟨hj, q, hheap, hchain⟩ := hchain
    obtain rfl : a = s.cell j := Ptr.node.inj hj
    obtain rfl : nd = ⟨some (input j), q, j⟩ := Option.some.inj (hnd.symm.trans hheap)
    have hnodup := h.nodup
    rw [hsplit] at hnodup
    have hjp : s.phase j = .succeeded := (h.succeeded j).mpr (by simp [hsplit])
    have hne : ∀ k ∈ rest, k ≠ j ∧ s.cell k ≠ s.cell j := by
      intro k hk
      have hkj : k ≠ j := by grind
      refine ⟨hkj, fun hc => ?_⟩
      obtain ⟨q', hq'⟩ := hchain.heap_eq k hk
      rw [hc, hheap] at hq'
      simp at hq'
      exact hkj hq'.2.2.symm
    have hrel : s.released j = [] := hrest j (by simp)
    constructor
    all_goals simp only [Function.update_apply]
    · grind [h.idle]
    · grind [h.allocated]
    · grind [h.linking]
    · grind [h.failed]
    · exact h.succeeded
    · exact h.nodup
    · grind [h.owned]
    · rw [h.marker, hhold]
      rcases hr with ⟨rfl, -⟩ | ⟨rfl, -⟩ <;> simp
    · refine ⟨gone ++ [j], rest, by simp [hsplit], ?_, ?_, ?_, ?_⟩
      · have hch : Chain input s.cell (Function.update s.heap (s.cell j) none) q rest :=
          hchain.congr (fun _ _ => rfl) (fun k hk => by simp [(hne k hk).2])
        rcases hr with ⟨rfl, -⟩ | ⟨rfl, -⟩ <;> exact hch
      · grind
      · rcases hr with ⟨rfl, rfl⟩ | ⟨rfl, rfl⟩ <;> grind [Holder.releasers]
      · rcases hr with ⟨rfl, -⟩ | ⟨rfl, -⟩ <;> simp
    · intro p hp
      refine h.destroyed (.node (s.cell j)) ?_
      rcases hr with ⟨rfl, -⟩ | ⟨rfl, -⟩
      · cases hp
      · exact hhold
    · rcases hr with ⟨rfl, -⟩ | ⟨rfl, -⟩ <;> simp
    · exact h.quiet

theorem free {nd : Node Op T} {r : Releaser} (h : Inv input s)
    (hp : s.deleting r i = some (.node a)) (hnd : s.heap a = some nd) :
    Inv input (s.free r i a nd) := by
  cases r with
  | push =>
    refine h.free_push ?_ hnd
    simp only [State.deleting] at hp
    split at hp
    · rename_i hph
      rw [hph, Option.some.inj hp]
    · cases hp
  | consumer =>
    refine h.free_held (.inl ⟨rfl, rfl⟩) ?_ hnd
    simp only [State.deleting] at hp
    split at hp
    · rename_i hph
      rw [hph, Option.some.inj hp]
    · cases hp
  | destructor =>
    refine h.free_held (.inr ⟨rfl, rfl⟩) ?_ hnd
    simp only [State.deleting] at hp
    split at hp
    · rename_i hph
      rw [hph, Option.some.inj hp]
    · cases hp

end Inv

/-- **Every step preserves the invariant.** -/
theorem inv_step {s t : State Op T} {e : Event Op} (h : Inv input s) (hst : Step s e t) :
    Inv input t := by
  cases hst with
  | begin hlive hi hfree => exact h.allocate hlive hi hfree
  | load hi => exact h.load hi
  | cas hi hnd => exact h.cas hi hnd
  | consume hlive honce => exact h.consume honce
  | destroy hlive hquiet => exact h.destroy hlive hquiet
  | free hp hnd => exact h.free hp hnd

/-- **Every reachable state satisfies the invariant.** -/
theorem Reachable.inv (h : Reachable input s) : Inv input s :=
  h.invariant (fun _ _ _ hi _ hst => inv_step hi hst) inv_init

end Stack

end PortableConcurrency
