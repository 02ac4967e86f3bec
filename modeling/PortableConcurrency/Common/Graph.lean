import Mathlib.Logic.Relation
import Mathlib.Data.Fintype.Card
import Mathlib.Data.Fintype.EquivFin
import Mathlib.Data.Nat.Notation
import Mathlib.Order.Basic

/-!
# Graphs that grow

What becomes of the paths of a graph when all new edges leave one vertex,
and why an acyclic graph on finitely many vertices has an end.
-/

namespace PortableConcurrency

namespace Graph

open Relation

variable {α : Type*} {r r' : α → α → Prop} {s a b : α} {p : α → Prop}

/-- **A path after edges were added at `s`** was there, or comes to `s`
and goes on from one of the new targets. -/
theorem path_of_new (hnew : ∀ a b, r' a b → r a b ∨ (a = s ∧ p b)) (h : ReflTransGen r' a b) :
    ReflTransGen r a b ∨ (ReflTransGen r a s ∧ ∃ t, p t ∧ ReflTransGen r t b) := by
  induction h using ReflTransGen.head_induction_on with
  | refl => exact .inl .refl
  | head hab _ ih =>
    rcases hnew _ _ hab with hab | ⟨rfl, ht⟩
    · exact ih.imp (fun hpath => hpath.head hab) fun hpath => ⟨hpath.1.head hab, hpath.2⟩
    · exact .inr ⟨.refl, ih.elim (fun hpath => ⟨_, ht, hpath⟩) fun hpath => hpath.2⟩

/-- No path comes back to where it started. -/
def Acyclic (r : α → α → Prop) : Prop := ∀ a b, r a b → ¬ ReflTransGen r b a

theorem Acyclic.mono (h : Acyclic r) (hsub : ∀ a b, r' a b → r a b) : Acyclic r' :=
  fun a b hab hba => h a b (hsub a b hab) (ReflTransGen.mono hsub _ _ hba)

/-- **The graph stays acyclic** when no new target had a path to `s`. -/
theorem Acyclic.of_new (h : Acyclic r) (hnew : ∀ a b, r' a b → r a b ∨ (a = s ∧ p b))
    (hno : ∀ t, p t → ¬ ReflTransGen r t s) : Acyclic r' := by
  intro a b hab hba
  rcases path_of_new hnew hba with hba | ⟨hbs, t, ht, hta⟩
  · rcases hnew a b hab with hab | ⟨rfl, hb⟩
    · exact h a b hab hba
    · exact hno b hb hba
  · rcases hnew a b hab with hab | ⟨rfl, hb⟩
    · exact hno t ht ((hta.tail hab).trans hbs)
    · exact hno b hb hbs

/-- Turned around it is acyclic too. -/
theorem Acyclic.swap (h : Acyclic r) : Acyclic (Function.swap r) :=
  fun a b hab hba => h b a hab (reflTransGen_swap.mp hba)

/-- **A rank that never rises along an edge** leaves only the edges that keep
it to be checked for cycles. -/
theorem Acyclic.of_rank {β : Type*} [Preorder β] (rank : α → β) (h : Acyclic r)
    (hedge : ∀ a b, r' a b → rank b < rank a ∨ (rank b = rank a ∧ r a b)) : Acyclic r' := by
  have hpath : ∀ {a b}, ReflTransGen r' a b →
      rank b < rank a ∨ (rank b = rank a ∧ ReflTransGen r a b) := by
    intro a b hab
    induction hab with
    | refl => exact .inr ⟨rfl, .refl⟩
    | tail _ hbc ih =>
      rcases ih, hedge _ _ hbc with ⟨hlt | ⟨heq, hab⟩, hlt' | ⟨heq', hbc⟩⟩
      · exact .inl (hlt'.trans hlt)
      · exact .inl (heq'.trans_lt hlt)
      · exact .inl (hlt'.trans_eq heq)
      · exact .inr ⟨heq'.trans heq, hab.tail hbc⟩
  intro a b hab hba
  rcases hedge a b hab, hpath hba with ⟨hlt | ⟨heq, hab⟩, hlt' | ⟨heq', hba⟩⟩
  · exact lt_irrefl _ (hlt.trans hlt')
  · exact lt_irrefl _ (hlt.trans_eq heq')
  · exact lt_irrefl _ (hlt'.trans_eq heq)
  · exact h a b hab hba

/-- **An acyclic graph has an end**: not every vertex of a bounded set has
an edge that stays in it. -/
theorem Acyclic.has_end {r : ℕ → ℕ → Prop} {p : ℕ → Prop} (h : Acyclic r) (n : ℕ)
    (hbound : ∀ a, p a → a < n) (hnext : ∀ a, p a → ∃ b, r a b ∧ p b) : ∀ a, ¬ p a := by
  -- induction along the paths, which is well-founded on finitely many vertices
  let r' : Fin n → Fin n → Prop := fun b a => TransGen r a b
  have hwf : WellFounded r' := by
    have : IsTrans (Fin n) r' := ⟨fun _ _ _ hba hcb => TransGen.trans hcb hba⟩
    have : Std.Irrefl r' := ⟨fun a haa => by
      obtain ⟨b, hab, hba⟩ := TransGen.head'_iff.mp haa
      exact h a b hab hba⟩
    exact Finite.wellFounded_of_trans_of_irrefl r'
  have hnone : ∀ a : Fin n, ¬ p a := by
    intro a
    induction a using hwf.induction with
    | _ a ih =>
      intro ha
      obtain ⟨b, hab, hb⟩ := hnext a ha
      exact ih ⟨b, hbound b hb⟩ (.single hab) hb
  exact fun a ha => hnone ⟨a, hbound a ha⟩ ha

/-- **Who always finds a way on**, but to `q`, is on the way to a cycle. -/
theorem exists_cycle {r : ℕ → ℕ → Prop} {p q : ℕ → Prop} {a : ℕ} (n : ℕ)
    (hbound : ∀ a, p a → a < n) (hnext : ∀ a, p a → q a ∨ ∃ b, r a b ∧ p b) (ha : p a) :
    ∃ b, ReflTransGen r a b ∧ (q b ∨ TransGen r b b) := by
  by_contra hno
  -- what can be reached from `a` is acyclic
  have hacyclic : Acyclic fun x y => r x y ∧ ReflTransGen r a x := by
    rintro x y ⟨hxy, hax⟩ hyx
    have hyx : ReflTransGen r y x := ReflTransGen.mono (fun _ _ h => h.1) _ _ hyx
    exact hno ⟨x, hax, .inr (.head' hxy hyx)⟩
  refine hacyclic.has_end (p := fun x => p x ∧ ReflTransGen r a x) n (fun x hx => hbound x hx.1)
    (fun x hx => ?_) a ⟨ha, .refl⟩
  rcases hnext x hx.1 with hq | ⟨b, hxb, hb⟩
  · exact absurd ⟨x, hx.2, .inl hq⟩ hno
  · exact ⟨b, ⟨hxb, hx.2⟩, hb, hx.2.tail hxb⟩

end Graph

end PortableConcurrency
