import PortableConcurrency.Alternatives.Model
import PortableConcurrency.Common.Calls

/-!
# `either` — one live object and its tag

Between two operations the tag of every `either` is that of the object in
its storage. This is what the visitor and the destructor need to find the
object, and so it is also what keeps the objects from being destroyed
twice or not at all. Inside of an operation it fails: what each of them
does is therefore computed from its start to its end, and the invariant is
shown of the end.
-/

namespace PortableConcurrency

namespace Alternatives

variable {n : ℕ} {T : Fin n → Type} {X α : Type} {moved : ∀ i, T i → T i}
variable {w w' : World T} {o p : Either T} {ob ob' : Object T} {e e' src k : ℕ} {i : Fin n}
variable {v : T i} {x : X} {op : Op T X} {f : Option (Fin n) → Call T X α}

/-- The tag that goes with what is in the storage. -/
def tag : Option (Object T) → ℕ
  | none => emptyState
  | some ob => ob.alt + 1

/-- The tag is that of the object in the storage. -/
def Either.Tagged (o : Either T) : Prop := o.state = tag o.storage

/-- The object `ob` is alive in the storage of the `either` at `e`. -/
def Lives (w : World T) (e : ℕ) (ob : Object T) : Prop :=
  ∃ o, w.get e = some o ∧ o.storage = some ob

/-- What the object holds. -/
def Object.value (ob : Object T) : Σ i, T i := ⟨ob.alt, ob.val⟩

/-- The numbers of the objects in the storage at `e`, one or none. -/
def Either.ids (o : Either T) : List ℕ := (o.storage.map Object.id).toList

namespace World

/-- The `either` at `e`, which was `o`, is empty, and its object destroyed. -/
def cleaned (w : World T) (e : ℕ) (o : Either T) : World T :=
  { w.set e ⟨none, emptyState⟩ with destroyed := o.ids ++ w.destroyed }

/-- There is a new object in the `either` at `e`. -/
def placed (w : World T) (e : ℕ) (i : Fin n) (v : T i) : World T :=
  { w.set e ⟨some ⟨i, v, w.made⟩, i + 1⟩ with made := w.made + 1 }

/-- The value of `ob`, which is at `e`, has been moved away. -/
def taken (w : World T) (moved : ∀ i, T i → T i) (e : ℕ) (ob : Object T) : World T :=
  w.set e ⟨some ⟨ob.alt, moved ob.alt ob.val, ob.id⟩, ob.alt + 1⟩

/-- The object at `src`, if there is one, has been moved to `e`, and
destroyed. -/
def transferred (w : World T) (moved : ∀ i, T i → T i) (e src : ℕ) (o : Either T) : World T :=
  match o.storage with
  | none => w.cleaned src o
  | some ob =>
    (((w.cleaned e ⟨none, emptyState⟩).taken moved src ob).placed e ob.alt ob.val).cleaned src o

theorem set_self (w : World T) (e : ℕ) (o : Either T) : (w.set e o).get e = some o :=
  Function.update_self ..

theorem set_other (w : World T) (o : Either T) (h : e' ≠ e) : (w.set e o).get e' = w.get e' :=
  Function.update_of_ne h ..

theorem remove_self (w : World T) (e : ℕ) : (w.remove e).get e = none :=
  Function.update_self ..

theorem remove_other (w : World T) (h : e' ≠ e) : (w.remove e).get e' = w.get e' :=
  Function.update_of_ne h ..

theorem cleaned_self (w : World T) (e : ℕ) (o : Either T) :
    (w.cleaned e o).get e = some ⟨none, emptyState⟩ := set_self ..

theorem cleaned_other (w : World T) (o : Either T) (h : e' ≠ e) :
    (w.cleaned e o).get e' = w.get e' := set_other w _ h

theorem cleaned_congr {o' : Either T} (h : o.ids = o'.ids) :
    w.cleaned e o = w.cleaned e o' := by
  unfold cleaned
  rw [h]

theorem placed_self (w : World T) (e : ℕ) (i : Fin n) (v : T i) :
    (w.placed e i v).get e = some ⟨some ⟨i, v, w.made⟩, i + 1⟩ := set_self ..

theorem placed_other (w : World T) (i : Fin n) (v : T i) (h : e' ≠ e) :
    (w.placed e i v).get e' = w.get e' := set_other w _ h

theorem taken_self (w : World T) (e : ℕ) (ob : Object T) :
    (w.taken moved e ob).get e =
      some ⟨some ⟨ob.alt, moved ob.alt ob.val, ob.id⟩, ob.alt + 1⟩ := set_self ..

theorem taken_other (w : World T) (ob : Object T) (h : e' ≠ e) :
    (w.taken moved e ob).get e' = w.get e' := set_other w _ h

end World

/-! ## What lives where -/

theorem Either.mem_ids : k ∈ o.ids ↔ ∃ ob, o.storage = some ob ∧ ob.id = k := by
  simp [Either.ids]

theorem Lives.eq (h : Lives w e ob) (h' : Lives w e ob') : ob = ob' := by
  obtain ⟨o, ho, hs⟩ := h
  obtain ⟨p, hp, hs'⟩ := h'
  obtain rfl : o = p := Option.some.inj (ho.symm.trans hp)
  exact Option.some.inj (hs.symm.trans hs')

theorem lives_set : Lives (w.set e o) e' ob ↔
    e' = e ∧ o.storage = some ob ∨ e' ≠ e ∧ Lives w e' ob := by
  unfold Lives
  by_cases he : e' = e
  · subst he
    simp [World.set_self]
  · simp [World.set_other w o he, he]

theorem lives_remove : Lives (w.remove e) e' ob ↔ e' ≠ e ∧ Lives w e' ob := by
  unfold Lives
  by_cases he : e' = e
  · subst he
    simp [World.remove_self]
  · simp [World.remove_other w he, he]

theorem lives_cleaned : Lives (w.cleaned e o) e' ob ↔ e' ≠ e ∧ Lives w e' ob :=
  lives_set.trans (by simp)

theorem lives_placed : Lives (w.placed e i v) e' ob ↔
    e' = e ∧ ob = ⟨i, v, w.made⟩ ∨ e' ≠ e ∧ Lives w e' ob :=
  lives_set.trans (by simp [eq_comm])

theorem lives_taken : Lives (w.taken moved e ob) e' ob' ↔
    e' = e ∧ ob' = ⟨ob.alt, moved ob.alt ob.val, ob.id⟩ ∨ e' ≠ e ∧ Lives w e' ob' :=
  lives_set.trans (by simp [eq_comm])

/-- The tags after one of the `either` objects was changed. -/
theorem tagged_set (h : ∀ e o, w.get e = some o → o.Tagged) (ho : o.Tagged) :
    ∀ e' p, (w.set e o).get e' = some p → p.Tagged := by
  intro e' p hp
  by_cases he : e' = e
  · subst he
    obtain rfl : o = p := Option.some.inj ((World.set_self w e' o).symm.trans hp)
    exact ho
  · exact h e' p ((World.set_other w o he).symm.trans hp)

/-! ## Storage and tag -/

theorem this_run (h : w.get e = some o) : this e w = .ok (ε := Failure X) o w := by
  unfold this
  rw [Calls.bind_apply (Calls.get_apply w), h]
  rfl

theorem this_fails (h : w.get e = none) : this (X := X) e w = .error .undefined w := by
  unfold this
  rw [Calls.bind_apply (Calls.get_apply w), h]
  rfl

theorem setState_run (h : w.get e = some o) :
    setState (X := X) e k w = .ok () (w.set e { o with state := k }) := by
  unfold setState
  rw [Calls.bind_apply (this_run h)]
  rfl

theorem construct_run (h : w.get e = some o) : construct (X := X) e i v w =
    .ok () { w.set e { o with storage := some ⟨i, v, w.made⟩ } with made := w.made + 1 } := by
  unfold construct
  rw [Calls.bind_apply (this_run h)]
  rfl

/-- The reference is to the living object. -/
theorem object_run (h : Lives w e ob) : object (X := X) e ob.alt w = .ok (ob.val, ob.id) w := by
  obtain ⟨o, ho, hs⟩ := h
  unfold object
  rw [Calls.bind_apply (this_run ho), hs]
  simp only [↓reduceDIte]
  rfl

theorem destruct_run (h : w.get e = some o) (hs : o.storage = some ob) :
    destruct (X := X) e ob.alt w =
      .ok () { w.set e { o with storage := none } with destroyed := ob.id :: w.destroyed } := by
  unfold destruct
  rw [Calls.bind_apply (object_run ⟨o, h, hs⟩), Calls.bind_apply (this_run h)]
  rfl

theorem take_run (h : w.get e = some o) (hs : o.storage = some ob) (ht : o.Tagged) :
    take (X := X) moved e ob.alt w = .ok ob.val (w.taken moved e ob) := by
  have hstate : o.state = ob.alt + 1 := by rw [ht, hs]; rfl
  unfold take
  rw [Calls.bind_apply (object_run ⟨o, h, hs⟩), Calls.bind_apply (this_run h), hstate]
  rfl

/-- **The visitor is called with the living alternative.** The walk over
the indices does not pass it. -/
theorem visitBackward_run (h : w.get e = some o) (ht : o.Tagged) (hk : k ≤ n)
    (hle : o.state ≤ k) : visitBackward e f k hk w = f (o.storage.map Object.alt) w := by
  unfold Either.Tagged at ht
  induction k with
  | zero =>
    cases hs : o.storage with
    | none => rfl
    | some ob =>
      rw [ht, hs] at hle
      simp only [tag] at hle
      omega
  | succ k ih =>
    unfold visitBackward
    rw [Calls.bind_apply (this_run h)]
    by_cases heq : o.state = k + 1
    · rw [if_pos heq]
      cases hs : o.storage with
      | none =>
        rw [ht, hs] at heq
        simp only [tag, emptyState] at heq
        omega
      | some ob =>
        rw [ht, hs] at heq
        simp only [tag] at heq
        have hob : (⟨k, hk⟩ : Fin n) = ob.alt := Fin.ext (by simp only; omega)
        rw [hob]
        rfl
    · rw [if_neg heq]
      exact ih _ (by omega)

/-- A tag is in the range of the index sequence. -/
theorem Either.Tagged.le (ht : o.Tagged) : o.state ≤ n := by
  unfold Either.Tagged at ht
  cases hs : o.storage with
  | none =>
    rw [ht, hs]
    exact Nat.zero_le _
  | some ob =>
    rw [ht, hs]
    exact ob.alt.isLt

theorem visit_run (h : w.get e = some o) (ht : o.Tagged) :
    visit e f w = f (o.storage.map Object.alt) w :=
  visitBackward_run h ht (Nat.le_refl n) ht.le

/-! ## The members -/

theorem clean_run (h : w.get e = some o) (ht : o.Tagged) :
    clean (X := X) e w = .ok () (w.cleaned e o) := by
  unfold clean
  cases hs : o.storage with
  | none =>
    have hv : visit e (destroy e) w = .ok (ε := Failure X) () w := by
      rw [visit_run h ht, hs]
      rfl
    rw [Calls.bind_apply hv, setState_run h]
    simp [World.cleaned, Either.ids, hs]
    rfl
  | some ob =>
    have hv : visit (X := X) e (destroy e) w = .ok ()
        { w.set e { o with storage := none } with destroyed := ob.id :: w.destroyed } := by
      rw [visit_run h ht, hs]
      exact destruct_run h hs
    have hnone : World.get { w.set e { o with storage := none } with
        destroyed := ob.id :: w.destroyed } e = some { o with storage := none } :=
      World.set_self w e _
    rw [Calls.bind_apply hv, setState_run hnone]
    simp [World.cleaned, Either.ids, hs, World.set]

theorem emplace_run {ctor : Call T X (T i)} (h : w.get e = some o) (ht : o.Tagged)
    (hc : ctor (w.cleaned e o) = .ok v w') (hw : w'.get e = some ⟨none, emptyState⟩) :
    emplace e i ctor w = .ok () (w'.placed e i v) := by
  have hmade : World.get { w'.set e ⟨some ⟨i, v, w'.made⟩, emptyState⟩ with
      made := w'.made + 1 } e = some ⟨some ⟨i, v, w'.made⟩, emptyState⟩ := World.set_self w' e _
  unfold emplace
  rw [Calls.bind_apply (clean_run h ht), Calls.bind_apply hc, Calls.bind_apply (construct_run hw),
    setState_run hmade]
  simp [World.placed, World.set]

/-- **The old value is gone before the constructor is called**, and nothing
is put in its place when that throws. -/
theorem emplace_throws {ctor : Call T X (T i)} {y : Failure X} (h : w.get e = some o)
    (ht : o.Tagged) (hc : ctor (w.cleaned e o) = .error y w') :
    emplace e i ctor w = .error y w' := by
  unfold emplace
  rw [Calls.bind_apply (clean_run h ht), Calls.bind_throws hc]

/-- An index that is not the tag of the source is passed over. -/
theorem moveAlternatives_skip {l : List (Fin n)} (h : w.get src = some o)
    (hl : ∀ i ∈ l, o.state ≠ i + 1) :
    moveAlternatives (X := X) moved e src l w = .ok () w := by
  induction l with
  | nil => rfl
  | cons i l ih =>
    unfold moveAlternatives
    rw [Calls.bind_apply (this_run h), if_neg (hl i (by simp))]
    exact ih fun j hj => hl j (by simp [hj])

/-- **One index is the tag of the source.** The tag of the source is still
the same after the move, so that the rest of the expansion has to be about
other indices. -/
theorem moveAlternatives_run {l : List (Fin n)} (hne : e ≠ src) (h : w.get src = some o)
    (ht : o.Tagged) (hs : o.storage = some ob) (hp : w.get e = some p) (htp : p.Tagged)
    (hl : l.Nodup) (hmem : ob.alt ∈ l) :
    moveAlternatives (X := X) moved e src l w =
      .ok () (((w.cleaned e p).taken moved src ob).placed e ob.alt ob.val) := by
  have hstate : o.state = ob.alt + 1 := by rw [ht, hs]; rfl
  induction l with
  | nil => cases hmem
  | cons i l ih =>
    obtain ⟨hi, hl⟩ := List.nodup_cons.mp hl
    unfold moveAlternatives
    rw [Calls.bind_apply (this_run h)]
    by_cases hia : i = ob.alt
    · subst hia
      have hclean : (w.cleaned e p).get src = some o :=
        (World.cleaned_other w p hne.symm).trans h
      have hempty : ((w.cleaned e p).taken moved src ob).get e = some ⟨none, emptyState⟩ :=
        (World.taken_other _ ob hne).trans (World.cleaned_self w e p)
      have hsrc : (((w.cleaned e p).taken moved src ob).placed e ob.alt ob.val).get src =
          some ⟨some ⟨ob.alt, moved ob.alt ob.val, ob.id⟩, ob.alt + 1⟩ :=
        (World.placed_other _ _ _ hne.symm).trans (World.taken_self _ src ob)
      rw [if_pos hstate,
        Calls.bind_apply (emplace_run hp htp (take_run hclean hs ht) hempty)]
      refine moveAlternatives_skip hsrc fun j hj heq => hi ?_
      have hij : ob.alt = j := Fin.ext (by simp only at heq; omega)
      exact hij ▸ hj
    · have hskip : o.state ≠ i + 1 := fun heq => hia (Fin.ext (by omega))
      rw [if_neg hskip]
      exact ih hl ((List.mem_cons.mp hmem).resolve_left (Ne.symm hia))

/-- **The value of the source is moved to an empty `either`.** -/
theorem moveFrom_run (hne : e ≠ src) (h : w.get src = some o) (ht : o.Tagged)
    (hp : w.get e = some ⟨none, emptyState⟩) :
    moveFrom (X := X) moved e src w = .ok () (w.transferred moved e src o) := by
  unfold moveFrom World.transferred
  cases hs : o.storage with
  | none =>
    have hskip : ∀ i ∈ List.finRange n, o.state ≠ i + 1 := fun i _ heq => by
      rw [ht, hs] at heq
      simp only [tag, emptyState] at heq
      omega
    rw [Calls.bind_apply (moveAlternatives_skip h hskip), clean_run h ht]
  | some ob =>
    have hstate : o.state = ob.alt + 1 := by rw [ht, hs]; rfl
    have hsrc : (((w.cleaned e ⟨none, emptyState⟩).taken moved src ob).placed e ob.alt
        ob.val).get src = some ⟨some ⟨ob.alt, moved ob.alt ob.val, ob.id⟩, ob.alt + 1⟩ :=
      (World.placed_other _ _ _ hne.symm).trans (World.taken_self _ src ob)
    rw [Calls.bind_apply (moveAlternatives_run hne h ht hs hp rfl (List.nodup_finRange n)
      (List.mem_finRange _)), clean_run hsrc rfl]
    simp [World.cleaned, Either.ids, hs]

/-! ## The invariant -/

/-- **Every object that was constructed is alive in one storage, or it is
not and has been destroyed once.** -/
structure Sound (w : World T) : Prop where
  tagged : ∀ e o, w.get e = some o → o.Tagged
  once : w.destroyed.Nodup
  old : ∀ k ∈ w.destroyed, k < w.made
  alive : ∀ e ob, Lives w e ob → ob.id < w.made ∧ ob.id ∉ w.destroyed
  apart : ∀ e e' ob ob', Lives w e ob → Lives w e' ob' → ob.id = ob'.id → e = e'
  kept : ∀ k < w.made, k ∈ w.destroyed ∨ ∃ e ob, Lives w e ob ∧ ob.id = k

namespace Sound

theorem init : Sound (T := T) init where
  tagged _ _ ho := by cases ho
  once := List.nodup_nil
  old _ hk := by cases hk
  alive := by
    rintro e ob ⟨o, ho, _⟩
    cases ho
  apart := by
    rintro e e' ob ob' ⟨o, ho, _⟩
    cases ho
  kept k hk := absurd hk (Nat.not_lt_zero k)

/-- Nothing happens to the objects where an empty `either` begins. -/
theorem create (h : Sound w) (hnone : w.get e = none) :
    Sound (w.set e ⟨none, emptyState⟩) := by
  have hback : ∀ {e' ob}, Lives (w.set e ⟨none, emptyState⟩) e' ob → Lives w e' ob := by
    intro e' ob hl
    rcases lives_set.mp hl with ⟨_, hs⟩ | ⟨_, hl⟩
    · cases hs
    · exact hl
  refine ⟨tagged_set h.tagged rfl, h.once, h.old, fun e' ob hl => h.alive e' ob (hback hl),
    fun e₁ e₂ ob₁ ob₂ h₁ h₂ => h.apart e₁ e₂ ob₁ ob₂ (hback h₁) (hback h₂), fun k hk => ?_⟩
  refine (h.kept k hk).imp_right ?_
  rintro ⟨e', ob, hl, hid⟩
  have hne : e' ≠ e := by
    rintro rfl
    obtain ⟨o, ho, _⟩ := hl
    rw [hnone] at ho
    cases ho
  exact ⟨e', ob, lives_set.mpr (.inr ⟨hne, hl⟩), hid⟩

/-- Nothing happens to the objects where an empty `either` ends. -/
theorem remove (h : Sound w) (hempty : w.get e = some ⟨none, emptyState⟩) :
    Sound (w.remove e) := by
  refine ⟨fun e' p hp => ?_, h.once, h.old, fun e' ob hl => h.alive e' ob (lives_remove.mp hl).2,
    fun e₁ e₂ ob₁ ob₂ h₁ h₂ =>
      h.apart e₁ e₂ ob₁ ob₂ (lives_remove.mp h₁).2 (lives_remove.mp h₂).2, fun k hk => ?_⟩
  · by_cases he : e' = e
    · subst he
      rw [World.remove_self] at hp
      cases hp
    · exact h.tagged e' p ((World.remove_other w he).symm.trans hp)
  · refine (h.kept k hk).imp_right ?_
    rintro ⟨e', ob, hl, hid⟩
    have hne : e' ≠ e := by
      rintro rfl
      obtain ⟨o, ho, hs⟩ := hl
      obtain rfl : _ = o := Option.some.inj (hempty.symm.trans ho)
      cases hs
    exact ⟨e', ob, lives_remove.mpr ⟨hne, hl⟩, hid⟩

/-- **The one object of the storage is destroyed, and no other is.** -/
theorem cleaned (h : Sound w) (ho : w.get e = some o) : Sound (w.cleaned e o) := by
  have hids : ∀ k ∈ o.ids, ∃ ob, Lives w e ob ∧ ob.id = k := fun k hk => by
    obtain ⟨ob, hs, hid⟩ := Either.mem_ids.mp hk
    exact ⟨ob, ⟨o, ho, hs⟩, hid⟩
  refine ⟨tagged_set h.tagged rfl, ?_, fun k hk => ?_, fun e' ob hl => ?_,
    fun e₁ e₂ ob₁ ob₂ h₁ h₂ =>
      h.apart e₁ e₂ ob₁ ob₂ (lives_cleaned.mp h₁).2 (lives_cleaned.mp h₂).2, fun k hk => ?_⟩
  · refine List.nodup_append.mpr ⟨?_, h.once, ?_⟩
    · unfold Either.ids
      cases o.storage <;> simp
    · rintro k hk _ hk' rfl
      obtain ⟨ob, hl, rfl⟩ := hids k hk
      exact (h.alive e ob hl).2 hk'
  · rcases List.mem_append.mp hk with hk | hk
    · obtain ⟨ob, hl, rfl⟩ := hids k hk
      exact (h.alive e ob hl).1
    · exact h.old k hk
  · obtain ⟨hne, hl⟩ := lives_cleaned.mp hl
    refine ⟨(h.alive e' ob hl).1, fun hmem => ?_⟩
    rcases List.mem_append.mp hmem with hmem | hmem
    · obtain ⟨ob', hl', hid⟩ := hids _ hmem
      exact hne (h.apart e' e ob ob' hl hl' hid.symm)
    · exact (h.alive e' ob hl).2 hmem
  · rcases h.kept k hk with hk | ⟨e', ob, hl, hid⟩
    · exact .inl (List.mem_append.mpr (.inr hk))
    by_cases he : e' = e
    · subst he
      obtain ⟨p, hp, hs⟩ := hl
      obtain rfl : o = p := Option.some.inj (ho.symm.trans hp)
      exact .inl (List.mem_append.mpr (.inl (Either.mem_ids.mpr ⟨ob, hs, hid⟩)))
    · exact .inr ⟨e', ob, lives_cleaned.mpr ⟨he, hl⟩, hid⟩

/-- **An object is constructed where none is alive.** -/
theorem placed (h : Sound w) (hempty : w.get e = some ⟨none, emptyState⟩) (i : Fin n) (v : T i) :
    Sound (w.placed e i v) := by
  have hlt : ∀ {e' ob}, Lives w e' ob → ob.id < w.made := fun hl => (h.alive _ _ hl).1
  refine ⟨tagged_set h.tagged rfl, h.once, fun k hk => Nat.lt_succ_of_lt (h.old k hk),
    fun e' ob hl => ?_, fun e₁ e₂ ob₁ ob₂ h₁ h₂ hid => ?_, fun k hk => ?_⟩
  · rcases lives_placed.mp hl with ⟨_, rfl⟩ | ⟨_, hl⟩
    · exact ⟨Nat.lt_succ_self _, fun hmem => Nat.lt_irrefl _ (h.old _ hmem)⟩
    · exact ⟨Nat.lt_succ_of_lt (hlt hl), (h.alive e' ob hl).2⟩
  · rcases lives_placed.mp h₁ with ⟨he₁, rfl⟩ | ⟨_, h₁⟩
    · rcases lives_placed.mp h₂ with ⟨he₂, rfl⟩ | ⟨_, h₂⟩
      · exact he₁.trans he₂.symm
      · have := hlt h₂
        simp only at hid
        omega
    · rcases lives_placed.mp h₂ with ⟨_, rfl⟩ | ⟨_, h₂⟩
      · have := hlt h₁
        simp only at hid
        omega
      · exact h.apart e₁ e₂ ob₁ ob₂ h₁ h₂ hid
  · rcases Nat.lt_succ_iff_lt_or_eq.mp hk with hk | rfl
    · refine (h.kept k hk).imp_right ?_
      rintro ⟨e', ob, hl, hid⟩
      have hne : e' ≠ e := by
        rintro rfl
        obtain ⟨o, ho, hs⟩ := hl
        obtain rfl : _ = o := Option.some.inj (hempty.symm.trans ho)
        cases hs
      exact ⟨e', ob, lives_placed.mpr (.inr ⟨hne, hl⟩), hid⟩
    · exact .inr ⟨e, _, lives_placed.mpr (.inl ⟨rfl, rfl⟩), rfl⟩

/-- What is moved from stays alive. -/
theorem taken (h : Sound w) (hl : Lives w e ob) : Sound (w.taken moved e ob) := by
  have hback : ∀ {e' ob'}, Lives (w.taken moved e ob) e' ob' →
      ∃ ob₀, Lives w e' ob₀ ∧ ob₀.id = ob'.id := by
    intro e' ob' hl'
    rcases lives_taken.mp hl' with ⟨rfl, rfl⟩ | ⟨_, hl'⟩
    · exact ⟨ob, hl, rfl⟩
    · exact ⟨ob', hl', rfl⟩
  refine ⟨tagged_set h.tagged rfl, h.once, h.old, fun e' ob' hl' => ?_,
    fun e₁ e₂ ob₁ ob₂ h₁ h₂ hid => ?_, fun k hk => ?_⟩
  · obtain ⟨ob₀, hl₀, hid⟩ := hback hl'
    exact hid ▸ h.alive e' ob₀ hl₀
  · obtain ⟨ob₃, h₃, hid₃⟩ := hback h₁
    obtain ⟨ob₄, h₄, hid₄⟩ := hback h₂
    exact h.apart e₁ e₂ ob₃ ob₄ h₃ h₄ (by omega)
  · refine (h.kept k hk).imp_right ?_
    rintro ⟨e', ob', hl', hid⟩
    by_cases he : e' = e
    · subst he
      obtain rfl := hl'.eq hl
      exact ⟨e', _, lives_taken.mpr (.inl ⟨rfl, rfl⟩), hid⟩
    · exact ⟨e', ob', lives_taken.mpr (.inr ⟨he, hl'⟩), hid⟩

/-- **The object of the source ends, and its value goes on in a new one.** -/
theorem transferred (moved : ∀ i, T i → T i) (h : Sound w) (hne : e ≠ src) (ho : w.get src = some o)
    (hempty : w.get e = some ⟨none, emptyState⟩) : Sound (w.transferred moved e src o) := by
  unfold World.transferred
  cases hs : o.storage with
  | none => exact h.cleaned ho
  | some ob =>
    have hsrc : Lives (w.cleaned e ⟨none, emptyState⟩) src ob :=
      lives_cleaned.mpr ⟨hne.symm, o, ho, hs⟩
    have hids : Either.ids ⟨some ⟨ob.alt, moved ob.alt ob.val, ob.id⟩, ob.alt + 1⟩ = o.ids := by
      simp [Either.ids, hs]
    have htaken : Sound ((w.cleaned e ⟨none, emptyState⟩).taken moved src ob) :=
      (h.cleaned hempty).taken hsrc
    have hplaced := htaken.placed ((World.taken_other _ ob hne).trans (World.cleaned_self w e _))
      ob.alt ob.val
    have hclean := hplaced.cleaned
      ((World.placed_other _ _ _ hne.symm).trans (World.taken_self _ src ob))
    rwa [World.cleaned_congr hids] at hclean

end Sound

/-! ## The operations -/

/-- What the constructor of an alternative throws, which the operation
calls. -/
def Op.thrown : Op T X → Option X
  | inPlace _ _ (.error x) | emplace _ _ (.error x) => some x
  | _ => none

/-- **An operation throws what that constructor throws**, and returns
otherwise. -/
def Op.ends (op : Op T X) (w' : World T) : EStateM.Result (Failure X) (World T) Unit :=
  match op.thrown with
  | some x => .error (.thrown x) w'
  | none => .ok () w'

theorem create_run : create (X := X) e w = .ok () (w.set e ⟨none, emptyState⟩) := rfl

theorem remove_run : remove (X := X) e w = .ok () (w.remove e) := rfl

theorem inPlace_returns (X : Type) : (Op.inPlace (X := X) e i (.ok v)).body moved w =
    .ok () (((w.set e ⟨none, emptyState⟩).cleaned e ⟨none, emptyState⟩).placed e i v) := by
  simp only [Op.body]
  rw [Calls.bind_apply create_run]
  refine Calls.catch_ok (emplace_run (World.set_self w e _) rfl ?_ (World.cleaned_self _ e _))
  rfl

theorem inPlace_throws : (Op.inPlace (T := T) e i (.error x)).body moved w =
    .error (.thrown x) (((w.set e ⟨none, emptyState⟩).cleaned e ⟨none, emptyState⟩).remove e) := by
  have hrun : emplace e i (ctor (.error x)) (w.set e ⟨none, emptyState⟩) =
      .error (.thrown x) ((w.set e ⟨none, emptyState⟩).cleaned e ⟨none, emptyState⟩) :=
    emplace_throws (World.set_self w e _) rfl rfl
  simp only [Op.body]
  rw [Calls.bind_apply create_run, Calls.catch_error hrun, Calls.bind_apply remove_run]
  rfl

theorem emplace_returns (X : Type) (h : w.get e = some o) (ht : o.Tagged) :
    (Op.emplace (X := X) e i (.ok v)).body moved w = .ok () ((w.cleaned e o).placed e i v) :=
  emplace_run h ht rfl (World.cleaned_self w e o)

theorem emplace_fails (h : w.get e = some o) (ht : o.Tagged) :
    (Op.emplace (T := T) e i (.error x)).body moved w = .error (.thrown x) (w.cleaned e o) :=
  emplace_throws h ht rfl

theorem moveConstruct_run (X : Type) (hne : e ≠ src) (h : w.get src = some o) (ht : o.Tagged) :
    (Op.moveConstruct (X := X) e src).body moved w =
      .ok () ((w.set e ⟨none, emptyState⟩).transferred moved e src o) := by
  simp only [Op.body]
  rw [Calls.bind_apply create_run]
  exact moveFrom_run hne ((World.set_other w _ hne.symm).trans h) ht (World.set_self w e _)

theorem moveAssign_run (X : Type) (hne : e ≠ src) (hp : w.get e = some p) (htp : p.Tagged)
    (h : w.get src = some o) (ht : o.Tagged) : (Op.moveAssign (X := X) e src).body moved w =
      .ok () ((w.cleaned e p).transferred moved e src o) := by
  simp only [Op.body]
  rw [Calls.bind_apply (clean_run hp htp)]
  exact moveFrom_run hne ((World.cleaned_other w p hne.symm).trans h) ht
    (World.cleaned_self w e p)

theorem destroy_run (X : Type) (h : w.get e = some o) (ht : o.Tagged) :
    (Op.destroy (X := X) e).body moved w = .ok () ((w.cleaned e o).remove e) := by
  simp only [Op.body]
  rw [Calls.bind_apply (clean_run h ht), remove_run]

theorem World.transferred_other (he : e' ≠ e) (hsrc : e' ≠ src) :
    (w.transferred moved e src o).get e' = w.get e' := by
  unfold transferred
  cases o.storage with
  | none => exact cleaned_other w o hsrc
  | some ob =>
    rw [cleaned_other _ o hsrc, placed_other _ _ _ he, taken_other _ ob hsrc,
      cleaned_other w _ he]

/-- **An operation ends in one of the two ways, with the invariant and
with every other `either` as it was.** -/
theorem Sound.run (moved : ∀ i, T i → T i) (h : Sound w) (hv : op.Valid w) :
    ∃ w', op.body moved w = op.ends w' ∧ Sound w' ∧ ∀ e ∉ op.names, w'.get e = w.get e := by
  have hother : ∀ {e e' : ℕ}, e' ∉ [e] → e' ≠ e := fun hni heq => hni (by simp [heq])
  cases op with
  | default e => exact ⟨_, create_run, h.create hv, fun e' he => World.set_other w _ (hother he)⟩
  | inPlace e i a =>
    have hempty := (h.create hv).cleaned (World.set_self w e _)
    have hself := World.cleaned_self (w.set e ⟨none, emptyState⟩) e ⟨none, emptyState⟩
    have hframe : ∀ e' ≠ e, ((w.set e ⟨none, emptyState⟩).cleaned e ⟨none, emptyState⟩).get e' =
        w.get e' := fun e' he => (World.cleaned_other _ _ he).trans (World.set_other w _ he)
    cases a with
    | ok v =>
      exact ⟨_, inPlace_returns X, hempty.placed hself i v,
        fun e' he => (World.placed_other _ i v (hother he)).trans (hframe e' (hother he))⟩
    | error x =>
      exact ⟨_, inPlace_throws, hempty.remove hself,
        fun e' he => (World.remove_other _ (hother he)).trans (hframe e' (hother he))⟩
  | emplace e i a =>
    obtain ⟨o, ho⟩ := Option.ne_none_iff_exists'.mp hv
    have ht := h.tagged e o ho
    cases a with
    | ok v =>
      exact ⟨_, emplace_returns X ho ht, (h.cleaned ho).placed (World.cleaned_self w e o) i v,
        fun e' he => (World.placed_other _ i v (hother he)).trans
          (World.cleaned_other w o (hother he))⟩
    | error x =>
      exact ⟨_, emplace_fails ho ht, h.cleaned ho,
        fun e' he => World.cleaned_other w o (hother he)⟩
  | moveConstruct e src =>
    obtain ⟨hnone, hsome⟩ := hv
    obtain ⟨o, ho⟩ := Option.ne_none_iff_exists'.mp hsome
    have hne : e ≠ src := fun heq => hsome (heq ▸ hnone)
    refine ⟨_, moveConstruct_run X hne ho (h.tagged src o ho),
      (h.create hnone).transferred moved hne ((World.set_other w _ hne.symm).trans ho)
        (World.set_self w e _), fun e' he => ?_⟩
    simp only [Op.names, List.mem_cons, List.not_mem_nil, or_false, not_or] at he
    exact (World.transferred_other he.1 he.2).trans (World.set_other w _ he.1)
  | moveAssign e src =>
    obtain ⟨hne, hsome, hsome'⟩ := hv
    obtain ⟨p, hp⟩ := Option.ne_none_iff_exists'.mp hsome
    obtain ⟨o, ho⟩ := Option.ne_none_iff_exists'.mp hsome'
    refine ⟨_, moveAssign_run X hne hp (h.tagged e p hp) ho (h.tagged src o ho),
      (h.cleaned hp).transferred moved hne ((World.cleaned_other w p hne.symm).trans ho)
        (World.cleaned_self w e p), fun e' he => ?_⟩
    simp only [Op.names, List.mem_cons, List.not_mem_nil, or_false, not_or] at he
    exact (World.transferred_other he.1 he.2).trans (World.cleaned_other w p he.1)
  | clean e =>
    obtain ⟨o, ho⟩ := Option.ne_none_iff_exists'.mp hv
    exact ⟨_, clean_run ho (h.tagged e o ho), h.cleaned ho,
      fun e' he => World.cleaned_other w o (hother he)⟩
  | destroy e =>
    obtain ⟨o, ho⟩ := Option.ne_none_iff_exists'.mp hv
    exact ⟨_, destroy_run X ho (h.tagged e o ho),
      (h.cleaned ho).remove (World.cleaned_self w e o),
      fun e' he => (World.remove_other _ (hother he)).trans (World.cleaned_other w o (hother he))⟩

theorem Sound.step (h : Sound w) (hst : Step X moved w op w') : Sound w' := by
  cases hst with
  | returns hv hb | throws hv hb =>
    obtain ⟨w₁, hb₁, hsound, _⟩ := h.run moved hv
    rw [hb₁] at hb
    unfold Op.ends at hb
    cases hth : op.thrown <;> rw [hth] at hb <;> cases hb
    exact hsound

theorem Reachable.sound (h : Reachable X moved w) : Sound w :=
  Runs.invariant (fun _ _ _ hi _ hst => hi.step hst) h Sound.init

/-! ## The law -/

theorem Sound.count_one (h : Sound w) (hk : k ∈ w.destroyed) : w.destroyed.count k = 1 :=
  List.count_eq_one_of_mem h.once hk

/-- What a move leaves at its source and at its target. -/
theorem World.transferred_moves (moved : ∀ i, T i → T i) (hne : e ≠ src) (ht : o.Tagged)
    (hempty : w.get e = some ⟨none, emptyState⟩) :
    (w.transferred moved e src o).get src = some ⟨none, emptyState⟩ ∧
    (∃ p, (w.transferred moved e src o).get e = some p ∧ p.state = o.state ∧
      p.storage.map Object.value = o.storage.map Object.value) ∧
    (w.transferred moved e src o).destroyed = o.ids ++ w.destroyed := by
  unfold transferred
  unfold Either.Tagged at ht
  cases hs : o.storage with
  | none =>
    rw [hs] at ht
    exact ⟨cleaned_self w src o, ⟨_, (cleaned_other w o hne).trans hempty, ht.symm, rfl⟩, rfl⟩
  | some ob =>
    rw [hs] at ht
    refine ⟨cleaned_self _ src o, ⟨_, (cleaned_other _ o hne).trans (placed_self ..), ht.symm,
      rfl⟩, ?_⟩
    simp [cleaned, placed, taken, set, Either.ids]

/-- **`either`, in the state `w`.** What a user of one of these objects
relies on, now and in the next operation. -/
structure EitherLaw (X : Type) (moved : ∀ i, T i → T i) (w : World T) : Prop where
  /-- `state()` is positive exactly when an object of this alternative is
  alive in the storage. -/
  tag : ∀ e I, 0 < I →
    (state (X := X) e w = .ok I w ↔ ∃ ob, Lives w e ob ∧ ob.alt + 1 = I)
  /-- What is alive is so in one place, and its destructor has not run. -/
  alive : ∀ e ob, Lives w e ob → ob.id < w.made ∧ w.destroyed.count ob.id = 0 ∧
    ∀ e' ob', Lives w e' ob' → ob'.id = ob.id → e' = e
  /-- The destructor of everything else has run once. -/
  destroyed : ∀ k < w.made, (∀ e ob, Lives w e ob → ob.id ≠ k) → w.destroyed.count k = 1
  /-- No use of the storage is undefined: an operation ends the way its
  constructor does, and concerns no other `either`. -/
  defined : ∀ op : Op T X, op.Valid w → ∃ w', op.body moved w = op.ends w' ∧
    ∀ e ∉ op.names, w'.get e = w.get e
  /-- The destructor of `either` runs the one of its object. -/
  destroy : ∀ e o, w.get e = some o → ∃ w', (Op.destroy (X := X) e).body moved w = .ok () w' ∧
    w'.get e = none ∧ ∀ ob, Lives w e ob → w'.destroyed.count ob.id = 1
  clean : ∀ e o, w.get e = some o → ∃ w', (Op.clean (X := X) e).body moved w = .ok () w' ∧
    w'.get e = some ⟨none, emptyState⟩ ∧ ∀ ob, Lives w e ob → w'.destroyed.count ob.id = 1
  /-- After an `emplace` that returns the new object is alive, and the old
  one is not. -/
  emplace : ∀ e o i v, w.get e = some o → ∃ w',
    (Op.emplace (X := X) e i (.ok v)).body moved w = .ok () w' ∧
    w'.get e = some ⟨some ⟨i, v, w.made⟩, i + 1⟩ ∧
    ∀ ob, Lives w e ob → w'.destroyed.count ob.id = 1
  /-- After one that throws there is none, and none was constructed. -/
  throwing : ∀ e o i x, w.get e = some o → ∃ w',
    (Op.emplace (T := T) (X := X) e i (.error x)).body moved w = .error (.thrown x) w' ∧
    w'.get e = some ⟨none, emptyState⟩ ∧ w'.made = w.made ∧
    ∀ ob, Lives w e ob → w'.destroyed.count ob.id = 1
  /-- A move leaves its source empty, and its target with the value and
  the tag. -/
  move : ∀ e src o (op : Op T X), op = .moveConstruct e src ∨ op = .moveAssign e src →
    op.Valid w → w.get src = some o → ∃ w' p, op.body moved w = .ok () w' ∧
      w'.get src = some ⟨none, emptyState⟩ ∧ w'.get e = some p ∧ p.state = o.state ∧
      p.storage.map Object.value = o.storage.map Object.value ∧
      ∀ ob, Lives w e ob ∨ Lives w src ob → w'.destroyed.count ob.id = 1
  /-- A visitor is called with the living alternative or the monostate, and
  the reference it gets is to that object. -/
  visit : ∀ e o, w.get e = some o → ∀ (α : Type) (f : Option (Fin n) → Call T X α),
    visit e f w = f (o.storage.map Object.alt) w
  refers : ∀ e ob, Lives w e ob → object (X := X) e ob.alt w = .ok (ob.val, ob.id) w

theorem state_run (X : Type) (h : w.get e = some o) : state (X := X) e w = .ok o.state w := by
  unfold state
  rw [Calls.bind_apply (this_run h)]
  rfl

theorem Sound.tag (X : Type) (h : Sound w) (hk : 0 < k) :
    state (X := X) e w = .ok k w ↔ ∃ ob, Lives w e ob ∧ ob.alt + 1 = k := by
  cases he : w.get e with
  | none =>
    refine iff_of_false (fun hst => ?_) ?_
    · unfold state at hst
      rw [Calls.bind_throws (this_fails he)] at hst
      cases hst
    · rintro ⟨ob, ⟨o, ho, _⟩, _⟩
      rw [he] at ho
      cases ho
  | some o =>
    rw [state_run X he]
    have ht := h.tagged e o he
    unfold Either.Tagged at ht
    constructor
    · intro hst
      obtain rfl : o.state = k := by
        cases hst
        rfl
      cases hs : o.storage with
      | none =>
        rw [ht, hs] at hk
        exact absurd hk (Nat.lt_irrefl 0)
      | some ob =>
        refine ⟨ob, ⟨o, he, hs⟩, ?_⟩
        rw [ht, hs]
        rfl
    · rintro ⟨ob, ⟨p, hp, hs⟩, rfl⟩
      obtain rfl : o = p := Option.some.inj (he.symm.trans hp)
      rw [ht, hs]
      rfl

/-- Where the object in the storage ends. -/
theorem Lives.mem_ids (h : Lives w e ob) (ho : w.get e = some o) : ob.id ∈ o.ids := by
  obtain ⟨p, hp, hs⟩ := h
  obtain rfl : o = p := Option.some.inj (ho.symm.trans hp)
  exact Either.mem_ids.mpr ⟨ob, hs, rfl⟩

/-- **The tag is always that of the one live object.** -/
theorem either_law (h : Reachable X moved w) : EitherLaw X moved w := by
  have hsound := h.sound
  -- an object that was in the storage at `e` when that was cleaned
  have hcleaned : ∀ {e o ob}, w.get e = some o → Lives w e ob →
      (w.cleaned e o).destroyed.count ob.id = 1 := fun ho hl =>
    (hsound.cleaned ho).count_one (List.mem_append.mpr (.inl (hl.mem_ids ho)))
  refine ⟨fun e I hI => hsound.tag X hI, fun e ob hl => ?_, fun k hk hout => ?_, fun op hv => ?_,
    fun e o ho => ?_, fun e o ho => ?_, fun e o i v ho => ?_, fun e o i x ho => ?_,
    fun e src o op hop hv ho => ?_, fun e o ho _ f => visit_run ho (hsound.tagged e o ho),
    fun e ob hl => object_run hl⟩
  · refine ⟨(hsound.alive e ob hl).1, List.count_eq_zero.mpr (hsound.alive e ob hl).2, ?_⟩
    exact fun e' ob' hl' hid => hsound.apart e' e ob' ob hl' hl hid
  · rcases hsound.kept k hk with hmem | ⟨e, ob, hl, hid⟩
    · exact hsound.count_one hmem
    · exact absurd hid (hout e ob hl)
  · obtain ⟨w', hb, _, hframe⟩ := hsound.run moved hv
    exact ⟨w', hb, hframe⟩
  · exact ⟨_, destroy_run X ho (hsound.tagged e o ho), World.remove_self _ e,
      fun ob hl => hcleaned ho hl⟩
  · exact ⟨_, clean_run ho (hsound.tagged e o ho), World.cleaned_self w e o,
      fun ob hl => hcleaned ho hl⟩
  · exact ⟨_, emplace_returns X ho (hsound.tagged e o ho), World.placed_self _ e i v,
      fun ob hl => hcleaned ho hl⟩
  · exact ⟨_, emplace_fails ho (hsound.tagged e o ho), World.cleaned_self w e o, rfl,
      fun ob hl => hcleaned ho hl⟩
  · have ht := hsound.tagged src o ho
    rcases hop with rfl | rfl
    · obtain ⟨hnone, hsome⟩ := hv
      have hne : e ≠ src := fun heq => hsome (heq ▸ hnone)
      have hcreated := hsound.create hnone
      have hempty := World.set_self w e ⟨none, emptyState⟩
      obtain ⟨hsrc, ⟨p, hp, hstate, hval⟩, hdes⟩ :=
        World.transferred_moves moved hne ht hempty
      have hafter := hcreated.transferred moved hne
        ((World.set_other w _ hne.symm).trans ho) hempty
      refine ⟨_, p, moveConstruct_run X hne ho ht, hsrc, hp, hstate, hval, fun ob hl => ?_⟩
      rcases hl with ⟨q, hq, _⟩ | hl
      · rw [hnone] at hq
        cases hq
      · refine hafter.count_one ?_
        rw [hdes]
        exact List.mem_append.mpr (.inl (hl.mem_ids ho))
    · obtain ⟨hne, hsome, _⟩ := hv
      obtain ⟨q, hq⟩ := Option.ne_none_iff_exists'.mp hsome
      have hempty := World.cleaned_self w e q
      obtain ⟨hsrc, ⟨p, hp, hstate, hval⟩, hdes⟩ :=
        World.transferred_moves moved hne ht hempty
      have hafter := (hsound.cleaned hq).transferred moved hne
        ((World.cleaned_other w q hne.symm).trans ho) hempty
      refine ⟨_, p, moveAssign_run X hne hq (hsound.tagged e q hq) ho ht, hsrc, hp, hstate, hval,
        fun ob hl => hafter.count_one ?_⟩
      rw [hdes]
      rcases hl with hl | hl
      · exact List.mem_append.mpr (.inr (List.mem_append.mpr (.inl (hl.mem_ids hq))))
      · exact List.mem_append.mpr (.inl (hl.mem_ids ho))

/-- An object is constructed, its successor is not, and a third one is
moved. -/
theorem either_law_of_moves : ∃ w : World (fun _ : Fin 2 => ℕ),
    EitherLaw Unit (fun _ _ => 0) w ∧ w.get 0 = some ⟨none, 0⟩ ∧
    w.get 1 = some ⟨some ⟨1, 7, 2⟩, 2⟩ ∧ w.destroyed = [1, 0] := by
  refine ⟨_, either_law (.tail (.tail (.tail (.tail (.refl _) trivial (.returns
    (o := .inPlace 0 0 (.ok 5)) rfl rfl)) trivial (.throws (o := .emplace 0 1 (.error ())) ?_ rfl))
    trivial (.returns (o := .emplace 0 1 (.ok 7)) ?_ rfl)) trivial
    (.returns (o := .moveConstruct 1 0) ⟨rfl, ?_⟩ rfl)), rfl, rfl, rfl⟩
  · exact Option.some_ne_none _
  · exact Option.some_ne_none _
  · exact Option.some_ne_none _

end Alternatives

end PortableConcurrency
