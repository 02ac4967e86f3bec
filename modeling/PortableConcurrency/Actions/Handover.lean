import PortableConcurrency.Actions.Model

/-!
# What becomes of a scheduled continuation

The last reference to a scheduled continuation must not go without its
state being satisfied. A call and the destructor see to that, and moving an
action away keeps the reference. The move assignment drops whatever the
action on the left refers to. So a sequence of operations keeps the promise
exactly if nothing is assigned to an action that still refers to a living
continuation.
-/

namespace PortableConcurrency

namespace Actions

open Futures (Exn Storage)

variable {V E F : Type*}

/-- What an outcome leaves in the result state. -/
def Outcome.storage : Outcome V E → Storage V E
  | .passes x => .exception x
  | .ret r => r.storage
  | .future t _ => .inner t

theorem ret_storage_ne_empty (r : Futures.Ret V E) : r.storage ≠ .empty := by
  cases r with
  | value v => simp [Futures.Ret.storage]
  | throws e => simp [Futures.Ret.storage]
  | invalid => simp [Futures.Ret.storage]

theorem Outcome.storage_ne_empty (o : Outcome V E) : o.storage ≠ .empty := by
  cases o with
  | passes x => simp [Outcome.storage]
  | ret r => exact ret_storage_ne_empty r
  | future t ready => simp [Outcome.storage]

/-! ## One state -/

namespace CntState

/-- **Satisfied**, and the function object is gone. -/
def Settled (st : CntState V E F) : Prop := st.storage ≠ .empty ∧ st.action = none

/-- A state whose action has not been run. -/
structure Waiting (st : CntState V E F) : Prop where
  action : st.action ≠ none
  storage : st.storage = .empty
  executed : st.executed = false
  calls : st.calls = 0

variable {st : CntState V E F}

theorem store_of_empty (st : CntState V E F) (h : st.storage = .empty) (x : Storage V E) :
    st.store x = some { st with storage := x, executed := true } := by
  simp only [store, h]

/-- **`run` settles a waiting state** with what the function comes to. -/
theorem Waiting.run (h : st.Waiting) (o : Outcome V E) : ∃ st', st.run o = some st' ∧
    st'.storage = o.storage ∧ st'.action = none ∧ st'.calls ≤ 1 ∧ st'.alive = st.alive := by
  obtain ⟨f, hf⟩ := Option.ne_none_iff_exists'.mp h.action
  have hcalls := h.calls
  have hrun : st.run o = { st with action := none }.invoke o := by simp only [CntState.run, hf]
  rw [hrun]
  cases o with
  | passes x =>
    refine ⟨_, store_of_empty { st with action := none } h.storage _, rfl, rfl, ?_, rfl⟩
    simp only
    omega
  | ret r =>
    refine ⟨_, store_of_empty { st with action := none, calls := st.calls + 1 } h.storage _,
      rfl, rfl, ?_, rfl⟩
    simp only
    omega
  | future t ready =>
    refine ⟨_, rfl, rfl, rfl, ?_, rfl⟩
    simp only
    omega

/-- **`abandon` settles a waiting state** with `broken_promise`. -/
theorem Waiting.abandon (h : st.Waiting) : ∃ st', st.abandon = some st' ∧
    st'.storage = .exception .brokenPromise ∧ st'.action = none ∧ st'.calls ≤ 1 ∧
    st'.alive = st.alive := by
  have hcalls := h.calls
  refine ⟨{ st with storage := .exception .brokenPromise, executed := true, action := none },
    ?_, rfl, rfl, ?_, rfl⟩
  · simp only [CntState.abandon, h.executed, h.storage, store_of_empty st h.storage,
      Option.map_some]
  · simp only
    omega

end CntState

/-! ## The promise, and its condition -/

namespace World

variable {w w' : World V E F} {op : Op V E F} {x y c : ℕ} {a : Option ℕ}

/-- **Scheduled continuations survive the operation.** The functions have
been called at most once, and what lives without an action is settled. What
a call or a destruction of the last action stores is the outcome, or
`broken_promise`. -/
def Survives (w : World V E F) (op : Op V E F) : Prop :=
  ∀ w', w.step op = some w' →
    (∀ c, (w'.states c).calls ≤ 1) ∧
    (∀ c, (w'.states c).alive = true → (∀ x, ¬ w'.Refers x c) → (w'.states c).Settled) ∧
    (∀ x o c, op = .call x o → w.Refers x c → (w.states c).alive = true →
      (w'.states c).storage = o.storage) ∧
    (∀ x c, op = .destroy x → w.Refers x c → (w.states c).alive = true →
      (w'.states c).storage = .exception .brokenPromise)

/-- **Nothing is assigned to an action that refers to a living state**,
except that action itself. -/
def Careful (w : World V E F) (op : Op V E F) : Prop :=
  ∀ x y c, op = .moveAssign x y → x ≠ y → w.Refers x c → (w.states c).alive = false

/-- **What careful operations keep.** No two actions refer to one state;
what an action refers to is waiting, and what lives without one is
settled. -/
structure Kept (w : World V E F) : Prop where
  bound : ∀ x, w.actions x ≠ none → x < w.vars
  refers_lt : ∀ x c, w.Refers x c → c < w.fresh
  alive_lt : ∀ c, (w.states c).alive = true → c < w.fresh
  unique : ∀ x y c, w.Refers x c → w.Refers y c → x = y
  waiting : ∀ x c, w.Refers x c → (w.states c).Waiting
  settled : ∀ c, (w.states c).alive = true → (∀ x, ¬ w.Refers x c) → (w.states c).Settled
  once : ∀ c, (w.states c).calls ≤ 1

theorem kept_init : Kept (init : World V E F) := by
  refine ⟨?_, ?_, ?_, ?_, ?_, ?_, ?_⟩ <;> simp [init, Refers]

@[simp] theorem setAction_states (b : Option (Option ℕ)) :
    (w.setAction x b).states = w.states := rfl

@[simp] theorem setAction_fresh (b : Option (Option ℕ)) : (w.setAction x b).fresh = w.fresh := rfl

/-- **Actions change places.** The states stay as they are. What `z` refers
to after the operation is what `f z` referred to, no reference is
duplicated, and none to a living state is dropped. -/
theorem Kept.rename (h : Kept w) (f : ℕ → ℕ) (hstates : w'.states = w.states)
    (hfresh : w'.fresh = w.fresh) (hbound : ∀ x, w'.actions x ≠ none → x < w'.vars)
    (hfrom : ∀ z c, w'.Refers z c → w.Refers (f z) c)
    (hinj : ∀ z z' c, w'.Refers z c → w'.Refers z' c → f z = f z' → z = z')
    (hkeep : ∀ x c, w.Refers x c → (w.states c).alive = true → ∃ z, w'.Refers z c) : Kept w' where
  bound := hbound
  refers_lt z c hz := by
    rw [hfresh]
    exact h.refers_lt _ _ (hfrom z c hz)
  alive_lt c hc := by
    rw [hstates] at hc
    rw [hfresh]
    exact h.alive_lt c hc
  unique z z' c hz hz' := hinj z z' c hz hz' (h.unique _ _ _ (hfrom z c hz) (hfrom z' c hz'))
  waiting z c hz := by
    rw [hstates]
    exact h.waiting _ _ (hfrom z c hz)
  settled c hc hno := by
    rw [hstates] at hc ⊢
    refine h.settled c hc fun x hx => ?_
    obtain ⟨z, hz⟩ := hkeep x c hx hc
    exact hno z hz
  once c := by
    rw [hstates]
    exact h.once c

/-- An action that refers to nothing alive forgets it, or is destroyed. -/
theorem Kept.forget (h : Kept w) {b : Option (Option ℕ)} (hb : ∀ c, b ≠ some (some c))
    (hx : w.actions x ≠ none) (hdead : ∀ c, w.Refers x c → (w.states c).alive = false) :
    Kept (w.setAction x b) := by
  have hrefers : ∀ z c, (w.setAction x b).Refers z c ↔ z ≠ x ∧ w.Refers z c := by
    intro z c
    by_cases hz : z = x
    · simp [Refers, setAction, hz, hb]
    · simp [Refers, setAction, hz]
  refine h.rename id rfl rfl ?_ ?_ ?_ ?_
  · intro z hz
    by_cases hzx : z = x
    · exact h.bound z (hzx ▸ hx)
    · exact h.bound z (by simpa [setAction, hzx] using hz)
  · exact fun z c hz => ((hrefers z c).mp hz).2
  · exact fun _ _ _ _ _ heq => heq
  · intro z c hz hc
    refine ⟨z, (hrefers z c).mpr ⟨?_, hz⟩⟩
    rintro rfl
    rw [hdead c hz] at hc
    cases hc

/-- An action that is called or destroyed, and whose state has been
settled by that. -/
theorem Kept.settle (h : Kept w) {b : Option (Option ℕ)} (hb : ∀ c, b ≠ some (some c))
    (hx : w.Refers x c) {st : CntState V E F} (hst : st.Settled) (hcalls : st.calls ≤ 1)
    (halive : st.alive = (w.states c).alive) : Kept ((w.setAction x b).setState c st) := by
  have hrefers : ∀ z d, ((w.setAction x b).setState c st).Refers z d ↔ z ≠ x ∧ w.Refers z d := by
    intro z d
    by_cases hz : z = x
    · simp [Refers, setState, setAction, hz, hb]
    · simp [Refers, setState, setAction, hz]
  -- the only action that referred to `c` is `x`
  have hother : ∀ z d, z ≠ x → w.Refers z d → d ≠ c := by
    rintro z d hz hd rfl
    exact hz (h.unique _ _ _ hd hx)
  refine ⟨?_, ?_, ?_, ?_, ?_, ?_, ?_⟩
  · intro z hz
    by_cases hzx : z = x
    · subst hzx
      exact h.bound z (by rw [hx]; simp)
    · exact h.bound z (by simpa [setState, setAction, hzx] using hz)
  · exact fun z d hz => h.refers_lt z d ((hrefers z d).mp hz).2
  · intro d hd
    by_cases hdc : d = c
    · subst hdc
      exact h.refers_lt x d hx
    · exact h.alive_lt d (by simpa [setState, setAction, hdc] using hd)
  · exact fun z z' d hz hz' =>
      h.unique z z' d ((hrefers z d).mp hz).2 ((hrefers z' d).mp hz').2
  · intro z d hz
    obtain ⟨hzx, hz⟩ := (hrefers z d).mp hz
    have hdc := hother z d hzx hz
    simpa [setState, setAction, hdc] using h.waiting z d hz
  · intro d hd hno
    by_cases hdc : d = c
    · subst hdc
      simpa [setState] using hst
    · have hsettled : (w.states d).Settled := by
        refine h.settled d (by simpa [setState, setAction, hdc] using hd) fun z hz => ?_
        refine hno z ((hrefers z d).mpr ⟨?_, hz⟩)
        rintro rfl
        exact hdc (Option.some.inj (Option.some.inj (hz.symm.trans hx)))
      simpa [setState, setAction, hdc] using hsettled
  · intro d
    by_cases hdc : d = c
    · subst hdc
      simpa [setState] using hcalls
    · simpa [setState, setAction, hdc] using h.once d

/-! ## The operations -/

/-- `schedule` constructs an action and has a state of its own. -/
theorem Kept.post (h : Kept w) {f : F} (hst : w.step (.post f) = some w') : Kept w' := by
  obtain rfl := Option.some.inj hst
  have hrefers : ∀ z d, (w.push (some w.fresh)).Refers z d ↔
      (z = w.vars ∧ d = w.fresh) ∨ (z ≠ w.vars ∧ w.Refers z d) := by
    intro z d
    by_cases hz : z = w.vars
    · simp [Refers, push, hz, eq_comm]
    · simp [Refers, push, hz]
  have hold : ∀ z d, w.Refers z d → d ≠ w.fresh := fun z d hz => (h.refers_lt z d hz).ne
  refine ⟨?_, ?_, ?_, ?_, ?_, ?_, ?_⟩
  · intro z hz
    by_cases hzv : z = w.vars
    · exact hzv ▸ Nat.lt_succ_self _
    · exact Nat.lt_succ_of_lt (h.bound z (by simpa [push, hzv] using hz))
  · intro z d hz
    rcases (hrefers z d).mp hz with ⟨-, rfl⟩ | ⟨-, hz⟩
    · exact Nat.lt_succ_self _
    · exact Nat.lt_succ_of_lt (h.refers_lt z d hz)
  · intro d hd
    by_cases hdf : d = w.fresh
    · exact hdf ▸ Nat.lt_succ_self _
    · exact Nat.lt_succ_of_lt (h.alive_lt d (by simpa [hdf] using hd))
  · intro z z' d hz hz'
    rcases (hrefers z d).mp hz with ⟨rfl, rfl⟩ | ⟨-, hz⟩ <;>
      rcases (hrefers z' _).mp hz' with ⟨rfl, hd⟩ | ⟨-, hz'⟩
    · rfl
    · exact absurd rfl (hold _ _ hz')
    · exact absurd hd (hold _ _ hz)
    · exact h.unique _ _ _ hz hz'
  · intro z d hz
    rcases (hrefers z d).mp hz with ⟨-, rfl⟩ | ⟨-, hz⟩
    · exact ⟨by simp, by simp, by simp, by simp⟩
    · simpa [hold z d hz] using h.waiting z d hz
  · intro d hd hno
    by_cases hdf : d = w.fresh
    · exact absurd ((hrefers w.vars d).mpr (.inl ⟨rfl, hdf⟩)) (hno _)
    · have hsettled : (w.states d).Settled := by
        refine h.settled d (by simpa [hdf] using hd) fun z hz => ?_
        refine hno z ((hrefers z d).mpr (.inr ⟨?_, hz⟩))
        rintro rfl
        exact (h.bound w.vars (by rw [hz]; simp)).false
      simpa [hdf] using hsettled
  · intro d
    by_cases hdf : d = w.fresh
    · simp [hdf]
    · simpa [hdf] using h.once d

/-- An action is constructed from another one, which refers to nothing
then. -/
theorem Kept.moveConstruct (h : Kept w) (hst : w.step (.moveConstruct x) = some w') : Kept w' := by
  simp only [step] at hst
  split at hst
  · rename_i a ha
    obtain rfl := Option.some.inj hst
    have hxv : x < w.vars := h.bound x (by rw [ha]; simp)
    have hrefers : ∀ z d, ((w.setAction x (some none)).push a).Refers z d ↔
        (z = w.vars ∧ a = some d) ∨ (z ≠ w.vars ∧ z ≠ x ∧ w.Refers z d) := by
      intro z d
      by_cases hz : z = w.vars
      · simp [Refers, push, setAction, hz]
      · by_cases hzx : z = x
        · subst hzx
          simp [Refers, push, setAction, hz]
        · simp [Refers, push, setAction, hz, hzx]
    refine h.rename (fun z => if z = w.vars then x else z) rfl rfl ?_ ?_ ?_ ?_
    · intro z hz
      by_cases hzv : z = w.vars
      · exact hzv ▸ Nat.lt_succ_self _
      · by_cases hzx : z = x
        · rw [hzx]
          exact Nat.lt_succ_of_lt hxv
        · exact Nat.lt_succ_of_lt (h.bound z (by simpa [push, setAction, hzv, hzx] using hz))
    · intro z d hz
      rcases (hrefers z d).mp hz with ⟨rfl, rfl⟩ | ⟨hzv, -, hz⟩
      · simpa [Refers] using ha
      · simpa [hzv] using hz
    · intro z z' d hz hz' heq
      rcases (hrefers z d).mp hz with ⟨rfl, -⟩ | ⟨hzv, hzx, -⟩ <;>
        rcases (hrefers z' d).mp hz' with ⟨rfl, -⟩ | ⟨hzv', hzx', -⟩
      · rfl
      · simp only [if_true, hzv', if_false] at heq
        exact absurd heq.symm hzx'
      · simp only [if_true, hzv, if_false] at heq
        exact absurd heq hzx
      · simpa [hzv, hzv'] using heq
    · intro z d hz _
      by_cases hzx : z = x
      · refine ⟨w.vars, (hrefers _ _).mpr (.inl ⟨rfl, ?_⟩)⟩
        rw [hzx, Refers, ha] at hz
        exact Option.some.inj hz
      · refine ⟨z, (hrefers _ _).mpr (.inr ⟨?_, hzx, hz⟩)⟩
        exact (h.bound z (by rw [hz]; simp)).ne
  · cases hst

/-- **An assignment to an action that refers to nothing alive.** -/
theorem Kept.moveAssign (h : Kept w) (hcareful : Careful w (.moveAssign x y))
    (hst : w.step (.moveAssign x y) = some w') : Kept w' := by
  simp only [step] at hst
  split at hst
  · rename_i b a hx hy
    split at hst
    · obtain rfl := Option.some.inj hst
      exact h
    · rename_i hxy
      obtain rfl := Option.some.inj hst
      have hrefers : ∀ z d, ((w.setAction x (some a)).setAction y (some none)).Refers z d ↔
          (z = x ∧ a = some d) ∨ (z ≠ x ∧ z ≠ y ∧ w.Refers z d) := by
        intro z d
        by_cases hz : z = x
        · subst hz
          simp [Refers, setAction, hxy]
        · by_cases hzy : z = y
          · subst hzy
            simp [Refers, setAction, hz]
          · simp [Refers, setAction, hz, hzy]
      refine h.rename (fun z => if z = x then y else z) rfl rfl ?_ ?_ ?_ ?_
      · intro z hz
        by_cases hzx : z = x
        · exact hzx ▸ h.bound x (by rw [hx]; simp)
        · by_cases hzy : z = y
          · exact hzy ▸ h.bound y (by rw [hy]; simp)
          · exact h.bound z (by simpa [setAction, hzx, hzy] using hz)
      · intro z d hz
        rcases (hrefers z d).mp hz with ⟨rfl, rfl⟩ | ⟨hzx, -, hz⟩
        · simpa [Refers] using hy
        · simpa [hzx] using hz
      · intro z z' d hz hz' heq
        rcases (hrefers z d).mp hz with ⟨rfl, -⟩ | ⟨hzx, hzy, -⟩ <;>
          rcases (hrefers z' d).mp hz' with ⟨rfl, -⟩ | ⟨hzx', hzy', -⟩
        · rfl
        · simp only [if_true, hzx', if_false] at heq
          exact absurd heq.symm hzy'
        · simp only [if_true, hzx, if_false] at heq
          exact absurd heq hzy
        · simpa [hzx, hzx'] using heq
      · intro z d hz halive
        by_cases hzx : z = x
        · subst hzx
          rw [hcareful z y d rfl hxy hz] at halive
          cases halive
        · by_cases hzy : z = y
          · refine ⟨x, (hrefers _ _).mpr (.inl ⟨rfl, ?_⟩)⟩
            rw [hzy, Refers, hy] at hz
            exact Option.some.inj hz
          · exact ⟨z, (hrefers _ _).mpr (.inr ⟨hzx, hzy, hz⟩)⟩
  · cases hst

/-- **What a call does.** -/
theorem Kept.call (h : Kept w) {o : Outcome V E} (hst : w.step (.call x o) = some w') :
    Kept w' ∧ ∀ c, w.Refers x c → (w.states c).alive = true →
      (w'.states c).storage = o.storage := by
  simp only [step] at hst
  split at hst
  · rename_i a ha
    have hx : w.actions x ≠ none := by
      rw [ha]
      simp
    cases a with
    | none =>
      have hnot : ∀ c, ¬ w.Refers x c := by simp [Refers, ha]
      simp only [lock] at hst
      obtain rfl := Option.some.inj hst
      exact ⟨h.forget (by simp) hx fun c hc => absurd hc (hnot c), fun c hc => absurd hc (hnot c)⟩
    | some c =>
      have heq : ∀ d, w.Refers x d → d = c := fun d hd =>
        (Option.some.inj (Option.some.inj (ha.symm.trans hd))).symm
      simp only [lock] at hst
      by_cases halive : ((w.setAction x (some none)).states c).alive = true
      · rw [if_pos halive] at hst
        obtain ⟨st', hrun, hstorage, haction, hcalls, halive'⟩ := (h.waiting x c ha).run o
        rw [setAction_states, hrun] at hst
        obtain rfl := Option.some.inj hst
        have hsettled : st'.Settled := ⟨hstorage ▸ o.storage_ne_empty, haction⟩
        refine ⟨h.settle (by simp) ha hsettled hcalls halive', fun d hd _ => ?_⟩
        rw [heq d hd]
        simpa [setState] using hstorage
      · rw [if_neg halive] at hst
        obtain rfl := Option.some.inj hst
        refine ⟨h.forget (by simp) hx fun d hd => ?_, fun d hd hlives => ?_⟩
        · rw [heq d hd]
          simpa using halive
        · rw [heq d hd] at hlives
          exact absurd hlives halive
  · cases hst

/-- **What the destructor does.** -/
theorem Kept.destroy (h : Kept w) (hst : w.step (.destroy x) = some w') :
    Kept w' ∧ ∀ c, w.Refers x c → (w.states c).alive = true →
      (w'.states c).storage = .exception .brokenPromise := by
  simp only [step] at hst
  split at hst
  · rename_i a ha
    have hx : w.actions x ≠ none := by
      rw [ha]
      simp
    cases a with
    | none =>
      have hnot : ∀ c, ¬ w.Refers x c := by simp [Refers, ha]
      simp only [lock, Option.map_some] at hst
      obtain rfl := Option.some.inj hst
      exact ⟨h.forget (by simp) hx fun c hc => absurd hc (hnot c), fun c hc => absurd hc (hnot c)⟩
    | some c =>
      have heq : ∀ d, w.Refers x d → d = c := fun d hd =>
        (Option.some.inj (Option.some.inj (ha.symm.trans hd))).symm
      simp only [lock] at hst
      by_cases halive : (w.states c).alive = true
      · rw [if_pos halive] at hst
        obtain ⟨st', hab, hstorage, haction, hcalls, halive'⟩ := (h.waiting x c ha).abandon
        rw [hab] at hst
        obtain rfl := Option.some.inj hst
        have hsettled : st'.Settled := ⟨by rw [hstorage]; simp, haction⟩
        refine ⟨h.settle (by simp) ha hsettled hcalls halive', fun d hd _ => ?_⟩
        rw [heq d hd]
        simpa [setState, setAction] using hstorage
      · rw [if_neg halive] at hst
        obtain rfl := Option.some.inj hst
        refine ⟨h.forget (by simp) hx fun d hd => ?_, fun d hd hlives => ?_⟩
        · rw [heq d hd]
          simpa using halive
        · rw [heq d hd] at hlives
          exact absurd hlives halive
  · cases hst

/-- A result future goes. -/
theorem Kept.expire (h : Kept w) (hst : w.step (.expire c) = some w') : Kept w' := by
  simp only [step] at hst
  split at hst
  · obtain rfl := Option.some.inj hst
    have hother : ∀ d, ((w.setState c { w.states c with alive := false }).states d).alive = true →
        d ≠ c := by
      rintro d hd rfl
      simp [setState] at hd
    refine ⟨h.bound, h.refers_lt, ?_, h.unique, ?_, ?_, ?_⟩
    · intro d hd
      exact h.alive_lt d (by simpa [setState, hother d hd] using hd)
    · intro z d hz
      by_cases hdc : d = c
      · subst hdc
        have hw := h.waiting z d hz
        simpa [setState] using (⟨hw.action, hw.storage, hw.executed, hw.calls⟩ :
          ({ w.states d with alive := false } : CntState V E F).Waiting)
      · simpa [setState, hdc] using h.waiting z d hz
    · intro d hd hno
      have hdc := hother d hd
      simpa [setState, hdc] using h.settled d (by simpa [setState, hdc] using hd) hno
    · intro d
      by_cases hdc : d = c
      · subst hdc
        simpa [setState] using h.once d
      · simpa [setState, hdc] using h.once d
  · cases hst

/-- **No call fails**: `run` finds the function where it expects it, and
stores the result where there is none. -/
theorem Kept.call_proceeds (h : Kept w) (hx : w.actions x = some a) (o : Outcome V E) :
    ∃ w', w.step (.call x o) = some w' := by
  simp only [World.step, hx]
  cases a with
  | none => exact ⟨_, rfl⟩
  | some c =>
    obtain ⟨st', hrun, -⟩ := (h.waiting x c hx).run o
    simp only [lock, setAction_states, hrun, Option.map_some]
    split
    · exact ⟨_, rfl⟩
    · exact ⟨_, rfl⟩

/-- **No destructor throws.** -/
theorem Kept.destroy_proceeds (h : Kept w) (hx : w.actions x = some a) :
    ∃ w', w.step (.destroy x) = some w' := by
  simp only [World.step, hx]
  cases a with
  | none => exact ⟨_, rfl⟩
  | some c =>
    obtain ⟨st', hab, -⟩ := (h.waiting x c hx).abandon
    simp only [lock, hab, Option.map_some]
    split
    · exact ⟨_, rfl⟩
    · exact ⟨_, rfl⟩

/-- **The step lemma.** -/
theorem Kept.step (h : Kept w) (hcareful : Careful w op) (hst : w.step op = some w') :
    Kept w' := by
  cases op with
  | post f => exact h.post hst
  | moveConstruct x => exact h.moveConstruct hst
  | moveAssign x y => exact h.moveAssign hcareful hst
  | call x o => exact (h.call hst).1
  | destroy x => exact (h.destroy hst).1
  | expire c => exact h.expire hst

theorem Kept.survives (h : Kept w) (hcareful : Careful w op) : Survives w op := by
  intro w' hst
  have h' := h.step hcareful hst
  refine ⟨h'.once, h'.settled, ?_, ?_⟩
  · rintro x o c rfl hx halive
    exact (h.call hst).2 c hx halive
  · rintro x c rfl hx halive
    exact (h.destroy hst).2 c hx halive

/-- **An assignment to an action that refers to a living state loses the
state**: it is not settled, and nothing refers to it. -/
theorem Kept.careful_of_survives (h : Kept w) (hst : w.step op = some w') (hs : Survives w op) :
    Careful w op := by
  rintro x y c rfl hxy hx
  by_contra hdead
  have halive : (w.states c).alive = true := by simpa using hdead
  obtain ⟨-, hsettled, -⟩ := hs w' hst
  have hwaiting := (h.waiting x c hx).storage
  simp only [World.step] at hst
  split at hst
  · rename_i b a hb hy
    rw [if_neg hxy] at hst
    obtain rfl := Option.some.inj hst
    refine (hsettled c (by simpa using halive) ?_).1 hwaiting
    intro z hz
    by_cases hzx : z = x
    · subst hzx
      -- it has the reference of `y` now, which was not one to `c`
      have ha : a = some c := by simpa [Refers, setAction, hxy] using hz
      exact hxy (h.unique _ _ _ hx (hy.trans (by rw [ha])))
    · have hz : w.Refers z c := by
        by_cases hzy : z = y
        · subst hzy
          simp [Refers, setAction] at hz
        · simpa [Refers, setAction, hzx, hzy] using hz
      exact hzx (h.unique _ _ _ hz hx)
  · cases hst

/-- **Scheduled continuations survive exactly the handling that is
careful.** The sequences of operations in which each function is called at
most once, and nothing is left unsettled when its last action goes, are
those in which nothing is assigned to an action that still refers to a
living state. -/
theorem survives_iff_careful (ops : List (Op V E F)) (w : World V E F) :
    Trace Step Survives init ops w ↔ Trace Step Careful init ops w := by
  constructor
  · intro h
    have hboth : Trace Step Careful (init : World V E F) ops w ∧ Kept w := by
      induction h with
      | nil => exact ⟨.nil _, kept_init⟩
      | snoc _ hok hst ih =>
        obtain ⟨htr, hkept⟩ := ih
        have hcareful := hkept.careful_of_survives hst hok
        exact ⟨.snoc htr hcareful hst, hkept.step hcareful hst⟩
    exact hboth.1
  · intro h
    have hboth : Trace Step Survives (init : World V E F) ops w ∧ Kept w := by
      induction h with
      | nil => exact ⟨.nil _, kept_init⟩
      | snoc _ hok hst ih =>
        obtain ⟨htr, hkept⟩ := ih
        exact ⟨.snoc htr (hkept.survives hok) hst, hkept.step hok hst⟩
    exact hboth.1

/-- **Two continuations are scheduled, and the second action is assigned to
the first**: nothing refers to the first state, and nothing is stored. -/
theorem not_survives_of_assign : ¬ ∀ (ops : List (Op Unit Unit Unit)) (w : World Unit Unit Unit),
    Trace Step Unguarded init ops w → Trace Step Survives init ops w := by
  intro hall
  have hrun : ∀ {es w} e {w'}, Trace Step Unguarded (init : World Unit Unit Unit) es w →
      w.step e = some w' → Trace Step Unguarded init (es ++ [e]) w' :=
    fun _ _ h hst => h.snoc trivial hst
  have h₁ := hrun (.moveAssign 0 1) (hrun (.post ()) (hrun (.post ()) (.nil _) rfl) rfl) rfl
  obtain ⟨w₂, h₂, hs, hst⟩ := (hall _ _ h₁).snoc_inv
  obtain ⟨w₁, h₂, -, hst₂⟩ := h₂.snoc_inv
  obtain ⟨w₀, h₂, -, hst₁⟩ := h₂.snoc_inv
  obtain rfl := h₂.nil_inv
  cases hst₁
  cases hst₂
  obtain ⟨-, hsettled, -⟩ := hs _ hst
  cases hst
  refine (hsettled 0 rfl fun z hz => ?_).1 rfl
  match z with
  | 0 => simp [Refers, init, push, setAction] at hz
  | 1 => simp [Refers, init, push, setAction] at hz
  | z + 2 => simp [Refers, init, push, setAction] at hz

end World

end Actions

end PortableConcurrency
