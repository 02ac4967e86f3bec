import PortableConcurrency.Futures.Storage
import PortableConcurrency.Common.Tally

/-!
# Claims

A state is settled by whoever has a claim on it: a promise, a task, or
what becomes of the closure that schedules a continuation, in turn a
queued closure, an action in an executor's hands, and a call of the user's
function. There is at most one claim on a state, so a continuation is
untouched until its claim is used.

The calls of a `packaged_task`'s function are not claims. A task can be
called again while one of them is in progress.
-/

namespace PortableConcurrency

namespace Futures

variable {V E F : Type*} {c c' : Config V E F} {e : Event V E F}
variable {rem add rest : Multiset (Obj F)} {s t n : ℕ} {o o' : Obj F} {nd nd' : Node V E F}

/-! ## Counting objects -/

section Tally

variable {p : Obj F → Bool}

theorem tally_inputObjs (hp : ∀ u s, p (.future u s) = false) (l : List Input) :
    tally p (inputObjs l) = 0 := by
  refine tally_eq_zero fun o ho => ?_
  obtain ⟨f, -, rfl⟩ := mem_inputObjs.mp ho
  exact hp _ _

theorem tally_keeps (hp : ∀ u s, p (.future u s) = false) (a : Action F) :
    tally p a.keeps = 0 := by
  refine tally_eq_zero fun o ho => ?_
  obtain ⟨-, -, rfl⟩ := mem_keeps.mp ho
  exact hp _ _

theorem tally_cleanup (hp : ∀ s, p (.cleaning s) = false) (h : Caller) (s : ℕ) :
    tally p (cleanup h s) = 0 := by
  refine tally_eq_zero fun o ho => ?_
  obtain ⟨-, rfl⟩ := mem_cleanup.mp ho
  exact hp _

theorem tally_executeIf (b : Bool) (w : ℕ) :
    tally p (executeIf b w) = if b = true ∧ p (.execute w) = true then 1 else 0 := by
  cases b <;> simp [executeIf]

/-- **The rule for an account of objects** of which a list holds none: what
a step puts on the left and on the right is what its objects weigh. -/
theorem Step.balance {a b : ℕ} (hst : Step c e c') (hlinked : ∀ t k, p (.linked t k) = false)
    (hqueued : ∀ t k, p (.queued t k) = false) (hheld : ∀ s, p (.held s) = false)
    (hexecute : ∀ s, p (.execute s) = false)
    (hmove : ∀ {rem add}, Move c e rem add → a + tally p rem = b + tally p add)
    (hspawn : ∀ {rem add nd}, Spawn c e rem nd add → a + tally p rem = b + tally p add)
    (hsettle : ∀ {rem add s x clean}, Settle c e rem s x clean add →
      a + tally p rem = b + tally p add)
    (hunwrap : ∀ {g s t u}, e = .unwrap g s t → a + tally p {.invoked g s, .future u t} =
      b + tally p (.subscribing s t ::ₘ cleanup g s))
    (htouch : ∀ {rem add s nd body}, Touch c e rem s nd body add →
      a + tally p rem = b + tally p add)
    (hother : ∀ s, e = .execute s ∨ e = .destroy s → a = b) :
    a + tally p c.objs = b + tally p c'.objs := by
  cases hst with
  | move hm ho =>
    have := hmove hm
    rw [ho, tally_add, tally_add]
    omega
  | spawn hs ho =>
    have := hspawn hs
    rw [ho, tally_add, tally_add]
    omega
  | settle hs ho =>
    have := hsettle hs
    simp only [ho, tally_add, tally_cons, hexecute]
    simp
    omega
  | @unwrap g s t u rest nd ho =>
    have h := hunwrap (u := u) rfl
    rw [tally_cons] at h
    simp only [ho, tally_add, tally_cons]
    omega
  | touch ht ho =>
    have := htouch ht
    rw [ho, tally_add, tally_add]
    omega
  | @execute s rest nd ho =>
    have hmap : tally p (rest.map (Obj.unlink s)) = tally p rest := by
      refine tally_map_of _ (fun o => ?_) rest
      cases o with
      | linked t k =>
        simp only [Obj.unlink]
        split
        · rw [hlinked, hqueued]
        · rfl
      | _ => rfl
    simp only [ho, tally_add, tally_cons, tally_singleton, hexecute, hheld, hmap]
    simp [hother s (.inl rfl)]
  | @destroy s =>
    have hfilter : tally p (c.objs.filter fun o => ¬ o.isLinked s) = tally p c.objs := by
      refine tally_filter_of _ fun o _ hp => ?_
      cases o with
      | linked t k => rw [hlinked] at hp; cases hp
      | _ => simp [Obj.isLinked]
    rw [hfilter, hother s (.inr rfl)]

end Tally

/-! ## One claim -/

/-- Whether an object has a claim on `s`. -/
def Obj.claims (s : ℕ) : Obj F → Bool
  | .handle _ _ t => t = s
  | .linked _ (.schedule c) => c = s
  | .queued _ (.schedule c) => c = s
  | .running c _ => c = s
  | .invoked .cnt c => c = s
  | _ => false

/-- The continuation an object has a claim on, other than a promise's. -/
def Obj.pendingOn : Obj F → Option ℕ
  | .linked _ (.schedule s) => some s
  | .queued _ (.schedule s) => some s
  | .handle .action _ s => some s
  | .running s _ => some s
  | .invoked .cnt s => some s
  | _ => none

/-- Whoever a continuation waits for has a claim on it. -/
theorem Obj.pendingOn_claims (h : o.pendingOn = some s) : o.claims s = true := by
  unfold Obj.pendingOn at h
  split at h <;> simp_all [Obj.claims]

@[simp] theorem claims_inputObjs (l : List Input) :
    tally (Obj.claims s) (inputObjs l : Multiset (Obj F)) = 0 := tally_inputObjs (fun _ _ => rfl) l

@[simp] theorem claims_sharedObjs (l : List Input) :
    tally (Obj.claims s) (sharedObjs l : Multiset (Obj F)) = 0 := tally_inputObjs (fun _ _ => rfl) _

@[simp] theorem claims_keeps (a : Action F) : tally (Obj.claims s) a.keeps = 0 :=
  tally_keeps (fun _ _ => rfl) a

@[simp] theorem claims_cleanup (h : Caller) (n : ℕ) :
    tally (Obj.claims s) (cleanup h n : Multiset (Obj F)) = 0 := tally_cleanup (fun _ => rfl) h n

@[simp] theorem claims_executeIf (b : Bool) (w : ℕ) :
    tally (Obj.claims s) (executeIf b w : Multiset (Obj F)) = 0 := by
  simp [tally_executeIf, Obj.claims]

/-- Closing a list moves closures, and claims with them. -/
@[simp] theorem unlink_claims (o : Obj F) (t s : ℕ) : (o.unlink t).claims s = o.claims s := by
  cases o with
  | linked t' k =>
    simp only [Obj.unlink]
    split <;> cases k <;> rfl
  | _ => rfl

/-- A closure has the same claim whether it is linked or queued. -/
theorem push_claims (k : Closure) :
    (c.push t k : Obj F).claims s = (Obj.linked t k : Obj F).claims s := by
  unfold Config.push
  split <;> cases k <;> rfl

/-- A step that changes no node adds no claim. -/
theorem Move.claims (hm : Move c e rem add) (s : ℕ) :
    tally (Obj.claims s) add ≤ tally (Obj.claims s) rem := by
  cases hm with
  | callPlain t k hk => rcases hk with rfl | ⟨_, rfl⟩ <;> simp [Obj.claims]
  | callExpired t s' k hk => rcases hk with rfl | rfl <;> simp [Obj.claims]
  | notify | detach | subscribe =>
    simp only [Multiset.insert_eq_cons, tally_cons, tally_singleton, push_claims]
    simp [Obj.claims]
  | _ => simp [Obj.claims]

/-- Neither does one that stores a result. -/
theorem Settle.claims {x : Storage V E} {clean : Body F → Body F} {n : ℕ}
    (hs : Settle c e rem n x clean add) (s : ℕ) :
    tally (Obj.claims s) add ≤ tally (Obj.claims s) rem := by
  cases hs <;> simp [Obj.claims]

/-- Neither does one that changes a body. -/
theorem Touch.claims {body : Body F} {n : ℕ} (ht : Touch c e rem n nd body add) (s : ℕ) :
    tally (Obj.claims s) add ≤ tally (Obj.claims s) rem := by
  cases ht <;> simp [Obj.claims]

/-- A new node has its one claim. -/
theorem Spawn.claims (hs : Spawn c e rem nd add) (s : ℕ) :
    tally (Obj.claims s) add ≤ tally (Obj.claims s) rem + if s = c.fresh then 1 else 0 := by
  cases hs with
  | attach a =>
    simp only [tally_cons, push_claims]
    simp [Obj.claims, eq_comm]
  | _ => simp [Obj.claims, eq_comm]

/-- **At most one claim on each state.** -/
def Sole (c : Config V E F) : Prop := ∀ s, tally (Obj.claims s) c.objs ≤ 1

theorem sole_init : Sole (init : Config V E F) := fun s => by simp [init]

theorem Obj.claims_names (h : o.claims s = true) : s ∈ o.names := by
  cases o with
  | linked t k | queued t k =>
    cases k <;> simp_all [Obj.claims, Obj.names, Closure.names]
  | invoked g s => cases g <;> simp_all [Obj.claims, Obj.names]
  | _ => simp_all [Obj.claims, Obj.names]

/-- Objects name what was there, so a new state has no claim yet. -/
theorem Wf.claims_fresh (h : Wf c) : tally (Obj.claims c.fresh) c.objs = 0 := by
  refine tally_eq_zero fun o ho => ?_
  by_contra hc
  exact lt_irrefl _ (h.names o ho _ (Obj.claims_names (by simpa using hc)))

/-- **Claims are passed on**, and only a new state gets one. -/
theorem Step.claims (hst : Step c e c') (s : ℕ) : tally (Obj.claims s) c'.objs ≤
    tally (Obj.claims s) c.objs + if s = c.fresh then 1 else 0 := by
  cases hst with
  | move hm ho =>
    have := hm.claims s
    simp only [ho, tally_add]
    omega
  | spawn hsp ho =>
    have := hsp.claims s
    simp only [ho, tally_add]
    omega
  | settle hse ho =>
    have := hse.claims s
    simp [ho, Obj.claims]
    omega
  | unwrap ho =>
    simp [ho, Obj.claims]
    omega
  | touch ht ho =>
    have := ht.claims s
    simp only [ho, tally_add]
    omega
  | @execute s' rest nd ho =>
    have hmap : tally (Obj.claims s) (rest.map (Obj.unlink s')) = tally (Obj.claims s) rest :=
      tally_map_of _ (fun o => unlink_claims o s' s) rest
    simp only [ho, tally_add, tally_cons, hmap, Obj.claims]
    simp
    omega
  | destroy =>
    exact (tally_filter_le _ _ _).trans (Nat.le_add_right _ _)

/-- **Nobody gets a claim that somebody else has.** -/
theorem Sole.step (h : Wf c) (hs : Sole c) (hst : Step c e c') : Sole c' := by
  intro s
  have hle := hst.claims s
  have hone := hs s
  by_cases hf : s = c.fresh
  · have hzero := h.claims_fresh
    rw [← hf] at hzero
    simp only [hf, if_true] at hle
    rw [← hf] at hle
    omega
  · simp only [hf, if_false] at hle
    omega

/-! ## What a claim on a continuation says of it -/

/-- If `s` is alive, it has no result and an open list, and `P`. -/
def Stage (c : Config V E F) (s : ℕ) (P : Node V E F → Prop) : Prop :=
  ∀ nd, c.nodes s = some nd → nd.storage = .empty ∧ nd.executed = false ∧ P nd

/-- **How far a continuation has got**, by the claim on it. -/
def Obj.Pending (c : Config V E F) : Obj F → Prop
  | .linked t (.schedule s) =>
    Stage c s fun nd => ∃ a : Action F, nd.body = .cnt true (some a) ∧ a.parent = t
  | .queued t (.schedule s) =>
    Stage c s fun nd => ∃ a : Action F, nd.body = .cnt true (some a) ∧ a.parent = t
  | .handle .action _ s =>
    Stage c s fun nd => ∃ a : Action F, nd.body = .cnt false (some a) ∧ Closed c a.parent
  | .running s a => Closed c a.parent ∧ Stage c s fun nd => nd.body = .cnt false none
  | .invoked .cnt s => Stage c s fun nd => nd.body = .cnt false none
  | _ => True

theorem Obj.pendingOn_names (h : o.pendingOn = some s) : s ∈ o.names := by
  unfold Obj.pendingOn at h
  split at h <;> simp_all [Obj.names, Closure.names]

/-- What waits for its claim to be used is a continuation. -/
theorem Obj.pendingOn_kind (h : o.pendingOn = some s) (hk : o.Kinded c) : HasKind c s .cnt := by
  unfold Obj.pendingOn at h
  split at h <;> simp_all [Obj.Kinded, Closure.Kinded]

theorem Obj.pending_of_none (h : o.pendingOn = none) : o.Pending c := by
  unfold Obj.pendingOn at h
  split at h
  case h_6 => unfold Obj.Pending; split <;> simp_all
  all_goals cases h

/-- Whatever its claim, a continuation has no result yet. -/
theorem Obj.Pending.stage (h : o.pendingOn = some s) (hp : o.Pending c) :
    Stage c s fun _ => True := by
  intro nd hn
  unfold Obj.pendingOn at h
  split at h
  case h_4 =>
    obtain rfl := Option.some.inj h
    obtain ⟨-, hp⟩ := hp
    obtain ⟨hs, hex, -⟩ := hp nd hn
    exact ⟨hs, hex, trivial⟩
  case h_6 => cases h
  all_goals
    obtain rfl := Option.some.inj h
    obtain ⟨hs, hex, -⟩ := hp nd hn
    exact ⟨hs, hex, trivial⟩

/-- **What is said of a continuation holds while its node stands still.** -/
theorem Obj.Pending.frame (h : Wf c) (hst : Step c e c') (hmem : o ∈ c.objs) (hp : o.Pending c)
    (hs : ∀ s nd, o.pendingOn = some s → c'.nodes s = some nd → c.nodes s = some nd) :
    o.Pending c' := by
  have hclosed : ∀ {n}, n < c.fresh → Closed c n → Closed c' n :=
    fun hn hc => hc.mono (hst.le h hn)
  cases ho : o.pendingOn with
  | none => exact Obj.pending_of_none ho
  | some s =>
    unfold Obj.pendingOn at ho
    split at ho
    case h_3 =>
      obtain rfl := Option.some.inj ho
      intro nd hn
      have hn := hs _ nd rfl hn
      obtain ⟨h₁, h₂, a, h₃, h₄⟩ := hp nd hn
      refine ⟨h₁, h₂, a, h₃, hclosed (h.owned_lt (.inr ⟨_, nd, hn, ?_⟩)) h₄⟩
      simp [Node.refs, h₃, Body.refs]
    case h_4 a =>
      obtain rfl := Option.some.inj ho
      exact ⟨hclosed (h.names _ hmem _ (by simp [Obj.names])) hp.1,
        fun nd hn => hp.2 nd (hs _ nd rfl hn)⟩
    case h_6 => cases ho
    all_goals
      obtain rfl := Option.some.inj ho
      exact fun nd hn => hp nd (hs _ nd rfl hn)

/-- Only a combinator has a sequence to read. -/
theorem Node.outcome_futures : nd.outcome = some .futures ↔ nd.body.isCombinator = true := by
  unfold Node.outcome
  split
  · simpa
  · split <;> simp_all

theorem Resolves.isCombinator {w : ℕ} (h : Resolves c s w .futures) :
    ∃ nd, c.nodes w = some nd ∧ nd.body.isCombinator = true := by
  generalize ho : (.futures : Outcome V E) = o at h
  induction h with
  | leaf hn hex hout => exact ⟨_, hn, Node.outcome_futures.mp (ho ▸ hout)⟩
  | inner _ _ _ _ _ ih => exact ih ho

/-- Two objects with a claim on one state are one too many. -/
theorem Sole.other (hs : Sole c) (ho : c.objs = rem + rest) (hmem : o ∈ rem)
    (hc : o.claims s = true) (hmem' : o' ∈ rest) : o'.claims s = false := by
  have hle := hs s
  rw [ho, tally_add] at hle
  have hrem := tally_pos hmem hc
  by_contra hne
  have hrest := tally_pos hmem' (p := Obj.claims s) (by simpa using hne)
  omega

/-- Who settles a state has the claim on it, or is a task's function. -/
theorem Settle.claimed {x : Storage V E} {clean : Body F → Body F}
    (hs : Settle c e rem s x clean add) :
    (∃ o ∈ rem, o.claims s = true) ∨ .invoked .task s ∈ rem := by
  cases hs with
  | ret g s r =>
    cases g with
    | task => exact .inr (by simp)
    | cnt => exact .inl ⟨_, Multiset.mem_singleton_self _, by simp [Obj.claims]⟩
  | _ => exact .inl ⟨_, Multiset.mem_singleton_self _, by simp [Obj.claims]⟩

/-- Who changes the body of a continuation has the claim on it. -/
theorem Touch.claimed {body : Body F} (ht : Touch c e rem s nd body add)
    (hk : ∀ o ∈ rem, o.Kinded c) (hn : c.nodes s = some nd) (hcnt : nd.body.kind = .cnt) :
    ∃ o ∈ rem, o.claims s = true := by
  have hcomb : ¬ nd.body.isCombinator = true := by
    rw [Body.isCombinator_iff, hcnt]
    simp
  cases ht with
  | clean =>
    have hs := hk (.cleaning s) (by simp) nd hn
    rw [hcnt] at hs
    cases hs
  | notify t w pos =>
    have hs := (hk (.queued t (.combine s pos)) (by simp)).1 nd hn
    rw [hcnt] at hs
    cases hs
  | register w i =>
    have hs := hk (.making s i) (by simp) nd hn
    rw [hcnt] at hs
    cases hs
  | finish w i =>
    have hs := hk (.making s i) (by simp) nd hn
    rw [hcnt] at hs
    cases hs
  | take s' w _ hr | invokeNext s' w a _ _ _ hr =>
    obtain ⟨nd', hn', hb⟩ := hr.isCombinator
    obtain rfl := Option.some.inj (hn.symm.trans hn')
    exact absurd hb hcomb
  | abandon | schedule | run => exact ⟨_, Multiset.mem_singleton_self _, by simp [Obj.claims]⟩

theorem not_pendingOn_inputs {l : List Input} (h : o ∈ inputObjs l) : o.pendingOn = none := by
  obtain ⟨f, -, rfl⟩ := mem_inputObjs.mp h
  rfl

/-- Only the closure that schedules a continuation has a claim in a list. -/
theorem push_pendingOn {k : Closure} (hk : ∀ s, k ≠ .schedule s) :
    (c.push t k : Obj F).pendingOn = none := by
  unfold Config.push
  split <;> cases k <;> first | rfl | exact absurd rfl (hk _)

theorem Settle.not_pendingOn {x : Storage V E} {clean : Body F → Body F}
    (hs : Settle c e rem s x clean add) (hmem : o ∈ add) : o.pendingOn = none := by
  cases hs with
  | ret g s r =>
    obtain ⟨-, rfl⟩ := mem_cleanup.mp hmem
    rfl
  | abandon => simp at hmem
  | _ =>
    obtain rfl := Multiset.mem_singleton.mp hmem
    rfl

/-- A step that moves objects passes the claims on. -/
theorem Move.pending (hm : Move c e rem add) (hp : ∀ o ∈ rem, o.Pending c) (hmem : o ∈ add) :
    o.Pending c := by
  cases hm with
  | invokeThen s a | invokeNext s _ a =>
    have hr := (hp (.running s a) (by simp)).2
    simp only [Multiset.insert_eq_cons, Multiset.mem_cons, Multiset.mem_singleton] at hmem
    rcases hmem with rfl | rfl
    · exact hr
    · trivial
  | invokeNextShared s w a =>
    have hr := (hp (.running s a) (by simp)).2
    simp only [Multiset.mem_cons] at hmem
    rcases hmem with rfl | rfl | hmem
    · exact hr
    · trivial
    · exact Obj.pending_of_none (not_pendingOn_inputs hmem)
  | peek =>
    simp only [Multiset.mem_cons] at hmem
    rcases hmem with rfl | hmem
    · trivial
    · exact Obj.pending_of_none (not_pendingOn_inputs hmem)
  | notify | detach | subscribe =>
    simp only [Multiset.insert_eq_cons, Multiset.mem_cons, Multiset.mem_singleton] at hmem
    rcases hmem with rfl | rfl
    · trivial
    · exact Obj.pending_of_none (push_pendingOn (by simp))
  | getFuture g s hg =>
    simp only [Multiset.insert_eq_cons, Multiset.mem_cons, Multiset.mem_singleton] at hmem
    rcases hmem with rfl | rfl
    · cases g <;> trivial
    · trivial
  | callTask =>
    simp only [Multiset.insert_eq_cons, Multiset.mem_cons, Multiset.mem_singleton] at hmem
    rcases hmem with rfl | rfl <;> trivial
  | _ =>
    simp_all
    try grind [Obj.Pending]

/-- **Each continuation waits untouched for its claim to be used.** -/
structure Claimed (c : Config V E F) : Prop where
  sole : Sole c
  pending : ∀ o ∈ c.objs, o.Pending c

theorem claimed_init : Claimed (init : Config V E F) := ⟨sole_init, by simp [init]⟩

/-- A step that changes a body leaves the claim at its next stage. -/
theorem Touch.pending {body : Body F} (ht : Touch c e rem s nd body add)
    (hk : ∀ o ∈ rem, o.Kinded c) (hp : ∀ o ∈ rem, o.Pending c) (hn : c.nodes s = some nd)
    (hn' : ∀ nd', c'.nodes s = some nd' → nd' = { nd with body := body })
    (hne : ∀ m nd', m ≠ s → c'.nodes m = some nd' → c.nodes m = some nd')
    (hclosed : ∀ {n}, Owned c n → Closed c n → Closed c' n) (hmem : o ∈ add) :
    o.Pending c' := by
  cases ht with
  | schedule t _ _ a hlock hb =>
    obtain ⟨hs, hex, a', ha', rfl⟩ := hp (.queued t (.schedule s)) (by simp) nd hn
    have ht : Closed c a'.parent := (hk (.queued _ (.schedule s)) (by simp)).2
    rw [hb] at ha'
    obtain rfl : a = some a' := by simpa using ha'
    simp only [Multiset.insert_eq_cons, Multiset.mem_cons, Multiset.mem_singleton] at hmem
    rcases hmem with rfl | rfl
    · trivial
    · intro nd' hm
      obtain rfl := hn' nd' hm
      refine ⟨hs, hex, a', rfl, hclosed (.inr ⟨s, nd, hn, ?_⟩) ht⟩
      simp [Node.refs, hb, Body.refs]
  | run _ _ x a hlock hb =>
    obtain ⟨hs, hex, a', ha', hparent⟩ := hp (.handle .action false s) (by simp) nd hn
    rw [hb] at ha'
    obtain ⟨rfl, rfl⟩ : x = false ∧ a = a' := by simpa using ha'
    obtain rfl := Multiset.mem_singleton.mp hmem
    refine ⟨hclosed (.inr ⟨s, nd, hn, by simp [Node.refs, hb, Body.refs]⟩) hparent, ?_⟩
    intro nd' hm
    obtain rfl := hn' nd' hm
    exact ⟨hs, hex, rfl⟩
  | invokeNext s' w a _ hkind hu hr =>
    have hrun := (hp (.running s' a) (by simp)).2
    have hcnt : HasKind c s' .cnt := hk (.running s' a) (by simp)
    -- the sequence belongs to a combinator, not to the continuation
    have hs : s' ≠ s := by
      rintro rfl
      obtain ⟨nd', hw, hb⟩ := hr.isCombinator
      rw [Body.isCombinator_iff, hcnt nd' hw] at hb
      cases hb
    simp only [Multiset.mem_cons] at hmem
    rcases hmem with rfl | rfl | hmem
    · exact fun nd' hm => hrun nd' (hne s' nd' hs hm)
    · trivial
    · exact Obj.pending_of_none (not_pendingOn_inputs hmem)
  | take =>
    simp only [Multiset.mem_cons] at hmem
    rcases hmem with rfl | hmem
    · trivial
    · exact Obj.pending_of_none (not_pendingOn_inputs hmem)
  | notify =>
    simp only [Multiset.mem_cons, mem_executeIf] at hmem
    rcases hmem with rfl | ⟨-, rfl⟩ <;> trivial
  | register =>
    simp only [Multiset.mem_cons, mem_executeIf] at hmem
    rcases hmem with rfl | rfl | ⟨-, rfl⟩ <;> trivial
  | finish =>
    simp only [Multiset.mem_cons, mem_executeIf] at hmem
    rcases hmem with rfl | ⟨-, rfl⟩ <;> trivial
  | abandon | clean => simp at hmem

/-- A continuation comes with its claim. -/
theorem Spawn.pending (hs : Spawn c e rem nd add) (hn' : c'.nodes c.fresh = some nd)
    (hmem : o ∈ add) : o.Pending c' := by
  cases hs with
  | attach a =>
    have hstage : Stage c' c.fresh fun nd => ∃ a' : Action F, nd.body = .cnt true (some a') ∧
        a'.parent = a.parent := by
      intro nd' hm
      obtain rfl := Option.some.inj (hn'.symm.trans hm)
      exact ⟨rfl, rfl, a, rfl, rfl⟩
    simp only [Multiset.mem_cons, mem_keeps] at hmem
    rcases hmem with rfl | rfl | ⟨-, -, rfl⟩
    · trivial
    · unfold Config.push
      split <;> exact hstage
    · trivial
  | _ =>
    simp_all
    try grind [Obj.Pending]

/-- An object whose continuation a step leaves alone. -/
theorem Obj.Pending.beside {objs : Multiset (Obj F)} {k : ℕ} (hp : o.Pending c) (h : Wf c)
    (hst : Step c e ⟨c.setNode s nd, objs, k⟩) (hmem : o ∈ c.objs) (hne : o.pendingOn ≠ some s) :
    o.Pending (⟨c.setNode s nd, objs, k⟩ : Config V E F) := by
  refine hp.frame h hst hmem fun s' nd' hs' hn' => ?_
  obtain ⟨rfl, -⟩ | ⟨-, hn'⟩ := setNode_eq hn'
  · exact absurd hs' hne
  · exact hn'

/-- Only its claim changes a continuation. -/
theorem Claimed.not_pendingOn (hc : Claimed c) (h : Lists c) (ho : c.objs = rem + rest)
    (hn : c.nodes s = some nd) (hclaim : nd.body.kind = .cnt → ∃ o ∈ rem, o.claims s = true)
    (hmem : o ∈ rest) : o.pendingOn ≠ some s := by
  intro hs
  have hcnt := Obj.pendingOn_kind hs (h.kinded o (mem_of_rest ho hmem)) nd hn
  obtain ⟨o', hmem', ho'⟩ := hclaim hcnt
  have hno := hc.sole.other ho hmem' ho' hmem
  rw [Obj.pendingOn_claims hs] at hno
  cases hno

/-- **The step lemma.** -/
theorem Claimed.step (h : Sound c) (hc : Claimed c) (hst : Step c e c') : Claimed c' := by
  refine ⟨hc.sole.step h.wf hst, fun o hmem => ?_⟩
  have hrem : ∀ {rem rest : Multiset (Obj F)}, c.objs = rem + rest → ∀ o ∈ rem, o.Pending c :=
    fun ho o hr => hc.pending o (mem_of_rem ho hr)
  have hkind : ∀ {rem rest : Multiset (Obj F)}, c.objs = rem + rest → ∀ o ∈ rem, o.Kinded c :=
    fun ho o hr => h.lists.kinded o (mem_of_rem ho hr)
  have hst' := hst
  cases hst with
  | move hm ho =>
    rcases Multiset.mem_add.mp hmem with hmem | hmem
    · exact hm.pending (hrem ho) hmem
    · exact hc.pending o (mem_of_rest ho hmem)
  | @spawn _ _ _ _ nd hs ho =>
    rcases Multiset.mem_add.mp hmem with hmem | hmem
    · exact hs.pending (by simp [Config.setNode]) hmem
    · have hmem := mem_of_rest ho hmem
      refine (hc.pending o hmem).beside h.wf hst' hmem fun hs => ?_
      exact lt_irrefl _ (h.wf.names o hmem _ (Obj.pendingOn_names hs))
  | @settle _ rem add rest s x clean nd hs ho hnd hempty =>
    rcases Multiset.mem_cons.mp hmem with rfl | hmem
    · trivial
    rcases Multiset.mem_add.mp hmem with hmem | hmem
    · exact Obj.pending_of_none (hs.not_pendingOn hmem)
    · refine (hc.pending o (mem_of_rest ho hmem)).beside h.wf hst' (mem_of_rest ho hmem) ?_
      refine hc.not_pendingOn h.lists ho hnd (fun hcnt => ?_) hmem
      refine hs.claimed.resolve_right fun htask => ?_
      have hk := hkind ho _ htask nd hnd
      rw [hcnt] at hk
      cases hk
  | @unwrap g s t u rest nd ho hnd =>
    rcases Multiset.mem_cons.mp hmem with rfl | hmem
    · trivial
    rcases Multiset.mem_add.mp hmem with hmem | hmem
    · obtain ⟨-, rfl⟩ := mem_cleanup.mp hmem
      trivial
    · refine (hc.pending o (mem_of_rest ho hmem)).beside h.wf hst' (mem_of_rest ho hmem) ?_
      refine hc.not_pendingOn h.lists ho hnd (fun hcnt => ?_) hmem
      refine ⟨.invoked g s, by simp, ?_⟩
      have hk := hkind ho (.invoked g s) (by simp)
      cases g with
      | cnt => simp [Obj.claims]
      | task =>
        have hk := hk nd hnd
        rw [hcnt] at hk
        cases hk
  | @touch _ rem add rest s nd body ht ho hnd =>
    rcases Multiset.mem_add.mp hmem with hmem | hmem
    · refine ht.pending (hkind ho) (hrem ho) hnd (fun nd' hn' => ?_) (fun m nd' hm hn' => ?_)
        (fun hn hcl => hcl.mono (hst'.le h.wf (h.wf.owned_lt hn))) hmem
      · exact ((setNode_eq hn').resolve_right fun hne => hne.1 rfl).2
      · exact ((setNode_eq hn').resolve_left fun heq => hm heq.1).2
    · refine (hc.pending o (mem_of_rest ho hmem)).beside h.wf hst' (mem_of_rest ho hmem) ?_
      exact hc.not_pendingOn h.lists ho hnd (ht.claimed (hkind ho) hnd) hmem
  | @execute s rest nd ho hnd =>
    rcases Multiset.mem_cons.mp hmem with rfl | hmem
    · trivial
    obtain ⟨o', ho', rfl⟩ := Multiset.mem_map.mp hmem
    have hmem' := mem_of_rest ho ho'
    -- nobody executes a continuation that has no result
    have hne : o'.pendingOn ≠ some s := by
      intro hs
      have hcnt := Obj.pendingOn_kind hs (h.lists.kinded o' hmem') nd hnd
      have hempty := ((hc.pending o' hmem').stage hs nd hnd).1
      exact h.stored.objs (.execute s) (mem_of_rem ho (by simp)) nd hnd (by simp [hcnt]) hempty
    have hp := (hc.pending o' hmem').beside h.wf hst' hmem' hne
    cases o' with
    | linked t k =>
      simp only [Obj.unlink]
      split
      · cases k <;> exact hp
      · exact hp
    | _ => exact hp
  | @destroy s nd hnd hun =>
    have hmem := (Multiset.mem_filter.mp hmem).1
    refine (hc.pending o hmem).frame h.wf hst' hmem fun s' nd' _ hn' => ?_
    by_cases hs : s' = s
    · simp [hs] at hn'
    · simpa [hs] using hn'

/-- **What holds of every run, whatever the program does.** -/
structure Inv (c : Config V E F) : Prop extends Sound c where
  claimed : Claimed c

theorem inv_init : Inv (init : Config V E F) := ⟨sound_init, claimed_init⟩

theorem Inv.step (h : Inv c) (hst : Step c e c') : Inv c' :=
  ⟨h.toSound.step hst, h.claimed.step h.toSound hst⟩

/-- **They hold in every run.** -/
theorem Reachable.inv {ok : Config V E F → Event V E F → Prop} (h : Reachable ok c) : Inv c :=
  h.invariant (fun _ _ _ hi _ hst => hi.step hst) inv_init

end Futures

end PortableConcurrency
