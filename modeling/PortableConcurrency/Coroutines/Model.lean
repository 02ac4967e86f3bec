import PortableConcurrency.Common.Runs
import PortableConcurrency.Common.Table

/-!
# Coroutines — the model

A coroutine that returns a `future` has a `promise` in its frame. It is not
suspended at its beginning nor at its end: it runs on the thread that calls
it until it awaits a future that is not ready, and goes on where that one
is made ready, in the middle of its `execute`. When it returns, its result
is set first, which makes those go on who await it, and then its frame is
destroyed. So a thread has a stack of such activities, and only what is on
top of it goes on.

The frame is not owned by anybody: in the list of a future state there is
its bare address. Futures own their states, in the locals of the coroutines
and outside of them, and a result that nobody holds a future for is thrown
away.
-/

namespace PortableConcurrency

namespace Coroutines

variable {V E α β : Type*}

/-! ## Futures in variables -/

/-- What a variable holds. -/
inductive Kind
  | future
  | shared
  /-- a `future` that was moved from -/
  | moved
  deriving DecidableEq, Repr

/-- A variable, with what is, or was, in it. -/
structure Local (α : Type*) where
  what : α
  kind : Kind
  deriving DecidableEq, Repr

def Local.map (f : α → β) (l : Local α) : Local β := ⟨f l.what, l.kind⟩

/-- The variable with the future of a call, which may be `share`d. -/
def Local.new (a : α) (share : Bool) : Local α := ⟨a, if share then .shared else .future⟩

/-- A variable that was passed by value, or whose future was got from. -/
def Local.spent (l : Local α) : Local α :=
  if l.kind = .shared then l else { l with kind := .moved }

def moveFrom (env : List (Local α)) (i : ℕ) : List (Local α) := env.modify i Local.spent

/-- The arguments of a call, one after the other. -/
def argsOf : List ℕ → List (Local α) → List (Local α)
  | [], _ => []
  | i :: is, env => env[i]?.toList ++ argsOf is (moveFrom env i)

/-- What is left of the variables. -/
def afterArgs (args : List ℕ) (env : List (Local α)) : List (Local α) := args.foldl moveFrom env

/-- What can be awaited in the variable `i`. On a `future` that was moved
from `await_ready` throws, and is `noexcept`. -/
def target (env : List (Local α)) (i : ℕ) : Option α :=
  env[i]?.bind fun l => if l.kind = .moved then none else some l.what

/-- Some variable holds `a`. -/
def Holds (env : List (Local α)) (a : α) : Prop := ∃ l ∈ env, l.what = a ∧ l.kind ≠ .moved

/-! ## Coroutines -/

/-- What a coroutine still does. -/
inductive Body (V E : Type*)
  /-- `co_return`, or an exception that it does not catch -/
  | ret (r : Except E V)
  /-- `co_await` of a variable -/
  | await (i : ℕ) (next : Except E V → Body V E)
  /-- it calls another one, and has its future in a new variable -/
  | call (callee : Body V E) (args : List ℕ) (share : Bool) (next : Body V E)

/-- Where a coroutine is. -/
inductive At
  | running
  /-- until the state `t` is ready -/
  | suspended (t : ℕ)
  /-- past `return_value`, or `unhandled_exception` -/
  | done
  deriving DecidableEq, Repr

/-- The frame of a coroutine. Its promise is that of the state with the
address of the frame. -/
structure Frame (V E : Type*) where
  body : Body V E
  /-- the locals, the last ones are the parameters -/
  env : List (Local ℕ)
  params : ℕ
  place : At

/-- What it awaits. -/
def Frame.awaited (fr : Frame V E) : Option ℕ :=
  match fr.body with
  | .await i _ => target fr.env i
  | _ => none

/-- `await_resume()`. -/
def Frame.resume (fr : Frame V E) (r : Except E V) : Frame V E :=
  match fr.body with
  | .await i next => { fr with body := next r, env := moveFrom fr.env i, place := .running }
  | _ => fr

/-- The frame when the result is set: an exception has left the scope of the
locals, which `co_return` has not. -/
def Frame.unwind (fr : Frame V E) (r : Except E V) : Frame V E :=
  match r with
  | .ok _ => { fr with place := .done }
  | .error _ => { fr with env := fr.env.drop (fr.env.length - fr.params), place := .done }

/-! ## The machine -/

/-- A future state. -/
structure Cell (V E : Type*) where
  result : Option (Except E V)
  /-- the continuations, the last one first -/
  waiting : List ℕ
  /-- they have been consumed -/
  ready : Bool
  /-- its promise is outside of all coroutines, and has set no result -/
  pledged : Bool

/-- What a thread is in the middle of. -/
inductive Act (V E : Type*)
  /-- the body of a coroutine -/
  | body (f : ℕ)
  /-- `await_suspend` of a coroutine, before it pushes the handle -/
  | push (f t : ℕ)
  /-- a result is set, before it is stored -/
  | emplace (t : ℕ) (r : Except E V)
  /-- before `consume` -/
  | execute (t : ℕ)
  /-- in the loop over what was taken from the list of `t` -/
  | loop (t : ℕ) (items : List ℕ)
  /-- before the frame is destroyed -/
  | finish (f : ℕ)

structure State (V E : Type*) where
  cells : ℕ → Option (Cell V E)
  frames : ℕ → Option (Frame V E)
  /-- what was called with what, which the program does not look at -/
  calls : ℕ → Option (Body V E × List (Local ℕ))
  /-- the futures outside of all coroutines -/
  futures : List (Local ℕ)
  threads : ℕ → Option (List (Act V E))
  fresh : ℕ
  workers : ℕ

def init : State V E := ⟨fun _ => none, fun _ => none, fun _ => none, [], fun _ => none, 0, 0⟩

namespace State

def setCell (s : State V E) (t : ℕ) (c : Cell V E) : State V E :=
  { s with cells := Function.update s.cells t (some c) }

def setFrame (s : State V E) (f : ℕ) (fr : Option (Frame V E)) : State V E :=
  { s with frames := Function.update s.frames f fr }

def setThread (s : State V E) (τ : ℕ) (acts : List (Act V E)) : State V E :=
  { s with threads := Function.update s.threads τ (some acts) }

section

variable (s : State V E) {f g t u τ υ : ℕ}

theorem setCell_self (t : ℕ) (c : Cell V E) : (s.setCell t c).cells t = some c :=
  Function.update_self _ _ _

theorem setCell_other (c : Cell V E) (h : u ≠ t) : (s.setCell t c).cells u = s.cells u :=
  Function.update_of_ne h _ _

theorem setFrame_self (f : ℕ) (fr : Option (Frame V E)) : (s.setFrame f fr).frames f = fr :=
  Function.update_self _ _ _

theorem setFrame_other (fr : Option (Frame V E)) (h : g ≠ f) :
    (s.setFrame f fr).frames g = s.frames g :=
  Function.update_of_ne h _ _

theorem setThread_self (τ : ℕ) (acts : List (Act V E)) :
    (s.setThread τ acts).threads τ = some acts :=
  Function.update_self _ _ _

theorem setThread_other (acts : List (Act V E)) (h : υ ≠ τ) :
    (s.setThread τ acts).threads υ = s.threads υ :=
  Function.update_of_ne h _ _

end

/-- Somebody holds a future for `t`, so the `weak_ptr` in its promise can be
locked. -/
def Held (s : State V E) (t : ℕ) : Prop :=
  Holds s.futures t ∨ ∃ f fr, s.frames f = some fr ∧ Holds fr.env t

/-- A coroutine is called: it has a state, and a frame. -/
def spawn (s : State V E) (body : Body V E) (env : List (Local ℕ)) : State V E :=
  { s with
    cells := Function.update s.cells s.fresh (some ⟨none, [], false, false⟩)
    frames := Function.update s.frames s.fresh (some ⟨body, env, env.length, .running⟩)
    calls := Function.update s.calls s.fresh (some (body, env))
    fresh := s.fresh + 1 }

theorem spawn_self (s : State V E) (body : Body V E) (env : List (Local ℕ)) :
    (s.spawn body env).frames s.fresh = some ⟨body, env, env.length, .running⟩ :=
  Function.update_self _ _ _

theorem spawn_other (s : State V E) (body : Body V E) (env : List (Local ℕ)) {g : ℕ}
    (h : g ≠ s.fresh) : (s.spawn body env).frames g = s.frames g :=
  Function.update_of_ne h _ _

end State

inductive Event (V E : Type*)
  /-- a thread starts -/
  | thread
  /-- `make_promise` -/
  | promise (share : Bool)
  /-- a thread calls a coroutine -/
  | call (τ : ℕ) (body : Body V E) (args : List ℕ) (share : Bool)
  /-- a thread sets the result of a promise, or destroys it -/
  | set (τ t : ℕ) (r : Except E V)
  /-- a future is destroyed -/
  | drop (i : ℕ)
  /-- a thread goes on -/
  | step (τ : ℕ)

/-- **The step relation.** -/
inductive Step : State V E → Event V E → State V E → Prop
  | thread {s : State V E} :
      Step s .thread { s with
        threads := Function.update s.threads s.workers (some [])
        workers := s.workers + 1 }
  | promise {s : State V E} {share : Bool} :
      Step s (.promise share) { s with
        cells := Function.update s.cells s.fresh (some ⟨none, [], false, true⟩)
        futures := .new s.fresh share :: s.futures
        fresh := s.fresh + 1 }
  | call {s : State V E} {τ : ℕ} {body : Body V E} {args : List ℕ} {share : Bool}
      (hidle : s.threads τ = some []) :
      Step s (.call τ body args share)
        { (s.spawn body (argsOf args s.futures)).setThread τ [.body s.fresh] with
          futures := .new s.fresh share :: afterArgs args s.futures }
  | set {s : State V E} {τ t : ℕ} {r : Except E V} {c : Cell V E}
      (hidle : s.threads τ = some []) (hc : s.cells t = some c) (hpledged : c.pledged = true)
      (hheld : s.Held t) :
      Step s (.set τ t r) ((s.setCell t { c with pledged := false }).setThread τ [.emplace t r])
  /-- nobody holds a future for it -/
  | setExpired {s : State V E} {τ t : ℕ} {r : Except E V} {c : Cell V E}
      (hidle : s.threads τ = some []) (hc : s.cells t = some c) (hpledged : c.pledged = true)
      (hheld : ¬ s.Held t) : Step s (.set τ t r) (s.setCell t { c with pledged := false })
  | drop {s : State V E} {i : ℕ} :
      Step s (.drop i) { s with futures := s.futures.eraseIdx i }
  | ret {s : State V E} {τ f : ℕ} {fr : Frame V E} {r : Except E V} {rest : List (Act V E)}
      (ht : s.threads τ = some (.body f :: rest)) (hf : s.frames f = some fr)
      (hbody : fr.body = .ret r) (hheld : (s.setFrame f (some (fr.unwind r))).Held f) :
      Step s (.step τ)
        ((s.setFrame f (some (fr.unwind r))).setThread τ (.emplace f r :: .finish f :: rest))
  | retExpired {s : State V E} {τ f : ℕ} {fr : Frame V E} {r : Except E V}
      {rest : List (Act V E)} (ht : s.threads τ = some (.body f :: rest))
      (hf : s.frames f = some fr) (hbody : fr.body = .ret r)
      (hheld : ¬ (s.setFrame f (some (fr.unwind r))).Held f) :
      Step s (.step τ) ((s.setFrame f (some (fr.unwind r))).setThread τ (.finish f :: rest))
  | start {s : State V E} {τ f : ℕ} {fr : Frame V E} {rest : List (Act V E)}
      {callee next : Body V E} {args : List ℕ} {share : Bool}
      (ht : s.threads τ = some (.body f :: rest)) (hf : s.frames f = some fr)
      (hbody : fr.body = .call callee args share next) :
      Step s (.step τ)
        (((s.spawn callee (argsOf args fr.env)).setFrame f (some { fr with
          body := next
          env := .new s.fresh share :: afterArgs args fr.env })).setThread τ
            (.body s.fresh :: .body f :: rest))
  /-- `await_ready()` is true -/
  | await {s : State V E} {τ f t : ℕ} {fr : Frame V E} {c : Cell V E} {r : Except E V}
      {rest : List (Act V E)} (ht : s.threads τ = some (.body f :: rest))
      (hf : s.frames f = some fr) (haw : fr.awaited = some t) (hc : s.cells t = some c)
      (hready : c.ready = true) (hr : c.result = some r) :
      Step s (.step τ) (s.setFrame f (some (fr.resume r)))
  | suspend {s : State V E} {τ f t : ℕ} {fr : Frame V E} {c : Cell V E} {rest : List (Act V E)}
      (ht : s.threads τ = some (.body f :: rest)) (hf : s.frames f = some fr)
      (haw : fr.awaited = some t) (hc : s.cells t = some c) (hready : c.ready = false) :
      Step s (.step τ)
        ((s.setFrame f (some { fr with place := .suspended t })).setThread τ (.push f t :: rest))
  | push {s : State V E} {τ f t : ℕ} {c : Cell V E} {rest : List (Act V E)}
      (ht : s.threads τ = some (.push f t :: rest)) (hc : s.cells t = some c)
      (hready : c.ready = false) :
      Step s (.step τ) ((s.setCell t { c with waiting := f :: c.waiting }).setThread τ rest)
  /-- the state has become ready, and `push` calls the continuation -/
  | refuse {s : State V E} {τ f t : ℕ} {fr : Frame V E} {c : Cell V E} {r : Except E V}
      {rest : List (Act V E)} (ht : s.threads τ = some (.push f t :: rest))
      (hf : s.frames f = some fr) (haw : fr.awaited = some t) (hc : s.cells t = some c)
      (hready : c.ready = true) (hr : c.result = some r) :
      Step s (.step τ) ((s.setFrame f (some (fr.resume r))).setThread τ (.body f :: rest))
  | emplace {s : State V E} {τ t : ℕ} {c : Cell V E} {r : Except E V} {rest : List (Act V E)}
      (ht : s.threads τ = some (.emplace t r :: rest)) (hc : s.cells t = some c)
      (hempty : c.result = none) :
      Step s (.step τ) ((s.setCell t { c with result := some r }).setThread τ (.execute t :: rest))
  | execute {s : State V E} {τ t : ℕ} {c : Cell V E} {rest : List (Act V E)}
      (ht : s.threads τ = some (.execute t :: rest)) (hc : s.cells t = some c) :
      Step s (.step τ)
        ((s.setCell t { c with waiting := [], ready := true }).setThread τ
          (.loop t c.waiting :: rest))
  /-- the loop calls the next continuation -/
  | resume {s : State V E} {τ f t u : ℕ} {fr : Frame V E} {c : Cell V E} {r : Except E V}
      {items : List ℕ} {rest : List (Act V E)}
      (ht : s.threads τ = some (.loop t (f :: items) :: rest)) (hf : s.frames f = some fr)
      (haw : fr.awaited = some u) (hc : s.cells u = some c) (hr : c.result = some r) :
      Step s (.step τ)
        ((s.setFrame f (some (fr.resume r))).setThread τ (.body f :: .loop t items :: rest))
  | exit {s : State V E} {τ t : ℕ} {rest : List (Act V E)}
      (ht : s.threads τ = some (.loop t [] :: rest)) : Step s (.step τ) (s.setThread τ rest)
  | finish {s : State V E} {τ f : ℕ} {rest : List (Act V E)}
      (ht : s.threads τ = some (.finish f :: rest)) :
      Step s (.step τ) ((s.setFrame f none).setThread τ rest)

end Coroutines

end PortableConcurrency
