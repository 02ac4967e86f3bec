import PortableConcurrency.Common.Runs
import Mathlib.Logic.Function.Basic
import Mathlib.Data.Nat.Notation

/-!
# The once-consumable stack — the model

`once_consumable_stack<T>` is one atomic pointer `head_` over a heap of
list nodes. A state of the model is that pointer, the heap, and where
each thread is in its call. One step is one atomic access to `head_`
together with the thread-local work up to the next one: the load and the
compare-exchange of `push`, the exchange of `consume`, and the start of
the destructor. Deleting a list is a step per node.

A call of `push` is named by an element of `Op`, as many as one likes;
two calls of one thread are two names. The node's address is whatever
free address the allocator hands out, so an address is reused as soon as
it has been freed.
-/

namespace PortableConcurrency

namespace Stack

/-- A value of `forward_list_node<T>*`: null, the address of the stack
object itself (`consumed_marker()`), or the address of a node. -/
inductive Ptr
  | null
  | marker
  | node (a : ℕ)
  deriving DecidableEq, Repr

/-- `forward_list_node<T>`. A moved-from `val` is `none`. The owner, the
call that allocated the node, is bookkeeping of the model. -/
structure Node (Op T : Type*) where
  val : Option T
  next : Ptr
  owner : Op

/-- Where a call of `push` is. -/
inductive Phase
  /-- not called yet -/
  | idle
  /-- the node at `a` is built and `head_` not yet read -/
  | allocated (a : ℕ)
  /-- about to compare-exchange, with `node->next` as the expected value -/
  | linking (a : ℕ)
  /-- returning false; `rest` is what is left of the local `forward_list` -/
  | failed (rest : Ptr)
  /-- returned true -/
  | succeeded
  deriving DecidableEq, Repr

/-- Who owns the nodes that were pushed, and from which pointer. -/
inductive Holder
  /-- the stack, from `head_` -/
  | stack
  /-- the `forward_list` returned by `consume`, from `p` -/
  | consumer (p : Ptr)
  /-- the temporary `forward_list` of the destructor, from `p` -/
  | destructor (p : Ptr)
  deriving DecidableEq, Repr

/-- The three places where a node is deallocated. -/
inductive Releaser
  | push
  | consumer
  | destructor
  deriving DecidableEq, Repr

/-- A state. `arg` is the caller's `val` of each call, `none` when moved
from. `cell`, `pushed` and `released` are bookkeeping: the address of
each call's node, the calls whose compare-exchange has succeeded, latest
first, and who has deallocated the node of each call, once per time. -/
structure State (Op T : Type*) where
  head : Ptr
  heap : ℕ → Option (Node Op T)
  phase : Op → Phase
  arg : Op → Option T
  holder : Holder
  destroyed : Bool
  cell : Op → ℕ
  pushed : List Op
  released : Op → List Releaser

variable {Op T : Type*} [DecidableEq Op]

/-- An empty stack; call `i` is going to push `input i`. -/
def init (input : Op → T) : State Op T where
  head := .null
  heap := fun _ => none
  phase := fun _ => .idle
  arg := fun i => some (input i)
  holder := .stack
  destroyed := false
  cell := fun _ => 0
  pushed := []
  released := fun _ => []

/-- `is_consumed()`. -/
def State.isConsumed (s : State Op T) : Bool := s.head = .marker

/-- A call of `push` is between its first and its last access. -/
def Phase.Running : Phase → Prop
  | .allocated _ => True
  | .linking _ => True
  | .failed (.node _) => True
  | _ => False

/-- The atomic steps. -/
inductive Event (Op : Type*)
  /-- `allocate_list_node(std::move(val), alloc)` with the node at `a` -/
  | begin (i : Op) (a : ℕ)
  /-- `head_.load` of `push` -/
  | load (i : Op)
  /-- `head_.compare_exchange_strong` of `push` -/
  | cas (i : Op)
  /-- `head_.exchange` of `consume` -/
  | consume
  /-- `~once_consumable_stack` reads `head_` -/
  | destroy
  /-- one iteration of `forward_list_deleter` -/
  | free (r : Releaser) (i : Op)

/-- `allocate_list_node`: the value moves into a node with a null link. -/
def State.allocate (s : State Op T) (i : Op) (a : ℕ) : State Op T :=
  { s with
    heap := Function.update s.heap a (some ⟨s.arg i, .null, i⟩)
    arg := Function.update s.arg i none
    phase := Function.update s.phase i (.allocated a)
    cell := Function.update s.cell i a }

/-- `node->next = p`. -/
def State.setNext (s : State Op T) (a : ℕ) (p : Ptr) : State Op T :=
  { s with heap := Function.update s.heap a ((s.heap a).map fun nd => { nd with next := p }) }

def State.setPhase (s : State Op T) (i : Op) (ph : Phase) : State Op T :=
  { s with phase := Function.update s.phase i ph }

/-- `val = std::move(node->val); return false;` — the local `node` still
owns the list that starts at `a`. -/
def State.giveBack (s : State Op T) (i : Op) (a : ℕ) : State Op T :=
  { s with
    heap := Function.update s.heap a ((s.heap a).map fun nd => { nd with val := none })
    arg := Function.update s.arg i ((s.heap a).bind Node.val)
    phase := Function.update s.phase i (.failed (.node a)) }

/-- The load of `push(forward_list<T>&)`. -/
def State.load (s : State Op T) (i : Op) (a : ℕ) : State Op T :=
  if s.head = .marker then s.giveBack i a
  else (s.setNext a s.head).setPhase i (.linking a)

/-- One turn of the compare-exchange loop, `q` being `node->next`. A
failed exchange stores the head it saw in `node->next`. -/
def State.cas (s : State Op T) (i : Op) (a : ℕ) (q : Ptr) : State Op T :=
  if s.head = q then
    { s.setPhase i .succeeded with head := .node a, pushed := i :: s.pushed }
  else if s.head = .marker then ((s.setNext a s.head).setNext a .null).giveBack i a
  else s.setNext a s.head

/-- `consume()`. An exchange that finds the marker returns null. -/
def State.consume (s : State Op T) : State Op T :=
  { s with
    head := .marker
    holder := .consumer (if s.head = .marker then .null else s.head) }

/-- `~once_consumable_stack()`: what is left is handed to a temporary
list, unless the head is null or the marker. -/
def State.destroy (s : State Op T) : State Op T :=
  if s.head = .null ∨ s.head = .marker then { s with destroyed := true }
  else { s with destroyed := true, holder := .destructor s.head }

/-- The pointer the deleter of `r` (of call `i`, for a failed push) has
reached. -/
def State.deleting (s : State Op T) (r : Releaser) (i : Op) : Option Ptr :=
  match r with
  | .push => match s.phase i with
    | .failed p => some p
    | _ => none
  | .consumer => match s.holder with
    | .consumer p => some p
    | _ => none
  | .destructor => match s.holder with
    | .destructor p => some p
    | _ => none

/-- `to_delete = p; p = p->next; to_delete->deallocate_self()`. -/
def State.free (s : State Op T) (r : Releaser) (i : Op) (a : ℕ) (nd : Node Op T) : State Op T :=
  let s' := { s with
    heap := Function.update s.heap a none
    released := Function.update s.released nd.owner (r :: s.released nd.owner) }
  match r with
  | .push => s'.setPhase i (.failed nd.next)
  | .consumer => { s' with holder := .consumer nd.next }
  | .destructor => { s' with holder := .destructor nd.next }

/-- **The step relation.** The consumer calls `consume` at most once, and
the destructor runs when no call is in progress. -/
inductive Step : State Op T → Event Op → State Op T → Prop
  | begin {s : State Op T} {i : Op} {a : ℕ} (hlive : s.destroyed = false)
      (hi : s.phase i = .idle) (hfree : s.heap a = none) :
      Step s (.begin i a) (s.allocate i a)
  | load {s : State Op T} {i : Op} {a : ℕ} (hi : s.phase i = .allocated a) :
      Step s (.load i) (s.load i a)
  | cas {s : State Op T} {i : Op} {a : ℕ} {nd : Node Op T} (hi : s.phase i = .linking a)
      (hnd : s.heap a = some nd) :
      Step s (.cas i) (s.cas i a nd.next)
  | consume {s : State Op T} (hlive : s.destroyed = false) (honce : s.holder = .stack) :
      Step s .consume s.consume
  | destroy {s : State Op T} (hlive : s.destroyed = false)
      (hquiet : ∀ i, ¬ (s.phase i).Running) :
      Step s .destroy s.destroy
  | free {s : State Op T} {r : Releaser} {i : Op} {a : ℕ} {nd : Node Op T}
      (hp : s.deleting r i = some (.node a)) (hnd : s.heap a = some nd) :
      Step s (.free r i) (s.free r i a nd)

/-- Reachable from the empty stack, by any interleaving. -/
def Reachable (input : Op → T) (s : State Op T) : Prop :=
  Runs Step Unguarded (init input) s

end Stack

end PortableConcurrency
