import Carthage.BlockBytes
import Carthage.NodeStore
import Carthage.Runs

/-!
# Queues

`queue.c`: a list of nodes with 64 slots each, drained from the front of the first node and
filled at the back of the last one, optionally circular. A result `none` is a slot outside a
node, a slot that was never written, or an access to a node that is not in the queue.
-/

namespace Carthage

variable {α : Type}

structure QueueNode (α : Type) where
  next : Option ℕ
  items : ℕ → Option α
  offset : ℕ
  used : ℕ

def QueueNode.link (α : Type) : LinkField ℕ (QueueNode α) where
  get := QueueNode.next
  set q n := { n with next := q }
  get_set _ _ := rfl

structure Queue (α : Type) where
  /-- Whether there is a callback `item_free`. -/
  itemFree : Bool
  head : Option ℕ
  tail : Option ℕ
  store : NodeStore (QueueNode α)
  poolSize : ℕ
  circular : ℕ
  nitems : ℕ
  /-- Number of allocations asked for so far. -/
  requests : ℕ
  /-- What `item_free` was called on; `none` is a slot that was never written. -/
  released : List (Option α)

variable (granted : ℕ → Bool)

/-- Granted or not, a request to the allocator is counted. -/
def queueNodeAlloc (q : Queue α) : Option ℕ × Queue α :=
  match q.store.take (granted q.requests) ⟨none, fun _ => none, 0, 0⟩ with
  | none => (none, { q with requests := q.requests + 1 })
  | some (a, store) =>
      if q.store.pool = [] then (some a, { q with store := store, requests := q.requests + 1 })
      else (some a, { q with store := store, poolSize := sub64 q.poolSize 1 })

def queueNodeFree (q : Queue α) (a : ℕ) (n : QueueNode α) : Queue α :=
  let released :=
    if q.itemFree then q.released ++ (List.range n.used).reverse.map n.items else q.released
  if q.poolSize < 8 then
    { q with store := q.store.give true a, poolSize := q.poolSize + 1, released := released }
  else { q with store := q.store.give false a, released := released }

def queueCircularAlloc (circular : ℕ) (itemFree : Bool) : Queue α :=
  ⟨itemFree, none, none, .empty _, 0, circular, 0, 0, []⟩

def queueSize (q : Queue α) : ℕ := q.nitems

/-- Free the nodes from `p` on; the first argument bounds their number. -/
def queueFreeLoop : ℕ → Option ℕ → Queue α → Option (Queue α)
  | _, none, q => some q
  | 0, some _, _ => none
  | m + 1, some a, q => do
      let n ← q.store.nodes a
      queueFreeLoop m n.next (queueNodeFree q a n)

/-- There are no more nodes in the queue than were ever allocated. -/
def queueFree (q : Queue α) : Option (Queue α) := do
  let q ← queueFreeLoop q.store.fresh q.head q
  return { q with store := { q.store with pool := [] } }

def queuePop (q : Queue α) : Option (Option α × Queue α) :=
  if q.nitems = 0 then some (none, q)
  else do
    let a ← q.head
    let n ← q.store.nodes a
    let element ← if n.offset < 64 then n.items n.offset else none
    let n := { n with offset := n.offset + 1, used := (n.used + 255) % 256 }
    let q := { q with store := q.store.put a n, nitems := q.nitems - 1 }
    if n.used = 0 then return (some element, queueNodeFree { q with head := n.next } a n)
    else return (some element, q)

/-- Store an item behind the last one of the node `a`. -/
def queuePushItem (q : Queue α) (a : ℕ) (n : QueueNode α) (element : α) : Option (ℤ × Queue α) :=
  if n.offset + n.used < 64 then
    let n := { n with
      items := Function.update n.items (n.offset + n.used) (some element), used := n.used + 1 }
    some (0, { q with store := q.store.put a n, nitems := q.nitems + 1 })
  else none

/-- The rest of `queue_push`, from `node = queue->tail` on. -/
def queuePushTail (q : Queue α) (element : α) : Option (ℤ × Queue α) := do
  let a ← q.tail
  let n ← q.store.nodes a
  if n.used = 64 then
    if n.offset > 0 then
      -- the move of the items reads 64 slots from `offset + 1` on
      none
    else
      match queueNodeAlloc granted q with
      | (none, q) => return (-2, q)
      | (some b, q) =>
          let m ← q.store.nodes b
          let store := q.store.put a { n with next := some b }
          queuePushItem { q with store := store, tail := some b } b m element
  else queuePushItem q a n element

def Queue.Full (q : Queue α) : Prop := q.nitems = q.circular ∧ q.nitems > 0

instance (q : Queue α) : Decidable q.Full := inferInstanceAs (Decidable (_ ∧ _))

def queuePush (q : Queue α) (element : α) : Option (ℤ × Queue α) :=
  match q.head with
  | none =>
      match queueNodeAlloc granted q with
      | (none, q) => some (-1, q)
      | (some a, q) => queuePushTail granted { q with head := some a, tail := some a } element
  | some _ =>
      if q.Full then do
        let (x, q) ← queuePop q
        let released := if q.itemFree then q.released ++ [x] else q.released
        queuePushTail granted { q with released := released } element
      else queuePushTail granted q element

inductive QueueOp (α : Type)
  | push (element : α)
  | pop

inductive QueueResult (α : Type)
  | pushed (rc : ℤ)
  | popped (element : Option α)

def queueStep (q : Queue α) : QueueOp α → Option (QueueResult α × Queue α)
  | .push element => do
      let (rc, q) ← queuePush granted q element
      return (.pushed rc, q)
  | .pop => do
      let (element, q) ← queuePop q
      return (.popped element, q)

end Carthage
