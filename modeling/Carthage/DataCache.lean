import Carthage.BlockBytes
import Carthage.ChainedTable
import Carthage.Runs

/-!
# The cache

`cache.c`: nodes in a recency list and a list of retained nodes, found through a hash table.
The memory of the table is not cleared when it is allocated. A result `none` is an access
through the null pointer, to a node that is not allocated, or behind the table.
-/

namespace Carthage

structure CNode (K V : Type) where
  next : Option ℕ
  prev : Option ℕ
  hash : Option ℕ
  key : K
  data : V
  retain : ℕ

inductive CacheType
  | lru
  | mru
  deriving DecidableEq

/-- The arguments of `cache_alloc`; the flag tells whether there is a `free_func`, and `uninit`
is what the memory of the hash table holds. -/
structure CacheArgs (K V : Type) extends KeyOps K where
  granted : ℕ → Bool
  freeFunc : Bool
  size : ℕ
  type : CacheType
  uninit : ℕ → Option ℕ

structure DataCache (K V : Type) where
  head : Option ℕ
  tail : Option ℕ
  retained : Option ℕ
  hashtable : ℕ → Option ℕ
  /-- The bytes that were allocated for the hash table. -/
  tableBytes : ℕ
  used : ℕ
  heap : ℕ → Option (CNode K V)
  /-- No address from here on has been handed out by the allocator. -/
  fresh : ℕ
  /-- Number of allocator requests made so far. -/
  requests : ℕ
  /-- What `free_func` was called on, oldest first. -/
  freed : List V

variable {K V : Type} (args : CacheArgs K V)

def CacheArgs.mask : ℕ := sub64 (nbucketRoundup args.size) 1

def CacheArgs.bucketOf (key : K) : ℕ := args.hash key &&& args.mask

namespace DataCache

/-- `Slot.next a` is the `hash` pointer of the node at `a`. -/
def load (c : DataCache K V) : Slot → Option (Option ℕ)
  | .bucket i => if 8 * i + 8 ≤ c.tableBytes then some (c.hashtable i) else none
  | .next a => (c.heap a).map CNode.hash

def modify (c : DataCache K V) (a : ℕ) (f : CNode K V → CNode K V) : Option (DataCache K V) := do
  let n ← c.heap a
  return { c with heap := Function.update c.heap a (some (f n)) }

/-- The same through a pointer that may be null. -/
def modifyIf (c : DataCache K V) (p : Option ℕ) (f : CNode K V → CNode K V) :
    Option (DataCache K V) :=
  match p with
  | none => some c
  | some a => c.modify a f

def store (c : DataCache K V) (q : Option ℕ) : Slot → Option (DataCache K V)
  | .bucket i =>
      if 8 * i + 8 ≤ c.tableBytes then
        some { c with hashtable := Function.update c.hashtable i q }
      else none
  | .next a => c.modify a fun n => { n with hash := q }

def walk (c : DataCache K V) (key : K) : ℕ → Slot → Option Slot
  | 0, _ => none
  | fuel + 1, s => do
      match ← c.load s with
      | none => return s
      | some a =>
          let n ← c.heap a
          if args.keycmp n.key key ≠ 0 then walk c key fuel (.next a) else return s

end DataCache

def cacheNodeAlloc (c : DataCache K V) (key : K) (data : V) : Option ℕ × DataCache K V :=
  if args.granted c.requests then
    (some c.fresh, { c with
      fresh := c.fresh + 1, requests := c.requests + 1,
      heap := Function.update c.heap c.fresh (some ⟨none, none, none, key, data, 0⟩) })
  else (none, { c with requests := c.requests + 1 })

/-- Freeing the null pointer is allowed, but the callback needs a node. -/
def cacheNodeFree (c : DataCache K V) : Option ℕ → Option (DataCache K V)
  | none => if args.freeFunc then none else some c
  | some a => do
      let n ← c.heap a
      return { c with
        heap := Function.update c.heap a none,
        freed := if args.freeFunc then c.freed ++ [n.data] else c.freed }

def cacheHtLookup (c : DataCache K V) (key : K) : Option Slot :=
  c.walk args key (c.fresh + 1) (.bucket (args.bucketOf key))

def cacheHtInsert (c : DataCache K V) (key : K) (data : V) :
    Option (Option ℕ × DataCache K V) := do
  let s ← cacheHtLookup args c key
  match ← c.load s with
  | some _ => return (none, c)
  | none =>
      let (node, c) := cacheNodeAlloc args c key data
      let c ← c.store node s
      match node with
      | none => return (none, c)
      | some a => return (some a, { c with used := c.used + 1 })

/-- Take out the node at `a` and free it. The pointer to it is in a slot or, for `none`, in a
local variable; its new value is returned. -/
def cacheHtRemove (c : DataCache K V) (slot : Option Slot) (a : ℕ) :
    Option (Option ℕ × DataCache K V) := do
  let n ← c.heap a
  let c ← match slot with
    | none => some c
    | some s => c.store n.hash s
  let c ← cacheNodeFree args c (some a)
  return (n.hash, { c with used := sub64 c.used 1 })

/-- The node that is taken off the recency list, and the list without it. -/
def cacheVictim (c : DataCache K V) : Option (ℕ × DataCache K V) :=
  match args.type with
  | .mru => do
      let a ← c.head
      let n ← c.heap a
      let head ← n.next
      let c ← { c with head := some head }.modify head fun m => { m with prev := none }
      return (a, c)
  | .lru => do
      let a ← c.tail
      let n ← c.heap a
      let tail ← n.prev
      let c ← { c with tail := some tail }.modify tail fun m => { m with next := none }
      return (a, c)

def cacheNodePurge (c : DataCache K V) : Option (ℤ × DataCache K V) := do
  let (a, c) ← cacheVictim args c
  let (node, c) ← cacheHtRemove args c none a
  let c ← cacheNodeFree args c node
  return (0, c)

/-- An empty cache. The size of the hash table in bytes is a number of 64 bits. -/
def cacheAlloc : Option (DataCache K V) :=
  if args.granted 0 then
    some ⟨none, none, none, args.uninit, 8 * nbucketRoundup args.size % 2 ^ 64, 0, fun _ => none, 0,
      1, []⟩
  else none

def cacheUnlink (c : DataCache K V) (n : CNode K V) : Option (DataCache K V) := do
  let c ← c.modifyIf n.prev fun m => { m with next := n.next }
  c.modifyIf n.next fun m => { m with prev := n.prev }

def cachePushFront (c : DataCache K V) (a : ℕ) : Option (DataCache K V) := do
  let c ← c.modify a fun n => { n with next := c.head, prev := none }
  return { c with head := some a, tail := if c.tail = none then some a else c.tail }

/-- `cache_insert` once there is room. -/
def cacheInsertNode (c : DataCache K V) (key : K) (data : V) : Option (ℤ × DataCache K V) := do
  let (node, c) ← cacheHtInsert args c key data
  match node with
  | none => return (-2, c)
  | some a => do
      let c ← c.modifyIf c.head fun m => { m with prev := some a }
      let c ← cachePushFront c a
      return (0, c)

def cacheInsert (c : DataCache K V) (key : K) (data : V) : Option (ℤ × DataCache K V) := do
  let (rc, c) ← (if c.used = args.size then cacheNodePurge args c else some (0, c))
  if rc ≠ 0 then return (-1, c) else cacheInsertNode args c key data

def cacheRemove (c : DataCache K V) (key : K) : Option (ℤ × DataCache K V) := do
  let s ← cacheHtLookup args c key
  match ← c.load s with
  | none => return (-1, c)
  | some a => do
      let n ← c.heap a
      if n.retain > 0 then return (-2, c)
      else do
        let c ← cacheUnlink c n
        let (_, c) ← cacheHtRemove args c (some s) a
        let c ← cacheNodeFree args c (some a)
        return (0, c)

def cacheClearLoop : ℕ → DataCache K V → Option (DataCache K V)
  | 0, c => if c.head = none then some c else none
  | fuel + 1, c =>
      match c.head with
      | none => some c
      | some a => do
          let n ← c.heap a
          let (_, c) ← cacheHtRemove args { c with head := n.next } none a
          cacheClearLoop fuel c

/-- The list has at most as many nodes as were ever allocated. -/
def cacheClear (c : DataCache K V) : Option (ℤ × DataCache K V) :=
  if c.retained ≠ none then some (-1, c)
  else do
    let c ← cacheClearLoop args c.fresh c
    return (0, { c with tail := none })

def cacheFree (c : DataCache K V) : Option (ℤ × DataCache K V) := do
  let (rc, c) ← cacheClear args c
  if rc ≠ 0 then return (-1, c) else return (0, { c with hashtable := fun _ => none })

def cacheContains (c : DataCache K V) (key : K) : Option Bool := do
  let s ← cacheHtLookup args c key
  let p ← c.load s
  return p.isSome

/-- The data; `none` inside is the null pointer. -/
def cacheRetain (c : DataCache K V) (key : K) : Option (Option V × DataCache K V) := do
  let s ← cacheHtLookup args c key
  match ← c.load s with
  | none => return (none, c)
  | some a => do
      let n ← c.heap a
      let c ← c.modify a fun n => { n with retain := (n.retain + 1) % 2 ^ 64 }
      if n.retain = 0 then do
        let c ← cacheUnlink c n
        let c ← c.modify a fun m => { m with prev := none, next := c.retained }
        return (some n.data, { c with retained := some a })
      else return (some n.data, c)

def cacheRelease (c : DataCache K V) (key : K) : Option (ℤ × DataCache K V) := do
  let s ← cacheHtLookup args c key
  match ← c.load s with
  | none => return (-1, c)
  | some a => do
      let n ← c.heap a
      let c ← c.modify a fun n => { n with retain := (n.retain + 2 ^ 64 - 1) % 2 ^ 64 }
      if n.retain = 1 then do
        let c ← cacheUnlink c n
        let c ← cachePushFront c a
        return (0, c)
      else return (0, c)

inductive CacheOp (K V : Type)
  | insert (key : K) (data : V)
  | remove (key : K)
  | retain (key : K)
  | release (key : K)
  | clear

/-- The result code of a call, or the data that it returns. -/
inductive CacheRes (V : Type)
  | code (rc : ℤ)
  | data (p : Option V)

def cacheStep (c : DataCache K V) : CacheOp K V → Option (CacheRes V × DataCache K V)
  | .insert key data => do
      let (rc, c) ← cacheInsert args c key data
      return (.code rc, c)
  | .remove key => do
      let (rc, c) ← cacheRemove args c key
      return (.code rc, c)
  | .retain key => do
      let (p, c) ← cacheRetain args c key
      return (.data p, c)
  | .release key => do
      let (rc, c) ← cacheRelease args c key
      return (.code rc, c)
  | .clear => do
      let (rc, c) ← cacheClear args c
      return (.code rc, c)

end Carthage
