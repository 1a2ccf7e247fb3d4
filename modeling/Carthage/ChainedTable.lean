import Carthage.BucketCount
import Carthage.LinkedChain

/-!
# Chained bucket tables

`hashtable.c`, `bag.c` and `set.c` are one program over three node types. This
module is that program: nodes live in a heap and are linked through `next`, a
bucket array holds the chain heads, and freed nodes are kept on a pool. The three
files instantiate it. A result `none` is an access the C code must not make: a
bucket outside the array, a node that is not allocated, or a chain that never
ends.
-/

namespace Carthage

/-- The two callbacks on keys, with what their documentation promises: comparison
is an equivalence (zero means equal) and the hash respects it. -/
structure KeyOps (K : Type) where
  keycmp : K → K → ℤ
  hash : K → ℕ
  keycmp_refl : ∀ a, keycmp a a = 0
  keycmp_symm : ∀ a b, keycmp a b = 0 → keycmp b a = 0
  keycmp_trans : ∀ a b c, keycmp a b = 0 → keycmp b c = 0 → keycmp a c = 0
  hash_eq : ∀ a b, keycmp a b = 0 → hash a = hash b

/-- Numbers as keys, compared by their difference. -/
def numberKeys : KeyOps ℕ where
  keycmp a b := (a : ℤ) - b
  hash a := a
  keycmp_refl a := sub_self _
  keycmp_symm a b h := by omega
  keycmp_trans a b c h h' := by omega
  hash_eq a b h := by omega

/-- What a table is created with: the key callbacks, the allocator (`granted n` is
the outcome of its `n`-th request), the calls of the free functions that freeing a
node makes, and the size of the node pool. -/
structure TableOps (K P E : Type) extends KeyOps K where
  granted : ℕ → Bool
  released : K → P → List E
  poolMax : ℕ

structure ChainNode (K P : Type) where
  next : Option ℕ
  key : K
  payload : P

/-- The `next` field as a link of chains. -/
def ChainNode.link (K P : Type) : LinkField ℕ (ChainNode K P) where
  get := ChainNode.next
  set q n := { n with next := q }
  get_set _ _ := rfl

structure ChainTable (K P E : Type) where
  bucket : List (Option ℕ)
  size : ℕ
  used : ℕ
  pool : Option ℕ
  poolSize : ℕ
  heap : ℕ → Option (ChainNode K P)
  /-- No address from here on has been handed out by the allocator. -/
  fresh : ℕ
  /-- Number of allocator requests made so far. -/
  requests : ℕ
  /-- Calls of the free functions, oldest first. -/
  calls : List E

/-- The address of a pointer to a node, a `hashnode_t **`. -/
inductive Slot
  | bucket (i : ℕ)
  | next (a : ℕ)
  deriving DecidableEq

namespace ChainTable

variable {K P E : Type} (ops : TableOps K P E)

def load (t : ChainTable K P E) : Slot → Option (Option ℕ)
  | .bucket i => t.bucket[i]?
  | .next a => (t.heap a).map ChainNode.next

def store (t : ChainTable K P E) (q : Option ℕ) : Slot → Option (ChainTable K P E)
  | .bucket i =>
      if i < t.bucket.length then some { t with bucket := t.bucket.set i q } else none
  | .next a =>
      if (t.heap a).isSome then
        some { t with heap := (ChainNode.link K P).relink t.heap a q }
      else none

/-- `__mmalloc`: whether the next request is granted. -/
def request (t : ChainTable K P E) : Bool × ChainTable K P E :=
  (ops.granted t.requests, { t with requests := t.requests + 1 })

def nodeAlloc (t : ChainTable K P E) (key : K) (payload : P) :
    Option (Option ℕ × ChainTable K P E) :=
  match t.pool with
  | some a => do
      let n ← t.heap a
      return (some a, { t with
        pool := n.next, poolSize := t.poolSize - 1,
        heap := Function.update t.heap a (some ⟨none, key, payload⟩) })
  | none =>
      let (ok, t) := t.request ops
      if ok then
        return (some t.fresh, { t with
          fresh := t.fresh + 1,
          heap := Function.update t.heap t.fresh (some ⟨none, key, payload⟩) })
      else return (none, t)

def nodeFree (t : ChainTable K P E) (a : ℕ) : Option (ChainTable K P E) := do
  let n ← t.heap a
  let t := { t with calls := t.calls ++ ops.released n.key n.payload }
  if t.poolSize < ops.poolMax then
    return { t with
      heap := (ChainNode.link K P).relink t.heap a t.pool,
      pool := some a, poolSize := t.poolSize + 1 }
  else return { t with heap := Function.update t.heap a none }

/-- The loop of the lookup: follow `next` until the pointer is null or its node has
an equal key. -/
def walk (t : ChainTable K P E) (key : K) : ℕ → Slot → Option Slot
  | 0, _ => none
  | fuel + 1, s => do
      match ← t.load s with
      | none => return s
      | some a =>
          let n ← t.heap a
          if ops.keycmp n.key key ≠ 0 then walk t key fuel (.next a) else return s

/-- A chain without a cycle has at most as many nodes as were ever allocated, which
bounds the walk. -/
def nodeLookup (t : ChainTable K P E) (key : K) : Option Slot :=
  t.walk ops key (t.fresh + 1) (.bucket (ops.hash key &&& (t.size - 1)))

/-- `__bucket_alloc` and the `memset` that clears the array. The allocator takes the
byte count as 32 bits, so from `2 ^ 29` buckets on the `memset` leaves the block. -/
def bucketAlloc (t : ChainTable K P E) (n : ℕ) :
    Option (Option (List (Option ℕ)) × ChainTable K P E) :=
  let (ok, t) := t.request ops
  if ok then
    if 8 * n < 2 ^ 32 then return (some (List.replicate n none), t) else none
  else return (none, t)

/-- Append every node of an old chain to the chain of its new bucket. -/
def relinkChain : ℕ → Option ℕ → ChainTable K P E → Option (ChainTable K P E)
  | _, none, t => some t
  | 0, some _, _ => none
  | fuel + 1, some p, t => do
      let n ← t.heap p
      let s ← t.nodeLookup ops n.key
      let t ← t.store (some p) s
      let t ← t.store none (.next p)
      relinkChain fuel n.next t

def relinkBuckets (old : List (Option ℕ)) : ℕ → ChainTable K P E → Option (ChainTable K P E)
  | 0, t => some t
  | size + 1, t => do
      let p ← old[size]?
      let t ← relinkChain ops (t.fresh + 1) p t
      relinkBuckets old size t

def resize (t : ChainTable K P E) (newSize : ℕ) : Option (ℤ × ChainTable K P E) := do
  let newSize := nbucketRoundup newSize
  let (bucket, t') ← t.bucketAlloc ops newSize
  match bucket with
  | none => return (-1, t')
  | some bucket =>
      let t' ← relinkBuckets ops t.bucket t.size { t' with bucket := bucket, size := newSize }
      return (0, t')

def clearChain : ℕ → Option ℕ → ChainTable K P E → Option (ChainTable K P E)
  | _, none, t => some t
  | 0, some _, _ => none
  | fuel + 1, some p, t => do
      let n ← t.heap p
      let t ← t.nodeFree ops p
      clearChain fuel n.next t

def clearBuckets : ℕ → ChainTable K P E → Option (ChainTable K P E)
  | 0, t => some t
  | size + 1, t => do
      let p ← t.bucket[size]?
      let t ← clearChain ops (t.fresh + 1) p t
      clearBuckets size { t with bucket := t.bucket.set size none }

def clear (t : ChainTable K P E) : Option (ChainTable K P E) := do
  let t ← clearBuckets ops t.size t
  let t := { t with used := 0 }
  if 1024 < t.size then
    let (_, t) ← t.resize ops (t.size >>> 3)
    return t
  else return t

def growTarget (t : ChainTable K P E) : ℕ :=
  (t.size + if t.size < 64 then t.size >>> 1 else t.size) % 2 ^ 64

def setPayload (t : ChainTable K P E) (a : ℕ) (n : ChainNode K P) (payload : P) :
    ChainTable K P E :=
  { t with heap := Function.update t.heap a (some { n with payload := payload }) }

/-- Allocate a node for a new entry and store it at `s`. -/
def placeNode (t : ChainTable K P E) (s : Slot) (key : K) (payload : P) :
    Option (ℤ × ChainTable K P E) := do
  let (node, t) ← t.nodeAlloc ops key payload
  let t ← t.store node s
  match node with
  | none => return (-2, t)
  | some _ => return (0, { t with used := t.used + 1 })

/-- The part of the insertions after the key was not found at `s`. -/
def addNode (t : ChainTable K P E) (s : Slot) (key : K) (payload : P) :
    Option (ℤ × ChainTable K P E) := do
  if t.used > t.size + t.size >>> 3 then
    let (rc, t) ← t.resize ops t.growTarget
    if rc ≠ 0 then return (-1, t)
    let s ← t.nodeLookup ops key
    t.placeNode ops s key payload
  else t.placeNode ops s key payload

/-- The part of the removals that takes the node `p` out of the slot `s`. -/
def dropNode (t : ChainTable K P E) (s : Slot) (p : ℕ) : Option (ChainTable K P E) := do
  let n ← t.heap p
  let t ← t.store n.next s
  let t ← t.nodeFree ops p
  let t := { t with used := t.used - 1 }
  if t.used < (t.size >>> 1) - (t.size >>> 2) then
    let (_, t) ← t.resize ops (t.size >>> 1)
    return t
  else return t

def visitChain (t : ChainTable K P E) : ℕ → Option ℕ → Option (List (K × P))
  | _, none => some []
  | 0, some _ => none
  | fuel + 1, some p => do
      let n ← t.heap p
      let rest ← visitChain t fuel n.next
      return (n.key, n.payload) :: rest

/-- The pairs that the `foreach` functions pass to their callback, in order. -/
def visitBuckets (t : ChainTable K P E) : ℕ → Option (List (K × P))
  | 0 => some []
  | size + 1 => do
      let p ← t.bucket[size]?
      let here ← t.visitChain (t.fresh + 1) p
      let rest ← visitBuckets t size
      return here ++ rest

def foreach (t : ChainTable K P E) : Option (List (K × P)) := t.visitBuckets t.size

/-- The bucket counts that insertion, removal and `clear` ask for. -/
inductive ResizeTarget (t : ChainTable K P E) : ℕ → Prop
  | grow : ResizeTarget t t.growTarget
  | halve : ResizeTarget t (t.size >>> 1)
  | clear : ResizeTarget t (t.size >>> 3)

/-- A new table; `none` inside when the bucket array was not granted. -/
def create (size : ℕ) : Option (Option (ChainTable K P E)) := do
  let size := nbucketRoundup size
  let t : ChainTable K P E := {
    bucket := [], size := size, used := 0, pool := none, poolSize := 0,
    heap := fun _ => none, fresh := 0, requests := 0, calls := [] }
  let (bucket, t) ← t.bucketAlloc ops size
  match bucket with
  | none => return none
  | some bucket => return some { t with bucket := bucket }

end ChainTable

/-! ## Bucket counts -/

theorem ChainTable.ResizeTarget.le {K P E : Type} {t : ChainTable K P E} {target e : ℕ}
    (h : t.ResizeTarget target) (ht : t.size = 2 ^ e) (he : e ≤ 63) : target ≤ 2 ^ 63 := by
  have hsize : t.size ≤ 2 ^ 63 := ht ▸ Nat.pow_le_pow_right Nat.two_pos he
  cases h with
  | grow =>
      have hhalf : t.size >>> 1 ≤ t.size := Nat.shiftRight_le t.size 1
      unfold growTarget
      rcases Nat.lt_or_ge e 63 with hlt | hge
      · have hlow : 2 ^ e ≤ 2 ^ 62 := Nat.pow_le_pow_right Nat.two_pos (by omega)
        refine (Nat.mod_le _ _).trans ?_
        split_ifs <;> omega
      · obtain rfl : e = 63 := le_antisymm he hge
        rw [if_neg (by omega), ht]
        norm_num
  | halve => exact (Nat.shiftRight_le t.size 1).trans hsize
  | clear => exact (Nat.shiftRight_le t.size 3).trans hsize

/-- The bucket count is the least power of two that a size and 8 allow, masking with it gives a
bucket, and a table with that many buckets resizes to a power of two again. -/
theorem nbucketRoundup_least {size : ℕ} (hsize : size ≤ 2 ^ 63) :
    (∃ e, nbucketRoundup size = 2 ^ e ∧ max size 8 ≤ 2 ^ e ∧
      ∀ e', max size 8 ≤ 2 ^ e' → 2 ^ e ≤ 2 ^ e') ∧
    (∀ hash, hash &&& (nbucketRoundup size - 1) < nbucketRoundup size) ∧
    ∀ {K P E : Type} (t : ChainTable K P E) (target : ℕ), t.size = nbucketRoundup size →
      t.ResizeTarget target → target ≤ 2 ^ 63 ∧ ∃ e, nbucketRoundup target = 2 ^ e := by
  obtain ⟨e, he, h3, hle, hmin⟩ := nbucketRoundup_spec hsize
  have height : 8 ≤ 2 ^ e := (Nat.pow_le_pow_right Nat.two_pos h3 : 2 ^ 3 ≤ 2 ^ e)
  refine ⟨⟨e, he, max_le hle height, fun e' he' => ?_⟩, fun hash => ?_, ?_⟩
  · have h3' : 3 ≤ e' := (Nat.pow_le_pow_iff_right (by norm_num : 1 < 2)).mp
      ((le_max_right size 8).trans he' : 2 ^ 3 ≤ 2 ^ e')
    exact Nat.pow_le_pow_right Nat.two_pos (hmin e' h3' ((le_max_left size 8).trans he'))
  · rw [he]
    exact and_mask_lt hash e
  · intro K P E t target ht htarget
    have hle63 := htarget.le (ht.trans he) (hmin 63 (by norm_num) hsize)
    obtain ⟨e', he', -⟩ := nbucketRoundup_spec hle63
    exact ⟨hle63, e', he'⟩

theorem nbucketRoundup_least_nine :
    (∃ e, nbucketRoundup 9 = 2 ^ e ∧ max 9 8 ≤ 2 ^ e ∧
      ∀ e', max 9 8 ≤ 2 ^ e' → 2 ^ e ≤ 2 ^ e') ∧
    (∀ hash, hash &&& (nbucketRoundup 9 - 1) < nbucketRoundup 9) ∧
    ∀ {K P E : Type} (t : ChainTable K P E) (target : ℕ), t.size = nbucketRoundup 9 →
      t.ResizeTarget target → target ≤ 2 ^ 63 ∧ ∃ e, nbucketRoundup target = 2 ^ e :=
  nbucketRoundup_least (by norm_num)

end Carthage
