import Carthage.LeafPage

/-!
# Nodes of the B-tree

Pages, in-memory nodes and the state of a tree, with the operations of `btree.c` on single
nodes: the block cache, allocation, reference counts, reading from disk, and the twig and
leaf operations. The trees are those of `btree_create` and `btree_open`, where the prefix
key is the whole key and keys are compared by a strict total order. A result `none` is an
abort or an access that the C code must not make.
-/

namespace Carthage

structure NodePointer where
  blocknr : ℕ
  crc : ℕ
  size : ℕ
  deriving DecidableEq

structure TwigPage (K : Type) where
  entries : List (K × NodePointer)
  free : ℕ

inductive PageBody (K : Type)
  | leaf (page : LeafPage K)
  | twig (page : TwigPage K)

/-- A node block: `nh_crc`, `nh_level`, and the rest of the head with the content. -/
structure Page (K : Type) where
  crc : ℕ
  level : ℕ
  body : PageBody K

/-- What a disk region holds. -/
inductive DiskBlock (K : Type)
  | super (sb : SuperBlock)
  | node (page : Page K)

/-- `struct btnode`; the reference count is kept by the state. -/
structure BtNode (K : Type) where
  pointers : Option (List (Option ℕ))
  data : Option (Page K)
  blocknr : ℕ
  size : ℕ
  dirty : Bool
  onDisk : Bool
  update : Bool

/-- `struct btcache_node` without the links of the ring. -/
structure CacheSlot (K : Type) where
  hash : Option ℕ
  blocknr : ℕ
  block : Option (Page K)

/-- The block cache. The ring of slots is listed from its head. -/
structure Cache (K : Type) where
  size : ℕ
  used : ℕ
  ring : List ℕ
  slots : ℕ → CacheSlot K
  table : ℕ → Option ℕ

/-- The disk driver, the checksums and the allocator (`granted n` is the outcome of its
`n`-th request, `uninit` the content of new blocks). -/
structure BtreeEnv (K D : Type) where
  granted : ℕ → Bool
  uninit : Bytes
  write : D → ℕ → ℕ → DiskBlock K → ℕ → ℕ × D
  read : D → ℕ → ℕ → Option (DiskBlock K)
  erase : D → ℕ → ℕ → D
  crcPointer : Page K → ℕ → ℕ
  /-- The checksum of a block without its first field. -/
  crcBlock : ℕ → PageBody K → ℕ → ℕ

structure Btree (K D : Type) where
  super : SuperBlock
  superOffset : ℕ
  cache : Cache K
  disk : D
  root : Option ℕ
  heap : ℕ → Option (BtNode K)
  refs : ℕ → ℤ
  /-- No address from here on has been handed out by the allocator. -/
  fresh : ℕ
  /-- Number of allocator requests made so far. -/
  mallocs : ℕ

namespace Page

variable {K : Type}

def items (page : Page K) : ℕ :=
  match page.body with
  | .leaf p => p.slots.length
  | .twig p => p.entries.length

def free (page : Page K) : ℕ :=
  match page.body with
  | .leaf p => p.free
  | .twig p => p.free

def keys (page : Page K) : List K :=
  match page.body with
  | .leaf p => p.keys
  | .twig p => p.entries.map Prod.fst

def leaf? (page : Page K) : Option (LeafPage K) :=
  match page.body with
  | .leaf p => some p
  | .twig _ => none

def twig? (page : Page K) : Option (TwigPage K) :=
  match page.body with
  | .leaf _ => none
  | .twig p => some p

end Page

/-! ## The block cache -/

namespace Cache

variable {K : Type}

def hashOf (c : Cache K) (blocknr : ℕ) : ℕ := blocknr % c.size

def setSlot (c : Cache K) (i : ℕ) (slot : CacheSlot K) : Cache K :=
  { c with slots := Function.update c.slots i slot }

/-- Unlink slot `i` from the chain that starts at slot `p`. -/
def unchain (c : Cache K) (i : ℕ) : ℕ → Option ℕ → Option (Cache K)
  | _, none => some c
  | 0, some _ => none
  | fuel + 1, some p =>
      if (c.slots p).hash = some i then
        some (c.setSlot p { c.slots p with hash := (c.slots i).hash })
      else unchain c i fuel (c.slots p).hash

def unhash (c : Cache K) (i : ℕ) : Option (Cache K) :=
  let index := c.hashOf (c.slots i).blocknr
  if c.table index = some i then some { c with table := Function.update c.table index none }
  else c.unchain i (c.used + 1) (c.table index)

/-- Move slot `i` to the end of the ring and mark it free. -/
def eject (c : Cache K) (i : ℕ) : Option (Cache K) := do
  let c ← c.unhash i
  return { c with
    ring := c.ring.erase i ++ [i],
    slots := Function.update c.slots i { c.slots i with block := none } }

/-- `__btcache_open`; the second request for memory is that of the first slot. -/
def «open» (size : ℕ) (granted granted' : Bool) : Cache K :=
  let c : Cache K := ⟨0, 0, [], fun _ => ⟨none, 0, none⟩, fun _ => none⟩
  if size = 0 ∨ !granted then c
  else if granted' then { c with size := size, used := 1, ring := [0] }
  else { c with size := size }

/-- Whether adding a block needs a new slot. -/
def growing (c : Cache K) : Bool :=
  match c.ring.head? with
  | none => false
  | some i => (c.slots i).block.isSome && c.used < c.size

def link (c : Cache K) (i blocknr : ℕ) (block : Option (Page K)) : Cache K :=
  let index := c.hashOf blocknr
  { c with
    slots := Function.update c.slots i ⟨c.table index, blocknr, block⟩,
    table := Function.update c.table index (some i) }

/-- `__btcache_add` in a new slot, or in the last one of the ring. -/
def add (c : Cache K) (blocknr : ℕ) (block : Option (Page K)) : Option (Cache K) :=
  if c.growing then
    let i := c.used
    some ({ c with ring := i :: c.ring, used := c.used + 1 }.link i blocknr block)
  else do
    let i ← c.ring.getLast?
    let c := { c with ring := i :: c.ring.dropLast }
    let c ← if (c.slots i).block.isSome then c.unhash i else some c
    return c.link i blocknr block

def find (c : Cache K) (blocknr : ℕ) : ℕ → Option ℕ → Option (Option ℕ)
  | _, none => some none
  | 0, some _ => none
  | fuel + 1, some p =>
      if (c.slots p).blocknr = blocknr then some (some p) else find c blocknr fuel (c.slots p).hash

/-- A hit takes the block out of the cache. -/
def lookup (c : Cache K) (blocknr : ℕ) : Option (Option (Page K) × Cache K) :=
  if c.size = 0 then some (none, c)
  else do
    match ← c.find blocknr (c.used + 1) (c.table (c.hashOf blocknr)) with
    | none => return (none, c)
    | some p =>
        let block := (c.slots p).block
        let c ← c.eject p
        return (block, c)

end Cache

namespace Btree

variable {K D : Type} (env : BtreeEnv K D)

/-! ## Memory -/

def malloc (s : Btree K D) : Bool × Btree K D :=
  (env.granted s.mallocs, { s with mallocs := s.mallocs + 1 })

def freeNode (s : Btree K D) (x : ℕ) : Btree K D :=
  { s with heap := Function.update s.heap x none, refs := Function.update s.refs x 0 }

def setNode (s : Btree K D) (x : ℕ) (node : BtNode K) : Btree K D :=
  { s with heap := Function.update s.heap x (some node) }

def addRef (s : Btree K D) (x : ℕ) (n : ℤ) : Btree K D :=
  { s with refs := s.refs + Pi.single x n }

def page (s : Btree K D) (x : ℕ) : Option (Page K) := do
  let node ← s.heap x
  node.data

/-- `__btnode_level_alloc`: a node without its block, referenced once. -/
def btnodeLevelAlloc (s : Btree K D) (level : ℕ) : Option ℕ × Btree K D :=
  let (ok, s) := s.malloc env
  if ok then
    let pointers := if level = 1 then none else some (List.replicate s.super.fanout none)
    (some s.fresh, { s with
      fresh := s.fresh + 1,
      heap := Function.update s.heap s.fresh (some ⟨pointers, none, 0, 0, false, false, false⟩),
      refs := Function.update s.refs s.fresh 1 })
  else (none, s)

def emptyBody (s : Btree K D) (level : ℕ) : PageBody K :=
  if level = 1 then .leaf ⟨[], s.super.nodeSpace, env.uninit⟩ else .twig ⟨[], s.super.nodeSpace⟩

def btnodeAlloc (s : Btree K D) (level : ℕ) : Option ℕ × Btree K D :=
  match s.btnodeLevelAlloc env level with
  | (none, s) => (none, s)
  | (some x, s) =>
      let (ok, s) := s.malloc env
      if ok then
        let node : BtNode K := ⟨if level = 1 then none else some (List.replicate s.super.fanout none),
          some ⟨0, level, s.emptyBody env level⟩, 0, 0, false, false, false⟩
        (some x, { s with
          heap := Function.update s.heap x (some node),
          super := { s.super with nodeCount := add64 s.super.nodeCount 1 } })
      else (none, s.freeNode x)

/-- Adding a block asks for memory when the cache grows; a refusal loses the block. -/
def btcacheAdd (s : Btree K D) (blocknr : ℕ) (block : Option (Page K)) : Option (Btree K D) :=
  if s.cache.growing then
    let (ok, s) := s.malloc env
    if ok then do
      let cache ← s.cache.add blocknr block
      return { s with cache := cache }
    else some s
  else do
    let cache ← s.cache.add blocknr block
    return { s with cache := cache }

/-- The last release of a clean node hands its block to the cache. -/
def btnodeRelease (s : Btree K D) (x : ℕ) : Option (Btree K D) := do
  let node ← s.heap x
  if s.refs x ≤ 0 then none
  let s := s.addRef x (-1)
  if s.refs x > 0 then return s
  if !node.dirty && s.cache.size ≠ 0 then
    let s ← s.btcacheAdd env node.blocknr node.data
    return s.setNode x { node with data := none }
  else return s

def btnodeFree (s : Btree K D) (x : ℕ) : Option (Btree K D) := do
  let node ← s.heap x
  let s ← if node.data.isSome then s.btnodeRelease env x else some s
  return s.freeNode x

def btnodeRemove (s : Btree K D) (x : ℕ) : Option (Btree K D) := do
  let node ← s.heap x
  let s := if node.onDisk then { s with disk := env.erase s.disk node.blocknr node.size } else s
  return s.freeNode x

/-- `__btnode_read`; the flag is whether the node has its block. -/
def btnodeRead (s : Btree K D) (x : ℕ) (pointer : NodePointer) : Option (Bool × Btree K D) := do
  let node ← s.heap x
  if node.data.isSome then return (true, s)
  let (block, cache) ← s.cache.lookup pointer.blocknr
  let s := { s with cache := cache }
  if block.isSome then return (true, s.setNode x { node with data := block })
  let node := { node with
    blocknr := pointer.blocknr, size := pointer.size,
    dirty := false, onDisk := false, update := false }
  let s := s.setNode x node
  let (ok, s) := s.malloc env
  if !ok then return (false, s)
  match env.read s.disk pointer.blocknr pointer.size with
  | some (.node page) =>
      if pointer.crc ≠ env.crcPointer page pointer.size then return (false, s)
      if page.crc ≠ env.crcBlock page.level page.body pointer.size then return (false, s)
      return (true, s.setNode x { node with data := some page })
  | _ => return (false, s)

def btnodeFetch (s : Btree K D) (level : ℕ) (pointer : NodePointer) :
    Option (Option ℕ × Btree K D) :=
  match s.btnodeLevelAlloc env level with
  | (none, s) => some (none, s)
  | (some x, s) => do
      let (ok, s) ← s.btnodeRead env x pointer
      if ok then return (some x, s) else return (none, s.freeNode x)

/-- The child of a twig, referenced once more; it is read when it is not in memory. -/
def btnodeFetchTwig (s : Btree K D) (x index : ℕ) : Option (Option ℕ × Btree K D) := do
  let node ← s.heap x
  let page ← node.data
  let twig ← page.twig?
  let pointers ← node.pointers
  let entry ← twig.entries[index]?
  match ← pointers[index]? with
  | some child =>
      let (ok, s) ← (s.addRef child 1).btnodeRead env child entry.2
      return (if ok then some child else none, s)
  | none =>
      let (child, s) ← s.btnodeFetch env ((page.level + 1) % 2 ^ 8) entry.2
      let node ← s.heap x
      return (child, s.setNode x { node with pointers := some (pointers.set index child) })

def rootPointer (s : Btree K D) : NodePointer := ⟨s.super.root, s.super.rootCrc, s.super.rootSize⟩

def btreeFetchRoot (s : Btree K D) : Option (Option ℕ × Btree K D) :=
  match s.root with
  | some root => do
      let (ok, s) ← (s.addRef root 1).btnodeRead env root s.rootPointer
      return (if ok then some root else none, s)
  | none => do
      let (root, s) ← s.btnodeFetch env s.super.height s.rootPointer
      return (root, { s with root := root })

/-! ## Twigs -/

def putTwig (s : Btree K D) (x : ℕ) (node : BtNode K) (page : Page K) (twig : TwigPage K) :
    Btree K D :=
  s.setNode x { node with data := some { page with body := .twig twig }, dirty := true }

def twigReplace (s : Btree K D) (x index : ℕ) (key : K) (value : NodePointer) :
    Option (Btree K D) := do
  let node ← s.heap x
  let page ← node.data
  let twig ← page.twig?
  if index < twig.entries.length then
    return s.putTwig x node page { twig with entries := twig.entries.set index (key, value) }
  else none

def twigInlineReplace (s : Btree K D) (x index : ℕ) (value : NodePointer) :
    Option (Btree K D) := do
  let node ← s.heap x
  let page ← node.data
  let twig ← page.twig?
  let entry ← twig.entries[index]?
  return s.putTwig x node page { twig with entries := twig.entries.set index (entry.1, value) }

/-- `memmove` on an array of pointers. -/
def moveSlots (pointers : List (Option ℕ)) (dst src n : ℕ) : List (Option ℕ) :=
  pointers.take dst ++ (pointers.drop src).take n ++ pointers.drop (dst + n)

/-- The in-memory pointers make room, but the new one is left to the caller. -/
def twigInsert (s : Btree K D) (x index : ℕ) (key : K) (value : NodePointer) :
    Option (Btree K D) := do
  let node ← s.heap x
  let page ← node.data
  let twig ← page.twig?
  let pointers ← node.pointers
  let n := twig.entries.length
  if index ≤ n ∧ n < pointers.length then
    return s.putTwig x { node with pointers := some (moveSlots pointers (index + 1) index (n - index)) }
      page ⟨twig.entries.insertIdx index (key, value), sub32 twig.free s.super.twigNeeded⟩
  else none

/-- `nh_free` is decreased, as by an insertion. The moves read the slot behind the last one. -/
def twigRemove (s : Btree K D) (x index : ℕ) : Option (Btree K D) := do
  let node ← s.heap x
  let page ← node.data
  let twig ← page.twig?
  let pointers ← node.pointers
  let n := twig.entries.length
  let free := sub32 twig.free s.super.twigNeeded
  if index + 1 < n then
    if n < pointers.length then
      let moved := moveSlots pointers index (index + 1) (n - index)
      return s.putTwig x { node with pointers := some (moved.set (n - 1) none) } page
        ⟨twig.entries.eraseIdx index, free⟩
    else none
  else if 0 < n ∧ n ≤ pointers.length then
    return s.putTwig x { node with pointers := some (pointers.set (n - 1) none) } page
      ⟨twig.entries.dropLast, free⟩
  else none

def twigSplit (s : Btree K D) (left right : ℕ) : Option (Btree K D) := do
  let lnode ← s.heap left
  let lpage ← lnode.data
  let ltwig ← lpage.twig?
  let lpointers ← lnode.pointers
  let rnode ← s.heap right
  let rpage ← rnode.data
  let rpointers ← rnode.pointers
  let n := ltwig.entries.length
  let leftKey := n / 2
  let rightKey := n - leftKey
  let space := fun m => sub32 (sub32 s.super.nodeSpace (m * s.super.prefixSize)) (m * 16)
  if n ≤ lpointers.length ∧ rightKey ≤ rpointers.length then
    let moved := (lpointers.drop leftKey).take rightKey ++ rpointers.drop rightKey
    let zeroed := lpointers.take leftKey ++ List.replicate rightKey none ++ lpointers.drop n
    let s := s.putTwig right { rnode with pointers := some moved } rpage
      ⟨ltwig.entries.drop leftKey, space rightKey⟩
    return s.putTwig left { lnode with pointers := some zeroed } lpage
      ⟨ltwig.entries.take leftKey, space leftKey⟩
  else none

/-- The entries are copied one by one, the in-memory pointers are not. -/
def twigMerge (s : Btree K D) (left right : ℕ) : Option (Btree K D) := do
  let rpage ← s.page right
  let rtwig ← rpage.twig?
  let lpage ← s.page left
  let index := lpage.items
  let s ← rtwig.entries.zipIdx.foldlM
    (fun s e => s.twigInsert left (index + e.2) e.1.1 e.1.2) s
  let rnode ← s.heap right
  return s.setNode right
    ({ rnode with data := some { rpage with body := .twig ⟨[], s.super.nodeSpace⟩ } })

def setPointer (s : Btree K D) (x index : ℕ) (child : Option ℕ) : Option (Btree K D) := do
  let node ← s.heap x
  let pointers ← node.pointers
  if index < pointers.length then
    return s.setNode x { node with pointers := some (pointers.set index child) }
  else none

/-! ## Leaves -/

def putLeaf (s : Btree K D) (x : ℕ) (node : BtNode K) (page : Page K) (leaf : LeafPage K) :
    Btree K D :=
  s.setNode x { node with data := some { page with body := .leaf leaf }, dirty := true }

def leafInsert (s : Btree K D) (x index : ℕ) (key : K) (value : List UInt8) :
    Option (Btree K D) := do
  let node ← s.heap x
  let page ← node.data
  let leaf ← page.leaf?
  let leaf ← leaf.insert s.super.toGeometry index key value
  return { s.putLeaf x node page leaf with
    super := { s.super with
      itemCount := add64 s.super.itemCount 1,
      storedData := add64 s.super.storedData value.length } }

def leafRemove (s : Btree K D) (x index : ℕ) : Option (Btree K D) := do
  let node ← s.heap x
  let page ← node.data
  let leaf ← page.leaf?
  let slot ← leaf.slots[index]?
  let leaf ← leaf.remove s.super.toGeometry index
  return { s.putLeaf x node page leaf with
    super := { s.super with
      itemCount := sub64 s.super.itemCount 1, storedData := sub64 s.super.storedData slot.size } }

def leafReplace (s : Btree K D) (x index size : ℕ) : Option (Btree K D) := do
  let node ← s.heap x
  let page ← node.data
  let leaf ← page.leaf?
  let leaf ← leaf.replace s.super.toGeometry index size
  return s.putLeaf x node page leaf

def leafInlineReplace (s : Btree K D) (x index : ℕ) (value : List UInt8) :
    Option (Btree K D) := do
  let node ← s.heap x
  let page ← node.data
  let leaf ← page.leaf?
  let leaf ← leaf.inlineReplace s.super.toGeometry index value
  return s.putLeaf x node page leaf

def leafSplit (s : Btree K D) (left right : ℕ) : Option (Btree K D) := do
  let lnode ← s.heap left
  let lpage ← lnode.data
  let lleaf ← lpage.leaf?
  let rnode ← s.heap right
  let rpage ← rnode.data
  let rleaf ← rpage.leaf?
  let (lleaf, rleaf) ← lleaf.split s.super.toGeometry rleaf
  return (s.putLeaf right rnode rpage rleaf).putLeaf left lnode lpage lleaf

/-- The items are inserted one by one, which counts them as new. -/
def leafMerge (s : Btree K D) (left right : ℕ) : Option (Btree K D) := do
  let rpage ← s.page right
  let rleaf ← rpage.leaf?
  let lpage ← s.page left
  let index := lpage.items
  let s ← rleaf.slots.zipIdx.foldlM
    (fun s e => s.leafInsert left (index + e.2) e.1.key (rleaf.body e.1)) s
  let rnode ← s.heap right
  return s.setNode right { rnode with
    data := some { rpage with body := .leaf ⟨[], s.super.nodeSpace, rleaf.mem⟩ } }

end Btree

end Carthage
