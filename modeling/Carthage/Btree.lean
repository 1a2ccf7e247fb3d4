import Carthage.BtreeNode

/-!
# The B-tree

Search, insertion, removal and synchronisation of `btree.c`. Loops and recursions that go
from level to level carry a bound on the number of levels, which an 8-bit level cannot
exceed; running out of it is a result `none`, like an abort or an access that the C code
must not make.
-/

namespace Carthage

/-- `btnode_place_t`; the value pointer is the index, as in the code it is derived from it. -/
structure Place where
  index : ℕ
  size : ℕ
  found : Bool

/-- A bound on the length of a path, and on the number of levels. -/
def maxLevels : ℕ := 2 ^ 8

namespace Btree

variable {K D : Type} [LinearOrder K] (env : BtreeEnv K D)

/-! ## Search -/

/-- `__twig_search` or `__leaf_search`; a miss leaves the size as it was. -/
def searchNode (s : Btree K D) (x : ℕ) (key : K) (place : Place) : Option Place := do
  let page ← s.page x
  if page.level > 1 then
    let twig ← page.twig?
    let (found, index) ← indexSearch (twig.entries.map Prod.fst) key
    return ⟨index, if found then 16 else place.size, found⟩
  else
    let leaf ← page.leaf?
    let (found, index) ← leaf.search key
    if found then
      let slot ← leaf.slots[index]?
      return ⟨index, slot.size, true⟩
    else return ⟨index, place.size, false⟩

def lookupLoop (key : K) (level : ℕ) :
    ℕ → Option ℕ → Place → Btree K D → Option (Option ℕ × Place × Btree K D)
  | _, none, place, s => some (none, place, s)
  | 0, some _, _, _ => none
  | fuel + 1, some x, place, s => do
      let place ← s.searchNode x key place
      let page ← s.page x
      if page.level = level then return (some x, place, s)
      if page.level = 1 then
        let s ← s.btnodeRelease env x
        return (none, place, s)
      let place := if place.index ≥ page.items then
        { place with index := sub32 place.index 1 } else place
      let (under, s) ← s.btnodeFetchTwig env x place.index
      let s ← s.btnodeRelease env x
      lookupLoop key level fuel under place s

def btreeLookupLevel (s : Btree K D) (key : K) (level : ℕ) (place : Place) :
    Option (Option ℕ × Place × Btree K D) := do
  let (root, s) ← s.btreeFetchRoot env
  lookupLoop env key level maxLevels root place s

/-! ## Updates of the twigs above a node -/

/-- An uninitialised place. -/
def noPlace : Place := ⟨0, 0, false⟩

def setToUpdate (s : Btree K D) (x : ℕ) : Option (Btree K D) := do
  let node ← s.heap x
  return s.setNode x { node with update := true }

def lastKey (s : Btree K D) (x : ℕ) : Option K := do
  let page ← s.page x
  page.keys.getLast?

def firstKey (s : Btree K D) (x : ℕ) : Option K := do
  let page ← s.page x
  page.keys.head?

def lastPrevKey (s : Btree K D) (x : ℕ) : Option K := do
  let page ← s.page x
  page.keys.dropLast.getLast?

/-- The loop of `__btree_twigs_update`. The new key is read when it is copied. -/
def twigsUpdateLoop (oldKey : K) (newKey : Option K) :
    ℕ → ℕ → Btree K D → Option (Btree K D)
  | 0, _, _ => none
  | fuel + 1, level, s => do
      let (node, place, s) ← s.btreeLookupLevel env oldKey (level + 1) noPlace
      match node with
      | none => return s
      | some x =>
          let s ← s.setToUpdate x
          let s ← if place.found then do
              let page ← s.page x
              let twig ← page.twig?
              let entry ← twig.entries[place.index]?
              s.twigReplace x place.index (← newKey) entry.2
            else some s
          let s ← s.btnodeRelease env x
          twigsUpdateLoop oldKey newKey fuel (level + 1) s

def btreeTwigsUpdate (s : Btree K D) (x : ℕ) (oldKey : K) (newKey : Option K) :
    Option (Btree K D) := do
  let page ← s.page x
  twigsUpdateLoop env oldKey newKey maxLevels page.level s

def btreeTwigsInsertUpdate (s : Btree K D) (x index : ℕ) (newKey : K) : Option (Btree K D) := do
  let last ← s.lastKey x
  let page ← s.page x
  if index = page.items then s.btreeTwigsUpdate env x last (some newKey)
  else s.btreeTwigsUpdate env x last (some last)

def btreeTwigsRemoveUpdate (s : Btree K D) (x index : ℕ) : Option (Btree K D) := do
  let last ← s.lastKey x
  let page ← s.page x
  if index + 1 = page.items then s.btreeTwigsUpdate env x last (s.lastPrevKey x)
  else s.btreeTwigsUpdate env x last (some last)

/-! ## Insertion -/

def nullPointer : NodePointer := ⟨0, 0, 0⟩

def btreeGrow (s : Btree K D) : Option (Option ℕ × Btree K D) := do
  let height := s.super.height
  match s.btnodeAlloc env height with
  | (none, s) => return (none, s)
  | (some newRoot, s) =>
      let s ← if height > 1 then do
          let (oldRoot, s) ← s.btreeFetchRoot env
          let oldRoot ← oldRoot
          let key ← s.lastKey oldRoot
          let s ← s.twigInsert newRoot 0 key nullPointer
          let s ← s.setPointer newRoot 0 (some oldRoot)
          s.btnodeRelease env oldRoot
        else some s
      return (some newRoot, { s with
        root := some newRoot,
        super := { s.super with height := (s.super.height + 1) % 2 ^ 8 } })

/-- `__twig_index_search`, for the index only. -/
def twigIndex (s : Btree K D) (x : ℕ) (key : K) : Option ℕ := do
  let page ← s.page x
  let twig ← page.twig?
  let (_, index) ← indexSearch (twig.entries.map Prod.fst) key
  return index

/-- `__twig_insert` at the place of the key, with the in-memory pointer. -/
def twigInsertChild (s : Btree K D) (x index : ℕ) (key : K) (child : ℕ) :
    Option (Btree K D) := do
  let s ← s.twigInsert x index key nullPointer
  s.setPointer x index (some child)

def btreeInsertNode : ℕ → Btree K D → ℕ → Option (ℤ × Btree K D)
  | 0, _, _ => none
  | fuel + 1, s, node => do
      let key ← s.lastKey node
      let page ← s.page node
      let (found, place, s) ← s.btreeLookupLevel env key (page.level + 1) noPlace
      match found with
      | none =>
          let (grown, s) ← s.btreeGrow env
          match grown with
          | none => return (1, s)
          | some twig =>
              let index ← s.twigIndex twig key
              let s ← s.twigInsertChild twig index key node
              let s ← s.btnodeRelease env twig
              return (0, s)
      | some twig =>
          let tpage ← s.page twig
          if tpage.free ≥ s.super.twigNeeded then
            let index ← s.twigIndex twig key
            let s ← s.btreeTwigsInsertUpdate env twig index key
            let s ← s.twigInsertChild twig index key node
            let s ← s.btnodeRelease env twig
            return (0, s)
          else if place.index < tpage.items then
            match s.btnodeAlloc env tpage.level with
            | (none, s) =>
                let s ← s.btnodeRelease env twig
                return (2, s)
            | (some right, s) =>
                let s ← s.twigSplit twig right
                let last ← s.lastKey right
                let s ← s.btreeTwigsUpdate env twig last (s.lastKey twig)
                let first ← s.firstKey right
                let target := if key < first then twig else right
                let index ← s.twigIndex target key
                let s ← s.btreeTwigsInsertUpdate env target index key
                let s ← s.twigInsertChild target index key node
                let (rc, s) ← btreeInsertNode fuel s right
                if rc ≠ 0 then
                  let s ← s.twigRemove target index
                  let s ← s.twigMerge twig right
                  let s ← s.btnodeRelease env twig
                  let s ← s.btnodeFree env right
                  return (3, s)
                let s ← s.btnodeRelease env right
                let s ← s.btnodeRelease env twig
                return (0, s)
          else
            match s.btnodeAlloc env tpage.level with
            | (none, s) =>
                let s ← s.btnodeRelease env twig
                return (4, s)
            | (some right, s) =>
                let s ← s.twigInsertChild right 0 key node
                let (rc, s) ← btreeInsertNode fuel s right
                if rc ≠ 0 then
                  let s ← s.btnodeRelease env twig
                  let s ← s.btnodeFree env right
                  return (5, s)
                let s ← s.btnodeRelease env right
                let s ← s.btnodeRelease env twig
                return (0, s)

/-- The separators are updated as for an insertion at index 0, wherever the key goes. -/
def btreeLeafSplitInsert (s : Btree K D) (left : ℕ) (key : K) (value : List UInt8) :
    Option (ℤ × Btree K D) := do
  match s.btnodeAlloc env 1 with
  | (none, s) => return (1, s)
  | (some right, s) =>
      let s ← s.leafSplit left right
      let last ← s.lastKey right
      let s ← s.btreeTwigsUpdate env left last (s.lastKey left)
      let (rc, s) ← btreeInsertNode env maxLevels s right
      if rc ≠ 0 then
        let s ← s.leafMerge left right
        let s ← s.btnodeFree env right
        return (2, s)
      let needed := s.super.itemNeeded value.length % 2 ^ 32
      let first ← s.firstKey right
      let target := if key < first then left else right
      let page ← s.page target
      if page.free < needed then
        match s.btnodeAlloc env 1 with
        | (none, s) =>
            let s ← s.btnodeRelease env right
            return (3, s)
        | (some target, s) =>
            let s ← s.btreeTwigsInsertUpdate env target 0 key
            let s ← s.leafInsert target 0 key value
            let (rc, s) ← btreeInsertNode env maxLevels s target
            if rc ≠ 0 then
              let s ← s.btnodeRelease env right
              let s ← s.btnodeFree env target
              return (4, s)
            let s ← s.btnodeRelease env right
            return (0, s)
      else
        let leaf ← page.leaf?
        let (_, index) ← leaf.search key
        let s ← s.btreeTwigsInsertUpdate env target 0 key
        let s ← s.leafInsert target index key value
        let s ← s.btnodeRelease env right
        return (0, s)

/-- `btree_insert`; `place` is the content of the local place before the search. -/
def btreeInsert (s : Btree K D) (key : K) (value : List UInt8) (place : Place) :
    Option (ℤ × Btree K D) := do
  let size := value.length
  match s.root with
  | none =>
      let (node, s) ← s.btreeGrow env
      match node with
      | none => return (1, s)
      | some node =>
          let s ← s.leafInsert node 0 key value
          let s ← s.btnodeRelease env node
          return (0, s)
  | some _ =>
      let (node, place, s) ← s.btreeLookupLevel env key 1 place
      let node ← node
      let page ← s.page node
      let needed := s.super.itemNeeded size % 2 ^ 32
      let freeSpace := (page.free + if place.found then s.super.itemNeeded place.size else 0) % 2 ^ 32
      if place.size = size then
        let s ← s.leafInlineReplace node place.index value
        let s ← s.btnodeRelease env node
        return (0, s)
      else if freeSpace ≥ needed then
        if place.found then
          let s ← s.leafReplace node place.index size
          let s ← s.btnodeRelease env node
          return (0, s)
        else
          let s ← s.btreeTwigsInsertUpdate env node place.index key
          let s ← s.leafInsert node place.index key value
          let s ← s.btnodeRelease env node
          return (0, s)
      else if place.index < page.items then
        let s ← if place.found then s.leafRemove node place.index else some s
        let (rc, s) ← s.btreeLeafSplitInsert env node key value
        let s ← s.btnodeRelease env node
        return (if rc ≠ 0 then 2 else 0, s)
      else
        let s ← if place.found then s.leafRemove node place.index else some s
        match s.btnodeAlloc env 1 with
        | (none, s) =>
            let s ← s.btnodeRelease env node
            return (3, s)
        | (some right, s) =>
            let s ← s.leafInsert right 0 key value
            let (rc, s) ← btreeInsertNode env maxLevels s right
            if rc ≠ 0 then
              let s ← s.btnodeRelease env node
              let s ← s.btnodeFree env right
              return (4, s)
            let s ← s.btnodeRelease env right
            let s ← s.btnodeRelease env node
            return (0, s)

/-! ## Removal -/

/-- `__btree_remove_node`; the flag is whether the node was freed. -/
def btreeRemoveNode : ℕ → Btree K D → ℕ → Option (Bool × Btree K D)
  | 0, _, _ => none
  | fuel + 1, s, node => do
      let last ← s.lastKey node
      let page ← s.page node
      let (parent, place, s) ← s.btreeLookupLevel env last (page.level + 1) noPlace
      match parent with
      | some parent =>
          let ppage ← s.page parent
          let (freed, s) ← if ppage.items = 1 then btreeRemoveNode fuel s parent
            else do
              let s ← s.btreeTwigsRemoveUpdate env parent place.index
              let s ← s.twigRemove parent place.index
              pure (false, s)
          let s ← if page.level = 1 then s.leafRemove node 0 else s.twigRemove node 0
          let s := { s with super := { s.super with nodeCount := sub64 s.super.nodeCount 1 } }
          let s ← s.btnodeRemove env node
          let s ← if freed then some s else s.btnodeRelease env parent
          return (true, s)
      | none =>
          if page.level > 1 then
            let s ← s.btreeTwigsRemoveUpdate env node place.index
            let s ← s.twigRemove node place.index
            return (false, s)
          else return (false, s)

def btreeRemove (s : Btree K D) (key : K) : Option (ℤ × Btree K D) := do
  let (node, place, s) ← s.btreeLookupLevel env key 1 noPlace
  match node with
  | none => return (1, s)
  | some node =>
      if !place.found then
        let s ← s.btnodeRelease env node
        return (2, s)
      let page ← s.page node
      if page.items = 1 then
        if s.super.nodeCount > 1 then
          let (freed, s) ← btreeRemoveNode env maxLevels s node
          if !freed then none
          let (root, s) ← s.btreeFetchRoot env
          let root ← root
          let rpage ← s.page root
          if rpage.items = 1 then
            let (child, s) ← s.btnodeFetchTwig env root 0
            let child ← child
            let s := { s with
              root := some child,
              super := { s.super with
                height := (s.super.height + 2 ^ 8 - 1) % 2 ^ 8,
                nodeCount := sub64 s.super.nodeCount 1 } }
            let s ← s.btnodeRemove env root
            let s ← s.btnodeRelease env child
            return (0, s)
          else
            let s ← s.btnodeRelease env root
            return (0, s)
        else
          let s ← s.leafRemove node 0
          let s ← s.btnodeRelease env node
          return (0, s)
      else
        let s ← s.btreeTwigsRemoveUpdate env node place.index
        let s ← s.leafRemove node place.index
        let s ← s.btnodeRelease env node
        return (0, s)

/-- `btree_lookup`: the bytes copied to the buffer, whose number is returned. -/
def btreeLookup (s : Btree K D) (key : K) (size : ℕ) : Option (List UInt8 × Btree K D) := do
  let (node, place, s) ← s.btreeLookupLevel env key 1 noPlace
  match node with
  | none => return ([], s)
  | some node =>
      if !place.found then
        let s ← s.btnodeRelease env node
        return ([], s)
      let page ← s.page node
      let leaf ← page.leaf?
      let slot ← leaf.slots[place.index]?
      let bytes := leaf.mem.read slot.offset (min size place.size)
      let s ← s.btnodeRelease env node
      return (bytes, s)

/-! ## Synchronisation -/

/-- The children of a twig in turn. A negative result ends the loop. -/
def syncChildren (sync : Btree K D → ℕ → NodePointer → Option (ℤ × NodePointer × Btree K D))
    (x : ℕ) : List ℕ → NodePointer → Btree K D → Option (ℤ × NodePointer × Btree K D)
  | [], pointer, s => some (0, pointer, s)
  | i :: rest, pointer, s => do
      let (child, s) ← s.btnodeFetchTwig env x i
      match child with
      | none => return (-1, pointer, s)
      | some child =>
          let (err, pointer, s) ← sync s child pointer
          let s ← s.btnodeRelease env child
          if err < 0 then return (err, pointer, s)
          else if err > 0 then syncChildren sync x rest pointer s
          else
            let s ← s.twigInlineReplace x i pointer
            syncChildren sync x rest pointer s

/-- Write a dirty node, whose children are already written. -/
def writeNode (s : Btree K D) (x : ℕ) : Option (NodePointer × Btree K D) := do
  let node ← s.heap x
  let page ← node.data
  let size := s.super.blockSize
  let page := { page with crc := env.crcBlock page.level page.body size }
  let (blocknr, disk) := env.write s.disk node.blocknr node.size (.node page) size
  let node := { node with
    data := some page, onDisk := true, dirty := false, blocknr := blocknr, size := size }
  return (⟨blocknr, env.crcPointer page size, size⟩,
    { s with disk := disk, heap := Function.update s.heap x (some node) })

def syncNode : ℕ → Btree K D → ℕ → NodePointer → Option (ℤ × NodePointer × Btree K D)
  | 0, _, _, _ => none
  | fuel + 1, s, x, pointer => do
      if s.refs x ≠ 1 then none
      let node ← s.heap x
      let page ← node.data
      if page.level > 1 then
        if !node.update && !node.dirty then return (1, pointer, s)
        let (err, pointer, s) ← syncChildren env (syncNode fuel) x (List.range page.items) pointer s
        if err < 0 then return (err, pointer, s)
        let node ← s.heap x
        if !node.dirty then return (2, pointer, s)
        let (pointer, s) ← s.writeNode env x
        return (0, pointer, s)
      else
        if !node.dirty then return (2, pointer, s)
        let (pointer, s) ← s.writeNode env x
        return (0, pointer, s)

/-- `__btree_mem_nodes_release`; a node that still has its block aborts in `__btnode_free`. -/
def memNodesRelease : ℕ → Btree K D → ℕ → Option (Btree K D)
  | 0, _, _ => none
  | fuel + 1, s, x => do
      let node ← s.heap x
      if s.refs x ≠ 0 then none
      let s ← (node.pointers.getD []).foldlM (fun s child =>
        match child with
        | none => some s
        | some child => memNodesRelease fuel s child) s
      s.btnodeFree env x

def btreeSync (s : Btree K D) : Option (ℤ × Btree K D) := do
  match s.root with
  | none => return (0, s)
  | some _ =>
      let (root, s) ← s.btreeFetchRoot env
      let root ← root
      let (err, pointer, s) ← syncNode env maxLevels s root nullPointer
      let s ← s.btnodeRelease env root
      if err < 0 then return (-1, s)
      if err > 0 then return (1, s)
      let super := { s.super with
        root := pointer.blocknr, rootSize := pointer.size, rootCrc := pointer.crc }
      let (offset, disk) := env.write s.disk s.superOffset 64 (.super super) 64
      let s := { s with super := super, superOffset := offset, disk := disk }
      let s ← memNodesRelease env maxLevels s root
      return (0, { s with root := none })

/-- `btree_close`; the block cache is freed by `Btcache.close`. -/
def btreeClose (s : Btree K D) : Option (ℤ × Btree K D) := do
  let (err, s) ← s.btreeSync env
  if err < 0 then return (-1, s)
  match s.root with
  | none => return (0, s)
  | some root =>
      let s ← memNodesRelease env maxLevels s root
      return (0, { s with root := none })

/-! ## Creation -/

/-- `btree_create`; `none` when the block is too small for the key. -/
def btreeCreate (disk : D) (cacheSize superOffset blockSize keySize magic nodeMagic : ℕ) :
    Option (Btree K D) :=
  if blockSize < 16 + 4 * (8 + keySize * 4 % 2 ^ 32) then none
  else
    let size := keySize % 2 ^ 16
    some {
      super := {
        magic := magic, nodeMagic := nodeMagic, blockSize := blockSize, prefixSize := size,
        keySize := size, fanout := (blockSize - 16) / (size + 16) % 2 ^ 16, height := 1,
        itemCount := 0, nodeCount := 0, storedData := 0, root := 0, rootCrc := 0, rootSize := 0 },
      superOffset := superOffset,
      cache := Cache.open cacheSize (env.granted 0) (env.granted 1),
      disk := disk, root := none, heap := fun _ => none, refs := 0, fresh := 0, mallocs := 2 }

/-- `btree_open`, with its result code. -/
def btreeOpen (disk : D) (cacheSize superOffset magic nodeMagic : ℕ) : ℤ × Option (Btree K D) :=
  match env.read disk superOffset 64 with
  | some (.super super) =>
      if super.magic ≠ magic then (3, none)
      else if super.nodeMagic ≠ nodeMagic then (4, none)
      else (0, some {
        super := super, superOffset := superOffset,
        cache := Cache.open cacheSize (env.granted 0) (env.granted 1),
        disk := disk, root := none, heap := fun _ => none, refs := 0, fresh := 0, mallocs := 2 })
  | _ => (1, none)

end Btree

end Carthage
