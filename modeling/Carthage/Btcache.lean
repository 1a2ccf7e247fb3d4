import Carthage.BlockCache
import Carthage.CircularList

/-!
# The block cache and its pointers

`struct btcache` of `btree.c` with the links of its ring. The nodes are numbered in the order
they were allocated in; none is freed before the cache is closed. Followed from its head, the
ring is the list that `Cache` keeps, and the operations are those of `Cache` on it.
-/

namespace Carthage

structure Btcache (K : Type) where
  size : ℕ
  used : ℕ
  head : Option ℕ
  next : ℕ → ℕ
  prev : ℕ → ℕ
  slots : ℕ → CacheSlot K
  table : ℕ → Option ℕ

namespace Btcache

variable {K : Type}

def hashOf (c : Btcache K) (blocknr : ℕ) : ℕ := blocknr % c.size

/-- `__btcache_add_node`; a node in use is never alone in a ring it is not in. -/
def addNode (c : Btcache K) (granted : Bool) : Option ℕ × Btcache K :=
  if granted then
    let node := c.used
    let c := { c with
      slots := Function.update c.slots node { c.slots node with hash := none, block := none },
      used := c.used + 1 }
    match c.head with
    | some head =>
        let next := Function.update c.next node head
        let prev := Function.update c.prev node (c.prev head)
        let prev := Function.update prev head node
        let next := Function.update next (prev node) node
        (some node, { c with next := next, prev := prev, head := some node })
    | none =>
        (some node, { c with
          next := Function.update c.next node node, prev := Function.update c.prev node node,
          head := some node })
  else (none, c)

/-- Follow the chain from `p` to the node before `node`. -/
def unchain (c : Btcache K) (node : ℕ) : ℕ → Option ℕ → Option (Btcache K)
  | _, none => some c
  | 0, some _ => none
  | fuel + 1, some p =>
      if (c.slots p).hash = some node then
        some { c with
          slots := Function.update c.slots p { c.slots p with hash := (c.slots node).hash } }
      else unchain c node fuel (c.slots p).hash

/-- When the chain starts with the node, its bucket is emptied. -/
def unhash (c : Btcache K) (node : ℕ) : Option (Btcache K) :=
  let index := c.hashOf (c.slots node).blocknr
  if c.table index = some node then some { c with table := Function.update c.table index none }
  else c.unchain node (c.used + 1) (c.table index)

/-- Take the node out of the ring and put it before the head. -/
def moveBack (c : Btcache K) (node head : ℕ) : Btcache K :=
  let next := Function.update c.next (c.prev node) (c.next node)
  let prev := Function.update c.prev (next node) (c.prev node)
  let head := if head = node then next node else head
  let tail := prev head
  let next := Function.update next tail node
  let next := Function.update next node head
  let prev := Function.update prev node tail
  let prev := Function.update prev head node
  { c with head := some head, next := next, prev := prev }

def eject (c : Btcache K) (node : ℕ) : Option (Btcache K) := do
  let c ← c.unhash node
  let head ← c.head
  let c := if c.prev head ≠ node then c.moveBack node head else c
  return { c with slots := Function.update c.slots node { c.slots node with block := none } }

/-- `__btcache_open`; the second request for memory is that of the first node. -/
def «open» (size : ℕ) (granted granted' : Bool) : Btcache K :=
  let c : Btcache K := ⟨0, 0, none, id, id, fun _ => ⟨none, 0, none⟩, fun _ => none⟩
  if size = 0 ∨ !granted then c else ({ c with size := size }.addNode granted').2

def setup (c : Btcache K) (node blocknr : ℕ) (block : Page K) : Btcache K :=
  let index := c.hashOf blocknr
  { c with
    slots := Function.update c.slots node ⟨c.table index, blocknr, some block⟩,
    table := Function.update c.table index (some node) }

/-- The result, the block that is freed, and the cache. -/
def add (c : Btcache K) (granted : Bool) (blocknr : ℕ) (block : Page K) :
    Option (ℤ × Option (Page K) × Btcache K) := do
  let head ← c.head
  let node := c.prev head
  if (c.slots head).block.isNone ∨ c.used ≥ c.size then
    let c := { c with head := some node }
    match (c.slots node).block with
    | some old => do
        let c ← c.unhash node
        return (0, some old, c.setup node blocknr block)
    | none => return (0, none, c.setup node blocknr block)
  else
    match c.addNode granted with
    | (some node, c) => return (0, none, c.setup node blocknr block)
    | (none, c) => return (1, none, c)

def find (c : Btcache K) (blocknr : ℕ) : ℕ → Option ℕ → Option (Option ℕ)
  | _, none => some none
  | 0, some _ => none
  | fuel + 1, some p =>
      if (c.slots p).blocknr = blocknr then some (some p) else find c blocknr fuel (c.slots p).hash

def hit (c : Btcache K) (blocknr : ℕ) : Option (Option ℕ) :=
  c.find blocknr (c.used + 1) (c.table (c.hashOf blocknr))

/-- What is returned, and the cache; a hit takes the block out. -/
def lookup (c : Btcache K) (blocknr : ℕ) : Option (Option (Page K) × Btcache K) :=
  if c.size = 0 then some (none, c)
  else do
    match ← c.hit blocknr with
    | some p => do
        let block := (c.slots p).block
        let c ← c.eject p
        return (block, c)
    | none => return (none, c)

/-- The loop of `__btcache_close`: the blocks and the nodes that are freed, in order. -/
def closeLoop (c : Btcache K) (head : ℕ) : ℕ → ℕ → Option (List (Page K) × List ℕ)
  | 0, _ => none
  | fuel + 1, p => do
      let next := c.next p
      let (blocks, nodes) ← if next ≠ head then c.closeLoop head fuel next else some ([], [])
      return ((c.slots p).block.toList ++ blocks, p :: nodes)

def close (c : Btcache K) : Option (List (Page K) × List ℕ) :=
  if c.size = 0 then some ([], [])
  else
    match c.head with
    | none => some ([], [])
    | some head => c.closeLoop head (c.used + 1) head

/-! ## The ring -/

def flat (c : Btcache K) (ring : List ℕ) : Cache K := ⟨c.size, c.used, ring, c.slots, c.table⟩

structure Rings (c : Btcache K) (ring : List ℕ) : Prop where
  circle : Circle c.next c.prev ring
  head : c.head = ring.head?

variable {c c' : Btcache K} {ring : List ℕ} {node i b : ℕ} {block : Page K}

theorem flat_find (b fuel : ℕ) (p : Option ℕ) : (c.flat ring).find b fuel p = c.find b fuel p := by
  induction fuel generalizing p with
  | zero => cases p <;> rfl
  | succ fuel ih =>
      cases p with
      | none => rfl
      | some p =>
          unfold Cache.find find
          rw [ih]
          rfl

theorem flat_unchain (fuel : ℕ) (p : Option ℕ) :
    (c.flat ring).unchain i fuel p = (c.unchain i fuel p).map fun c => c.flat ring := by
  induction fuel generalizing p with
  | zero => cases p <;> rfl
  | succ fuel ih =>
      cases p with
      | none => rfl
      | some p =>
          unfold Cache.unchain unchain
          rw [ih]
          split_ifs with h h' h'
          · rfl
          · exact absurd h h'
          · exact absurd h' h
          · rfl

theorem flat_unhash : (c.flat ring).unhash i = (c.unhash i).map fun c => c.flat ring := by
  unfold Cache.unhash unhash
  by_cases h : c.table (c.hashOf (c.slots i).blocknr) = some i
  · rw [if_pos h]
    exact if_pos h
  · rw [if_neg h, ← flat_unchain]
    exact if_neg h

theorem unchain_ring {fuel : ℕ} {p : Option ℕ} (h : c.unchain i fuel p = some c') :
    c'.head = c.head ∧ c'.next = c.next ∧ c'.prev = c.prev := by
  induction fuel generalizing p with
  | zero =>
      cases p with
      | none =>
          obtain rfl := Option.some.inj h
          exact ⟨rfl, rfl, rfl⟩
      | some p => cases h
  | succ fuel ih =>
      cases p with
      | none =>
          obtain rfl := Option.some.inj h
          exact ⟨rfl, rfl, rfl⟩
      | some p =>
          unfold unchain at h
          split_ifs at h with hnext
          · obtain rfl := Option.some.inj h
            exact ⟨rfl, rfl, rfl⟩
          · exact ih h

theorem unhash_ring (h : c.unhash i = some c') :
    c'.head = c.head ∧ c'.next = c.next ∧ c'.prev = c.prev := by
  unfold unhash at h
  simp only at h
  split_ifs at h with hfirst
  · obtain rfl := Option.some.inj h
    exact ⟨rfl, rfl, rfl⟩
  · exact unchain_ring h

theorem Rings.unhash (hr : c.Rings ring) (h : c.unhash i = some c') : c'.Rings ring := by
  obtain ⟨hhead, hnext, hprev⟩ := unhash_ring h
  refine ⟨?_, hhead.trans hr.head⟩
  rw [hnext, hprev]
  exact hr.circle

theorem Rings.addNode (hr : c.Rings ring) (hne : ring ≠ []) (hused : c.used ∉ ring) :
    ∃ c', c.addNode true = (some c.used, c') ∧ c'.Rings (c.used :: ring) ∧
      c'.size = c.size ∧ c'.used = c.used + 1 ∧ c'.table = c.table ∧
      c'.slots = Function.update c.slots c.used
        { c.slots c.used with hash := none, block := none } := by
  obtain ⟨head, ring, rfl⟩ := List.exists_cons_of_ne_nil hne
  have hhead : c.head = some head := hr.head
  have hold : head ≠ c.used := by
    rintro rfl
    exact hused List.mem_cons_self
  unfold Btcache.addNode
  simp only [if_true, hhead]
  refine ⟨_, rfl, ⟨?_, rfl⟩, rfl, rfl, rfl, rfl⟩
  have hrot : ∀ next prev, Circle next prev (head :: ring ++ [c.used]) →
      Circle next prev (c.used :: head :: ring) := fun next prev hc => hc.rotate
  apply hrot
  apply hr.circle.insert rfl hused
  · intro u
    by_cases hu : u = c.used
    · subst hu
      rw [if_pos rfl]
      have hprev : c.prev head ∈ head :: ring :=
        List.mem_of_getLast? (hr.circle.getLast? rfl)
      have hne' : c.used ≠ c.prev head := fun heq => hused (heq ▸ hprev)
      simp [Function.update_of_ne hold.symm, Function.update_of_ne hne']
    · simp [Function.update_apply, hu, hold.symm]
  · intro v
    by_cases hv : v = c.used
    · subst hv
      simp [Function.update_of_ne hold.symm]
    · simp [Function.update_apply, hv]

/-- The node goes to the end of the ring, unless it is there. -/
theorem Rings.moveBack {head : ℕ} (hr : c.Rings ring) (hi : i ∈ ring) (hhead : c.head = some head)
    (hlast : c.prev head ≠ i) : (c.moveBack i head).Rings (ring.erase i ++ [i]) := by
  obtain ⟨A, B, rfl, hA⟩ := List.eq_append_cons_of_mem hi
  have herase : (A ++ i :: B).erase i = A ++ B := by
    rw [List.erase_append_right _ hA, List.erase_cons_head]
  have hB : B ≠ [] := by
    rintro rfl
    have hend := hr.circle.getLast? (h := head) (by rw [← hr.head, hhead])
    rw [List.getLast?_concat] at hend
    exact hlast (Option.some.inj hend).symm
  have hi' : i ∉ A ++ B := by
    have hnd := hr.circle.nodup
    rw [List.nodup_middle] at hnd
    exact (List.nodup_cons.mp hnd).1
  let next := Function.update c.next (c.prev i) (c.next i)
  let prev := Function.update c.prev (next i) (c.prev i)
  have hnexti : next i = c.next i := by
    simp only [next, Function.update_apply]
    split_ifs <;> rfl
  have hcircle : Circle next prev (A ++ B) := by
    have hrot : Circle c.next c.prev (i :: (B ++ A)) := hr.circle.rotate
    have hout : Circle next prev (B ++ A) := by
      apply hrot.unlink (List.append_ne_nil_of_left_ne_nil hB A)
      · intro u
        exact Function.update_apply _ _ _ _
      · intro v
        simp only [prev, hnexti]
        exact Function.update_apply _ _ _ _
    exact hout.rotate
  let head' := if head = i then next i else head
  have hhead' : (A ++ B).head? = some head' := by
    have hfirst : (A ++ i :: B).head? = some head := by rw [← hr.head, hhead]
    cases A with
    | nil =>
        obtain rfl := Option.some.inj hfirst
        obtain ⟨d, B, rfl⟩ := List.exists_cons_of_ne_nil hB
        have hlink := (List.isChain_cons_cons.mp hr.circle.chain).1
        simp only [head', if_pos rfl, hnexti, hlink.1]
        rfl
    | cons a A =>
        obtain rfl := Option.some.inj hfirst
        have hne : a ≠ i := fun ha => hA (ha ▸ List.mem_cons_self)
        simp only [head', if_neg hne]
        rfl
  have hne' : head' ≠ i := by
    intro heq
    exact hi' (heq ▸ List.mem_of_mem_head? hhead')
  have hmove : c.moveBack i head = { c with
      head := some head',
      next := Function.update (Function.update next (prev head') i) i head',
      prev := Function.update (Function.update prev i (prev head')) head' i } := rfl
  rw [herase, hmove]
  clear_value next prev head'
  refine ⟨?_, ?_⟩
  · apply hcircle.insert hhead' hi'
    · intro u
      simp only [Function.update_apply]
    · intro v
      by_cases hv : v = i
      · subst hv
        simp [Function.update_of_ne hne'.symm]
      · simp [Function.update_apply, hv]
  · rw [List.head?_append, hhead']
    rfl

theorem Rings.eject {cache : Cache K} (hr : c.Rings ring) (hi : i ∈ ring)
    (h : (c.flat ring).eject i = some cache) :
    ∃ c', c.eject i = some c' ∧ c'.Rings (ring.erase i ++ [i]) ∧
      c'.flat (ring.erase i ++ [i]) = cache := by
  unfold Cache.eject at h
  rw [flat_unhash] at h
  cases hunhash : c.unhash i with
  | none =>
      rw [hunhash] at h
      cases h
  | some c₁ =>
      rw [hunhash] at h
      obtain rfl := Option.some.inj h
      have hr₁ := hr.unhash hunhash
      obtain ⟨head, hh⟩ : ∃ head, ring.head? = some head := by
        cases ring with
        | nil => cases hi
        | cons a ring => exact ⟨a, rfl⟩
      have hhead : c₁.head = some head := hr₁.head.trans hh
      unfold Btcache.eject
      simp only [hunhash, hhead, Option.bind_eq_bind, Option.bind_some, Option.pure_def]
      by_cases hlast : c₁.prev head = i
      · rw [if_neg (not_not.mpr hlast)]
        -- The node is the last one already.
        have hring : ring.erase i ++ [i] = ring := by
          have hend := hr₁.circle.getLast? hh
          rw [hlast, List.getLast?_eq_some_iff] at hend
          obtain ⟨init, rfl⟩ := hend
          have hnot : i ∉ init := by
            have hnd := hr₁.circle.nodup
            rw [List.nodup_middle] at hnd
            simpa using (List.nodup_cons.mp hnd).1
          rw [List.erase_append_right _ hnot]
          simp
        refine ⟨_, rfl, ?_, rfl⟩
        rw [hring]
        exact ⟨hr₁.circle, hr₁.head⟩
      · rw [if_pos hlast]
        have hmoved := hr₁.moveBack hi hhead hlast
        exact ⟨_, rfl, ⟨hmoved.circle, hmoved.head⟩, rfl⟩

theorem Rings.lookup {cache : Cache K} {old : Option (Page K)} (hr : c.Rings ring)
    (hring : ∀ i, c.hit b = some (some i) → i ∈ ring)
    (h : (c.flat ring).lookup b = some (old, cache)) :
    ∃ c' ring', c.lookup b = some (old, c') ∧ c'.Rings ring' ∧ c'.flat ring' = cache := by
  unfold Cache.lookup at h
  unfold Btcache.lookup
  by_cases hsize : c.size = 0
  · have hsize' : (c.flat ring).size = 0 := hsize
    rw [if_pos hsize'] at h
    obtain ⟨rfl, rfl⟩ := Prod.mk.inj (Option.some.inj h)
    rw [if_pos hsize]
    exact ⟨c, ring, rfl, hr, rfl⟩
  · have hsize' : ¬ (c.flat ring).size = 0 := hsize
    rw [if_neg hsize', flat_find] at h
    rw [if_neg hsize]
    change (c.hit b).bind _ = _ at h
    cases hhit : c.hit b with
    | none =>
        rw [hhit] at h
        cases h
    | some r =>
        rw [hhit, Option.bind_some] at h
        cases r with
        | none =>
            obtain ⟨rfl, rfl⟩ := Prod.mk.inj (Option.some.inj h)
            exact ⟨c, ring, rfl, hr, rfl⟩
        | some i =>
            obtain ⟨cache', heject, h⟩ := Option.bind_eq_some_iff.mp h
            obtain ⟨rfl, rfl⟩ := Prod.mk.inj (Option.some.inj h)
            obtain ⟨c', hrun, hr', hflat⟩ := hr.eject (hring i hhit) heject
            refine ⟨c', _, ?_, hr', hflat⟩
            simp only [Option.bind_eq_bind, Option.bind_some, hrun, Option.pure_def]
            rfl

end Btcache

namespace Cache

variable {K : Type}

def evicted (c : Cache K) : Option (Page K) :=
  if c.growing then none else c.ring.getLast?.bind fun i => (c.slots i).block

end Cache

namespace Btcache

variable {K : Type} {c c' : Btcache K} {ring : List ℕ} {node i b : ℕ} {block : Page K}

theorem flat_setup (ring : List ℕ) : (c.setup node b block).flat ring =
    (c.flat ring).link node b (some block) := rfl

/-- An addition, as in the list, unless a new node was needed and refused. -/
theorem Rings.add {cache : Cache K} (granted : Bool) (hr : c.Rings ring) (hne : ring ≠ [])
    (hused : c.used ∉ ring) (h : (c.flat ring).add b (some block) = some cache) :
    ((c.flat ring).growing = true ∧ granted = false ∧ c.add granted b block = some (1, none, c)) ∨
    ∃ c' ring', c.add granted b block = some (0, (c.flat ring).evicted, c') ∧ c'.Rings ring' ∧
      c'.flat ring' = cache := by
  obtain ⟨head, rest, hsplit⟩ := List.exists_cons_of_ne_nil hne
  have hh : ring.head? = some head := by
    rw [hsplit]
    rfl
  have hhead : c.head = some head := hr.head.trans hh
  have hgrow : (c.flat ring).growing = ((c.slots head).block.isSome && decide (c.used < c.size)) := by
    unfold Cache.growing
    rw [show (c.flat ring).ring.head? = some head from hh]
    rfl
  unfold Cache.add at h
  unfold Btcache.add Cache.evicted
  simp only [hhead, Option.bind_eq_bind, Option.bind_some]
  by_cases hg : (c.flat ring).growing = true
  · rw [if_pos hg] at h
    rw [if_pos hg]
    obtain rfl := Option.some.inj h
    rw [hgrow, Bool.and_eq_true, decide_eq_true_eq] at hg
    have hold : ¬ ((c.slots head).block.isNone = true ∨ c.used ≥ c.size) := by
      rw [Option.isNone_iff_eq_none, ← Option.not_isSome_iff_eq_none, not_or, not_not, not_le]
      exact hg
    rw [if_neg hold]
    cases granted with
    | false =>
        left
        rw [hgrow]
        refine ⟨by simp [hg], rfl, rfl⟩
    | true =>
        right
        obtain ⟨c₁, hadd, hr₁, hsize, hcount, htable, hslots⟩ := hr.addNode hne hused
        rw [hadd]
        refine ⟨_, c.used :: ring, rfl, ⟨hr₁.circle, hr₁.head⟩, ?_⟩
        rw [flat_setup]
        unfold Cache.link Btcache.flat Cache.hashOf
        simp only [hsize, hcount, htable, hslots, Function.update_idem]
  · rw [if_neg hg] at h
    rw [if_neg hg]
    right
    have hold : (c.slots head).block.isNone = true ∨ c.used ≥ c.size := by
      rw [hgrow, Bool.and_eq_true, decide_eq_true_eq, not_and_or, not_lt] at hg
      rw [Option.isNone_iff_eq_none, ← Option.not_isSome_iff_eq_none]
      exact hg
    rw [if_pos hold]
    have hend := hr.circle.getLast? hh
    obtain ⟨init, hinit⟩ := List.getLast?_eq_some_iff.mp hend
    have hlast : (c.flat ring).ring.getLast? = some (c.prev head) := hend
    have hdrop : (c.flat ring).ring.dropLast = init := by
      change ring.dropLast = init
      rw [hinit, List.dropLast_concat]
    simp only [hlast, hdrop, Option.bind_eq_bind, Option.bind_some] at h ⊢
    have hturned : ({ c with head := some (c.prev head) } : Btcache K).Rings (c.prev head :: init) := by
      refine ⟨?_, rfl⟩
      have hcircle := hr.circle
      rw [hinit] at hcircle
      exact hcircle.rotate
    cases hblock : (c.slots (c.prev head)).block with
    | none =>
        have hblock' : ((c.flat ring).slots (c.prev head)).block = none := hblock
        simp only [hblock'] at h ⊢
        obtain rfl := Option.some.inj h
        exact ⟨_, _, rfl, ⟨hturned.circle, hturned.head⟩, rfl⟩
    | some old =>
        have hblock' : ((c.flat ring).slots (c.prev head)).block = some old := hblock
        simp only [hblock', Option.isSome_some, if_true] at h ⊢
        change Option.bind (Cache.unhash
          (({ c with head := some (c.prev head) } : Btcache K).flat (c.prev head :: init)) _) _ = _ at h
        rw [flat_unhash] at h
        cases hrun : ({ c with head := some (c.prev head) } : Btcache K).unhash (c.prev head) with
        | none =>
            rw [hrun] at h
            cases h
        | some c₁ =>
            rw [hrun] at h
            obtain rfl := Option.some.inj h
            have hr₁ := hturned.unhash hrun
            refine ⟨c₁.setup (c.prev head) b block, c.prev head :: init, rfl,
              ⟨hr₁.circle, hr₁.head⟩, ?_⟩
            exact flat_setup _

end Btcache

end Carthage
