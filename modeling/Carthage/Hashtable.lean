import Carthage.ChainedClear
import Carthage.Runs

/-!
# The hash table

`hashtable.c` as an instance of the chained table, and its refinement of a finite map:
every run of operations, with any pattern of refused allocations, gives results that a
map from keys to values gives.
-/

namespace Carthage

/-- A call of `key_free_func` or of `value_free_func`. -/
inductive HashtableCall (K V : Type)
  | keyFree (key : K)
  | valueFree (value : V)

/-- The arguments of `hashtable_alloc`; the flags tell whether the free functions are set. -/
structure HashtableArgs (K V : Type) extends KeyOps K where
  granted : ℕ → Bool
  keyFreeFunc : Bool
  valueFreeFunc : Bool

abbrev Hashtable (K V : Type) := ChainTable K V (HashtableCall K V)

variable {K V : Type}

/-- The member's own values: what `__hashnode_free` calls and `__HASHTABLE_POOL_SIZE`. -/
def HashtableArgs.ops (args : HashtableArgs K V) : TableOps K V (HashtableCall K V) where
  toKeyOps := args.toKeyOps
  granted := args.granted
  released key value := (if args.keyFreeFunc then [.keyFree key] else []) ++
    if args.valueFreeFunc then [.valueFree value] else []
  poolMax := 32

def hashnodeAlloc (args : HashtableArgs K V) (t : Hashtable K V) (key : K) (value : V) :
    Option (Option ℕ × Hashtable K V) := t.nodeAlloc args.ops key value

def hashnodeFree (args : HashtableArgs K V) (t : Hashtable K V) (node : ℕ) :
    Option (Hashtable K V) := t.nodeFree args.ops node

def hashnodeLookup (args : HashtableArgs K V) (t : Hashtable K V) (key : K) : Option Slot :=
  t.nodeLookup args.ops key

def hashtableResize (args : HashtableArgs K V) (t : Hashtable K V) (newSize : ℕ) :
    Option (ℤ × Hashtable K V) := t.resize args.ops newSize

def hashtableAlloc (args : HashtableArgs K V) (size : ℕ) : Option (Option (Hashtable K V)) :=
  ChainTable.create args.ops size

def hashtableInsert [DecidableEq V] (args : HashtableArgs K V) (t : Hashtable K V) (key : K) (value : V) :
    Option (ℤ × Hashtable K V) := do
  let node ← hashnodeLookup args t key
  match ← t.load node with
  | some a =>
      let n ← t.heap a
      let t := if n.payload ≠ value ∧ args.valueFreeFunc then
        { t with calls := t.calls ++ [.valueFree n.payload] } else t
      return (0, t.setPayload a n value)
  | none => t.addNode args.ops node key value

def hashtableRemove (args : HashtableArgs K V) (t : Hashtable K V) (key : K) :
    Option (ℤ × Hashtable K V) := do
  let node ← hashnodeLookup args t key
  match ← t.load node with
  | none => return (-1, t)
  | some p =>
      let t ← t.dropNode args.ops node p
      return (0, t)

def hashtableClear (args : HashtableArgs K V) (t : Hashtable K V) :
    Option (ℤ × Hashtable K V) := do
  let t ← t.clear args.ops
  return (0, t)

/-- Free the nodes of the pool from `p` on; the first argument bounds their number. -/
def hashtableFreePool : ℕ → Option ℕ → Hashtable K V → Option (Hashtable K V)
  | _, none, t => some t
  | 0, some _, _ => none
  | m + 1, some a, t => do
      let n ← t.heap a
      hashtableFreePool m n.next { t with heap := Function.update t.heap a none }

def hashtableFree (args : HashtableArgs K V) (t : Hashtable K V) : Option (Hashtable K V) := do
  let (_, t) ← hashtableClear args t
  let t ← hashtableFreePool t.fresh t.pool t
  return { t with bucket := [] }

def hashtableContains (args : HashtableArgs K V) (t : Hashtable K V) (key : K) : Option ℤ := do
  let node ← hashnodeLookup args t key
  match ← t.load node with
  | some _ => return 1
  | none => return 0

/-- `null` is the null pointer, returned when the key is absent. -/
def hashtableLookup (args : HashtableArgs K V) (null : V) (t : Hashtable K V) (key : K) :
    Option V := do
  let node ← hashnodeLookup args t key
  match ← t.load node with
  | some a =>
      let n ← t.heap a
      return n.payload
  | none => return null

def hashtableSize (t : Hashtable K V) : ℕ := t.used

def hashtableForeach (t : Hashtable K V) : Option (List (K × V)) := t.foreach

inductive HashtableOp (K V : Type)
  | insert (key : K) (value : V)
  | remove (key : K)
  | clear
  | contains (key : K)
  | lookup (key : K)
  | size
  | foreach

inductive HashtableRes (K V : Type)
  | code (rc : ℤ)
  | value (v : V)
  | count (n : ℕ)
  | visited (pairs : List (K × V))

def hashtableStep [DecidableEq V] (args : HashtableArgs K V) (null : V) (t : Hashtable K V) :
    HashtableOp K V → Option (HashtableRes K V × Hashtable K V)
  | .insert key value => do
      let (rc, t) ← hashtableInsert args t key value
      return (.code rc, t)
  | .remove key => do
      let (rc, t) ← hashtableRemove args t key
      return (.code rc, t)
  | .clear => do
      let (rc, t) ← hashtableClear args t
      return (.code rc, t)
  | .contains key => do
      let found ← hashtableContains args t key
      return (.code found, t)
  | .lookup key => do
      let v ← hashtableLookup args null t key
      return (.value v, t)
  | .size => some (.count (hashtableSize t), t)
  | .foreach => do
      let pairs ← hashtableForeach t
      return (.visited pairs, t)

/-- One operation of a run in which bucket counts stay below `2 ^ 29`. -/
def HashtableTransition [DecidableEq V] (args : HashtableArgs K V) (null : V)
    (t : Hashtable K V) (event : HashtableOp K V × HashtableRes K V) (t' : Hashtable K V) : Prop :=
  t.GrowsBelow ∧ hashtableStep args null t event.1 = some (event.2, t')

/-! ## The finite map -/

def Enumerates (ops : KeyOps K) (L : List (K × V)) (m : K → Option V) : Prop :=
  ops.Distinct L ∧ ∀ k, ops.value L k = m k

/-- What a finite map does on each operation. Only the insertion of a new key may fail. -/
inductive MapStep (ops : KeyOps K) (null : V) :
    (K → Option V) → HashtableOp K V × HashtableRes K V → (K → Option V) → Prop
  | insert (m key value) : MapStep ops null m (.insert key value, .code 0)
      (fun k => if ops.keycmp key k = 0 then some value else m k)
  | refuse (m key value rc) : rc ≠ 0 → m key = none →
      MapStep ops null m (.insert key value, .code rc) m
  | remove (m key v) : m key = some v → MapStep ops null m (.remove key, .code 0)
      (fun k => if ops.keycmp key k = 0 then none else m k)
  | missing (m key rc) : rc ≠ 0 → m key = none → MapStep ops null m (.remove key, .code rc) m
  | clear (m) : MapStep ops null m (.clear, .code 0) (fun _ => none)
  | contains (m key) :
      MapStep ops null m (.contains key, .code (if (m key).isSome then 1 else 0)) m
  | lookup (m key) : MapStep ops null m (.lookup key, .value ((m key).getD null)) m
  | size (m L) : Enumerates ops L m → MapStep ops null m (.size, .count L.length) m
  | foreach (m L) : Enumerates ops L m → MapStep ops null m (.foreach, .visited L) m

/-- The table holds the pairs of the map. -/
def Represents (args : HashtableArgs K V) (t : Hashtable K V) (m : K → Option V) : Prop :=
  ∃ L, t.Holds args.ops L ∧ ∀ k, args.value L k = m k

variable {args : HashtableArgs K V} {null : V} {t : Hashtable K V} {L : List (K × V)} {key : K}
  {m : K → Option V}

theorem hashtableInsert_spec [DecidableEq V] (h : t.Holds args.ops L) (hg : t.GrowsBelow)
    (key : K) (value : V) :
    ∃ rc t', hashtableInsert args t key value = some (rc, t') ∧
      ((rc = 0 ∧ ∃ L', t'.Holds args.ops L' ∧ ∀ k, args.value L' k =
          if args.keycmp key k = 0 then some value else args.value L k) ∨
        (rc ≠ 0 ∧ args.find L key = none ∧ t'.Holds args.ops L)) := by
  cases hf : args.find L key with
  | some e =>
      obtain ⟨M, hM⟩ := KeyOps.exists_perm_cons hf
      obtain ⟨s, a, n, hlook, hload, hn, rfl, hset⟩ := h.setPayload hf hM
      let t₁ : Hashtable K V := if n.payload ≠ value ∧ args.valueFreeFunc then
        { t with calls := t.calls ++ [.valueFree n.payload] } else t
      have hins : hashtableInsert args t key value = some (0, t₁.setPayload a n value) := by
        simp only [hashtableInsert, hashnodeLookup, hlook, hload, hn, Option.bind_eq_bind,
          Option.bind_some, Option.pure_def, t₁]
      refine ⟨0, _, hins, Or.inl ⟨rfl, (n.key, value) :: M, ?_, ?_⟩⟩
      · simp only [t₁]
        split_ifs
        · exact (hset value).calls _
        · exact hset value
      · exact KeyOps.value_overwrite h.distinct hf hM value
  | none =>
      obtain ⟨s, hlook, hload⟩ := h.nodeLookup_absent hf
      obtain ⟨rc, t', hadd, -, hres⟩ :=
        h.addNode hf value (h.growTarget_small hg) hlook
      refine ⟨rc, t', ?_, ?_⟩
      · simp only [hashtableInsert, hashnodeLookup, hlook, hload, Option.bind_eq_bind,
          Option.bind_some, hadd]
      · rcases hres with ⟨rfl, h'⟩ | ⟨hrc, h'⟩
        · exact Or.inl ⟨rfl, _, h', KeyOps.value_add value⟩
        · exact Or.inr ⟨hrc, rfl, h'⟩

theorem hashtableInsert_granted [DecidableEq V] (hg : ∀ n, args.granted n = true) {value : V}
    {rc : ℤ} {t' : Hashtable K V} (h : hashtableInsert args t key value = some (rc, t')) :
    rc = 0 := by
  obtain ⟨node, -, h⟩ := Option.bind_eq_some_iff.mp h
  obtain ⟨o, -, h⟩ := Option.bind_eq_some_iff.mp h
  cases o with
  | some a =>
      obtain ⟨n, -, h⟩ := Option.bind_eq_some_iff.mp h
      exact (Prod.mk.inj (Option.some.inj h)).1.symm
  | none => exact ChainTable.addNode_granted hg h

theorem hashtableRemove_spec (h : t.Holds args.ops L) (key : K) :
    ∃ rc t', hashtableRemove args t key = some (rc, t') ∧
      ((rc = 0 ∧ (args.find L key).isSome ∧ ∃ L', t'.Holds args.ops L' ∧
          ∀ k, args.value L' k =
            if args.keycmp key k = 0 then none else args.value L k) ∨
        (rc ≠ 0 ∧ args.find L key = none ∧ t' = t)) := by
  cases hf : args.find L key with
  | some e =>
      obtain ⟨M, hM⟩ := KeyOps.exists_perm_cons hf
      obtain ⟨s, a, n, hlook, hload, -, -, t', hdrop, h', -⟩ := h.dropNode hf hM
      refine ⟨0, t', ?_, Or.inl ⟨rfl, rfl, M, h', KeyOps.value_remove h.distinct hf hM⟩⟩
      simp only [hashtableRemove, hashnodeLookup, hlook, hload, Option.bind_eq_bind,
        Option.bind_some, hdrop, Option.pure_def]
  | none =>
      obtain ⟨s, hlook, hload⟩ := h.nodeLookup_absent hf
      refine ⟨-1, t, ?_, Or.inr ⟨by decide, rfl, rfl⟩⟩
      simp only [hashtableRemove, hashnodeLookup, hlook, hload, Option.bind_eq_bind,
        Option.bind_some, Option.pure_def]

theorem hashtableContains_spec (h : t.Holds args.ops L) (key : K) :
    hashtableContains args t key = some (if (args.find L key).isSome then 1 else 0) := by
  cases hf : args.find L key with
  | some e =>
      obtain ⟨s, a, n, hlook, hload, -⟩ := h.nodeLookup_found hf
      simp [hashtableContains, hashnodeLookup, hlook, hload]
  | none =>
      obtain ⟨s, hlook, hload⟩ := h.nodeLookup_absent hf
      simp [hashtableContains, hashnodeLookup, hlook, hload]

theorem hashtableLookup_spec (h : t.Holds args.ops L) (key : K) :
    hashtableLookup args null t key = some ((args.value L key).getD null) := by
  cases hf : args.find L key with
  | some e =>
      obtain ⟨s, a, n, hlook, hload, hn, rfl⟩ := h.nodeLookup_found hf
      simp [hashtableLookup, hashnodeLookup, hlook, hload, hn, KeyOps.value, hf]
  | none =>
      obtain ⟨s, hlook, hload⟩ := h.nodeLookup_absent hf
      simp [hashtableLookup, hashnodeLookup, hlook, hload, KeyOps.value, hf]

variable (null) in
/-- Every operation on a table in its invariant is defined, and does what the map does. -/
theorem hashtableStep_spec [DecidableEq V] (h : Represents args t m) (hg : t.GrowsBelow)
    (op : HashtableOp K V) :
    ∃ res t' m', hashtableStep args null t op = some (res, t') ∧ Represents args t' m' ∧
      MapStep args.toKeyOps null m (op, res) m' := by
  obtain ⟨L, hL, hm⟩ := h
  have henum : ∀ M : List (K × V), M.Perm L → Enumerates args.toKeyOps M m := fun M hM =>
    ⟨(KeyOps.distinct_perm hM).mpr hL.distinct, fun k => by
      rw [← hm k]
      exact (KeyOps.value_perm hL.distinct hM.symm k).symm⟩
  cases op with
  | insert key value =>
      obtain ⟨rc, t', hins, ⟨rfl, L', hL', hfind⟩ | ⟨hrc, hf, hL'⟩⟩ :=
        hashtableInsert_spec hL hg key value
      · refine ⟨.code 0, t', _, by simp [hashtableStep, hins], ⟨L', hL', hfind⟩, ?_⟩
        simp only [hm]
        exact .insert m key value
      · refine ⟨.code rc, t', m, by simp [hashtableStep, hins], ⟨L, hL', hm⟩, ?_⟩
        exact .refuse m key value rc hrc (by rw [← hm, KeyOps.value, hf]; rfl)
  | remove key =>
      obtain ⟨rc, t', hrem, ⟨rfl, hf, L', hL', hfind⟩ | ⟨hrc, hf, rfl⟩⟩ :=
        hashtableRemove_spec hL key
      · obtain ⟨e, he⟩ := Option.isSome_iff_exists.mp hf
        refine ⟨.code 0, t', _, by simp [hashtableStep, hrem], ⟨L', hL', hfind⟩, ?_⟩
        simp only [hm]
        exact .remove m key e.2 (by rw [← hm, KeyOps.value, he]; rfl)
      · refine ⟨.code rc, t', m, by simp [hashtableStep, hrem], ⟨L, hL, hm⟩, ?_⟩
        exact .missing m key rc hrc (by rw [← hm, KeyOps.value, hf]; rfl)
  | clear =>
      obtain ⟨t', evs, hclear, h', -⟩ := hL.clear
      refine ⟨.code 0, t', _, by simp [hashtableStep, hashtableClear, hclear], ⟨[], h', ?_⟩,
        .clear m⟩
      exact fun _ => rfl
  | contains key =>
      have hsome : (args.find L key).isSome = (m key).isSome := by simp [← hm, KeyOps.value]
      refine ⟨.code (if (m key).isSome then 1 else 0), t, m, ?_, ⟨L, hL, hm⟩, .contains m key⟩
      simp [hashtableStep, hashtableContains_spec hL key, hsome]
  | lookup key =>
      refine ⟨.value ((m key).getD null), t, m, ?_, ⟨L, hL, hm⟩, .lookup m key⟩
      simp [hashtableStep, hashtableLookup_spec hL key, hm]
  | size =>
      refine ⟨_, t, m, rfl, ⟨L, hL, hm⟩, ?_⟩
      rw [hashtableSize, hL.used_eq]
      exact .size m L (henum L (List.Perm.refl L))
  | foreach =>
      obtain ⟨M, hM, hperm⟩ := hL.foreach
      exact ⟨.visited M, t, m, by simp [hashtableStep, hashtableForeach, hM], ⟨L, hL, hm⟩,
        .foreach m M (henum M hperm)⟩

theorem hashtableAlloc_represents {size : ℕ} (hsize : size ≤ 2 ^ 28)
    (ht : hashtableAlloc args size = some (some t)) : Represents args t (fun _ => none) :=
  ⟨[], (ChainTable.create_holds hsize ht).1, fun _ => rfl⟩

/-- In every run from a new table, whatever allocations fail, the results are those of a
finite map that the table represents, and every next operation is defined. -/
theorem hashtableRun_refines [DecidableEq V] {size : ℕ} {t₀ : Hashtable K V}
    (hsize : size ≤ 2 ^ 28) (halloc : hashtableAlloc args size = some (some t₀))
    {trace : List (HashtableOp K V × HashtableRes K V)}
    (hrun : Run (HashtableTransition args null) t₀ trace t) :
    (∃ m, Run (MapStep args.toKeyOps null) (fun _ => none) trace m ∧ Represents args t m) ∧
    ∀ op, t.GrowsBelow → ∃ res t', hashtableStep args null t op = some (res, t') := by
  have hstep : ∀ s m l s', Represents args s m → HashtableTransition args null s l s' →
      ∃ m', MapStep args.toKeyOps null m l m' ∧ Represents args s' m' := by
    intro s m l s' hs ⟨hg, hl⟩
    obtain ⟨res, s₁, m', hres, h', hmap⟩ := hashtableStep_spec null hs hg l.1
    rw [hl] at hres
    obtain ⟨hlres, rfl⟩ := Prod.mk.inj (Option.some.inj hres)
    rw [← hlres] at hmap
    exact ⟨m', hmap, h'⟩
  obtain ⟨m, hm, hrep⟩ :=
    hrun.simulate (Represents args) hstep (hashtableAlloc_represents hsize halloc)
  refine ⟨⟨m, hm, hrep⟩, fun op hg => ?_⟩
  obtain ⟨res, t', _, hop, -⟩ := hashtableStep_spec null hrep hg op
  exact ⟨res, t', hop⟩

/-- Every allocation but the second is granted. -/
def numberTable : HashtableArgs ℕ ℕ where
  toKeyOps := numberKeys
  granted n := decide (n ≠ 1)
  keyFreeFunc := false
  valueFreeFunc := true

def numberTable₀ : Hashtable ℕ ℕ where
  bucket := List.replicate 8 none
  size := 8
  used := 0
  pool := none
  poolSize := 0
  heap _ := none
  fresh := 0
  requests := 1
  calls := []

theorem hashtableRun_refines_numbers :
    hashtableAlloc numberTable 6 = some (some numberTable₀) ∧ ∃ t,
    (∃ m, Run (MapStep numberTable.toKeyOps 0) (fun _ => none)
        [(.insert 3 30, .code (-2)), (.insert 3 30, .code 0), (.lookup 3, .value 30)] m ∧
      Represents numberTable t m) ∧
    ∀ op, t.GrowsBelow → ∃ res t', hashtableStep numberTable 0 t op = some (res, t') := by
  have hlow : ∀ t : Hashtable ℕ ℕ, t.used ≤ t.size → t.GrowsBelow := fun t h hc =>
    absurd hc (Nat.not_lt.mpr (h.trans (Nat.le_add_right _ _)))
  obtain ⟨t, hrun⟩ : ∃ t, Run (HashtableTransition numberTable 0) numberTable₀
      [(.insert 3 30, .code (-2)), (.insert 3 30, .code 0), (.lookup 3, .value 30)] t :=
    ⟨_, .cons ⟨hlow _ (by decide), rfl⟩ (.cons ⟨hlow _ (by decide), rfl⟩
      (.cons ⟨hlow _ (by decide), rfl⟩ (.nil _)))⟩
  exact ⟨rfl, t, hashtableRun_refines (by norm_num : 6 ≤ 2 ^ 28) rfl hrun⟩

end Carthage
