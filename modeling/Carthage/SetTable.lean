import Carthage.ChainedClear
import Carthage.Runs

/-!
# The set

`set.c` as an instance of the chained table without payload, and its refinement of a
finite set of key pointers. Freed keys are followed through whole runs: a pointer is
passed to `key_free_func` when it leaves the set, and at no other time.
-/

namespace Carthage

/-- The arguments of `set_alloc`; the flag tells whether the free function is set. -/
structure SetArgs (K : Type) extends KeyOps K where
  granted : ℕ → Bool
  keyFreeFunc : Bool

/-- A set logs the keys it passes to `key_free_func`. -/
abbrev SetTable (K : Type) := ChainTable K Unit K

variable {K : Type}

/-- The member's own values: what `__setnode_free` calls and `__SET_POOL_SIZE`. -/
def SetArgs.ops (args : SetArgs K) : TableOps K Unit K where
  toKeyOps := args.toKeyOps
  granted := args.granted
  released key _ := if args.keyFreeFunc then [key] else []
  poolMax := 32

def setnodeAlloc (args : SetArgs K) (t : SetTable K) (key : K) :
    Option (Option ℕ × SetTable K) := t.nodeAlloc args.ops key ()

def setnodeFree (args : SetArgs K) (t : SetTable K) (node : ℕ) : Option (SetTable K) :=
  t.nodeFree args.ops node

def setnodeLookup (args : SetArgs K) (t : SetTable K) (key : K) : Option Slot :=
  t.nodeLookup args.ops key

def setResize (args : SetArgs K) (t : SetTable K) (newSize : ℕ) : Option (ℤ × SetTable K) :=
  t.resize args.ops newSize

def setAlloc (args : SetArgs K) (size : ℕ) : Option (Option (SetTable K)) :=
  ChainTable.create args.ops size

def setInsert (args : SetArgs K) (t : SetTable K) (key : K) : Option (ℤ × SetTable K) := do
  let node ← setnodeLookup args t key
  match ← t.load node with
  | some _ => return (0, t)
  | none => t.addNode args.ops node key ()

def setRemove (args : SetArgs K) (t : SetTable K) (key : K) : Option (ℤ × SetTable K) := do
  let node ← setnodeLookup args t key
  match ← t.load node with
  | none => return (-1, t)
  | some p =>
      let t ← t.dropNode args.ops node p
      return (0, t)

def setClear (args : SetArgs K) (t : SetTable K) : Option (ℤ × SetTable K) := do
  let t ← t.clear args.ops
  return (0, t)

def setContains (args : SetArgs K) (t : SetTable K) (key : K) : Option ℤ := do
  let node ← setnodeLookup args t key
  match ← t.load node with
  | some _ => return 1
  | none => return 0

/-- The stored key pointer; `none` inside is the null pointer. -/
def setLookup (args : SetArgs K) (t : SetTable K) (key : K) : Option (Option K) := do
  let node ← setnodeLookup args t key
  match ← t.load node with
  | some a =>
      let n ← t.heap a
      return some n.key
  | none => return none

def setSize (t : SetTable K) : ℕ := t.used

def setForeach (t : SetTable K) : Option (List K) := do
  let pairs ← t.foreach
  return pairs.map Prod.fst

inductive SetOp (K : Type)
  | insert (key : K)
  | remove (key : K)
  | clear

def setStep (args : SetArgs K) (t : SetTable K) : SetOp K → Option (ℤ × SetTable K)
  | .insert key => setInsert args t key
  | .remove key => setRemove args t key
  | .clear => setClear args t

/-- One operation of a run in which bucket counts stay below `2 ^ 29`. -/
def SetTransition (args : SetArgs K) (t : SetTable K) (event : SetOp K × ℤ) (t' : SetTable K) :
    Prop := t.GrowsBelow ∧ setStep args t event.1 = some (event.2, t')

/-! ## The finite set -/

/-- What an event of a run does to the pointer stored for a key: insertion keeps the first
pointer, an operation that fails changes nothing. -/
def stored (ops : KeyOps K) (k : K) (old : Option K) : SetOp K × ℤ → Option K
  | (.insert key, rc) => if rc = 0 ∧ ops.keycmp key k = 0 ∧ old = none then some key else old
  | (.remove key, rc) => if rc = 0 ∧ ops.keycmp key k = 0 then none else old
  | (.clear, _) => none

def setAfter (ops : KeyOps K) (m : K → Option K) (event : SetOp K × ℤ) : K → Option K :=
  fun k => stored ops k (m k) event

def setHistory (ops : KeyOps K) (trace : List (SetOp K × ℤ)) : K → Option K :=
  trace.foldl (setAfter ops) (fun _ => none)

/-- Only the insertion of a new key may fail, and a removal fails when the key is absent. -/
def ReturnsFor (m : K → Option K) (op : SetOp K) (rc : ℤ) : Prop :=
  match op with
  | .insert key => rc ≠ 0 → m key = none
  | .remove key => rc ≠ 0 ↔ m key = none
  | .clear => rc = 0

/-- The pointers of the insertions of a run that returned zero, duplicates included. -/
def insertedKeys (trace : List (SetOp K × ℤ)) : List K :=
  trace.filterMap fun
    | (.insert key, rc) => if rc = 0 then some key else none
    | _ => none

def setEntry (ops : KeyOps K) (L : List (K × Unit)) (k : K) : Option K :=
  (ops.find L k).map Prod.fst

def SetHolds (args : SetArgs K) (t : SetTable K) (m : K → Option K) : Prop :=
  ∃ L, t.Holds args.ops L ∧ ∀ k, setEntry args.toKeyOps L k = m k

variable {args : SetArgs K} {t t' : SetTable K} {L : List (K × Unit)} {key : K}
  {m : K → Option K}

section Entry

variable {ops : KeyOps K} {M : List (K × Unit)} {e : K × Unit} {k p : K}

theorem setEntry_of_find (hf : ops.find L key = some e) (hk : ops.keycmp key k = 0) :
    setEntry ops L k = some e.1 := by
  rw [setEntry, ← KeyOps.find_congr_key hk, hf]
  rfl

theorem setEntry_of_absent (hf : ops.find L key = none) (hk : ops.keycmp key k = 0) :
    setEntry ops L k = none := by
  rw [setEntry, ← KeyOps.find_congr_key hk, hf]
  rfl

theorem setEntry_remove (hd : ops.Distinct L) (hf : ops.find L key = some e)
    (hM : L.Perm (e :: M)) : setEntry ops M k =
      if ops.keycmp key k = 0 then none else setEntry ops L k := by
  rw [setEntry, KeyOps.find_remove hd hf hM]
  split_ifs <;> rfl

theorem setEntry_add : setEntry ops ((key, ()) :: L) k =
    if ops.keycmp key k = 0 then some key else setEntry ops L k := by
  rw [setEntry, KeyOps.find_add]
  split_ifs <;> rfl

theorem setEntry_self (hd : ops.Distinct L) :
    setEntry ops L p = some p ↔ p ∈ L.map Prod.fst := by
  constructor
  · intro h
    cases hf : ops.find L p with
    | none => simp [setEntry, hf] at h
    | some e =>
        rw [setEntry, hf] at h
        obtain rfl : e.1 = p := Option.some.inj h
        exact List.mem_map_of_mem (KeyOps.mem_of_find hf).1
  · intro h
    obtain ⟨e, he, rfl⟩ := List.mem_map.mp h
    rw [setEntry, (KeyOps.find_eq_some hd).mpr ⟨he, ops.keycmp_refl e.1⟩]
    rfl

theorem nodup_keys (hd : ops.Distinct L) : (L.map Prod.fst).Nodup := by
  refine List.pairwise_map.mpr (hd.imp fun {x y} hxy hc => hxy ?_)
  rw [hc]
  exact ops.keycmp_refl y.1

end Entry

theorem setContains_spec (h : t.Holds args.ops L) (key : K) :
    setContains args t key = some (if (setEntry args.toKeyOps L key).isSome then 1 else 0) := by
  cases hf : args.find L key with
  | some e =>
      obtain ⟨s, a, n, hlook, hload, -⟩ := h.nodeLookup_found hf
      simp [setContains, setnodeLookup, hlook, hload, setEntry, hf]
  | none =>
      obtain ⟨s, hlook, hload⟩ := h.nodeLookup_absent hf
      simp [setContains, setnodeLookup, hlook, hload, setEntry, hf]

theorem setLookup_spec (h : t.Holds args.ops L) (key : K) :
    setLookup args t key = some (setEntry args.toKeyOps L key) := by
  cases hf : args.find L key with
  | some e =>
      obtain ⟨s, a, n, hlook, hload, hn, rfl⟩ := h.nodeLookup_found hf
      simp [setLookup, setnodeLookup, hlook, hload, hn, setEntry, hf]
  | none =>
      obtain ⟨s, hlook, hload⟩ := h.nodeLookup_absent hf
      simp [setLookup, setnodeLookup, hlook, hload, setEntry, hf]

/-- The keys freed by a step, when there is a free function, are those that leave the set. -/
def FreesLeaving (args : SetArgs K) (t t' : SetTable K) (m m' : K → Option K) : Prop :=
  if args.keyFreeFunc then
    ∃ left, t'.calls = t.calls ++ left ∧ left.Nodup ∧
      ∀ p, p ∈ left ↔ m p = some p ∧ m' p ≠ some p
  else t'.calls = t.calls

theorem freesLeaving_of_kept (hcalls : t'.calls = t.calls) {m' : K → Option K}
    (hkept : ∀ p, m p = some p → m' p = some p) : FreesLeaving args t t' m m' := by
  rw [FreesLeaving]
  split_ifs
  · refine ⟨[], by rw [hcalls, List.append_nil], List.nodup_nil, fun p => ⟨?_, ?_⟩⟩
    · exact fun h => (List.not_mem_nil h).elim
    · exact fun ⟨h, hn⟩ => (hn (hkept p h)).elim
  · exact hcalls

theorem setInsert_spec (h : t.Holds args.ops L) (hg : t.GrowsBelow) (key : K) :
    ∃ rc t', setInsert args t key = some (rc, t') ∧ t'.calls = t.calls ∧
      (rc ≠ 0 → setEntry args.toKeyOps L key = none) ∧
      SetHolds args t' (setAfter args.toKeyOps (setEntry args.toKeyOps L) (.insert key, rc)) := by
  cases hf : args.find L key with
  | some e =>
      obtain ⟨s, a, n, hlook, hload, hn, rfl⟩ := h.nodeLookup_found hf
      refine ⟨0, t, ?_, rfl, fun hc => (hc rfl).elim, L, h, fun k => ?_⟩
      · simp only [setInsert, setnodeLookup, hlook, hload, Option.bind_eq_bind,
          Option.bind_some, Option.pure_def]
      · rw [setAfter, stored]
        split_ifs with hk
        · rw [setEntry_of_find hf hk.2.1] at hk
          cases hk.2.2
        · rfl
  | none =>
      obtain ⟨s, hlook, hload⟩ := h.nodeLookup_absent hf
      obtain ⟨rc, t', hadd, hcalls, hres⟩ := h.addNode hf () (h.growTarget_small hg) hlook
      refine ⟨rc, t', ?_, hcalls, fun _ => setEntry_of_absent hf (args.keycmp_refl key), ?_⟩
      · simp only [setInsert, setnodeLookup, hlook, hload, Option.bind_eq_bind,
          Option.bind_some, hadd]
      · rcases hres with ⟨rfl, h'⟩ | ⟨hrc, h'⟩
        · refine ⟨_, h', fun k => ?_⟩
          have hadded : setEntry args.toKeyOps ((key, ()) :: L) k = _ := setEntry_add
          refine hadded.trans ?_
          by_cases hk : args.keycmp key k = 0
          · rw [if_pos hk, setAfter, stored, if_pos ⟨rfl, hk, setEntry_of_absent hf hk⟩]
          · rw [if_neg hk, setAfter, stored, if_neg (fun hc => hk hc.2.1)]
        · refine ⟨L, h', fun k => ?_⟩
          rw [setAfter, stored, if_neg (fun hc => hrc hc.1)]

theorem setInsert_granted (hg : ∀ n, args.granted n = true) {rc : ℤ}
    (h : setInsert args t key = some (rc, t')) : rc = 0 := by
  obtain ⟨node, -, h⟩ := Option.bind_eq_some_iff.mp h
  obtain ⟨o, -, h⟩ := Option.bind_eq_some_iff.mp h
  cases o with
  | some a => exact (Prod.mk.inj (Option.some.inj h)).1.symm
  | none => exact ChainTable.addNode_granted hg h

theorem setRemove_spec (h : t.Holds args.ops L) (key : K) :
    ∃ rc t', setRemove args t key = some (rc, t') ∧
      (rc ≠ 0 ↔ setEntry args.toKeyOps L key = none) ∧
      FreesLeaving args t t' (setEntry args.toKeyOps L)
        (setAfter args.toKeyOps (setEntry args.toKeyOps L) (.remove key, rc)) ∧
      SetHolds args t' (setAfter args.toKeyOps (setEntry args.toKeyOps L) (.remove key, rc)) := by
  have hd : args.toKeyOps.Distinct L := h.distinct
  cases hf : args.find L key with
  | some e =>
      obtain ⟨M, hM⟩ := KeyOps.exists_perm_cons hf
      obtain ⟨s, a, n, hlook, hload, -, -, t', hdrop, h', hcalls⟩ := h.dropNode hf hM
      have hafter : ∀ k, setEntry args.toKeyOps M k =
          setAfter args.toKeyOps (setEntry args.toKeyOps L) (.remove key, 0) k := by
        intro k
        rw [setEntry_remove hd hf hM, setAfter, stored]
        simp only [true_and]
      refine ⟨0, t', ?_, ?_, ?_, M, h', hafter⟩
      · simp only [setRemove, setnodeLookup, hlook, hload, Option.bind_eq_bind,
          Option.bind_some, hdrop, Option.pure_def]
      · rw [setEntry_of_find hf (args.keycmp_refl key)]
        simp
      · rw [FreesLeaving]
        split_ifs with hfree
        · refine ⟨[e.1], by simpa [SetArgs.ops, hfree] using hcalls, List.nodup_singleton _, ?_⟩
          intro p
          rw [← hafter, ne_eq, setEntry_self hd,
            setEntry_self ((KeyOps.distinct_cons.mp ((KeyOps.distinct_perm hM).mp hd)).2),
            (hM.map Prod.fst).mem_iff, List.mem_singleton, List.map_cons, List.mem_cons]
          have hnd := nodup_keys ((KeyOps.distinct_perm hM).mp hd)
          rw [List.map_cons, List.nodup_cons] at hnd
          constructor
          · rintro rfl
            exact ⟨Or.inl rfl, hnd.1⟩
          · rintro ⟨hp | hp, hno⟩
            · exact hp
            · exact (hno hp).elim
        · simpa [SetArgs.ops, hfree] using hcalls
  | none =>
      obtain ⟨s, hlook, hload⟩ := h.nodeLookup_absent hf
      have hsame : ∀ k, setEntry args.toKeyOps L k =
          setAfter args.toKeyOps (setEntry args.toKeyOps L) (.remove key, -1) k := by
        intro k
        rw [setAfter, stored, if_neg (fun hc => absurd hc.1 (by decide))]
      refine ⟨-1, t, ?_, ?_, freesLeaving_of_kept rfl (fun p hp => by rw [← hsame, hp]), L, h,
        hsame⟩
      · simp only [setRemove, setnodeLookup, hlook, hload, Option.bind_eq_bind,
          Option.bind_some, Option.pure_def]
      · rw [setEntry_of_absent hf (args.keycmp_refl key)]
        simp

theorem releases_keys (hfree : args.keyFreeFunc = true) :
    ChainTable.releases args.ops L = L.map Prod.fst := by
  induction L with
  | nil => rfl
  | cons e L ih => simpa [ChainTable.releases, SetArgs.ops, hfree] using ih

theorem releases_nil (hfree : args.keyFreeFunc = false) : ChainTable.releases args.ops L = [] := by
  simp [ChainTable.releases, SetArgs.ops, hfree]

theorem setClear_spec (h : t.Holds args.ops L) :
    ∃ t', setClear args t = some (0, t') ∧
      FreesLeaving args t t' (setEntry args.toKeyOps L) (fun _ => none) ∧
      SetHolds args t' (fun _ => none) := by
  have hd : args.toKeyOps.Distinct L := h.distinct
  obtain ⟨t', evs, hclear, h', hcalls, hevs⟩ := h.clear
  refine ⟨t', by simp [setClear, hclear], ?_, [], h', fun _ => rfl⟩
  rw [FreesLeaving]
  split_ifs with hfree
  · rw [releases_keys hfree] at hevs
    refine ⟨evs, hcalls, hevs.nodup_iff.mpr (nodup_keys hd), fun p => ?_⟩
    rw [hevs.mem_iff, setEntry_self hd]
    simp
  · rw [releases_nil (Bool.eq_false_iff.mpr hfree)] at hevs
    rw [hcalls, hevs.eq_nil, List.append_nil]

theorem setStep_spec (h : SetHolds args t m) (hg : t.GrowsBelow) (op : SetOp K) :
    ∃ rc t', setStep args t op = some (rc, t') ∧
      FreesLeaving args t t' m (setAfter args.toKeyOps m (op, rc)) ∧
      SetHolds args t' (setAfter args.toKeyOps m (op, rc)) := by
  obtain ⟨L, hL, hm⟩ := h
  obtain rfl : setEntry args.toKeyOps L = m := funext hm
  cases op with
  | insert key =>
      obtain ⟨rc, t', hins, hcalls, -, h'⟩ := setInsert_spec hL hg key
      refine ⟨rc, t', hins, freesLeaving_of_kept hcalls (fun p hp => ?_), h'⟩
      rw [setAfter, stored, if_neg (fun hc => by rw [hp] at hc; cases hc.2.2), hp]
  | remove key =>
      obtain ⟨rc, t', hrem, -, hfree, h'⟩ := setRemove_spec hL key
      exact ⟨rc, t', hrem, hfree, h'⟩
  | clear =>
      obtain ⟨t', hclear, hfree, h'⟩ := setClear_spec hL
      exact ⟨0, t', hclear, hfree, h'⟩

theorem SetTransition.holds {event : SetOp K × ℤ} (h : SetHolds args t m)
    (hstep : SetTransition args t event t') :
    FreesLeaving args t t' m (setAfter args.toKeyOps m event) ∧
      SetHolds args t' (setAfter args.toKeyOps m event) := by
  obtain ⟨hg, hres⟩ := hstep
  obtain ⟨rc, t₁, hstep₁, h₁⟩ := setStep_spec h hg event.1
  rw [hres] at hstep₁
  obtain ⟨hrc, rfl⟩ := Prod.mk.inj (Option.some.inj hstep₁)
  rwa [← hrc] at h₁

theorem Run.setHolds {trace : List (SetOp K × ℤ)}
    (hrun : Run (SetTransition args) t trace t') (h : SetHolds args t m) :
    SetHolds args t' (trace.foldl (setAfter args.toKeyOps) m) := by
  induction hrun generalizing m with
  | nil => exact h
  | cons hstep _ ih => exact ih (hstep.holds h).2

theorem setAfter_new {ops : KeyOps K} {event : SetOp K × ℤ} {p : K} (hnew : m p ≠ some p)
    (hp : setAfter ops m event p = some p) : event = (.insert p, 0) := by
  obtain ⟨op, rc⟩ := event
  cases op with
  | insert key =>
      rw [setAfter, stored] at hp
      split_ifs at hp with hk
      · obtain rfl := Option.some.inj hp
        rw [hk.1]
      · exact (hnew hp).elim
  | remove key =>
      rw [setAfter, stored] at hp
      split_ifs at hp
      exact (hnew hp).elim
  | clear => cases hp

theorem insertedKeys_insert {trace : List (SetOp K × ℤ)} {p : K} :
    insertedKeys ((.insert p, 0) :: trace) = p :: insertedKeys trace := rfl

theorem insertedKeys_sublist {trace : List (SetOp K × ℤ)} {event : SetOp K × ℤ} :
    (insertedKeys trace).Sublist (insertedKeys (event :: trace)) :=
  (List.sublist_cons_self event trace).filterMap _

/-- Along a run with distinct pointers the log of freed keys has each pointer at most once,
and a pointer is on it exactly when it was stored and is not any more. -/
theorem Run.freed {trace : List (SetOp K × ℤ)} (hrun : Run (SetTransition args) t trace t')
    (h : SetHolds args t m) (hfree : args.keyFreeFunc = true) (hnd : t.calls.Nodup)
    (hgone : ∀ p ∈ t.calls, m p ≠ some p) (hkeys : (insertedKeys trace).Nodup)
    (hnew : ∀ p ∈ insertedKeys trace, p ∉ t.calls ∧ m p ≠ some p) :
    t'.calls.Nodup ∧ ∀ p, p ∈ t'.calls ↔
      (p ∈ t.calls ∨ ∃ pre post, trace = pre ++ post ∧
        pre.foldl (setAfter args.toKeyOps) m p = some p) ∧
      trace.foldl (setAfter args.toKeyOps) m p ≠ some p := by
  induction hrun generalizing m with
  | nil s =>
      refine ⟨hnd, fun p => ⟨fun hp => ⟨Or.inl hp, hgone p hp⟩, ?_⟩⟩
      rintro ⟨hp | ⟨pre, post, hsplit, hp⟩, hno⟩
      · exact hp
      · obtain ⟨rfl, rfl⟩ := List.append_eq_nil_iff.mp hsplit.symm
        exact (hno hp).elim
  | @cons s s₁ s' event rest hstep hrest ih =>
      obtain ⟨hleave, h₁⟩ := hstep.holds h
      rw [FreesLeaving, if_pos hfree] at hleave
      obtain ⟨left, hcalls, hleft, hmem⟩ := hleave
      have hgone₁ : ∀ p ∈ s₁.calls, setAfter args.toKeyOps m event p ≠ some p := by
        intro p hp hc
        rw [hcalls, List.mem_append, hmem] at hp
        rcases hp with hp | hp
        · obtain rfl := setAfter_new (hgone p hp) hc
          exact (hnew p (by rw [insertedKeys_insert]; exact List.mem_cons_self)).1 hp
        · exact hp.2 hc
      have hnd₁ : s₁.calls.Nodup := by
        rw [hcalls, List.nodup_append]
        refine ⟨hnd, hleft, fun p hp q hq hpq => ?_⟩
        exact hgone p hp ((hmem p).mp (hpq ▸ hq)).1
      have hnew₁ : ∀ p ∈ insertedKeys rest,
          p ∉ s₁.calls ∧ setAfter args.toKeyOps m event p ≠ some p := by
        intro p hp
        obtain ⟨hpc, hps⟩ := hnew p (insertedKeys_sublist.subset hp)
        refine ⟨?_, fun hc => ?_⟩
        · rw [hcalls, List.mem_append, hmem]
          exact fun hor => hor.elim hpc (fun hl => hps hl.1)
        · obtain rfl := setAfter_new hps hc
          rw [insertedKeys_insert, List.nodup_cons] at hkeys
          exact hkeys.1 hp
      obtain ⟨hnd', hiff⟩ := ih h₁ hnd₁ hgone₁ (hkeys.sublist insertedKeys_sublist) hnew₁
      refine ⟨hnd', fun p => (hiff p).trans (and_congr_left fun _ => ?_)⟩
      rw [hcalls, List.mem_append, hmem]
      constructor
      · rintro ((hp | ⟨hp, -⟩) | ⟨pre, post, rfl, hp⟩)
        · exact Or.inl hp
        · exact Or.inr ⟨[], event :: rest, rfl, hp⟩
        · exact Or.inr ⟨event :: pre, post, rfl, hp⟩
      · rintro (hp | ⟨pre, post, hsplit, hp⟩)
        · exact Or.inl (Or.inl hp)
        · cases pre with
          | nil =>
              by_cases hc : setAfter args.toKeyOps m event p = some p
              · exact Or.inr ⟨[], rest, rfl, hc⟩
              · exact Or.inl (Or.inr ⟨hp, hc⟩)
          | cons x pre =>
              obtain ⟨rfl, rfl⟩ := List.cons.inj hsplit
              exact Or.inr ⟨pre, post, rfl, hp⟩

/-- The list has each pointer that the set stores, once. -/
def ListsStored (keys : List K) (m : K → Option K) : Prop :=
  keys.Nodup ∧ ∀ p, p ∈ keys ↔ m p = some p

/-- In every run from a new set, whatever allocations fail, the set is the finite set with
pointers that the history of the run determines. With a free function and distinct pointers,
the keys freed are exactly those that were stored and have left, each of them once, and every
step frees the pointers that leave in it. -/
theorem setRun_finite_set {size : ℕ} {t₀ : SetTable K} (hsize : size ≤ 2 ^ 28)
    (halloc : setAlloc args size = some (some t₀)) {trace : List (SetOp K × ℤ)}
    (hrun : Run (SetTransition args) t₀ trace t) :
    (∀ k, setContains args t k =
      some (if (setHistory args.toKeyOps trace k).isSome then 1 else 0)) ∧
    (∀ k, setLookup args t k = some (setHistory args.toKeyOps trace k)) ∧
    (∀ k p, setHistory args.toKeyOps trace k = some p →
      args.keycmp p k = 0 ∧ setHistory args.toKeyOps trace p = some p) ∧
    (∃ keys, ListsStored keys (setHistory args.toKeyOps trace) ∧
      keys.Pairwise (fun p q => args.keycmp p q ≠ 0) ∧ setSize t = keys.length ∧
      ∃ visited, setForeach t = some visited ∧ visited.Perm keys) ∧
    (∀ op, t.GrowsBelow → ∃ rc t', setStep args t op = some (rc, t') ∧
      ReturnsFor (setHistory args.toKeyOps trace) op rc) ∧
    (args.keyFreeFunc = true →
      (∀ event t', SetTransition args t event t' → ∃ left, t'.calls = t.calls ++ left ∧
        left.Nodup ∧ ∀ p, p ∈ left ↔ setHistory args.toKeyOps trace p = some p ∧
          setHistory args.toKeyOps (trace ++ [event]) p ≠ some p) ∧
      ((insertedKeys trace).Nodup → t.calls.Nodup ∧ ∀ p, p ∈ t.calls ↔
        (∃ pre post, trace = pre ++ post ∧ setHistory args.toKeyOps pre p = some p) ∧
        setHistory args.toKeyOps trace p ≠ some p)) := by
  obtain ⟨h₀, hcalls₀⟩ := ChainTable.create_holds hsize halloc
  have hholds₀ : SetHolds args t₀ (fun _ => none) := ⟨[], h₀, fun _ => rfl⟩
  have hholds := hrun.setHolds hholds₀
  obtain ⟨L, hL, hm⟩ := id hholds
  have hd : args.toKeyOps.Distinct L := hL.distinct
  obtain hm : setEntry args.toKeyOps L = setHistory args.toKeyOps trace := funext hm
  refine ⟨?_, ?_, ?_, ?_, ?_, fun hfree => ⟨?_, ?_⟩⟩
  · rw [← hm]
    exact setContains_spec hL
  · rw [← hm]
    exact setLookup_spec hL
  · intro k p hp
    rw [← hm, setEntry, Option.map_eq_some_iff] at hp
    obtain ⟨e, he, rfl⟩ := hp
    obtain ⟨hmem, hek⟩ := KeyOps.mem_of_find he
    exact ⟨hek, by rw [← hm, setEntry_self hd]; exact List.mem_map_of_mem hmem⟩
  · rw [← hm]
    obtain ⟨M, hM, hperm⟩ := hL.foreach
    exact ⟨L.map Prod.fst, ⟨nodup_keys hd, fun p => (setEntry_self hd).symm⟩,
      List.pairwise_map.mpr hd, by rw [setSize, hL.used_eq, List.length_map],
      M.map Prod.fst, by simp [setForeach, hM], hperm.map _⟩
  · intro op hg
    rw [← hm]
    cases op with
    | insert key =>
        obtain ⟨rc, t', hins, -, hrc, -⟩ := setInsert_spec hL hg key
        exact ⟨rc, t', hins, hrc⟩
    | remove key =>
        obtain ⟨rc, t', hrem, hrc, -⟩ := setRemove_spec hL key
        exact ⟨rc, t', hrem, hrc⟩
    | clear =>
        obtain ⟨t', hclear, -⟩ := setClear_spec hL
        exact ⟨0, t', hclear, rfl⟩
  · intro event t' hstep
    have hleave := (hstep.holds hholds).1
    rw [FreesLeaving, if_pos hfree] at hleave
    simpa only [setHistory, List.foldl_append, List.foldl_cons, List.foldl_nil] using hleave
  · intro hkeys
    obtain ⟨hnd, hiff⟩ := hrun.freed hholds₀ hfree (by rw [hcalls₀]; exact List.nodup_nil)
      (by simp) hkeys (by simp [hcalls₀])
    refine ⟨hnd, fun p => (hiff p).trans ?_⟩
    rw [hcalls₀]
    simp only [List.not_mem_nil, false_or, setHistory]

/-- Every allocation but the second is granted. -/
def numberSet : SetArgs ℕ where
  toKeyOps := numberKeys
  granted n := decide (n ≠ 1)
  keyFreeFunc := true

def numberSet₀ : SetTable ℕ where
  bucket := List.replicate 8 none
  size := 8
  used := 0
  pool := none
  poolSize := 0
  heap _ := none
  fresh := 0
  requests := 1
  calls := []

theorem setRun_finite_set_numbers : setAlloc numberSet 6 = some (some numberSet₀) ∧ ∃ t,
    (∀ k, setLookup numberSet t k = some (setHistory numberKeys
      [(.insert 3, -2), (.insert 3, 0), (.insert 5, 0), (.remove 3, 0)] k)) ∧
    t.calls.Nodup ∧ 3 ∈ t.calls := by
  have hlow : ∀ t : SetTable ℕ, t.used ≤ t.size → t.GrowsBelow := fun t h hc =>
    absurd hc (Nat.not_lt.mpr (h.trans (Nat.le_add_right _ _)))
  obtain ⟨t, hrun⟩ : ∃ t, Run (SetTransition numberSet) numberSet₀
      [(.insert 3, -2), (.insert 3, 0), (.insert 5, 0), (.remove 3, 0)] t :=
    ⟨_, .cons ⟨hlow _ (by decide), rfl⟩ (.cons ⟨hlow _ (by decide), rfl⟩
      (.cons ⟨hlow _ (by decide), rfl⟩ (.cons ⟨hlow _ (by decide), rfl⟩ (.nil _))))⟩
  obtain ⟨-, hlook, -, -, -, hfree⟩ := setRun_finite_set (by norm_num : 6 ≤ 2 ^ 28) rfl hrun
  obtain ⟨hnd, hiff⟩ := (hfree rfl).2 (by decide)
  refine ⟨rfl, t, hlook, hnd, (hiff 3).mpr ⟨⟨[(.insert 3, -2), (.insert 3, 0)], _, rfl, ?_⟩, ?_⟩⟩
  · rfl
  · decide

end Carthage
