import Carthage.ChainedClear
import Carthage.Runs

/-!
# The bag

`bag.c` as an instance of the chained table, whose payload is the `count` of a node, and
its refinement of a finite multiset that remembers, for each key present, the pointer it
was first inserted with.
-/

namespace Carthage

/-- The arguments of `bag_alloc`; the flag tells whether the free function is set. -/
structure BagArgs (K : Type) extends KeyOps K where
  granted : ℕ → Bool
  keyFreeFunc : Bool

/-- A bag logs the keys it passes to `key_free_func`. -/
abbrev Bag (K : Type) := ChainTable K ℕ K

variable {K : Type}

/-- The member's own values: what `__bagnode_free` calls and `__BAG_POOL_SIZE`. -/
def BagArgs.ops (args : BagArgs K) : TableOps K ℕ K where
  toKeyOps := args.toKeyOps
  granted := args.granted
  released key _ := if args.keyFreeFunc then [key] else []
  poolMax := 32

def bagnodeAlloc (args : BagArgs K) (t : Bag K) (key : K) : Option (Option ℕ × Bag K) :=
  t.nodeAlloc args.ops key 1

def bagnodeFree (args : BagArgs K) (t : Bag K) (node : ℕ) : Option (Bag K) :=
  t.nodeFree args.ops node

def bagnodeLookup (args : BagArgs K) (t : Bag K) (key : K) : Option Slot :=
  t.nodeLookup args.ops key

def bagResize (args : BagArgs K) (t : Bag K) (newSize : ℕ) : Option (ℤ × Bag K) :=
  t.resize args.ops newSize

def bagAlloc (args : BagArgs K) (size : ℕ) : Option (Option (Bag K)) :=
  ChainTable.create args.ops size

/-- `count++` and `count--` on 64 bits. -/
def countSucc (count : ℕ) : ℕ := if count + 1 < 2 ^ 64 then count + 1 else 0

def countPred (count : ℕ) : ℕ := if count = 0 then 2 ^ 64 - 1 else count - 1

def bagInsert (args : BagArgs K) (t : Bag K) (key : K) : Option (ℤ × Bag K) := do
  let node ← bagnodeLookup args t key
  match ← t.load node with
  | some a =>
      let n ← t.heap a
      return (0, t.setPayload a n (countSucc n.payload))
  | none => t.addNode args.ops node key 1

def bagRemove (args : BagArgs K) (t : Bag K) (key : K) : Option (ℤ × Bag K) := do
  let node ← bagnodeLookup args t key
  match ← t.load node with
  | none => return (-1, t)
  | some p =>
      let n ← t.heap p
      let count := countPred n.payload
      let t := t.setPayload p n count
      if count = 0 then
        let t ← t.dropNode args.ops node p
        return (0, t)
      else return (0, t)

def bagClear (args : BagArgs K) (t : Bag K) : Option (ℤ × Bag K) := do
  let t ← t.clear args.ops
  return (0, t)

def bagContains (args : BagArgs K) (t : Bag K) (key : K) : Option ℕ := do
  let node ← bagnodeLookup args t key
  match ← t.load node with
  | some a =>
      let n ← t.heap a
      return n.payload
  | none => return 0

/-- The stored key pointer; `none` inside is the null pointer. -/
def bagLookup (args : BagArgs K) (t : Bag K) (key : K) : Option (Option K) := do
  let node ← bagnodeLookup args t key
  match ← t.load node with
  | some a =>
      let n ← t.heap a
      return some n.key
  | none => return none

def bagSize (t : Bag K) : ℕ := t.used

def bagForeach (t : Bag K) : Option (List (K × ℕ)) := t.foreach

inductive BagOp (K : Type)
  | insert (key : K)
  | remove (key : K)
  | clear

def bagStep (args : BagArgs K) (t : Bag K) : BagOp K → Option (ℤ × Bag K)
  | .insert key => bagInsert args t key
  | .remove key => bagRemove args t key
  | .clear => bagClear args t

/-- One operation of a run in which bucket counts stay below `2 ^ 29` and no insertion
brings a count to `2 ^ 64`. -/
def BagTransition (args : BagArgs K) (t : Bag K) (event : BagOp K × ℤ) (t' : Bag K) : Prop :=
  t.GrowsBelow ∧
  (∀ key c, event.1 = .insert key → bagContains args t key = some c → c + 1 < 2 ^ 64) ∧
  bagStep args t event.1 = some (event.2, t')

/-! ## The multiset -/

/-- What an event of a run does to the count of a key: successful insertions minus successful
removals since the key was absent or the bag was cleared. -/
def tally (ops : KeyOps K) (k : K) (count : ℕ) : BagOp K × ℤ → ℕ
  | (.insert key, rc) => if rc = 0 ∧ ops.keycmp key k = 0 then count + 1 else count
  | (.remove key, rc) => if rc = 0 ∧ ops.keycmp key k = 0 then count - 1 else count
  | (.clear, _) => 0

/-- The pointer of the insertion that made a key present. -/
def owner (ops : KeyOps K) (k : K) (count : ℕ) (key : Option K) : BagOp K × ℤ → Option K
  | (.insert p, rc) => if rc = 0 ∧ ops.keycmp p k = 0 ∧ count = 0 then some p else key
  | (.remove p, rc) => if rc = 0 ∧ ops.keycmp p k = 0 ∧ count = 1 then none else key
  | (.clear, _) => none

/-- The count and the pointer that a list of pairs holds for a key. -/
def bagEntry (ops : KeyOps K) (L : List (K × ℕ)) (k : K) : ℕ × Option K :=
  match ops.find L k with
  | some e => (e.2, some e.1)
  | none => (0, none)

def BagHolds (args : BagArgs K) (t : Bag K) (m : K → ℕ × Option K) : Prop :=
  ∃ L, t.Holds args.ops L ∧ (∀ e ∈ L, 0 < e.2 ∧ e.2 < 2 ^ 64) ∧
    ∀ k, bagEntry args.toKeyOps L k = m k

def bagAfter (ops : KeyOps K) (m : K → ℕ × Option K) (event : BagOp K × ℤ) : K → ℕ × Option K :=
  fun k => (tally ops k (m k).1 event, owner ops k (m k).1 (m k).2 event)

/-- The count and the pointer of each key after a sequence of events. -/
def bagHistory (ops : KeyOps K) (trace : List (BagOp K × ℤ)) : K → ℕ × Option K :=
  trace.foldl (bagAfter ops) (fun _ => (0, none))

variable {args : BagArgs K} {t : Bag K} {L : List (K × ℕ)} {key : K} {m : K → ℕ × Option K}

theorem bagContains_spec (h : t.Holds args.ops L) (key : K) :
    bagContains args t key = some (bagEntry args.toKeyOps L key).1 := by
  cases hf : args.find L key with
  | some e =>
      obtain ⟨s, a, n, hlook, hload, hn, rfl⟩ := h.nodeLookup_found hf
      simp [bagContains, bagnodeLookup, hlook, hload, hn, bagEntry, hf]
  | none =>
      obtain ⟨s, hlook, hload⟩ := h.nodeLookup_absent hf
      simp [bagContains, bagnodeLookup, hlook, hload, bagEntry, hf]

theorem bagLookup_spec (h : t.Holds args.ops L) (key : K) :
    bagLookup args t key = some (bagEntry args.toKeyOps L key).2 := by
  cases hf : args.find L key with
  | some e =>
      obtain ⟨s, a, n, hlook, hload, hn, rfl⟩ := h.nodeLookup_found hf
      simp [bagLookup, bagnodeLookup, hlook, hload, hn, bagEntry, hf]
  | none =>
      obtain ⟨s, hlook, hload⟩ := h.nodeLookup_absent hf
      simp [bagLookup, bagnodeLookup, hlook, hload, bagEntry, hf]

section Entry

variable {ops : KeyOps K} {M : List (K × ℕ)} {e : K × ℕ} {k : K}

theorem bagEntry_of_find (hf : ops.find L key = some e) (hk : ops.keycmp key k = 0) :
    bagEntry ops L k = (e.2, some e.1) := by
  rw [bagEntry, ← KeyOps.find_congr_key hk, hf]

theorem bagEntry_of_absent (hf : ops.find L key = none) (hk : ops.keycmp key k = 0) :
    bagEntry ops L k = (0, none) := by
  rw [bagEntry, ← KeyOps.find_congr_key hk, hf]

theorem bagEntry_overwrite (hd : ops.Distinct L) (hf : ops.find L key = some e)
    (hM : L.Perm (e :: M)) (v : ℕ) : bagEntry ops ((e.1, v) :: M) k =
      if ops.keycmp key k = 0 then (v, some e.1) else bagEntry ops L k := by
  rw [bagEntry, KeyOps.find_overwrite hd hf hM]
  split_ifs <;> rfl

theorem bagEntry_remove (hd : ops.Distinct L) (hf : ops.find L key = some e)
    (hM : L.Perm (e :: M)) : bagEntry ops M k =
      if ops.keycmp key k = 0 then (0, none) else bagEntry ops L k := by
  rw [bagEntry, KeyOps.find_remove hd hf hM]
  split_ifs <;> rfl

theorem bagEntry_add (v : ℕ) : bagEntry ops ((key, v) :: L) k =
    if ops.keycmp key k = 0 then (v, some key) else bagEntry ops L k := by
  rw [bagEntry, KeyOps.find_add]
  split_ifs <;> rfl

end Entry

def CountsFit (L : List (K × ℕ)) : Prop := ∀ e ∈ L, 0 < e.2 ∧ e.2 < 2 ^ 64

theorem CountsFit.cons {e : K × ℕ} (h : CountsFit L) (h0 : 0 < e.2) (h1 : e.2 < 2 ^ 64) :
    CountsFit (e :: L) := by
  intro x hx
  rcases List.mem_cons.mp hx with rfl | hx
  · exact ⟨h0, h1⟩
  · exact h x hx

theorem CountsFit.tail {M : List (K × ℕ)} {e : K × ℕ} (h : CountsFit L) (hM : L.Perm (e :: M)) :
    CountsFit M := fun x hx => h x (hM.mem_iff.mpr (List.mem_cons_of_mem _ hx))

theorem bagInsert_spec (h : t.Holds args.ops L) (hfit : CountsFit L) (hg : t.GrowsBelow)
    (hcount : (bagEntry args.toKeyOps L key).1 + 1 < 2 ^ 64) :
    ∃ rc t', bagInsert args t key = some (rc, t') ∧
      BagHolds args t' (bagAfter args.toKeyOps (bagEntry args.toKeyOps L) (.insert key, rc)) := by
  have hd : args.toKeyOps.Distinct L := h.distinct
  cases hf : args.find L key with
  | some e =>
      obtain ⟨M, hM⟩ := KeyOps.exists_perm_cons hf
      obtain ⟨he, -⟩ := KeyOps.mem_of_find hf
      obtain ⟨s, a, n, hlook, hload, hn, rfl, hset⟩ := h.setPayload hf hM
      rw [bagEntry_of_find hf (args.keycmp_refl key)] at hcount
      have hmod : countSucc n.payload = n.payload + 1 := if_pos hcount
      have h0 : n.payload ≠ 0 := Nat.ne_of_gt (hfit _ he).1
      refine ⟨0, t.setPayload a n (n.payload + 1), ?_, _, hset _,
        (hfit.tail hM).cons (Nat.succ_pos _) hcount, fun k => ?_⟩
      · simp only [bagInsert, bagnodeLookup, hlook, hload, hn, Option.bind_eq_bind,
          Option.bind_some, Option.pure_def, hmod]
      · refine (bagEntry_overwrite hd hf hM _).trans ?_
        by_cases hk : args.keycmp key k = 0
        · rw [if_pos hk, bagAfter, bagEntry_of_find hf hk]
          simp [tally, owner, hk, h0]
        · rw [if_neg hk, bagAfter]
          simp [tally, owner, hk]
  | none =>
      obtain ⟨s, hlook, hload⟩ := h.nodeLookup_absent hf
      obtain ⟨rc, t', hadd, -, hres⟩ := h.addNode hf 1 (h.growTarget_small hg) hlook
      refine ⟨rc, t', ?_, ?_⟩
      · simp only [bagInsert, bagnodeLookup, hlook, hload, Option.bind_eq_bind,
          Option.bind_some, hadd]
      · rcases hres with ⟨rfl, h'⟩ | ⟨hrc, h'⟩
        · refine ⟨_, h', hfit.cons Nat.one_pos (Nat.one_lt_two_pow (by decide)), fun k => ?_⟩
          have hadded : bagEntry args.toKeyOps ((key, 1) :: L) k = _ := bagEntry_add 1
          refine hadded.trans ?_
          by_cases hk : args.keycmp key k = 0
          · rw [if_pos hk, bagAfter, bagEntry_of_absent hf hk]
            simp [tally, owner, hk]
          · rw [if_neg hk, bagAfter]
            simp [tally, owner, hk]
        · refine ⟨L, h', hfit, fun k => ?_⟩
          simp only [bagAfter, tally, owner, hrc, false_and, if_false]

/-- A removal drops the node exactly when its count reaches zero. -/
theorem bagInsert_granted (hg : ∀ n, args.granted n = true) {rc : ℤ} {t' : Bag K}
    (h : bagInsert args t key = some (rc, t')) : rc = 0 := by
  obtain ⟨node, -, h⟩ := Option.bind_eq_some_iff.mp h
  obtain ⟨o, -, h⟩ := Option.bind_eq_some_iff.mp h
  cases o with
  | some a =>
      obtain ⟨n, -, h⟩ := Option.bind_eq_some_iff.mp h
      exact (Prod.mk.inj (Option.some.inj h)).1.symm
  | none => exact ChainTable.addNode_granted hg h

theorem bagRemove_spec (h : t.Holds args.ops L) (hfit : CountsFit L) (key : K) :
    ∃ rc t', bagRemove args t key = some (rc, t') ∧
      (rc ≠ 0 ↔ (bagEntry args.toKeyOps L key).1 = 0) ∧
      BagHolds args t' (bagAfter args.toKeyOps (bagEntry args.toKeyOps L) (.remove key, rc)) := by
  have hd : args.toKeyOps.Distinct L := h.distinct
  cases hf : args.find L key with
  | some e =>
      obtain ⟨M, hM⟩ := KeyOps.exists_perm_cons hf
      obtain ⟨he, -⟩ := KeyOps.mem_of_find hf
      obtain ⟨s, a, n, hlook, hload, hn, rfl, hset⟩ := h.setPayload hf hM
      obtain ⟨h0, h64⟩ := hfit _ he
      have hkey := bagEntry_of_find hf (args.keycmp_refl key)
      have hmod : countPred n.payload = n.payload - 1 := if_neg (Nat.ne_of_gt h0)
      by_cases hone : n.payload = 1
      · let t₁ := t.setPayload a n 0
        have h₁ : t₁.Holds args.ops ((n.key, 0) :: M) := hset 0
        have hf₁ : args.ops.find ((n.key, 0) :: M) key = some (n.key, 0) :=
          KeyOps.find_cons_of_eq (KeyOps.mem_of_find hf).2
        obtain ⟨s₁, a₁, n₁, hlook₁, hload₁, -, -, t', hdrop, h', -⟩ :=
          h₁.dropNode hf₁ (List.Perm.refl _)
        obtain rfl : s = s₁ := by
          rw [ChainTable.nodeLookup_setPayload hn, hlook] at hlook₁
          exact Option.some.inj hlook₁
        obtain rfl : a = a₁ := by
          rw [ChainTable.load_setPayload hn, hload] at hload₁
          exact Option.some.inj (Option.some.inj hload₁)
        refine ⟨0, t', ?_, ?_, M, h', hfit.tail hM, fun k => ?_⟩
        · have hzero : countPred n.payload = 0 := by rw [hmod, hone]
          simp only [bagRemove, bagnodeLookup, hlook, hload, hn, Option.bind_eq_bind,
            Option.bind_some, Option.pure_def, hzero, if_true]
          rw [hdrop]
          rfl
        · rw [hkey]
          simp [hone]
        · refine (bagEntry_remove hd hf hM).trans ?_
          by_cases hk : args.keycmp key k = 0
          · rw [if_pos hk, bagAfter, bagEntry_of_find hf hk]
            simp [tally, owner, hk, hone]
          · rw [if_neg hk, bagAfter]
            simp [tally, owner, hk]
      · have hleft : n.payload - 1 ≠ 0 := by
          simp only at h0
          omega
        refine ⟨0, t.setPayload a n (n.payload - 1), ?_, ?_, _, hset _,
          (hfit.tail hM).cons (Nat.pos_of_ne_zero hleft) ?_, fun k => ?_⟩
        · simp only [bagRemove, bagnodeLookup, hlook, hload, hn, Option.bind_eq_bind,
            Option.bind_some, Option.pure_def, hmod, if_neg hleft]
        · rw [hkey]
          simp only [ne_eq, not_true_eq_false, false_iff]
          exact Nat.ne_of_gt h0
        · exact Nat.lt_of_le_of_lt (Nat.sub_le _ _) h64
        · refine (bagEntry_overwrite hd hf hM _).trans ?_
          by_cases hk : args.keycmp key k = 0
          · rw [if_pos hk, bagAfter, bagEntry_of_find hf hk]
            simp [tally, owner, hk, hone]
          · rw [if_neg hk, bagAfter]
            simp [tally, owner, hk]
  | none =>
      obtain ⟨s, hlook, hload⟩ := h.nodeLookup_absent hf
      refine ⟨-1, t, ?_, ?_, L, h, hfit, fun k => ?_⟩
      · simp only [bagRemove, bagnodeLookup, hlook, hload, Option.bind_eq_bind,
          Option.bind_some, Option.pure_def]
      · rw [bagEntry_of_absent hf (args.keycmp_refl key)]
        simp
      · simp [bagAfter, tally, owner]

theorem bagClear_spec (h : t.Holds args.ops L) :
    ∃ t', bagClear args t = some (0, t') ∧
      BagHolds args t' (bagAfter args.toKeyOps (bagEntry args.toKeyOps L) (.clear, 0)) := by
  obtain ⟨t', evs, hclear, h', -⟩ := h.clear
  exact ⟨t', by simp [bagClear, hclear], [], h', fun _ he => (List.not_mem_nil he).elim,
    fun _ => rfl⟩

theorem bagStep_spec (h : BagHolds args t m) (hg : t.GrowsBelow) (op : BagOp K)
    (hcount : ∀ key c, op = .insert key → bagContains args t key = some c → c + 1 < 2 ^ 64) :
    ∃ rc t', bagStep args t op = some (rc, t') ∧
      BagHolds args t' (bagAfter args.toKeyOps m (op, rc)) := by
  obtain ⟨L, hL, hfit, hm⟩ := h
  obtain rfl : bagEntry args.toKeyOps L = m := funext hm
  cases op with
  | insert key =>
      exact bagInsert_spec hL hfit hg (hcount key _ rfl (bagContains_spec hL key))
  | remove key =>
      obtain ⟨rc, t', hrem, -, h'⟩ := bagRemove_spec hL hfit key
      exact ⟨rc, t', hrem, h'⟩
  | clear =>
      obtain ⟨t', hclear, h'⟩ := bagClear_spec hL
      exact ⟨0, t', hclear, h'⟩

theorem BagTransition.holds {event : BagOp K × ℤ} {t' : Bag K} (h : BagHolds args t m)
    (hstep : BagTransition args t event t') :
    BagHolds args t' (bagAfter args.toKeyOps m event) := by
  obtain ⟨hg, hcount, hres⟩ := hstep
  obtain ⟨rc, t₁, hstep₁, h₁⟩ := bagStep_spec h hg event.1 hcount
  rw [hres] at hstep₁
  obtain ⟨hrc, rfl⟩ := Prod.mk.inj (Option.some.inj hstep₁)
  rwa [← hrc] at h₁

theorem bagAlloc_holds {size : ℕ} (hsize : size ≤ 2 ^ 28)
    (ht : bagAlloc args size = some (some t)) : BagHolds args t (fun _ => (0, none)) :=
  ⟨[], (ChainTable.create_holds hsize ht).1, fun _ he => (List.not_mem_nil he).elim, fun _ => rfl⟩

theorem Run.bagHolds {trace : List (BagOp K × ℤ)} {t t' : Bag K}
    (hrun : Run (BagTransition args) t trace t') (h : BagHolds args t m) :
    BagHolds args t' (trace.foldl (bagAfter args.toKeyOps) m) := by
  induction hrun generalizing m with
  | nil => exact h
  | cons hstep _ ih => exact ih (hstep.holds h)

/-- The keys are pairwise different, and are those with a positive count. -/
def ListsPresent (ops : KeyOps K) (keys : List K) (m : K → ℕ × Option K) : Prop :=
  keys.Pairwise (fun p q => ops.keycmp p q ≠ 0) ∧
    ∀ k, 0 < (m k).1 ↔ ∃ p ∈ keys, ops.keycmp p k = 0

theorem listsPresent_keys (hd : args.toKeyOps.Distinct L) (hfit : CountsFit L) :
    ListsPresent args.toKeyOps (L.map Prod.fst) (bagEntry args.toKeyOps L) := by
  refine ⟨List.pairwise_map.mpr hd, fun k => ⟨fun hk => ?_, fun ⟨p, hp, hpk⟩ => ?_⟩⟩
  · cases hf : args.find L k with
    | none => simp [bagEntry, hf] at hk
    | some e =>
        obtain ⟨he, hek⟩ := KeyOps.mem_of_find hf
        exact ⟨e.1, List.mem_map_of_mem he, hek⟩
  · obtain ⟨e, he, rfl⟩ := List.mem_map.mp hp
    rw [bagEntry, (KeyOps.find_eq_some hd).mpr ⟨he, hpk⟩]
    exact (hfit e he).1

/-- In every run from a new bag, whatever allocations fail, the bag is the multiset with
pointers that the history of the run determines, and every next operation is defined. -/
theorem bagRun_multiset {size : ℕ} {t₀ : Bag K} (hsize : size ≤ 2 ^ 28)
    (halloc : bagAlloc args size = some (some t₀))
    {trace : List (BagOp K × ℤ)} {t : Bag K} (hrun : Run (BagTransition args) t₀ trace t) :
    (∀ k, bagContains args t k = some (bagHistory args.toKeyOps trace k).1) ∧
    (∀ k, bagLookup args t k = some (bagHistory args.toKeyOps trace k).2) ∧
    (∃ keys, ListsPresent args.toKeyOps keys (bagHistory args.toKeyOps trace) ∧
      bagSize t = keys.length) ∧
    (∀ k, ∃ rc t', bagRemove args t k = some (rc, t') ∧
      (rc ≠ 0 ↔ (bagHistory args.toKeyOps trace k).1 = 0)) ∧
    ∀ op, t.GrowsBelow →
      (∀ key, op = .insert key → (bagHistory args.toKeyOps trace key).1 + 1 < 2 ^ 64) →
      ∃ rc t', bagStep args t op = some (rc, t') ∧ BagTransition args t (op, rc) t' := by
  have hholds := hrun.bagHolds (bagAlloc_holds hsize halloc)
  obtain ⟨L, hL, hfit, hm⟩ := id hholds
  obtain hm : bagEntry args.toKeyOps L = bagHistory args.toKeyOps trace := funext hm
  rw [← hm]
  refine ⟨bagContains_spec hL, bagLookup_spec hL, ?_, fun k => ?_, fun op hg hcount => ?_⟩
  · refine ⟨L.map Prod.fst, listsPresent_keys hL.distinct hfit, ?_⟩
    rw [bagSize, hL.used_eq, List.length_map]
  · obtain ⟨rc, t', hrem, hrc, -⟩ := bagRemove_spec hL hfit k
    exact ⟨rc, t', hrem, hrc⟩
  · have hfits : ∀ key c, op = .insert key → bagContains args t key = some c →
        c + 1 < 2 ^ 64 := by
      intro key c hop hc
      rw [bagContains_spec hL key] at hc
      obtain rfl := Option.some.inj hc
      exact hcount key hop
    obtain ⟨rc, t', hstep, -⟩ := bagStep_spec hholds hg op hfits
    exact ⟨rc, t', hstep, hg, hfits, hstep⟩

/-- Every allocation but the second is granted. -/
def numberBag : BagArgs ℕ where
  toKeyOps := numberKeys
  granted n := decide (n ≠ 1)
  keyFreeFunc := true

def numberBag₀ : Bag ℕ where
  bucket := List.replicate 8 none
  size := 8
  used := 0
  pool := none
  poolSize := 0
  heap _ := none
  fresh := 0
  requests := 1
  calls := []

theorem bagRun_multiset_numbers : bagAlloc numberBag 6 = some (some numberBag₀) ∧ ∃ t,
    (∀ k, bagContains numberBag t k = some (bagHistory numberKeys
      [(.insert 3, -2), (.insert 3, 0), (.insert 3, 0), (.remove 3, 0)] k).1) ∧
    bagContains numberBag t 3 = some 1 := by
  have hlow : ∀ t : Bag ℕ, t.used ≤ t.size → t.GrowsBelow := fun t h hc =>
    absurd hc (Nat.not_lt.mpr (h.trans (Nat.le_add_right _ _)))
  obtain ⟨t, hrun⟩ : ∃ t, Run (BagTransition numberBag) numberBag₀
      [(.insert 3, -2), (.insert 3, 0), (.insert 3, 0), (.remove 3, 0)] t := by
    refine ⟨_, .cons ⟨hlow _ (by decide), ?_, rfl⟩ (.cons ⟨hlow _ (by decide), ?_, rfl⟩
      (.cons ⟨hlow _ (by decide), ?_, rfl⟩ (.cons ⟨hlow _ (by decide), ?_, rfl⟩ (.nil _))))⟩
    · rintro _ _ ⟨⟩ ⟨⟩
      norm_num
    · rintro _ _ ⟨⟩ ⟨⟩
      norm_num
    · rintro _ _ ⟨⟩ ⟨⟩
      norm_num
    · rintro _ _ ⟨⟩
  have h := (bagRun_multiset (by norm_num : 6 ≤ 2 ^ 28) rfl hrun).1
  exact ⟨rfl, t, h, h 3⟩

end Carthage
