import Carthage.WorkqueueRuns

/-!
# The pool of a work queue

`units.free` is compared with the size of the pool and never changed, so no unit that was fetched
is ever freed: the pool grows by a unit with every fetch and shrinks by one with every unit that
is added.
-/

namespace Carthage

variable {F A : Type} {q q' : WorkUnitQueue F A} {xs : List (ℕ × F × A)} {s s' : Workqueue F A}

/-- `free` is the number of units on the pool, which is at most `WORKUNIT_POOL_SIZE`. -/
structure PoolAccounted (q : WorkUnitQueue F A) : Prop where
  count : q.free = q.units.pool.length
  bound : q.units.pool.length ≤ 128

/-- Every unit that was allocated is on one of the list of pending units and the pool, and once. -/
def UnitsPlaced (q : WorkUnitQueue F A) : Prop :=
  ∃ ns, (WorkUnit.link F A).Chain q.units.nodes q.first ns ∧ q.units.Placed ns

/-- The action is no fetch that finds a unit. -/
def WorkAction.FindsNone (s : Workqueue F A) : WorkAction F A → Prop
  | .fetch _ => s.units.first = none
  | _ => True

/-- What holds of the units whatever the threads do. -/
structure UnitsPooled (q : WorkUnitQueue F A) (xs : List (ℕ × F × A)) : Prop where
  shape : UnitsShape q xs
  free : q.free = 0
  placed : q.units.Placed (xs.map Prod.fst)

namespace UnitsPooled

theorem init (F A : Type) (ncore : ℕ) : UnitsPooled (workqueueAlloc F A ncore).units [] :=
  ⟨⟨NodeStore.sound_empty, Segments.nil, rfl⟩, rfl, NodeStore.placed_empty⟩

theorem unitsPlaced (h : UnitsPooled q xs) : UnitsPlaced q :=
  ⟨xs.map Prod.fst, h.shape.nodes.chain, h.placed⟩

theorem accounted_iff (h : UnitsPooled q xs) : PoolAccounted q ↔ q.units.pool = [] := by
  constructor
  · rintro ⟨hcount, -⟩
    exact List.length_eq_zero_iff.mp (hcount.symm.trans h.free)
  · intro hpool
    refine ⟨?_, ?_⟩
    · rw [hpool, h.free, List.length_nil]
    · rw [hpool]
      exact Nat.zero_le _

theorem fetch (h : UnitsPooled q xs) :
    ∃ r q' xs', workqueueFetch q = some (r, q') ∧ UnitsPooled q' xs' ∧
      (q'.units.pool = [] ↔ q.units.pool = [] ∧ q.first = none) := by
  cases xs with
  | nil =>
      have hfirst : q.first = none := h.shape.nodes.start
      refine ⟨none, q, [], ?_, h, (and_iff_left hfirst).symm⟩
      unfold workqueueFetch
      rw [hfirst]
  | cons x xs =>
      obtain ⟨a, u⟩ := x
      have hfirst : q.first = some a := h.shape.nodes.start
      obtain ⟨q', hfetch, hshape, hfree, hunits⟩ := workqueueFetch_shape h.shape
      have hkeep : decide (q.free ≠ 128) = true := by
        rw [h.free]
        rfl
      rw [hkeep] at hunits
      have hpool : q'.units.pool = a :: q.units.pool := by
        rw [hunits]
        rfl
      refine ⟨some u, q', xs, hfetch, ⟨hshape, hfree.trans h.free, ?_⟩, ?_⟩
      · rw [hunits]
        exact h.placed.give
      · rw [hpool, hfirst]
        exact iff_of_false (List.cons_ne_nil _ _) fun hnone => (nomatch hnone.2)

theorem additem (h : UnitsPooled q xs) (granted : Bool) (func : F) (args : A) :
    ∃ rc q' xs', workqueueAdditem granted q func args = some (rc, q') ∧ UnitsPooled q' xs' ∧
      (q.units.pool = [] → q'.units.pool = []) := by
  rcases workqueueAdditem_shape h.shape granted func args with
    hnone | ⟨b, units, q', htake, hadd, hshape, hfree, hpool, hfresh⟩
  · exact ⟨1, q, xs, hnone, h, id⟩
  · refine ⟨0, q', _, hadd, ⟨hshape, hfree.trans h.free, ?_⟩, fun hempty => ?_⟩
    · have hplaced := h.placed.take htake
      unfold NodeStore.Placed at hplaced ⊢
      rw [List.map_append, hpool, hfresh]
      exact hplaced
    · rw [hpool]
      exact NodeStore.take_pool_nil hempty htake

end UnitsPooled

/-- An enabled action keeps the units in place, and an empty pool empty unless it is a fetch that
finds a unit. -/
theorem workqueueStep_pooled (h : UnitsPooled s.units xs) (op : WorkAction F A)
    (hen : op.Enabled s) :
    ∃ e s' xs', workqueueStep s op = some (e, s') ∧ UnitsPooled s'.units xs' ∧
      (s.units.units.pool = [] → (s'.units.units.pool = [] ↔ op.FindsNone s)) := by
  have hquiet : s.units.units.pool = [] → (s.units.units.pool = [] ↔ True) :=
    fun hpool => iff_of_true hpool trivial
  cases op with
  | start p func args =>
      obtain ⟨-, hidle⟩ := hen
      by_cases hstate : s.state = .active
      · refine ⟨.silent, s.setProducer p (.adding func args), xs, ?_, h, hquiet⟩
        simp only [workqueueStep, hidle, if_pos hstate]
      · refine ⟨.additem p func args 2, s, xs, ?_, h, hquiet⟩
        simp only [workqueueStep, hidle, if_neg hstate]
  | add p granted =>
      obtain ⟨-, func, args, hp⟩ := hen
      obtain ⟨rc, units, xs', hadd, h', hempty⟩ := h.additem granted func args
      refine ⟨.additem p func args rc, { s.setProducer p .idle with units := units }, xs', ?_, h',
        fun hpool => iff_of_true (hempty hpool) trivial⟩
      simp only [workqueueStep, hp, hadd, Option.bind_eq_bind, Option.bind_some, Option.pure_def]
  | look w =>
      obtain ⟨-, hw⟩ := hen
      by_cases hstate : s.state = .closed
      · refine ⟨.silent, s.setWorker w .ended, xs, ?_, h, hquiet⟩
        simp only [workqueueStep, hw, if_pos hstate]
      · refine ⟨.silent, s.setWorker w .fetching, xs, ?_, h, hquiet⟩
        simp only [workqueueStep, hw, if_neg hstate]
  | fetch w =>
      obtain ⟨-, hw⟩ := hen
      obtain ⟨r, units, xs', hfetch, h', hiff⟩ := h.fetch
      have hfinds : s.units.units.pool = [] → (units.units.pool = [] ↔ s.units.first = none) :=
        fun hpool => hiff.trans (and_iff_right hpool)
      rcases r with - | ⟨func, args⟩
      · refine ⟨.silent, { s.setWorker w .loop with units := units }, xs', ?_, h', hfinds⟩
        simp only [workqueueStep, hw, hfetch, Option.bind_eq_bind, Option.bind_some,
          Option.pure_def]
      · refine ⟨.fetched w func args, { s.setWorker w (.running func args) with units := units },
          xs', ?_, h', hfinds⟩
        simp only [workqueueStep, hw, hfetch, Option.bind_eq_bind, Option.bind_some,
          Option.pure_def]
  | exec w =>
      obtain ⟨-, func, args, hw⟩ := hen
      refine ⟨.executed w func args, s.setWorker w .loop, xs, ?_, h, hquiet⟩
      simp only [workqueueStep, hw]
  | wait => exact ⟨.waited s.units.first.isSome, s, xs, rfl, h, hquiet⟩
  | close => exact ⟨.silent, _, xs, rfl, h, hquiet⟩
  | join => exact ⟨.silent, _, xs, rfl, h, hquiet⟩

/-- In every interleaving each unit that was allocated is on one of the pending list and the pool.
The pool is accounted for exactly as long as no fetch finds a unit. -/
theorem workqueueRun_pool_iff (ncore : ℕ) (ops : List (WorkAction F A))
    (hops : Meets workqueueStep (fun s op => op.Enabled s) (workqueueAlloc F A ncore) ops) :
    ((∀ before after, ops = before ++ after → ∀ es s,
        runAll workqueueStep (workqueueAlloc F A ncore) before = some (es, s) →
          PoolAccounted s.units ∧ (s.released = false → UnitsPlaced s.units)) ↔
      Meets workqueueStep (fun s op => op.FindsNone s) (workqueueAlloc F A ncore) ops) ∧
    ∃ es s, runAll workqueueStep (workqueueAlloc F A ncore) ops = some (es, s) ∧
      (s.released = false → UnitsPlaced s.units) := by
  let I : Workqueue F A → Prop := fun s => ∃ xs, UnitsPooled s.units xs
  have hinit : I (workqueueAlloc F A ncore) := ⟨[], .init F A ncore⟩
  constructor
  · refine runAll_always_iff I _ ?_ hinit ?_ hops
    · rintro s op ⟨xs, h⟩ ⟨hacc, -⟩ hen
      obtain ⟨e, s', xs', hstep, h', hiff⟩ := workqueueStep_pooled h op hen
      refine ⟨e, s', hstep, ⟨xs', h'⟩, ?_⟩
      rw [and_iff_left fun _ => h'.unitsPlaced, h'.accounted_iff]
      exact hiff (h.accounted_iff.mp hacc)
    · obtain ⟨xs, h⟩ := hinit
      exact ⟨h.accounted_iff.mpr rfl, fun _ => h.unitsPlaced⟩
  · obtain ⟨es, s, hrun, xs, h⟩ := runAll_invariant I (fun s op ⟨xs, h⟩ hen => by
      obtain ⟨e, s', xs', hstep, h', -⟩ := workqueueStep_pooled h op hen
      exact ⟨e, s', hstep, xs', h'⟩) hinit hops
    exact ⟨es, s, hrun, fun _ => h.unitsPlaced⟩

theorem workqueueFetch_enabled :
    Meets workqueueStep (fun s op => op.Enabled s) (workqueueAlloc ℕ ℕ 1)
      [.start 0 5 6, .add 0 true, .look 0, .fetch 0] := by
  refine ⟨⟨rfl, rfl⟩, ?_⟩
  rintro _ _ ⟨⟩
  refine ⟨⟨rfl, 5, 6, rfl⟩, ?_⟩
  rintro _ _ ⟨⟩
  refine ⟨⟨Nat.one_pos, rfl⟩, ?_⟩
  rintro _ _ ⟨⟩
  exact ⟨⟨Nat.one_pos, rfl⟩, fun _ _ _ => trivial⟩

theorem workqueueRun_pool_iff_one :
    ((∀ before after, [.start 0 5 6, .add 0 true, .look 0, .fetch 0] = before ++ after → ∀ es s,
        runAll workqueueStep (workqueueAlloc ℕ ℕ 1) before = some (es, s) →
          PoolAccounted s.units ∧ (s.released = false → UnitsPlaced s.units)) ↔
      Meets workqueueStep (fun s op => op.FindsNone s) (workqueueAlloc ℕ ℕ 1)
        [.start 0 5 6, .add 0 true, .look 0, .fetch 0]) ∧
    ∃ es s, runAll workqueueStep (workqueueAlloc ℕ ℕ 1)
        [.start 0 5 6, .add 0 true, .look 0, .fetch 0] = some (es, s) ∧
      (s.released = false → UnitsPlaced s.units) :=
  workqueueRun_pool_iff 1 _ workqueueFetch_enabled

/-- A unit that is fetched is on the pool, and `free` is still 0. -/
theorem workqueueRun_pool_uncounted :
    Meets workqueueStep (fun s op => op.Enabled s) (workqueueAlloc ℕ ℕ 1)
        [.start 0 5 6, .add 0 true, .look 0, .fetch 0] ∧
      ∃ es s, runAll workqueueStep (workqueueAlloc ℕ ℕ 1)
          [.start 0 5 6, .add 0 true, .look 0, .fetch 0] = some (es, s) ∧
        s.units.free = 0 ∧ s.units.units.pool = [0] ∧ ¬ PoolAccounted s.units :=
  ⟨workqueueFetch_enabled, _, _, rfl, rfl, rfl, fun h => absurd h.count (by decide)⟩

end Carthage
