import Carthage.Workqueue

/-!
# Units of work run once

In any interleaving the queue holds the units that were accepted and not fetched, oldest
first, and every worker has executed what it fetched but for the unit it is running.
-/

namespace Carthage

variable {F A : Type} {q : WorkUnitQueue F A} {func : F} {args : A} {u : F × A}
  {us : List (F × A)} {xs : List (ℕ × F × A)} {w : ℕ}

/-! ## The units in the queue -/

/-- The nodes of the queue with the units that they carry. -/
structure UnitsShape (q : WorkUnitQueue F A) (xs : List (ℕ × F × A)) : Prop where
  sound : q.units.Sound
  nodes : Segments (WorkUnit.link F A) (fun n u => (n.func, n.args) = u) q.units.nodes q.first xs
  last : q.last = xs.getLast?.map Prod.fst

def UnitsHold (q : WorkUnitQueue F A) (us : List (F × A)) : Prop :=
  ∃ xs, UnitsShape q xs ∧ xs.map Prod.snd = us

theorem unitsHold_empty : UnitsHold ⟨none, none, .empty (WorkUnit F A), 0⟩ [] :=
  ⟨[], ⟨NodeStore.sound_empty, Segments.nil, rfl⟩, rfl⟩

theorem UnitsHold.first (h : UnitsHold q us) : q.first = none ↔ us = [] := by
  obtain ⟨xs, hshape, rfl⟩ := h
  rw [hshape.nodes.start]
  cases xs with
  | nil => exact ⟨fun _ => rfl, fun _ => rfl⟩
  | cons x xs => exact ⟨fun hx => (nomatch hx), fun hx => (nomatch hx)⟩

theorem workunitPoolFree_eq (q : WorkUnitQueue F A) (a : ℕ) :
    workunitPoolFree q a = { q with units := q.units.give (q.free ≠ 128) a } := by
  unfold workunitPoolFree
  split_ifs with hfull
  · rw [decide_eq_false (not_not.mpr hfull)]
  · rw [decide_eq_true hfull]

theorem workqueueFetch_nil (h : UnitsHold q []) : workqueueFetch q = some (none, q) := by
  unfold workqueueFetch
  rw [h.first.mpr rfl]

theorem workqueueFetch_shape {a : ℕ} (h : UnitsShape q ((a, u) :: xs)) :
    ∃ q', workqueueFetch q = some (some u, q') ∧ UnitsShape q' xs ∧ q'.free = q.free ∧
      q'.units = q.units.give (q.free ≠ 128) a := by
  obtain ⟨hfirst, ha, n, hn, rfl, hrest⟩ := Segments.cons_iff.mp h.nodes
  have hlast : (if q.last = some a then none else q.last) = xs.getLast?.map Prod.fst := by
    rw [h.last]
    cases xs with
    | nil => exact if_pos rfl
    | cons y xs =>
        rw [List.getLast?_cons_cons]
        have hz := List.getLast?_eq_some_getLast (List.cons_ne_nil y xs)
        let z := (y :: xs).getLast (List.cons_ne_nil y xs)
        have hne : z.1 ≠ a := fun he =>
          ha (List.mem_map.mpr ⟨z, List.mem_of_getLast? hz, he⟩)
        rw [hz]
        exact if_neg fun he => hne (Option.some.inj he)
  let last := if q.last = some a then none else q.last
  have hfree := workunitPoolFree_eq { q with first := n.next, last := last } a
  let q' : WorkUnitQueue F A := ⟨n.next, last, q.units.give (q.free ≠ 128) a, q.free⟩
  refine ⟨q', ?_, ⟨h.sound.give hn _, hrest.update ha none, hlast⟩, rfl, rfl⟩
  simp only [workqueueFetch, hfirst, hn, Option.bind_eq_bind, Option.bind_some, Option.pure_def]
  exact congrArg (fun q' => some (some (n.func, n.args), q')) hfree

theorem workqueueFetch_cons (h : UnitsHold q (u :: us)) :
    ∃ q', workqueueFetch q = some (some u, q') ∧ UnitsHold q' us := by
  obtain ⟨xs, hshape, hmap⟩ := h
  cases xs with
  | nil => cases hmap
  | cons x xs =>
      obtain ⟨rfl, rfl⟩ := List.cons.inj hmap
      obtain ⟨q', hfetch, hshape', -⟩ := workqueueFetch_shape hshape
      exact ⟨q', hfetch, xs, hshape', rfl⟩

/-- A unit is added behind the others, with a node from the pool or a new one, unless there is no
memory for it. -/
theorem workqueueAdditem_shape (h : UnitsShape q xs) (granted : Bool) (func : F) (args : A) :
    workqueueAdditem granted q func args = some (1, q) ∨
    ∃ b units q', q.units.take granted ⟨none, func, args⟩ = some (b, units) ∧
      workqueueAdditem granted q func args = some (0, q') ∧
      UnitsShape q' (xs ++ [(b, func, args)]) ∧ q'.free = q.free ∧
      q'.units.pool = units.pool ∧ q'.units.fresh = units.fresh := by
  unfold workqueueAdditem
  cases htake : q.units.take granted ⟨none, func, args⟩ with
  | none => exact Or.inl rfl
  | some x =>
      right
      obtain ⟨b, units⟩ := x
      obtain ⟨hb, hnodes, hsound⟩ := h.sound.take htake
      have hstart := h.nodes.start
      have hb₁ : units.nodes b = some ⟨none, func, args⟩ := by
        rw [hnodes, Function.update_self]
      rcases List.eq_nil_or_concat xs with rfl | ⟨ys, y, rfl⟩
      · rw [hstart]
        refine ⟨b, units, _, rfl, rfl, ⟨hsound, ?_, rfl⟩, rfl, rfl, rfl⟩
        exact Segments.single hb₁ rfl rfl
      · obtain ⟨l, v⟩ := y
        rw [List.concat_eq_append] at h hstart ⊢
        obtain ⟨hl, n, hn, rfl, hnone⟩ := h.nodes.last
        have hbl : l ≠ b := by
          rintro rfl
          rw [hb] at hn
          cases hn
        have hn₁ : units.nodes l = some n := by
          rw [hnodes, Function.update_of_ne hbl, hn]
        have hlast : q.last = some l := by
          rw [h.last, List.getLast?_concat]
          rfl
        obtain ⟨c, hc⟩ : ∃ c, q.first = some c := by
          rw [hstart]
          cases ys with
          | nil => exact ⟨l, rfl⟩
          | cons y ys => exact ⟨y.1, rfl⟩
        have hseg := h.nodes.append_node (n := { n with next := some b })
          (m := ⟨none, func, args⟩) (y := (func, args)) hb rfl rfl rfl rfl
        let q' : WorkUnitQueue F A :=
          ⟨q.first, some b, units.put l { n with next := some b }, q.free⟩
        refine ⟨b, units, q', rfl, ?_, ⟨hsound.put hn₁, ?_, ?_⟩, rfl, rfl, rfl⟩
        · simp only [hc, hlast, hn₁, Option.bind_eq_bind, Option.bind_some, Option.pure_def]
          rw [← hc]
        · change Segments _ _ (Function.update units.nodes l _) q.first _
          rw [hnodes, List.append_assoc]
          exact hseg
        · simp [q']

theorem workqueueAdditem_spec (h : UnitsHold q us) (granted : Bool) (func : F) (args : A) :
    ∃ rc q', workqueueAdditem granted q func args = some (rc, q') ∧
      (rc = 0 ∧ UnitsHold q' (us ++ [(func, args)]) ∨ rc = 1 ∧ UnitsHold q' us) := by
  obtain ⟨xs, hshape, rfl⟩ := h
  rcases workqueueAdditem_shape hshape granted func args with
    hnone | ⟨b, units, q', -, hadd, hshape', -⟩
  · exact ⟨1, q, hnone, Or.inr ⟨rfl, xs, hshape, rfl⟩⟩
  · exact ⟨0, q', hadd, Or.inl ⟨rfl, _, hshape', List.map_append⟩⟩

/-! ## Events -/

section Events

variable {es : List (WorkEvent F A)} {e : WorkEvent F A}

theorem accepted_concat : accepted (es ++ [e]) = accepted es ++ accepted [e] :=
  List.filterMap_append

theorem fetched_concat : fetched (es ++ [e]) = fetched es ++ fetched [e] :=
  List.filterMap_append

theorem executed_concat : executed (es ++ [e]) = executed es ++ executed [e] :=
  List.filterMap_append

theorem byWorker_append (w : ℕ) (xs ys : List (ℕ × F × A)) :
    byWorker w (xs ++ ys) = byWorker w xs ++ byWorker w ys := by
  unfold byWorker
  rw [List.filter_append, List.map_append]

theorem byWorker_single (w v : ℕ) (u : F × A) :
    byWorker w [(v, u)] = if v = w then [u] else [] := by
  unfold byWorker
  rcases eq_or_ne v w with rfl | hne
  · simp
  · simp [hne]

theorem perm_of_byWorker {ys : List (ℕ × F × A)} (h : ∀ w, byWorker w xs = byWorker w ys) :
    xs.Perm ys := by
  classical
  rw [List.perm_iff_count]
  rintro ⟨w, u⟩
  have hcount : ∀ zs : List (ℕ × F × A), zs.count (w, u) = (byWorker w zs).count u := by
    intro zs
    induction zs with
    | nil => rfl
    | cons z zs ih =>
        obtain ⟨v, t⟩ := z
        have hcons : byWorker w ((v, t) :: zs) = byWorker w [(v, t)] ++ byWorker w zs :=
          byWorker_append w [(v, t)] zs
        rw [hcons, byWorker_single, List.count_append, List.count_cons, ih, Nat.add_comm]
        congr 1
        rcases eq_or_ne v w with rfl | hne
        · rw [if_pos rfl, List.count_singleton]
          simp
        · simp [hne]
  rw [hcount, hcount, h w]

end Events

/-! ## Interleavings -/

def Worker.unit : Worker F A → List (F × A)
  | .running func args => [(func, args)]
  | _ => []

/-- What happened so far, and the state. -/
structure WorkqueueInv (es : List (WorkEvent F A)) (s : Workqueue F A) : Prop where
  queued : ∃ us, UnitsHold s.units us ∧ accepted es = (fetched es).map Prod.snd ++ us
  each : ∀ w, byWorker w (fetched es) = byWorker w (executed es) ++ (s.workers w).unit
  others : ∀ w, s.ncore ≤ w → s.workers w = .loop
  ended : s.released = true → ∀ w < s.ncore, s.workers w = .ended

namespace WorkqueueInv

variable {es : List (WorkEvent F A)} {e : WorkEvent F A} {s s' : Workqueue F A}
  {p : ℕ} {x : Worker F A} {units : WorkUnitQueue F A}

theorem init (F A : Type) (ncore : ℕ) : WorkqueueInv [] (workqueueAlloc F A ncore) :=
  ⟨⟨[], unitsHold_empty, rfl⟩, fun _ => rfl, fun _ _ => rfl, fun h => (nomatch h)⟩

theorem extend (h : WorkqueueInv es s)
    (hq : ∃ us, UnitsHold s'.units us ∧
      accepted (es ++ [e]) = (fetched (es ++ [e])).map Prod.snd ++ us)
    (hw : ∀ v, (s.workers v).unit ++ byWorker v (fetched [e]) =
      byWorker v (executed [e]) ++ (s'.workers v).unit)
    (hothers : ∀ v, s'.ncore ≤ v → s'.workers v = .loop)
    (hended : s'.released = true → ∀ v < s'.ncore, s'.workers v = .ended) :
    WorkqueueInv (es ++ [e]) s' := by
  refine ⟨hq, fun v => ?_, hothers, hended⟩
  rw [fetched_concat, executed_concat, byWorker_append, byWorker_append, h.each v,
    List.append_assoc, List.append_assoc, hw v]

theorem quiet (h : WorkqueueInv es s)
    (hq : ∃ us, UnitsHold s'.units us ∧ accepted (es ++ [e]) = (fetched es).map Prod.snd ++ us)
    (hf : fetched [e] = []) (he : executed [e] = []) (hworkers : s'.workers = s.workers)
    (hncore : s'.ncore = s.ncore)
    (hended : s'.released = true → ∀ v < s.ncore, s.workers v = .ended) :
    WorkqueueInv (es ++ [e]) s' := by
  refine h.extend ?_ (fun v => ?_) ?_ ?_
  · rwa [fetched_concat, hf, List.append_nil]
  · rw [hf, he, hworkers]
    exact List.append_nil _
  · rw [hncore, hworkers]
    exact h.others
  · rw [hncore, hworkers]
    exact hended

variable (units) in
theorem worker (h : WorkqueueInv es s) (hlt : w < s.ncore) (hrun : s.workers w ≠ .ended)
    (hq : ∃ us, UnitsHold units us ∧
      accepted (es ++ [e]) = (fetched (es ++ [e])).map Prod.snd ++ us)
    (hw : (s.workers w).unit ++ byWorker w (fetched [e]) = byWorker w (executed [e]) ++ x.unit)
    (hf : ∀ v ≠ w, byWorker v (fetched [e]) = [])
    (he : ∀ v ≠ w, byWorker v (executed [e]) = []) :
    WorkqueueInv (es ++ [e]) { s.setWorker w x with units := units } := by
  refine h.extend hq (fun v => ?_) (fun v hv => ?_) (fun hrel => ?_)
  · rcases eq_or_ne v w with rfl | hne
    · change _ = _ ++ (Function.update s.workers v x v).unit
      rw [Function.update_self, hw]
    · change _ = _ ++ (Function.update s.workers w x v).unit
      rw [Function.update_of_ne hne, hf v hne, he v hne]
      exact List.append_nil _
  · have hv' : s.ncore ≤ v := hv
    have hne : v ≠ w := by omega
    exact (Function.update_of_ne hne _ _).trans (h.others v hv')
  · exact absurd (h.ended hrel w hlt) hrun

theorem worker_silent (h : WorkqueueInv es s) (hlt : w < s.ncore) (hrun : s.workers w ≠ .ended)
    (hold : (s.workers w).unit = []) (hnew : x.unit = []) :
    WorkqueueInv (es ++ [.silent]) (s.setWorker w x) := by
  obtain ⟨us, hus, hacc⟩ := h.queued
  refine h.worker s.units hlt hrun ⟨us, hus, ?_⟩ ?_ (fun _ _ => rfl) (fun _ _ => rfl)
  · rw [accepted_concat, fetched_concat]
    change accepted es ++ [] = ((fetched es) ++ []).map Prod.snd ++ us
    rw [List.append_nil, List.append_nil, hacc]
  · rw [hold, hnew]
    rfl

/-- Every step that a thread takes keeps what happened and the state in step. -/
theorem step (h : WorkqueueInv es s) (op : WorkAction F A) (hen : op.Enabled s) :
    ∃ e s', workqueueStep s op = some (e, s') ∧ WorkqueueInv (es ++ [e]) s' := by
  obtain ⟨us, hus, hacc⟩ := h.queued
  have hsilent : accepted (es ++ [.silent]) = (fetched es).map Prod.snd ++ us := by
    rw [accepted_concat]
    exact (List.append_nil _).trans hacc
  cases op with
  | start p func args =>
      obtain ⟨hrel, hidle⟩ := hen
      by_cases hstate : s.state = .active
      · refine ⟨.silent, s.setProducer p (.adding func args), ?_, h.quiet ⟨us, hus, hsilent⟩
          rfl rfl rfl rfl fun hr => absurd (hrel.symm.trans hr) Bool.false_ne_true⟩
        simp only [workqueueStep, hidle, if_pos hstate]
      · refine ⟨.additem p func args 2, s, ?_, h.quiet ⟨us, hus, ?_⟩ rfl rfl rfl rfl h.ended⟩
        · simp only [workqueueStep, hidle, if_neg hstate]
        · rw [accepted_concat]
          exact (List.append_nil _).trans hacc
  | add p granted =>
      obtain ⟨hrel, func, args, hp⟩ := hen
      obtain ⟨rc, units, hadd, hcases⟩ := workqueueAdditem_spec hus granted func args
      refine ⟨.additem p func args rc, { s.setProducer p .idle with units := units }, ?_,
        h.quiet ?_ rfl rfl rfl rfl fun hr => absurd (hrel.symm.trans hr) Bool.false_ne_true⟩
      · simp only [workqueueStep, hp, hadd, Option.bind_eq_bind, Option.bind_some,
          Option.pure_def]
      · rw [accepted_concat, hacc]
        rcases hcases with ⟨rfl, hus'⟩ | ⟨rfl, hus'⟩
        · exact ⟨us ++ [(func, args)], hus', List.append_assoc _ _ _⟩
        · exact ⟨us, hus', List.append_nil _⟩
  | look w =>
      obtain ⟨hlt, hw⟩ := hen
      have hrun : s.workers w ≠ .ended := by
        rw [hw]
        exact fun he => (nomatch he)
      have hold : (s.workers w).unit = [] := by
        rw [hw]
        rfl
      by_cases hstate : s.state = .closed
      · refine ⟨.silent, s.setWorker w .ended, ?_, h.worker_silent hlt hrun hold rfl⟩
        simp only [workqueueStep, hw, if_pos hstate]
      · refine ⟨.silent, s.setWorker w .fetching, ?_, h.worker_silent hlt hrun hold rfl⟩
        simp only [workqueueStep, hw, if_neg hstate]
  | fetch w =>
      obtain ⟨hlt, hw⟩ := hen
      have hrun : s.workers w ≠ .ended := by
        rw [hw]
        exact fun he => (nomatch he)
      have hold : (s.workers w).unit = [] := by
        rw [hw]
        rfl
      cases us with
      | nil =>
          have hfetch := workqueueFetch_nil hus
          refine ⟨.silent, s.setWorker w .loop, ?_, h.worker_silent hlt hrun hold rfl⟩
          simp only [workqueueStep, hw, hfetch, Option.bind_eq_bind, Option.bind_some,
            Option.pure_def]
          rfl
      | cons u us =>
          obtain ⟨func, args⟩ := u
          obtain ⟨units, hfetch, hus'⟩ := workqueueFetch_cons hus
          refine ⟨.fetched w func args, { s.setWorker w (.running func args) with units := units },
            ?_, h.worker _ hlt hrun ⟨us, hus', ?_⟩ ?_ (fun v hv => ?_) (fun _ _ => rfl)⟩
          · simp only [workqueueStep, hw, hfetch, Option.bind_eq_bind, Option.bind_some,
              Option.pure_def]
          · rw [accepted_concat, fetched_concat, List.map_append, hacc, List.append_assoc,
              List.append_assoc]
            exact congrArg ((fetched es).map Prod.snd ++ ·) (List.append_nil _)
          · rw [hold]
            exact byWorker_single w w _ |>.trans (if_pos rfl)
          · exact (byWorker_single v w _).trans (if_neg hv.symm)
  | exec w =>
      obtain ⟨hlt, func, args, hw⟩ := hen
      have hrun : s.workers w ≠ .ended := by
        rw [hw]
        exact fun he => (nomatch he)
      refine ⟨.executed w func args, s.setWorker w .loop, ?_,
        h.worker s.units hlt hrun ⟨us, hus, ?_⟩ ?_ (fun _ _ => rfl) (fun v hv => ?_)⟩
      · simp only [workqueueStep, hw]
      · rw [accepted_concat, fetched_concat]
        change accepted es ++ [] = (fetched es ++ []).map Prod.snd ++ us
        rw [List.append_nil, List.append_nil, hacc]
      · rw [hw]
        exact congrArg (· ++ []) ((byWorker_single w w _).trans (if_pos rfl)).symm
      · exact (byWorker_single v w _).trans (if_neg hv.symm)
  | wait =>
      refine ⟨.waited s.units.first.isSome, s, rfl, h.quiet ⟨us, hus, ?_⟩ rfl rfl rfl rfl h.ended⟩
      rw [accepted_concat]
      exact (List.append_nil _).trans hacc
  | close => exact ⟨.silent, _, rfl, h.quiet ⟨us, hus, hsilent⟩ rfl rfl rfl rfl h.ended⟩
  | join =>
      exact ⟨.silent, _, rfl, h.quiet ⟨us, hus, hsilent⟩ rfl rfl rfl rfl fun _ => hen.2.2⟩

theorem executed_perm (h : WorkqueueInv es s) (hrel : s.released = true) :
    (executed es).Perm (fetched es) := by
  apply perm_of_byWorker
  intro v
  rw [h.each v]
  rcases Nat.lt_or_ge v s.ncore with hlt | hge
  · rw [h.ended hrel v hlt]
    exact (List.append_nil _).symm
  · rw [h.others v hge]
    exact (List.append_nil _).symm

end WorkqueueInv

/-- No `workqueue_additem` is running, and the queue is empty. -/
structure Workqueue.Drained (s : Workqueue F A) : Prop where
  idle : ∀ p, s.producers p = .idle
  empty : s.units.first = none

/-- A queue stays drained as long as no `workqueue_additem` starts. -/
theorem Workqueue.Drained.step {s s' : Workqueue F A} {op : WorkAction F A} {e : WorkEvent F A}
    (h : s.Drained) (hop : ∀ p func args, op ≠ .start p func args)
    (hstep : workqueueStep s op = some (e, s')) : s'.Drained := by
  obtain ⟨hidle, hempty⟩ := h
  cases op with
  | start p func args => exact absurd rfl (hop p func args)
  | add p granted =>
      simp only [workqueueStep, hidle p] at hstep
      cases hstep
  | look w =>
      simp only [workqueueStep] at hstep
      split at hstep
      · split_ifs at hstep
        · obtain ⟨-, rfl⟩ := Prod.mk.inj (Option.some.inj hstep)
          exact ⟨hidle, hempty⟩
        · obtain ⟨-, rfl⟩ := Prod.mk.inj (Option.some.inj hstep)
          exact ⟨hidle, hempty⟩
      · cases hstep
  | fetch w =>
      have hfetch : workqueueFetch s.units = some (none, s.units) := by
        unfold workqueueFetch
        rw [hempty]
      simp only [workqueueStep, hfetch, Option.bind_eq_bind, Option.bind_some,
        Option.pure_def] at hstep
      split at hstep
      · obtain ⟨-, rfl⟩ := Prod.mk.inj (Option.some.inj hstep)
        exact ⟨hidle, hempty⟩
      · cases hstep
  | exec w =>
      simp only [workqueueStep] at hstep
      split at hstep
      · obtain ⟨-, rfl⟩ := Prod.mk.inj (Option.some.inj hstep)
        exact ⟨hidle, hempty⟩
      · cases hstep
  | wait =>
      obtain ⟨-, rfl⟩ := Prod.mk.inj (Option.some.inj hstep)
      exact ⟨hidle, hempty⟩
  | close =>
      obtain ⟨-, rfl⟩ := Prod.mk.inj (Option.some.inj hstep)
      exact ⟨hidle, hempty⟩
  | join =>
      obtain ⟨-, rfl⟩ := Prod.mk.inj (Option.some.inj hstep)
      exact ⟨hidle, hempty⟩

theorem WorkqueueInv.executed_accepted {es : List (WorkEvent F A)} {s : Workqueue F A}
    (h : WorkqueueInv es s) (hdrained : s.Drained) (hrel : s.released = true) :
    ((executed es).map Prod.snd).Perm (accepted es) := by
  obtain ⟨us, hus, hacc⟩ := h.queued
  obtain rfl := hus.first.mp hdrained.empty
  rw [hacc, List.append_nil]
  exact (h.executed_perm hrel).map Prod.snd

/-- In every interleaving the units are fetched in the order they were accepted, the k-th
fetch taking the k-th unit, and each worker executes what it fetched, in turn. If a look of
`workqueue_wait` finds the queue empty while no `workqueue_additem` is running, and none
starts after, every unit accepted has been executed once when `workqueue_release` returns. -/
theorem workqueue_executes (ncore : ℕ) (ops : List (WorkAction F A))
    (hops : Meets workqueueStep (fun s op => op.Enabled s) (workqueueAlloc F A ncore) ops) :
    ∃ es s', runAll workqueueStep (workqueueAlloc F A ncore) ops = some (es, s') ∧
      (fetched es).map Prod.snd <+: accepted es ∧
      (∀ w, byWorker w (executed es) <+: byWorker w (fetched es)) ∧
      ∀ ops₁ ops₂ es₁ s₁, ops = ops₁ ++ .wait :: ops₂ →
        runAll workqueueStep (workqueueAlloc F A ncore) ops₁ = some (es₁, s₁) → s₁.Drained →
        (∀ p func args, .start p func args ∉ ops₂) → s'.released = true →
        ((executed es).map Prod.snd).Perm (accepted es) := by
  obtain ⟨es, s', hrun, hinv⟩ := runAll_history WorkqueueInv
    (fun es s op h hen => h.step op hen) (.init F A ncore) hops
  obtain ⟨us, -, hacc⟩ := hinv.queued
  refine ⟨es, s', hrun, ⟨us, hacc.symm⟩, fun w => ⟨_, (hinv.each w).symm⟩, ?_⟩
  rintro ops₁ ops₂ es₁ s₁ rfl hrun₁ hdrained hstart hrel
  rw [runAll_append, hrun₁, Option.bind_some] at hrun
  obtain ⟨⟨es₂, s₂⟩, hrest, heq⟩ := Option.map_eq_some_iff.mp hrun
  obtain ⟨-, rfl⟩ := Prod.mk.inj heq
  have hnostart : ∀ op ∈ WorkAction.wait :: ops₂, ∀ p func args, op ≠ .start p func args := by
    rintro op hop p func args rfl
    rcases List.mem_cons.mp hop with he | hmem
    · cases he
    · exact hstart p func args hmem
  have hend : s₂.Drained := runAll_preserves Workqueue.Drained
    (fun s op hop e s' hs hstep => hs.step (hnostart op hop) hstep) hdrained hrest
  exact hinv.executed_accepted hend hrel

theorem workqueue_executes_two : ∃ es s',
    runAll workqueueStep (workqueueAlloc ℕ ℕ 2)
        [.start 0 5 6, .start 1 7 8, .add 1 true, .add 0 true, .look 1, .fetch 1, .look 0, .fetch 0,
          .wait, .exec 0, .exec 1, .close, .look 0, .look 1, .join] =
      some (es, s') ∧ (fetched es).map Prod.snd <+: accepted es ∧
      (∀ w, byWorker w (executed es) <+: byWorker w (fetched es)) ∧
      ∀ ops₁ ops₂ es₁ s₁,
        [.start 0 5 6, .start 1 7 8, .add 1 true, .add 0 true, .look 1, .fetch 1, .look 0, .fetch 0,
          .wait, .exec 0, .exec 1, .close, .look 0, .look 1, .join] =
          ops₁ ++ .wait :: ops₂ →
        runAll workqueueStep (workqueueAlloc ℕ ℕ 2) ops₁ = some (es₁, s₁) → s₁.Drained →
        (∀ p func args, .start p func args ∉ ops₂) → s'.released = true →
        ((executed es).map Prod.snd).Perm (accepted es) := by
  apply workqueue_executes
  refine ⟨⟨rfl, rfl⟩, ?_⟩
  rintro _ _ ⟨⟩
  refine ⟨⟨rfl, rfl⟩, ?_⟩
  rintro _ _ ⟨⟩
  refine ⟨⟨rfl, 7, 8, rfl⟩, ?_⟩
  rintro _ _ ⟨⟩
  refine ⟨⟨rfl, 5, 6, rfl⟩, ?_⟩
  rintro _ _ ⟨⟩
  refine ⟨⟨by decide, rfl⟩, ?_⟩
  rintro _ _ ⟨⟩
  refine ⟨⟨by decide, rfl⟩, ?_⟩
  rintro _ _ ⟨⟩
  refine ⟨⟨by decide, rfl⟩, ?_⟩
  rintro _ _ ⟨⟩
  refine ⟨⟨by decide, rfl⟩, ?_⟩
  rintro _ _ ⟨⟩
  refine ⟨rfl, ?_⟩
  rintro _ _ ⟨⟩
  refine ⟨⟨by decide, 5, 6, rfl⟩, ?_⟩
  rintro _ _ ⟨⟩
  refine ⟨⟨by decide, 7, 8, rfl⟩, ?_⟩
  rintro _ _ ⟨⟩
  refine ⟨rfl, ?_⟩
  rintro _ _ ⟨⟩
  refine ⟨⟨by decide, rfl⟩, ?_⟩
  rintro _ _ ⟨⟩
  refine ⟨⟨by decide, rfl⟩, ?_⟩
  rintro _ _ ⟨⟩
  refine ⟨⟨rfl, rfl, fun w hw => ?_⟩, fun _ _ _ => trivial⟩
  obtain rfl | rfl : w = 0 ∨ w = 1 := Nat.le_one_iff_eq_zero_or_eq_one.mp (Nat.le_of_lt_succ hw)
  · rfl
  · rfl

/-- A `workqueue_additem` that has read the state before the last look of `workqueue_wait`
adds its unit after it, and no worker fetches it. -/
theorem workqueue_loses_unit :
    Meets workqueueStep (fun s op => op.Enabled s) (workqueueAlloc ℕ ℕ 1)
        [.start 0 5 6, .wait, .add 0 true, .close, .look 0, .join] ∧
      ∃ es s', runAll workqueueStep (workqueueAlloc ℕ ℕ 1)
          [.start 0 5 6, .wait, .add 0 true, .close, .look 0, .join] = some (es, s') ∧
        s'.released = true ∧ accepted es = [(5, 6)] ∧ executed es = [] := by
  refine ⟨⟨⟨rfl, rfl⟩, ?_⟩, ⟨_, _, rfl, rfl, rfl, rfl⟩⟩
  rintro _ _ ⟨⟩
  refine ⟨rfl, ?_⟩
  rintro _ _ ⟨⟩
  refine ⟨⟨rfl, 5, 6, rfl⟩, ?_⟩
  rintro _ _ ⟨⟩
  refine ⟨rfl, ?_⟩
  rintro _ _ ⟨⟩
  refine ⟨⟨Nat.one_pos, rfl⟩, ?_⟩
  rintro _ _ ⟨⟩
  refine ⟨⟨rfl, rfl, fun w hw => ?_⟩, fun _ _ _ => trivial⟩
  obtain rfl : w = 0 := Nat.lt_one_iff.mp hw
  rfl

end Carthage
