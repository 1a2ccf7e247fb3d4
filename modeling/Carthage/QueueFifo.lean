import Carthage.Queue

/-!
# Queues are first in, first out

A queue holds the concatenation of what its nodes carry. Pushing and popping change it like
a list, as long as every push finds a free slot behind the last item, or a last node that is
full from its first slot on.
-/

namespace Carthage

variable {α : Type} {granted : ℕ → Bool} {q q' : Queue α} {n : QueueNode α}
  {ss : List (ℕ × List α)} {xs ys : List α} {a : ℕ} {x : α}

/-- The items of a node in order. -/
structure QueueNode.Carries (n : QueueNode α) (xs : List α) : Prop where
  used : n.used = xs.length
  fits : n.offset + n.used ≤ 64
  items : ∀ i < xs.length, n.items (n.offset + i) = xs[i]?

/-- The nodes of a queue with what they carry, at least one item each. -/
structure QueueShape (q : Queue α) (ss : List (ℕ × List α)) : Prop where
  sound : q.store.Sound
  nodes : Segments (QueueNode.link α) QueueNode.Carries q.store.nodes q.head ss
  tail : ∀ s ∈ ss.getLast?, q.tail = some s.1

def QueueHolds (q : Queue α) (xs : List α) : Prop :=
  ∃ ss, QueueShape q ss ∧ (∀ s ∈ ss, s.2 ≠ []) ∧ (ss.map Prod.snd).flatten = xs ∧
    q.nitems = xs.length

/-- A push on a full circular queue drops the oldest item. -/
def fifoStep (circular : ℕ) (xs : List α) : QueueOp α → QueueResult α × List α
  | .push element =>
      (.pushed 0, (if xs.length = circular then xs.tail else xs) ++ [element])
  | .pop => (.popped xs.head?, xs.tail)

def fifoRun (circular : ℕ) : List α → List (QueueOp α) → List (QueueResult α) × List α
  | xs, [] => ([], xs)
  | xs, op :: ops =>
      let (r, xs) := fifoStep circular xs op
      let (rs, xs) := fifoRun circular xs ops
      (r :: rs, xs)

/-- The slot that a push stores to lies in the last node, which is still in the queue. -/
def QueueOp.Fits (q : Queue α) : QueueOp α → Prop
  | .push _ => q.head = none ∨ ∃ a n, q.tail = some a ∧ q.store.nodes a = some n ∧
      if q.Full then q.nitems ≠ 1 ∧ (n.offset + n.used < 64 ∨ n.used = 64 ∧ q.head ≠ q.tail)
      else n.offset + n.used < 64 ∨ n.used = 64
  | .pop => True

/-- What a push adds with the result `rc`. -/
def pushedItem (rc : ℤ) (x : α) : List α := if rc = 0 then [x] else []

/-! ## One node -/

theorem QueueNode.carries_nil (p : Option ℕ) (items : ℕ → Option α) :
    (⟨p, items, 0, 0⟩ : QueueNode α).Carries [] :=
  ⟨rfl, by norm_num, fun i hi => absurd hi (Nat.not_lt_zero i)⟩

theorem QueueNode.Carries.pop (h : n.Carries (x :: xs)) :
    n.offset < 64 ∧ n.items n.offset = some x ∧ (n.used + 255) % 256 = xs.length ∧
      ({ n with offset := n.offset + 1, used := (n.used + 255) % 256 } : QueueNode α).Carries
        xs := by
  have hused := h.used
  have hfits := h.fits
  rw [List.length_cons] at hused
  have hmod : (n.used + 255) % 256 = xs.length := by omega
  refine ⟨by omega, h.items 0 (Nat.succ_pos _), hmod, hmod, ?_, fun i hi => ?_⟩
  · change n.offset + 1 + (n.used + 255) % 256 ≤ 64
    omega
  · have hi' := h.items (i + 1) (Nat.succ_lt_succ hi)
    rw [List.getElem?_cons_succ] at hi'
    rw [← hi']
    change n.items (n.offset + 1 + i) = n.items (n.offset + (i + 1))
    congr 1
    omega

theorem QueueNode.Carries.push (h : n.Carries xs) (hslot : n.offset + n.used < 64) (x : α) :
    ({ n with items := Function.update n.items (n.offset + n.used) (some x), used := n.used + 1 } :
      QueueNode α).Carries (xs ++ [x]) := by
  have hused := h.used
  refine ⟨?_, hslot, fun i hi => ?_⟩
  · rw [List.length_append, List.length_singleton, ← hused]
  · rw [List.length_append, List.length_singleton] at hi
    change Function.update n.items (n.offset + n.used) (some x) (n.offset + i) = _
    rcases Nat.lt_or_ge i xs.length with hlt | hge
    · have hne : n.offset + i ≠ n.offset + n.used := by omega
      rw [Function.update_of_ne hne, List.getElem?_append_left hlt]
      exact h.items i hlt
    · obtain rfl : i = xs.length := by omega
      rw [← hused, Function.update_self, hused, List.getElem?_concat_length]

/-! ## Popping -/

theorem queueNodeFree_eq (q : Queue α) (a : ℕ) (n : QueueNode α) :
    ∃ keep poolSize released, queueNodeFree q a n =
      { q with store := q.store.give keep a, poolSize := poolSize, released := released } := by
  unfold queueNodeFree
  by_cases hpool : q.poolSize < 8
  · exact ⟨true, _, _, if_pos hpool⟩
  · exact ⟨false, _, _, if_neg hpool⟩

/-- Popping takes the first item of the first node, and leaves the other nodes alone. -/
theorem queuePop_shape (h : QueueShape q ((a, x :: ys) :: ss)) (hq : q.nitems ≠ 0) :
    ∃ q', queuePop q = some (some x, q') ∧
      QueueShape q' (if ys = [] then ss else (a, ys) :: ss) ∧
      q'.nitems = q.nitems - 1 ∧ q'.circular = q.circular ∧ q'.tail = q.tail ∧
      (∀ b ≠ a, q'.store.nodes b = q.store.nodes b) ∧
      (ys ≠ [] → ∀ n, q.store.nodes a = some n → ∃ n', q'.store.nodes a = some n' ∧
        n'.offset + n'.used = n.offset + n.used) := by
  obtain ⟨hhead, ha, n, hn, hc, hrest⟩ := Segments.cons_iff.mp h.nodes
  obtain ⟨hlt, hitem, hused, hc'⟩ := hc.pop
  let n' : QueueNode α := { n with offset := n.offset + 1, used := (n.used + 255) % 256 }
  let q₁ : Queue α := { q with store := q.store.put a n', nitems := q.nitems - 1 }
  have hsound : q₁.store.Sound := h.sound.put hn
  have ha₁ : q₁.store.nodes a = some n' := Function.update_self _ _ _
  have hother : ∀ b ≠ a, q₁.store.nodes b = q.store.nodes b := fun b hb =>
    Function.update_of_ne hb _ _
  have hrest₁ : Segments (QueueNode.link α) QueueNode.Carries q₁.store.nodes n.next ss :=
    hrest.update ha _
  cases ys with
  | nil =>
      obtain ⟨keep, poolSize, released, hfree⟩ := queueNodeFree_eq { q₁ with head := n.next } a n'
      let q₂ : Queue α := { q₁ with
        head := n.next, store := q₁.store.give keep a, poolSize := poolSize, released := released }
      refine ⟨q₂, ?_, ⟨?_, ?_, ?_⟩, rfl, rfl, rfl, ?_, fun hc => absurd rfl hc⟩
      · have hz : (n.used + 255) % 256 = 0 := hused
        have hfree₂ : queueNodeFree { q₁ with head := n.next } a n' = q₂ := hfree
        simp only [queuePop, if_neg hq, hhead, hn, if_pos hlt, hitem, if_pos hz, ← hfree₂,
          Option.bind_eq_bind, Option.bind_some, Option.pure_def, q₁, n']
      · exact hsound.give ha₁ keep
      · exact hrest₁.update ha none
      · intro s hs
        apply h.tail
        rw [if_pos rfl] at hs
        cases ss with
        | nil => cases hs
        | cons u us => exact hs
      · intro b hb
        exact (Function.update_of_ne hb _ _).trans (hother b hb)
  | cons y ys =>
      refine ⟨q₁, ?_, ⟨hsound, ?_, ?_⟩, rfl, rfl, rfl, hother, fun _ m hm => ?_⟩
      · have hz : ¬ (n.used + 255) % 256 = 0 := by
          rw [hused]
          exact Nat.succ_ne_zero _
        simp only [queuePop, if_neg hq, hhead, hn, if_pos hlt, hitem, if_neg hz,
          Option.bind_eq_bind, Option.bind_some, Option.pure_def, q₁, n']
      · rw [if_neg (List.cons_ne_nil y ys)]
        exact Segments.cons_iff.mpr ⟨hhead, ha, n', ha₁, hc', hrest₁⟩
      · intro s hs
        rw [if_neg (List.cons_ne_nil y ys)] at hs
        cases ss with
        | nil =>
            obtain rfl := Option.mem_some_iff.mp hs
            exact h.tail (a, x :: y :: ys) rfl
        | cons u us => exact h.tail s hs
      · obtain rfl := Option.some.inj (hn.symm.trans hm)
        have hlen := hc.used
        rw [List.length_cons] at hlen
        refine ⟨n', ha₁, ?_⟩
        change n.offset + 1 + (n.used + 255) % 256 = _
        omega

/-! ## Pushing -/

theorem queuePushItem_shape (h : QueueShape q (ss ++ [(a, ys)])) (hn : q.store.nodes a = some n)
    (hslot : n.offset + n.used < 64) : ∃ q', queuePushItem q a n x = some (0, q') ∧
      QueueShape q' (ss ++ [(a, ys ++ [x])]) ∧ q'.nitems = q.nitems + 1 ∧
      q'.circular = q.circular := by
  obtain ⟨ha, m, hm, hc, hnext⟩ := h.nodes.last
  obtain rfl := Option.some.inj (hn.symm.trans hm)
  refine ⟨_, if_pos hslot, ⟨h.sound.put hn, ?_, ?_⟩, rfl, rfl⟩
  · exact h.nodes.put_last (hc.push hslot x) hnext
  · intro s hs
    rw [List.getLast?_concat] at hs
    obtain rfl := Option.mem_some_iff.mp hs
    exact h.tail (a, ys) (by rw [List.getLast?_concat]; rfl)

theorem queueNodeAlloc_cases (granted : ℕ → Bool) (h : q.store.Sound) :
    ((∃ i, granted i = false) ∧
      queueNodeAlloc granted q = (none, { q with requests := q.requests + 1 })) ∨
    ∃ b store poolSize requests, queueNodeAlloc granted q = (some b,
        { q with store := store, poolSize := poolSize, requests := requests }) ∧
      q.store.nodes b = none ∧ store.Sound ∧
      store.nodes = Function.update q.store.nodes b (some ⟨none, fun _ => none, 0, 0⟩) := by
  unfold queueNodeAlloc
  cases htake : q.store.take (granted q.requests) (⟨none, fun _ => none, 0, 0⟩ : QueueNode α) with
  | none =>
      left
      refine ⟨⟨q.requests, ?_⟩, rfl⟩
      by_contra hg
      rw [Bool.not_eq_false] at hg
      obtain ⟨b, store, hsome⟩ := NodeStore.take_granted q.store
        (⟨none, fun _ => none, 0, 0⟩ : QueueNode α)
      rw [hg, hsome] at htake
      cases htake
  | some p =>
      right
      obtain ⟨b, store⟩ := p
      obtain ⟨hdead, hnodes, hsound⟩ := h.take htake
      by_cases hpool : q.store.pool = []
      · exact ⟨b, store, _, _, if_pos hpool, hdead, hsound, hnodes⟩
      · exact ⟨b, store, _, _, if_neg hpool, hdead, hsound, hnodes⟩

/-- Storing an item behind the last one of the last node, or in a new node behind it if
there is one to have. -/
theorem queuePushTail_shape (granted : ℕ → Bool) (h : QueueShape q (ss ++ [(a, ys)]))
    (hn : q.store.nodes a = some n) (hfit : n.offset + n.used < 64 ∨ n.used = 64) :
    ∃ rc q' zs, queuePushTail granted q x = some (rc, q') ∧ QueueShape q' (ss ++ zs) ∧
      (zs.map Prod.snd).flatten = ys ++ pushedItem rc x ∧ (∀ s ∈ zs, s.2 ≠ []) ∧
      q'.nitems = q.nitems + (pushedItem rc x).length ∧ q'.circular = q.circular ∧
      (rc = 0 ∨ ∃ i, granted i = false) := by
  have htail : q.tail = some a := h.tail (a, ys) (by rw [List.getLast?_concat]; rfl)
  obtain ⟨ha, m, hm, hc, hnext⟩ := h.nodes.last
  obtain rfl := Option.some.inj (hn.symm.trans hm)
  have hfits := hc.fits
  by_cases hfull : n.used = 64
  · have hoff : ¬ n.offset > 0 := by omega
    have hys : ys ≠ [] := by
      rintro rfl
      have hlen := hc.used
      rw [hfull] at hlen
      cases hlen
    rcases queueNodeAlloc_cases granted h.sound with
      ⟨hg, halloc⟩ | ⟨b, store, poolSize, requests, halloc, hdead, hsound, hnodes⟩
    · refine ⟨-2, { q with requests := q.requests + 1 }, [(a, ys)], ?_,
        ⟨h.sound, h.nodes, h.tail⟩, by simp [pushedItem], ?_, rfl, rfl, Or.inr hg⟩
      · simp only [queuePushTail, htail, hn, if_pos hfull, if_neg hoff, halloc,
          Option.bind_eq_bind, Option.bind_some, Option.pure_def]
      · intro s hs
        obtain rfl := List.mem_singleton.mp hs
        exact hys
    let m : QueueNode α := ⟨none, fun _ => none, 0, 0⟩
    have hne : b ≠ a := by
      rintro rfl
      simp [hdead] at hn
    have hb : store.nodes b = some m := by
      rw [hnodes]
      exact Function.update_self _ _ _
    have hna : store.nodes a = some n := by
      rw [hnodes, Function.update_of_ne hne.symm]
      exact hn
    let q₁ : Queue α := { q with
      store := store.put a { n with next := some b }, tail := some b, poolSize := poolSize,
      requests := requests }
    have hb₁ : q₁.store.nodes b = some m := (Function.update_of_ne hne _ _).trans hb
    have hshape : QueueShape q₁ (ss ++ [(a, ys)] ++ [(b, [])]) := by
      refine ⟨hsound.put hna, ?_, ?_⟩
      · have hlink := h.nodes.append_node (n := { n with next := some b }) (m := m) (y := []) hdead
          ⟨hc.used, hc.fits, hc.items⟩ rfl (QueueNode.carries_nil _ _) rfl
        rw [List.append_assoc]
        rw [← hnodes] at hlink
        exact hlink
      · intro s hs
        rw [List.getLast?_concat] at hs
        obtain rfl := Option.mem_some_iff.mp hs
        rfl
    obtain ⟨q', hpush, h', hsize, hcirc⟩ := queuePushItem_shape (x := x) hshape hb₁ (by norm_num [m])
    refine ⟨0, q', [(a, ys), (b, [x])], ?_, ?_, by simp [pushedItem], ?_, hsize, hcirc, Or.inl rfl⟩
    · simp only [queuePushTail, htail, hn, if_pos hfull, if_neg hoff, halloc, hb,
        Option.bind_eq_bind, Option.bind_some]
      exact hpush
    · rw [List.append_assoc] at h'
      exact h'
    · intro s hs
      rcases List.mem_pair.mp hs with rfl | rfl
      · exact hys
      · exact List.cons_ne_nil x []
  · obtain ⟨q', hpush, h', hsize, hcirc⟩ := queuePushItem_shape (x := x) h hn (by omega)
    refine ⟨0, q', [(a, ys ++ [x])], ?_, h', by simp [pushedItem], ?_, hsize, hcirc, Or.inl rfl⟩
    · simp only [queuePushTail, htail, hn, if_neg hfull, hpush, Option.bind_eq_bind,
        Option.bind_some]
    · intro s hs he
      obtain rfl := List.mem_singleton.mp hs
      simp at he

theorem queuePushTail_holds (granted : ℕ → Bool) (h : QueueShape q (ss ++ [(a, ys)]))
    (hne : ∀ s ∈ ss, s.2 ≠ [])
    (hsize : q.nitems = ((ss ++ [(a, ys)]).map Prod.snd).flatten.length)
    (hn : q.store.nodes a = some n) (hfit : n.offset + n.used < 64 ∨ n.used = 64) :
    ∃ rc q', queuePushTail granted q x = some (rc, q') ∧
      QueueHolds q' (((ss ++ [(a, ys)]).map Prod.snd).flatten ++ pushedItem rc x) ∧
      q'.circular = q.circular ∧ (rc = 0 ∨ ∃ i, granted i = false) := by
  obtain ⟨rc, q', zs, hpush, h', hflat, hzs, hn', hcirc, hrc⟩ :=
    queuePushTail_shape (x := x) granted h hn hfit
  refine ⟨rc, q', hpush, ⟨ss ++ zs, h', fun s hs => ?_, ?_, ?_⟩, hcirc, hrc⟩
  · rcases List.mem_append.mp hs with hs | hs
    · exact hne s hs
    · exact hzs s hs
  · rw [List.map_append, List.flatten_append, hflat]
    simp
  · rw [hn', hsize, List.length_append]

theorem shape_cons {ss : List (ℕ × List α)} (hne : ∀ s ∈ ss, s.2 ≠ [])
    (hx : (ss.map Prod.snd).flatten = x :: xs) : ∃ a ys rest, ss = (a, x :: ys) :: rest ∧
      ys ++ (rest.map Prod.snd).flatten = xs := by
  cases ss with
  | nil => cases hx
  | cons s rest =>
      obtain ⟨a, c⟩ := s
      cases c with
      | nil => exact absurd rfl (hne _ List.mem_cons_self)
      | cons y ys =>
          obtain ⟨rfl, hrest⟩ := List.cons.inj hx
          exact ⟨a, ys, rest, rfl, hrest⟩

theorem shape_popped {rest : List (ℕ × List α)} (hne : ∀ s ∈ (a, x :: ys) :: rest, s.2 ≠ []) :
    ((if ys = [] then rest else (a, ys) :: rest).map Prod.snd).flatten =
      ys ++ (rest.map Prod.snd).flatten ∧
    ∀ s ∈ if ys = [] then rest else (a, ys) :: rest, s.2 ≠ [] := by
  split_ifs with hys
  · subst hys
    exact ⟨rfl, fun s hs => hne s (List.mem_cons_of_mem _ hs)⟩
  · refine ⟨rfl, fun s hs => ?_⟩
    rcases List.mem_cons.mp hs with rfl | hs
    · exact hys
    · exact hne s (List.mem_cons_of_mem _ hs)

theorem queuePop_holds (h : QueueHolds q xs) :
    ∃ q', queuePop q = some (xs.head?, q') ∧ QueueHolds q' xs.tail ∧ q'.circular = q.circular := by
  obtain ⟨ss, hshape, hne, hflat, hsize⟩ := h
  cases xs with
  | nil => exact ⟨q, if_pos hsize, ⟨ss, hshape, hne, hflat, hsize⟩, rfl⟩
  | cons x xs =>
      obtain ⟨a, ys, rest, rfl, hrest⟩ := shape_cons hne hflat
      have hsize' : q.nitems = xs.length + 1 := hsize
      obtain ⟨q', hpop, h', hn', hcirc, -⟩ := queuePop_shape hshape (by omega)
      obtain ⟨hflat', hne'⟩ := shape_popped hne
      refine ⟨q', hpop, ⟨_, h', hne', hflat'.trans hrest, ?_⟩, hcirc⟩
      rw [hn', hsize', List.tail_cons, Nat.add_sub_cancel]

theorem QueueShape.exists_last (h : QueueShape q ss) (hss : ss ≠ []) (htail : q.tail = some a) :
    ∃ init ys, ss = init ++ [(a, ys)] := by
  obtain ⟨init, ⟨b, ys⟩, rfl⟩ := List.eq_nil_or_concat ss |>.resolve_left hss
  rw [List.concat_eq_append] at h ⊢
  have hb := h.tail (b, ys) (by rw [List.getLast?_concat]; rfl)
  obtain rfl := Option.some.inj (htail.symm.trans hb)
  exact ⟨init, ys, rfl⟩

theorem fits_after_pop {rest init : List (ℕ × List α)} {b : ℕ} {zs : List α}
    (h : QueueShape q ((b, x :: ys) :: rest)) (hpop : queuePop q = some (some x, q'))
    (hn : q.store.nodes a = some n)
    (hfit : n.offset + n.used < 64 ∨ n.used = 64 ∧ q.head ≠ some a) (hq : q.nitems ≠ 0)
    (hlast : (if ys = [] then rest else (b, ys) :: rest) = init ++ [(a, zs)]) :
    ∃ n', q'.store.nodes a = some n' ∧ (n'.offset + n'.used < 64 ∨ n'.used = 64) := by
  obtain ⟨q'', hpop', h', -, -, -, hother, hsame⟩ := queuePop_shape h hq
  obtain rfl : q'' = q' := by
    rw [hpop] at hpop'
    exact (Prod.mk.inj (Option.some.inj hpop')).2.symm
  obtain ⟨hhead, hb, -⟩ := Segments.cons_iff.mp h.nodes
  rcases eq_or_ne a b with rfl | hne
  · have hys : ys ≠ [] := by
      intro hys
      rw [if_pos hys] at hlast
      apply hb
      rw [hlast]
      simp
    obtain ⟨n', hn', hsum⟩ := hsame hys n hn
    refine ⟨n', hn', Or.inl ?_⟩
    rcases hfit with hlt | ⟨-, hc⟩
    · omega
    · exact absurd hhead hc
  · refine ⟨n, (hother a hne).trans hn, ?_⟩
    rcases hfit with hlt | ⟨hfull, -⟩
    · exact Or.inl hlt
    · exact Or.inr hfull

theorem queuePush_first (granted : ℕ → Bool) (h : QueueHolds q xs) (hhead : q.head = none) :
    xs = [] ∧ ∃ rc q', queuePush granted q x = some (rc, q') ∧ QueueHolds q' (pushedItem rc x) ∧
      q'.circular = q.circular ∧ (rc = 0 ∨ ∃ i, granted i = false) := by
  obtain ⟨ss, hshape, hss₀, hflat, hsize⟩ := h
  have hss : ss = [] := by
    have hstart := hshape.nodes.start
    rw [hhead, eq_comm, List.head?_eq_none_iff, List.map_eq_nil_iff] at hstart
    exact hstart
  subst hss
  obtain rfl : [] = xs := hflat
  rcases queueNodeAlloc_cases granted hshape.sound with
    ⟨hg, halloc⟩ | ⟨b, store, poolSize, requests, halloc, -, hsound, hnodes⟩
  · refine ⟨rfl, -1, { q with requests := q.requests + 1 }, ?_,
      ⟨[], ⟨hshape.sound, hshape.nodes, hshape.tail⟩, hss₀, rfl, by simpa [pushedItem] using hsize⟩,
      rfl, Or.inr hg⟩
    simp only [queuePush, hhead, halloc]
  let m : QueueNode α := ⟨none, fun _ => none, 0, 0⟩
  let q₁ : Queue α := { q with
    store := store, poolSize := poolSize, requests := requests, head := some b, tail := some b }
  have hb : q₁.store.nodes b = some m := by
    change store.nodes b = some m
    rw [hnodes]
    exact Function.update_self _ _ _
  have hshape₁ : QueueShape q₁ ([] ++ [(b, [])]) := by
    refine ⟨hsound, Segments.single hb (QueueNode.carries_nil _ _) rfl, fun s hs => ?_⟩
    obtain rfl := Option.mem_some_iff.mp hs
    rfl
  obtain ⟨rc, q', hpush, h', hcirc, hrc⟩ := queuePushTail_holds (x := x) granted hshape₁ (by simp)
    hsize hb (by norm_num [m])
  refine ⟨rfl, rc, q', ?_, h', hcirc, hrc⟩
  simp only [queuePush, hhead, halloc]
  exact hpush

theorem queuePush_holds (granted : ℕ → Bool) (h : QueueHolds q xs)
    (hfit : (QueueOp.push x).Fits q) : ∃ rc q', queuePush granted q x = some (rc, q') ∧
      QueueHolds q' ((if xs.length = q.circular then xs.tail else xs) ++ pushedItem rc x) ∧
      q'.circular = q.circular ∧ (rc = 0 ∨ ∃ i, granted i = false) := by
  cases hhead : q.head with
  | none =>
      obtain ⟨rfl, hpush⟩ := queuePush_first (x := x) granted h hhead
      rwa [List.tail_nil, ite_self]
  | some b =>
      obtain ⟨ss, hshape, hne, hflat, hsize⟩ := h
      obtain ⟨a, n, htail, hn, hfits⟩ := hfit.resolve_left (by simp [hhead])
      have hss : ss ≠ [] := by
        rintro rfl
        have hstart := hshape.nodes.start
        rw [hhead] at hstart
        cases hstart
      have hpos : xs ≠ [] := by
        rintro rfl
        obtain ⟨s, rest, rfl⟩ := List.exists_cons_of_ne_nil hss
        apply hne s List.mem_cons_self
        exact (List.append_eq_nil_iff.mp hflat).1
      by_cases hfull : q.Full
      · rw [if_pos hfull] at hfits
        obtain ⟨hone, hslot⟩ := hfits
        obtain ⟨y, xs, rfl⟩ := List.exists_cons_of_ne_nil hpos
        rw [List.length_cons] at hsize ⊢
        rw [if_pos (hsize.symm.trans hfull.1), List.tail_cons]
        obtain ⟨d, ys, rest, rfl, hrest⟩ := shape_cons hne hflat
        obtain ⟨q₁, hpop, h₁, hn₁, hcirc₁, htail₁, -⟩ := queuePop_shape hshape (by omega)
        obtain ⟨hflat₁, hne₁⟩ := shape_popped hne
        have hss₁ : (if ys = [] then rest else (d, ys) :: rest) ≠ [] := by
          intro hc
          rw [hc] at hflat₁
          rw [← hrest, ← hflat₁] at hsize
          exact hone hsize
        obtain ⟨init, zs, hlast⟩ := h₁.exists_last hss₁ (htail₁.trans htail)
        obtain ⟨n', hn', hfit'⟩ := fits_after_pop hshape hpop hn
          (hslot.imp id fun hc => ⟨hc.1, htail ▸ hc.2⟩) (by omega) hlast
        rw [hlast] at h₁ hflat₁ hne₁
        let released := if q₁.itemFree then q₁.released ++ [some y] else q₁.released
        have hshape₁ : QueueShape { q₁ with released := released } (init ++ [(a, zs)]) :=
          ⟨h₁.sound, h₁.nodes, h₁.tail⟩
        obtain ⟨rc, q', hpush, h', hcirc, hrc⟩ := queuePushTail_holds (x := x) granted hshape₁
          (fun s hs => hne₁ s (List.mem_append_left _ hs))
          (by rw [hflat₁, hrest]; change q₁.nitems = _; omega) hn' hfit'
        refine ⟨rc, q', ?_, ?_, hcirc.trans hcirc₁, hrc⟩
        · simp only [queuePush, hhead, if_pos hfull, hpop, Option.bind_eq_bind, Option.bind_some]
          exact hpush
        · rwa [hflat₁, hrest] at h'
      · rw [if_neg hfull] at hfits
        have hlen : xs.length ≠ q.circular := fun hc =>
          hfull ⟨hsize.trans hc, by rw [hsize]; exact List.length_pos_of_ne_nil hpos⟩
        rw [if_neg hlen]
        obtain ⟨init, ys, rfl⟩ := hshape.exists_last hss htail
        obtain ⟨rc, q', hpush, h', hcirc, hrc⟩ := queuePushTail_holds (x := x) granted hshape
          (fun s hs => hne s (List.mem_append_left _ hs)) (by rw [hflat, hsize]) hn hfits
        refine ⟨rc, q', ?_, hflat ▸ h', hcirc, hrc⟩
        simp only [queuePush, hhead, if_neg hfull]
        exact hpush

/-! ## Runs -/

theorem queueStep_holds (h : QueueHolds q xs) (hg : ∀ i, granted i = true) {op : QueueOp α}
    (hfit : op.Fits q) : ∃ q', queueStep granted q op = some ((fifoStep q.circular xs op).1, q') ∧
      QueueHolds q' (fifoStep q.circular xs op).2 ∧ q'.circular = q.circular := by
  cases op with
  | push x =>
      obtain ⟨rc, q', hpush, h', hcirc, hrc⟩ := queuePush_holds granted h hfit
      obtain rfl : rc = 0 := hrc.resolve_right fun ⟨i, hi⟩ => Bool.noConfusion ((hg i).symm.trans hi)
      refine ⟨q', ?_, h', hcirc⟩
      simp only [queueStep, hpush, fifoStep, Option.bind_eq_bind, Option.bind_some,
        Option.pure_def]
  | pop =>
      obtain ⟨q', hpop, h', hcirc⟩ := queuePop_holds h
      refine ⟨q', ?_, h', hcirc⟩
      simp only [queueStep, hpop, fifoStep, Option.bind_eq_bind, Option.bind_some,
        Option.pure_def]

theorem queueHolds_alloc (circular : ℕ) (itemFree : Bool) :
    QueueHolds (queueCircularAlloc (α := α) circular itemFree) [] :=
  ⟨[], ⟨NodeStore.sound_empty, Segments.nil, fun _ hs => (nomatch hs)⟩,
    fun _ hs => (nomatch hs), rfl, rfl⟩

theorem queueRun_holds (h : QueueHolds q xs) (hg : ∀ i, granted i = true)
    {ops : List (QueueOp α)} (hm : Meets (queueStep granted) (fun q op => op.Fits q) q ops) :
    ∃ q', runAll (queueStep granted) q ops = some ((fifoRun q.circular xs ops).1, q') ∧
      QueueHolds q' (fifoRun q.circular xs ops).2 := by
  induction ops generalizing q xs with
  | nil => exact ⟨q, rfl, h⟩
  | cons op ops ih =>
      obtain ⟨q₁, hstep, h₁, hcirc⟩ := queueStep_holds h hg hm.1
      obtain ⟨q', hrun, h'⟩ := ih h₁ (hm.2 _ _ hstep)
      rw [hcirc] at hrun h'
      refine ⟨q', ?_, h'⟩
      unfold runAll
      simp only [hstep, hrun, fifoRun, Option.bind_eq_bind, Option.bind_some, Option.pure_def]

/-- In every run whose pushes find a slot, the results are those of a list. -/
theorem queueRun_fifo (granted : ℕ → Bool) (hg : ∀ i, granted i = true) (circular : ℕ)
    (itemFree : Bool) (ops : List (QueueOp α))
    (hm : Meets (queueStep granted) (fun q op => op.Fits q)
      (queueCircularAlloc circular itemFree) ops) :
    ∃ q', runAll (queueStep granted) (queueCircularAlloc circular itemFree) ops =
        some ((fifoRun circular [] ops).1, q') ∧
      QueueHolds q' (fifoRun circular [] ops).2 ∧
      queueSize q' = (fifoRun circular [] ops).2.length := by
  obtain ⟨q', hrun, h'⟩ := queueRun_holds (queueHolds_alloc circular itemFree) hg hm
  obtain ⟨ss, -, -, -, hsize⟩ := id h'
  exact ⟨q', hrun, h', hsize⟩

theorem queueRun_fifo_two : ∃ q',
    runAll (queueStep fun _ => true) (queueCircularAlloc 0 false) [.push 1, .push 2, .pop] =
        some ((fifoRun 0 [] [.push 1, .push 2, .pop]).1, q') ∧
      QueueHolds q' (fifoRun 0 [] [.push 1, .push 2, .pop]).2 ∧
      queueSize q' = (fifoRun 0 [] [.push 1, .push 2, .pop]).2.length := by
  refine queueRun_fifo (fun _ => true) (fun _ => rfl) 0 false [.push 1, .push 2, .pop]
    ⟨Or.inl rfl, ?_⟩
  rintro r q ⟨⟩
  exact ⟨Or.inr ⟨_, _, rfl, rfl, by decide⟩, fun _ _ _ => ⟨trivial, fun _ _ _ => trivial⟩⟩

/-- The second push on a circular queue of one element uses a node that is on the pool. A
push after the first pop from a full node stores behind its last slot. -/
theorem queueRun_stuck :
    runAll (queueStep fun _ => true) (queueCircularAlloc 1 false) [.push 1, .push 2] = none ∧
    runAll (queueStep fun _ => true) (queueCircularAlloc 0 false)
      (List.replicate 64 (.push 1) ++ [.pop, .push 2]) = none :=
  ⟨rfl, Option.isNone_iff_eq_none.mp (by decide +kernel)⟩

end Carthage
