import Mathlib.Data.List.Perm.Subperm
import Carthage.QueueFifo

/-!
# What a queue frees

Every item that is pushed is popped by the user, dropped by a full circular queue, or still
queued. `item_free` is called on the second and the third kind, provided that nothing was
taken from the first node when the queue is freed.
-/

namespace Carthage

variable {α : Type} {granted : ℕ → Bool} {q q' : Queue α} {n : QueueNode α}
  {ss : List (ℕ × List α)} {xs ys gone gone' : List α} {a : ℕ} {x : α} {rc : ℤ} {p : Option ℕ}

/-- Where the items went. -/
structure QueueLog (α : Type) where
  queued : List α
  popped : List α
  dropped : List α

/-- A push on a full circular queue drops the oldest item, whether it finds a slot or not. -/
inductive LogStep (circular : ℕ) : QueueLog α → QueueOp α × QueueResult α → QueueLog α → Prop
  | push (l : QueueLog α) (x : α) (rc : ℤ) : LogStep circular l (.push x, .pushed rc)
      ⟨(if l.queued.length = circular then l.queued.tail else l.queued) ++ pushedItem rc x, l.popped,
        l.dropped ++ if l.queued.length = circular then l.queued.take 1 else []⟩
  | pop (l : QueueLog α) : LogStep circular l (.pop, .popped l.queued.head?)
      ⟨l.queued.tail, l.popped ++ l.queued.take 1, l.dropped⟩

def QueueLog.all (l : QueueLog α) : List α := l.popped ++ l.dropped ++ l.queued

/-- The item of a push. -/
def QueueOp.items : QueueOp α → List α
  | .push x => [x]
  | .pop => []

/-- Only the first node has slots that were emptied, and their items are gone. -/
structure QueueSpent (q : Queue α) (gone : List α) : Prop where
  first : ∀ a n, q.store.nodes a = some n → q.head ≠ some a → n.offset = 0
  slots : ∀ a n, q.store.nodes a = some n → ∀ i < n.offset, ∃ x ∈ gone, n.items i = some x

/-- Nothing was taken from the first node. -/
def Queue.Unspent (q : Queue α) : Prop :=
  ∀ a n, q.head = some a → q.store.nodes a = some n → n.offset = 0

/-- What `item_free` is called on when a node is freed. -/
def QueueNode.calls (n : QueueNode α) : List (Option α) := (List.range n.used).reverse.map n.items

theorem queueNodeFree_calls (q : Queue α) (a : ℕ) (n : QueueNode α) :
    ∃ keep poolSize, queueNodeFree q a n = { q with
      store := q.store.give keep a, poolSize := poolSize,
      released := if q.itemFree then q.released ++ n.calls else q.released } := by
  unfold queueNodeFree
  by_cases hpool : q.poolSize < 8
  · exact ⟨true, _, if_pos hpool⟩
  · exact ⟨false, _, if_neg hpool⟩

/-! ## Emptied slots -/

namespace QueueSpent

theorem mono (h : QueueSpent q gone) (hsub : gone ⊆ gone') : QueueSpent q gone' := by
  refine ⟨h.first, fun a n hn i hi => ?_⟩
  obtain ⟨x, hx, hitem⟩ := h.slots a n hn i hi
  exact ⟨x, hsub hx, hitem⟩

theorem put (h : QueueSpent q gone) (hhead : q'.head = q.head)
    (hstore : q'.store = q.store.put a n) (hfirst : q.head ≠ some a → n.offset = 0)
    (hslots : ∀ i < n.offset, ∃ x ∈ gone, n.items i = some x) : QueueSpent q' gone := by
  constructor
  · intro b m hm hb
    rw [hstore] at hm
    rw [hhead] at hb
    rcases eq_or_ne b a with rfl | hne
    · rw [NodeStore.put_self] at hm
      obtain rfl := Option.some.inj hm
      exact hfirst hb
    · rw [NodeStore.put_of_ne hne] at hm
      exact h.first b m hm hb
  · intro b m hm
    rw [hstore] at hm
    rcases eq_or_ne b a with rfl | hne
    · rw [NodeStore.put_self] at hm
      obtain rfl := Option.some.inj hm
      exact hslots
    · rw [NodeStore.put_of_ne hne] at hm
      exact h.slots b m hm

/-- Nodes come with no emptied slots. -/
theorem alloc (h : QueueSpent q gone) (granted : ℕ → Bool) {r : Option ℕ}
    (halloc : queueNodeAlloc granted q = (r, q')) :
    QueueSpent q' gone ∧ q'.head = q.head ∧ q'.released = q.released ∧ q'.itemFree = q.itemFree := by
  have hcases : q'.head = q.head ∧ q'.released = q.released ∧ q'.itemFree = q.itemFree ∧
      (q'.store.nodes = q.store.nodes ∨ ∃ a,
        q'.store.nodes = Function.update q.store.nodes a (some ⟨none, fun _ => none, 0, 0⟩)) := by
    unfold queueNodeAlloc NodeStore.take at halloc
    split at halloc
    · obtain ⟨-, rfl⟩ := Prod.mk.inj halloc
      exact ⟨rfl, rfl, rfl, Or.inl rfl⟩
    · next a store htake =>
        have hnodes : store.nodes =
            Function.update q.store.nodes a (some ⟨none, fun _ => none, 0, 0⟩) := by
          split at htake
          · obtain ⟨rfl, rfl⟩ := Prod.mk.inj (Option.some.inj htake)
            rfl
          · split_ifs at htake
            obtain ⟨rfl, rfl⟩ := Prod.mk.inj (Option.some.inj htake)
            rfl
        split_ifs at halloc <;> obtain ⟨-, rfl⟩ := Prod.mk.inj halloc <;>
          exact ⟨rfl, rfl, rfl, Or.inr ⟨a, hnodes⟩⟩
  obtain ⟨hhead, hrel, hfree, hsame | ⟨a, hnodes⟩⟩ := hcases
  · refine ⟨⟨fun b n hn hb => ?_, fun b n hn => ?_⟩, hhead, hrel, hfree⟩
    · exact h.first b n (hsame ▸ hn) (hhead ▸ hb)
    · exact h.slots b n (hsame ▸ hn)
  · have hback : ∀ b n, q'.store.nodes b = some n → n.offset = 0 ∨ q.store.nodes b = some n :=
      fun b n hn => by
        rw [hnodes] at hn
        rcases eq_or_ne b a with rfl | hne
        · rw [Function.update_self] at hn
          obtain rfl := Option.some.inj hn
          exact Or.inl rfl
        · rw [Function.update_of_ne hne] at hn
          exact Or.inr hn
    refine ⟨⟨fun b n hn hb => ?_, fun b n hn i hi => ?_⟩, hhead, hrel, hfree⟩
    · rcases hback b n hn with hz | hn
      · exact hz
      · exact h.first b n hn (hhead ▸ hb)
    · rcases hback b n hn with hz | hn
      · omega
      · exact h.slots b n hn i hi

theorem pushItem (h : QueueSpent q gone) (hfirst : q.head ≠ some a → n.offset = 0)
    (hslots : ∀ i < n.offset, ∃ x ∈ gone, n.items i = some x)
    (hpush : queuePushItem q a n x = some (rc, q')) :
    QueueSpent q' gone ∧ q'.released = q.released ∧ q'.itemFree = q.itemFree := by
  unfold queuePushItem at hpush
  split_ifs at hpush
  obtain ⟨-, rfl⟩ := Prod.mk.inj (Option.some.inj hpush)
  refine ⟨h.put rfl rfl hfirst (fun i hi => ?_), rfl, rfl⟩
  obtain ⟨y, hy, hitem⟩ := hslots i hi
  have hlt : i < n.offset := hi
  have hne : i ≠ n.offset + n.used := by omega
  exact ⟨y, hy, (Function.update_of_ne hne _ _).trans hitem⟩

theorem pushTail (h : QueueSpent q gone) (hpush : queuePushTail granted q x = some (rc, q')) :
    QueueSpent q' gone ∧ q'.released = q.released ∧ q'.itemFree = q.itemFree := by
  unfold queuePushTail at hpush
  obtain ⟨a, -, hpush⟩ := Option.bind_eq_some_iff.mp hpush
  obtain ⟨n, hn, hpush⟩ := Option.bind_eq_some_iff.mp hpush
  split_ifs at hpush
  · split at hpush
    · next q₁ halloc =>
        obtain ⟨-, rfl⟩ := Prod.mk.inj (Option.some.inj hpush)
        obtain ⟨h₁, -, hrel, hfree⟩ := h.alloc granted halloc
        exact ⟨h₁, hrel, hfree⟩
    · next b q₁ halloc =>
        obtain ⟨m, hm, hpush⟩ := Option.bind_eq_some_iff.mp hpush
        obtain ⟨h₁, hhead, hrel, hfree⟩ := h.alloc granted halloc
        let q₂ : Queue α :=
          { q₁ with store := q₁.store.put a { n with next := some b }, tail := some b }
        have h₂ : QueueSpent q₂ gone :=
          h₁.put rfl rfl (fun ha => h.first a n hn (hhead ▸ ha)) (h.slots a n hn)
        obtain ⟨h', hrel', hfree'⟩ := h₂.pushItem (h₁.first b m hm) (h₁.slots b m hm) hpush
        exact ⟨h', hrel'.trans hrel, hfree'.trans hfree⟩
  · exact h.pushItem (h.first a n hn) (h.slots a n hn) hpush

/-- A pop empties a slot of the first node, or frees that node. -/
theorem pop (h : QueueSpent q gone) {y : Option α} (hpop : queuePop q = some (y, q')) :
    QueueSpent q' (gone ++ y.toList) ∧ q'.released = q.released ∧ q'.itemFree = q.itemFree := by
  unfold queuePop at hpop
  split_ifs at hpop
  · obtain ⟨rfl, rfl⟩ := Prod.mk.inj (Option.some.inj hpop)
    exact ⟨h.mono (List.subset_append_left _ _), rfl, rfl⟩
  obtain ⟨a, ha, hpop⟩ := Option.bind_eq_some_iff.mp hpop
  obtain ⟨n, hn, hpop⟩ := Option.bind_eq_some_iff.mp hpop
  by_cases hlt : n.offset < 64
  swap
  · simp only [if_neg hlt] at hpop
    cases hpop
  simp only [if_pos hlt] at hpop
  obtain ⟨x, hitem, hpop⟩ := Option.bind_eq_some_iff.mp hpop
  let n' : QueueNode α := { n with offset := n.offset + 1, used := (n.used + 255) % 256 }
  let q₁ : Queue α := { q with store := q.store.put a n', nitems := q.nitems - 1 }
  have h₁ : QueueSpent q₁ (gone ++ [x]) := by
    refine (h.mono (List.subset_append_left gone [x])).put rfl rfl (fun hne => absurd ha hne) ?_
    intro i hi
    have hle : i < n.offset + 1 := hi
    rcases Nat.lt_succ_iff_lt_or_eq.mp hle with hlt | rfl
    · obtain ⟨z, hz, hiz⟩ := h.slots a n hn i hlt
      exact ⟨z, List.mem_append_left [x] hz, hiz⟩
    · exact ⟨x, List.mem_append_right gone (List.mem_singleton_self x), hitem⟩
  split_ifs at hpop with hused
  · obtain ⟨rfl, rfl⟩ := Prod.mk.inj (Option.some.inj hpop)
    obtain ⟨keep, poolSize, hfree⟩ := queueNodeFree_calls { q₁ with head := n.next } a n'
    have hcalls : n'.calls = [] := by
      have hz : n'.used = 0 := hused
      unfold QueueNode.calls
      rw [hz]
      rfl
    have hback : ∀ b m, (q₁.store.give keep a).nodes b = some m → b ≠ a ∧ q₁.store.nodes b = some m :=
      fun b m hm => by
        rcases eq_or_ne b a with rfl | hne
        · rw [NodeStore.give_self] at hm
          cases hm
        · rw [NodeStore.give_of_ne hne] at hm
          exact ⟨hne, hm⟩
    change QueueSpent (queueNodeFree { q₁ with head := n.next } a n') _ ∧
      (queueNodeFree { q₁ with head := n.next } a n').released = _ ∧
      (queueNodeFree { q₁ with head := n.next } a n').itemFree = _
    rw [hfree, hcalls, List.append_nil, ite_self]
    refine ⟨⟨fun b m hm _ => ?_, fun b m hm => ?_⟩, rfl, rfl⟩
    · obtain ⟨hne, hm⟩ := hback b m hm
      apply h₁.first b m hm
      change q.head ≠ some b
      rw [ha]
      exact fun heq => hne (Option.some.inj heq).symm
    · exact h₁.slots b m (hback b m hm).2
  · obtain ⟨rfl, rfl⟩ := Prod.mk.inj (Option.some.inj hpop)
    exact ⟨h₁, rfl, rfl⟩

theorem push (h : QueueSpent q gone) (hfree : q.itemFree = true) (hhead : q.head = none ∨ ¬ q.Full)
    (hpush : queuePush granted q x = some (rc, q')) :
    QueueSpent q' gone ∧ q'.released = q.released ∧ q'.itemFree = true := by
  unfold queuePush at hpush
  split at hpush
  · split at hpush
    · next q₁ halloc =>
        obtain ⟨-, rfl⟩ := Prod.mk.inj (Option.some.inj hpush)
        obtain ⟨h₁, -, hrel, hfree₁⟩ := h.alloc granted halloc
        exact ⟨h₁, hrel, hfree₁.trans hfree⟩
    · next hnone _ a q₁ halloc =>
        obtain ⟨h₁, hhead₁, hrel, hfree₁⟩ := h.alloc granted halloc
        have h₂ : QueueSpent { q₁ with head := some a, tail := some a } gone := by
          refine ⟨fun b n hn _ => h₁.first b n hn ?_, h₁.slots⟩
          rw [hhead₁, hnone]
          exact (Option.some_ne_none b).symm
        obtain ⟨h', hrel', hfree'⟩ := h₂.pushTail hpush
        exact ⟨h', hrel'.trans hrel, hfree'.trans (hfree₁.trans hfree)⟩
  · next b hsome =>
      rw [if_neg (hhead.resolve_left (by rw [hsome]; exact Option.some_ne_none b))] at hpush
      obtain ⟨h', hrel', hfree'⟩ := h.pushTail hpush
      exact ⟨h', hrel', hfree'.trans hfree⟩

theorem pushFull (h : QueueSpent q gone) (hfree : q.itemFree = true) (hhead : q.head ≠ none)
    (hfull : q.Full) (hpush : queuePush granted q x = some (rc, q')) {y : Option α} {q₁ : Queue α}
    (hpop : queuePop q = some (y, q₁)) :
    QueueSpent q' (gone ++ y.toList) ∧ q'.released = q.released ++ [y] ∧ q'.itemFree = true := by
  obtain ⟨h₁, hrel₁, hfree₁⟩ := h.pop hpop
  obtain ⟨b, hsome⟩ := Option.ne_none_iff_exists'.mp hhead
  have hitem : q₁.itemFree = true := hfree₁.trans hfree
  simp only [queuePush, hsome, if_pos hfull, hpop, Option.bind_eq_bind, Option.bind_some,
    if_pos hitem] at hpush
  have h₂ : QueueSpent { q₁ with released := q₁.released ++ [y] } (gone ++ y.toList) :=
    ⟨h₁.first, h₁.slots⟩
  obtain ⟨h', hrel', hfree'⟩ := h₂.pushTail hpush
  exact ⟨h', hrel'.trans (congrArg (· ++ [y]) hrel₁), hfree'.trans hitem⟩

end QueueSpent

/-! ## Freeing the queue -/

/-- What `item_free` is called on when the node at `a` is freed. -/
def Queue.calls (q : Queue α) (a : ℕ) : List (Option α) :=
  match q.store.nodes a with
  | some n => n.calls
  | none => []

theorem queueFreeLoop_spec (hnodes : Segments (QueueNode.link α) QueueNode.Carries q.store.nodes p ss)
    (hfree : q.itemFree = true) {m : ℕ} (hm : ss.length ≤ m) :
    ∃ q', queueFreeLoop m p q = some q' ∧
      q'.released = q.released ++ ss.flatMap fun s => q.calls s.1 := by
  induction ss generalizing p q m with
  | nil =>
      obtain rfl := hnodes.start
      refine ⟨q, by unfold queueFreeLoop; rfl, ?_⟩
      rw [List.flatMap_nil, List.append_nil]
  | cons s ss ih =>
      obtain ⟨a, ys⟩ := s
      obtain ⟨rfl, ha, n, hn, -, hrest⟩ := Segments.cons_iff.mp hnodes
      obtain ⟨m, rfl⟩ := Nat.exists_eq_succ_of_ne_zero (Nat.ne_of_gt (Nat.lt_of_lt_of_le
        (Nat.succ_pos _) hm))
      obtain ⟨keep, poolSize, hnode⟩ := queueNodeFree_calls q a n
      rw [if_pos hfree] at hnode
      let q₁ : Queue α := { q with
        store := q.store.give keep a, poolSize := poolSize, released := q.released ++ n.calls }
      have hrest₁ : Segments (QueueNode.link α) QueueNode.Carries q₁.store.nodes n.next ss :=
        hrest.update ha none
      obtain ⟨q', hloop, hrel⟩ := ih (q := q₁) hrest₁ hfree (Nat.le_of_succ_le_succ hm)
      refine ⟨q', ?_, ?_⟩
      · unfold queueFreeLoop
        simp only [hn, hnode, Option.bind_eq_bind, Option.bind_some]
        exact hloop
      · have hcalls : q.calls a = n.calls := by
          unfold Queue.calls
          rw [hn]
        have hsame : (ss.flatMap fun s => q₁.calls s.1) = ss.flatMap fun s => q.calls s.1 := by
          apply List.flatMap_congr
          intro s hs
          have hne : s.1 ≠ a := fun heq => ha (heq ▸ List.mem_map_of_mem hs)
          unfold Queue.calls
          rw [NodeStore.give_of_ne hne]
        rw [hrel, hsame, List.flatMap_cons, hcalls]
        exact List.append_assoc _ _ _

theorem QueueNode.Carries.calls (h : n.Carries xs) (hoff : n.offset = 0) :
    n.calls.Perm (xs.map some) := by
  have hslots : (List.range n.used).map n.items = xs.map some := by
    apply List.ext_getElem
    · rw [List.length_map, List.length_map, List.length_range, h.used]
    · intro i hi hi'
      have hlt : i < xs.length := by simpa using hi'
      have hitem := h.items i hlt
      rw [hoff, Nat.zero_add] at hitem
      rw [List.getElem_map, List.getElem_range, hitem, List.getElem_map]
      exact List.getElem?_eq_getElem hlt
  unfold QueueNode.calls
  rw [List.map_reverse, hslots]
  exact List.reverse_perm _

theorem queueFree_spec (h : QueueShape q ss) (hfree : q.itemFree = true) :
    ∃ q', queueFree q = some q' ∧
      q'.released = q.released ++ ss.flatMap fun s => q.calls s.1 := by
  have hlen : ss.length ≤ q.store.fresh := by
    have hsub : ss.map Prod.fst ⊆ List.range q.store.fresh := by
      intro a ha
      rw [List.mem_range]
      by_contra hge
      exact h.nodes.notMem (h.sound.fresh_dead a (by omega)) ha
    simpa using (h.nodes.nodup.subperm hsub).length_le
  obtain ⟨q', hloop, hrel⟩ := queueFreeLoop_spec h.nodes hfree hlen
  refine ⟨{ q' with store := { q'.store with pool := [] } }, ?_, hrel⟩
  unfold queueFree
  simp only [hloop, Option.bind_eq_bind, Option.bind_some, Option.pure_def]

/-! ## Runs -/

/-- The queue holds what the log says, and `item_free` was called on what was dropped. -/
structure QueueOwns (circular : ℕ) (q : Queue α) (l : QueueLog α) : Prop where
  holds : QueueHolds q l.queued
  spent : QueueSpent q (l.popped ++ l.dropped)
  released : q.released = l.dropped.map some
  itemFree : q.itemFree = true
  circular : q.circular = circular

theorem queueOwns_alloc (circular : ℕ) :
    QueueOwns circular (queueCircularAlloc (α := α) circular true) ⟨[], [], []⟩ :=
  ⟨queueHolds_alloc circular true, ⟨fun _ _ hn => (nomatch hn), fun _ _ hn => (nomatch hn)⟩,
    rfl, rfl, rfl⟩

variable {circular : ℕ} {l l' : QueueLog α} {op : QueueOp α} {r : QueueResult α}

theorem QueueOwns.pop (h : QueueOwns circular q l) : ∃ q' l',
    queuePop q = some (l.queued.head?, q') ∧
      LogStep circular l (.pop, .popped l.queued.head?) l' ∧ QueueOwns circular q' l' := by
  obtain ⟨q', hpop, hholds, hcirc⟩ := queuePop_holds h.holds
  obtain ⟨hspent, hrel, hfree⟩ := h.spent.pop hpop
  refine ⟨q', _, hpop, .pop l, hholds, hspent.mono ?_, hrel.trans h.released,
    hfree.trans h.itemFree, hcirc.trans h.circular⟩
  rw [List.take_one]
  intro x hx
  simp only [List.mem_append] at hx ⊢
  tauto

theorem QueueOwns.push (granted : ℕ → Bool) (h : QueueOwns circular q l)
    (hfit : (QueueOp.push x).Fits q) : ∃ rc q' l', queuePush granted q x = some (rc, q') ∧
      LogStep circular l (.push x, .pushed rc) l' ∧ QueueOwns circular q' l' := by
  obtain ⟨rc, q', hpush, hholds, hcirc, -⟩ := queuePush_holds granted h.holds hfit
  obtain ⟨-, -, -, -, hsize⟩ := id h.holds
  rw [h.circular] at hholds hcirc
  refine ⟨rc, q', _, hpush, .push l x rc, ?_⟩
  by_cases hfull : q.head ≠ none ∧ q.Full
  · obtain ⟨hcap, hpos⟩ := hfull.2
    rw [h.circular] at hcap
    have hlen : l.queued.length = circular := hsize.symm.trans hcap
    obtain ⟨y, ys, hys⟩ := List.exists_cons_of_length_pos (hsize ▸ hpos)
    obtain ⟨q₁, hpop, -⟩ := queuePop_holds h.holds
    obtain ⟨hspent, hrel, hfree⟩ := h.spent.pushFull h.itemFree hfull.1 hfull.2 hpush hpop
    rw [if_pos hlen, if_pos hlen, List.take_one]
    rw [if_pos hlen] at hholds
    refine ⟨hholds, ?_, ?_, hfree, hcirc⟩
    · rwa [List.append_assoc] at hspent
    · rw [hrel, h.released, hys, List.map_append]
      rfl
  · have hnone : q.head = none ∨ ¬ q.Full := by tauto
    have htake : (if l.queued.length = circular then l.queued.take 1 else []) = [] := by
      split_ifs with hlen
      · rcases hnone with hhead | hnfull
        · rw [(queuePush_first (x := x) granted h.holds hhead).1, List.take_nil]
        · rw [List.take_eq_nil_iff]
          right
          apply List.eq_nil_of_length_eq_zero
          by_contra hne
          exact hnfull ⟨by rw [hsize, hlen, h.circular], by omega⟩
      · rfl
    obtain ⟨hspent, hrel, hfree⟩ := h.spent.push h.itemFree hnone hpush
    rw [htake, List.append_nil]
    exact ⟨hholds, hspent, hrel.trans h.released, hfree, hcirc⟩

theorem queueStep_owns (granted : ℕ → Bool) (h : QueueOwns circular q l) (hfit : op.Fits q) :
    ∃ r q' l', queueStep granted q op = some (r, q') ∧ LogStep circular l (op, r) l' ∧
      QueueOwns circular q' l' := by
  cases op with
  | push x =>
      obtain ⟨rc, q', l', hpush, hlog, h'⟩ := h.push granted hfit
      refine ⟨.pushed rc, q', l', ?_, hlog, h'⟩
      simp only [queueStep, hpush, Option.bind_eq_bind, Option.bind_some, Option.pure_def]
  | pop =>
      obtain ⟨q', l', hpop, hlog, h'⟩ := h.pop
      refine ⟨_, q', l', ?_, hlog, h'⟩
      simp only [queueStep, hpop, Option.bind_eq_bind, Option.bind_some, Option.pure_def]

theorem LogStep.subperm (h : LogStep circular l (op, r) l') :
    l'.all.Subperm (l.all ++ op.items) := by
  have hsplit : (l.queued : Multiset α) = l.queued.take 1 + l.queued.tail := by
    rw [← List.drop_one, Multiset.coe_add, List.take_append_drop]
  have hitem : ∀ rc x, ((pushedItem rc x : List α) : Multiset α) ≤ ([x] : List α) := fun rc x => by
    unfold pushedItem
    split_ifs
    · exact le_rfl
    · exact Multiset.zero_le _
  unfold QueueLog.all
  rw [← Multiset.coe_le]
  simp only [← Multiset.coe_add]
  rw [hsplit]
  cases h with
  | pop =>
      simp only [QueueOp.items, ← Multiset.coe_add, Multiset.coe_nil, add_zero]
      apply le_of_eq
      abel
  | push x rc =>
      have hle := add_le_add_right (hitem rc x)
        (l.popped + l.dropped + (l.queued.take 1 + l.queued.tail) : Multiset α)
      simp only [QueueOp.items, ← Multiset.coe_add]
      refine le_trans (le_of_eq ?_) hle
      split_ifs
      · abel
      · rw [hsplit, Multiset.coe_nil]
        abel

theorem logRun_subperm {ls : List (QueueOp α × QueueResult α)} (h : Run (LogStep circular) l ls l') :
    l'.all.Subperm (l.all ++ (ls.map Prod.fst).flatMap QueueOp.items) := by
  induction h with
  | nil l =>
      rw [List.map_nil, List.flatMap_nil, List.append_nil]
  | @cons _ _ _ label _ hstep _ ih =>
      obtain ⟨op, r⟩ := label
      apply ih.trans
      rw [List.map_cons, List.flatMap_cons, ← List.append_assoc]
      exact (List.subperm_append_right _).mpr hstep.subperm

/-- The nodes of a queue from which nothing was taken hand over what is queued. -/
theorem QueueOwns.calls (h : QueueOwns circular q l) : ∃ ss, QueueShape q ss ∧
    (q.Unspent → (ss.flatMap fun s => q.calls s.1).Perm (l.queued.map some)) ∧
    (¬ q.Unspent → ∃ x ∈ l.popped ++ l.dropped,
      some x ∈ ss.flatMap fun s => q.calls s.1) := by
  obtain ⟨ss, hshape, hne, hflat, -⟩ := h.holds
  have hcalls : ∀ s ∈ ss, ∃ n, q.store.nodes s.1 = some n ∧ n.Carries s.2 ∧
      q.calls s.1 = n.calls := fun s hs => by
    obtain ⟨n, hn, hc⟩ := hshape.nodes.carries s hs
    refine ⟨n, hn, hc, ?_⟩
    unfold Queue.calls
    rw [hn]
  refine ⟨ss, hshape, fun hun => ?_, fun hsp => ?_⟩
  · rw [← hflat, ← List.flatMap_def, List.map_flatMap]
    apply List.Perm.flatMap_left
    intro s hs
    obtain ⟨n, hn, hc, heq⟩ := hcalls s hs
    rw [heq]
    apply hc.calls
    by_cases hhead : q.head = some s.1
    · exact hun s.1 n hhead hn
    · exact h.spent.first s.1 n hn hhead
  · unfold Queue.Unspent at hsp
    push Not at hsp
    obtain ⟨a, n, ha, hn, hoff⟩ := hsp
    obtain ⟨x, hx, hitem⟩ := h.spent.slots a n hn 0 (Nat.pos_of_ne_zero hoff)
    refine ⟨x, hx, ?_⟩
    have hstart := hshape.nodes.start
    rw [ha] at hstart
    obtain ⟨s, hs, rfl⟩ := List.mem_map.mp (List.mem_of_head? hstart.symm)
    obtain ⟨m, hm, hc, heq⟩ := hcalls s hs
    obtain rfl := Option.some.inj (hn.symm.trans hm)
    rw [List.mem_flatMap]
    refine ⟨s, hs, ?_⟩
    have hpos : 0 < n.used := by
      rw [hc.used]
      exact List.length_pos_of_ne_nil (hne s hs)
    rw [heq, ← hitem]
    unfold QueueNode.calls
    apply List.mem_map_of_mem
    rw [List.mem_reverse, List.mem_range]
    exact hpos

/-- The callback is called once on each item that was dropped or is still queued, if nothing
was taken from the first node; else it is called again on an item that is gone. -/
theorem queueRun_frees (granted : ℕ → Bool) (circular : ℕ) (ops : List (QueueOp α))
    (hm : Meets (queueStep granted) (fun q op => op.Fits q) (queueCircularAlloc circular true) ops) :
    ∃ rs q l q', runAll (queueStep granted) (queueCircularAlloc circular true) ops = some (rs, q) ∧
      Run (LogStep circular) ⟨[], [], []⟩ (ops.zip rs) l ∧ queueFree q = some q' ∧
      (q.Unspent → q'.released.Perm ((l.dropped ++ l.queued).map some)) ∧
      ((ops.flatMap QueueOp.items).Nodup →
        q'.released.Perm ((l.dropped ++ l.queued).map some) → q.Unspent) := by
  obtain ⟨rs, q, l, hrun, hlen, hlog, h⟩ := runAll_simulates (QueueOwns circular)
    (LogStep circular) (fun _ _ _ h hfit => queueStep_owns granted h hfit)
    (queueOwns_alloc circular) hm
  obtain ⟨ss, hshape, hun, hsp⟩ := h.calls
  obtain ⟨q', hfree, hrel⟩ := queueFree_spec hshape h.itemFree
  rw [h.released] at hrel
  refine ⟨rs, q, l, q', hrun, hlog, hfree, fun hu => ?_, fun hnd hperm => ?_⟩
  · rw [hrel, List.map_append]
    exact (hun hu).append_left _
  · by_contra hnu
    obtain ⟨x, hgone, hx⟩ := hsp hnu
    rw [hrel, List.map_append, List.perm_append_left_iff] at hperm
    have hqueued : x ∈ l.queued := by
      obtain ⟨y, hy, heq⟩ := List.mem_map.mp (hperm.mem_iff.mp hx)
      rwa [← Option.some.inj heq]
    have hsub := logRun_subperm hlog
    rw [List.map_fst_zip (by omega)] at hsub
    obtain ⟨all, hperm', hsub'⟩ := hsub
    have hall : l.all.Nodup := hperm'.nodup_iff.mp (hsub'.nodup (by simpa [QueueLog.all] using hnd))
    exact List.disjoint_of_nodup_append hall hgone hqueued

theorem queueRun_frees_two : ∃ rs q l q',
    runAll (queueStep fun _ => true) (queueCircularAlloc 2 true) [.pop, .push 1, .push 2, .push 3] = some (rs, q) ∧
      Run (LogStep 2) ⟨[], [], []⟩ ([QueueOp.pop, .push 1, .push 2, .push 3].zip rs) l ∧
      queueFree q = some q' ∧
      (q.Unspent → q'.released.Perm ((l.dropped ++ l.queued).map some)) ∧
      (([QueueOp.pop, .push 1, .push 2, .push 3].flatMap QueueOp.items).Nodup →
        q'.released.Perm ((l.dropped ++ l.queued).map some) → q.Unspent) := by
  refine queueRun_frees (fun _ => true) 2 [.pop, .push 1, .push 2, .push 3] ⟨trivial, ?_⟩
  rintro r q ⟨⟩
  refine ⟨Or.inl rfl, ?_⟩
  rintro r q ⟨⟩
  refine ⟨Or.inr ⟨_, _, rfl, rfl, Or.inl (by decide)⟩, ?_⟩
  rintro r q ⟨⟩
  exact ⟨Or.inr ⟨_, _, rfl, rfl, by decide, Or.inl (by decide)⟩, fun _ _ _ => trivial⟩

/-- After a pop, freeing the queue frees the item that was popped, and not the queued one. -/
theorem queueRun_frees_popped : ∃ q q',
    runAll (queueStep fun _ => true) (queueCircularAlloc 0 true) [.push 1, .push 2, .pop] =
        some ([.pushed 0, .pushed 0, .popped (some 1)], q) ∧
      queueFree q = some q' ∧ q'.released = [some 1] :=
  ⟨_, _, rfl, rfl, rfl⟩

end Carthage
