import Carthage.LinkedChain

/-!
# Stores of list nodes

A store holds the live nodes of a list by address. A node that is freed goes on a pool, to
be taken again before a new one is allocated, or back to the allocator. `Segments` says
that a chain of live nodes carries a sequence of pieces, one a node.
-/

namespace Carthage

structure NodeStore (N : Type) where
  nodes : ℕ → Option N
  pool : List ℕ
  /-- Addresses from here on were never allocated. -/
  fresh : ℕ

namespace NodeStore

variable {N : Type} {s s' : NodeStore N} {a : ℕ} {n m : N}

def empty (N : Type) : NodeStore N := ⟨fun _ => none, [], 0⟩

/-- A node from the pool, else a new one when the allocator grants it. -/
def take (s : NodeStore N) (granted : Bool) (n : N) : Option (ℕ × NodeStore N) :=
  match s.pool with
  | a :: pool => some (a, { s with nodes := Function.update s.nodes a (some n), pool := pool })
  | [] =>
      if granted then some (s.fresh,
        { s with nodes := Function.update s.nodes s.fresh (some n), fresh := s.fresh + 1 })
      else none

def put (s : NodeStore N) (a : ℕ) (n : N) : NodeStore N :=
  { s with nodes := Function.update s.nodes a (some n) }

/-- Free a node, to the pool if `keep`. -/
def give (s : NodeStore N) (keep : Bool) (a : ℕ) : NodeStore N :=
  { s with nodes := Function.update s.nodes a none, pool := if keep then a :: s.pool else s.pool }

theorem put_self (s : NodeStore N) (a : ℕ) (n : N) : (s.put a n).nodes a = some n :=
  Function.update_self _ _ _

theorem put_of_ne {b : ℕ} (hb : b ≠ a) (s : NodeStore N) (n : N) :
    (s.put a n).nodes b = s.nodes b :=
  Function.update_of_ne hb _ _

theorem give_self (s : NodeStore N) (keep : Bool) (a : ℕ) : (s.give keep a).nodes a = none :=
  Function.update_self _ _ _

theorem give_of_ne {b : ℕ} (hb : b ≠ a) (s : NodeStore N) (keep : Bool) :
    (s.give keep a).nodes b = s.nodes b :=
  Function.update_of_ne hb _ _

/-- Nodes on the pool, and addresses not allocated yet, are not live. -/
structure Sound (s : NodeStore N) : Prop where
  pool_nodup : s.pool.Nodup
  pool_dead : ∀ a ∈ s.pool, s.nodes a = none ∧ a < s.fresh
  fresh_dead : ∀ a, s.fresh ≤ a → s.nodes a = none

theorem sound_empty : (empty N).Sound :=
  ⟨List.nodup_nil, fun _ ha => (nomatch ha), fun _ _ => rfl⟩

theorem take_granted (s : NodeStore N) (n : N) : ∃ a s', s.take true n = some (a, s') := by
  unfold take
  split
  · exact ⟨_, _, rfl⟩
  · exact ⟨_, _, rfl⟩

theorem take_pool_nil (hpool : s.pool = []) {granted : Bool}
    (ht : s.take granted n = some (a, s')) : s'.pool = [] := by
  unfold take at ht
  rw [hpool] at ht
  split_ifs at ht
  obtain ⟨-, rfl⟩ := Prod.mk.inj (Option.some.inj ht)
  rfl

theorem Sound.take (h : s.Sound) {granted : Bool} (ht : s.take granted n = some (a, s')) :
    s.nodes a = none ∧ s'.nodes = Function.update s.nodes a (some n) ∧ s'.Sound := by
  unfold NodeStore.take at ht
  split at ht
  · next b pool hpool =>
      obtain ⟨rfl, rfl⟩ := Prod.mk.inj (Option.some.inj ht)
      have hnd := h.pool_nodup
      rw [hpool, List.nodup_cons] at hnd
      obtain ⟨hdead, hlt⟩ := h.pool_dead b (by rw [hpool]; exact List.mem_cons_self)
      refine ⟨hdead, rfl, hnd.2, fun d hd => ?_, fun d hd => ?_⟩
      · have hne : d ≠ b := fun he => hnd.1 (he ▸ hd)
        obtain ⟨hd1, hd2⟩ := h.pool_dead d (by rw [hpool]; exact List.mem_cons_of_mem b hd)
        exact ⟨(Function.update_of_ne hne _ _).trans hd1, hd2⟩
      · have hfresh : s.fresh ≤ d := hd
        have hne : d ≠ b := by omega
        exact (Function.update_of_ne hne _ _).trans (h.fresh_dead d hfresh)
  · next hpool =>
      split_ifs at ht
      obtain ⟨rfl, rfl⟩ := Prod.mk.inj (Option.some.inj ht)
      refine ⟨h.fresh_dead s.fresh le_rfl, rfl, h.pool_nodup, fun d hd => ?_, fun d hd => ?_⟩
      · have hd' : d ∈ s.pool := hd
        rw [hpool] at hd'
        cases hd'
      · have hfresh : s.fresh + 1 ≤ d := hd
        have hne : d ≠ s.fresh := by omega
        exact (Function.update_of_ne hne _ _).trans (h.fresh_dead d (by omega))

theorem Sound.put (h : s.Sound) (ha : s.nodes a = some n) : (s.put a m).Sound := by
  refine ⟨h.pool_nodup, fun d hd => ?_, fun d hd => ?_⟩
  · obtain ⟨hd1, hd2⟩ := h.pool_dead d hd
    have hne : d ≠ a := by rintro rfl; simp [hd1] at ha
    exact ⟨(Function.update_of_ne hne _ _).trans hd1, hd2⟩
  · have hd1 := h.fresh_dead d hd
    have hne : d ≠ a := by rintro rfl; simp [hd1] at ha
    exact (Function.update_of_ne hne _ _).trans hd1

theorem Sound.give (h : s.Sound) (ha : s.nodes a = some n) (keep : Bool) :
    (s.give keep a).Sound := by
  have hmem : a ∉ s.pool := fun hp => by simp [(h.pool_dead a hp).1] at ha
  have hlt : a < s.fresh := by
    by_contra hge
    simp [h.fresh_dead a (by omega)] at ha
  have hdead : ∀ d, s.nodes d = none → (s.give keep a).nodes d = none := fun d hd => by
    rcases eq_or_ne d a with rfl | hne
    · exact Function.update_self _ _ _
    · exact (Function.update_of_ne hne _ _).trans hd
  refine ⟨?_, fun d hd => ?_, fun d hd => hdead d (h.fresh_dead d hd)⟩
  · cases keep with
    | true => exact List.nodup_cons.mpr ⟨hmem, h.pool_nodup⟩
    | false => exact h.pool_nodup
  · have hcases : d = a ∨ d ∈ s.pool := by
      cases keep with
      | true => exact List.mem_cons.mp hd
      | false => exact Or.inr hd
    rcases hcases with rfl | hp
    · exact ⟨Function.update_self _ _ _, hlt⟩
    · exact ⟨hdead d (h.pool_dead d hp).1, (h.pool_dead d hp).2⟩

/-- Every node that was allocated is either one of `ns` or on the pool, and once. -/
def Placed (s : NodeStore N) (ns : List ℕ) : Prop := (ns ++ s.pool).Perm (List.range s.fresh)

theorem placed_empty : (empty N).Placed [] := List.Perm.nil

theorem Placed.take {ns : List ℕ} (h : s.Placed ns) {granted : Bool}
    (ht : s.take granted n = some (a, s')) : s'.Placed (ns ++ [a]) := by
  unfold NodeStore.take at ht
  unfold Placed at h ⊢
  split at ht
  · next b pool hpool =>
      obtain ⟨rfl, rfl⟩ := Prod.mk.inj (Option.some.inj ht)
      rw [hpool] at h
      rwa [List.append_assoc]
  · next hpool =>
      split_ifs at ht
      obtain ⟨rfl, rfl⟩ := Prod.mk.inj (Option.some.inj ht)
      rw [hpool, List.append_nil] at h
      change (ns ++ [s.fresh] ++ s.pool).Perm (List.range (s.fresh + 1))
      rw [hpool, List.append_nil, List.range_succ]
      exact h.append_right _

theorem Placed.give {ns : List ℕ} (h : s.Placed (a :: ns)) : (s.give true a).Placed ns :=
  List.perm_middle.trans h

end NodeStore

/-! ## Chains that carry pieces -/

/-- A chain of distinct nodes from `p`, each of which carries the piece beside its address. -/
structure Segments {N C : Type} (F : LinkField ℕ N) (R : N → C → Prop) (h : ℕ → Option N)
    (p : Option ℕ) (xs : List (ℕ × C)) : Prop where
  chain : F.Chain h p (xs.map Prod.fst)
  nodup : (xs.map Prod.fst).Nodup
  carries : ∀ x ∈ xs, ∃ n, h x.1 = some n ∧ R n x.2

namespace Segments

variable {N C : Type} {F : LinkField ℕ N} {R : N → C → Prop} {h h' : ℕ → Option N}
  {p : Option ℕ} {xs : List (ℕ × C)} {a b : ℕ} {x y : C} {n m : N}

theorem nil : Segments F R h none ([] : List (ℕ × C)) :=
  ⟨rfl, List.nodup_nil, fun _ hx => (nomatch hx)⟩

theorem start (hs : Segments F R h p xs) : p = (xs.map Prod.fst).head? := hs.chain.start_eq_head

theorem congr (hs : Segments F R h p xs) (heq : ∀ a ∈ xs.map Prod.fst, h' a = h a) :
    Segments F R h' p xs := by
  refine ⟨hs.chain.congr_eq heq, hs.nodup, fun x hx => ?_⟩
  rw [heq x.1 (List.mem_map_of_mem hx)]
  exact hs.carries x hx

theorem update (hs : Segments F R h p xs) (ha : a ∉ xs.map Prod.fst) (v : Option N) :
    Segments F R (Function.update h a v) p xs := by
  apply hs.congr
  intro b hb
  have hne : b ≠ a := fun he => ha (he ▸ hb)
  exact Function.update_of_ne hne _ _

theorem notMem (hs : Segments F R h p xs) (ha : h a = none) : a ∉ xs.map Prod.fst := by
  rintro hmem
  obtain ⟨z, hz, rfl⟩ := List.mem_map.mp hmem
  obtain ⟨n, hn, -⟩ := hs.carries z hz
  simp [ha] at hn

theorem cons_iff : Segments F R h p ((a, x) :: xs) ↔ p = some a ∧ a ∉ xs.map Prod.fst ∧
    ∃ n, h a = some n ∧ R n x ∧ Segments F R h (F.get n) xs := by
  constructor
  · rintro ⟨⟨rfl, n, hn, hrest⟩, hnd, hc⟩
    rw [List.map_cons, List.nodup_cons] at hnd
    obtain ⟨n', hn', hx⟩ := hc (a, x) List.mem_cons_self
    obtain rfl := Option.some.inj (hn.symm.trans hn')
    exact ⟨rfl, hnd.1, n, hn, hx, hrest, hnd.2, fun z hz => hc z (List.mem_cons_of_mem _ hz)⟩
  · rintro ⟨rfl, ha, n, hn, hx, hrest⟩
    refine ⟨⟨rfl, n, hn, hrest.chain⟩, List.nodup_cons.mpr ⟨ha, hrest.nodup⟩, fun z hz => ?_⟩
    rcases List.mem_cons.mp hz with rfl | hz
    · exact ⟨n, hn, hx⟩
    · exact hrest.carries z hz

theorem single (ha : h a = some n) (hx : R n x) (hn : F.get n = none) :
    Segments F R h (some a) [(a, x)] := by
  rw [cons_iff]
  exact ⟨rfl, List.not_mem_nil, n, ha, hx, hn ▸ nil⟩

theorem last (hs : Segments F R h p (xs ++ [(a, x)])) :
    a ∉ xs.map Prod.fst ∧ ∃ n, h a = some n ∧ R n x ∧ F.get n = none := by
  obtain ⟨hchain, hnd, hc⟩ := hs
  rw [List.map_append, List.map_singleton] at hchain hnd
  obtain ⟨-, n, hn, hnone⟩ := LinkField.path_concat.mp hchain
  obtain ⟨n', hn', hx⟩ := hc (a, x) (by simp)
  obtain rfl := Option.some.inj (hn.symm.trans hn')
  exact ⟨fun ha => (List.disjoint_of_nodup_append hnd) ha (List.mem_singleton_self a),
    n, hn, hx, hnone⟩

theorem put_last (hs : Segments F R h p (xs ++ [(a, x)])) (hy : R n y) (hn : F.get n = none) :
    Segments F R (Function.update h a (some n)) p (xs ++ [(a, y)]) := by
  obtain ⟨ha, -⟩ := hs.last
  obtain ⟨hchain, hnd, hc⟩ := hs
  rw [List.map_append, List.map_singleton] at hchain hnd
  obtain ⟨hpath, -⟩ := LinkField.path_concat.mp hchain
  refine ⟨?_, ?_, fun z hz => ?_⟩
  · rw [List.map_append, List.map_singleton]
    refine LinkField.path_concat.mpr ⟨?_, n, Function.update_self _ _ _, hn⟩
    apply hpath.congr_eq
    intro b hb
    have hne : b ≠ a := fun he => ha (he ▸ hb)
    exact Function.update_of_ne hne _ _
  · rwa [List.map_append, List.map_singleton]
  · rcases List.mem_append.mp hz with hz | hz
    · have hne : z.1 ≠ a := fun he => ha (he ▸ List.mem_map_of_mem hz)
      rw [Function.update_of_ne hne]
      exact hc z (List.mem_append_left _ hz)
    · obtain rfl := List.mem_singleton.mp hz
      exact ⟨n, Function.update_self _ _ _, hy⟩

theorem append_node (hs : Segments F R h p (xs ++ [(a, x)])) (hb : h b = none) (hn : R n x)
    (hget : F.get n = some b) (hm : R m y) (hnone : F.get m = none) :
    Segments F R (Function.update (Function.update h b (some m)) a (some n)) p
      (xs ++ [(a, x), (b, y)]) := by
  have hba : b ∉ (xs ++ [(a, x)]).map Prod.fst := hs.notMem hb
  obtain ⟨ha, -⟩ := hs.last
  have hne : b ≠ a := by
    rintro rfl
    exact hba (by simp)
  obtain ⟨hchain, hnd, hc⟩ := hs
  have hmap : (xs ++ [(a, x), (b, y)]).map Prod.fst = (xs ++ [(a, x)]).map Prod.fst ++ [b] := by
    simp
  have hbxs : b ∉ xs.map Prod.fst := fun hmem => hba (by simp [hmem])
  rw [List.map_append, List.map_singleton] at hchain
  obtain ⟨hpath, -⟩ := LinkField.path_concat.mp hchain
  refine ⟨?_, ?_, fun z hz => ?_⟩
  · rw [hmap, List.map_append, List.map_singleton]
    refine LinkField.path_concat.mpr
      ⟨LinkField.path_concat.mpr ⟨?_, n, Function.update_self _ _ _, hget⟩, m, ?_, hnone⟩
    · apply hpath.congr_eq
      intro d hd
      have hda : d ≠ a := fun he => ha (he ▸ hd)
      have hdb : d ≠ b := fun he => hbxs (he ▸ hd)
      rw [Function.update_of_ne hda, Function.update_of_ne hdb]
    · rw [Function.update_of_ne hne]
      exact Function.update_self _ _ _
  · rw [hmap]
    exact List.nodup_append_comm.mp (List.nodup_cons.mpr ⟨hba, hnd⟩)
  · rcases List.mem_append.mp hz with hz | hz
    · have hza : z.1 ≠ a := fun he => ha (he ▸ List.mem_map_of_mem hz)
      have hzb : z.1 ≠ b := fun he => hbxs (he ▸ List.mem_map_of_mem hz)
      rw [Function.update_of_ne hza, Function.update_of_ne hzb]
      exact hc z (List.mem_append_left _ hz)
    · rcases List.mem_pair.mp hz with rfl | rfl
      · exact ⟨n, Function.update_self _ _ _, hn⟩
      · exact ⟨m, by rw [Function.update_of_ne hne]; exact Function.update_self _ _ _, hm⟩

end Segments

end Carthage
