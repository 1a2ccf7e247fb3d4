import Carthage.CacheIndex
import Carthage.DoublyLinked

/-!
# The lists of the cache

The recency list is doubly linked, the list of the retained nodes only forwards. Every node is
on one of the two.
-/

namespace Carthage

variable {K V : Type} {args : CacheArgs K V} {c c' c'' : DataCache K V} {rs ks as bs : List ℕ}
  {es fs : List (CacheEntry K V)} {e : CacheEntry K V} {key : K} {data : V} {a b : ℕ}
  {n m : CNode K V} {p q : Option ℕ}

/-- The `next` and `prev` fields as links. -/
def CNode.links (K V : Type) : LinkPair ℕ (CNode K V) where
  next := ⟨CNode.next, fun q n => { n with next := q }, fun _ _ => rfl⟩
  prev := ⟨CNode.prev, fun q n => { n with prev := q }, fun _ _ => rfl⟩
  next_prev _ _ := rfl
  prev_next _ _ := rfl

def CNode.unlinked (n : CNode K V) : Option ℕ × K × V × ℕ := (n.hash, n.key, n.data, n.retain)

namespace DataCache

structure Listed (c : DataCache K V) (rs ks : List ℕ) : Prop where
  recent : (CNode.links K V).Doubly c.heap c.head c.tail rs
  retained : (CNode.links K V).next.Chain c.heap c.retained ks
  nodup : (rs ++ ks).Nodup
  front : ∀ a ∈ ks, ∀ n, c.heap a = some n → n.prev = none
  mem : ∀ a n, c.heap a = some n → a ∈ rs ++ ks

def Carries (c : DataCache K V) (as : List ℕ) (es : List (CacheEntry K V)) : Prop :=
  as.map (fun a => (c.heap a).map CNode.entry) = es.map some

/-- The two caches differ at most in the links of the lists. -/
structure Relinked (c c' : DataCache K V) : Prop where
  same : c' = { c with
    head := c'.head, tail := c'.tail, retained := c'.retained, heap := c'.heap }
  unlinked : ∀ a, (c'.heap a).map CNode.unlinked = (c.heap a).map CNode.unlinked

/-! ## Entries -/

theorem Carries.congr (h : c.Carries as es)
    (heq : ∀ a ∈ as, (c'.heap a).map CNode.entry = (c.heap a).map CNode.entry) :
    c'.Carries as es := by
  unfold Carries at h ⊢
  rw [← h]
  exact List.map_congr_left heq

theorem Carries.congr_eq (h : c.Carries as es) (heq : ∀ a ∈ as, c'.heap a = c.heap a) :
    c'.Carries as es :=
  h.congr fun a ha => by rw [heq a ha]

theorem Carries.length (h : c.Carries as es) : as.length = es.length := by
  have hlen := congrArg List.length h
  rwa [List.length_map, List.length_map] at hlen

theorem carries_append (h : c.Carries as es) (h' : c.Carries bs fs) :
    c.Carries (as ++ bs) (es ++ fs) := by
  unfold Carries at h h' ⊢
  rw [List.map_append, List.map_append, h, h']

theorem carries_cons (hn : c.heap a = some n) (h : c.Carries as es) :
    c.Carries (a :: as) (n.entry :: es) := by
  unfold Carries at h ⊢
  rw [List.map_cons, List.map_cons, h, hn]
  rfl

theorem Carries.split (h : c.Carries (as ++ a :: bs) es) (hn : c.heap a = some n) :
    ∃ l₁ l₂, es = l₁ ++ n.entry :: l₂ ∧ c.Carries as l₁ ∧ c.Carries bs l₂ := by
  unfold Carries at h
  rw [List.map_append, List.map_cons] at h
  obtain ⟨l₁, l, rfl, h₁, h₂⟩ := List.append_eq_map_iff.mp h
  obtain ⟨e, l₂, rfl, he, h₃⟩ := List.map_eq_cons_iff.mp h₂
  rw [hn] at he
  obtain rfl : e = n.entry := Option.some.inj he
  exact ⟨l₁, l₂, rfl, h₁.symm, h₃.symm⟩

theorem Carries.mem (h : c.Carries as es) (ha : a ∈ as) (hn : c.heap a = some n) :
    n.entry ∈ es := by
  obtain ⟨xs, ys, rfl⟩ := List.append_of_mem ha
  obtain ⟨l₁, l₂, rfl, -⟩ := h.split hn
  exact List.mem_append_right l₁ List.mem_cons_self

theorem Carries.exists_node (h : c.Carries as es) (he : e ∈ es) :
    ∃ a ∈ as, ∃ n, c.heap a = some n ∧ n.entry = e := by
  have hmem : some e ∈ es.map some := List.mem_map_of_mem he
  rw [← h] at hmem
  obtain ⟨a, ha, heq⟩ := List.mem_map.mp hmem
  obtain ⟨n, hn, hentry⟩ := Option.map_eq_some_iff.mp heq
  exact ⟨a, ha, n, hn, hentry⟩

theorem update_map {α : Type} (obs : CNode K V → α) (hn : c.heap a = some n) (hobs : obs m = obs n)
    (b : ℕ) : (Function.update c.heap a (some m) b).map obs = (c.heap b).map obs := by
  by_cases hb : b = a
  · subst hb
    rw [Function.update_self, hn]
    exact congrArg some hobs
  · rw [Function.update_of_ne hb]

/-! ## Relinking -/

theorem Relinked.entry (h : Relinked c c') (a : ℕ) :
    (c'.heap a).map CNode.entry = (c.heap a).map CNode.entry :=
  map_eq_of_map (h.unlinked a) (fun x => (⟨x.2.1, x.2.2.1, x.2.2.2⟩ : CacheEntry K V))

theorem Relinked.search (h : Relinked c c') : SameSearch c c' := by
  refine ⟨?_, ?_, ?_, fun a => map_eq_of_map (h.unlinked a) (fun x => (x.1, x.2.1))⟩
  · rw [h.same]
  · rw [h.same]
  · rw [h.same]

theorem Relinked.trans (h : Relinked c c') (h' : Relinked c' c'') : Relinked c c'' := by
  refine ⟨?_, fun a => (h'.unlinked a).trans (h.unlinked a)⟩
  rw [h'.same, h.same]

theorem Relinked.alive (h : Relinked c c') (hn : c.heap a = some n) :
    ∃ n', c'.heap a = some n' ∧ n'.unlinked = n.unlinked := by
  have heq := h.unlinked a
  rw [hn] at heq
  exact Option.map_eq_some_iff.mp heq

theorem modify_eq (hn : c.heap a = some n) (f : CNode K V → CNode K V) :
    c.modify a f = some { c with heap := Function.update c.heap a (some (f n)) } := by
  simp only [modify, hn, Option.bind_eq_bind, Option.bind_some, Option.pure_def]

theorem relink_eq {F : LinkField ℕ (CNode K V)} (hn : c.heap a = some n) (q : Option ℕ) :
    Function.update c.heap a (some (F.set q n)) = F.relink c.heap a q := by
  unfold LinkField.relink
  rw [hn]
  rfl

theorem modifyIf_eq (F : LinkField ℕ (CNode K V)) (hp : ∀ a, p = some a → ∃ n, c.heap a = some n)
    (q : Option ℕ) : c.modifyIf p (F.set q) = some { c with heap := F.relinkIf c.heap p q } := by
  cases p with
  | none => rfl
  | some a =>
      obtain ⟨n, hn⟩ := hp a rfl
      have hmod := modify_eq hn (F.set q)
      rw [relink_eq hn q] at hmod
      exact hmod

theorem relinked_relinkIf {F : LinkField ℕ (CNode K V)}
    (hF : ∀ q n, (F.set q n).unlinked = n.unlinked) (p q : Option ℕ) :
    Relinked c { c with heap := F.relinkIf c.heap p q } := by
  refine ⟨rfl, fun b => ?_⟩
  cases p with
  | none => rfl
  | some a => exact LinkField.relink_map CNode.unlinked hF b

/-- The links of a node to its own: it is put in front of the recency list. -/
theorem pushFront_spec (h : (CNode.links K V).Doubly c.heap c.head c.tail rs)
    (hn : c.heap a = some n) (ha : a ∉ rs) : ∃ c₁ c₂,
      c.modifyIf c.head (fun m => { m with prev := some a }) = some c₁ ∧
      cachePushFront c₁ a = some c₂ ∧ Relinked c c₂ ∧ c₂.retained = c.retained ∧
      (CNode.links K V).Doubly c₂.heap c₂.head c₂.tail (a :: rs) ∧
      ∀ b ∉ a :: rs, c₂.heap b = c.heap b := by
  have hhead : ∀ y, c.head = some y → y ∈ rs ∧ ∃ m, c.heap y = some m := by
    intro y hy
    have hmem : y ∈ rs := by
      rw [h.head_eq] at hy
      exact List.mem_of_head? hy
    exact ⟨hmem, h.next.alive hmem⟩
  let c₁ : DataCache K V := { c with
    heap := (CNode.links K V).prev.relinkIf c.heap c.head (some a) }
  have hkeep : ∀ b ∉ rs, c₁.heap b = c.heap b := by
    intro b hb
    cases hc : c.head with
    | none =>
        simp only [c₁, hc]
        rfl
    | some y =>
        have hne : b ≠ y := by
          rintro rfl
          exact hb (hhead b hc).1
        simp only [c₁, hc]
        exact LinkField.relink_of_ne hne
  have hn₁ : c₁.heap a = some n := (hkeep a ha).trans hn
  let n₂ : CNode K V := { n with next := c.head, prev := none }
  let c₂ : DataCache K V := { c₁ with
    heap := Function.update c₁.heap a (some n₂), head := some a,
    tail := if c.tail = none then some a else c.tail }
  refine ⟨c₁, c₂, modifyIf_eq (CNode.links K V).prev (fun y hy => (hhead y hy).2) (some a), ?_,
    ⟨rfl, fun b => ?_⟩, rfl, ?_, fun b hb => ?_⟩
  · unfold cachePushFront
    simp only [modify_eq hn₁, Option.bind_eq_bind, Option.bind_some, Option.pure_def]
    rfl
  · have hrel := relinked_relinkIf (c := c) (F := (CNode.links K V).prev) (fun _ _ => rfl) c.head
      (some a)
    rw [← hrel.unlinked b]
    by_cases hb : b = a
    · subst hb
      change (Function.update c₁.heap b (some n₂) b).map _ = (c₁.heap b).map _
      rw [Function.update_self, hn₁]
      rfl
    · change (Function.update c₁.heap a (some n₂) b).map _ = (c₁.heap b).map _
      rw [Function.update_of_ne hb]
  · apply h.pushFront ha (n := n₂) (Function.update_self a _ c₁.heap) rfl rfl
    intro b hb
    have hne : b ≠ a := fun he => ha (he ▸ hb)
    exact Function.update_of_ne hne _ _
  · rw [List.mem_cons, not_or] at hb
    exact (Function.update_of_ne hb.1 _ _).trans (hkeep b hb.2)

theorem unlink_spec (h : (CNode.links K V).Doubly c.heap c.head c.tail rs) (ha : a ∈ rs)
    (hn : c.heap a = some n) (hprev : n.prev ≠ none) (hnext : n.next ≠ none) :
    ∃ as bs c', rs = as ++ a :: bs ∧ cacheUnlink c n = some c' ∧ Relinked c c' ∧
      c'.retained = c.retained ∧ (CNode.links K V).Doubly c'.heap c'.head c'.tail (as ++ bs) ∧
      ∀ b ∉ as ++ bs, c'.heap b = c.heap b := by
  obtain ⟨as, x, y, bs, rfl⟩ := h.between ha hn hprev hnext
  obtain ⟨hx, hy⟩ := h.links hn
  have hxy : ∀ z ∈ as ++ x :: a :: y :: bs, ∃ m, c.heap z = some m := fun z hz => h.next.alive hz
  obtain ⟨m, hm⟩ := hxy x (by simp)
  let c₁ : DataCache K V := { c with
    heap := (CNode.links K V).next.relinkIf c.heap (some x) (some y) }
  let c₂ : DataCache K V := { c₁ with
    heap := (CNode.links K V).prev.relinkIf c₁.heap (some y) (some x) }
  have hrel₁ : Relinked c c₁ := relinked_relinkIf (fun _ _ => rfl) (some x) (some y)
  have hrel₂ : Relinked c₁ c₂ := relinked_relinkIf (fun _ _ => rfl) (some y) (some x)
  refine ⟨as ++ [x], y :: bs, c₂, ?_, ?_, hrel₁.trans hrel₂, rfl, ?_, fun b hb => ?_⟩
  · rw [List.append_assoc, List.singleton_append]
  · have h₁ := modifyIf_eq (c := c) (p := some x) (CNode.links K V).next
      (fun z hz => ⟨m, by rw [← Option.some.inj hz]; exact hm⟩) (some y)
    have h₂ := modifyIf_eq (c := c₁) (p := some y) (CNode.links K V).prev (fun z hz => by
      obtain ⟨k, hk⟩ := hxy y (by simp)
      obtain ⟨k', hk', -⟩ := hrel₁.alive hk
      exact ⟨k', by rw [← Option.some.inj hz]; exact hk'⟩) (some x)
    unfold cacheUnlink
    rw [show n.prev = some x from hx, show n.next = some y from hy]
    change (c.modifyIf (some x) ((CNode.links K V).next.set (some y))).bind _ = _
    rw [h₁, Option.bind_some]
    exact h₂
  · rw [List.append_assoc, List.singleton_append]
    exact h.unlink
  · rw [List.append_assoc, List.singleton_append] at hb
    have hbx : b ≠ x := by
      rintro rfl
      exact hb (by simp)
    have hby : b ≠ y := by
      rintro rfl
      exact hb (by simp)
    change (CNode.links K V).prev.relink c₁.heap y (some x) b = c.heap b
    rw [LinkField.relink_of_ne hby]
    exact LinkField.relink_of_ne hbx

/-- The node that a purge takes off the list. -/
def victim (args : CacheArgs K V) (c : DataCache K V) : Option ℕ :=
  match args.type with
  | .lru => c.tail
  | .mru => c.head

variable (args) in
theorem victim_spec (h : (CNode.links K V).Doubly c.heap c.head c.tail rs)
    (hne : c.head ≠ c.tail) : ∃ a rs' c', c.victim args = some a ∧
      cacheVictim args c = some (a, c') ∧ Relinked c c' ∧ c'.retained = c.retained ∧
      (args.type = .lru ∧ rs = rs' ++ [a] ∨ args.type = .mru ∧ rs = a :: rs') ∧
      (CNode.links K V).Doubly c'.heap c'.head c'.tail rs' ∧
      ∀ b ∉ rs', c'.heap b = c.heap b := by
  cases htype : args.type with
  | mru =>
      obtain ⟨a, y, bs, rfl⟩ := h.exists_pair hne
      have hhead : c.head = some a := h.head_eq
      obtain ⟨-, n, hn, hy, m, hm, -⟩ := h.next
      have hnext : n.next = some y := hy
      let c₁ : DataCache K V := { c with head := some y }
      let c' : DataCache K V := { c₁ with
        heap := (CNode.links K V).prev.relink c.heap y none }
      have hrel : Relinked c { c with heap := (CNode.links K V).prev.relink c.heap y none } :=
        relinked_relinkIf (fun _ _ => rfl) (some y) none
      have hmod := modify_eq (c := c₁) hm ((CNode.links K V).prev.set none)
      rw [relink_eq (c := c₁) hm none] at hmod
      refine ⟨a, y :: bs, c', ?_, ?_, ⟨rfl, hrel.unlinked⟩, rfl, Or.inr ⟨rfl, rfl⟩, ?_,
        fun b hb => ?_⟩
      · unfold victim
        rw [htype]
        exact hhead
      · unfold cacheVictim
        simp only [htype, hhead, hn, hnext, Option.bind_eq_bind, Option.bind_some]
        change (c₁.modify y ((CNode.links K V).prev.set none)).bind _ = _
        rw [hmod]
        rfl
      · exact h.dropFirst
      · have hby : b ≠ y := by
          rintro rfl
          exact hb List.mem_cons_self
        exact LinkField.relink_of_ne hby
  | lru =>
      obtain ⟨a, x, ds, hrev⟩ := h.flip.exists_pair hne.symm
      obtain rfl : rs = ds.reverse ++ [x, a] := by
        rw [← List.reverse_reverse rs, hrev, List.reverse_cons, List.reverse_cons,
          List.append_assoc, List.singleton_append]
      have htail : c.tail = some a := by
        rw [h.tail_eq]
        simp
      have hback := h.prev
      rw [hrev] at hback
      obtain ⟨-, n, hn, hx, m, hm, -⟩ := hback
      have hprev : n.prev = some x := hx
      let c₁ : DataCache K V := { c with tail := some x }
      let c' : DataCache K V := { c₁ with
        heap := (CNode.links K V).next.relink c.heap x none }
      have hrel : Relinked c { c with heap := (CNode.links K V).next.relink c.heap x none } :=
        relinked_relinkIf (fun _ _ => rfl) (some x) none
      have hmod := modify_eq (c := c₁) hm ((CNode.links K V).next.set none)
      rw [relink_eq (c := c₁) hm none] at hmod
      refine ⟨a, ds.reverse ++ [x], c', ?_, ?_, ⟨rfl, hrel.unlinked⟩, rfl, Or.inl ⟨rfl, ?_⟩, ?_,
        fun b hb => ?_⟩
      · unfold victim
        rw [htype]
        exact htail
      · unfold cacheVictim
        simp only [htype, htail, hn, hprev, Option.bind_eq_bind, Option.bind_some]
        change (c₁.modify x ((CNode.links K V).next.set none)).bind _ = _
        rw [hmod]
        rfl
      · rw [List.append_assoc, List.singleton_append]
      · exact h.dropLast
      · have hbx : b ≠ x := by
          rintro rfl
          exact hb (by simp)
        exact LinkField.relink_of_ne hbx

end DataCache

end Carthage
