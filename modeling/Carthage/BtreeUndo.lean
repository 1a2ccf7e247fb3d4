import Carthage.BtreeTwig

/-!
# Taking a split back

`__btree_insert_node` merges the halves of a twig again when the new half cannot be linked. The
separators come back, but the in-memory pointers of the upper half are lost.
-/

namespace Carthage

/-- A block that is a twig, with no in-memory pointers but those to its children. -/
structure BareNode {K : Type} (cfg : Config) (node : BtNode K) (level : ℕ)
    (children : List (ℕ × K)) where
  crc : ℕ
  twig : TwigPage K
  pointers : List (Option ℕ)
  data : node.data = some ⟨crc, level, .twig twig⟩
  keys : twig.entries.map Prod.fst = children.map Prod.snd
  array : node.pointers = some pointers
  linked : ∀ i n : ℕ, pointers[i]? = some (some n) → ∃ c : ℕ × K, children[i]? = some c ∧ c.1 = n
  keeps : cfg.Keeps node

/-- A block that is a twig, where separators may be lowered and pointers may be lost. -/
structure TornNode {K : Type} [LE K] (cfg : Config) (node : BtNode K) (level : ℕ)
    (children : List (ℕ × K)) where
  crc : ℕ
  twig : TwigPage K
  pointers : List (Option ℕ)
  data : node.data = some ⟨crc, level, .twig twig⟩
  items : twig.entries.length = children.length
  lower : ∀ (i : ℕ) (e : K × NodePointer) (c : ℕ × K),
    twig.entries[i]? = some e → children[i]? = some c → e.1 ≤ c.2
  array : node.pointers = some pointers
  linked : ∀ (i n : ℕ) (c : ℕ × K), pointers[i]? = some (some n) → children[i]? = some c → c.1 = n
  keeps : cfg.Keeps node

namespace Btree

variable {K D : Type} {s s' : Btree K D} {x f level i n : ℕ} {key : K} {child : ℕ} {c : ℕ × K}
  {cs c1 c2 cl cr : List (ℕ × K)} {pointers : List (Option ℕ)}

def BareAt (s : Btree K D) (x level : ℕ) (cs : List (ℕ × K)) : Prop :=
  ∃ node, s.heap x = some node ∧ Nonempty (BareNode s.config node level cs)

def TornAt [LE K] (s : Btree K D) (x level : ℕ) (cs : List (ℕ × K)) : Prop :=
  ∃ node, s.heap x = some node ∧ Nonempty (TornNode s.config node level cs)

theorem BareAt.frame (h : BareAt s x level cs) (hc : s'.config = s.config)
    (hx : s'.heap x = s.heap x) : BareAt s' x level cs := by
  rwa [BareAt, hc, hx]

theorem TornAt.frame [LE K] (h : TornAt s x level cs) (hc : s'.config = s.config)
    (hx : s'.heap x = s.heap x) : TornAt s' x level cs := by
  rwa [TornAt, hc, hx]

theorem BareAt.page (h : BareAt s x level cs) :
    ∃ page, s.page x = some page ∧ page.level = level := by
  obtain ⟨node, hx, ⟨t⟩⟩ := h
  refine ⟨⟨t.crc, level, .twig t.twig⟩, ?_, rfl⟩
  simp only [Btree.page, hx, t.data, Option.bind_eq_bind, Option.bind_some]

theorem BareAt.resident (h : BareAt s x level cs) : ResidentAt s x := by
  obtain ⟨node, hx, ⟨t⟩⟩ := h
  exact ⟨node, hx, by rw [t.data]; rfl, t.keeps⟩

theorem TornAt.resident [LE K] (h : TornAt s x level cs) : ResidentAt s x := by
  obtain ⟨node, hx, ⟨t⟩⟩ := h
  exact ⟨node, hx, by rw [t.data]; rfl, t.keeps⟩

theorem TornAt.lower [Preorder K] {ρ : ℕ × K → ℕ × K} (h : TornAt s x level (cs.map ρ))
    (hname : ∀ c ∈ cs, (ρ c).1 = c.1) (hle : ∀ c ∈ cs, (ρ c).2 ≤ c.2) : TornAt s x level cs := by
  obtain ⟨node, hx, ⟨t⟩⟩ := h
  have hat : ∀ {i c}, cs[i]? = some c → (cs.map ρ)[i]? = some (ρ c) := fun hc => by
    rw [List.getElem?_map, hc, Option.map_some]
  refine ⟨node, hx, ⟨t.crc, t.twig, t.pointers, t.data, ?_, fun i e c he hc => ?_, t.array,
    fun i n c hp hc => ?_, t.keeps⟩⟩
  · rw [t.items, List.length_map]
  · exact (t.lower i e (ρ c) he (hat hc)).trans (hle c (List.mem_of_getElem? hc))
  · rw [← hname c (List.mem_of_getElem? hc)]
    exact t.linked i n (ρ c) hp (hat hc)

/-! ## The operations -/

theorem moveSlots_getElem? (pointers : List (Option ℕ)) {dst src n : ℕ} (hd : dst ≤ pointers.length)
    (hs : src + n ≤ pointers.length) (j : ℕ) :
    (moveSlots pointers dst src n)[j]? =
      if dst ≤ j ∧ j < dst + n then pointers[j - dst + src]? else pointers[j]? := by
  have hlen : ((pointers.drop src).take n).length = n := by
    rw [List.length_take, List.length_drop]
    omega
  rw [moveSlots, List.append_assoc, List.getElem?_append, List.length_take, Nat.min_eq_left hd]
  by_cases hj : j < dst
  · rw [if_pos hj, List.getElem?_take_of_lt hj, if_neg (by omega)]
  rw [if_neg hj, List.getElem?_append, hlen]
  by_cases hn : j - dst < n
  · rw [if_pos hn, List.getElem?_take_of_lt hn, List.getElem?_drop, if_pos (by omega),
      Nat.add_comm src]
  · rw [if_neg hn, List.getElem?_drop, if_neg (by omega)]
    congr 1
    omega

theorem twigInsertChild_bare (h : BareAt s x level (c1 ++ c2))
    (hrun : s.twigInsertChild x c1.length key child = some s') :
    BareAt s' x level (c1 ++ (child, key) :: c2) := by
  obtain ⟨node, hx, ⟨t⟩⟩ := h
  have hlen : t.twig.entries.length = (c1 ++ c2).length := by
    simpa using congrArg List.length t.keys
  have hn : (c1 ++ c2).length - c1.length = c2.length := by simp
  have hsum : (c1 ++ c2).length = c1.length + c2.length := List.length_append
  simp only [twigInsertChild, twigInsert, hx, t.data, t.array, Page.twig?, hlen, hn,
    Option.bind_eq_bind, Option.bind_some] at hrun
  split_ifs at hrun with hfits
  swap
  · cases hrun
  simp only [Option.pure_def, Option.bind_some, setPointer, putTwig, setNode_heap_self,
    setNode_setNode, Option.bind_eq_bind] at hrun
  split_ifs at hrun with hplace
  obtain rfl := Option.some.inj hrun
  refine ⟨_, setNode_heap_self _ _ _, ⟨⟨t.crc, _, _, rfl, ?_, rfl, fun i n hp => ?_, Or.inl rfl⟩⟩⟩
  · have hmid := insertIdx_middle (c1.map Prod.snd) (c2.map Prod.snd) key
    rw [List.length_map] at hmid
    rw [List.map_insertIdx, t.keys, List.map_append, hmid, List.map_append, List.map_cons]
  · rw [List.getElem?_set] at hp
    split_ifs at hp with hi
    · obtain rfl := Option.some.inj (Option.some.inj hp)
      exact ⟨(child, key), by simp [← hi], rfl⟩
    · rw [moveSlots_getElem? t.pointers (by omega) (by omega)] at hp
      split_ifs at hp with hmoved
      · obtain ⟨c, hc, hcn⟩ := t.linked _ n hp
        refine ⟨c, ?_, hcn⟩
        rw [← hc, List.getElem?_append_right (by omega), List.getElem?_append_right (by omega)]
        have hstep : i - c1.length = i - (c1.length + 1) + c1.length - c1.length + 1 := by omega
        rw [hstep, List.getElem?_cons_succ]
      · obtain ⟨c, hc, hcn⟩ := t.linked i n hp
        have hlt : i < c1.length := by
          have := (List.getElem?_eq_some_iff.mp hc).1
          omega
        refine ⟨c, ?_, hcn⟩
        rw [← hc, List.getElem?_append_left hlt, List.getElem?_append_left hlt]

theorem twigSplit_bare {rnode : BtNode K} {E : Prop} (h : TwigAt E s x level (cl ++ cr))
    (hr : TwigIn E s f level []) (hf : s.heap f = some rnode)
    (hnew : rnode.pointers = some (List.replicate n none))
    (hfull : (cl ++ cr).length = s.super.fanout) (hhalf : cl.length = (cl ++ cr).length / 2)
    (hne : f ≠ x) (hrun : s.twigSplit x f = some s') :
    BareAt s' x level cl ∧ BareAt s' f level cr := by
  obtain ⟨lnode, hx, ⟨l⟩⟩ := h
  obtain ⟨rnode', hf', ⟨r⟩⟩ := hr
  obtain rfl := Option.some.inj (hf.symm.trans hf')
  have hlen : l.twig.entries.length = (cl ++ cr).length := by
    simpa using congrArg List.length l.keys
  have hsum : (cl ++ cr).length = cl.length + cr.length := List.length_append
  have hright : (cl ++ cr).length - cl.length = cr.length := by omega
  have hF : l.pointers.length = (cl ++ cr).length := l.length.trans hfull.symm
  have hnames : l.pointers = (cl ++ cr).map (fun z => some z.1) := by
    rw [← l.linked, ← hF, List.take_length]
  have hat : ∀ {i n : ℕ}, l.pointers[i]? = some (some n) → ∃ c, (cl ++ cr)[i]? = some c ∧ c.1 = n := by
    intro i n hp
    rw [hnames, List.getElem?_map, Option.map_eq_some_iff] at hp
    obtain ⟨c, hc, hcn⟩ := hp
    exact ⟨c, hc, Option.some.inj hcn⟩
  have hnone : ∀ {m i k : ℕ}, (List.replicate m (none : Option ℕ))[i]? ≠ some (some k) := by
    intro m i k hp
    cases List.eq_of_mem_replicate (List.mem_of_getElem? hp)
  simp only [twigSplit, hx, hf, l.data, r.data, l.array, hnew, Page.twig?, hlen, ← hhalf, hright,
    Option.bind_eq_bind, Option.bind_some] at hrun
  split_ifs at hrun
  obtain rfl := Option.some.inj hrun
  refine ⟨⟨_, setNode_heap_self _ _ _, ⟨⟨l.crc, _, _, rfl, ?_, rfl, fun i n hp => ?_, Or.inl rfl⟩⟩⟩,
    ⟨_, (setNode_heap_ne _ hne _).trans (setNode_heap_self _ _ _),
      ⟨⟨r.crc, _, _, rfl, ?_, rfl, fun i n hp => ?_, Or.inl rfl⟩⟩⟩⟩
  · rw [List.map_take, l.keys, List.map_append, List.take_left' (List.length_map _)]
  · rw [List.drop_of_length_le hF.le, List.append_nil, List.getElem?_append, List.length_take,
      Nat.min_eq_left (by omega)] at hp
    split_ifs at hp with hlt
    · rw [List.getElem?_take_of_lt hlt] at hp
      obtain ⟨c, hc, hcn⟩ := hat hp
      exact ⟨c, by rwa [List.getElem?_append_left hlt] at hc, hcn⟩
    · exact absurd hp hnone
  · rw [List.map_drop, l.keys, List.map_append, List.drop_left' (List.length_map _)]
  · have hlen' : ((l.pointers.drop cl.length).take cr.length).length = cr.length := by
      rw [List.length_take, List.length_drop]
      omega
    rw [List.getElem?_append, hlen'] at hp
    split_ifs at hp with hlt
    · rw [List.getElem?_take_of_lt hlt, List.getElem?_drop] at hp
      obtain ⟨c, hc, hcn⟩ := hat hp
      rw [List.getElem?_append_right (Nat.le_add_right _ _), Nat.add_sub_cancel_left] at hc
      exact ⟨c, hc, hcn⟩
    · rw [List.drop_replicate] at hp
      exact absurd hp hnone

/-- One of the halves `y` and `f` of a twig with the children `cs` has taken in another child, at
index `i` of `target`. -/
inductive Undoable (s : Btree K D) (level y f : ℕ) : ℕ → ℕ → List (ℕ × K) → Prop
  | left {c1 c2 cr : List (ℕ × K)} {c : ℕ × K} : BareAt s y level (c1 ++ c :: c2) →
      BareAt s f level cr → Undoable s level y f y c1.length (c1 ++ c2 ++ cr)
  | right {c1 c2 cl : List (ℕ × K)} {c : ℕ × K} : BareAt s y level cl →
      BareAt s f level (c1 ++ c :: c2) → Undoable s level y f f c1.length (cl ++ (c1 ++ c2))

theorem Undoable.frame {y target : ℕ} (h : Undoable s level y f target i cs)
    (hc : s'.config = s.config) (hy : s'.heap y = s.heap y) (hf : s'.heap f = s.heap f) :
    Undoable s' level y f target i cs := by
  cases h with
  | left h1 h2 => exact .left (h1.frame hc hy) (h2.frame hc hf)
  | right h1 h2 => exact .right (h1.frame hc hy) (h2.frame hc hf)

end Btree

end Carthage
