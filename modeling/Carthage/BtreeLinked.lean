import Carthage.BtreeInsertNode

/-!
# Trees seen from a level

A well-formed tree as the nodes of one level with what is under them and the twigs above,
and what `__btree_insert_node` makes of it: the new node stands in its place, with its own
nodes below it, and the tree is well-formed again.
-/

namespace Carthage

namespace Btree

variable {K D : Type} {s s' : Btree K D} {L A B M : List (K × List UInt8)}
  {xs ys zs pre post P Q : List (ℕ × K)} {lower low lA lB above : List (List (ℕ × K))}
  {z u : ℕ × K}

/-- The nodes `ys` of a level hold, in order, the items `L`; the levels under them are `lower`,
from the top down to the leaves. -/
def Under (s : Btree K D) (L : List (K × List UInt8)) :
    List (List (ℕ × K)) → List (ℕ × K) → Prop
  | [], ys => Leaves s L ys
  | zs :: lower, ys => Groups True s (lower.length + 2) zs ys ∧ Under s L lower zs

theorem LeafAt.not_twig {E : Prop} {x level : ℕ} (h : LeafAt s x L) :
    ¬ TwigAt E s x level xs := by
  intro ht
  obtain ⟨crc, leaf, hp, -⟩ := h.page
  obtain ⟨crc', twig, hp', -⟩ := ht.page
  rw [hp] at hp'
  cases hp'

namespace Under

theorem append (hA : Under s A lA P) (hB : Under s B lB Q) (hlen : lA.length = lB.length) :
    Under s (A ++ B) (List.zipWith (· ++ ·) lA lB) (P ++ Q) := by
  induction lA generalizing lB P Q with
  | nil =>
      obtain rfl := List.length_eq_zero_iff.mp hlen.symm
      exact Grouped.append hA hB
  | cons zs lA ih =>
      cases lB with
      | nil => simp at hlen
      | cons zs' lB =>
          have hlen' : lA.length = lB.length := Nat.succ_injective hlen
          have hzip : (List.zipWith (· ++ ·) lA lB).length = lA.length := by
            simp [hlen']
          refine ⟨?_, ih hA.2 hB.2 hlen'⟩
          rw [hzip]
          exact Grouped.append hA.1 (hlen' ▸ hB.1)

theorem split (h : Under s L lower (P ++ Q)) : ∃ A B lA lB, L = A ++ B ∧
    lA.length = lower.length ∧ lB.length = lower.length ∧
    lower = List.zipWith (· ++ ·) lA lB ∧ Under s A lA P ∧ Under s B lB Q := by
  induction lower generalizing P Q with
  | nil =>
      obtain ⟨A, B, rfl, hA, hB⟩ := Grouped.split_append h
      exact ⟨A, B, [], [], rfl, rfl, rfl, rfl, hA, hB⟩
  | cons zs lower ih =>
      obtain ⟨Z, Z', rfl, hZ, hZ'⟩ := Grouped.split_append h.1
      obtain ⟨A, B, lA, lB, rfl, hlA, hlB, rfl, hA, hB⟩ := ih h.2
      refine ⟨A, B, Z :: lA, Z' :: lB, rfl, congrArg (· + 1) hlA, congrArg (· + 1) hlB, rfl,
        ⟨?_, hA⟩, ?_, hB⟩
      · rwa [hlA]
      · rwa [hlB]

theorem eq_nil (h : Under s L lower []) : L = [] := by
  induction lower with
  | nil => exact Grouped.eq_nil h
  | cons zs lower ih =>
      obtain rfl := Grouped.eq_nil h.1
      exact ih h.2

theorem last (h : Under s L lower ys) (hu : ys.getLast? = some u) :
    ∃ w, L.getLast? = some w ∧ w.1 = u.2 := by
  induction lower generalizing ys u with
  | nil => exact Grouped.last h hu
  | cons zs lower ih =>
      obtain ⟨w, hw, hwu⟩ := Grouped.last h.1 hu
      obtain ⟨v, hv, hvw⟩ := ih h.2 hw
      exact ⟨v, hv, hvw.trans hwu⟩

theorem rooted (h : Under s L lower ys) : ∀ z ∈ ys, Rooted s (lower.length + 1) z.1 := by
  induction lower generalizing ys with
  | nil =>
      intro z hz
      obtain ⟨items, w, hl, -⟩ := Grouped.group h hz
      exact ⟨items, hl⟩
  | cons zs lower ih => exact h.1.rooted (Nat.succ_le_succ (Nat.zero_le _)) (ih h.2)

theorem same (h : Under s L lower ys) (hb : SameBelow (lower.length + 1) s s') :
    Under s' L lower ys := by
  induction lower generalizing ys with
  | nil =>
      exact Grouped.mono h fun y _ items hl => hb.leafAt le_rfl hl
  | cons zs lower ih =>
      refine ⟨h.1.mono fun y _ cs hc => hb.twigAt le_rfl hc, ih h.2 (hb.mono (Nat.le_succ _))⟩

theorem unique {L' : List (K × List UInt8)} {lower' : List (List (ℕ × K))} (h : Under s L lower ys)
    (h' : Under s L' lower' ys) (hne : ys ≠ []) : lower = lower' ∧ L = L' := by
  obtain ⟨u, hu⟩ := List.exists_mem_of_ne_nil ys hne
  induction lower generalizing ys lower' u with
  | nil =>
      cases lower' with
      | nil => exact ⟨rfl, Grouped.unique h h' fun _ _ _ hc hc' => hc.unique hc'⟩
      | cons zs lower' =>
          obtain ⟨items, -, hl, -⟩ := Grouped.group h hu
          obtain ⟨cs, -, hc, -⟩ := h'.1.group hu
          exact absurd hc hl.not_twig
  | cons zs lower ih =>
      obtain ⟨cs, w, hc, hw, -, hsub⟩ := h.1.group hu
      cases lower' with
      | nil =>
          obtain ⟨items, -, hl, -⟩ := Grouped.group h' hu
          exact absurd hc hl.not_twig
      | cons zs' lower' =>
          obtain rfl := Grouped.unique h.1 h'.1 fun _ _ _ hc hc' => (hc.unique hc').2
          have hwz := hsub w (List.mem_of_getLast? hw)
          obtain ⟨rfl, rfl⟩ := ih h.2 h'.2 (List.ne_nil_of_mem hwz) w hwz
          exact ⟨rfl, rfl⟩

variable [LinearOrder K]

theorem keys (h : Under s L lower ys) : ∀ z ∈ ys, s.lastKey z.1 = some z.2 := by
  cases lower with
  | nil =>
      intro z hz
      obtain ⟨items, w, hl, hw, hwz, -⟩ := Grouped.group h hz
      rw [← hwz]
      exact hl.leafIn.lastKey hw
  | cons zs lower => exact h.1.keys

theorem rising (h : Under s L lower ys) (hs : Rising Prod.fst L) : Rising Prod.snd ys := by
  induction lower generalizing ys with
  | nil => exact Grouped.rising h hs
  | cons zs lower ih => exact h.1.rising (ih h.2)

end Under

variable [LinearOrder K]

/-- A well-formed tree, seen from the nodes `xs` of a level. `nh_level` counts its levels, and
`sb_height`, which is one more, may have overflowed. -/
structure TreeAt (s : Btree K D) (L : List (K × List UInt8)) (lower : List (List (ℕ × K)))
    (xs : List (ℕ × K)) (above : List (List (ℕ × K))) : Prop where
  ready : Ready s
  under : Under s L lower xs
  index : Index True s (lower.length + 1) xs above
  rising : Rising Prod.fst L
  height : s.super.height = (lower.length + above.length + 2) % 2 ^ 8
  levels : lower.length + above.length + 1 < 2 ^ 8

theorem TreeAt.upper (h : TreeAt s L lower xs above) : Upper s (lower.length + 1) xs above := by
  refine ⟨h.index, h.under.rising h.rising, h.under.rooted, fun _ => h.under.keys, ?_⟩
  rw [h.height]
  congr 1
  omega

/-- The keys of the items `M` lie between those of two neighbours in a level. -/
structure Between (s : Btree K D) (M : List (K × List UInt8)) (pre post : List (ℕ × K)) : Prop where
  before : ∀ a, pre.getLast? = some a → ∀ I low, Under s I low [a] →
    ∀ e ∈ I, ∀ m ∈ M, e.1 < m.1
  behind : ∀ b, post.head? = some b → ∀ I low, Under s I low [b] →
    ∀ e ∈ I, ∀ m ∈ M, m.1 < e.1

theorem Between.rising (h : Between s M pre post) (hA : Under s A lA pre) (hB : Under s B lB post)
    (hM : Rising Prod.fst M) (hs : Rising Prod.fst (A ++ B)) : Rising Prod.fst (A ++ M ++ B) := by
  obtain ⟨hsA, hsB, hcross⟩ := List.pairwise_append.mp hs
  have hbefore : ∀ e ∈ A, ∀ m ∈ M, e.1 < m.1 := by
    cases hlast : pre.getLast? with
    | none =>
        obtain rfl := List.getLast?_eq_none_iff.mp hlast
        rw [hA.eq_nil]
        simp
    | some a =>
        obtain ⟨P, rfl⟩ := List.getLast?_eq_some_iff.mp hlast
        obtain ⟨C, I, lC, lI, rfl, -, -, -, -, hI⟩ := hA.split
        obtain ⟨w, hw, -⟩ := hI.last rfl
        have hwI : w ∈ I := List.mem_of_getLast? hw
        intro e he m hm
        have hIm := h.before a hlast I lI hI
        rcases List.mem_append.mp he with he | he
        · exact ((List.pairwise_append.mp hsA).2.2 e he w hwI).trans (hIm w hwI m hm)
        · exact hIm e he m hm
  have hbehind : ∀ m ∈ M, ∀ e ∈ B, m.1 < e.1 := by
    cases post with
    | nil =>
        rw [hB.eq_nil]
        simp
    | cons b Q =>
        obtain ⟨I, C, lI, lC, rfl, -, -, -, hI, -⟩ := Under.split (P := [b]) hB
        obtain ⟨w, hw, -⟩ := hI.last rfl
        have hwI : w ∈ I := List.mem_of_getLast? hw
        intro m hm e he
        have hIm := h.behind b rfl I lI hI
        rcases List.mem_append.mp he with he | he
        · exact hIm e he m hm
        · exact (hIm w hwI m hm).trans ((List.pairwise_append.mp hsB).2.2 w hwI e he)
  refine List.pairwise_append.mpr ⟨List.pairwise_append.mpr ⟨hsA, hM, hbefore⟩, hsB, ?_⟩
  intro e he b hb
  rcases List.mem_append.mp he with he | he
  · exact hcross e he b hb
  · exact hbehind e he b hb

variable (env : BtreeEnv K D)

/-- A node whose keys lie between those of neighbours is linked between them. Only an in-memory
array that is shorter than its block, as a cut `fanout` makes it, stops that. -/
theorem btreeInsertNode_level {x : ℕ} {k : K} (hg : ∀ n, env.granted n = true)
    (ht : TreeAt s L lower (pre ++ post) above)
    (hheight : s.super.height = lower.length + above.length + 2) (hN : Under s M low [(x, k)])
    (hlow : low.length = lower.length) (hM : Rising Prod.fst M) (hbetween : Between s M pre post) :
    btreeInsertNode env maxLevels s x = none ∧ s.super.Cut ∨
    ∃ s' A B lower' above', L = A ++ B ∧ btreeInsertNode env maxLevels s x = some (0, s') ∧
      lower'.length = lower.length ∧
      (above'.length = above.length ∨ above'.length = above.length + 1) ∧
      TreeAt s' (A ++ M ++ B) lower' (pre ++ (x, k) :: post) above' := by
  obtain ⟨A, B, lA, lB, rfl, hlA, hlB, -, hA, hB⟩ := ht.under.split
  have hs := hbetween.rising hA hB hM ht.rising
  have hAM := hA.append hN (hlA.trans hlow.symm)
  have hlAM : (List.zipWith (· ++ ·) lA low).length = lower.length := by
    rw [List.length_zipWith, hlA, hlow, Nat.min_self]
  have hAMB := hAM.append hB (hlAM.trans hlB.symm)
  have hlen : (List.zipWith (· ++ ·) (List.zipWith (· ++ ·) lA low) lB).length = lower.length := by
    rw [List.length_zipWith, hlAM, hlB, Nat.min_self]
  have hlist : pre ++ [(x, k)] ++ post = pre ++ (x, k) :: post := by simp
  rw [hlist] at hAMB
  generalize List.zipWith (· ++ ·) (List.zipWith (· ++ ·) lA low) lB = lower' at hAMB hlen
  have hN' : Rooted s (lower.length + 1) x := hlow ▸ hN.rooted (x, k) List.mem_cons_self
  have hlevels : lower.length + above.length + 2 < 2 ^ 8 := by
    rw [← hheight, ht.height]
    exact Nat.mod_lt _ (by decide)
  have hfuel : above.length < maxLevels := by
    have : maxLevels = 2 ^ 8 := rfl
    omega
  obtain ⟨v, hv⟩ : ∃ v, post.head?.or pre.getLast? = some v := by
    have hne := ht.upper.index.nonempty
    cases post with
    | nil => exact Option.isSome_iff_exists.mp (by simpa using hne)
    | cons w post => exact ⟨w, rfl⟩
  obtain ⟨r, hreq, hgr⟩ := ht.upper.index.granted hg (neighbour_mem hv) s.mallocs
  rcases links env above.length maxLevels (lower.length + 1) x r k pre post above v s rfl hfuel
    ht.upper ht.ready hN' (hN.keys (x, k) List.mem_cons_self) (hAMB.rising hs) (by omega)
    (label_unique ht.under.keys) hv hreq hgr with hnone | ⟨s', above', hrun, hL, -⟩
  · exact Or.inl hnone
  refine Or.inr ⟨s', A, B, lower', above', rfl, hrun, hlen, hL.grown, ?_⟩
  have hgrown := hL.grown
  refine ⟨hL.ready, hAMB.same ?_, ?_, hs, ?_, ?_⟩
  · rw [hlen]
    exact hL.below
  · rw [hlen]
    exact hL.upper.index
  · rw [hlen, hL.upper.height]
    congr 1
    omega
  · rw [hlen]
    omega

/-! ## Chains -/

/-- Node `j` of a chain: a leaf with an empty value, or a twig over the node before. -/
def chainNode (base key : ℕ) : ℕ → BtNode ℕ
  | 0 => ⟨none, some ⟨0, 1, .leaf ⟨[⟨key, 112, 0⟩], 84, fun _ => 0⟩⟩, 0, 0, true, false, false⟩
  | j + 1 => ⟨some [some (base + j), none, none, none],
      some ⟨0, j + 2, .twig ⟨[(key, nullPointer)], 76⟩⟩, 0, 0, true, false, false⟩

/-- A tree that is a chain of `n` nodes, and a chain of `n` nodes behind it. -/
def chains (n : ℕ) : Btree ℕ Unit where
  super := ⟨⟨112, 4, 4, 4⟩, 0, 0, n + 1, 1, n, 0, 0, 0, 0⟩
  superOffset := 0
  cache := Cache.open 0 true true
  disk := ()
  root := some (n - 1)
  heap x := if x < n then some (chainNode 0 0 x)
    else if x < 2 * n then some (chainNode n 1 (x - n)) else none
  refs := 0
  fresh := 2 * n
  mallocs := 0

/-- Allocations succeed, and nothing is ever written. -/
def memoryEnv : BtreeEnv ℕ Unit where
  granted _ := true
  uninit _ := 0
  write d b _ _ _ := (b, d)
  read _ _ _ := none
  erase d _ _ := d
  crcPointer _ _ := 0
  crcBlock _ _ _ := 0

/-- The levels under node `j` of a chain. -/
def chainLevels (base key : ℕ) : ℕ → List (List (ℕ × ℕ))
  | 0 => []
  | j + 1 => [(base + j, key)] :: chainLevels base key j

theorem length_chainLevels (base key j : ℕ) : (chainLevels base key j).length = j := by
  induction j with
  | zero => rfl
  | succ j ih => rw [chainLevels, List.length_cons, ih]

theorem under_chain {s : Btree ℕ Unit} {base key n : ℕ} (hc : s.config.geometry = ⟨112, 4, 4, 4⟩)
    (hheap : ∀ i, i < n → s.heap (base + i) = some (chainNode base key i)) :
    ∀ j, j < n → Under s [(key, [])] (chainLevels base key j) [(base + j, key)] := by
  intro j hj
  induction j with
  | zero =>
      refine Grouped.single (w := (key, [])) ⟨_, hheap 0 hj, ⟨?_⟩⟩ rfl
      refine ⟨⟨0, ⟨[⟨key, 112, 0⟩], 84, fun _ => 0⟩, rfl, ?_⟩, Or.inl rfl⟩
      rw [hc]
      exact ⟨rfl, ⟨rfl, trivial⟩, by simp [Geometry.bodyStart, Geometry.itemSize],
        by simp [Geometry.bodyStart, Geometry.itemSize]⟩
  | succ j ih =>
      refine ⟨?_, ih (by omega)⟩
      rw [length_chainLevels]
      refine Grouped.single (w := (base + j, key)) ⟨_, hheap (j + 1) hj, ⟨?_⟩⟩ rfl
      refine ⟨⟨0, ⟨[(key, nullPointer)], 76⟩, [some (base + j), none, none, none], rfl, rfl, rfl,
        ?_, ?_, ?_, rfl, fun _ => ?_⟩, Or.inl rfl⟩
      all_goals rw [hc]
      all_goals simp [Geometry.twigNeeded, Geometry.nodeSpace]

theorem chains_created : Geometry.Created ⟨112, 4, 4, 4⟩ :=
  ⟨rfl, by decide, by decide, by decide, by decide⟩

theorem chains_ready (n : ℕ) : Ready (chains n) := by
  refine ⟨le_rfl, fun z hz => ⟨?_, rfl⟩, chains_created⟩
  have hle : 2 * n ≤ z := hz
  simp only [chains]
  rw [if_neg (by omega), if_neg (by omega)]

theorem chains_tree {n : ℕ} (hn : n + 2 < 2 ^ 8) :
    TreeAt (chains (n + 1)) [(0, [])] (chainLevels 0 0 n) [(n, 0)] [] := by
  have hunder : Under (chains (n + 1)) [(0, [])] (chainLevels 0 0 n) [(0 + n, 0)] :=
    under_chain rfl (fun i hi => by simp only [chains, Nat.zero_add, if_pos hi]) n
      (Nat.lt_succ_self n)
  rw [Nat.zero_add] at hunder
  refine ⟨chains_ready (n + 1), hunder, ⟨(n, 0), rfl, rfl⟩, List.pairwise_singleton _ _, ?_, ?_⟩
  · rw [length_chainLevels]
    exact (Nat.mod_eq_of_lt hn).symm
  · rw [length_chainLevels]
    exact Nat.lt_of_succ_lt hn

theorem chains_behind (n : ℕ) :
    Under (chains (n + 1)) [(1, [])] (chainLevels (n + 1) 1 n) [(n + 1 + n, 1)] := by
  apply under_chain rfl _ n (Nat.lt_succ_self n)
  intro i hi
  simp only [chains]
  rw [if_neg (by omega), if_pos (by omega), Nat.add_sub_cancel_left]

theorem chains_between (n : ℕ) : Between (chains (n + 1)) [(1, [])] [(n, 0)] [] := by
  refine ⟨fun a ha I low hI e he m hm => ?_, fun b hb => by cases hb⟩
  obtain rfl := Option.some.inj ha
  obtain rfl := List.mem_singleton.mp hm
  have hunder : Under (chains (n + 1)) [(0, [])] (chainLevels 0 0 n) [(0 + n, 0)] :=
    under_chain rfl (fun i hi => by simp only [chains, Nat.zero_add, if_pos hi]) n
      (Nat.lt_succ_self n)
  rw [Nat.zero_add] at hunder
  obtain ⟨-, rfl⟩ := hunder.unique hI (List.cons_ne_nil _ _)
  obtain rfl := List.mem_singleton.mp he
  exact Nat.zero_lt_one

/-- A chain of 254 nodes and the one behind it get a root, and `sb_height` overflows. -/
theorem btreeInsertNode_level_tall : ∃ n s' lower' above', n = 253 ∧
    btreeInsertNode memoryEnv maxLevels (chains (n + 1)) (n + 1 + n) = some (0, s') ∧
      s'.super.height = 0 ∧
      TreeAt s' [(0, []), (1, [])] lower' [(n, 0), (n + 1 + n, 1)] above' := by
  obtain ⟨n, hn⟩ : ∃ n, n = 253 := ⟨_, rfl⟩
  have hlow : (chainLevels (n + 1) 1 n).length = (chainLevels 0 0 n).length := by
    rw [length_chainLevels, length_chainLevels]
  have hheight : (chains (n + 1)).super.height = (chainLevels 0 0 n).length + 0 + 2 := by
    rw [length_chainLevels]
    rfl
  rcases btreeInsertNode_level memoryEnv (fun _ => rfl) (chains_tree (by omega)) hheight
    (chains_behind n) hlow (List.pairwise_singleton _ _) (chains_between n)
    with ⟨-, hcut⟩ | ⟨s', A, B, lower', above', hAB, hrun, hlen, hgrown, htree⟩
  · have hno : ¬ Geometry.Cut ⟨112, 4, 4, 4⟩ := by
      rw [Geometry.Cut]
      decide
    exact absurd hcut hno
  have habove : above'.length = 1 := by
    rcases hgrown with hnil | hone
    · obtain rfl := List.length_eq_zero_iff.mp hnil
      obtain ⟨z, hz, -⟩ := htree.index
      cases hz
    · exact hone
  have hitems : A ++ [(1, [])] ++ B = [(0, []), (1, [])] := by
    rcases List.cons_eq_append_iff.mp hAB with ⟨rfl, rfl⟩ | ⟨A', rfl, hnil⟩
    · have hrise := (List.pairwise_cons.mp htree.rising).1 (0, []) List.mem_cons_self
      exact absurd hrise (by decide)
    · obtain ⟨rfl, rfl⟩ := List.nil_eq_append_iff.mp hnil
      rfl
  rw [hitems] at htree
  refine ⟨n, s', lower', above', hn, hrun, ?_, htree⟩
  rw [htree.height, hlen, habove, length_chainLevels, hn]
  rfl

end Btree

end Carthage
