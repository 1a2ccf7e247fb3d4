import Carthage.BtreePersist

/-!
# Space in nodes

`nh_free` is all that keeps an insertion from writing past a page. From the creation of a tree on
it is what the entries leave of every node: in leaves always, and in twigs as long as no node is
freed.
-/

namespace Carthage

namespace LeafPage

variable {K : Type} {g : Geometry} {p : LeafPage K} {L : List (K × List UInt8)}

theorem Packed.space (h : p.Packed g L) :
    p.free + p.slots.length * g.itemSize + (p.slots.map LeafSlot.size).sum = g.nodeSpace := by
  have hfree := h.free
  rw [h.slots, layout_sizes, length_layout]
  unfold Geometry.bodyStart at hfree
  unfold Geometry.nodeSpace
  omega

end LeafPage

/-- What a node counts as free and what its entries take are the space of a node. -/
def PageBody.Accounted {K : Type} (g : Geometry) : PageBody K → Prop
  | .leaf l => l.free + l.slots.length * g.itemSize + (l.slots.map LeafSlot.size).sum = g.nodeSpace
  | .twig t => t.free + t.entries.length * g.twigNeeded = g.nodeSpace ∧
      t.entries.length ≤ g.fanout

namespace Btree

variable {K D : Type} {env : BtreeEnv K D} {s b : Btree K D} {level x : ℕ} {E : Prop}
  {L : List (K × List UInt8)} {cs xs : List (ℕ × K)} {above : List (List (ℕ × K))}

theorem LeafAt.accounted (h : LeafAt s x L) :
    ∃ page, s.page x = some page ∧ page.body.Accounted s.super.toGeometry := by
  obtain ⟨node, hx, ⟨l⟩⟩ := h
  refine ⟨⟨l.crc, 1, .leaf l.leaf⟩, ?_, l.packed.space⟩
  simp only [Btree.page, hx, l.data, Option.bind_eq_bind, Option.bind_some]

theorem TwigAt.accounted (h : TwigAt True s x level cs) :
    ∃ page, s.page x = some page ∧ page.body.Accounted s.super.toGeometry := by
  obtain ⟨node, hx, ⟨t⟩⟩ := h
  have hlen : t.twig.entries.length = cs.length := by simpa using congrArg List.length t.keys
  refine ⟨⟨t.crc, level, .twig t.twig⟩, ?_, ?_, ?_⟩
  · simp only [Btree.page, hx, t.data, Option.bind_eq_bind, Option.bind_some]
  · rw [hlen]
    exact t.free trivial
  · rw [hlen]
    exact t.within

/-- A node whose space is counted exactly, as that of all nodes below it. -/
def Spaced (s : Btree K D) : ℕ → ℕ → Prop
  | 0, _ => False
  | 1, x => ∃ items, LeafAt s x items
  | level + 2, x => ∃ cs, TwigAt True s x (level + 2) cs ∧ ∀ z ∈ cs, Spaced s (level + 1) z.1

theorem Spaced.accounted (h : Spaced s level x) :
    ∃ page, s.page x = some page ∧ page.body.Accounted s.super.toGeometry := by
  rcases level with _ | _ | level
  · exact h.elim
  · obtain ⟨items, hl⟩ := h
    exact hl.accounted
  · obtain ⟨cs, hc, -⟩ := h
    exact hc.accounted

theorem Spaced.below (ht : Tidy s) (h : Spaced s level x) {depth y : ℕ}
    (hy : y ∈ s.nodes depth x) : ∃ l, Spaced s l y := by
  induction depth using Nat.strong_induction_on generalizing level x with
  | _ depth ih =>
      rcases depth with _ | _ | depth
      · cases hy
      · obtain rfl := List.mem_singleton.mp hy
        exact ⟨level, h⟩
      · rw [nodes] at hy
        rcases List.mem_cons.mp hy with rfl | hy
        · exact ⟨level, h⟩
        · obtain ⟨c, hc, hy⟩ := List.mem_flatMap.mp hy
          rcases level with _ | _ | level
          · exact h.elim
          · obtain ⟨items, hl⟩ := h
            rw [ht.leaf hl] at hc
            cases hc
          · obtain ⟨cs, htwig, hcs⟩ := h
            rw [ht.twig htwig] at hc
            obtain ⟨z, hz, rfl⟩ := List.mem_map.mp hc
            exact ih (depth + 1) (by omega) (hcs z hz) hy

theorem Index.spaced (h : Index True s level xs above) (hl : 1 ≤ level)
    (hxs : ∀ z ∈ xs, Spaced s level z.1) : ∃ r l, s.root = some r ∧ Spaced s l r := by
  induction above generalizing level xs with
  | nil =>
      obtain ⟨z, rfl, hroot⟩ := h
      exact ⟨z.1, level, hroot, hxs z List.mem_cons_self⟩
  | cons ys above ih =>
      obtain ⟨hgroups, hi⟩ := h
      obtain ⟨l, rfl⟩ : ∃ l, level = l + 1 := ⟨level - 1, by omega⟩
      refine ih hi (by omega) fun y hy => ?_
      obtain ⟨cs, w, hc, -, -, hsub⟩ := hgroups.group hy
      exact ⟨cs, hc, fun z hz => hxs z (hsub z hz)⟩

variable [LinearOrder K]

theorem Kept.spaced (h : Kept True b s L) {r depth : ℕ} (hr : s.root = some r)
    (hx : x ∈ s.nodes depth r) :
    ∃ page, s.page x = some page ∧ page.body.Accounted s.super.toGeometry := by
  obtain ⟨xs, above, hs⟩ := h.shaped (by
    rw [hr]
    exact Option.some_ne_none r)
  obtain ⟨r', l, hroot, hspaced⟩ := hs.index.spaced le_rfl fun z hz => by
    obtain ⟨items, w, hl, -⟩ := hs.leaves.group hz
    exact ⟨items, hl⟩
  obtain rfl := Option.some.inj (hr.symm.trans hroot)
  obtain ⟨l', hbelow⟩ := hspaced.below h.memory.tidy hx
  exact hbelow.accounted

/-- In every state of a run, every node that is reached accounts for its space. -/
theorem btreeCreate_spaces {disk : D}
    {cacheSize superOffset blockSize keySize magic nodeMagic : ℕ}
    (hg : ∀ n, env.granted n = true) (hkey : keySize < 2 ^ 16) (hblock : blockSize < 2 ^ 32)
    (h : btreeCreate env disk cacheSize superOffset blockSize keySize magic nodeMagic = some b)
    {cs : List (Call K)} (hcs : AdmitsAll env True b noItems cs) :
    ∃ rs s, b.runCalls env cs = some (rs, s) ∧
      ∀ r, s.root = some r → ∀ depth, ∀ x ∈ s.nodes depth r, ∃ page, s.page x = some page ∧
        page.body.Accounted s.super.toGeometry := by
  obtain ⟨s, L, hrun, hkept, -⟩ := (btreeCreate_kept hg hkey hblock h).runCalls hg hcs
  exact ⟨_, s, hrun, fun r hr depth x hx => hkept.spaced hr hx⟩

/-- A value is put in, found and replaced. -/
theorem btreeCreate_spaces_few : ∃ (b : Btree ℕ Unit) (rs : List Result) (s : Btree ℕ Unit),
    btreeCreate memoryEnv () 0 0 112 4 0 0 = some b ∧ b.runCalls memoryEnv fewCalls = some (rs, s) ∧
      ∀ r, s.root = some r → ∀ depth, ∀ x ∈ s.nodes depth r, ∃ page, s.page x = some page ∧
        page.body.Accounted s.super.toGeometry := by
  obtain ⟨b, hb⟩ : ∃ b, btreeCreate (K := ℕ) memoryEnv () 0 0 112 4 0 0 = some b := ⟨_, rfl⟩
  obtain ⟨rs, s, hrun, hspace⟩ := btreeCreate_spaces (fun _ => rfl) (by decide) (by decide) hb
    (fewCalls_admitted (fun _ => rfl) hb)
  exact ⟨b, rs, s, hb, hrun, hspace⟩

end Btree

end Carthage
