import Carthage.BtreeRequests
import Carthage.BtreeUnlinked

/-!
# A split that was taken back

`__btree_insert_node` splits twigs before it knows that the node can be linked, and lowers the
separators above them. When it takes a split back, the upper half of the in-memory pointers is
lost, so a search goes too far, or reads a node from the disk that is already in memory.
-/

namespace Carthage

namespace Btree

variable {K D : Type} [LinearOrder K] {s s' t : Btree K D} {level x n r : ℕ} {k q : K}
  {xs pre post cs U V A B c1 c2 : List (ℕ × K)} {above : List (List (ℕ × K))} {u v z : ℕ × K}
  {ρ : ℕ → ℤ}

namespace Parted

variable {y : ℕ} {m last : K} {above' : List (List (ℕ × K))}

theorem keys (h : Parted s t level y xs U V m last above above') :
    ∀ z ∈ (U ++ [(y, m)]) ++ V, t.lastKey z.1 = some z.2 := fun z hz =>
  h.groups.keys z (((List.sublist_cons_self _ V).append_left _).subset hz)

theorem upper (h : Parted s t level y xs U V m last above above') (hl : 1 ≤ level)
    (hs : Rising Prod.snd xs) (hxs : ∀ z ∈ xs, Rooted s level z.1)
    (hh : s.super.height = (level + 1 + above.length + 1) % 2 ^ 8) :
    Upper t (level + 1) ((U ++ [(y, m)]) ++ V) above' := by
  have hroots := h.groups.rooted hl fun z hz => h.below.rooted (hxs z hz)
  obtain ⟨hrise, -, -⟩ := rising_cut (h.groups.rising hs)
  have hsub := ((List.sublist_cons_self (s.fresh, last) V).append_left (U ++ [(y, m)])).subset
  refine ⟨h.index, hrise, fun z hz => hroots z (hsub hz), fun _ => h.keys, ?_⟩
  rw [h.height, h.length, hh]

end Parted

variable (env : BtreeEnv K D)

theorem TornAt.fetch {i : ℕ} {under : Option ℕ} {s₁ : Btree K D} (h : TornAt s x level cs)
    (hres : ∀ c ∈ cs, ResidentAt s c.1) (hrun : s.btnodeFetchTwig env x i = some (under, s₁)) :
    s.mallocs < s₁.mallocs ∨
      ∃ c, cs[i]? = some c ∧ under = some c.1 ∧ s₁ = s.addRef c.1 1 := by
  obtain ⟨node, hx, ⟨T⟩⟩ := h
  simp only [btnodeFetchTwig, hx, T.data, T.array, Page.twig?, Option.bind_eq_bind,
    Option.bind_some, Option.bind_eq_some_iff] at hrun
  obtain ⟨entry, hentry, slot, hslot, hrun⟩ := hrun
  cases slot with
  | none =>
      obtain ⟨⟨child, s₂⟩, hfetch, hrun⟩ := Option.bind_eq_some_iff.mp hrun
      obtain ⟨node', -, hrun⟩ := Option.bind_eq_some_iff.mp hrun
      obtain ⟨-, hmallocs⟩ := btnodeFetch_asks hfetch
      exact Or.inl ((Prod.mk.inj (Option.some.inj hrun)).2 ▸ hmallocs)
  | some child =>
      have hlt : i < cs.length := T.items ▸ (List.getElem?_eq_some_iff.mp hentry).1
      have hc : cs[i]? = some cs[i] := List.getElem?_eq_getElem hlt
      obtain rfl := T.linked i child cs[i] hslot hc
      have hchild : ResidentAt (s.addRef cs[i].1 1) cs[i].1 :=
        (hres cs[i] (List.getElem_mem hlt)).frame rfl rfl
      change ((s.addRef cs[i].1 1).btnodeRead env cs[i].1 entry.2).bind _ = _ at hrun
      rw [btnodeRead_resident env hchild] at hrun
      obtain ⟨rfl, rfl⟩ := Prod.mk.inj (Option.some.inj hrun)
      exact Or.inr ⟨cs[i], hc, rfl, rfl⟩

theorem Reads.run {value : List UInt8} (h : Reads env s q value) : ∃ o place s',
    s.btreeLookupLevel env q 1 noPlace = some (o, place, s') ∧ place.found = true ∧
      s'.mallocs ≤ s.mallocs := by
  obtain ⟨⟨o, place, s', hlook, hfound⟩, hcopy⟩ := h
  refine ⟨o, place, s', hlook, hfound, ?_⟩
  have hrun := hcopy 0
  rw [btreeLookup, hlook, Option.bind_eq_bind, Option.bind_some] at hrun
  cases o with
  | none => exact (Prod.mk.inj (Option.some.inj hrun)).2 ▸ le_rfl
  | some x =>
      simp only [hfound, Bool.not_true, Bool.false_eq_true, if_false, Option.bind_eq_bind,
        Option.bind_eq_some_iff] at hrun
      obtain ⟨page, -, leaf, -, slot, -, s₁, hrelease, hrun⟩ := hrun
      exact (Prod.mk.inj (Option.some.inj hrun)).2 ▸ (btnodeRelease_asks hrelease).mallocs

end Btree

end Carthage
