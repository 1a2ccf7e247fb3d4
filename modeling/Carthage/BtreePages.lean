import Carthage.BtreeTree

/-!
# Trees of blocks

The blocks of a tree without the nodes and the disk that hold them, the search in it as a
function, and what the search finds when the separators are those of the items.
-/

namespace Carthage

/-- A block with the blocks under it. -/
inductive PageTree (K : Type)
  | node (page : Page K) (children : List (PageTree K))

namespace LeafPage

variable {K : Type}

/-- The keys of a leaf with their values, wherever the values lie. -/
def items (p : LeafPage K) : List (K × List UInt8) := p.slots.map fun s => (s.key, p.body s)

@[simp] theorem items_keys (p : LeafPage K) : p.items.map Prod.fst = p.keys := by
  unfold items keys
  rw [List.map_map]
  rfl

theorem layout_items {mem : Bytes} {L : List (K × List UInt8)} {e : ℕ} (h : Stored mem e L) :
    (layout e L).map (fun s => (s.key, mem.read s.offset s.size)) = L := by
  induction L generalizing e with
  | nil => rfl
  | cons x L ih => rw [layout, List.map_cons, ih h.2, h.1]

theorem Packed.items {g : Geometry} {p : LeafPage K} {L : List (K × List UInt8)}
    (h : Packed g p L) : p.items = L := by
  unfold LeafPage.items LeafPage.body
  rw [h.slots]
  exact layout_items h.stored

end LeafPage

namespace Page

variable {K : Type}

/-- The entries of a twig; a leaf has none. -/
def entries (page : Page K) : List (K × NodePointer) :=
  match page.body with
  | .leaf _ => []
  | .twig p => p.entries

end Page

namespace PageTree

variable {K : Type}

def page : PageTree K → Page K
  | node page _ => page

def children : PageTree K → List (PageTree K)
  | node _ children => children

/-- Levels drop by one down to the leaves, and a twig has from one to `fanout` children. -/
def Formed (fanout : ℕ) : ℕ → PageTree K → Prop
  | 0, _ => False
  | 1, t => t.page.level = 1 ∧ t.children = [] ∧ ∃ leaf, t.page.body = .leaf leaf
  | level + 2, t => t.page.level = level + 2 ∧
      ∃ twig, t.page.body = .twig twig ∧ twig.entries.length = t.children.length ∧
        t.children ≠ [] ∧ t.children.length ≤ fanout ∧
        ∀ c ∈ t.children, Formed fanout (level + 1) c

theorem Formed.level {fanout level : ℕ} {t : PageTree K} (h : t.Formed fanout level) :
    t.page.level = level := by
  match level, h with
  | 1, h => exact h.1
  | level + 2, h => exact h.1

theorem Formed.children_le {fanout level : ℕ} {t : PageTree K} (h : t.Formed fanout level) :
    t.children.length ≤ fanout := by
  match level, h with
  | 1, h => simp [h.2.1]
  | level + 2, ⟨_, _, _, _, _, hle, _⟩ => exact hle

variable [LinearOrder K]

/-- The bytes that a lookup copies, when the search goes down from a level. -/
def find (key : K) (size : ℕ) : ℕ → PageTree K → Option (List UInt8)
  | 0, _ => none
  | 1, t => do
      let leaf ← t.page.leaf?
      let (found, index) ← leaf.search key
      if found then
        let slot ← leaf.slots[index]?
        return leaf.mem.read slot.offset (min size slot.size)
      else return []
  | level + 2, t => do
      let twig ← t.page.twig?
      let (_, index) ← indexSearch (twig.entries.map Prod.fst) key
      let child ← t.children[if index ≥ twig.entries.length then sub32 index 1 else index]?
      find key size (level + 1) child

/-- The leaves hold, in order, the items `L`, and each separator is the last key under it. -/
def Holds : ℕ → PageTree K → List (K × List UInt8) → Prop
  | 0, _, _ => False
  | 1, t, L => ∃ leaf, t.page.body = .leaf leaf ∧ leaf.items = L
  | level + 2, t, L => ∃ twig, t.page.body = .twig twig ∧
      Grouped (Holds (level + 1)) Prod.fst L (t.children.zip (twig.entries.map Prod.fst))

variable {fanout level : ℕ} {t : PageTree K} {L : List (K × List UInt8)} {q : K}

theorem Formed.find_total (h : t.Formed fanout level) (hf : fanout < 2 ^ 16) (q : K) (size : ℕ) :
    ∃ bytes, t.find q size level = some bytes := by
  induction level using Nat.strong_induction_on generalizing t with
  | _ level ih =>
      match level, h with
      | 1, ⟨_, _, leaf, hbody⟩ =>
          have hleaf : t.page.leaf? = some leaf := by rw [Page.leaf?, hbody]
          obtain ⟨found, index, hsearch, -, hfound⟩ := indexSearch_total leaf.keys q
          cases found with
          | false => exact ⟨[], by simp [find, hleaf, LeafPage.search, hsearch]⟩
          | true =>
              have hget := hfound rfl
              rw [LeafPage.keys, List.getElem?_map, Option.map_eq_some_iff] at hget
              obtain ⟨slot, hslot, -⟩ := hget
              exact ⟨_, by simp [find, hleaf, LeafPage.search, hsearch, hslot]; rfl⟩
      | level + 2, ⟨_, twig, hbody, hlen, hne, hle, hall⟩ =>
          have htwig : t.page.twig? = some twig := by rw [Page.twig?, hbody]
          obtain ⟨found, index, hsearch, hindex, -⟩ :=
            indexSearch_total (twig.entries.map Prod.fst) q
          rw [List.length_map, hlen] at hindex
          have hpos : 0 < t.children.length := List.length_pos_iff.mpr hne
          have hlt : (if index ≥ t.children.length then sub32 index 1 else index) <
              t.children.length := by
            split_ifs with hge
            · rw [sub32_eq (by omega) (by omega)]
              omega
            · omega
          obtain ⟨bytes, hbytes⟩ := ih (level + 1) (by omega) (hall _ (List.getElem_mem hlt))
          refine ⟨bytes, ?_⟩
          rw [find]
          simp only [htwig, hsearch, hlen, List.getElem?_eq_getElem hlt, hbytes,
            Option.bind_eq_bind, Option.bind_some]

/-- In a tree whose items are sorted, the search finds the item of a key. -/
theorem Holds.find (h : t.Holds level L) (hf : t.Formed fanout level) (hfan : fanout < 2 ^ 16)
    (hs : Rising Prod.fst L) (q : K) (size : ℕ) :
    t.find q size level = some (((L.lookup q).getD []).take size) := by
  induction level using Nat.strong_induction_on generalizing t L with
  | _ level ih =>
      match level, h, hf with
      | 1, ⟨leaf, hbody, hitems⟩, _ =>
          have hleaf : t.page.leaf? = some leaf := by rw [Page.leaf?, hbody]
          have hkeys : leaf.keys = L.map Prod.fst := by rw [← hitems, LeafPage.items_keys]
          have hsearch : indexSearch (L.map Prod.fst) q = _ := indexSearch_spec (rising_map.mp hs)
          rw [PageTree.find]
          by_cases hq : q ∈ L.map Prod.fst
          · obtain ⟨⟨k, v⟩, hv, rfl⟩ := List.mem_map.mp hq
            obtain ⟨A, B, hL, hrank⟩ := Btree.rank_of_mem hs hv
            have hget : leaf.items[A.length]? = some (k, v) := by
              rw [hitems, hL, List.getElem?_append_right (Nat.le_refl _)]
              simp
            rw [LeafPage.items, List.getElem?_map, Option.map_eq_some_iff] at hget
            obtain ⟨slot, hslot, hkv⟩ := hget
            have hval : L.lookup k = some v := Btree.lookup_of_mem hs hv
            have hread : leaf.mem.read slot.offset (min size slot.size) = v.take size := by
              rw [Bytes.read_min]
              exact congrArg (List.take size) (congrArg Prod.snd hkv)
            simp only [hleaf, LeafPage.search, hkeys, hsearch, decide_eq_true hq, hrank, hslot,
              hread, hval, Option.bind_eq_bind, Option.bind_some, if_true, Option.pure_def,
              Option.getD_some]
          · have hno : L.lookup q = none := Btree.lookup_of_notMem hq
            simp only [hleaf, LeafPage.search, hkeys, hsearch, decide_eq_false hq, hno,
              Option.bind_eq_bind, Option.bind_some, if_false, Bool.false_eq_true,
              Option.pure_def, Option.getD_none, List.take_nil]
      | level + 2, ⟨twig, hbody, hg⟩, ⟨_, twig', hbody', hlen, hne, hle, hall⟩ =>
          obtain rfl : twig = twig' := PageBody.twig.inj (hbody.symm.trans hbody')
          have htwig : t.page.twig? = some twig := by rw [Page.twig?, hbody]
          let cs := t.children.zip (twig.entries.map Prod.fst)
          have hlen' : (twig.entries.map Prod.fst).length = t.children.length := by
            rw [List.length_map, hlen]
          have hkeys : cs.map Prod.snd = twig.entries.map Prod.fst :=
            List.map_snd_zip hlen'.le
          have hcslen : cs.length = t.children.length := by
            simp only [cs, List.length_zip, hlen', Nat.min_self]
          have hcs : Rising Prod.snd cs := hg.rising hs
          have hcsne : cs ≠ [] := List.ne_nil_of_length_pos
            (hcslen ▸ List.length_pos_iff.mpr hne)
          obtain ⟨c1, z, c2, hsplit, hget, hbefore, hstop⟩ :=
            Btree.getElem?_childIndex hcs hcsne (by omega) q
          have hlast : q ≤ z.2 ∨ c2 = [] := hstop.imp id And.left
          obtain ⟨A, I, B, w, rfl, hI, -, -, -, -, hIs, hA, hB⟩ :=
            hg.located hs ⟨hsplit, hbefore, hlast⟩
          have hz : z.1 ∈ t.children :=
            (List.of_mem_zip (hsplit ▸ (by simp) : z ∈ cs)).1
          have hchild : t.children[Btree.childIndex cs q]? = some z.1 := by
            have hfst : cs.map Prod.fst = t.children := List.map_fst_zip hlen'.ge
            rw [← hfst, List.getElem?_map, hget, Option.map_some]
          have hsearch : indexSearch (cs.map Prod.snd) q = _ :=
            indexSearch_spec (rising_map.mp hcs)
          have hfind := ih (level + 1) (by omega) hI (hall _ hz) hIs
          have hlookup : (A ++ I ++ B).lookup q = I.lookup q :=
            Btree.lookup_middle hA fun x hx => (hB x hx).1
          rw [Btree.childIndex, hcslen, hkeys, ← hlen] at hchild
          rw [hkeys] at hsearch
          rw [PageTree.find, hlookup]
          simp only [htwig, hsearch, hchild, hfind, Option.bind_eq_bind, Option.bind_some]

end PageTree

end Carthage
