import Carthage.StrbufEdits

/-!
# Comparing string buffers

`strbuf_compare` looks at the length of the shorter string only, so it orders a set of
strings lexicographically exactly when none of them is the beginning of another.
-/

namespace Carthage

/-! ## Comparing bytes -/

section Memcmp

variable {x y z : List UInt8}

theorem memcmp_take (x y : List UInt8) :
    memcmp (x.take (min x.length y.length)) (y.take (min x.length y.length)) = memcmp x y := by
  induction x generalizing y with
  | nil => simp [memcmp]
  | cons a x ih =>
      cases y with
      | nil => simp [memcmp]
      | cons b y =>
          have hmin : min (a :: x).length (b :: y).length = min x.length y.length + 1 := by
            simp only [List.length_cons]
            omega
          rw [hmin, List.take_succ_cons, List.take_succ_cons]
          unfold memcmp
          rw [ih]

theorem memcmp_swap (x y : List UInt8) : memcmp y x = - memcmp x y := by
  induction x generalizing y with
  | nil => cases y <;> rfl
  | cons a x ih =>
      cases y with
      | nil => rfl
      | cons b y =>
          unfold memcmp
          by_cases hab : a = b
          · rw [if_pos hab, if_pos hab.symm, ih]
          · rw [if_neg hab, if_neg (Ne.symm hab)]
            omega

theorem memcmp_eq_zero : memcmp x y = 0 ↔ x <+: y ∨ y <+: x := by
  induction x generalizing y with
  | nil => simp [memcmp]
  | cons a x ih =>
      cases y with
      | nil => simp [memcmp]
      | cons b y =>
          unfold memcmp
          rw [List.cons_prefix_cons, List.cons_prefix_cons]
          by_cases hab : a = b
          · rw [if_pos hab, ih]
            simp [hab]
          · have hne : a.toNat ≠ b.toNat := fun h => hab (UInt8.toNat_inj.mp h)
            rw [if_neg hab]
            constructor
            · intro h
              omega
            · rintro (⟨h, -⟩ | ⟨h, -⟩)
              · exact absurd h hab
              · exact absurd h.symm hab

theorem lt_of_memcmp_neg (h : memcmp x y < 0) : x < y := by
  induction x generalizing y with
  | nil => cases y <;> simp [memcmp] at h
  | cons a x ih =>
      cases y with
      | nil => simp [memcmp] at h
      | cons b y =>
          unfold memcmp at h
          rw [List.cons_lt_cons_iff]
          split_ifs at h with hab
          · exact Or.inr ⟨hab, ih h⟩
          · exact Or.inl (UInt8.lt_iff_toNat_lt.mpr (by omega))

end Memcmp

/-! ## Comparing strings -/

/-- The bytes of a string. -/
def Strbuf.contents (s : Strbuf) : List UInt8 := (s.blob.getD fun _ => 0).read 0 s.size

/-- A buffer whose length its block holds. -/
structure StrbufString (s : Strbuf) : Prop where
  size : s.size ≤ s.blksz
  null : s.blob = none → s.size = 0
  held : s.blob = none → s.freed = false

variable {s t : Strbuf} {blob : List UInt8}

theorem Strbuf.contents_eq {mem : Bytes} (hm : s.blob = some mem) :
    s.contents = mem.read 0 s.size := by
  unfold Strbuf.contents
  rw [hm, Option.getD_some]

@[simp] theorem Strbuf.length_contents (s : Strbuf) : s.contents.length = s.size :=
  Bytes.length_read

theorem StrbufString.firstBytes (h : StrbufString s) {n : ℕ} (hn : n ≤ s.size) :
    s.firstBytes n = some (s.contents.take n) := by
  have hsize := h.size
  unfold Strbuf.firstBytes Strbuf.contents
  rw [Bytes.read_take hn]
  by_cases hzero : n = 0
  · rw [if_pos hzero, hzero]
    rfl
  · rw [if_neg hzero]
    cases hm : s.blob with
    | none =>
        have hzero := h.null hm
        omega
    | some mem =>
        have hn' : n ≤ s.blksz := hn.trans hsize
        simp only [Option.bind_eq_bind, Option.bind_some, Option.getD_some, if_pos hn']

theorem strbufCompare_eq (h : StrbufString s) (blob : List UInt8) :
    strbufCompare s blob = some (memcmp s.contents blob) := by
  have hmin : (if s.size < blob.length then s.size else blob.length) =
      min s.contents.length blob.length := by
    rw [s.length_contents]
    split_ifs <;> omega
  have hle : min s.contents.length blob.length ≤ s.size := by
    rw [s.length_contents]
    exact Nat.min_le_left _ _
  unfold strbufCompare
  dsimp only
  rw [hmin, h.firstBytes hle, ← memcmp_take]
  rfl

theorem strbufEqual_iff (h : StrbufString s) (blob : List UInt8) :
    strbufEqual s blob = some 1 ↔ s.contents = blob := by
  have hlen := s.length_contents
  unfold strbufEqual
  split_ifs with hne
  · constructor
    · intro hno
      cases hno
    · rintro rfl
      exact absurd hlen.symm hne
  · have hsize : s.contents.length = blob.length := hlen.trans (not_not.mp hne)
    rw [h.firstBytes (by omega), List.take_of_length_le hsize.le]
    constructor
    · intro hone
      have hzero : memcmp s.contents blob = 0 := by
        by_contra hz
        simp [hz] at hone
      rcases memcmp_eq_zero.mp hzero with hp | hp
      · exact hp.eq_of_length hsize
      · exact (hp.eq_of_length hsize.symm).symm
    · rintro rfl
      have hzero : memcmp s.contents s.contents = 0 := memcmp_eq_zero.mpr (Or.inl List.prefix_rfl)
      simp [hzero]

/-- `strbuf_compare` is the lexicographic order on the strings of `S`, equal where
`strbuf_equal` is. -/
structure StrbufOrders (S : Set Strbuf) : Prop where
  total : ∀ s ∈ S, ∀ t ∈ S, ∃ c, strbufCompare s t.contents = some c ∧
    (c < 0 ↔ s.contents < t.contents) ∧ (c = 0 ↔ strbufEqual s t.contents = some 1)
  flip : ∀ s ∈ S, ∀ t ∈ S, ∀ c d, strbufCompare s t.contents = some c →
    strbufCompare t s.contents = some d → d.sign = - c.sign
  trans : ∀ s ∈ S, ∀ t ∈ S, ∀ u ∈ S, ∀ c d e, strbufCompare s t.contents = some c →
    strbufCompare t u.contents = some d → strbufCompare s u.contents = some e →
    c ≤ 0 → d ≤ 0 → e ≤ 0

theorem memcmp_neg_iff {x y : List UInt8} (h : x <+: y → x = y) (h' : y <+: x → y = x) :
    memcmp x y < 0 ↔ x < y := by
  refine ⟨lt_of_memcmp_neg, fun hlt => ?_⟩
  rcases lt_trichotomy (memcmp x y) 0 with hneg | hzero | hpos
  · exact hneg
  · have heq : x = y := (memcmp_eq_zero.mp hzero).elim h fun hp => (h' hp).symm
    exact absurd (heq ▸ hlt) (List.lt_irrefl y)
  · have hback : memcmp y x < 0 := by
      rw [memcmp_swap]
      omega
    exact absurd (lt_of_memcmp_neg hback) (List.lt_asymm hlt)

/-- `cmp` is the lexicographic order on what the members of `S` hold. -/
structure LexOrders {α : Type} (cmp : α → α → Option ℤ) (contents : α → List UInt8) (S : Set α) :
    Prop where
  total : ∀ s ∈ S, ∀ t ∈ S, ∃ c, cmp s t = some c ∧
    (c < 0 ↔ contents s < contents t) ∧ (c = 0 ↔ contents s = contents t)
  flip : ∀ s ∈ S, ∀ t ∈ S, ∀ c d, cmp s t = some c → cmp t s = some d → d.sign = - c.sign
  trans : ∀ s ∈ S, ∀ t ∈ S, ∀ u ∈ S, ∀ c d e, cmp s t = some c → cmp t u = some d →
    cmp s u = some e → c ≤ 0 → d ≤ 0 → e ≤ 0

/-- A comparison up to the end of the shorter string orders exactly the strings of which none
begins another. -/
theorem lexOrders_iff {α : Type} {cmp : α → α → Option ℤ} {contents : α → List UInt8} {S : Set α}
    (hcmp : ∀ s ∈ S, ∀ t ∈ S, cmp s t = some (memcmp (contents s) (contents t))) :
    LexOrders cmp contents S ↔
      ∀ s ∈ S, ∀ t ∈ S, contents s <+: contents t → contents s = contents t := by
  constructor
  · intro h s hs t ht hp
    obtain ⟨c, hc, -, heq⟩ := h.total s hs t ht
    rw [hcmp s hs t ht] at hc
    obtain rfl := Option.some.inj hc
    exact heq.mp (memcmp_eq_zero.mpr (Or.inl hp))
  · intro h
    refine ⟨fun s hs t ht => ?_, fun s hs t ht c d hc hd => ?_, ?_⟩
    · refine ⟨_, hcmp s hs t ht, memcmp_neg_iff (h s hs t ht) (h t ht s hs), ?_⟩
      rw [memcmp_eq_zero]
      constructor
      · exact fun hp => hp.elim (h s hs t ht) fun hp => (h t ht s hs hp).symm
      · exact fun heq => Or.inl (heq ▸ List.prefix_rfl)
    · rw [hcmp s hs t ht] at hc
      rw [hcmp t ht s hs] at hd
      obtain rfl := Option.some.inj hc
      obtain rfl := Option.some.inj hd
      rw [memcmp_swap, Int.sign_neg]
    · intro s hs t ht u hu c d e hc hd he hcle hdle
      rw [hcmp s hs t ht] at hc
      rw [hcmp t ht u hu] at hd
      rw [hcmp s hs u hu] at he
      obtain rfl := Option.some.inj hc
      obtain rfl := Option.some.inj hd
      obtain rfl := Option.some.inj he
      have hle : ∀ v ∈ S, ∀ w ∈ S, memcmp (contents v) (contents w) ≤ 0 →
          contents v ≤ contents w := by
        intro v hv w hw hvw
        rcases hvw.lt_or_eq with hlt | hzero
        · exact List.le_of_lt (lt_of_memcmp_neg hlt)
        · have heq : contents v = contents w :=
            (memcmp_eq_zero.mp hzero).elim (h v hv w hw) fun hp => (h w hw v hv hp).symm
          exact heq ▸ List.le_refl (contents v)
      by_contra hpos
      have hback : memcmp (contents u) (contents s) < 0 := by
        rw [memcmp_swap]
        omega
      have hsu := List.le_trans (hle s hs t ht hcle) (hle t ht u hu hdle)
      exact hsu (lt_of_memcmp_neg hback)

theorem strbufCompare_orders {S : Set Strbuf} (hS : ∀ s ∈ S, StrbufString s) :
    StrbufOrders S ↔
      ∀ s ∈ S, ∀ t ∈ S, s.contents <+: t.contents → s.contents = t.contents := by
  have hlex : StrbufOrders S ↔
      LexOrders (fun s t => strbufCompare s t.contents) Strbuf.contents S := by
    constructor
    · intro h
      refine ⟨fun s hs t ht => ?_, h.flip, h.trans⟩
      obtain ⟨c, hc, hneg, hzero⟩ := h.total s hs t ht
      exact ⟨c, hc, hneg, hzero.trans (strbufEqual_iff (hS s hs) _)⟩
    · intro h
      refine ⟨fun s hs t ht => ?_, h.flip, h.trans⟩
      obtain ⟨c, hc, hneg, hzero⟩ := h.total s hs t ht
      exact ⟨c, hc, hneg, hzero.trans (strbufEqual_iff (hS s hs) _).symm⟩
  rw [hlex]
  exact lexOrders_iff fun s hs t _ => strbufCompare_eq (hS s hs) t.contents

/-- A string with the block that its bytes fill. -/
def strbufOf (L : List UInt8) : Strbuf :=
  ⟨some (Bytes.write (fun _ => 0) 0 L), L.length, L.length, 1, false, false⟩

theorem strbufString_of (L : List UInt8) : StrbufString (strbufOf L) :=
  ⟨le_rfl, fun hc => (nomatch hc), fun hc => (nomatch hc)⟩

theorem contents_strbufOf (L : List UInt8) : (strbufOf L).contents = L :=
  Bytes.read_write_self _ 0 L

theorem strbufCompare_orders_two : StrbufOrders {strbufOf [97, 98], strbufOf [98]} := by
  have hS : ∀ s ∈ ({strbufOf [97, 98], strbufOf [98]} : Set Strbuf), StrbufString s := by
    rintro s (rfl | rfl)
    · exact strbufString_of _
    · exact strbufString_of _
  apply (strbufCompare_orders hS).mpr
  rintro s (rfl | rfl) t (rfl | rfl)
  all_goals simp only [contents_strbufOf]
  all_goals decide

/-- A string compares as equal to one that it begins. -/
theorem strbufCompare_begins : strbufCompare (strbufOf [97]) [97, 98] = some 0 ∧
    strbufEqual (strbufOf [97]) [97, 98] = some 0 ∧ ([97] : List UInt8) < [97, 98] ∧
    ¬ StrbufOrders {strbufOf [97], strbufOf [97, 98]} := by
  refine ⟨by decide, by decide, by decide, fun h => ?_⟩
  obtain ⟨c, hc, hlex, -⟩ := h.total (strbufOf [97]) (Or.inl rfl) (strbufOf [97, 98]) (Or.inr rfl)
  rw [contents_strbufOf, contents_strbufOf] at hlex
  rw [strbufCompare_eq (strbufString_of _), contents_strbufOf, contents_strbufOf] at hc
  obtain rfl := Option.some.inj hc
  exact absurd (hlex.mpr (by decide)) (by decide)

end Carthage
