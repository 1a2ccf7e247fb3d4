import Carthage.ChunkqFifo

/-!
# Searching a chunk queue

The search goes through the chunks once and never back. It finds a needle that lies at the
first place where its first byte is, whatever the chunks are. Otherwise a queue with one
byte to a chunk is enough to find bytes that are no occurrence: a byte that differs at the
start of a chunk is passed over.
-/

open scoped List

namespace Carthage

variable {needle done left data rest pre post P L : List UInt8} {s : ChunkqSearch} {c : UInt8}
  {chunks : List (List UInt8)} {q : Chunkq} {index : ℤ} {fuel offset : ℕ}

/-- `r` is the least position from `offset` on where the needle lies, -1 when there is none. -/
def IsIndexof (L needle : List UInt8) (offset : ℕ) (r : ℤ) : Prop :=
  (∃ i : ℕ, r = i ∧ offset ≤ i ∧ needle <+: L.drop i ∧
    ∀ j, offset ≤ j → needle <+: L.drop j → i ≤ j) ∨
  (r = -1 ∧ ∀ j, offset ≤ j → ¬ needle <+: L.drop j)

/-- The needle lies where its first byte is found first. -/
def Leads (needle L : List UInt8) : Prop :=
  ∃ pre post, L = pre ++ needle ++ post ∧ ∀ c ∈ needle.head?, c ∉ pre

/-- The bytes of the needle that its 32-bit length covers. -/
def searchedPart (needle : List UInt8) : List UInt8 :=
  needle.take ((needle.length - 1) % 2 ^ 32 + 1)

/-- The search has found the first bytes of the needle, and looks for the others. -/
structure Seeks (needle : List UInt8) (s : ChunkqSearch) (done left : List UInt8) : Prop where
  parts : done ++ left = searchedPart needle
  remains : left ≠ []
  needle : left <+: s.needle
  needleLen : s.needleLen = left.length % 2 ^ 32
  state : s.state = true ↔ done ≠ []

theorem length_searchedPart (h : needle ≠ []) :
    (searchedPart needle).length = (needle.length - 1) % 2 ^ 32 + 1 := by
  have hpos := List.length_pos_of_ne_nil h
  have hle : (needle.length - 1) % 2 ^ 32 ≤ needle.length - 1 := Nat.mod_le _ _
  unfold searchedPart
  rw [List.length_take]
  omega

namespace Seeks

theorem restart (s : ChunkqSearch) (h : needle ≠ []) :
    Seeks needle (s.restart needle) [] (searchedPart needle) := by
  have hlen := length_searchedPart h
  have hpos := List.length_pos_of_ne_nil h
  refine ⟨rfl, ?_, List.take_prefix _ _, ?_, by simp [ChunkqSearch.restart]⟩
  · apply List.ne_nil_of_length_pos
    omega
  · rw [hlen]
    unfold ChunkqSearch.restart
    simp only
    omega

theorem ne_nil (h : Seeks needle s done left) : needle ≠ [] := by
  rintro rfl
  have hparts := h.parts
  unfold searchedPart at hparts
  rw [List.take_nil] at hparts
  exact h.remains (List.append_eq_nil_iff.mp hparts).2

theorem congr {s' : ChunkqSearch} (h : Seeks needle s done left) (hneedle : s'.needle = s.needle)
    (hlen : s'.needleLen = s.needleLen) (hstate : s'.state = s.state) :
    Seeks needle s' done left := by
  refine ⟨h.parts, h.remains, ?_, ?_, ?_⟩
  · rw [hneedle]
    exact h.needle
  · rw [hlen]
    exact h.needleLen
  · rw [hstate]
    exact h.state

theorem head (h : Seeks needle s done (c :: left)) : s.needle.head? = some c := by
  obtain ⟨extra, hextra⟩ := h.needle
  rw [← hextra]
  rfl

theorem needleLen_next (h : Seeks needle s done (c :: left)) :
    sub32 s.needleLen 1 = left.length := by
  have hlen := congrArg List.length h.parts
  rw [length_searchedPart h.ne_nil, List.length_append, List.length_cons] at hlen
  rw [h.needleLen, List.length_cons]
  unfold sub32
  omega

theorem next (h : Seeks needle s done (c :: left)) (hleft : left ≠ []) (offset rd : ℕ) :
    Seeks needle ⟨offset, rd, true, s.needle.tail, sub32 s.needleLen 1⟩ (done ++ [c]) left := by
  have hlen := congrArg List.length h.parts
  rw [length_searchedPart h.ne_nil, List.length_append, List.length_cons] at hlen
  refine ⟨?_, hleft, ?_, ?_, by simp⟩
  · rw [List.append_assoc]
    exact h.parts
  · obtain ⟨extra, hextra⟩ := h.needle
    rw [← hextra]
    exact List.prefix_append _ _
  · rw [h.needleLen_next]
    simp only
    omega

end Seeks

/-! ## The inner loop -/

/-- Whatever the data is, what has been found lies in it in this order. -/
theorem chunknSearchMatch_sound (data : List UInt8) (h : Seeks needle s done left)
    (hstate : s.state = true) (hP : done <+ P) :
    ∃ found s' rest, chunknSearchMatch needle data s = some (found, s', rest) ∧
      rest.length ≤ data.length ∧
      (found = true → searchedPart needle <+ P ++ data) ∧
      (found = false → ∃ P' done' left', P ++ data = P' ++ rest ∧ done' <+ P' ∧
        Seeks needle s' done' left' ∧ (rest ≠ [] → done' = [])) := by
  induction data generalizing s done left P with
  | nil =>
      refine ⟨false, s, [], rfl, le_rfl, by simp, ?_⟩
      intro _
      exact ⟨P, done, left, rfl, hP, h, fun hne => absurd rfl hne⟩
  | cons b data ih =>
      obtain ⟨c, left, rfl⟩ := List.exists_cons_of_ne_nil h.remains
      by_cases hb : b = c
      · subst hb
        by_cases hleft : left = []
        · subst hleft
          have hzero : sub32 s.needleLen 1 = 0 := h.needleLen_next
          refine ⟨true, { s with rd := s.rd + 1, needleLen := 0 }, b :: data, ?_, le_rfl, ?_, by simp⟩
          · unfold chunknSearchMatch
            simp [h.head, hzero]
          · intro _
            rw [← h.parts]
            exact hP.append (List.singleton_sublist.mpr List.mem_cons_self)
        · have hnext := h.next hleft s.offset (s.rd + 1)
          have hpos : sub32 s.needleLen 1 ≠ 0 := by
            rw [h.needleLen_next]
            exact (List.length_pos_of_ne_nil hleft).ne'
          obtain ⟨found, s', rest, hrun, hlen, htrue, hfalse⟩ :=
            ih hnext rfl (P := P ++ [b]) (hP.append (List.Sublist.refl [b]))
          rw [List.append_assoc] at htrue hfalse
          refine ⟨found, s', rest, ?_, hlen.trans (Nat.le_succ _), htrue, hfalse⟩
          conv => lhs; unfold chunknSearchMatch
          simpa [h.head, hpos, hstate] using hrun
      · refine ⟨false, ChunkqSearch.restart { s with rd := s.rd + 1 } needle, b :: data, ?_, le_rfl,
          by simp, ?_⟩
        · unfold chunknSearchMatch
          simp [h.head, hb]
        · intro _
          exact ⟨P, [], _, rfl, List.nil_sublist _, .restart _ h.ne_nil, fun _ => rfl⟩

theorem chunknSearchMatch_found (h : Seeks needle s done left) (hstate : s.state = true)
    (post : List UInt8) :
    ∃ s' rest, chunknSearchMatch needle (left ++ post) s = some (true, s', rest) ∧
      s'.offset = s.offset := by
  induction left generalizing s done with
  | nil => exact absurd rfl h.remains
  | cons c left ih =>
      by_cases hleft : left = []
      · subst hleft
        have hzero : sub32 s.needleLen 1 = 0 := h.needleLen_next
        refine ⟨{ s with rd := s.rd + 1, needleLen := 0 }, c :: post, ?_, rfl⟩
        rw [List.singleton_append]
        unfold chunknSearchMatch
        simp [h.head, hzero]
      · have hnext := h.next hleft s.offset (s.rd + 1)
        have hpos : sub32 s.needleLen 1 ≠ 0 := by
          rw [h.needleLen_next]
          exact (List.length_pos_of_ne_nil hleft).ne'
        obtain ⟨s', rest, hrun, hoff⟩ := ih hnext rfl
        refine ⟨s', rest, ?_, hoff⟩
        rw [List.cons_append]
        conv => lhs; unfold chunknSearchMatch
        simpa [h.head, hpos, hstate] using hrun

theorem chunknSearchMatch_ends (h : Seeks needle s done (data ++ left)) (hleft : left ≠ [])
    (hstate : s.state = true) :
    ∃ s', chunknSearchMatch needle data s = some (false, s', []) ∧
      Seeks needle s' (done ++ data) left ∧ s'.offset = s.offset ∧ s'.state = true := by
  induction data generalizing s done with
  | nil =>
      rw [List.append_nil]
      exact ⟨s, rfl, h, rfl, hstate⟩
  | cons c data ih =>
      have hne : data ++ left ≠ [] := List.append_ne_nil_of_right_ne_nil _ hleft
      have hnext := h.next hne s.offset (s.rd + 1)
      have hpos : sub32 s.needleLen 1 ≠ 0 := by
        rw [Seeks.needleLen_next h]
        exact (List.length_pos_of_ne_nil hne).ne'
      obtain ⟨s', hrun, hseeks, hoff, hstate'⟩ := ih hnext rfl
      rw [List.append_assoc] at hseeks
      refine ⟨s', ?_, hseeks, hoff, hstate'⟩
      conv => lhs; unfold chunknSearchMatch
      simpa [Seeks.head h, hpos, hstate] using hrun

/-! ## The outer loop -/

theorem idxOf?_middle (pre post : List UInt8) (hpre : c ∉ pre) :
    (pre ++ c :: post).idxOf? c = some pre.length := by
  induction pre with
  | nil => simp [List.idxOf?_cons]
  | cons b pre ih =>
      rw [List.mem_cons, not_or] at hpre
      have hsome := ih hpre.2
      simp [List.idxOf?_cons, Ne.symm hpre.1, hsome]

/-- The search behind a byte of the needle that lies `p` bytes into the data. -/
def ChunkqSearch.hit (s : ChunkqSearch) (p : ℕ) : ChunkqSearch :=
  ⟨if s.state then s.offset else s.rd + p, s.rd + (p + 1), true, s.needle.tail,
    sub32 s.needleLen 1⟩

theorem chunknSearchLoop_last (fuel : ℕ) (rest : List UInt8) (index : ℤ)
    (h : Seeks needle s done [c]) (hpre : c ∉ pre) (hstart : ¬ (pre.length + 1 > 1 ∧ s.state = true)) :
    ∃ s', chunknSearchLoop needle (fuel + 1) s (pre ++ c :: rest) index = some (true, s') ∧
      s'.offset = (s.hit pre.length).offset := by
  have hzero : sub32 s.needleLen 1 = 0 := h.needleLen_next
  refine ⟨{ s.hit pre.length with needle := s.needle }, ?_, rfl⟩
  unfold chunknSearchLoop
  simp only [h.head, idxOf?_middle pre rest hpre, Option.bind_eq_bind, Option.bind_some,
    if_neg hstart]
  cases hstate : s.state with
  | true => simp [hzero, ChunkqSearch.hit, hstate]
  | false => simp [hzero, ChunkqSearch.hit, hstate, ← Nat.add_assoc]

theorem chunknSearchLoop_hit (fuel : ℕ) (rest : List UInt8) (index : ℤ)
    (h : Seeks needle s done (c :: left)) (hleft : left ≠ []) (hpre : c ∉ pre)
    (hstart : ¬ (pre.length + 1 > 1 ∧ s.state = true)) :
    Seeks needle (s.hit pre.length) (done ++ [c]) left ∧
      chunknSearchLoop needle (fuel + 1) s (pre ++ c :: rest) index =
        (chunknSearchMatch needle rest (s.hit pre.length)).bind fun r =>
          if r.1 = true ∨ r.2.2 = [] then some (r.1, r.2.1)
          else chunknSearchLoop needle fuel r.2.1 r.2.2 (pre.length + 1) := by
  have hpos : sub32 s.needleLen 1 ≠ 0 := by
    rw [h.needleLen_next]
    exact (List.length_pos_of_ne_nil hleft).ne'
  refine ⟨h.next hleft _ _, ?_⟩
  have hdrop : (pre ++ c :: rest).drop (pre.length + 1) = rest := by simp
  conv => lhs; unfold chunknSearchLoop
  simp only [h.head, idxOf?_middle pre rest hpre, Option.bind_eq_bind, Option.bind_some,
    if_neg hstart, hdrop]
  cases hstate : s.state with
  | true => simp [hpos, ChunkqSearch.hit, hstate]
  | false => simp [hpos, ChunkqSearch.hit, hstate, ← Nat.add_assoc]

theorem chunknSearchLoop_sound (data : List UInt8) (index : ℤ) (h : Seeks needle s done left)
    (hP : done <+ P)
    (hfuel : 2 * data.length + (if s.state then 1 else 0) < fuel) :
    ∃ found s', chunknSearchLoop needle fuel s data index = some (found, s') ∧
      (found = true → searchedPart needle <+ P ++ data) ∧
      (found = false → ∃ done' left', done' <+ P ++ data ∧ Seeks needle s' done' left') := by
  induction fuel generalizing s done left P data index with
  | zero => omega
  | succ fuel ih =>
      obtain ⟨c, left, rfl⟩ := List.exists_cons_of_ne_nil h.remains
      have hhead := h.head
      by_cases hmem : c ∈ data
      · obtain ⟨pre, rest, rfl, hpre⟩ := List.eq_append_cons_of_mem hmem
        have hdone : done ++ [c] <+ P ++ (pre ++ [c]) :=
          hP.append (List.sublist_append_right pre [c])
        by_cases hagain : pre.length + 1 > 1 ∧ s.state = true
        · rw [if_pos hagain.2] at hfuel
          obtain ⟨found, s', hrun, htrue, hfalse⟩ := ih (pre ++ c :: rest)
            (((pre.length : ℕ) : ℤ) + 1) (Seeks.restart s h.ne_nil)
            (List.nil_sublist P) (by simp [ChunkqSearch.restart] at hfuel ⊢; omega)
          refine ⟨found, s', ?_, htrue, hfalse⟩
          conv => lhs; unfold chunknSearchLoop
          simp only [hhead, idxOf?_middle pre rest hpre, Option.bind_eq_bind, Option.bind_some,
            if_pos hagain]
          exact hrun
        by_cases hleft : left = []
        · subst hleft
          obtain ⟨s', hrun, -⟩ := chunknSearchLoop_last fuel rest index h hpre hagain
          refine ⟨true, s', hrun, ?_, by simp⟩
          intro _
          rw [← h.parts]
          refine hdone.trans (List.Sublist.append_left ?_ P)
          exact List.Sublist.append_left (List.singleton_sublist.mpr List.mem_cons_self) pre
        obtain ⟨hseeks, hloop⟩ := chunknSearchLoop_hit fuel rest index h hleft hpre hagain
        obtain ⟨found, s', rest', hmatch, hlen, htrue, hfalse⟩ :=
          chunknSearchMatch_sound rest hseeks rfl hdone
        have hassoc : P ++ (pre ++ [c]) ++ rest = P ++ (pre ++ c :: rest) := by simp
        rw [hassoc] at htrue hfalse
        rw [hmatch, Option.bind_some] at hloop
        by_cases hend : found = true ∨ rest' = []
        · rw [if_pos hend] at hloop
          refine ⟨found, s', hloop, htrue, ?_⟩
          intro hfound
          obtain ⟨P', done', left', hP', hsub, hseeks', -⟩ := hfalse hfound
          rw [hP']
          exact ⟨done', left', hsub.trans (List.sublist_append_left _ _), hseeks'⟩
        · rw [if_neg hend] at hloop
          rw [not_or, Bool.not_eq_true] at hend
          obtain ⟨P', done', left', hP', hsub, hseeks', hnil⟩ := hfalse hend.1
          obtain rfl := hnil hend.2
          have hstate : s'.state = false := by
            rw [← Bool.not_eq_true, hseeks'.state]
            simp
          rw [hloop, hP']
          apply ih _ _ hseeks' hsub
          simp only [List.length_append, List.length_cons] at hfuel
          simp only [hstate, Bool.false_eq_true, if_false]
          split_ifs at hfuel <;> omega
      · -- The chunk is passed over, and what has been found stays found.
        have hnone : data.idxOf? c = none := List.idxOf?_eq_none_iff.mpr hmem
        refine ⟨false, if index < 0 then { s with rd := s.rd + data.length } else s, ?_, by simp, ?_⟩
        · conv => lhs; unfold chunknSearchLoop
          simp [hhead, hnone]
        · intro _
          refine ⟨done, c :: left, hP.trans (List.sublist_append_left _ _), ?_⟩
          split_ifs
          · exact h.congr rfl rfl rfl
          · exact h

/-! ## One chunk -/

theorem chunknSearchStep_miss (h : Seeks needle s done (c :: left)) (hmem : c ∉ data) :
    chunknSearchStep needle s data = some (false, { s with rd := s.rd + data.length }) := by
  have hnone : data.idxOf? c = none := List.idxOf?_eq_none_iff.mpr hmem
  unfold chunknSearchStep chunknSearchLoop
  simp [h.head, hnone]

theorem chunknSearchStep_found (h : Seeks needle s done (c :: left)) (hpre : c ∉ pre)
    (hstart : ¬ (pre.length + 1 > 1 ∧ s.state = true)) (hrest : left <+: rest) :
    ∃ s', chunknSearchStep needle s (pre ++ c :: rest) = some (true, s') ∧
      s'.offset = (s.hit pre.length).offset := by
  unfold chunknSearchStep
  by_cases hleft : left = []
  · subst hleft
    exact chunknSearchLoop_last _ _ _ h hpre hstart
  · obtain ⟨post, rfl⟩ := hrest
    obtain ⟨hseeks, hloop⟩ := chunknSearchLoop_hit
      (2 * (pre ++ c :: (left ++ post)).length + 1) (left ++ post) (-1) h hleft hpre hstart
    obtain ⟨s', rest', hmatch, hoff⟩ := chunknSearchMatch_found hseeks rfl post
    refine ⟨s', ?_, hoff⟩
    rw [hloop, hmatch]
    rfl

theorem chunknSearchStep_ends (h : Seeks needle s done (c :: (rest ++ left))) (hleft : left ≠ [])
    (hpre : c ∉ pre) (hstart : ¬ (pre.length + 1 > 1 ∧ s.state = true)) :
    ∃ s', chunknSearchStep needle s (pre ++ c :: rest) = some (false, s') ∧
      Seeks needle s' (done ++ c :: rest) left ∧ s'.offset = (s.hit pre.length).offset ∧
      s'.state = true := by
  have hne : rest ++ left ≠ [] := List.append_ne_nil_of_right_ne_nil _ hleft
  unfold chunknSearchStep
  obtain ⟨hseeks, hloop⟩ := chunknSearchLoop_hit
    (2 * (pre ++ c :: rest).length + 1) rest (-1) h hne hpre hstart
  obtain ⟨s', hmatch, hseeks', hoff, hstate⟩ := chunknSearchMatch_ends hseeks hleft rfl
  rw [List.append_assoc] at hseeks'
  refine ⟨s', ?_, hseeks', hoff, hstate⟩
  rw [hloop, hmatch]
  rfl

/-! ## All chunks -/

/-- The search through the chunks from where it is. -/
def searchChunks (needle : List UInt8) : ChunkqSearch → List (List UInt8) → Option ℤ
  | _, [] => some (-1)
  | s, data :: rest => do
      let (found, s) ← chunknSearchStep needle s data
      if found then return s.offset else searchChunks needle s rest

theorem searchChunks_found {s' : ChunkqSearch} (h : chunknSearchStep needle s data = some (true, s')) :
    searchChunks needle s (data :: chunks) = some (s'.offset : ℤ) := by
  unfold searchChunks
  simp [h]

theorem searchChunks_skip {s' : ChunkqSearch} (h : chunknSearchStep needle s data = some (false, s')) :
    searchChunks needle s (data :: chunks) = searchChunks needle s' chunks := by
  conv => lhs; unfold searchChunks
  simp [h]

theorem searchChunks_absent (h : Seeks needle s done left) (hP : done <+ P)
    (habsent : ¬ searchedPart needle <+ P ++ chunks.flatten) :
    searchChunks needle s chunks = some (-1) := by
  induction chunks generalizing s done left P with
  | nil => rfl
  | cons data chunks ih =>
      have hfuel : 2 * data.length + (if s.state then 1 else 0) < 2 * data.length + 2 := by
        split_ifs <;> omega
      obtain ⟨found, s', hrun, htrue, hfalse⟩ :=
        chunknSearchLoop_sound data (-1) h hP hfuel
      rw [List.flatten_cons, ← List.append_assoc] at habsent
      cases found with
      | true =>
          have hsub := (htrue rfl).trans (List.sublist_append_left (P ++ data) chunks.flatten)
          exact absurd hsub habsent
      | false =>
          obtain ⟨done', left', hsub, hseeks⟩ := hfalse rfl
          rw [searchChunks_skip hrun]
          exact ih hseeks hsub habsent

theorem searchChunks_hit {Q : List UInt8 → Prop} (h : Seeks needle s done (c :: left))
    (hpre : c ∉ pre) (hstart : ¬ (pre.length + 1 > 1 ∧ s.state = true))
    (hleft : left <+: rest ∨ ∃ left', left = rest ++ left' ∧ Q left')
    (hfollow : ∀ s' done' left', Seeks needle s' done' left' → s'.state = true → Q left' →
      searchChunks needle s' chunks = some (s'.offset : ℤ)) :
    searchChunks needle s ((pre ++ c :: rest) :: chunks) =
      some ((s.hit pre.length).offset : ℤ) := by
  rcases hleft with hrest | ⟨left', rfl, hQ⟩
  · obtain ⟨s', hrun, hoff⟩ := chunknSearchStep_found h hpre hstart hrest
    rw [searchChunks_found hrun, hoff]
  by_cases hnil : left' = []
  · subst hnil
    rw [List.append_nil] at h
    obtain ⟨s', hrun, hoff⟩ := chunknSearchStep_found h hpre hstart (List.prefix_refl rest)
    rw [searchChunks_found hrun, hoff]
  · obtain ⟨s', hrun, hseeks, hoff, hstate⟩ := chunknSearchStep_ends h hnil hpre hstart
    rw [searchChunks_skip hrun, hfollow _ _ _ hseeks hstate hQ, hoff]

theorem prefix_append_cases (h : left <+: rest ++ data) :
    left <+: rest ∨ ∃ left', left = rest ++ left' ∧ left' <+: data := by
  rcases List.prefix_or_prefix_of_prefix h (List.prefix_append rest data) with hrest | ⟨left', rfl⟩
  · exact Or.inl hrest
  · exact Or.inr ⟨left', rfl, (List.prefix_append_right_inj rest).mp h⟩

theorem searchChunks_follow (h : Seeks needle s done left) (hstate : s.state = true)
    (hne : ∀ data ∈ chunks, data ≠ []) (hleft : left <+: chunks.flatten) :
    searchChunks needle s chunks = some (s.offset : ℤ) := by
  induction chunks generalizing s done left with
  | nil => exact absurd (List.prefix_nil.mp hleft) h.remains
  | cons data chunks ih =>
      obtain ⟨b, rest, rfl⟩ := List.exists_cons_of_ne_nil (hne data List.mem_cons_self)
      obtain ⟨c, left, rfl⟩ := List.exists_cons_of_ne_nil h.remains
      rw [List.flatten_cons, List.cons_append, List.cons_prefix_cons] at hleft
      obtain ⟨rfl, hleft⟩ := hleft
      have hoff : (s.hit ([] : List UInt8).length).offset = s.offset := by
        simp [ChunkqSearch.hit, hstate]
      rw [← List.nil_append (c :: rest), ← hoff]
      apply searchChunks_hit h (by simp) (by simp) (prefix_append_cases hleft)
      intro s' done' left' hseeks hstate' hleft'
      exact ih hseeks hstate' (fun d hd => hne d (List.mem_cons_of_mem _ hd)) hleft'

theorem searchChunks_leads (h : Seeks needle s [] (c :: left)) (hne : ∀ data ∈ chunks, data ≠ [])
    (hpre : c ∉ pre) (hflat : chunks.flatten = pre ++ c :: (left ++ post)) :
    searchChunks needle s chunks = some ((s.rd + pre.length : ℕ) : ℤ) := by
  have hstate : s.state = false := by
    rw [← Bool.not_eq_true, h.state]
    simp
  induction chunks generalizing s pre with
  | nil =>
      rw [List.flatten_nil] at hflat
      simp at hflat
  | cons data chunks ih =>
      have hne' : ∀ d ∈ chunks, d ≠ [] := fun d hd => hne d (List.mem_cons_of_mem _ hd)
      rw [List.flatten_cons] at hflat
      -- The chunk lies before the needle, or the needle begins in it.
      have hskip : ∀ pre', pre = data ++ pre' → chunks.flatten = pre' ++ c :: (left ++ post) →
          searchChunks needle s (data :: chunks) = some ((s.rd + pre.length : ℕ) : ℤ) := by
        rintro pre' rfl hflat'
        rw [List.mem_append, not_or] at hpre
        have hseeks : Seeks needle { s with rd := s.rd + data.length } [] (c :: left) :=
          h.congr rfl rfl rfl
        rw [searchChunks_skip (chunknSearchStep_miss h hpre.1), ih hseeks hne' hpre.2 hflat' hstate,
          List.length_append, ← Nat.add_assoc]
      rcases List.append_eq_append_iff.mp hflat with ⟨pre', rfl, hflat'⟩ | ⟨post', hdata, hpost⟩
      · exact hskip pre' rfl hflat'
      cases post' with
      | nil =>
          rw [List.append_nil] at hdata
          exact hskip [] (by simp [hdata]) hpost.symm
      | cons b rest =>
          rw [List.cons_append] at hpost
          obtain ⟨rfl, htail⟩ := List.cons.inj hpost
          subst hdata
          have hoff : (s.hit pre.length).offset = s.rd + pre.length := by
            simp [ChunkqSearch.hit, hstate]
          rw [← hoff]
          apply searchChunks_hit h hpre (by simp [hstate]) (prefix_append_cases ⟨post, htail⟩)
          intro s' done' left' hseeks hstate' hleft'
          exact searchChunks_follow hseeks hstate' hne' hleft'

theorem searchChunks_singles_follow {bs : List UInt8} (h : Seeks needle s done left)
    (hstate : s.state = true) (hleft : left <+ bs) :
    searchChunks needle s (bs.map fun b => [b]) = some (s.offset : ℤ) := by
  induction bs generalizing s done left with
  | nil => exact absurd (List.sublist_nil.mp hleft) h.remains
  | cons b bs ih =>
      obtain ⟨c, left, rfl⟩ := List.exists_cons_of_ne_nil h.remains
      rw [List.map_cons]
      by_cases hb : b = c
      · subst hb
        rw [List.cons_sublist_cons] at hleft
        have hoff : (s.hit ([] : List UInt8).length).offset = s.offset := by
          simp [ChunkqSearch.hit, hstate]
        rw [← hoff, ← List.nil_append [b]]
        apply searchChunks_hit (Q := fun l => l <+ bs) h (by simp) (by simp) (Or.inr ⟨left, rfl, hleft⟩)
        exact fun s' done' left' hseeks hstate' hleft' => ih hseeks hstate' hleft'
      · have hmem : c ∉ [b] := by simp [Ne.symm hb]
        have hseeks : Seeks needle { s with rd := s.rd + [b].length } done (c :: left) :=
          h.congr rfl rfl rfl
        rw [searchChunks_skip (chunknSearchStep_miss h hmem)]
        apply ih hseeks hstate
        cases hleft with
        | cons _ hsub => exact hsub
        | cons_cons _ hsub => exact absurd rfl hb

theorem searchChunks_singles {bs : List UInt8} (h : Seeks needle s [] (c :: left)) (hpre : c ∉ pre)
    (hleft : left <+ bs) :
    searchChunks needle s ((pre ++ c :: bs).map fun b => [b]) =
      some ((s.rd + pre.length : ℕ) : ℤ) := by
  have hstate : s.state = false := by
    rw [← Bool.not_eq_true, h.state]
    simp
  induction pre generalizing s with
  | nil =>
      have hoff : (s.hit ([] : List UInt8).length).offset = s.rd + 0 := by
        simp [ChunkqSearch.hit, hstate]
      rw [List.nil_append, List.map_cons, List.length_nil, ← hoff, ← List.nil_append [c]]
      apply searchChunks_hit (Q := fun l => l <+ bs) h (by simp) (by simp) (Or.inr ⟨left, rfl, hleft⟩)
      exact fun s' done' left' hseeks hstate' hleft' =>
        searchChunks_singles_follow hseeks hstate' hleft'
  | cons b pre ih =>
      rw [List.mem_cons, not_or] at hpre
      have hmem : c ∉ [b] := by simpa using hpre.1
      have hseeks : Seeks needle { s with rd := s.rd + [b].length } [] (c :: left) :=
        h.congr rfl rfl rfl
      rw [List.cons_append, List.map_cons, searchChunks_skip (chunknSearchStep_miss h hmem),
        ih hseeks hpre.2 hstate]
      simp only [List.length_cons, List.length_nil, Option.some.injEq, Nat.cast_inj]
      omega

/-! ## The chunks of a queue -/

theorem chunkqIndexofLoop_spec (needle : List UInt8) (s : ChunkqSearch) {fuel : ℕ} {p : Option ℕ}
    {ss : List (ℕ × ℕ × List UInt8)}
    (h : Segments Chunkn.link (Chunkn.Carries q.chunk) q.store.nodes p ss)
    (hoff : ∀ s ∈ ss, s.2.1 = 0) (hfuel : ss.length ≤ fuel) :
    chunkqIndexofLoop q needle fuel p s = searchChunks needle s (ss.map fun u => u.2.2) := by
  induction fuel generalizing p ss s with
  | zero =>
      obtain rfl : ss = [] := List.length_eq_zero_iff.mp (Nat.le_zero.mp hfuel)
      obtain rfl : p = none := h.start
      rfl
  | succ fuel ih =>
      cases ss with
      | nil =>
          obtain rfl : p = none := h.start
          rfl
      | cons u rest =>
          obtain ⟨a, off, xs⟩ := u
          obtain ⟨rfl, -, n, hn, hc, hrest⟩ := Segments.cons_iff.mp h
          have hzero : n.offset = 0 := hc.offset.trans (hoff (a, off, xs) List.mem_cons_self)
          have hfits := hc.fits
          have hload : chunknLoad q n 0 n.size = some xs := by
            have hread := hc.bytes
            rw [hzero] at hread
            rw [chunknLoad_eq (by omega), hread]
          unfold chunkqIndexofLoop
          simp only [hn, hload, Option.bind_eq_bind, Option.bind_some, List.map_cons]
          conv => rhs; unfold searchChunks
          cases chunknSearchStep needle s xs with
          | none => rfl
          | some r =>
              have hloop := ih r.2 hrest (fun v hv => hoff v (List.mem_cons_of_mem _ hv))
                (Nat.le_of_succ_le_succ hfuel)
              rw [show n.next = Chunkn.link.get n from rfl]
              simp only [hloop, Option.bind_eq_bind, Option.bind_some]

/-- The search goes through the bytes from the offset on, cut as the nodes are. -/
theorem chunkqIndexof_spec (h : ChunkqHolds q L) (needle : List UInt8) (offset : ℕ) :
    ∃ chunks, chunkqIndexof q offset needle =
        searchChunks needle ⟨0, offset, false, needle, needle.length % 2 ^ 32⟩ chunks ∧
      chunks.flatten = L.drop offset ∧ ∀ data ∈ chunks, data ≠ [] ∧ data.length ≤ q.chunk := by
  have hqsize := h.size
  rcases h.locate offset with
    ⟨hend, x, hx⟩ | ⟨a, n, x, off, xs, skip, post, hx, hn, hc, hskip, hlt, hpost, hoff, hne, hbytes⟩
  · refine ⟨[], ?_, (List.drop_of_length_le hend).symm, by simp⟩
    unfold chunkqIndexof
    simp [hx, searchChunks]
  · have hsize : n.size = xs.length := hc.size
    have hfits := hc.fits
    have hload : chunknLoad q n (n.offset + skip) (n.size - skip) = some (xs.drop skip) := by
      have hread := (hc.consume (k := skip) hlt.le).2.bytes
      rw [chunknLoad_eq (by omega)]
      exact congrArg some hread
    have hfuel : post.length ≤ q.size + 1 := by
      have hlen := congrArg List.length hbytes
      have hpack := Packing.length_le (Or.inl hne)
      rw [List.length_append, List.length_drop, List.length_drop] at hlen
      omega
    have hflat : (xs.drop skip :: post.map (fun u => u.2.2)).flatten = L.drop offset := by
      rw [hbytes]
      rfl
    refine ⟨xs.drop skip :: post.map (fun u => u.2.2), ?_, hflat, ?_⟩
    · unfold chunkqIndexof
      simp only [hx, hn, hskip, hload, Option.bind_eq_bind, Option.bind_some]
      conv => rhs; unfold searchChunks
      cases chunknSearchStep needle ⟨0, offset, false, needle, needle.length % 2 ^ 32⟩
          (xs.drop skip) with
      | none => rfl
      | some r =>
          have hloop := chunkqIndexofLoop_spec needle r.2 hpost hoff hfuel
          simp only [hloop, Option.bind_eq_bind, Option.bind_some]
    · intro data hdata
      rcases List.mem_cons.mp hdata with rfl | hdata
      · refine ⟨?_, ?_⟩
        · rw [ne_eq, List.drop_eq_nil_iff]
          omega
        · rw [List.length_drop]
          omega
      · obtain ⟨u, hu, rfl⟩ := List.mem_map.mp hdata
        refine ⟨hne u hu, ?_⟩
        obtain ⟨m, -, hm⟩ := hpost.carries u hu
        have hmfits := hm.fits
        have hmsize := hm.size
        omega

/-! ## The least position -/

/-- The queues that calls make. -/
def ChunkqReached (q : Chunkq) : Prop :=
  ∃ env chunk ops rs, 0 < chunk ∧
    runAll (chunkqStep env) (chunkqAlloc chunk) ops = some (rs, q)

theorem chunkqReached_holds (chunk : ℕ) (hc : 0 < chunk) (L : List UInt8) :
    ∃ q, ChunkqReached q ∧ ChunkqHolds q L ∧ q.chunk = chunk ∧
      chunkqAppend ⟨fun _ => true, fun _ _ => 0⟩ (chunkqAlloc chunk) L = some ((L.length : ℤ), q) := by
  have hq := chunkqHolds_alloc hc
  obtain ⟨q, happ, hholds, hchunk⟩ := chunkqAppend_all ⟨fun _ => true, fun _ _ => 0⟩
    (fun _ => rfl) hc L
  refine ⟨q, ⟨⟨fun _ => true, fun _ _ => 0⟩, chunk, [.append L], [((L.length : ℤ), [])], hc, ?_⟩,
    hholds, hchunk, happ⟩
  simp [runAll, chunkqStep, happ]

theorem eq_singles (h : ∀ data ∈ chunks, data ≠ [] ∧ data.length ≤ 1) :
    chunks = chunks.flatten.map fun b => [b] := by
  induction chunks with
  | nil => rfl
  | cons data chunks ih =>
      obtain ⟨hne, hlen⟩ := h data List.mem_cons_self
      obtain ⟨b, rest, rfl⟩ := List.exists_cons_of_ne_nil hne
      rw [List.length_cons] at hlen
      obtain rfl : rest = [] := List.length_eq_zero_iff.mp (by omega)
      have ih' := ih fun d hd => h d (List.mem_cons_of_mem _ hd)
      rw [List.flatten_cons, List.singleton_append, List.map_cons, ← ih']

theorem sublist_behind (h : c :: left <+ pre ++ c :: post) (hpre : c ∉ pre) : left <+ post := by
  induction pre with
  | nil =>
      rw [List.nil_append, List.cons_sublist_cons] at h
      exact h
  | cons b pre ih =>
      rw [List.mem_cons, not_or] at hpre
      rw [List.cons_append] at h
      cases h with
      | cons _ hsub => exact ih hsub hpre.2
      | cons_cons _ hsub => exact absurd rfl hpre.1

theorem searchedPart_begins (needle : List UInt8) : searchedPart needle <+: needle :=
  List.take_prefix _ _

theorem prefix_drop_sublist {j : ℕ} (hj : offset ≤ j) (h : needle <+: L.drop j) :
    searchedPart needle <+ L.drop offset := by
  have hdrop : L.drop j = (L.drop offset).drop (j - offset) := by
    rw [List.drop_drop, Nat.add_sub_cancel' hj]
  rw [hdrop] at h
  exact ((searchedPart_begins needle).trans h).sublist.trans (List.drop_sublist _ _)

theorem isIndexof_leads (hpre : c ∉ pre) (hneedle : needle.head? = some c)
    (hL : L.drop offset = pre ++ needle ++ post) :
    IsIndexof L needle offset ((offset + pre.length : ℕ) : ℤ) := by
  refine Or.inl ⟨offset + pre.length, rfl, Nat.le_add_right _ _, ?_, ?_⟩
  · rw [← List.drop_drop, hL, List.append_assoc, List.drop_left]
    exact List.prefix_append _ _
  · intro j hj hpre
    by_contra hlt
    have hdrop : L.drop j = pre.drop (j - offset) ++ (needle ++ post) := by
      rw [← List.drop_append_of_le_length (by omega), ← List.append_assoc, ← hL, List.drop_drop,
        Nat.add_sub_cancel' hj]
    have hne : pre.drop (j - offset) ≠ [] := by
      rw [ne_eq, List.drop_eq_nil_iff]
      omega
    obtain ⟨b, rest, hb⟩ := List.exists_cons_of_ne_nil hne
    have hmem : b ∈ pre := List.mem_of_mem_drop (hb ▸ List.mem_cons_self)
    obtain ⟨extra, hextra⟩ := hpre
    have hhead := congrArg List.head? hextra
    rw [List.head?_append, hneedle, hdrop, hb] at hhead
    obtain rfl : c = b := Option.some.inj hhead
    exact hpre hmem

/-- The search is right for all cuts of the bytes into chunks exactly when the needle lies at the
first place of its first byte, or its bytes do not even follow one another with gaps. -/
theorem chunkqIndexof_iff (needle : List UInt8) (hneedle : needle ≠ []) (L : List UInt8)
    (offset : ℕ) :
    (∀ q, ChunkqReached q → ChunkqHolds q L →
      ∃ r, chunkqIndexof q offset needle = some r ∧ IsIndexof L needle offset r) ↔
    ¬ searchedPart needle <+ L.drop offset ∨ Leads needle (L.drop offset) := by
  have hstart : Seeks needle ⟨0, offset, false, needle, needle.length % 2 ^ 32⟩ []
      (searchedPart needle) := Seeks.restart ⟨0, offset, false, needle, 0⟩ hneedle
  obtain ⟨c, left, hpart⟩ := List.exists_cons_of_ne_nil hstart.remains
  obtain ⟨extra, hextra⟩ := searchedPart_begins needle
  rw [hpart] at hextra
  have hhead : needle.head? = some c := by
    rw [← hextra]
    rfl
  constructor
  · intro h
    by_contra hcon
    rw [not_or, not_not] at hcon
    obtain ⟨hsub, hleads⟩ := hcon
    obtain ⟨q, hreached, hholds, hchunk, -⟩ := chunkqReached_holds 1 Nat.zero_lt_one L
    obtain ⟨r, hr, hindex⟩ := h q hreached hholds
    obtain ⟨chunks, heq, hflat, hsingle⟩ := chunkqIndexof_spec hholds needle offset
    rw [hchunk] at hsingle
    rw [hpart] at hsub hstart
    obtain ⟨pre, bs, hsplit, hpre⟩ := List.eq_append_cons_of_mem (hsub.subset List.mem_cons_self)
    rw [hsplit] at hsub
    rw [eq_singles hsingle, hflat, hsplit] at heq
    have hrun := searchChunks_singles hstart hpre (sublist_behind hsub hpre)
    rw [hr] at heq
    obtain rfl := Option.some.inj (heq.trans hrun)
    rcases hindex with ⟨i, hi, -, ⟨post, hpost⟩, -⟩ | ⟨hneg, -⟩
    · obtain rfl := Int.ofNat.inj hi
      apply hleads
      refine ⟨pre, post, ?_, ?_⟩
      · rw [← List.drop_drop, hsplit, List.drop_left] at hpost
        rw [List.append_assoc, hpost, hsplit]
      · rw [hhead]
        rintro _ ⟨⟩
        exact hpre
    · simp only at hneg
      omega
  · intro h q _ hholds
    obtain ⟨chunks, heq, hflat, hsingle⟩ := chunkqIndexof_spec hholds needle offset
    rcases h with habsent | ⟨pre, post, hL, hpre⟩
    · refine ⟨-1, ?_, Or.inr ⟨rfl, ?_⟩⟩
      · rw [heq]
        apply searchChunks_absent hstart (List.nil_sublist [])
        rw [List.nil_append, hflat]
        exact habsent
      · intro j hj hpre
        exact habsent (prefix_drop_sublist hj hpre)
    · have hpre' : c ∉ pre := hpre c hhead
      rw [hpart] at hstart
      refine ⟨((offset + pre.length : ℕ) : ℤ), ?_, isIndexof_leads hpre' hhead hL⟩
      rw [heq]
      have hbytes : chunks.flatten = pre ++ c :: (left ++ (extra ++ post)) := by
        rw [hflat, hL, ← hextra]
        simp
      exact searchChunks_leads hstart (fun d hd => (hsingle d hd).1) hpre' hbytes

theorem chunkqIndexof_iff_pair :
    [1, 3] ≠ ([] : List UInt8) ∧
    ∀ q, ChunkqReached q → ChunkqHolds q [2, 1, 3] →
      ∃ r, chunkqIndexof q 0 [1, 3] = some r ∧ IsIndexof [2, 1, 3] [1, 3] 0 r := by
  refine ⟨by simp, (chunkqIndexof_iff [1, 3] (by simp) [2, 1, 3] 0).mpr (Or.inr ⟨[2], [], rfl, ?_⟩)⟩
  simp

/-- A byte that differs is counted twice, so what is found behind it is reported too far on. -/
theorem chunkqIndexof_counted_twice : ∃ q, ChunkqReached q ∧ ChunkqHolds q [1, 2, 1, 3] ∧
    ¬ ∃ r, chunkqIndexof q 0 [1, 3] = some r ∧ IsIndexof [1, 2, 1, 3] [1, 3] 0 r := by
  obtain ⟨q, hreached, hholds, -, happ⟩ :=
    chunkqReached_holds 8 (by decide) [1, 2, 1, 3]
  have hrun : ((chunkqAppend ⟨fun _ => true, fun _ _ => 0⟩ (chunkqAlloc 8) [1, 2, 1, 3]).bind
      fun r => chunkqIndexof r.2 0 [1, 3]) = some 3 := by
    decide
  rw [happ, Option.bind_some] at hrun
  refine ⟨q, hreached, hholds, ?_⟩
  rintro ⟨r, hr, ⟨i, hi, -, -, hleast⟩ | ⟨hneg, -⟩⟩
  · rw [hrun] at hr
    obtain rfl := Option.some.inj hr
    obtain rfl : i = 3 := by omega
    exact absurd (hleast 2 (by decide) (by decide)) (by decide)
  · rw [hrun] at hr
    obtain rfl := Option.some.inj hr
    exact absurd hneg (by decide)

end Carthage
