import Mathlib.Data.List.Nodup
import Mathlib.Logic.Function.Basic
import Mathlib.Tactic

/-!
# Singly linked chains in a heap

A heap maps addresses to nodes, and a `LinkField` names one pointer field of the
nodes. `Path F h p as q` says that following that field from `p` visits exactly
the addresses `as` and then holds `q`; a chain is a path that ends in the null
pointer. The lemmas say which heap updates keep a path, and how a path is cut,
extended and relinked at its last node.
-/

namespace Carthage

/-- A pointer field of the nodes `N`: how it is read and how it is overwritten. -/
structure LinkField (A N : Type) where
  get : N → Option A
  set : Option A → N → N
  get_set : ∀ q n, get (set q n) = q

namespace LinkField

variable {A N : Type} (F : LinkField A N)

def Path (h : A → Option N) : Option A → List A → Option A → Prop
  | p, [], q => p = q
  | p, a :: as, q => p = some a ∧ ∃ n, h a = some n ∧ Path h (F.get n) as q

def Chain (h : A → Option N) (p : Option A) (as : List A) : Prop := F.Path h p as none

variable {F} {h h' : A → Option N} {p q r : Option A} {as bs : List A} {a : A}

@[simp] theorem path_nil : F.Path h p [] q ↔ p = q := Iff.rfl

theorem path_cons : F.Path h p (a :: as) q ↔
    p = some a ∧ ∃ n, h a = some n ∧ F.Path h (F.get n) as q := Iff.rfl

theorem path_append : F.Path h p (as ++ bs) q ↔ ∃ r, F.Path h p as r ∧ F.Path h r bs q := by
  induction as generalizing p with
  | nil => simp
  | cons a as ih =>
      simp only [List.cons_append, path_cons, ih]
      constructor
      · rintro ⟨hp, n, hn, r, has, hbs⟩
        exact ⟨r, ⟨hp, n, hn, has⟩, hbs⟩
      · rintro ⟨r, ⟨hp, n, hn, has⟩, hbs⟩
        exact ⟨hp, n, hn, r, has, hbs⟩

theorem path_concat : F.Path h p (as ++ [a]) q ↔
    F.Path h p as (some a) ∧ ∃ n, h a = some n ∧ F.get n = q := by
  rw [path_append]
  constructor
  · rintro ⟨r, has, rfl, n, hn, hq⟩
    exact ⟨has, n, hn, hq⟩
  · rintro ⟨has, n, hn, hq⟩
    exact ⟨some a, has, rfl, n, hn, hq⟩

theorem Path.alive (hp : F.Path h p as q) (ha : a ∈ as) : ∃ n, h a = some n := by
  induction as generalizing p with
  | nil => cases ha
  | cons b as ih =>
      obtain ⟨-, n, hn, hrest⟩ := hp
      rcases List.mem_cons.mp ha with rfl | ha
      · exact ⟨n, hn⟩
      · exact ih hrest ha

theorem Path.congr (hp : F.Path h p as q)
    (heq : ∀ a ∈ as, (h' a).map F.get = (h a).map F.get) : F.Path h' p as q := by
  induction as generalizing p with
  | nil => exact hp
  | cons a as ih =>
      obtain ⟨rfl, n, hn, hrest⟩ := hp
      have ha := heq a List.mem_cons_self
      rw [hn] at ha
      obtain ⟨n', hn', hget⟩ := Option.map_eq_some_iff.mp ha
      refine ⟨rfl, n', hn', ?_⟩
      rw [hget]
      exact ih hrest (fun b hb => heq b (List.mem_cons_of_mem a hb))

theorem Path.congr_eq (hp : F.Path h p as q) (heq : ∀ a ∈ as, h' a = h a) : F.Path h' p as q :=
  hp.congr (fun a ha => by rw [heq a ha])

theorem Chain.unique (hx : F.Chain h p as) (hy : F.Chain h p bs) : as = bs := by
  induction as generalizing p bs with
  | nil =>
      cases bs with
      | nil => rfl
      | cons b bs =>
          obtain rfl : p = none := hx
          cases hy.1
  | cons a as ih =>
      obtain ⟨rfl, n, hn, hx⟩ := hx
      cases bs with
      | nil => cases (hy : some a = none)
      | cons b bs =>
          obtain ⟨hb, n', hn', hy⟩ := hy
          obtain rfl := Option.some.inj hb
          rw [hn] at hn'
          obtain rfl := Option.some.inj hn'
          rw [ih hx hy]

theorem Chain.mem_of_path (hc : F.Chain h p bs) (hp : F.Path h p as (some a)) : a ∈ bs := by
  induction as generalizing p bs with
  | nil =>
      obtain rfl : p = some a := hp
      cases bs with
      | nil => cases hc
      | cons b bs =>
          rw [Option.some.inj hc.1]
          exact List.mem_cons_self
  | cons x as ih =>
      obtain ⟨rfl, n, hn, hp⟩ := hp
      cases bs with
      | nil => cases hc
      | cons b bs =>
          obtain ⟨hb, n', hn', hc⟩ := hc
          obtain rfl := Option.some.inj hb
          obtain rfl := Option.some.inj (hn.symm.trans hn')
          exact List.mem_cons_of_mem _ (ih hc hp)

theorem Path.start_eq_head (hp : F.Path h p as none) : p = as.head? := by
  cases as with
  | nil => exact hp
  | cons a as => exact hp.1

variable [DecidableEq A]

/-- Overwrite the link field of the node at `a`. -/
def relink (F : LinkField A N) (h : A → Option N) (a : A) (q : Option A) : A → Option N :=
  Function.update h a ((h a).map (F.set q))

theorem relink_of_ne {b : A} (hb : b ≠ a) : F.relink h a q b = h b :=
  Function.update_of_ne hb _ _

theorem relink_self : F.relink h a q a = (h a).map (F.set q) := Function.update_self _ _ _

theorem Path.relink_of_notMem (hp : F.Path h p as r) (ha : a ∉ as) :
    F.Path (F.relink h a q) p as r :=
  hp.congr_eq (fun _ hb => relink_of_ne (fun he => ha (he ▸ hb)))

theorem Path.relink_last (hp : F.Path h p (as ++ [a]) r) (hnd : a ∉ as) :
    F.Path (F.relink h a q) p (as ++ [a]) q := by
  rw [path_concat] at hp ⊢
  obtain ⟨has, n, hn, -⟩ := hp
  refine ⟨has.relink_of_notMem hnd, F.set q n, ?_, F.get_set q n⟩
  rw [relink_self, hn]
  rfl

end LinkField

end Carthage
