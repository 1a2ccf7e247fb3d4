import Carthage.DataCache

/-!
# What a cache is for

A cache keeps its entries in the order in which they came or were released, the latest first,
apart from those that are retained. A full cache makes room at one end of that order.
-/

namespace Carthage

structure CacheEntry (K V : Type) where
  key : K
  data : V
  /-- How many times it was retained and not released. -/
  count : ℕ
  deriving DecidableEq

/-- The entries in order, the retained ones, and those that left, oldest first. -/
structure CacheView (K V : Type) where
  recent : List (CacheEntry K V)
  retained : List (CacheEntry K V)
  left : List (CacheEntry K V)

variable {K V : Type}

namespace CacheView

def entries (v : CacheView K V) : List (CacheEntry K V) := v.recent ++ v.retained

def Absent (ops : KeyOps K) (v : CacheView K V) (key : K) : Prop :=
  ∀ e ∈ v.entries, ops.keycmp e.key key ≠ 0

def recount (ops : KeyOps K) (key : K) (count : ℕ) (e : CacheEntry K V) : CacheEntry K V :=
  if ops.keycmp e.key key = 0 then { e with count := count } else e

def setCount (ops : KeyOps K) (v : CacheView K V) (key : K) (count : ℕ) : CacheView K V :=
  ⟨v.recent.map (recount ops key count), v.retained.map (recount ops key count), v.left⟩

/-- Making room for one more entry. -/
inductive Makes (args : CacheArgs K V) : CacheView K V → CacheView K V → Prop
  | room (v : CacheView K V) : v.entries.length ≠ args.size → Makes args v v
  | lru (v : CacheView K V) (es : List (CacheEntry K V)) (e : CacheEntry K V) :
      args.type = .lru → v.entries.length = args.size → v.recent = es ++ [e] →
      Makes args v ⟨es, v.retained, v.left ++ [e]⟩
  | mru (v : CacheView K V) (es : List (CacheEntry K V)) (e : CacheEntry K V) :
      args.type = .mru → v.entries.length = args.size → v.recent = e :: es →
      Makes args v ⟨es, v.retained, v.left ++ [e]⟩

end CacheView

open CacheView in
/-- What the operations do to the entries, and what they return. -/
inductive CacheSpec (args : CacheArgs K V) :
    CacheView K V → CacheOp K V × CacheRes V → CacheView K V → Prop
  | insert (v v' : CacheView K V) (key : K) (data : V) : v.Makes args v' →
      v'.Absent args.toKeyOps key → CacheSpec args v (.insert key data, .code 0)
        { v' with recent := ⟨key, data, 0⟩ :: v'.recent }
  | refuse (v v' : CacheView K V) (key : K) (data : V) : v.Makes args v' →
      CacheSpec args v (.insert key data, .code (-2)) v'
  | missing (v : CacheView K V) (key : K) : v.Absent args.toKeyOps key →
      CacheSpec args v (.remove key, .code (-1)) v
  | busy (v : CacheView K V) (key : K) (e : CacheEntry K V) : e ∈ v.entries →
      args.keycmp e.key key = 0 → 0 < e.count → CacheSpec args v (.remove key, .code (-2)) v
  | remove (v : CacheView K V) (key : K) (l₁ l₂ : List (CacheEntry K V)) (e : CacheEntry K V) :
      v.recent = l₁ ++ e :: l₂ → args.keycmp e.key key = 0 → e.count = 0 →
      CacheSpec args v (.remove key, .code 0) ⟨l₁ ++ l₂, v.retained, v.left ++ [e]⟩
  | noRetain (v : CacheView K V) (key : K) : v.Absent args.toKeyOps key →
      CacheSpec args v (.retain key, .data none) v
  | pin (v : CacheView K V) (key : K) (l₁ l₂ : List (CacheEntry K V)) (e : CacheEntry K V) :
      v.recent = l₁ ++ e :: l₂ → args.keycmp e.key key = 0 → e.count = 0 →
      CacheSpec args v (.retain key, .data (some e.data))
        ⟨l₁ ++ l₂, { e with count := 1 } :: v.retained, v.left⟩
  | retain (v : CacheView K V) (key : K) (e : CacheEntry K V) : e ∈ v.entries →
      args.keycmp e.key key = 0 → e.count ≠ 0 →
      CacheSpec args v (.retain key, .data (some e.data))
        (v.setCount args.toKeyOps key ((e.count + 1) % 2 ^ 64))
  | noRelease (v : CacheView K V) (key : K) : v.Absent args.toKeyOps key →
      CacheSpec args v (.release key, .code (-1)) v
  | release (v : CacheView K V) (key : K) (e : CacheEntry K V) : e ∈ v.entries →
      args.keycmp e.key key = 0 → e.count ≠ 1 →
      CacheSpec args v (.release key, .code 0)
        (v.setCount args.toKeyOps key ((e.count + 2 ^ 64 - 1) % 2 ^ 64))
  | unpin (v : CacheView K V) (key : K) (l₁ l₂ : List (CacheEntry K V)) (e : CacheEntry K V) :
      v.retained = l₁ ++ e :: l₂ → args.keycmp e.key key = 0 → e.count = 1 →
      CacheSpec args v (.release key, .code 0)
        ⟨{ e with count := 0 } :: v.recent, l₁ ++ l₂, v.left⟩
  | clear (v : CacheView K V) : v.retained = [] →
      CacheSpec args v (.clear, .code 0) ⟨[], [], v.left ++ v.recent⟩
  | keep (v : CacheView K V) : v.retained ≠ [] → CacheSpec args v (.clear, .code (-1)) v

end Carthage
