import LuoOS.Klib
import LuoOS.Lib.Runs
import Mathlib.Logic.Function.Basic

/-!
# The block cache's `shared_lru`

`eastl::shared_lru` of `include/bio.hh`, generic in keys and values. The list holds strong
references, the map `active` weak ones with the list position of each key. A value is deleted with
its last strong reference, and its deleter takes the key out of `active`.

A strong reference is in a list node or with a caller, so the count of a value is the number of its
`owners`. Nodes and values are numbered by a counter. What `refill` and a deletion do outside of the
cache is a parameter (`Backing`).
-/

namespace LuoOS.Bio

open Function

/-- How a value is made, and what its deletion does. -/
structure Backing (K V E : Type) where
  refill : K → E → V × E
  destroy : V → E → E

/-- A node of the list, with its strong reference. -/
structure Node (K : Type) where
  id : Nat
  key : K
  ref : Option Nat

/-- The cache, with its values and their owners. -/
structure SharedLru (K V : Type) where
  /-- The value of a key and its list position, where `none` is `lru.end()`. -/
  active : K → Option (Nat × Option Nat)
  lru : List (Node K)
  capacity : Nat
  /-- The values that have not been deleted, each with the key its deleter has captured. -/
  heap : Nat → Option (K × V)
  held : List Nat
  fresh : Nat

namespace SharedLru

variable {K V E : Type} [DecidableEq K]

def new (capacity : Nat) : SharedLru K V where
  active _ := none
  lru := []
  capacity := capacity
  heap _ := none
  held := []
  fresh := 0

def owners (s : SharedLru K V) : List Nat := s.lru.filterMap Node.ref ++ s.held

def useCount (s : SharedLru K V) (b : Nat) : Nat := s.owners.count b

def lock (s : SharedLru K V) (b : Nat) : Option Nat := if 0 < s.useCount b then some b else none

section

variable (back : Backing K V E)

def release (s : SharedLru K V) (e : E) : Option Nat → SharedLru K V × E
  | none => (s, e)
  | some b =>
    match s.heap b with
    | some (key, val) =>
      if s.useCount b = 0 then
        ({ s with active := update s.active key none
                  heap := update s.heap b none }, back.destroy val e)
      else (s, e)
    | none => (s, e)

def erase (s : SharedLru K V) (e : E) (it : Option Nat) : Kern (SharedLru K V × E) :=
  match s.lru.find? fun n => some n.id = it with
  | some n => .ok (release back { s with lru := s.lru.filter fun m => m.id ≠ n.id } e n.ref)
  | none => .error .wildPointer

def reserve (s : SharedLru K V) (e : E) : Kern (SharedLru K V × E) :=
  if s.lru.length > s.capacity then
    match s.lru.getLast? with
    | some n =>
      match s.active n.key with
      | some (b, _) =>
        .ok (release back { s with active := update s.active n.key (some (b, none))
                                   lru := s.lru.dropLast } e n.ref)
      | none => .error .wildPointer
    | none => .error .wildPointer
  else .ok (s, e)

/-- `getOrSet`. The reference `rt` that it returns is with the caller from its creation on. -/
def getOrSet (s : SharedLru K V) (e : E) (key : K) : Kern (Option Nat × SharedLru K V × E) :=
  match s.active key with
  | some (b, it) => do
    let rt := s.lock b
    let (s, e) ← erase back { s with held := rt.toList ++ s.held } e it
    match s.active key with
    | some (b, _) =>
      .ok (rt, { s with lru := ⟨s.fresh, key, rt⟩ :: s.lru
                        active := update s.active key (some (b, some s.fresh))
                        fresh := s.fresh + 1 }, e)
    | none => .error .wildPointer
  | none => do
    let (s, e) ← reserve back s e
    let (val, e) := back.refill key e
    let b := s.fresh
    .ok (some b, { s with heap := update s.heap b (some (key, val))
                          held := b :: s.held
                          lru := ⟨s.fresh + 1, key, some b⟩ :: s.lru
                          active := update s.active key (some (b, some (s.fresh + 1)))
                          fresh := s.fresh + 2 }, e)

def drop (s : SharedLru K V) (e : E) (b : Nat) : SharedLru K V × E :=
  release back { s with held := s.held.erase b } e (some b)

end

def modify (s : SharedLru K V) (b : Nat) (f : V → V) : SharedLru K V :=
  { s with heap := update s.heap b ((s.heap b).map fun p => (p.1, f p.2)) }

/-- The calls on the cache and on its values. -/
inductive Op (K V : Type) where
  | getOrSet (key : K)
  | modify (b : Nat) (f : V → V)
  | drop (b : Nat)

def Op.Legal (s : SharedLru K V) : Op K V → Prop
  | .getOrSet _ => True
  | .modify b _ => b ∈ s.held
  | .drop b => b ∈ s.held

def Op.Resident (s : SharedLru K V) : Op K V → Prop
  | .getOrSet key => ∀ b ∈ s.held, (s.heap b).map Prod.fst = some key → ∃ n ∈ s.lru, n.key = key
  | .modify _ _ => True
  | .drop _ => True

instance (s : SharedLru K V) (op : Op K V) : Decidable (op.Legal s) := by
  unfold Op.Legal
  split <;> infer_instance

instance (s : SharedLru K V) (op : Op K V) : Decidable (op.Resident s) := by
  unfold Op.Resident
  split <;> infer_instance

def step (back : Backing K V E) (st : SharedLru K V × E) : Op K V → Kern (SharedLru K V × E)
  | .getOrSet key => do
    let (_, st) ← getOrSet back st.1 st.2 key
    .ok st
  | .modify b f => .ok (st.1.modify b f, st.2)
  | .drop b => .ok (drop back st.1 st.2 b)

end SharedLru

end LuoOS.Bio
