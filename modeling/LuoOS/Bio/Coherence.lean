import LuoOS.Bio.SharedLru
import Mathlib.Data.List.Pairwise

/-!
# Coherence of `shared_lru`

One step of the cache keeps `Inv`: the list, the map and the values agree, and a value exists as
long as somebody refers to it. The one call that does not is a hit on a key whose value was evicted
while a caller still holds it: the map then has `lru.end()`, which the hit erases.
`coherent_of_resident` is about every run without such a call.
-/

namespace LuoOS.Bio.SharedLru

open Runs Function

variable {K V E : Type} {s : SharedLru K V}

/-! ## The invariant -/

/-- The list, the map and the values refer to one another. -/
structure Linked (s : SharedLru K V) : Prop where
  node : ∀ n ∈ s.lru, ∃ b, n.ref = some b ∧ s.active n.key = some (b, some n.id)
  entry : ∀ k b it, s.active k = some (b, it) → ∃ v, s.heap b = some (k, v)
  place : ∀ k b i, s.active k = some (b, some i) → ∃ n ∈ s.lru, n.id = i ∧ n.key = k
  value : ∀ b k v, s.heap b = some (k, v) → ∃ it, s.active k = some (b, it)
  apart : s.lru.Pairwise fun m n => m.key ≠ n.key ∧ m.id ≠ n.id
  id_lt : ∀ n ∈ s.lru, n.id < s.fresh
  value_lt : ∀ b, s.heap b ≠ none → b < s.fresh

/-- Besides, a value exists exactly while it has owners. -/
structure Inv (s : SharedLru K V) : Prop extends Linked s where
  live : ∀ b, s.heap b ≠ none ↔ b ∈ s.owners
  length_le : s.lru.length ≤ s.capacity + 1

theorem Linked.key_iff_id (h : Linked s) {m n : Node K} (hm : m ∈ s.lru) (hn : n ∈ s.lru) :
    m.key = n.key ↔ m.id = n.id := by
  have hsymm : Std.Symm fun m n : Node K => m.key ≠ n.key ∧ m.id ≠ n.id :=
    ⟨fun _ _ h => ⟨h.1.symm, h.2.symm⟩⟩
  by_cases hmn : m = n
  · rw [hmn]
    exact iff_of_true rfl rfl
  · obtain ⟨hkey, hid⟩ := h.apart.forall hm hn hmn
    exact iff_of_false hkey hid

variable {b : Nat} {k : K} {v : V}

theorem Linked.value_unique (h : Linked s) {b' : Nat} {v' : V}
    (hb : s.heap b = some (k, v)) (hb' : s.heap b' = some (k, v')) : b = b' := by
  obtain ⟨it, hit⟩ := h.value b k v hb
  obtain ⟨it', hit'⟩ := h.value b' k v' hb'
  cases hit.symm.trans hit'
  rfl

theorem Linked.active_iff (h : Linked s) (k : K) :
    s.active k ≠ none ↔ ∃ b v, s.heap b = some (k, v) := by
  constructor
  · intro hk
    obtain ⟨⟨b, it⟩, hit⟩ := Option.ne_none_iff_exists'.1 hk
    obtain ⟨v, hv⟩ := h.entry k b it hit
    exact ⟨b, v, hv⟩
  · rintro ⟨b, v, hv⟩
    obtain ⟨it, hit⟩ := h.value b k v hv
    rw [hit]
    exact Option.some_ne_none _

theorem mem_owners : b ∈ s.owners ↔ (∃ n ∈ s.lru, n.ref = some b) ∨ b ∈ s.held := by
  unfold owners
  rw [List.mem_append, List.mem_filterMap]

theorem useCount_eq_zero : s.useCount b = 0 ↔ b ∉ s.owners := List.count_eq_zero

theorem inv_new (c : Nat) : Inv (new c : SharedLru K V) := by
  refine ⟨⟨nofun, nofun, nofun, nofun, .nil, nofun, ?_⟩, ?_, Nat.zero_le _⟩
  · intro b h
    exact absurd rfl h
  · simp [new, owners]

def cached (s : SharedLru K V) (k : K) : Option V :=
  (s.active k).bind fun p => (s.heap p.1).map Prod.snd

theorem cached_eq {it : Option Nat} (hk : s.active k = some (b, it))
    (hb : s.heap b = some (k, v)) : s.cached k = some v := by
  unfold cached
  rw [hk, Option.bind_some, hb]
  rfl

theorem cached_eq_none (hk : s.active k = none) : s.cached k = none := by
  unfold cached
  rw [hk]
  rfl

/-! ## Giving up a reference -/

variable [DecidableEq K] {back : Backing K V E} {e : E}

/-- Dropping a reference deletes one value at most. -/
inductive Shed (back : Backing K V E) (s : SharedLru K V) (e : E) (s' : SharedLru K V) (e' : E) :
    Prop
  | keep (hcached : s'.cached = s.cached) (he : e' = e)
  | delete (j : K) (v : V) (hj : s.cached j = some v)
      (hcached : s'.cached = update s.cached j none) (he : e' = back.destroy v e)

theorem Shed.congr {s1 s' : SharedLru K V} {e' : E} (h : Shed back s1 e s' e')
    (hcached : s1.cached = s.cached) : Shed back s e s' e' := by
  cases h with
  | keep hc he => exact .keep (hc.trans hcached) he
  | delete j v hj hc he =>
    rw [hcached] at hj hc
    exact .delete j v hj hc he

def deleted (s : SharedLru K V) (key : K) (b : Nat) : SharedLru K V :=
  { s with active := update s.active key none, heap := update s.heap b none }

section Deleted

variable {key : K} {val : V} {b : Nat} (hb : s.heap b = some (key, val))

omit [DecidableEq K] in
include hb in
theorem Linked.key_iff (h : Linked s) {c : Nat} {k : K} {v : V} (hc : s.heap c = some (k, v)) :
    k = key ↔ c = b := by
  constructor
  · rintro rfl
    exact h.value_unique hc hb
  · rintro rfl
    cases hb.symm.trans hc
    rfl

include hb in
theorem Linked.deleted (h : Linked s) (hown : b ∉ s.owners) : Linked (s.deleted key b) := by
  obtain ⟨it, hit⟩ := h.value b key val hb
  have hnode : ∀ n ∈ s.lru, n.key ≠ key := by
    rintro n hn rfl
    obtain ⟨b', href, hact⟩ := h.node n hn
    cases hit.symm.trans hact
    exact hown (mem_owners.2 (.inl ⟨n, hn, href⟩))
  have hactive : ∀ {k p}, update s.active key none k = some p → k ≠ key ∧ s.active k = some p :=
    fun hk => (update_eq_some.1 hk).resolve_left nofun
  have hheap : ∀ {c p}, update s.heap b none c = some p → c ≠ b ∧ s.heap c = some p :=
    fun hc => (update_eq_some.1 hc).resolve_left nofun
  refine ⟨?_, ?_, ?_, ?_, h.apart, h.id_lt, ?_⟩
  · intro n hn
    obtain ⟨b', href, hact⟩ := h.node n hn
    exact ⟨b', href, (update_of_ne (hnode n hn) ..).trans hact⟩
  · intro k c it hk
    obtain ⟨hkey, hk⟩ := hactive hk
    obtain ⟨v, hv⟩ := h.entry k c it hk
    exact ⟨v, (update_of_ne (fun hc => hkey ((h.key_iff hb hv).2 hc)) ..).trans hv⟩
  · intro k c i hk
    exact h.place k c i (hactive hk).2
  · intro c k v hc
    obtain ⟨hcb, hc⟩ := hheap hc
    obtain ⟨it', hit'⟩ := h.value c k v hc
    exact ⟨it', (update_of_ne (fun hk => hcb ((h.key_iff hb hc).1 hk)) ..).trans hit'⟩
  · intro c hc
    obtain ⟨p, hp⟩ := Option.ne_none_iff_exists'.1 hc
    exact h.value_lt c (by simp [(hheap hp).2])

include hb in
theorem Linked.cached_deleted (h : Linked s) :
    (s.deleted key b).cached = update s.cached key none := by
  funext k
  by_cases hkey : k = key
  · rw [hkey, update_self]
    exact cached_eq_none (update_self ..)
  rw [update_of_ne hkey]
  unfold cached SharedLru.deleted
  dsimp only
  rw [update_of_ne hkey]
  refine Option.bind_congr fun p hp => ?_
  obtain ⟨v, hv⟩ := h.entry k p.1 p.2 hp
  rw [update_of_ne fun hc => hkey ((h.key_iff hb hv).2 hc)]

end Deleted

theorem Linked.release (back : Backing K V E) (e : E) (h : Linked s)
    (hlive : ∀ c, s.heap c ≠ none ↔ c = b ∨ c ∈ s.owners) (hlen : s.lru.length ≤ s.capacity + 1) :
    Inv (release back s e (some b)).1 ∧
      Shed back s e (release back s e (some b)).1 (release back s e (some b)).2 := by
  obtain ⟨⟨key, val⟩, hb⟩ := Option.ne_none_iff_exists'.1 ((hlive b).2 (.inl rfl))
  unfold SharedLru.release
  dsimp only
  rw [hb]
  dsimp only
  split
  · rename_i hcount
    have hown := useCount_eq_zero.1 hcount
    obtain ⟨it, hit⟩ := h.value b key val hb
    refine ⟨⟨h.deleted hb hown, ?_, hlen⟩,
      .delete key val (cached_eq hit hb) (h.cached_deleted hb) rfl⟩
    intro c
    dsimp only
    by_cases hcb : c = b
    · rw [hcb, update_self]
      exact ⟨fun h => absurd rfl h, fun h => absurd h hown⟩
    · rw [update_of_ne hcb, hlive]
      exact or_iff_right hcb
  · rename_i hcount
    refine ⟨⟨h, ?_, hlen⟩, .keep rfl rfl⟩
    intro c
    rw [hlive]
    refine or_iff_right_of_imp ?_
    rintro rfl
    by_contra hc
    exact hcount (useCount_eq_zero.2 hc)

/-- What dropping a reference leaves as it was. -/
structure Released (s s' : SharedLru K V) : Prop where
  lru : s'.lru = s.lru
  capacity : s'.capacity = s.capacity
  held : s'.held = s.held
  fresh : s'.fresh = s.fresh
  active : ∀ k, s.active k = none → s'.active k = none

theorem released (back : Backing K V E) (s : SharedLru K V) (e : E) (ref : Option Nat) :
    Released s (release back s e ref).1 := by
  cases ref with
  | none => exact ⟨rfl, rfl, rfl, rfl, fun _ h => h⟩
  | some b =>
    unfold SharedLru.release
    dsimp only
    split
    · split
      · refine ⟨rfl, rfl, rfl, rfl, fun k hk => ?_⟩
        rename_i key _ _ _
        dsimp only
        by_cases hkey : k = key
        · rw [hkey, update_self]
        · rw [update_of_ne hkey, hk]
      · exact ⟨rfl, rfl, rfl, rfl, fun _ h => h⟩
    · exact ⟨rfl, rfl, rfl, rfl, fun _ h => h⟩

theorem Inv.drop (back : Backing K V E) (e : E) (h : Inv s) (hb : b ∈ s.held) :
    Inv (drop back s e b).1 ∧ Shed back s e (drop back s e b).1 (drop back s e b).2 := by
  have hown : ∀ c, c ∈ s.owners ↔
      c = b ∨ c ∈ ({ s with held := s.held.erase b } : SharedLru K V).owners := by
    intro c
    rw [mem_owners, mem_owners]
    by_cases hc : c = b
    · subst hc
      exact iff_of_true (.inr hb) (.inl rfl)
    · rw [or_iff_right hc]
      rw [List.mem_erase_of_ne hc]
  have hlinked : Linked { s with held := s.held.erase b } :=
    ⟨h.node, h.entry, h.place, h.value, h.apart, h.id_lt, h.value_lt⟩
  obtain ⟨hinv, hshed⟩ := hlinked.release back e (fun c => (h.live c).trans (hown c)) h.length_le
  exact ⟨hinv, hshed.congr rfl⟩

/-! ## `getOrSet` -/

def unlinked (s : SharedLru K V) (ns : List (Node K)) (n : Node K) (b : Nat) : SharedLru K V :=
  { s with active := update s.active n.key (some (b, none)), lru := ns }

section Unlinked

variable {ns : List (Node K)} {n : Node K} {b : Nat} (hns : s.lru = ns ++ [n])
  (hact : s.active n.key = some (b, some n.id))

include hns hact in
theorem Linked.unlinked (h : Linked s) : Linked (s.unlinked ns n b) := by
  have hapart := h.apart
  rw [hns, List.pairwise_append] at hapart
  have hkey : ∀ m ∈ ns, m.key ≠ n.key := fun m hm =>
    (hapart.2.2 m hm n (List.mem_singleton_self n)).1
  have hsub : ∀ m ∈ ns, m ∈ s.lru := fun m hm => by
    rw [hns]
    exact List.mem_append_left _ hm
  refine ⟨?_, ?_, ?_, ?_, hapart.1, fun m hm => h.id_lt m (hsub m hm), h.value_lt⟩
  · intro m hm
    obtain ⟨c, hc, hcact⟩ := h.node m (hsub m hm)
    exact ⟨c, hc, (update_of_ne (hkey m hm) ..).trans hcact⟩
  · intro k c it hk
    rcases update_eq_some.1 hk with ⟨rfl, hnew⟩ | ⟨-, hk⟩
    · cases hnew
      exact h.entry n.key b (some n.id) hact
    · exact h.entry k c it hk
  · intro k c i hk
    obtain ⟨hkn, hk⟩ := (update_eq_some.1 hk).resolve_left nofun
    obtain ⟨m, hm, hid, hmk⟩ := h.place k c i hk
    rw [hns] at hm
    rcases List.mem_append.1 hm with hm | hm
    · exact ⟨m, hm, hid, hmk⟩
    · rw [List.mem_singleton.1 hm] at hmk
      exact absurd hmk.symm hkn
  · intro c k v hc
    obtain ⟨it, hit⟩ := h.value c k v hc
    by_cases hkn : k = n.key
    · rw [hkn, hact] at hit
      cases hit
      exact ⟨none, by rw [hkn]; exact update_self ..⟩
    · exact ⟨it, (update_of_ne hkn ..).trans hit⟩

include hns in
/-- The reference of the node is the one that is missing. -/
theorem mem_owners_unlinked (href : n.ref = some b) (c : Nat) :
    c ∈ s.owners ↔ c = b ∨ c ∈ (s.unlinked ns n b).owners := by
  rw [mem_owners, mem_owners, ← or_assoc]
  refine or_congr_left ?_
  rw [hns]
  constructor
  · rintro ⟨m, hm, hc⟩
    rcases List.mem_append.1 hm with hm | hm
    · exact .inr ⟨m, hm, hc⟩
    · rw [List.mem_singleton.1 hm, href] at hc
      exact .inl (Option.some.inj hc).symm
  · rintro (rfl | ⟨m, hm, hc⟩)
    · exact ⟨n, List.mem_append_right _ (List.mem_singleton_self n), href⟩
    · exact ⟨m, List.mem_append_left _ hm, hc⟩

include hact in
theorem Linked.cached_unlinked (h : Linked s) : (s.unlinked ns n b).cached = s.cached := by
  funext k
  by_cases hkn : k = n.key
  · obtain ⟨v, hv⟩ := h.entry n.key b (some n.id) hact
    have hact' : (s.unlinked ns n b).active n.key = some (b, none) := update_self ..
    rw [hkn, cached_eq hact hv, cached_eq hact' hv]
  · exact congrArg (Option.bind · _) (update_of_ne hkn ..)

end Unlinked

theorem Inv.reserve (back : Backing K V E) (e : E) (h : Inv s) :
    ∃ s' e', reserve back s e = .ok (s', e') ∧ Inv s' ∧
    s'.lru.length ≤ s'.capacity ∧ s'.capacity = s.capacity ∧ s'.held = s.held ∧
      (∀ k, s.active k = none → s'.active k = none) ∧ Shed back s e s' e' := by
  unfold SharedLru.reserve
  split
  · rename_i hfull
    have hne : s.lru.getLast? ≠ none := by
      intro hnone
      rw [List.getLast?_eq_none_iff.1 hnone] at hfull
      exact absurd hfull (Nat.not_lt_zero _)
    obtain ⟨n, hn⟩ := Option.ne_none_iff_exists'.1 hne
    obtain ⟨ns, hns⟩ := List.getLast?_eq_some_iff.1 hn
    obtain ⟨b, href, hact⟩ := h.node n (List.mem_of_getLast? hn)
    have hinit : s.lru.dropLast = ns := by rw [hns, List.dropLast_concat]
    rw [hn]
    dsimp only
    rw [hact]
    rw [href, hinit]
    have hlen : ns.length ≤ s.capacity := by
      have := h.length_le
      rw [hns, List.length_append] at this
      exact Nat.le_of_succ_le_succ this
    have hlinked := h.toLinked.unlinked hns hact
    have hlive := fun c => (h.live c).trans (mem_owners_unlinked hns href c)
    have hrel : Released (s.unlinked ns n b) (release back (s.unlinked ns n b) e (some b)).1 :=
      released ..
    obtain ⟨hinv, hshed⟩ := hlinked.release back e hlive (Nat.le_succ_of_le hlen)
    refine ⟨(release back (s.unlinked ns n b) e (some b)).1,
      (release back (s.unlinked ns n b) e (some b)).2, rfl, hinv, ?_, hrel.capacity, hrel.held, ?_,
      hshed.congr (h.toLinked.cached_unlinked hact)⟩
    · rw [hrel.lru, hrel.capacity]
      exact hlen
    · intro k hk
      refine hrel.active k ((update_of_ne ?_ ..).trans hk)
      rintro rfl
      rw [hact] at hk
      cases hk
  · rename_i hroom
    exact ⟨s, e, rfl, h, Nat.le_of_not_lt hroom, rfl, rfl, fun _ hk => hk, .keep rfl rfl⟩

/-- Both ways through `getOrSet` end with the value `b` of `k` in a new node at the front. -/
theorem Inv.push (h : Inv s) {id fresh : Nat} {l : List (Node K)}
    (heap : Nat → Option (K × V)) (hl : ∀ m, m ∈ l ↔ m ∈ s.lru ∧ m.key ≠ k)
    (hsub : l.Sublist s.lru) (hlen : l.length ≤ s.capacity) (hb : heap b = some (k, v))
    (hheap : ∀ c, c ≠ b → heap c = s.heap c) (hk : ∀ c v, s.heap c = some (k, v) → c = b)
    (hbk : ∀ k' v, s.heap b = some (k', v) → k' = k) (hid : s.fresh ≤ id) (hidlt : id < fresh)
    (hblt : b < fresh) :
    Inv { s with heap := heap, held := b :: s.held, lru := ⟨id, k, some b⟩ :: l
                 active := update s.active k (some (b, some id)), fresh := fresh } := by
  have hother : ∀ {c k' v}, k' ≠ k → s.heap c = some (k', v) → c ≠ b := by
    rintro c k' v hne hc rfl
    exact hne (hbk k' v hc)
  refine ⟨⟨?_, ?_, ?_, ?_, ?_, ?_, ?_⟩, ?_, Nat.succ_le_succ hlen⟩
  · intro m hm
    rcases List.mem_cons.1 hm with rfl | hm
    · exact ⟨b, rfl, update_self ..⟩
    · obtain ⟨hm, hmk⟩ := (hl m).1 hm
      obtain ⟨c, href, hact⟩ := h.node m hm
      exact ⟨c, href, (update_of_ne hmk ..).trans hact⟩
  · intro k' c it hact
    rcases update_eq_some.1 hact with ⟨rfl, hnew⟩ | ⟨hkk, hact⟩
    · cases hnew
      exact ⟨v, hb⟩
    · obtain ⟨v', hv'⟩ := h.entry k' c it hact
      exact ⟨v', (hheap c (hother hkk hv')).trans hv'⟩
  · intro k' c i hact
    rcases update_eq_some.1 hact with ⟨rfl, hnew⟩ | ⟨hkk, hact⟩
    · cases hnew
      exact ⟨_, List.mem_cons_self, rfl, rfl⟩
    · obtain ⟨m, hm, hmi, hmk⟩ := h.place k' c i hact
      exact ⟨m, List.mem_cons_of_mem _ ((hl m).2 ⟨hm, hmk ▸ hkk⟩), hmi, hmk⟩
  · intro c k' v' hc
    dsimp only at hc
    by_cases hcb : c = b
    · rw [hcb, hb] at hc
      cases hc
      exact ⟨some id, by rw [hcb]; exact update_self ..⟩
    rw [hheap c hcb] at hc
    have hkk : k' ≠ k := by
      rintro rfl
      exact hcb (hk c v' hc)
    obtain ⟨it, hit⟩ := h.value c k' v' hc
    exact ⟨it, (update_of_ne hkk ..).trans hit⟩
  · refine List.pairwise_cons.2 ⟨fun m hm => ?_, h.apart.sublist hsub⟩
    obtain ⟨hm, hmk⟩ := (hl m).1 hm
    exact ⟨hmk.symm, ((h.id_lt m hm).trans_le hid).ne'⟩
  · intro m hm
    rcases List.mem_cons.1 hm with rfl | hm
    · exact hidlt
    · exact ((h.id_lt m ((hl m).1 hm).1).trans_le hid).trans hidlt
  · intro c hc
    by_cases hcb : c = b
    · exact hcb ▸ hblt
    · dsimp only at hc
      rw [hheap c hcb] at hc
      exact ((h.value_lt c hc).trans_le hid).trans hidlt
  · intro c
    rw [mem_owners]
    dsimp only
    by_cases hcb : c = b
    · subst hcb
      exact iff_of_true (by simp [hb]) (.inr List.mem_cons_self)
    rw [hheap c hcb, h.live, mem_owners]
    refine or_congr ?_ (by rw [List.mem_cons, or_iff_right hcb])
    constructor
    · rintro ⟨m, hm, href⟩
      refine ⟨m, List.mem_cons_of_mem _ ((hl m).2 ⟨hm, ?_⟩), href⟩
      -- a node of the key would refer to the key's value
      rintro rfl
      obtain ⟨c', href', hact⟩ := h.node m hm
      obtain ⟨v', hv'⟩ := h.entry m.key c' _ hact
      rw [href] at href'
      exact hcb ((Option.some.inj href').trans (hk c' v' hv'))
    · rintro ⟨m, hm, href⟩
      rcases List.mem_cons.1 hm with rfl | hm
      · exact absurd (Option.some.inj href).symm hcb
      · exact ⟨m, ((hl m).1 hm).1, href⟩

theorem release_of_mem (hb : b ∈ s.owners) : release back s e (some b) = (s, e) := by
  unfold SharedLru.release
  dsimp only
  split
  · rw [if_neg fun hzero => useCount_eq_zero.1 hzero hb]
  · rfl

/-- The caller of `getOrSet` holds the value of `k`. -/
structure Got (s : SharedLru K V) (k : K) (b : Nat) (s' : SharedLru K V) : Prop where
  inv : Inv s'
  capacity : s'.capacity = s.capacity
  held : s'.held = b :: s.held
  active : ∃ it, s'.active k = some (b, it)

theorem Inv.hit (back : Backing K V E) (e : E) (h : Inv s) {i : Nat}
    (hk : s.active k = some (b, some i)) :
    ∃ s', getOrSet back s e k = .ok (some b, s', e) ∧ Got s k b s' ∧ s'.cached = s.cached := by
  obtain ⟨v, hb⟩ := h.entry k b _ hk
  have hown : b ∈ s.owners := (h.live b).1 (by simp [hb])
  obtain ⟨n, hn, rfl, rfl⟩ := h.place k b i hk
  have hlock : s.lock b = some b := if_pos (List.count_pos_iff.2 hown)
  obtain ⟨m, hfind⟩ : ∃ m, (s.lru.find? fun m => some m.id = some n.id) = some m :=
    Option.isSome_iff_exists.1 (List.find?_isSome.2 ⟨n, hn, decide_eq_true rfl⟩)
  have hm := List.mem_of_find?_eq_some hfind
  have hid : m.id = n.id := by simpa using List.find?_some hfind
  have href : m.ref = some b := by
    obtain ⟨c, href, hact⟩ := h.node m hm
    rw [(h.key_iff_id hm hn).2 hid, hk] at hact
    rw [href, (Prod.mk.inj (Option.some.inj hact)).1]
  let l := s.lru.filter fun m => m.id ≠ n.id
  have hl : ∀ m, m ∈ l ↔ m ∈ s.lru ∧ m.key ≠ n.key := by
    intro m
    rw [List.mem_filter, decide_eq_true_eq]
    exact and_congr_right fun hm => not_congr (h.key_iff_id hm hn).symm
  have hlt : l.length < s.lru.length :=
    List.length_filter_lt_length_iff_exists.2 ⟨n, hn, by simp⟩
  have herase : erase back { s with held := b :: s.held } e (some n.id) =
      .ok ({ s with held := b :: s.held, lru := l }, e) := by
    unfold SharedLru.erase
    rw [hfind]
    dsimp only
    rw [href, hid, release_of_mem (mem_owners.2 (.inr List.mem_cons_self))]
  have hlive : s.heap b ≠ none := (h.live b).2 hown
  have hkey : ∀ k' v', s.heap b = some (k', v') → k' = n.key := by
    intro k' v' hb'
    cases hb.symm.trans hb'
    rfl
  have hinv := h.push s.heap hl List.filter_sublist
    (Nat.le_of_lt_succ (hlt.trans_le h.length_le)) hb (fun _ _ => rfl)
    (fun c v' hc => h.value_unique hc hb) hkey (Nat.le_refl s.fresh) (Nat.lt_succ_self _)
    (Nat.lt_succ_of_lt (h.value_lt b hlive))
  refine ⟨_, ?_, ⟨hinv, rfl, rfl, some s.fresh, update_self ..⟩, ?_⟩
  · unfold SharedLru.getOrSet
    rw [hk]
    dsimp only
    rw [hlock, Option.toList_some, List.singleton_append, herase, ok_bind]
    rw [hk]
  · funext k'
    by_cases hkk : k' = n.key
    · rw [hkk, cached_eq hk hb]
      exact cached_eq (update_self ..) hb
    · exact congrArg (Option.bind · _) (update_of_ne hkk ..)

theorem Inv.miss (back : Backing K V E) (e : E) (h : Inv s) (hk : s.active k = none) :
    ∃ b s1 e1 s', getOrSet back s e k = .ok (some b, s', (back.refill k e1).2) ∧ Got s k b s' ∧
      Shed back s e s1 e1 ∧ s1.cached k = none ∧
        s'.cached = update s1.cached k (some (back.refill k e1).1) := by
  obtain ⟨s1, e1, hres, h1, hroom, hcap, hheld, hnone, hshed⟩ := h.reserve back e
  have hk1 := hnone k hk
  have hfree : s1.heap s1.fresh = none := by
    by_contra hne
    exact Nat.lt_irrefl _ (h1.value_lt _ hne)
  have hkey : ∀ m ∈ s1.lru, m.key ≠ k := by
    rintro m hm rfl
    obtain ⟨b, -, hact⟩ := h1.node m hm
    rw [hk1] at hact
    cases hact
  have hvalue : ∀ c v, s1.heap c ≠ some (k, v) := by
    intro c v hc
    obtain ⟨it, hit⟩ := h1.value c k v hc
    rw [hk1] at hit
    cases hit
  have hinv := h1.push (update s1.heap s1.fresh (some (k, (back.refill k e1).1)))
    (fun m => (and_iff_left_of_imp (hkey m)).symm) (List.Sublist.refl _) hroom
    (update_self ..) (fun c hc => update_of_ne hc ..)
    (fun c v hc => absurd hc (hvalue c v))
    (fun k' v hb => absurd hfree (by simp [hb])) (Nat.le_succ s1.fresh)
    (Nat.lt_succ_self _)
    (Nat.lt_succ_of_lt (Nat.lt_succ_self _))
  refine ⟨s1.fresh, s1, e1, _, ?_, ⟨hinv, hcap, congrArg _ hheld, _, update_self ..⟩,
    hshed, cached_eq_none hk1, ?_⟩
  · unfold SharedLru.getOrSet
    rw [hk]
    rw [hres, ok_bind]
  · funext k'
    by_cases hkk : k' = k
    · rw [hkk, update_self]
      exact cached_eq (update_self ..) (update_self ..)
    rw [update_of_ne hkk]
    unfold cached
    dsimp only
    rw [update_of_ne hkk]
    refine Option.bind_congr fun p hp => ?_
    obtain ⟨v, hv⟩ := h1.entry k' p.1 p.2 hp
    rw [update_of_ne]
    intro hc
    rw [hc, hfree] at hv
    cases hv

/-! ## Runs -/

omit [DecidableEq K] in
theorem Inv.modify (h : Inv s) (hb : b ∈ s.held) (f : V → V) : Inv (s.modify b f) := by
  obtain ⟨⟨key, val⟩, hval⟩ := Option.ne_none_iff_exists'.1
    ((h.live b).2 (mem_owners.2 (.inr hb)))
  have hheap : (s.modify b f).heap = update s.heap b (some (key, f val)) := by
    unfold SharedLru.modify
    rw [hval]
    rfl
  have hfst : ∀ c, ((s.modify b f).heap c).map Prod.fst = (s.heap c).map Prod.fst := by
    intro c
    rw [hheap]
    by_cases hc : c = b
    · rw [hc, update_self, hval]
      rfl
    · rw [update_of_ne hc]
  have hkey : ∀ {c k}, (∃ v, (s.modify b f).heap c = some (k, v)) ↔ ∃ v, s.heap c = some (k, v) := by
    intro c k
    have hiff : ∀ o : Option (K × V), (∃ v, o = some (k, v)) ↔ o.map Prod.fst = some k := by
      intro o
      rw [Option.map_eq_some_iff]
      exact ⟨fun ⟨v, hv⟩ => ⟨_, hv, rfl⟩, fun ⟨⟨k', v⟩, hv, hk⟩ => ⟨v, by rw [hv, ← hk]⟩⟩
    rw [hiff, hiff, hfst]
  have hnone : ∀ c, (s.modify b f).heap c ≠ none ↔ s.heap c ≠ none := by
    intro c
    have hmap := hfst c
    refine not_congr ⟨fun hc => ?_, fun hc => ?_⟩
    · rw [hc] at hmap
      exact Option.map_eq_none_iff.1 hmap.symm
    · rw [hc] at hmap
      exact Option.map_eq_none_iff.1 hmap
  refine ⟨⟨h.node, ?_, h.place, ?_, h.apart, h.id_lt, ?_⟩, ?_, h.length_le⟩
  · intro k c it hk
    exact hkey.2 (h.entry k c it hk)
  · intro c k v hc
    obtain ⟨v', hv'⟩ := hkey.1 ⟨v, hc⟩
    exact h.value c k v' hv'
  · intro c hc
    exact h.value_lt c ((hnone c).1 hc)
  · intro c
    exact (hnone c).trans (h.live c)

theorem Linked.cached_modify (h : Linked s) {it : Option Nat}
    (hk : s.active k = some (b, it)) (hb : s.heap b = some (k, v)) (f : V → V) :
    (s.modify b f).cached = update s.cached k (some (f v)) := by
  have hheap : (s.modify b f).heap = update s.heap b (some (k, f v)) := by
    unfold SharedLru.modify
    rw [hb]
    rfl
  funext k'
  by_cases hkk : k' = k
  · rw [hkk, update_self]
    exact cached_eq hk (by rw [hheap, update_self])
  rw [update_of_ne hkk]
  unfold cached
  rw [hheap]
  refine Option.bind_congr fun p hp => ?_
  obtain ⟨v', hv'⟩ := h.entry k' p.1 p.2 hp
  rw [update_of_ne]
  intro hc
  rw [hc, hb] at hv'
  exact hkk (Prod.mk.inj (Option.some.inj hv')).1.symm

theorem Inv.getOrSet (back : Backing K V E) (e : E) (h : Inv s)
    (hres : (Op.getOrSet k).Resident s) : ∃ b s' e',
      getOrSet back s e k = .ok (some b, s', e') ∧ Got s k b s' ∧
        ∀ b' v, s.heap b' = some (k, v) → b' = b := by
  cases hk : s.active k with
  | none =>
    obtain ⟨b, s1, e1, s', hget, hgot, -⟩ := h.miss back e hk
    refine ⟨b, s', _, hget, hgot, fun b' v hb' => ?_⟩
    obtain ⟨it, hit⟩ := h.value b' k v hb'
    rw [hk] at hit
    cases hit
  | some p =>
    obtain ⟨b, it⟩ := p
    obtain ⟨v, hb⟩ := h.entry k b it hk
    have hpos : ∃ i, it = some i := by
      have hown := (h.live b).1 (by rw [hb]; exact Option.some_ne_none _)
      have hnode : ∃ n ∈ s.lru, n.key = k := by
        rcases mem_owners.1 hown with ⟨n, hn, href⟩ | hheld
        · obtain ⟨b', href', hact⟩ := h.node n hn
          obtain ⟨v', hb'⟩ := h.entry n.key b' _ hact
          rw [href] at href'
          rw [← Option.some.inj href', hb] at hb'
          exact ⟨n, hn, (Prod.mk.inj (Option.some.inj hb')).1.symm⟩
        · exact hres b hheld (by rw [hb]; rfl)
      obtain ⟨n, hn, rfl⟩ := hnode
      obtain ⟨b', -, hact⟩ := h.node n hn
      rw [hk] at hact
      exact ⟨n.id, (Prod.mk.inj (Option.some.inj hact)).2⟩
    obtain ⟨i, rfl⟩ := hpos
    obtain ⟨s', hget, hgot, -⟩ := h.hit back e hk
    exact ⟨b, s', e, hget, hgot, fun b' v' hb' => h.value_unique hb' hb⟩

theorem Inv.step {st st' : SharedLru K V × E} {op : Op K V} (h : Inv st.1)
    (hok : op.Legal st.1 ∧ op.Resident st.1) (hstep : step back st op = .ok st') :
    Inv st'.1 ∧ st'.1.capacity = st.1.capacity := by
  cases op with
  | getOrSet k =>
    obtain ⟨b, s', e', hget, hgot, -⟩ := h.getOrSet back st.2 hok.2
    unfold SharedLru.step at hstep
    dsimp only at hstep
    rw [hget, ok_bind] at hstep
    cases hstep
    exact ⟨hgot.inv, hgot.capacity⟩
  | modify b f =>
    cases hstep
    exact ⟨h.modify hok.1 f, rfl⟩
  | drop b =>
    cases hstep
    exact ⟨(h.drop back st.2 hok.1).1, (released back _ st.2 (some b)).capacity⟩

/-- What callers may rely on in a cache of capacity `c`. -/
structure Coherent (c : Nat) (s : SharedLru K V) : Prop where
  live_iff : ∀ b, s.heap b ≠ none ↔ 0 < s.useCount b
  unique : ∀ b b' k v v', s.heap b = some (k, v) → s.heap b' = some (k, v') → b = b'
  active_iff : ∀ k, s.active k ≠ none ↔ ∃ b v, s.heap b = some (k, v)
  keys_nodup : (s.lru.map Node.key).Nodup
  length_le : s.lru.length ≤ c + 1

omit [DecidableEq K] in
theorem Inv.coherent (h : Inv s) : Coherent s.capacity s where
  live_iff b := (h.live b).trans List.count_pos_iff.symm
  unique _ _ _ _ _ hb hb' := h.value_unique hb hb'
  active_iff := h.active_iff
  keys_nodup := List.pairwise_map.2 (h.apart.imp And.left)
  length_le := h.length_le

/-- **A run that never asks for an evicted value which is still held** keeps the cache
coherent. -/
theorem coherent_of_resident (back : Backing K V E) (c : Nat) (e₀ : E) {st : SharedLru K V × E}
    (h : Reach (step back) (fun st op => op.Legal st.1 ∧ op.Resident st.1) (· = (new c, e₀)) st) :
    Coherent c st.1 ∧ ∀ k, (Op.getOrSet k : Op K V).Resident st.1 → ∃ b s' e',
      SharedLru.getOrSet back st.1 st.2 k = .ok (some b, s', e') ∧ (∃ v, s'.heap b = some (k, v)) ∧
        ∀ b' v, st.1.heap b' = some (k, v) → b' = b := by
  have hinv : Inv st.1 ∧ st.1.capacity = c := by
    refine h.invariant (fun st => Inv st.1 ∧ st.1.capacity = c) ?_ ?_
    · rintro _ rfl
      exact ⟨inv_new c, rfl⟩
    · rintro s s' op ⟨hs, hcap⟩ hok hstep
      obtain ⟨hs', hcap'⟩ := hs.step hok hstep
      exact ⟨hs', hcap'.trans hcap⟩
  obtain ⟨hinv, rfl⟩ := hinv
  refine ⟨hinv.coherent, fun k hres => ?_⟩
  obtain ⟨b, s', e', hget, hgot, huniq⟩ := hinv.getOrSet back st.2 hres
  obtain ⟨it, hit⟩ := hgot.active
  exact ⟨b, s', e', hget, hgot.inv.entry k b it hit, huniq⟩

def numbers : Backing Nat Nat Unit where
  refill _ e := (0, e)
  destroy _ e := e

/-- A key that was evicted and deleted is made anew. -/
theorem coherent_reload : ∃ st, runWhile (step numbers)
    (fun st op => op.Legal st.1 ∧ op.Resident st.1)
    [.getOrSet 0, .drop 0, .getOrSet 1, .getOrSet 2, .getOrSet 0] (new 1, ()) = some st ∧
      Coherent 1 st.1 := by
  exact Exists.imp
    (fun st h => ⟨h, (coherent_of_resident numbers 1 () (reach_of_runWhile rfl h)).1⟩)
    (Option.isSome_iff_exists.1 (by decide +kernel))

/-- With room for one, the first of three keys is evicted while its value is held. The next call for
it erases `lru.end()`. -/
theorem not_coherent_evicted : ¬∀ (c : Nat) (st : SharedLru Nat Nat × Unit), 1 ≤ c →
    Reach (step numbers) (fun st op => op.Legal st.1) (· = (new c, ())) st →
      ∀ k, ∃ b s' e', SharedLru.getOrSet numbers st.1 st.2 k = .ok (some b, s', e') := by
  intro h
  obtain ⟨st, -, hreach, hfail⟩ := exists_reach (step numbers) (fun st op => op.Legal st.1)
    [.getOrSet 0, .getOrSet 1, .getOrSet 2] (I := (· = (new 1, ()))) rfl
    (fun st => (SharedLru.getOrSet numbers st.1 st.2 0).toOption.isSome = false) (by decide +kernel)
  obtain ⟨b, s', e', hget⟩ := h 1 st (Nat.le_refl 1) hreach 0
  rw [hget] at hfail
  cases hfail

end LuoOS.Bio.SharedLru
