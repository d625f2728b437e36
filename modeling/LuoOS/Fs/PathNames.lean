import LuoOS.Fs.Path
import Mathlib.Data.List.Induction

/-!
# The names of a path

`pathAbsolute` puts the names of a path together and drops `.` and `..`, each with the name right
before it. A `..` behind another one, or behind a `.`, cancels nothing, so the result is normal
exactly if nothing is kept where such a `..` stands (`pathAbsolute_normal_iff`). `pathHitTable`
compares strings; it finds the longest mounted list of names exactly if no mounted path ends inside
of a name (`pathHitTable_longest_iff`). `pathBuild` counts the names in an `int` (`dirnames`).
-/

namespace LuoOS.Fs.Path

open Function

variable {v : Vfs} {p : Path} {names : List Str}

def keep (kept : List Str) (name : Str) : List Str :=
  if name = dot then kept else if name = dotDot then kept.dropLast else kept ++ [name]

def normalise (names : List Str) : List Str := names.foldl keep []

def spell (names : List Str) : Str := if names = [] then slash else chain names

def Proper (name : Str) : Prop := name ≠ [] ∧ '/' ∉ name
  deriving Decidable

/-- Where a `..` follows a `.` or another `..`, nothing is kept of `before` and the names in front
of it. -/
def Spent (before names : List Str) : Prop :=
  ∀ front name rest, names = front ++ name :: dotDot :: rest → name = dot ∨ name = dotDot →
    (front ++ [name]).foldl keep before = []

/-! ## The names that are left -/

def joined : List Str → List Str
  | [] => []
  | name :: names =>
    if name = dot ∨ name = dotDot ∨ names.head? = some dotDot then joined names
    else name :: joined names

theorem join_eq (names : List Str) : join names = chain (joined names) := by
  induction names with
  | nil => rfl
  | cons name names ih =>
    unfold join joined
    split_ifs <;> first | rfl | tauto

theorem joined_subset (names : List Str) : joined names ⊆ names := by
  induction names with
  | nil => exact List.Subset.refl _
  | cons name names ih =>
    unfold joined
    split_ifs
    · exact List.subset_cons_of_subset _ ih
    · exact List.cons_subset_cons _ ih

theorem foldl_keep_subset (names : List Str) :
    ∀ before : List Str, names.foldl keep before ⊆ before ++ names := by
  induction names with
  | nil => exact fun before => (List.append_nil before).symm ▸ List.Subset.refl _
  | cons name names ih =>
    intro before
    refine List.Subset.trans (ih _) (List.append_subset.2 ⟨?_, ?_⟩)
    · unfold keep
      split_ifs
      · exact List.subset_append_left ..
      · exact List.subset_append_of_subset_left _ (List.dropLast_subset _)
      · simp
    · simp

/-- What is kept of `before` when the name right before a `..` goes with it. -/
def ahead (before names : List Str) : List Str :=
  if names.head? = some dotDot then before.dropLast else before

variable {name : Str}

theorem spent_cons {before : List Str} : Spent before (name :: names) ↔
    (names.head? = some dotDot → name = dot ∨ name = dotDot → keep before name = []) ∧
      Spent (keep before name) names := by
  constructor
  · intro h
    refine ⟨fun hhead hname => ?_, fun front other rest heq => h (name :: front) other rest ?_⟩
    · obtain ⟨rest, rfl⟩ := List.head?_eq_some_iff.1 hhead
      exact h [] name rest rfl hname
    · rw [heq, List.cons_append]
  · rintro ⟨hhead, htail⟩ front other rest heq hother
    cases front with
    | nil =>
      obtain ⟨rfl, rfl⟩ := List.cons.inj heq
      exact hhead rfl hother
    | cons first front =>
      obtain ⟨rfl, rfl⟩ := List.cons.inj heq
      exact htail front other rest rfl hother

theorem dropLast_lt {α : Type} {l : List α} (h : l ≠ []) : l.dropLast.length < l.length := by
  rw [List.length_dropLast]
  exact Nat.sub_lt (List.length_pos_iff.2 h) Nat.one_pos

theorem ahead_cons (before names : List Str) (h : name = dot ∨ name = dotDot) :
    ahead before (name :: names) = keep before name ∧ joined (name :: names) = joined names := by
  rcases h with rfl | rfl <;> exact ⟨rfl, rfl⟩

/-- A name does the same to both lists, unless it is a `.` or `..` before a `..` while something is
kept: then the normal form gets shorter. -/
theorem ahead_keep (before : List Str) (name : Str) (names : List Str) :
    (names.head? = some dotDot → name = dot ∨ name = dotDot → keep before name = []) ∧
        ahead (keep before name) names ++ joined names =
          ahead before (name :: names) ++ joined (name :: names) ∨
      ¬(names.head? = some dotDot → name = dot ∨ name = dotDot → keep before name = []) ∧
        (ahead (keep before name) names ++ joined names).length <
          (ahead before (name :: names) ++ joined (name :: names)).length := by
  by_cases hname : name = dot ∨ name = dotDot
  · obtain ⟨hahead, hjoined⟩ := ahead_cons before names hname
    rw [hahead, hjoined]
    unfold ahead
    split_ifs with hhead
    · by_cases hnil : keep before name = []
      · exact .inl ⟨fun _ _ => hnil, by rw [hnil]; rfl⟩
      · refine .inr ⟨fun h => hnil (h hhead hname), ?_⟩
        rw [List.length_append, List.length_append]
        exact Nat.add_lt_add_right (dropLast_lt hnil) _
    · exact .inl ⟨fun h => absurd h hhead, rfl⟩
  · rw [not_or] at hname
    by_cases hhead : names.head? = some dotDot <;> simp [ahead, keep, joined, hname, hhead]

theorem foldl_keep (names : List Str) : ∀ before : List Str,
    Spent before names ∧ names.foldl keep before = ahead before names ++ joined names ∨
      ¬Spent before names ∧
        (names.foldl keep before).length < (ahead before names ++ joined names).length := by
  induction names with
  | nil =>
    intro before
    refine .inl ⟨fun front name rest heq => ?_, ?_⟩
    · simp at heq
    · simp [ahead, joined]
  | cons name names ih =>
    intro before
    rw [spent_cons, List.foldl_cons]
    rcases ahead_keep before name names with ⟨hname, heq⟩ | ⟨hname, hlt⟩
    · rw [← heq]
      rcases ih (keep before name) with ⟨hspent, h⟩ | ⟨hspent, h⟩
      · exact .inl ⟨⟨hname, hspent⟩, h⟩
      · exact .inr ⟨fun hs => hspent hs.2, h⟩
    · refine .inr ⟨fun hs => hname hs.1, lt_of_le_of_lt ?_ hlt⟩
      rcases ih (keep before name) with ⟨-, h⟩ | ⟨-, h⟩
      · rw [h]
      · exact Nat.le_of_lt h

/-! ## The absolute path -/

theorem chain_ne_nil (h : names ≠ []) : chain names ≠ [] := by
  cases names with
  | nil => exact absurd rfl h
  | cons name names => nofun

theorem words_append (h : '/' ∉ name) (cur s : Str) :
    words cur (name ++ s) = words (cur ++ name) s := by
  induction name generalizing cur with
  | nil => rw [List.append_nil, List.nil_append]
  | cons c name ih =>
    obtain ⟨hc, hname⟩ := not_or.1 (List.mem_cons.not.1 h)
    rw [List.cons_append, words, if_neg (Ne.symm hc), ih hname, List.append_assoc]
    rfl

section

variable (h : ∀ name ∈ names, Proper name)
include h

theorem words_chain {cur : Str} (hcur : cur ≠ []) : words cur (chain names) = cur :: names := by
  induction names generalizing cur with
  | nil => exact if_neg hcur
  | cons name names ih =>
    obtain ⟨⟨hne, hname⟩, htail⟩ := List.forall_mem_cons.1 h
    change words cur ('/' :: (name ++ chain names)) = _
    rw [words, if_pos rfl, if_neg hcur, words_append hname, List.nil_append, ih htail hne]

theorem split_chain : split (chain names) = names := by
  rw [split_eq]
  cases names with
  | nil => rfl
  | cons name names =>
    obtain ⟨⟨hne, hname⟩, htail⟩ := List.forall_mem_cons.1 h
    change words [] (name ++ chain names) = _
    rw [words_append hname, List.nil_append, words_chain htail hne]

theorem split_spell : split (spell names) = names := by
  unfold spell
  split_ifs with hnil
  · rw [hnil]
    rfl
  · exact split_chain h

end

theorem pathAbsolute_eq (hup : namesUp v (v.entries + 1) p.base p.dirname = .ok names) :
    p.pathAbsolute v = .ok (spell (joined names)) := by
  unfold pathAbsolute spell
  rw [hup, ok_bind, join_eq]
  by_cases h : joined names = []
  · rw [h]
    rfl
  · simp only [if_neg h, if_neg (chain_ne_nil h)]
    rfl

/-- **`pathAbsolute` returns the normal form** of the names exactly if, where a `..` follows a `.`
or another `..`, no name is kept that it would have to cancel. -/
theorem pathAbsolute_normal_iff (hup : namesUp v (v.entries + 1) p.base p.dirname = .ok names)
    (hproper : ∀ name ∈ names, Proper name) :
    p.pathAbsolute v = .ok (spell (normalise names)) ↔ Spent [] names := by
  rw [pathAbsolute_eq hup]
  have hnil : ahead [] names = [] := by
    unfold ahead
    split_ifs <;> rfl
  rcases foldl_keep names [] with ⟨hspent, heq⟩ | ⟨hspent, hlt⟩
  · rw [hnil, List.nil_append] at heq
    exact iff_of_true (by rw [normalise, heq]) hspent
  refine iff_of_false (fun h => ?_) hspent
  rw [hnil, List.nil_append] at hlt
  have hsplit := congrArg split (Except.ok.inj h)
  rw [split_spell fun name hn => hproper name (joined_subset names hn),
    normalise, split_spell fun name hn => hproper name (foldl_keep_subset names [] hn)] at hsplit
  exact absurd hlt (by rw [hsplit]; exact lt_irrefl _)

theorem pathAbsolute_normal_dotDot :
    ({ pathname := [], dirname := [['a'], dotDot, ['b']], base := some 0 } : Path).pathAbsolute
      sample = .ok (spell (normalise [['a'], dotDot, ['b']])) :=
  (pathAbsolute_normal_iff rfl (by decide)).2 (spent_cons.2 ⟨by decide, spent_cons.2 ⟨by decide,
    spent_cons.2 ⟨by decide, fun _ _ _ h => by simp at h⟩⟩⟩)

/-- **The second `..` of `/a/b/../..` cancels nothing.** -/
theorem not_pathAbsolute_normal :
    ({ pathname := [], dirname := [['a'], ['b'], dotDot, dotDot], base := some 0 } :
        Path).pathAbsolute sample = .ok ['/', 'a'] ∧
      spell (normalise [['a'], ['b'], dotDot, dotDot]) = slash :=
  ⟨rfl, rfl⟩

/-! ## The mount of a path -/

/-- **`pathHitTable` selects the mount of the most names**: the root mounted at the first of the
names, as many as any mount has; the others are left for the search. -/
def HitsLongest (v : Vfs) (p : Path) (names : List Str) : Prop :=
  ∃ mount rest fs p' v', names = mount ++ rest ∧ (spell mount, fs) ∈ v.mntTable ∧
    (∀ other, other <+: names → spell other ∈ v.mntTable.map (·.1) →
      other.length ≤ mount.length) ∧
    p.pathHitTable v = .ok (some (v.getRoot fs).1, p', v') ∧ p'.dirname = rest

theorem longestPrefix_spec (table : List (Str × FileSystem)) (path : Str) :
    (∀ tbl, longestPrefix table path = some tbl → tbl.1 <+: path) ∧
      ∀ tbl ∈ table, tbl.1 <+: path →
        tbl.1.length ≤ (longestPrefix table path).elim 0 (·.1.length) := by
  induction table using List.reverseRecOn with
  | nil => exact ⟨nofun, nofun⟩
  | append_singleton table last ih =>
    obtain ⟨hpre, hmax⟩ := ih
    unfold longestPrefix at hpre hmax ⊢
    rw [List.foldl_append]
    generalize table.foldl _ none = best at hpre hmax
    dsimp only [List.foldl_cons, List.foldl_nil]
    split_ifs with hlast
    · obtain ⟨hle, hlt, htake⟩ := hlast
      refine ⟨fun tbl h => ?_, fun tbl hmem h => ?_⟩
      · rw [← Option.some.inj h, ← htake]
        exact List.take_prefix ..
      · rcases List.mem_append.1 hmem with hmem | hmem
        · exact Nat.le_of_lt (lt_of_le_of_lt (hmax tbl hmem h) hlt)
        · rw [List.mem_singleton.1 hmem]
          exact le_rfl
    · refine ⟨hpre, fun tbl hmem h => ?_⟩
      rcases List.mem_append.1 hmem with hmem | hmem
      · exact hmax tbl hmem h
      · rw [List.mem_singleton.1 hmem] at h ⊢
        by_contra hgt
        exact hlast ⟨h.length_le, Nat.not_le.1 hgt, (List.prefix_iff_eq_take.1 h).symm⟩

theorem flatten_words (cur s : Str) : (words cur s).flatten = cur ++ s.filter (· ≠ '/') := by
  induction s generalizing cur with
  | nil =>
    unfold words
    split_ifs with h <;> simp [h]
  | cons c s ih =>
    unfold words
    split_ifs with hc hcur <;> simp [*]

theorem spell_append (names rest : List Str) :
    ∃ s, spell (names ++ rest) = spell names ++ s ∧ split s = split (chain rest) := by
  by_cases hnil : names = []
  · subst hnil
    cases rest with
    | nil => exact ⟨[], rfl, rfl⟩
    | cons name rest => exact ⟨name ++ chain rest, rfl, (split_slash _).symm⟩
  · refine ⟨chain rest, ?_, rfl⟩
    unfold spell
    rw [if_neg hnil, if_neg (List.append_ne_nil_of_left_ne_nil hnil _)]
    exact List.flatMap_append

theorem spell_pos (names : List Str) : 0 < (spell names).length := by
  unfold spell
  split_ifs with h
  · exact Nat.one_pos
  · exact List.length_pos_iff.2 (chain_ne_nil h)

theorem longestPrefix_mem {table : List (Str × FileSystem)} {pathAbs : Str}
    {tbl : Str × FileSystem} (h : longestPrefix table pathAbs = some tbl) : tbl ∈ table := by
  refine List.foldlRecOn (motive := fun best => ∀ b, best = some b → b ∈ table) table _ ?_ ?_ tbl h
  · exact nofun
  · intro best hbest x hx b hb
    split_ifs at hb
    · exact Option.some.inj hb ▸ hx
    · exact hbest b hb

theorem pathHitTable_eq {path longest : Str} {fs : FileSystem} (habs : p.pathAbsolute v = .ok path)
    (hroot : (v.mntTable.lookup slash).isSome)
    (hlongest : longestPrefix v.mntTable path = some (longest, fs)) :
    ∃ p' v', p.pathHitTable v = .ok (some (v.getRoot fs).1, p', v') ∧
      p'.dirname = split (path.drop longest.length) := by
  unfold pathHitTable
  rw [habs, ok_bind, hlongest]
  dsimp only
  split_ifs with hnil
  · exact ⟨_, _, rfl, by rw [hnil]; rfl⟩
  have htable : (v.getRoot fs).2.mntTable = v.mntTable := by cases fs <;> rfl
  obtain ⟨root, hlookup⟩ := Option.isSome_iff_exists.1 (htable ▸ hroot)
  generalize (v.getRoot fs).2 = v1 at hlookup
  unfold pathBuild Vfs.rootEntry
  rw [hlookup]
  generalize path.drop longest.length = s at hnil ⊢
  cases s with
  | nil => exact absurd rfl hnil
  | cons c s =>
    rcases eq_or_ne c '/' with rfl | hc
    · exact ⟨_, _, rfl, rfl⟩
    · simp only [if_neg hc]
      exact ⟨_, _, rfl, rfl⟩

section

variable (hroot : (v.mntTable.lookup slash).isSome)
  (hkeys : ∀ tbl ∈ v.mntTable, tbl.1 = slash ∨ tbl.1.getLast? ≠ some '/')
  (habs : p.pathAbsolute v = .ok (spell names)) (hproper : ∀ name ∈ names, Proper name)

include hroot habs

theorem exists_longest : ∃ longest fs p' v', (longest, fs) ∈ v.mntTable ∧ longest <+: spell names ∧
    (∀ tbl ∈ v.mntTable, tbl.1 <+: spell names → tbl.1.length ≤ longest.length) ∧
    p.pathHitTable v = .ok (some (v.getRoot fs).1, p', v') ∧
    p'.dirname = split ((spell names).drop longest.length) := by
  obtain ⟨hpre, hmax⟩ := longestPrefix_spec v.mntTable (spell names)
  cases hlongest : longestPrefix v.mntTable (spell names) with
  | none =>
    obtain ⟨fs, hfs⟩ := Option.isSome_iff_exists.1 hroot
    obtain ⟨s, hs, -⟩ := spell_append [] names
    have hmem : (slash, fs) ∈ v.mntTable := by
      obtain ⟨l, r, heq, -⟩ := List.lookup_eq_some_iff.1 hfs
      exact heq ▸ List.mem_append_right _ List.mem_cons_self
    have hslash := hmax _ hmem ⟨s, hs.symm⟩
    rw [hlongest] at hslash
    cases hslash
  | some tbl =>
    obtain ⟨p', v', hhit, hdir⟩ := pathHitTable_eq habs hroot hlongest
    rw [hlongest] at hmax
    exact ⟨tbl.1, tbl.2, p', v', longestPrefix_mem hlongest, hpre tbl hlongest, hmax, hhit, hdir⟩

include hkeys hproper

/-- **The mount of the most names is selected** exactly if no mounted path that the path starts with
goes beyond it, into a name. -/
theorem pathHitTable_longest_iff : HitsLongest v p names ↔
    ∀ tbl ∈ v.mntTable, tbl.1 <+: spell names →
      ∃ mount, mount <+: names ∧ spell mount ∈ v.mntTable.map (·.1) ∧
        tbl.1.length ≤ (spell mount).length := by
  obtain ⟨longest, fs, p', v', hmem, ⟨s, hs⟩, hmax, hhit, hdir⟩ := exists_longest hroot habs
  rw [← hs, List.drop_left] at hdir
  constructor
  · rintro ⟨mount, rest, fs1, p1, v1, rfl, hmount, -, hhit1, rfl⟩ tbl htbl hpre
    refine ⟨mount, List.prefix_append .., List.mem_map_of_mem hmount, ?_⟩
    refine (hmax tbl htbl hpre).trans (Nat.not_lt.1 fun hlt => ?_)
    obtain ⟨s1, hs1, hsplit⟩ := spell_append mount p1.dirname
    obtain ⟨x, rfl⟩ : spell mount <+: longest :=
      List.prefix_of_prefix_length_le ⟨s1, hs1.symm⟩ ⟨s, hs⟩ (Nat.le_of_lt hlt)
    -- the characters that are left over are those of the names, so `x` has slashes only
    have hp : p' = p1 := congrArg (·.2.1) (Except.ok.inj (hhit.symm.trans hhit1))
    have hx : s1 = x ++ s := by
      rw [hs1, List.append_assoc] at hs
      exact (List.append_cancel_left hs).symm
    have hrest : split (x ++ s) = split s := by
      rw [← hx, hsplit, split_chain fun name hn => hproper name (List.mem_append_right _ hn),
        ← hdir, hp]
    have hflat := congrArg List.flatten hrest
    rw [split_eq, split_eq, flatten_words, flatten_words, List.filter_append] at hflat
    have hslashes : x.filter (· ≠ '/') = [] := List.append_left_eq_self.1 hflat
    rw [List.length_append] at hlt
    have hne : x ≠ [] := List.length_pos_iff.1 (by omega)
    rcases hkeys _ hmem with hslash | hlast
    · have hone : (spell mount ++ x).length = 1 := congrArg List.length hslash
      have hpos := spell_pos mount
      rw [List.length_append] at hone
      omega
    · refine hlast ?_
      rw [List.getLast?_append, List.getLast?_eq_some_getLast hne]
      simpa using List.filter_eq_nil_iff.1 hslashes _ (List.getLast_mem hne)
  · intro hbound
    obtain ⟨mount, ⟨rest, rfl⟩, hmount, hle⟩ := hbound _ hmem ⟨s, hs⟩
    obtain ⟨s1, hs1, hsplit⟩ := spell_append mount rest
    have hmost : ∀ other, other <+: mount ++ rest → spell other ∈ v.mntTable.map (·.1) →
        (spell other).length ≤ longest.length := by
      rintro other ⟨more, hmore⟩ hkey
      obtain ⟨tbl, htbl, heq⟩ := List.mem_map.1 hkey
      obtain ⟨s2, hs2, -⟩ := spell_append other more
      rw [hmore, ← heq] at hs2
      rw [← heq]
      exact hmax tbl htbl ⟨s2, hs2.symm⟩
    have hkey : longest = spell mount :=
      (List.prefix_of_prefix_length_le ⟨s, hs⟩ ⟨s1, hs1.symm⟩ hle).eq_of_length_le
        (hmost mount (List.prefix_append ..) hmount)
    subst hkey
    refine ⟨mount, rest, fs, p', v', rfl, hmem, fun other hother hin => ?_, hhit, ?_⟩
    · by_contra hgt
      obtain ⟨more, rfl⟩ : mount <+: other :=
        List.prefix_of_prefix_length_le (List.prefix_append ..) hother (by omega)
      obtain ⟨s2, hs2, hsplit2⟩ := spell_append mount more
      have hlen := hmost _ hother hin
      rw [hs2, List.length_append] at hlen
      rw [List.length_eq_zero_iff.1 (show s2.length = 0 by omega), split_chain fun name hn =>
        hproper name (hother.subset (List.mem_append_right _ hn))] at hsplit2
      rw [← hsplit2] at hgt
      exact hgt (Nat.le_of_eq (congrArg _ (List.append_nil mount)))
    · rw [hdir, List.append_cancel_left (hs.trans hs1), hsplit,
        split_chain fun name hn => hproper name (List.mem_append_right _ hn)]

end

def twoMounts : Vfs := { sample with mntTable := [(slash, .fixed 0), (['/', 'a'], .fixed 1)] }

theorem pathHitTable_longest_below : HitsLongest twoMounts
    { pathname := [], dirname := [['a'], ['b']], base := some 0 } [['a'], ['b']] :=
  (pathHitTable_longest_iff rfl (by decide) rfl (by decide)).2 fun tbl hmem _ =>
    ⟨[['a']], List.prefix_append [['a']] [['b']], by decide,
      (by decide : ∀ tbl ∈ twoMounts.mntTable, tbl.1.length ≤ 2) tbl hmem⟩

/-- **The mount at `/a` is selected for the path `/ab`**, of which `b` is looked up there. -/
theorem not_pathHitTable_longest :
    (∃ p' v', ({ pathname := [], dirname := [['a', 'b']], base := some 0 } :
        Path).pathHitTable twoMounts = .ok (some 1, p', v') ∧ p'.dirname = [['b']]) ∧
      ¬HitsLongest twoMounts { pathname := [], dirname := [['a', 'b']], base := some 0 }
        [['a', 'b']] := by
  refine ⟨⟨_, _, rfl, rfl⟩, ?_⟩
  rintro ⟨mount, rest, fs, p', v', hnames, -, -, hhit, hdir⟩
  have hrest : [['b']] = rest := (congrArg (·.2.1.dirname) (Except.ok.inj hhit)).trans hdir
  rw [← hrest] at hnames
  have hlast := congrArg List.getLast? hnames
  simp at hlast

/-! ## Splitting -/

section Split

/-- The first loop of `pathBuild`, with `ind[dirnum]` for the part that is being read. -/
def indLoop (len : Nat) : (i : Nat) → Str → (rep : Bool) → (dirnum : Int) →
    (ind : Nat → Nat × Nat) → Kern (Int × (Nat → Nat × Nat))
  | _, [], rep, dirnum, ind => .ok (if rep then dirnum else toInt (dirnum + 1), ind)
  | i, c :: cs, rep, dirnum, ind =>
    if c = '/' then indLoop len (i + 1) cs true (if rep then dirnum else toInt (dirnum + 1)) ind
    else if 0 ≤ dirnum ∧ dirnum < len then
      let (start, n) := ind dirnum.toNat
      indLoop len (i + 1) cs false dirnum
        (update ind dirnum.toNat (if rep then i else start, n + 1))
    else .error (.outOfBounds dirnum)

/-- `dirname` of a path that is not empty. There is no vector of a negative number of elements. The
second loop reads `ind[0]` to `ind[dirnum-1]`. -/
def dirnames (s : Str) : Kern (List Str) := do
  let (dirnum, ind) ← indLoop s.length 0 s true 0 fun _ => (0, 0)
  if dirnum < 0 then .error (.panic "vector")
  else if s.length < dirnum then .error (.outOfBounds s.length)
  else .ok ((List.range dirnum.toNat).map fun i => substr s (ind i))

def components (s : Str) : List Str := (s.splitOn '/').filter (· ≠ [])

theorem words_eq (cur s : Str) :
    words cur s = (s.splitOnPPrepend (· == '/') cur.reverse).filter (· ≠ []) := by
  induction s generalizing cur with
  | nil => by_cases h : cur = [] <;> simp [words, List.splitOnPPrepend, h]
  | cons c cs ih =>
    by_cases hc : c = '/'
    · by_cases h : cur = [] <;> simp [words, List.splitOnPPrepend, hc, h, ih]
    · simp [words, List.splitOnPPrepend, hc, ih]

theorem split_eq_components (s : Str) : split s = components s :=
  (split_eq s).trans (words_eq [] s)

theorem length_splitLoop_ge (i : Nat) (cs : Str) (rep : Bool) (cur : Nat × Nat)
    (ind : List (Nat × Nat)) : ind.length ≤ (splitLoop i cs rep cur ind).length := by
  fun_induction splitLoop i cs rep cur ind <;> simp_all; omega

/-- The array holds the parts that the loop has found, and then the one that is being read. -/
theorem indLoop_spec (len : Nat) (cs : Str) : ∀ (i : Nat) (rep : Bool) (n : Nat)
    (ind : Nat → Nat × Nat), i + cs.length = len → n + (!rep).toNat ≤ i →
    (∀ k, n + (!rep).toNat ≤ k → ind k = (0, 0)) →
    let found := splitLoop i cs rep (ind n) ((List.range n).map ind)
    found.length < 2 ^ 31 → ∃ ind', indLoop len i cs rep n ind = .ok (found.length, ind') ∧
      found.length ≤ len ∧ (List.range found.length).map ind' = found := by
  have hmap (n : Nat) (ind : Nat → Nat × Nat) :
      (List.range n).map ind ++ [ind n] = (List.range (n + 1)).map ind := by
    rw [List.range_succ, List.map_append, List.map_singleton]
  induction cs with
  | nil =>
    intro i rep n ind hlen hle hzero
    unfold splitLoop indLoop
    cases rep with
    | true => simp_all
    | false =>
      simp only [Bool.false_eq_true, if_false, hmap, List.length_map, List.length_range] at hle ⊢
      exact fun hlt => ⟨ind, by rw [← Nat.cast_succ, toInt_of_lt hlt], by simp_all, rfl⟩
  | cons c cs ih =>
    intro i rep n ind hlen hle hzero
    have hlen' : i + 1 + cs.length = len := by rw [← hlen, List.length_cons]; omega
    unfold indLoop splitLoop
    by_cases hc : c = '/'
    · simp only [if_pos hc]
      cases rep with
      | true => exact ih (i + 1) true n ind hlen' (Nat.le_succ_of_le hle) hzero
      | false =>
        simp only [Bool.false_eq_true, if_false, hmap, ← Nat.cast_succ] at hle hzero ⊢
        rw [← hzero (n + 1) le_rfl]
        intro hfew
        have hge := length_splitLoop_ge (i + 1) cs true (ind (n + 1)) ((List.range (n + 1)).map ind)
        rw [List.length_map, List.length_range] at hge
        rw [toInt_of_lt (hge.trans_lt hfew)]
        exact ih (i + 1) true (n + 1) ind hlen' (Nat.le_succ_of_le hle) hzero hfew
    · have hin : 0 ≤ (n : Int) ∧ (n : Int) < len := by
        simp only [List.length_cons] at hlen
        omega
      simp only [if_neg hc, if_pos hin, Int.toNat_natCast]
      have hrest := ih (i + 1) false n
        (update ind n (if rep then i else (ind n).1, (ind n).2 + 1)) hlen'
        (Nat.succ_le_succ (by omega)) ?_
      · rw [update_self] at hrest
        have hmap : (List.range n).map (update ind n (if rep then i else (ind n).1, (ind n).2 + 1)) =
            (List.range n).map ind := by
          refine List.map_congr_left fun k hk => update_of_ne (List.mem_range.1 hk).ne _ _
        rwa [hmap] at hrest
      · intro k hk
        have hk : n + 1 ≤ k := hk
        rw [update_of_ne (by omega)]
        exact hzero k (by cases rep <;> simp <;> omega)

theorem dirnames_eq {s : Str} (hfew : (components s).length < 2 ^ 31) :
    dirnames s = .ok (components s) := by
  have hspec := indLoop_spec s.length s 0 true 0 (fun _ => (0, 0)) (Nat.zero_add _) (by simp)
    (fun _ _ => rfl)
  rw [← split_eq_components] at hfew ⊢
  unfold split dirnames at *
  rw [List.length_map] at hfew
  obtain ⟨ind, hloop, hle, hmap⟩ := hspec hfew
  simp only [List.range_zero, List.map_nil, Nat.cast_zero] at hloop hle hmap
  rw [hloop, ok_bind]
  dsimp only
  rw [if_neg (by omega), if_neg (by omega), Int.toNat_natCast]
  exact congrArg Except.ok ((List.map_map (g := substr s)).symm.trans (congrArg _ hmap))

theorem dirname_make {v v' : Vfs} {s : Str} {base : Option Nat} {p : Path}
    (h : make v s base = .ok (p, v')) : p.dirname = components s := by
  cases s with
  | nil =>
    cases h
    rfl
  | cons c cs =>
    unfold make pathBuild at h
    dsimp only at h
    split at h
    · obtain ⟨r, -, h⟩ := bind_eq_ok h
      cases h
      exact split_eq_components _
    · cases h
      exact split_eq_components _

/-- **`pathBuild` splits a path at its slashes**, with every index inside of its array. The counter
of the names is an `int`. -/
theorem pathBuild_splits (s : Str) (hfew : (components s).length < 2 ^ 31) :
    (∀ v base p v', make v s base = .ok (p, v') → p.dirname = components s) ∧
      dirnames s = .ok (components s) :=
  ⟨fun _ _ _ _ => dirname_make, dirnames_eq hfew⟩

theorem pathBuild_splits_slashes :
    dirnames "//usr///b/".toList = .ok ["usr".toList, "b".toList] :=
  (pathBuild_splits "//usr///b/".toList (by decide)).2

end Split
end LuoOS.Fs.Path
