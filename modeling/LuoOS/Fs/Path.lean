import LuoOS.Klib
import Mathlib.Logic.Function.Basic

/-!
# Paths and directory entries

`DEntry` of `include/fs.hh` and `Path` of `kernel/fs/fs.cc`: the tree of directory entries in memory
over the INodes of the file systems, the mount table, and how a path is looked up.

Entries are numbered. An entry refers to its parent, a directory to its entries weakly, a superblock
to its root and the process to its working directory; every other reference is counted in `held`. An
INode is given by what `lookup` finds in it. The parameter `name` of the constructor of `DEntry`
hides the member, so the name of an entry is never set.
-/

namespace LuoOS.Fs

open Function

abbrev Str := List Char

def dot : Str := ['.']
def dotDot : Str := ['.', '.']
def slash : Str := ['/']

/-! ## INodes -/

/-- `fold` is the form in which the file system compares names. -/
structure INode where
  dir : Bool
  contents : List (Str × Nat) := []
  fold : Str → Str := id
  rootFS : Bool := true

def INode.lookup (i : INode) (name : Str) : Option Nat := i.contents.lookup (i.fold name)

/-- `flName` of `fat.cc`, over characters that stand for bytes. -/
def flNameOf {α : Type} (code : α → UInt8) (name : List α) : List α :=
  let rest := name.dropWhile fun c => code c == 0x20 || code c == 0x2e
  -- the quote, `*`, `/`, `:`, `<`, `>`, `?`, the backslash and the bar
  let illegal : List UInt8 := [0x22, 0x2a, 0x2f, 0x3a, 0x3c, 0x3e, 0x3f, 0x5c, 0x7c]
  if rest.any fun c => code c < 0x20 || illegal.contains (code c) then []
  else (rest.reverse.dropWhile (code · == 0x20)).reverse

/-- An entry of the tree, over the INode `nod`. -/
structure DEntry where
  parent : Option Nat
  nod : Nat
  name : Str := []
  subs : Str → Option Nat := fun _ => none
  isMount : Bool := false

/-- How a mounted file system gives out its root: the same entry every time, or a new one for the
INode as `ramfs` does. -/
inductive FileSystem where
  | fixed (root : Nat)
  | fresh (nod : Nat)
  deriving DecidableEq

/-- All entries and INodes, the mounts and the references held. -/
structure Vfs where
  inode : Nat → INode
  inodes : Nat
  entry : Nat → DEntry
  entries : Nat
  held : Nat → Nat
  mntTable : List (Str × FileSystem)
  cwd : Nat

namespace Vfs

def nodeOf (v : Vfs) (e : Nat) : INode := v.inode (v.entry e).nod

/-! ## Directory entries -/

def isRoot (v : Vfs) (e : Nat) : Bool := (v.entry e).parent.isNone

def refers (v : Vfs) (e : Nat) : Bool :=
  v.held e != 0 || v.cwd == e || v.mntTable.any (·.2 = .fixed e)

def hold (v : Vfs) (e : Nat) : Vfs := { v with held := update v.held e (v.held e + 1) }

def release (v : Vfs) (e : Nat) : Vfs := { v with held := update v.held e (v.held e - 1) }

/-- `e` is `d` or one of the entries above it. Parents are made before their children, so there are
at most `d` of them. -/
def isAbove (v : Vfs) (e : Nat) : (fuel d : Nat) → Bool
  | 0, d => e == d
  | fuel + 1, d =>
    e == d ||
      match (v.entry d).parent with
      | some p => v.isAbove e fuel p
      | none => false

def expired (v : Vfs) (e : Nat) : Bool :=
  (List.range v.entries).all fun d => !v.refers d || !v.isAbove e d d

def newEntry (v : Vfs) (prnt : Option Nat) (nod : Nat) : Nat × Vfs :=
  (v.entries,
    { v with
      entry := update v.entry v.entries { parent := prnt, nod }
      entries := v.entries + 1 })

def setSub (v : Vfs) (self : Nat) (name : Str) (sub : Nat) : Vfs :=
  { v with
    entry := update v.entry self
      { v.entry self with subs := update (v.entry self).subs name (some sub) } }

def cached (v : Vfs) (self : Nat) (name : Str) : Option Nat :=
  match (v.entry self).subs name with
  | some e => if v.expired e then none else some e
  | none => none

def addEntry (v : Vfs) (self : Nat) (name : Str) (nod : Nat) : Nat × Vfs :=
  let (sub, v) := v.newEntry (some self) nod
  (sub, v.setSub self name sub)

def entSearch (v : Vfs) (self : Nat) (name : Str) : Option Nat × Vfs :=
  match v.cached self name with
  | some e => (some e, v)
  | none =>
    match (v.nodeOf self).lookup name with
    | some nod =>
      let (sub, v) := v.addEntry self name nod
      (some sub, v)
    | none => (none, v)

/-! ## The mount table -/

def getRoot (v : Vfs) : FileSystem → Nat × Vfs
  | .fixed root => (root, v)
  | .fresh nod => v.newEntry none nod

def rootEntry (v : Vfs) : Kern (Nat × Vfs) :=
  match v.mntTable.lookup slash with
  | some fs => .ok (v.getRoot fs)
  | none => .error .wildPointer

end Vfs

/-! ## Paths -/

/-- A path, with its names once `pathBuild` has split it. -/
structure Path where
  pathname : Str
  dirname : List Str := []
  base : Option Nat := none

namespace Path

def splitLoop : (i : Nat) → Str → (rep : Bool) → (cur : Nat × Nat) → (ind : List (Nat × Nat)) →
    List (Nat × Nat)
  | _, [], rep, cur, ind => if rep then ind else ind ++ [cur]
  | i, c :: cs, rep, cur, ind =>
    if c = '/' then
      if rep then splitLoop (i + 1) cs true cur ind
      else splitLoop (i + 1) cs true (0, 0) (ind ++ [cur])
    else splitLoop (i + 1) cs false (if rep then i else cur.1, cur.2 + 1) ind

def substr (s : Str) (ind : Nat × Nat) : Str := (s.drop ind.1).take ind.2

def split (s : Str) : List Str := (splitLoop 0 s true (0, 0) []).map (substr s)

def pathBuild (v : Vfs) (p : Path) : Kern (Path × Vfs) :=
  match p.pathname with
  | [] => .ok ({ p with base := some v.cwd }, v)
  | c :: _ => do
    let (base, v) ←
      if c = '/' then do
        let (root, v) ← v.rootEntry
        pure (root, v)
      else pure (p.base.getD v.cwd, v)
    pure ({ p with dirname := split p.pathname, base := some base }, v)

def make (v : Vfs) (pathname : Str) (base : Option Nat := none) : Kern (Path × Vfs) :=
  pathBuild v { pathname, base }

def namesUp (v : Vfs) : (fuel : Nat) → (entry : Option Nat) → (names : List Str) → Kern (List Str)
  | _, none, _ => .error .wildPointer
  | 0, some _, _ => .error .diverges
  | fuel + 1, some e, names =>
    if v.isRoot e && (v.nodeOf e).rootFS then .ok names
    else namesUp v fuel (v.entry e).parent ((v.entry e).name :: names)

/-- The second loop of `pathAbsolute`, which drops `.` and `..` and the name before a `..`. -/
def join : List Str → Str
  | [] => []
  | name :: names =>
    if name = dot ∨ name = dotDot then join names
    else if names.head? = some dotDot then join names
    else '/' :: name ++ join names

def pathAbsolute (v : Vfs) (p : Path) : Kern Str := do
  let names ← namesUp v (v.entries + 1) p.base p.dirname
  let pathAbs := join names
  pure (if pathAbs = [] then slash else pathAbs)

def longestPrefix (table : List (Str × FileSystem)) (pathAbs : Str) : Option (Str × FileSystem) :=
  table.foldl (fun best tbl =>
    if tbl.1.length ≤ pathAbs.length ∧ (best.elim 0 fun b => b.1.length) < tbl.1.length ∧
        pathAbs.take tbl.1.length = tbl.1 then some tbl
    else best) none

def pathHitTable (v : Vfs) (p : Path) : Kern (Option Nat × Path × Vfs) := do
  let pathAbs ← p.pathAbsolute v
  match longestPrefix v.mntTable pathAbs with
  | some (longest, fs) =>
    let (entry, v) := v.getRoot fs
    let p := { p with base := some entry, pathname := pathAbs.drop longest.length }
    if p.pathname = [] then pure (some entry, { p with dirname := [] }, v)
    else do
      let (p, v) ← pathBuild v p
      pure (some entry, p, v)
  | none => pure (none, p, v)

def walk (a_parent : Bool) : (v : Vfs) → (entry : Option Nat) → List Str → Kern (Option Nat × Vfs)
  | v, entry, [] => .ok (entry, v)
  | _, none, _ :: _ => .error .wildPointer
  | v, some e, name :: names =>
    if (v.entry e).isMount then .error (.panic "should be processed above")
    else if (v.nodeOf e).dir = false then .ok (none, v.release e)
    else if a_parent && names.isEmpty then .ok (some e, v)
    else if name = dot then walk a_parent v (some e) names
    else if name = dotDot then
      match (v.entry e).parent with
      | some p => walk a_parent ((v.hold p).release e) (some p) names
      | none => walk a_parent (v.release e) none names
    else
      match v.entSearch e name with
      | (some sub, v) => walk a_parent ((v.hold sub).release e) (some sub) names
      | (none, v) => .ok (none, v.release e)

def pathSearch (v : Vfs) (p : Path) (a_parent : Bool := false) :
    Kern (Option Nat × Path × Vfs) :=
  if p.pathname = slash then do
    let (root, v) ← v.rootEntry
    pure (some root, p, v.hold root)
  else if p.pathname = [] then .ok (none, p, v)
  else do
    let (hit, p, v) ← p.pathHitTable v
    match hit.or p.base with
    | some entry => do
      let (entry, v) ← walk a_parent (v.hold entry) (some entry) p.dirname
      pure (entry, p, v)
    | none => do
      let (entry, v) ← walk a_parent v none p.dirname
      pure (entry, p, v)

/-! ## Relative and absolute paths -/

def enter (v : Vfs) : (e : Nat) → List Str → Option (Nat × Vfs)
  | e, [] => some (e, v)
  | e, name :: names =>
    match v.entSearch e name with
    | (some sub, v) => enter (v.hold sub) sub names
    | (none, _) => none

def chain (names : List Str) : Str := names.flatMap ('/' :: ·)

def Relative (p : Str) : Prop := p.head? ≠ some '/' ∧ dotDot ∉ split p
  deriving Decidable

/-- The kernel after it has mounted its root file system, with any other mounts: the root has no
parent, and no entry has got its name. -/
structure Booted (v : Vfs) (root : Nat) : Prop where
  table : v.mntTable.lookup slash = some (.fixed root)
  parent : (v.entry root).parent = none
  rootFS : (v.nodeOf root).rootFS = true
  unnamed : ∀ e, (v.entry e).name = []
  root_lt : root < v.entries

def found (v : Vfs) (pathname : Str) (base : Option Nat) : Kern (Option Nat) := do
  let (path, v) ← make v pathname base
  (path.pathSearch v).map (·.1)

/-- **Relative and absolute paths agree** for the directory `d` that `names` lead to, whose own path is
the chain of names. -/
structure Agree (v : Vfs) (d : Nat) (names : List Str) (p : Str) : Prop where
  search : found v p (some d) = found v (chain names ++ '/' :: p) none
  absolute : (do let (path, v) ← make v [] (some d); path.pathAbsolute v) =
    .ok (if names = [] then slash else chain names)

/-- The working directory is where `pathAbsolute` stops on its way up, or one below. -/
def CwdShallow (v : Vfs) : Prop :=
  (v.isRoot v.cwd && (v.nodeOf v.cwd).rootFS) = true ∨
    ∃ e, (v.entry v.cwd).parent = some e ∧ (v.isRoot e && (v.nodeOf e).rootFS) = true

/-! ## The names of a path -/

/-- The names in a string behind the characters `cur` of a name, if that is not empty. -/
def words : (cur : Str) → Str → List Str
  | cur, [] => if cur = [] then [] else [cur]
  | cur, c :: cs =>
    if c = '/' then if cur = [] then words [] cs else cur :: words [] cs
    else words (cur ++ [c]) cs

theorem substr_concat {s cs : Str} {c : Char} {start n : Nat} (h : s.drop (start + n) = c :: cs) :
    substr s (start, n + 1) = substr s (start, n) ++ [c] := by
  unfold substr
  rw [List.take_add_one, List.getElem?_drop, ← List.head?_drop, h]
  rfl

theorem map_splitLoop (s cs : Str) : ∀ (i : Nat) (rep : Bool) (cur : Nat × Nat)
    (ind : List (Nat × Nat)), s.drop i = cs → (rep = true → cur.2 = 0) →
    (rep = false → cur.1 + cur.2 = i ∧ substr s cur ≠ []) →
    (splitLoop i cs rep cur ind).map (substr s) =
      ind.map (substr s) ++ words (if rep then [] else substr s cur) cs := by
  induction cs with
  | nil =>
    intro i rep cur ind _ _ hcur
    unfold splitLoop words
    cases rep with
    | true => simp
    | false => simp [(hcur rfl).2]
  | cons c cs ih =>
    intro i rep cur ind hcs hstart hcur
    have hcs' : s.drop (i + 1) = cs := by rw [← List.drop_drop, hcs, List.drop_one, List.tail_cons]
    unfold splitLoop words
    split
    · cases rep with
      | true => exact ih _ _ _ _ hcs' hstart nofun
      | false =>
        simp only [Bool.false_eq_true, if_false, if_neg (hcur rfl).2]
        rw [ih _ true (0, 0) _ hcs' (fun _ => rfl) nofun, List.map_append]
        simp
    · cases rep with
      | true =>
        have hone : substr s (i, cur.2 + 1) = [c] := by
          rw [hstart rfl, substr_concat (n := 0) hcs]
          rfl
        simp only [if_true]
        rw [ih _ false (i, cur.2 + 1) _ hcs' nofun fun _ => ⟨by rw [hstart rfl], by rw [hone]; nofun⟩]
        simp [hone]
      | false =>
        obtain ⟨rfl, hne⟩ := hcur rfl
        have hmore := substr_concat hcs
        simp only [Bool.false_eq_true, if_false]
        rw [ih _ false (cur.1, cur.2 + 1) _ hcs' nofun fun _ => ⟨rfl, by rw [hmore]; simp⟩]
        simp [hmore]

theorem split_eq (s : Str) : split s = words [] s :=
  map_splitLoop s s 0 true (0, 0) [] rfl (fun _ => rfl) nofun

theorem split_slash (p : Str) : split ('/' :: p) = split p := by
  rw [split_eq, split_eq]
  rfl

/-! ## Looking up from the root -/

section Root

variable {v : Vfs} {root : Nat} {p : Str}

/-- Only the names and the base of a path matter to its lookup, unless it is empty or `/`. -/
theorem pathSearch_congr {a b : Path} (hnames : a.dirname = b.dirname) (hbase : a.base = b.base)
    (ha : a.pathname ≠ slash ∧ a.pathname ≠ []) (hb : b.pathname ≠ slash ∧ b.pathname ≠ []) :
    (a.pathSearch v).map (·.1) = (b.pathSearch v).map (·.1) := by
  have habs : a.pathAbsolute v = b.pathAbsolute v := by
    unfold pathAbsolute
    rw [hnames, hbase]
  unfold pathSearch pathHitTable
  rw [if_neg ha.1, if_neg ha.2, if_neg hb.1, if_neg hb.2, habs]
  cases b.pathAbsolute v with
  | error e => rfl
  | ok pathAbs =>
    simp only [ok_bind]
    cases longestPrefix v.mntTable pathAbs with
    | some tbl => rw [hnames]
    | none =>
      -- no mount: both walk from the same base, and only the paths handed back differ
      simp only [pure, Except.pure, ok_bind, hnames, hbase]
      cases b.base with
      | none =>
        cases walk false v none b.dirname <;> rfl
      | some entry =>
        dsimp only [Option.or]
        cases walk false (v.hold entry) (some entry) b.dirname <;> rfl

theorem make_relative (hrel : Relative p) (hne : p ≠ []) (d : Nat) :
    make v p (some d) = .ok ({ pathname := p, dirname := split p, base := some d }, v) := by
  cases p with
  | nil => exact absurd rfl hne
  | cons c cs =>
    have hc : c ≠ '/' := fun h => hrel.1 (by rw [h]; rfl)
    simp only [make, pathBuild, if_neg hc]
    rfl

theorem make_absolute (hboot : Booted v root) : make v ('/' :: p) none =
      .ok ({ pathname := '/' :: p, dirname := split p, base := some root }, v) := by
  simp only [make, pathBuild, Vfs.rootEntry, hboot.table, if_true, split_slash]
  rfl

/-- No entry on the way up adds more than a slash. -/
theorem namesUp_eq (hun : ∀ e, (v.entry e).name = []) : ∀ (fuel : Nat) (entry : Option Nat)
    (names names' : List Str), namesUp v fuel entry names = .ok names' →
      ∃ k, names' = List.replicate k [] ++ names := by
  intro fuel entry names names' h
  fun_induction namesUp v fuel entry names with
  | case1 | case2 => cases h
  | case3 => exact ⟨0, (Except.ok.inj h).symm⟩
  | case4 _ e names _ ih =>
    obtain ⟨k, hk⟩ := ih h
    refine ⟨k + 1, ?_⟩
    rw [hk, hun, List.replicate_succ', List.append_assoc]
    rfl

theorem join_replicate (k : Nat) : join (List.replicate k []) = List.replicate k '/' := by
  induction k with
  | zero => rfl
  | succ k ih =>
    have hhead : (List.replicate k ([] : Str)).head? ≠ some dotDot := by
      cases k <;> simp [List.replicate_succ, dotDot]
    rw [List.replicate_succ, join, if_neg (by decide), if_neg hhead, ih]
    rfl

theorem pathAbsolute_cwd (hboot : Booted v root) :
    ({ pathname := [], base := some v.cwd } : Path).pathAbsolute v = .ok slash ↔ CwdShallow v := by
  obtain ⟨n, hn⟩ : ∃ n, v.entries = n + 1 := ⟨v.entries - 1, by have := hboot.root_lt; omega⟩
  unfold pathAbsolute CwdShallow
  rw [hn, namesUp]
  by_cases hcwd : (v.isRoot v.cwd && (v.nodeOf v.cwd).rootFS) = true
  · rw [if_pos hcwd]
    exact iff_of_true rfl (.inl hcwd)
  rw [if_neg hcwd, hboot.unnamed]
  cases hp : (v.entry v.cwd).parent with
  | none => exact iff_of_false nofun fun h => h.elim hcwd nofun
  | some e =>
    rw [namesUp]
    by_cases he : (v.isRoot e && (v.nodeOf e).rootFS) = true
    · rw [if_pos he]
      exact iff_of_true rfl (.inr ⟨e, rfl, he⟩)
    rw [if_neg he, hboot.unnamed]
    refine iff_of_false (fun h => ?_) fun h => h.elim hcwd fun ⟨_, h, h'⟩ => he (by cases h; exact h')
    -- two levels or more are two slashes or more
    obtain ⟨names, hup, h⟩ := bind_eq_ok h
    obtain ⟨k, rfl⟩ := namesUp_eq hboot.unnamed _ _ _ _ hup
    rw [show [[], []] = List.replicate 2 ([] : Str) from rfl, List.replicate_append_replicate,
      join_replicate] at h
    cases h

theorem enter_unnamed {names : List Str} : ∀ {v : Vfs} {e d : Nat} {v' : Vfs},
    enter v e names = some (d, v') → (∀ x, (v.entry x).name = []) → ∀ x, (v'.entry x).name = [] := by
  induction names with
  | nil =>
    intro v e d v' h hun
    cases h
    exact hun
  | cons name names ih =>
    intro v e d v' h hun
    unfold enter Vfs.entSearch at h
    cases hcached : v.cached e name with
    | some sub =>
      rw [hcached] at h
      exact ih h hun
    | none =>
      rw [hcached] at h
      cases hnod : (v.nodeOf e).lookup name with
      | none => rw [hnod] at h; cases h
      | some nod =>
        rw [hnod] at h
        refine ih h fun x => ?_
        change ((v.addEntry e name nod).2.entry x).name = []
        simp only [Vfs.addEntry, Vfs.newEntry, Vfs.setSub, update_apply]
        split_ifs <;> simp [hun]

/-- **Relative and absolute paths agree only at the root**, for a path that is not empty, while the
working directory is the root or lies in it. -/
theorem agree_iff {names : List Str} {v₀ : Vfs} {d : Nat} (hboot : Booted v₀ root)
    (henter : enter v₀ root names = some (d, v)) (hrel : Relative p)
    (hnames : ∀ name ∈ names, name ≠ [] ∧ '/' ∉ name) :
    Agree v d names p ↔ names = [] ∧ p ≠ [] ∧ CwdShallow v := by
  cases names with
  | nil =>
    obtain ⟨rfl, rfl⟩ : root = d ∧ v₀ = v := Prod.mk.inj (Option.some.inj henter)
    have habs : (do let (path, v) ← make v₀ [] (some root); path.pathAbsolute v) =
        ({ pathname := [], base := some v₀.cwd } : Path).pathAbsolute v₀ := rfl
    constructor
    · intro h
      refine ⟨rfl, ?_, (pathAbsolute_cwd hboot).1 (habs ▸ h.absolute)⟩
      rintro rfl
      have hsearch : found v₀ [] (some root) = found v₀ slash none := h.search
      unfold found at hsearch
      rw [slash, make_absolute hboot, ok_bind] at hsearch
      simp only [pathSearch, Vfs.rootEntry, hboot.table] at hsearch
      cases hsearch
    · rintro ⟨-, hne, hcwd⟩
      refine ⟨?_, habs.trans ((pathAbsolute_cwd hboot).2 hcwd)⟩
      change found v₀ p (some root) = found v₀ ('/' :: p) none
      unfold found
      rw [make_relative hrel hne, make_absolute hboot, ok_bind, ok_bind]
      refine pathSearch_congr rfl rfl ⟨fun h => ?_, hne⟩ ⟨fun h => ?_, nofun⟩
      · exact hrel.1 (by rw [show p = slash from h]; rfl)
      · exact hne (List.cons.inj h).2
  | cons name names =>
    refine iff_of_false (fun h => ?_) (fun h => nomatch h.1)
    -- what comes up from the entries is made of slashes only
    have habs : ({ pathname := [], base := some v.cwd } : Path).pathAbsolute v =
        .ok (chain (name :: names)) := h.absolute
    obtain ⟨up, hup, habs⟩ := bind_eq_ok habs
    obtain ⟨k, rfl⟩ := namesUp_eq (enter_unnamed henter hboot.unnamed) _ _ _ _ hup
    obtain ⟨hne, hslash⟩ := hnames name List.mem_cons_self
    obtain ⟨c, cs, rfl⟩ := List.exists_cons_of_ne_nil hne
    have hmem : c ∈ chain ((c :: cs) :: names) := by simp [chain]
    rw [List.append_nil, join_replicate] at habs
    rw [← Except.ok.inj habs] at hmem
    have hc : c = '/' := by
      split at hmem
      · exact List.mem_singleton.1 hmem
      · exact List.eq_of_mem_replicate hmem
    exact hslash (hc ▸ List.mem_cons_self)

end Root

/-! ## A directory below the root -/

def sample : Vfs where
  inode
    | 0 => { dir := true, contents := [(['a'], 1)] }
    | 1 => { dir := true, contents := [(['x'], 2)] }
    | _ => { dir := false }
  inodes := 3
  entry _ := { parent := none, nod := 0 }
  entries := 1
  held _ := 0
  mntTable := [(slash, .fixed 0)]
  cwd := 0

theorem booted_sample : Booted sample 0 := ⟨rfl, rfl, rfl, fun _ => rfl, by decide⟩

/-- The file `x` is found in the root's directory `a` by either path. -/
theorem agree_sample :
    Booted sample 0 ∧ Relative ['a', '/', 'x'] ∧ Agree sample 0 [] ['a', '/', 'x'] ∧
      found sample ['a', '/', 'x'] (some 0) = .ok (some 2) :=
  ⟨booted_sample, by decide,
    (agree_iff booted_sample rfl (by decide) (by simp)).2 ⟨rfl, by decide, .inl rfl⟩, rfl⟩

/-- **A path below the root is looked up in the root.** The entry of `/a` has no name, so `x` in it
is taken for `//x`. -/
theorem not_agree_below : ∃ v, enter sample 0 [['a']] = some (1, v) ∧ Relative ['x'] ∧
      found v ['x'] (some 1) = .ok none ∧
      found v ['/', 'a', '/', 'x'] none = .ok (some 2) ∧ ¬ Agree v 1 [['a']] ['x'] := by
  refine ⟨_, rfl, by decide, rfl, rfl, fun h => ?_⟩
  have hsearch := h.search
  cases hsearch

end Path

end LuoOS.Fs
