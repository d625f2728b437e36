import LuoOS.Fs.DirEnt
import LuoOS.Fs.Path

/-!
# Directories and the entry cache

The functions of `kernel/fs/fat.cc` on directories: the records of a name, the search for one,
`entCreate` and `entRemove`, and the cache of the entries in use. A pointer to an entry is a slot of
the cache. All entries belong to one volume; in the source the caches of several are one array.
Characters are unsigned, as on RISC-V. A write outside of an array is an error here.
-/

namespace LuoOS.Fs

/-! ## Names -/

def LAST_LONG_ENTRY : UInt8 := 0x40
def EMPTY_ENTRY : UInt8 := 0xe5
def END_OF_ENTRY : UInt8 := 0x00
def CHAR_LONG_NAME : Nat := 13
def CHAR_SHORT_NAME : Nat := 11
def FAT32_MAX_FILENAME : Nat := 255

def cstr (buf : List UInt8) : List UInt8 := buf.takeWhile (· != 0)

def putAt (buf : List UInt8) (i : Nat) (bs : List UInt8) : List UInt8 :=
  buf.take i ++ bs ++ buf.drop (i + bs.length)

def zeros (n : Nat) : List UInt8 := List.replicate n 0

def le16 (v : Nat) : List UInt8 := [UInt8.ofNat v, UInt8.ofNat (v / 2 ^ 8)]

def flName (name : List UInt8) : List UInt8 := flNameOf id name

def shortChar (c : UInt8) : UInt8 :=
  if 0x61 ≤ c && c ≤ 0x7a then c - 0x20
  else if [0x2b, 0x2c, 0x3b, 0x3d, 0x5b, 0x5d].contains c then 0x5f
  else c

/-- The loop of `getShortName`. `k` is the place of `name`, `p` that of the last dot, or of the
start if there is none; a null `p` is `none`. -/
def shortLoop (name : List UInt8) : (fuel k : Nat) → (p : Option Nat) → (out : List UInt8) →
    List UInt8
  | 0, _, _, out => out
  | fuel + 1, k, p, out =>
    if CHAR_SHORT_NAME ≤ out.length then out
    else
      match name[k]? with
      | none => out
      | some c =>
        if out.length = 8 ∧ p.isSome then
          if p.getD 0 < k then out else shortLoop name fuel (p.getD 0 + 1) none out
        else if c = 0x20 then shortLoop name fuel (k + 1) p out
        else if c = 0x2e then
          if p.getD 0 < k + 1 then
            shortLoop name fuel (k + 1) none (out ++ List.replicate (8 - out.length) 0x20)
          else shortLoop name fuel (k + 1) p out
        else shortLoop name fuel (k + 1) p (out ++ [shortChar c])

def getShortName (name : List UInt8) : List UInt8 :=
  let dot := (List.range name.length).reverse.find? fun j => name[j]? == some 0x2e
  let out := shortLoop name (name.length + 1) 0 (some (dot.getD 0)) []
  out ++ List.replicate (CHAR_SHORT_NAME - out.length) 0x20

def getCheckSum (shortname : List UInt8) : UInt8 :=
  shortname.foldl (fun sum c => (if sum &&& 1 != 0 then (0x80 : UInt8) else 0) + (sum >>> 1) + c) 0

def eqAmb : (n : Nat) → (s1 s2 : List UInt8) → Bool
  | 0, _, _ => true
  | n + 1, s1, s2 =>
    let a := s1.headD 0
    let b := s2.headD 0
    if a = b ∨ (0x61 ≤ a ∧ a ≤ 0x7a ∧ a = b + 0x20) ∨ (0x41 ≤ a ∧ a ≤ 0x5a ∧ b = a + 0x20) then
      if a = 0 ∨ n = 0 then true else eqAmb n s1.tail s2.tail
    else false

def nameFits (name filename : List UInt8) : Bool :=
  eqAmb FAT32_MAX_FILENAME name (cstr filename) ||
    (name == [] && cstr filename != [0x2e] && cstr filename != [0x2e, 0x2e])

/-! ## Records -/

def longChars : (n : Nat) → (ended : Bool) → (p : List UInt8) → List UInt8
  | 0, _, _ => []
  | n + 1, true, p => 0xff :: 0xff :: longChars n true p
  | n + 1, false, p => p.headD 0 :: 0 :: longChars n (p.headD 0 == 0) p.tail

def longRecord (filename : List UInt8) (entcnt i : Nat) (checksum : UInt8) : List UInt8 :=
  let order := if i = entcnt then UInt8.ofNat i ||| LAST_LONG_ENTRY else UInt8.ofNat i
  let chars := longChars CHAR_LONG_NAME false (filename.drop ((i - 1) * CHAR_LONG_NAME))
  order :: chars.take 10 ++ [ATTR_LONG_NAME, 0, checksum] ++ (chars.drop 10).take 12 ++ [0, 0] ++
    chars.drop 22

def shortRecord (name : List UInt8) (attr : UInt8) (firstClus fileSize : Nat) : List UInt8 :=
  name ++ [attr] ++ zeros 8 ++ le16 (firstClus >>> 16) ++ zeros 4 ++ le16 firstClus ++ le32 fileSize

/-- `snstr` into bytes that were `old` before. Behind a 0 it leaves the last byte as it is. -/
def snstr : (src : List Nat) → (old : List UInt8) → List UInt8
  | [], _ => []
  | w :: ws, old =>
    if w = 0 then zeros ws.length ++ (old.drop ws.length).take 1
    else UInt8.ofNat w :: snstr ws old.tail

def wordsAt (de : List UInt8) (i n : Nat) : List Nat :=
  (List.range n).map fun k => le16At de (i + 2 * k)

def readLong (de buf : List UInt8) (base : Nat) : List UInt8 :=
  let old := buf.drop base
  putAt buf base (snstr (wordsAt de 1 5) (old.take 5) ++
    snstr (wordsAt de 14 6) ((old.drop 5).take 6) ++ snstr (wordsAt de 28 2) ((old.drop 11).take 2))

def readShort (de buf : List UInt8) : List UInt8 :=
  let base := (de.take 8).takeWhile (· != 0x20)
  let ext := if de.getD 8 0 = 0x20 then [] else 0x2e :: ((de.drop 8).take 3).takeWhile (· != 0x20)
  let name := base ++ ext
  putAt buf 0 (name ++ zeros (CHAR_SHORT_NAME + 2 - name.length))

namespace DirEnt

def ofEnt (e : DirEnt) (de : List UInt8) : DirEnt :=
  let firstClus := le16At de 20 <<< 16 ||| le16At de 26
  { e with
    attr := de.getD 11 0, firstClus, curClus := firstClus, clusCnt := 0
    fileSize := le16At de 28 + 2 ^ 16 * le16At de 30 }

end DirEnt

/-! ## The entry cache -/

namespace Mount

def modify (s : Mount) (i : Nat) (f : DirEnt → DirEnt) : Mount :=
  { s with ents := Function.update s.ents i (f (s.ents i)) }

def entDup (s : Mount) (i : Nat) : Mount := s.modify i fun e => { e with ref := e.ref + 1 }

def unref (s : Mount) (i : Nat) : Mount := s.modify i fun e => { e with ref := e.ref - 1 }

def evictee (s : Mount) : Option Nat := s.lru.reverse.find? fun i => (s.ents i).ref = 0

def eCacheAlloc (s : Mount) : Kern (Nat × Mount) :=
  match s.evictee with
  | none => .error (.panic "entHit: insufficient ecache")
  | some i =>
    .ok (i, s.modify i fun e => { e with ref := 1, off := 0, valid := .unused, dirty := false })

def fits (s : Mount) (this : Nat) (name : List UInt8) (off : Nat) (i : Nat) : Bool :=
  (s.ents i).valid = .live && (s.ents i).parent = some this && off ≤ (s.ents i).off &&
    nameFits name (s.ents i).filename

def hit (s : Mount) (this i : Nat) : Mount :=
  if (s.ents i).ref = 0 then (s.entDup i).entDup this else s.entDup i

def eCacheHit (s : Mount) (this : Nat) (name : List UInt8) (off : Nat) : Kern (Nat × Mount) :=
  match s.lru.find? (s.fits this name off) with
  | some i => .ok (i, s.hit this i)
  | none => s.eCacheAlloc

def relocClus (s : Mount) (i off : Nat) (alloc : Bool) : Kern (Int × Mount) := do
  let (r, d, e) ← DirEnt.relocClus s.sb s.disk (s.ents i) off alloc
  .ok (r, s.setEnt i d e)

def readCur (s : Mount) (i off len : Nat) : Kern (List UInt8) :=
  s.sb.rwClusRead s.disk (s.ents i).curClus off len

def writeCur (s : Mount) (i off : Nat) (bs : List UInt8) : Kern Mount := do
  let d ← s.sb.rwClusWrite s.disk (s.ents i).curClus off bs
  .ok { s with disk := d }

def resolveLink (s : Mount) (i : Nat) : Kern Mount := do
  let e ← DirEnt.resolveLink s.sb s.disk (s.ents i)
  .ok (s.modify i fun _ => e)

/-! ## Searching -/

/-- What a long name record does to the entry that is filled, and to `count` and `islne`. The 20th
record of a name ends on `attribute` and the padding behind it. -/
def addLong (de : List UInt8) (e : DirEnt) (islne : Bool) (count : Nat) :
    Kern (DirEnt × Bool × Nat) :=
  let order := de.getD 0 0
  let lcnt := (order &&& ~~~LAST_LONG_ENTRY).toNat
  let last := order &&& LAST_LONG_ENTRY != 0
  if lcnt = 0 ∨ FAT32_MAX_FILENAME + 5 < lcnt * CHAR_LONG_NAME then .error .wildPointer
  else
    let buf := readLong de (e.filename ++ e.attr :: zeros 3) ((lcnt - 1) * CHAR_LONG_NAME)
    .ok ({ e with
      filename := buf.take (FAT32_MAX_FILENAME + 1), attr := buf.getD (FAT32_MAX_FILENAME + 1) 0 },
      islne || last, if last then lcnt + 1 else count)

/-- The loop of `entNext`, which fills `e`. The offset is a `uint`, so all offsets of records have
been met twice when the fuel is used up. -/
def entNextLoop (this : Nat) : (fuel : Nat) → (s : Mount) → (e : DirEnt) → (off cnt : Nat) →
    (islne : Bool) → (count : Nat) → Kern (Int × Nat × DirEnt × Mount)
  | 0, _, _, _, _, _, _ => .error .diverges
  | fuel + 1, s, e, off, cnt, islne, count => do
    let (off2, s) ← s.relocClus this off false
    if off2 = -1 then .ok (-1, count, e, s)
    else
      let de ← s.readCur this (u32 off2) 32
      if de.getD 0 0 = END_OF_ENTRY then .ok (-1, count, e, s)
      else if de.getD 0 0 = EMPTY_ENTRY then
        entNextLoop this fuel s e (u32 (off + 32 : Nat)) (cnt + 1) islne count
      else if cnt ≠ 0 then .ok (0, cnt, e, s)
      else if de.getD 11 0 = ATTR_LONG_NAME then
        let (e, islne, count) ← addLong de e islne count
        entNextLoop this fuel s e (u32 (off + 32 : Nat)) cnt islne count
      else if islne then .ok (1, count, e.ofEnt de, s)
      else .ok (1, 1, { e with filename := readShort de e.filename }.ofEnt de, s)

def entNext (s : Mount) (this : Nat) (e : DirEnt) (off count : Nat) :
    Kern (Int × Nat × DirEnt × Mount) :=
  if (s.ents this).has ATTR_DIRECTORY = false then .error (.panic "entFindNext not dir")
  else if e.valid ≠ .unused then .error (.panic "entFindNext ep valid")
  else if off % 32 ≠ 0 then .error (.panic "entFindNext not align")
  else if (s.ents this).valid ≠ .live then .ok (-1, count, e, s)
  else do
    let s ← s.resolveLink this
    entNextLoop this (2 ^ 28) s { e with filename := zeros (FAT32_MAX_FILENAME + 1) } off 0 false count

def parentUpdate (s : Mount) (i : Nat) : Kern Mount :=
  if (s.ents i).dirty = false ∨ (s.ents i).valid ≠ .live then .ok s
  else
    match (s.ents i).parent with
    | none => .error .wildPointer
    | some p => do
      let (r, s) ← s.relocClus p (s.ents i).off false
      let order ← s.readCur p (u32 r) 1
      let entcnt := (order.getD 0 0 &&& ~~~LAST_LONG_ENTRY).toNat
      let (r, s) ← s.relocClus p (u32 ((s.ents i).off + entcnt <<< 5 : Nat)) false
      let de ← s.readCur p (u32 r) 32
      let e := s.ents i
      let de := putAt (putAt de 20 (le16 (e.firstClus >>> 16))) 26
        (le16 e.firstClus ++ le32 e.fileSize)
      let s ← s.writeCur p (u32 r) de
      .ok (s.modify i fun e => { e with dirty := false })

def entTrunc (s : Mount) (i : Nat) : Kern Mount := do
  let (d, e) ← DirEnt.entTrunc s.sb s.disk (s.ents i)
  .ok (s.setEnt i d e)

def insertBehind (root i : Nat) : List Nat → List Nat
  | [] => [i]
  | j :: l => if j = root then j :: i :: l else j :: insertBehind root i l

def lastRelse (s : Mount) (i : Nat) : Kern Mount :=
  -- someone has called `entRemove`
  if (s.ents i).valid = .removed then s.entTrunc i else s.parentUpdate i

/-- `entRelse`. Getting the root adds a reference to it, which is never given back. Every entry is
let go at most once on the way up. -/
def entRelseLoop : (fuel : Nat) → Mount → Nat → Kern Mount
  | 0, _, _ => .error .diverges
  | fuel + 1, s, i => do
    let s := s.entDup s.root
    let e := s.ents i
    if i ≠ s.root ∧ e.valid ≠ .unused ∧ e.ref = 1 then
      let s := { s with lru := insertBehind s.root i (s.lru.erase i) }
      let s ← s.lastRelse i
      let eparent := (s.ents i).parent
      let s := s.unref i
      if (s.ents i).ref = 0 then
        match eparent with
        | none => .error .wildPointer
        | some p => entRelseLoop fuel s p
      else .ok s
    else .ok (s.unref i)

def entRelse (s : Mount) (i : Nat) : Kern Mount := entRelseLoop (s.lru.length + 1) s i

/-- The loop of `entSearch` from `off` on; `ep` is the slot for the result. `type` is the value of a
comparison and never 0, so a deleted name is like another one. -/
def entSearchLoop (this ep : Nat) (name : List UInt8) : (fuel : Nat) → (s : Mount) →
    (off count : Nat) → Kern (Option Nat × Nat × Mount)
  | 0, _, _, _ => .error .diverges
  | fuel + 1, s, off, count => do
    let (r, count, e, s) ← s.entNext this (s.ents ep) off count
    let s := s.modify ep fun _ => e
    if r = -1 then do
      let s ← s.entRelse ep
      .ok (none, off, s)
    else if nameFits name e.filename then
      let s := (s.entDup this).modify ep fun e => { e with parent := some this, off, valid := .live }
      .ok (some ep, u32 (off + count <<< 5 : Nat), s)
    else entSearchLoop this ep name fuel s (u32 (off + count <<< 5 : Nat)) count

/-- `entSearch`, with the offset that it leaves in `*a_off` unless `a_off` is null. -/
def entSearch (s : Mount) (this : Nat) (name : List UInt8) (a_off : Option Nat) :
    Kern (Option Nat × Nat × Mount) :=
  if (s.ents this).has ATTR_DIRECTORY = false then .error (.panic "dirLookUp not DIR")
  else do
    let s ← s.resolveLink this
    let off := a_off.getD 0
    if (s.ents this).valid ≠ .live then .ok (none, off, s)
    else
      let (ep, s) ← s.eCacheHit this name off
      if (s.ents ep).valid = .live then
        if a_off = none then .ok (some ep, off, s)
        else
          let tmp := { s.ents ep with valid := .unused }
          let (_, count, _, s) ← s.entNext this tmp (s.ents ep).off 0
          .ok (some ep, u32 ((s.ents ep).off + count <<< 5 : Nat), s)
      else
        let (_, s) ← s.relocClus this 0 false
        entSearchLoop this ep name (2 ^ 28) s off 0

/-! ## Creating and removing -/

def writeRecord (s : Mount) (this off : Nat) (de : List UInt8) : Kern Mount := do
  let (r, s) ← s.relocClus this off true
  s.writeCur this (u32 r) de

def writeLong (this : Nat) (filename : List UInt8) (entcnt : Nat) (checksum : UInt8) :
    (i : Nat) → (s : Mount) → (off : Nat) → Kern (Nat × Mount)
  | 0, s, off => .ok (off, s)
  | i + 1, s, off => do
    let s ← s.writeRecord this off (longRecord filename entcnt (i + 1) checksum)
    writeLong this filename entcnt checksum i s (u32 (off + 32 : Nat))

def dotName (off : Nat) : List UInt8 :=
  let dots := if off = 0 then [0x2e] else [0x2e, 0x2e]
  dots ++ List.replicate (CHAR_SHORT_NAME - dots.length) 0x20

def entCreateOnDisk (s : Mount) (this : Nat) (e : DirEnt) (off : Nat) : Kern Mount :=
  if (s.ents this).has ATTR_DIRECTORY = false then .error (.panic "entSynAt: not dir")
  else if off % 32 ≠ 0 then .error (.panic "entSynAt: not aligned")
  else if off ≤ 32 then
    s.writeRecord this off (shortRecord (dotName off) ATTR_DIRECTORY e.firstClus 0)
  else do
    let name := cstr e.filename
    let entcnt := (name.length + CHAR_LONG_NAME - 1) / CHAR_LONG_NAME
    let shortname := getShortName name
    let (off, s) ← writeLong this e.filename entcnt (getCheckSum shortname) entcnt s off
    s.writeRecord this off (shortRecord shortname e.attr e.firstClus e.fileSize)

def newEnt (e : DirEnt) (this : Nat) (name : List UInt8) (attr off : Nat) : DirEnt :=
  let filename := name.take FAT32_MAX_FILENAME
  { e with
    filename := filename ++ zeros (FAT32_MAX_FILENAME + 1 - filename.length)
    attr := UInt8.ofNat attr, fileSize := 0, firstClus := 0, parent := some this, off
    clusCnt := 0, curClus := 0, dirty := false }

def initDir (s : Mount) (this ep : Nat) : Kern Mount := do
  let (clus, d) ← DirEnt.allocClus s.sb s.disk
  let s := s.setEnt ep d { s.ents ep with
    attr := (s.ents ep).attr ||| ATTR_DIRECTORY, curClus := clus, firstClus := clus }
  let s ← s.entCreateOnDisk ep (s.ents ep) 0
  s.entCreateOnDisk ep (s.ents this) 32

def initEnt (s : Mount) (this ep attr : Nat) : Kern Mount :=
  if attr = ATTR_DIRECTORY.toNat then s.initDir this ep
  else .ok (s.modify ep fun e => { e with attr := e.attr ||| ATTR_ARCHIVE })

def entCreate (s : Mount) (this : Nat) (name : List UInt8) (attr : Nat) :
    Kern (Option Nat × Mount) :=
  if (s.ents this).has ATTR_DIRECTORY = false then .error (.panic "entCreateAt not dir")
  else if (s.ents this).valid ≠ .live ∨ flName name = [] then .ok (none, s)
  else do
    let (found, off, s) ← s.entSearch this (flName name) (some 0)
    match found with
    | some ep => .ok (some ep, s)
    | none =>
      let (ep, s) ← s.eCacheHit this (flName name) 0
      let s := (s.entDup this).modify ep fun e => newEnt e this (flName name) attr off
      let s ← s.initEnt this ep attr
      let s ← s.entCreateOnDisk this (s.ents ep) off
      .ok (some ep, s.modify ep fun e => { e with valid := .live })

def markEmpty (p : Nat) : (n : Nat) → (s : Mount) → (off off2 : Nat) → Kern Mount
  | 0, s, _, _ => .ok s
  | n + 1, s, off, off2 => do
    let s ← s.writeCur p off2 [EMPTY_ENTRY]
    let (r, s) ← s.relocClus p (u32 (off + 32 : Nat)) false
    markEmpty p n s (u32 (off + 32 : Nat)) (u32 r)

def entRemove (s : Mount) (i : Nat) : Kern Mount :=
  if (s.ents i).valid ≠ .live then .ok s
  else
    match (s.ents i).parent with
    | none => .error .wildPointer
    | some p => do
      let (r, s) ← s.relocClus p (s.ents i).off false
      let order ← s.readCur p (u32 r) 1
      let entcnt := (order.getD 0 0 &&& ~~~LAST_LONG_ENTRY).toNat
      let s ← markEmpty p (entcnt + 1) s (s.ents i).off (u32 r)
      .ok (s.modify i fun e => { e with valid := .removed })

def entWrite (s : Mount) (i : Nat) (bs : List UInt8) (off : Nat) : Kern (Int × Mount) := do
  let (r, d, e) ← DirEnt.entWrite s.sb s.disk (s.ents i) bs off
  .ok (r, s.setEnt i d e)

end Mount

end LuoOS.Fs
