import AetherOS.Ext2Freeing

/-!
# Paths

`ext2_lookup` goes from the root through one name after the other; an inode that is not a
directory is searched like one. The calls that create, remove and rename files split a
path into the path of the parent and the last name, and look up both. A path is the bytes
of the string without its end; the buffers of 256 bytes into which the parts are copied
are not modelled, which is for paths of at most 255 bytes.
-/
namespace AetherOS.Ext2
open ByteMemory ByteBitmap PointerTree List

abbrev Path := List UInt8

def setILinksCount (inode : Mem) (v : ℕ) : Mem := writeLE inode 2 26 v

/-- The inode is a directory. -/
def isDir (inode : Mem) : Bool := iMode inode &&& 0xF000 = 0x4000

/-- The inode is a regular file. -/
def isReg (inode : Mem) : Bool := iMode inode &&& 0xF000 = 0x8000

section

/-- The index of the last slash; `i` is the index of the byte that comes next. -/
def lastSlash : Path → ℕ → ℕ → ℕ
  | [], _, last => last
  | b :: p, i, last => lastSlash p (i + 1) (if b = 47 then i else last)

/-- The path of the parent and the name in it. -/
def pathSplit (path : Path) : Option (Path × Name) :=
  let last := lastSlash path 0 0
  let name := path.drop (last + 1)
  if name.length = 0 ∨ 254 < name.length then none
  else some (if last = 0 then [47] else path.take last, name)

variable (g : Geometry)

/-- The search for a name in `n` direct blocks from slot `b` on: 0 if it is not there, and
nothing if a block cannot be read. -/
def searchLoop (s : Fs) (inode : Mem) (name : Name) : ℕ → ℕ → Option ℕ × Fs
  | 0, _ => (some 0, s)
  | n + 1, b =>
    if iBlock inode b = 0 then (some 0, s)
    else
      match readBlock g s (iBlock inode b) with
      | (none, s) => (none, s)
      | (some scratch, s) =>
        let found := dirFindInBlock scratch g.blockSize name 0
        if found ≠ 0 then (some found, s) else searchLoop s inode name n (b + 1)

lemma length_next_lt {p : Path} (h : p ≠ []) : ((p.dropWhile (· ≠ 47)).drop 1).length < p.length := by
  have hle : (p.dropWhile (· ≠ 47)).length ≤ p.length := (dropWhile_sublist _).length_le
  have hpos : 0 < p.length := length_pos_iff.mpr h
  rw [length_drop]
  omega

/-- The walk along a path. The length of a name is kept in one byte. -/
def lookupLoop (s : Fs) (curIno : ℕ) (p : Path) : Option ℕ × Fs :=
  if _h : p = [] then (some curIno, s)
  else
    let comp := p.takeWhile (· ≠ 47)
    let nameLen := comp.length % 256
    if nameLen = 0 then lookupLoop s curIno ((p.dropWhile (· ≠ 47)).drop 1)
    else
      match readInode g s curIno with
      | (none, s) => (none, s)
      | (some ino, s) =>
        match searchLoop g s ino (comp.take nameLen) 12 0 with
        | (none, s) => (none, s)
        | (some found, s) =>
          if found = 0 then (none, s) else lookupLoop s found ((p.dropWhile (· ≠ 47)).drop 1)
termination_by p.length
decreasing_by all_goals exact length_next_lt _h

def ext2Lookup (s : Fs) (path : Path) : Option ℕ × Fs :=
  if path.head? = some 47 then lookupLoop g s 2 path.tail else (none, s)

/-- The inode at a path, or 0. -/
def ext2LookupIno (s : Fs) (path : Path) : ℕ × Fs :=
  match ext2Lookup g s path with
  | (some ino, s) => (ino, s)
  | (none, s) => (0, s)

/-- An inode without blocks. -/
def newInode (mode uid gid links : ℕ) : Mem :=
  writeLE (writeLE (writeLE (writeLE zeros 2 0 mode) 2 2 uid) 2 24 gid) 2 26 links

def ext2Create (s : Fs) (path : Path) (uid gid : ℕ) : ℕ × Fs :=
  match pathSplit path with
  | none => (0, s)
  | some (parent, name) =>
    let parentIno := ext2LookupIno g s parent
    if parentIno.1 = 0 then (0, parentIno.2)
    else
      let old := ext2LookupIno g parentIno.2 path
      if old.1 ≠ 0 then (0, old.2)
      else
        let ino := allocInode g old.2
        if ino.1 = 0 then (0, ino.2)
        else
          let w := writeInode g ino.2 ino.1 (newInode (0x8000 ||| 0o644) uid gid 1)
          if w.1 then
            let a := dirAddEntry g w.2 parentIno.1 name ino.1 1
            if a.1 then (ino.1, a.2) else (0, freeInode g a.2 ino.1)
          else (0, freeInode g w.2 ino.1)

/-- The entries "." and ".." of a new directory. -/
def addDots (s : Fs) (ino parentIno : ℕ) : Bool × Fs :=
  let dot := dirAddEntry g s ino [46] ino 2
  if dot.1 then dirAddEntry g dot.2 ino [46, 46] parentIno 2 else (false, dot.2)

/-- A new directory is put under its name, and the parent gets a link. -/
def enterDir (s : Fs) (parentIno : ℕ) (name : Name) (ino : ℕ) : ℕ × Fs :=
  let a := dirAddEntry g s parentIno name ino 2
  if a.1 then
    match readInode g a.2 parentIno with
    | (none, s) => (ino, s)
    | (some par, s) => (ino, (writeInode g s parentIno (setILinksCount par (iLinksCount par + 1))).2)
  else (0, freeInode g a.2 ino)

def ext2Mkdir (s : Fs) (path : Path) (uid gid : ℕ) : ℕ × Fs :=
  match pathSplit path with
  | none => (0, s)
  | some (parent, name) =>
    let parentIno := ext2LookupIno g s parent
    if parentIno.1 = 0 then (0, parentIno.2)
    else
      let old := ext2LookupIno g parentIno.2 path
      if old.1 ≠ 0 then (0, old.2)
      else
        let ino := allocInode g old.2
        if ino.1 = 0 then (0, ino.2)
        else
          let w := writeInode g ino.2 ino.1 (newInode (0x4000 ||| 0o755) uid gid 2)
          if w.1 then
            let dots := addDots g w.2 ino.1 parentIno.1
            if dots.1 then enterDir g dots.2 parentIno.1 name ino.1 else (0, freeInode g dots.2 ino.1)
          else (0, freeInode g w.2 ino.1)

/-- One link of the inode is given up, and with the last one its blocks and the inode. -/
def dropLink (s : Fs) (ino : ℕ) (inode : Mem) : Fs :=
  let inode := if 0 < iLinksCount inode then setILinksCount inode (iLinksCount inode - 1) else inode
  if iLinksCount inode = 0 then
    let r := freeBlocks g s inode
    let s := (writeInode g r.2 ino (setIBlocks (setISize r.1 0) 0)).2
    freeInode g s ino
  else (writeInode g s ino inode).2

def ext2Unlink (s : Fs) (path : Path) : Bool × Fs :=
  match pathSplit path with
  | none => (false, s)
  | some (parent, name) =>
    let parentIno := ext2LookupIno g s parent
    let ino := ext2LookupIno g parentIno.2 path
    if parentIno.1 = 0 ∨ ino.1 = 0 then (false, ino.2)
    else
      match readInode g ino.2 ino.1 with
      | (none, s) => (false, s)
      | (some inode, s) => dirRemoveEntry g (dropLink g s ino.1 inode) parentIno.1 name

/-- The rounds of the update of ".." over `n` direct blocks of a moved directory. -/
def fixDotDot (s : Fs) (inode : Mem) (dstParent : ℕ) : ℕ → ℕ → Fs
  | 0, _ => s
  | n + 1, b =>
    if iBlock inode b = 0 then s
    else
      match readBlock g s (iBlock inode b) with
      | (none, s) => fixDotDot s inode dstParent n (b + 1)
      | (some blk, s) =>
        match retargetInBlock blk g.blockSize [46, 46] dstParent 0 with
        | some blk => (writeBlock g s (iBlock inode b) blk).2
        | none => fixDotDot s inode dstParent n (b + 1)

/-- The part of `ext2_rename` that moves the entry. -/
def moveEntry (s : Fs) (srcIno : ℕ) (srcInode : Mem) (srcParent : ℕ) (srcName : Name) (dstParent : ℕ)
    (dstName : Name) : Bool × Fs :=
  let ftype := if isDir srcInode then 2 else 1
  let a := dirAddEntry g s dstParent dstName srcIno ftype
  if a.1 then
    let r := dirRemoveEntry g a.2 srcParent srcName
    if r.1 then
      if ftype = 2 ∧ srcParent ≠ dstParent then
        let blk := r.2.request
        if blk.1 then (true, fixDotDot g blk.2 srcInode dstParent 12 0) else (true, blk.2)
      else (true, r.2)
    else (false, (dirRemoveEntry g r.2 dstParent dstName).2)
  else (false, a.2)

/-- The destination is removed if it is a file; a directory is not overwritten. -/
def clearDst (s : Fs) (newPath : Path) : Bool × Fs :=
  let dst := ext2LookupIno g s newPath
  if dst.1 = 0 then (true, dst.2)
  else
    match readInode g dst.2 dst.1 with
    | (none, s) => (false, s)
    | (some dstInode, s) => if isDir dstInode then (false, s) else (true, (ext2Unlink g s newPath).2)

def ext2Rename (s : Fs) (oldPath newPath : Path) : Bool × Fs :=
  let src := ext2LookupIno g s oldPath
  if src.1 = 0 then (false, src.2)
  else
    let early := ext2LookupIno g src.2 newPath
    if early.1 ≠ 0 ∧ early.1 = src.1 then (true, early.2)
    else
      match pathSplit oldPath, pathSplit newPath with
      | some (srcParent, srcName), some (dstParent, dstName) =>
        let sp := ext2LookupIno g early.2 srcParent
        let dp := ext2LookupIno g sp.2 dstParent
        if sp.1 = 0 ∨ dp.1 = 0 then (false, dp.2)
        else
          match readInode g dp.2 src.1 with
          | (none, s) => (false, s)
          | (some srcInode, s) =>
            let cleared := clearDst g s newPath
            if cleared.1 then moveEntry g cleared.2 src.1 srcInode sp.1 srcName dp.1 dstName
            else (false, cleared.2)
      | _, _ => (false, early.2)

/-- What the search finds in `n` direct blocks from slot `b` on. -/
def searchSlots (disk inode : Mem) (name : Name) : ℕ → ℕ → Option ℕ
  | 0, _ => none
  | n + 1, b =>
    if iBlock inode b = 0 then none
    else
      let found := dirFindInBlock (slotBlock g disk inode b) g.blockSize name 0
      if found ≠ 0 then some found else searchSlots disk inode name n (b + 1)

/-- What the search for a name finds in an inode. -/
def child (disk : Mem) (n : ℕ) (name : Name) : Option ℕ := searchSlots g disk (inodeAt g disk n) name 12 0

/-- The inode that a list of names leads to from the root. -/
def resolve (disk : Mem) (cs : List Name) : Option ℕ := walk (fun _ => child g disk) 0 2 cs

end

/-- A name that a normalized path may contain. -/
@[mk_iff] structure Component (name : Name) : Prop where
  pos : 0 < name.length
  le : name.length ≤ 254
  noSlash : 47 ∉ name
  noEnd : 0 ∉ name
  notDot : name ≠ [46]
  notDotDot : name ≠ [46, 46]

instance (name : Name) : Decidable (Component name) :=
  decidable_of_iff' _ (component_iff name)

lemma Component.lt {name : Name} (h : Component name) : name.length < 256 := by
  have hle := h.le
  omega

/-- The string of a normalized absolute path. -/
def pathString (cs : List Name) : Path := if cs = [] then [47] else cs.flatMap (47 :: ·)

section

variable {a c : List UInt8} {cs : List Name}

lemma lastSlash_of_notMem (hc : 47 ∉ c) (i last : ℕ) : lastSlash c i last = last := by
  induction c generalizing i with
  | nil => rfl
  | cons b c ih =>
    rw [mem_cons, not_or] at hc
    rw [lastSlash, if_neg (Ne.symm hc.1), ih hc.2]

lemma lastSlash_append (hc : 47 ∉ c) (i last : ℕ) : lastSlash (a ++ 47 :: c) i last = i + a.length := by
  induction a generalizing i last with
  | nil =>
    rw [nil_append, lastSlash, if_pos rfl, lastSlash_of_notMem hc]
    rfl
  | cons b a ih =>
    rw [cons_append, lastSlash, ih, length_cons]
    omega

lemma pathString_cons (c : Name) (cs : List Name) : pathString (c :: cs) = 47 :: (c ++ cs.flatMap (47 :: ·)) := by
  rw [pathString, if_neg (by simp), flatMap_cons, cons_append]

lemma pathString_concat (cs : List Name) (c : Name) : pathString (cs ++ [c]) = cs.flatMap (47 :: ·) ++ 47 :: c := by
  rw [pathString, if_neg (by simp), flatMap_append, flatMap_singleton]

/-- A normalized path is split into its parent and its last name. -/
theorem pathSplit_pathString (cs : List Name) (hc : Component c) :
    pathSplit (pathString (cs ++ [c])) = some (pathString cs, c) := by
  have hdrop : (cs.flatMap (47 :: ·) ++ 47 :: c).drop ((cs.flatMap (47 :: ·)).length + 1) = c := by
    rw [drop_append]
    simp
  have hpos := hc.pos
  have hle := hc.le
  rw [pathSplit, pathString_concat, lastSlash_append hc.noSlash]
  simp only [zero_add, hdrop]
  rw [if_neg (by omega), take_left]
  cases cs with
  | nil => rfl
  | cons d cs => rw [pathString, if_neg (by simp), if_neg (by simp)]

end

section

variable {g : Geometry} {s : Fs} {inode disk : Mem} {name : Name} {cs : List Name} {i n : ℕ}

lemma searchLoop_eq (hn : NoFault s) (inode : Mem) (name : Name) (m b : ℕ) :
    searchLoop g s inode name m b = (some ((searchSlots g s.disk inode name m b).getD 0), s) := by
  induction m generalizing b with
  | zero => rfl
  | succ m ih =>
    rw [searchLoop, searchSlots]
    by_cases h0 : iBlock inode b = 0
    · rw [if_pos h0, if_pos h0]
      rfl
    rw [if_neg h0, if_neg h0, readBlock_eq g hn]
    by_cases hf : dirFindInBlock (slotBlock g s.disk inode b) g.blockSize name 0 ≠ 0
    · rw [if_pos hf]
      exact if_pos hf
    · rw [if_neg hf]
      exact (if_neg hf).trans (ih (b + 1))

lemma searchSlots_ne_zero {m b : ℕ} (h : searchSlots g disk inode name m b = some i) : i ≠ 0 := by
  induction m generalizing b with
  | zero => cases h
  | succ m ih =>
    rw [searchSlots] at h
    split at h
    · cases h
    simp only at h
    split at h
    next hfound =>
      cases h
      exact hfound
    · exact ih h

lemma child_ne_zero (h : child g disk n name = some i) : i ≠ 0 := searchSlots_ne_zero h

section

variable (hfit : g.InodesFit)
include hfit

lemma lookupLoop_cons (hn : NoFault s) (h0 : n ≠ 0) (hc : Component name)
    (rest : Path) (hrest : rest = [] ∨ ∃ p, rest = 47 :: p) :
    lookupLoop g s n (name ++ rest) = match child g s.disk n name with
      | none => (none, s)
      | some i => lookupLoop g s i (rest.drop 1) := by
  have hpos := hc.pos
  have hle := hc.le
  have hall : ∀ b ∈ name, (decide (b ≠ 47)) = true := by
    intro b hb
    simp only [decide_eq_true_eq]
    rintro rfl
    exact hc.noSlash hb
  have htake : (name ++ rest).takeWhile (· ≠ 47) = name := by
    rw [takeWhile_append_of_pos hall]
    rcases hrest with rfl | ⟨p, rfl⟩
    · simp
    · simp
  have hdrop : (name ++ rest).dropWhile (· ≠ 47) = rest := by
    rw [dropWhile_append_of_pos hall]
    rcases hrest with rfl | ⟨p, rfl⟩
    · simp
    · simp
  have hne : name ++ rest ≠ [] := by
    intro he
    rw [append_eq_nil_iff] at he
    rw [he.1] at hpos
    cases hpos
  rw [lookupLoop, dif_neg hne]
  simp only [htake, hdrop, Nat.mod_eq_of_lt (show name.length < 256 by omega), take_length,
    readInode_eq hfit hn h0, searchLoop_eq hn]
  rw [if_neg (by omega)]
  unfold child
  cases hs : searchSlots g s.disk (inodeAt g s.disk n) name 12 0 with
  | none => rfl
  | some i => exact if_neg (searchSlots_ne_zero hs)

lemma lookupLoop_path (hn : NoFault s) (h0 : n ≠ 0) (hcs : ∀ c ∈ cs, Component c) (k : ℕ) :
    lookupLoop g s n ((cs.flatMap (47 :: ·)).drop 1) = (walk (fun _ => child g s.disk) k n cs, s) := by
  induction cs generalizing n k with
  | nil =>
    rw [lookupLoop, dif_pos (by rfl)]
    rfl
  | cons c cs ih =>
    obtain ⟨hc, hcs⟩ := forall_mem_cons.mp hcs
    have hrest : cs.flatMap (47 :: ·) = [] ∨ ∃ p, cs.flatMap (47 :: ·) = (47 :: p : Path) := by
      cases cs with
      | nil => exact .inl rfl
      | cons d cs => exact .inr ⟨d ++ cs.flatMap (47 :: ·), flatMap_cons⟩
    rw [flatMap_cons, cons_append, drop_one, tail_cons, lookupLoop_cons hfit hn h0 hc _ hrest, walk]
    cases hi : child g s.disk n c with
    | none => rfl
    | some i => exact ih (child_ne_zero hi) hcs (k + 1)

/-- `ext2_lookup` follows the names of a normalized path. -/
theorem ext2Lookup_pathString (hn : NoFault s) (hcs : ∀ c ∈ cs, Component c) :
    ext2Lookup g s (pathString cs) = (resolve g s.disk cs, s) := by
  have hpath := lookupLoop_path hfit hn (show 2 ≠ 0 by decide) hcs 0
  cases cs with
  | nil =>
    rw [ext2Lookup, if_pos (by rfl)]
    exact hpath
  | cons c cs =>
    rw [ext2Lookup, pathString_cons, if_pos (by rfl), tail_cons]
    rw [flatMap_cons, cons_append, drop_one, tail_cons] at hpath
    exact hpath

theorem ext2LookupIno_pathString (hn : NoFault s) (hcs : ∀ c ∈ cs, Component c) :
    ext2LookupIno g s (pathString cs) = ((resolve g s.disk cs).getD 0, s) := by
  rw [ext2LookupIno, ext2Lookup_pathString hfit hn hcs]
  cases resolve g s.disk cs <;> rfl

end

end

end AetherOS.Ext2
