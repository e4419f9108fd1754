import AetherOS.Ext2NameLaws
import Mathlib.Data.List.TakeWhile

/-!
# Paths as they are given to `ext2_lookup`

A path that comes from a caller may have repeated slashes and components of any length. The
length of a component goes through one byte: a component of 256 bytes counts as empty, and if
it is the last one, the walk goes on behind the end of the string. The walk searches whatever
inode it has come to, be it a directory or not.
-/
namespace AetherOS.Ext2
open ByteMemory PointerTree List

/-- How the walk along a path ends; `overrun` is a read behind the end of the string. -/
inductive Looked where
  | found (ino : ℕ)
  | failed
  | overrun
  deriving DecidableEq

section

variable (g : Geometry)

/-- The loop of `ext2_lookup` over the rest of the string. -/
def walkPath (s : Fs) (curIno : ℕ) (p : Path) : Looked × Fs :=
  if _h : p = [] then (.found curIno, s)
  else
    let comp := p.takeWhile (· ≠ 47)
    let slash := p.dropWhile (· ≠ 47)
    let nameLen := comp.length % 256
    if nameLen = 0 then
      -- the loop goes on at `slash + 1`, also if `slash` is at the end
      if slash = [] then (.overrun, s) else walkPath s curIno (slash.drop 1)
    else
      match readInode g s curIno with
      | (none, s) => (.failed, s)
      | (some ino, s) =>
        match searchLoop g s ino (comp.take nameLen) 12 0 with
        | (none, s) => (.failed, s)
        | (some found, s) => if found = 0 then (.failed, s) else walkPath s found (slash.drop 1)
termination_by p.length
decreasing_by all_goals exact length_next_lt _h

def lookupPath (s : Fs) (path : Path) : Looked × Fs :=
  if path.head? = some 47 then walkPath g s 2 path.tail else (.failed, s)

/-- The components of a path that are not empty. -/
def components (path : Path) : List Name := (path.splitOn 47).filter (· ≠ [])

/-- The names `cs` lead from inode `n` to inode `i`: every step starts in a directory and finds
an entry for the whole name. -/
inductive Leads (disk : Mem) : ℕ → List Name → ℕ → Prop
  | nil (n : ℕ) : Leads disk n [] n
  | cons {n m i : ℕ} {c : Name} {cs : List Name} : isDir (inodeAt g disk n) = true →
      (c, m) ∈ entriesOf g disk n → Leads disk m cs i → Leads disk n (c :: cs) i

/-- The names are searched in directories, and their lengths fit into a byte, as far as the
walk from `n` comes. -/
def Walkable (disk : Mem) : ℕ → List Name → Prop
  | _, [] => True
  | n, c :: cs => isDir (inodeAt g disk n) = true ∧ c.length ≤ 255 ∧
      ∀ m, child g disk n c = some m → Walkable disk m cs

/-- The directories of the tree are well formed. -/
def DirsFormed (disk : Mem) : Prop :=
  ∀ q d, Leads g disk 2 q d → isDir (inodeAt g disk d) = true → GoodDir g disk d

/-- The inode that was found. -/
def Looked.ino : Looked → Option ℕ
  | .found n => some n
  | _ => none

end

section

variable {c p : Path}

lemma components_nil : components [] = [] := by
  rw [components]
  rfl

lemma components_append (hc : 47 ∉ c) : components (c ++ 47 :: p) = (if c = [] then [] else [c]) ++ components p := by
  have hsplit : (c ++ 47 :: p).splitOn 47 = c :: p.splitOn 47 := by
    refine splitOnP_append_cons_of_forall_mem (fun b hb => ?_) 47 (by simp) p
    exact beq_false_of_ne fun hb' => hc (hb' ▸ hb)
  rw [components, hsplit, filter_cons]
  by_cases h : c = []
  · simp [h, components]
  · simp [h, components]

lemma components_single (hc : 47 ∉ c) : components c = if c = [] then [] else [c] := by
  have hsplit : c.splitOn 47 = [c] := by
    refine splitOnP_eq_singleton fun b hb => ?_
    exact beq_false_of_ne fun hb' => hc (hb' ▸ hb)
  rw [components, hsplit]
  by_cases h : c = []
  · simp [h]
  · simp [h]

lemma slash_notMem_takeWhile (p : Path) : 47 ∉ p.takeWhile (· ≠ 47) := by
  intro h
  simpa using mem_takeWhile_imp h

lemma dropWhile_cons {b : UInt8} {rest : Path} (h : p.dropWhile (· ≠ 47) = b :: rest) : b = 47 := by
  induction p with
  | nil => cases h
  | cons a p ih =>
    rw [List.dropWhile_cons] at h
    split at h
    · exact ih h
    next ha =>
      obtain ⟨rfl, -⟩ := List.cons.inj h
      simpa using ha

lemma components_eq (p : Path) : components p = (if p.takeWhile (· ≠ 47) = [] then [] else [p.takeWhile (· ≠ 47)]) ++
    components ((p.dropWhile (· ≠ 47)).drop 1) := by
  have hc := slash_notMem_takeWhile p
  have hp : p.takeWhile (· ≠ 47) ++ p.dropWhile (· ≠ 47) = p := takeWhile_append_dropWhile
  cases hd : p.dropWhile (· ≠ 47) with
  | nil =>
    rw [hd, append_nil] at hp
    rw [drop_nil, components_nil, append_nil, hp]
    exact components_single (hp ▸ hc)
  | cons b rest =>
    obtain rfl := dropWhile_cons hd
    rw [hd] at hp
    conv_lhs => rw [← hp]
    rw [components_append hc]
    rfl

end

section

variable {g : Geometry} {s : Fs} {n m : ℕ} {p : Path} {disk : Mem} {c : Name} {q : List Name}

lemma GoodDir.child_eq_some {d : ℕ} (h : GoodDir g disk d) :
    Ext2.child g disk d c = some m ↔ (c, m) ∈ entriesOf g disk d := by
  rw [h.child]
  constructor
  · intro hl
    obtain ⟨l₁, l₂, hl, -⟩ := lookup_eq_some_iff.mp hl
    rw [hl]
    exact mem_append_right _ mem_cons_self
  intro hmem
  obtain ⟨l₁, l₂, hl⟩ := append_of_mem hmem
  refine lookup_eq_some_iff.mpr ⟨l₁, l₂, hl, fun e he => ?_⟩
  -- an earlier entry has another name
  have hnames := h.names
  rw [hl, map_append, map_cons] at hnames
  have hne := (nodup_append.mp hnames).2.2 e.1 (mem_map_of_mem he) c mem_cons_self
  exact bne_iff_ne.mpr (Ne.symm hne)

lemma Leads.concat {k : ℕ} (h : Leads g disk n q m)
    (hdir : isDir (inodeAt g disk m) = true) (hmem : (c, k) ∈ entriesOf g disk m) : Leads g disk n (q ++ [c]) k := by
  induction h with
  | nil n => exact .cons hdir hmem (.nil k)
  | cons hd he _ ih => exact .cons hd he (ih hdir hmem)

lemma lookupLoop_of_walkPath (h : (walkPath g s n p).1 ≠ .overrun) :
    lookupLoop g s n p = ((walkPath g s n p).1.ino, (walkPath g s n p).2) := by
  induction hlen : p.length using Nat.strong_induction_on generalizing s n p with
  | _ len ih =>
    by_cases hp : p = []
    · rw [walkPath, lookupLoop, dif_pos hp, dif_pos hp]
      rfl
    have hshorter := length_next_lt hp
    rw [walkPath, dif_neg hp] at h ⊢
    rw [lookupLoop, dif_neg hp]
    simp only at h ⊢
    split at h
    next h0 =>
      split at h
      · exact absurd rfl h
      next hslash =>
        rw [if_pos h0, if_pos h0, if_neg hslash]
        exact ih _ (by omega) h rfl
    next h0 =>
      rw [if_neg h0, if_neg h0]
      rcases hr : readInode g s n with ⟨_ | ino, s1⟩
      · rfl
      rw [hr] at h
      dsimp only at h ⊢
      rcases hsearch : searchLoop g s1 ino ((p.takeWhile (· ≠ 47)).take ((p.takeWhile (· ≠ 47)).length % 256)) 12 0
        with ⟨_ | found, s2⟩
      · rfl
      rw [hsearch] at h
      dsimp only at h ⊢
      by_cases hz : found = 0
      · rw [if_pos hz, if_pos hz]
        rfl
      rw [if_neg hz] at h
      rw [if_neg hz, if_neg hz]
      exact ih _ (by omega) h rfl

/-- The walk from an inode that some names lead to from the root. -/
theorem walkPath_leads (hfit : g.InodesFit) (hn : NoFault s) (hformed : DirsFormed g s.disk)
    (hq : Leads g s.disk 2 q n) (h0 : n ≠ 0) (hw : Walkable g s.disk n (components p)) :
    (walkPath g s n p).1 ≠ .overrun ∧ ∀ i, (walkPath g s n p).1 = .found i ↔ Leads g s.disk n (components p) i := by
  induction hlen : p.length using Nat.strong_induction_on generalizing n p q with
  | _ len ih =>
    rw [walkPath]
    by_cases hp : p = []
    · subst hp
      rw [dif_pos rfl, components_nil]
      refine ⟨by simp, fun i => ⟨fun h => ?_, fun h => ?_⟩⟩
      · obtain rfl := Looked.found.inj h
        exact .nil _
      · cases h
        rfl
    rw [dif_neg hp]
    have hshorter := length_next_lt hp
    rw [components_eq p] at hw ⊢
    by_cases hc : p.takeWhile (· ≠ 47) = []
    · -- an empty component: the path goes on after the slash
      have hslash : p.dropWhile (· ≠ 47) ≠ [] := by
        intro hd
        have happ : p.takeWhile (· ≠ 47) ++ p.dropWhile (· ≠ 47) = p := takeWhile_append_dropWhile
        rw [hc, hd] at happ
        exact hp happ.symm
      simp only [hc, if_true, nil_append, length_nil, Nat.zero_mod, if_neg hslash] at hw ⊢
      exact ih _ (by omega) hq h0 hw rfl
    rw [if_neg hc] at hw ⊢
    obtain ⟨hdir, hlong, hnext⟩ := hw
    have hpos := length_pos_iff.mpr hc
    have hmod : (p.takeWhile (· ≠ 47)).length % 256 = (p.takeWhile (· ≠ 47)).length := Nat.mod_eq_of_lt (by omega)
    have hgood := hformed q n hq hdir
    simp only [hmod, if_neg (show ¬(p.takeWhile (· ≠ 47)).length = 0 by omega), take_length,
      readInode_eq hfit hn h0, searchLoop_eq hn, singleton_append]
    generalize p.takeWhile (· ≠ 47) = c at hnext ⊢
    cases hs : child g s.disk n c with
    | none =>
      have hsearch : searchSlots g s.disk (inodeAt g s.disk n) c 12 0 = none := hs
      simp only [hsearch, Option.getD_none, if_true]
      refine ⟨by simp, fun i => ⟨fun h => (by cases h), fun h => ?_⟩⟩
      cases h with
      | cons _ hmem _ =>
        rw [hgood.child_eq_some.mpr hmem] at hs
        cases hs
    | some m =>
      have hsearch : searchSlots g s.disk (inodeAt g s.disk n) c 12 0 = some m := hs
      have hm0 := child_ne_zero hs
      have hqm := hq.concat hdir (hgood.child_eq_some.mp hs)
      simp only [hsearch, Option.getD_some, if_neg hm0]
      obtain ⟨hno, hiff⟩ := ih _ (by omega) hqm hm0 (hnext m hs) rfl
      refine ⟨hno, fun i => (hiff i).trans ⟨fun h => ?_, fun h => ?_⟩⟩
      · exact .cons hdir (hgood.child_eq_some.mp hs) h
      cases h with
      | cons _ hmem hrest =>
        obtain rfl := Option.some.inj (hs.symm.trans (hgood.child_eq_some.mpr hmem))
        exact hrest

/-- Where the walk stays inside the path, it is the walk of `ext2_lookup`. -/
lemma ext2Lookup_of_lookupPath {path : Path} (h : (lookupPath g s path).1 ≠ .overrun) :
    ext2Lookup g s path = ((lookupPath g s path).1.ino, (lookupPath g s path).2) := by
  rw [lookupPath] at h ⊢
  rw [ext2Lookup]
  split at h
  next habs =>
    rw [if_pos habs, if_pos habs]
    exact lookupLoop_of_walkPath h
  next habs =>
    rw [if_neg habs, if_neg habs]
    rfl

lemma Sound.dirsFormed (h : Sound g s) : DirsFormed g s.disk := by
  intro q d hq hdir
  have huse : ∀ {n q d}, Leads g s.disk n q d → InUse g s n → InUse g s d := by
    intro n q d hl
    induction hl with
    | nil n => exact id
    | cons hd he _ ih => exact fun hn => ih (h.entries _ ⟨hn, hd⟩ _ he).inUse
  exact h.dirs d ⟨huse hq h.root.inUse, hdir⟩

end

/-- On every filesystem whose directories are well formed and for every absolute path whose
components fit into a byte and are searched in directories as far as the walk comes: the walk
reads nothing behind the end of the path, and it finds the inode that the components lead to
in the directory tree. -/
theorem lookupPath_leads (g : Geometry) (s : Fs) (path : Path) (hfit : g.InodesFit) (hn : NoFault s)
    (hformed : DirsFormed g s.disk) (habs : path.head? = some 47) (hw : Walkable g s.disk 2 (components path)) :
    (lookupPath g s path).1 ≠ .overrun ∧
      ∀ i, (lookupPath g s path).1 = .found i ↔ Leads g s.disk 2 (components path) i := by
  obtain ⟨p, rfl⟩ : ∃ p, path = 47 :: p := by
    cases path with
    | nil => cases habs
    | cons b p =>
      cases habs
      exact ⟨p, rfl⟩
  have hcomp : components (47 :: p) = components p := components_append (c := []) (by simp)
  rw [lookupPath, if_pos habs, tail_cons]
  rw [hcomp] at hw ⊢
  exact walkPath_leads hfit hn hformed (.nil 2) (by decide) hw

/-- The file `f`, with a slash too many. -/
theorem lookupPath_leads_file : (lookupPath smallGeometry (fileVolume [104, 105]) [47, 47, 102]).1 = .found 3 := by
  have hcomp : components [47, 47, 102] = [[102]] := by decide +kernel
  have hwalk : Walkable smallGeometry (fileVolume [104, 105]).disk 2 (components [47, 47, 102]) := by
    rw [hcomp]
    exact ⟨fileTree_text.root.dir, by decide, fun _ _ => trivial⟩
  have hleads : Leads smallGeometry (fileVolume [104, 105]).disk 2 (components [47, 47, 102]) 3 := by
    rw [hcomp]
    exact .cons fileTree_text.root.dir (by decide +kernel) (.nil 3)
  exact ((lookupPath_leads smallGeometry (fileVolume [104, 105]) [47, 47, 102] ⟨by decide, by decide⟩ (fun _ => rfl)
    fileTree_text.toSound.dirsFormed rfl hwalk).2 3).mpr hleads

/-- A component of 256 bytes at the end: the string is read behind its end. A component of 257
bytes is taken for the name `f`. The bytes of the file `f` are searched like a directory. -/
theorem lookupPath_leaves_tree : Sound smallGeometry (fileVolume forgedEntry) ∧
    DirsFormed smallGeometry (fileVolume forgedEntry).disk ∧
    (lookupPath smallGeometry (fileVolume forgedEntry) (47 :: List.replicate 256 97)).1 = .overrun ∧
    (lookupPath smallGeometry (fileVolume forgedEntry) (47 :: List.replicate 257 102)).1 = .found 3 ∧
    ¬Leads smallGeometry (fileVolume forgedEntry).disk 2 (components (47 :: List.replicate 257 102)) 3 ∧
    (lookupPath smallGeometry (fileVolume forgedEntry) [47, 102, 47, 99]).1 = .found 3 ∧
    ¬Leads smallGeometry (fileVolume forgedEntry).disk 2 (components [47, 102, 47, 99]) 3 := by
  have hsound := fileTree_forged.toSound
  have hroot : entriesOf smallGeometry (fileVolume forgedEntry).disk 2 = [([46], 2), ([46, 46], 2), ([102], 3)] := by
    decide +kernel
  refine ⟨hsound, hsound.dirsFormed, by decide +kernel, by decide +kernel, fun hl => ?_, by decide +kernel,
    fun hl => ?_⟩
  · have hcomp : components (47 :: List.replicate 257 102) = [List.replicate 257 102] := by decide +kernel
    rw [hcomp] at hl
    cases hl with
    | cons _ hmem _ =>
      have hshort : ∀ e ∈ entriesOf smallGeometry (fileVolume forgedEntry).disk 2, e.1.length < 257 := by
        rw [hroot]
        decide
      have hlt := hshort _ hmem
      rw [length_replicate] at hlt
      exact absurd hlt (by decide)
  have hcomp : components [47, 102, 47, 99] = [[102], [99]] := by decide +kernel
  rw [hcomp] at hl
  cases hl with
  | cons _ hmem hrest =>
    rw [hroot] at hmem
    obtain rfl := show _ = 3 by simpa using hmem
    cases hrest with
    | cons hdir _ _ =>
      revert hdir
      decide +kernel

end AetherOS.Ext2
