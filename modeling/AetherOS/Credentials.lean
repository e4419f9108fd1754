import Mathlib.Data.Finset.Insert
import Mathlib.Logic.Function.Basic
import AetherOS.Runs

/-!
# Credentials

Every process has real, effective and saved user and group ids. Four calls move ids
between these fields, a child inherits them, and the setuid bit of an executable is the
one way to an id that the parent does not have. What the file system says about a path
and whether the program can be loaded is arbitrary.
-/
namespace AetherOS.Security
open Runs Function Finset

structure Cred where
  uid : UInt32
  gid : UInt32
  euid : UInt32
  egid : UInt32
  suid : UInt32
  sgid : UInt32
  deriving DecidableEq, Repr

def credInit (uid gid : UInt32) : Cred := ⟨uid, gid, uid, gid, uid, gid⟩

/-! ## Transitions; the result says whether the change is permitted -/

def credSetuid (c : Cred) (newUid : UInt32) : Bool × Cred :=
  if c.euid = 0 then (true, { c with uid := newUid, euid := newUid, suid := newUid })
  else if newUid = c.uid ∨ newUid = c.suid then (true, { c with euid := newUid })
  else (false, c)

def credSeteuid (c : Cred) (newUid : UInt32) : Bool × Cred :=
  if c.euid = 0 ∨ newUid = c.uid ∨ newUid = c.euid ∨ newUid = c.suid then
    (true, { c with euid := newUid })
  else (false, c)

def credSetgid (c : Cred) (newGid : UInt32) : Bool × Cred :=
  if c.euid = 0 then (true, { c with gid := newGid, egid := newGid, sgid := newGid })
  else if newGid = c.gid ∨ newGid = c.sgid then (true, { c with egid := newGid })
  else (false, c)

def credSetegid (c : Cred) (newGid : UInt32) : Bool × Cred :=
  if c.euid = 0 ∨ newGid = c.gid ∨ newGid = c.egid ∨ newGid = c.sgid then
    (true, { c with egid := newGid })
  else (false, c)

/-- May `c` access a file of this owner, group and mode; 4 is read, 2 write, 1 execute. -/
def credCheck (c : Cred) (fuid fgid : UInt32) (mode : UInt16) (access : UInt8) : Bool :=
  if c.euid = 0 then true
  else
    let bits :=
      if c.euid = fuid then ((mode >>> 6) &&& 7).toUInt8
      else if c.egid = fgid then ((mode >>> 3) &&& 7).toUInt8
      else (mode &&& 7).toUInt8
    bits &&& access == access

/-! ## Spawning -/

/-- What `vfs_file_stat` reports. -/
structure FileStat where
  mode : UInt16
  uid : UInt32
  gid : UInt32
  deriving DecidableEq, Repr

/-- The bit 04000 of the mode. -/
def FileStat.isSetuid (f : FileStat) : Bool := f.mode &&& 0x800 != 0

/-- What the rest of the kernel contributes to a spawn: whether the path can be copied from
the caller, the file before and after loading (`none` if there is none), and the error with
which the program fails to load. -/
structure Exec where
  copied : Bool
  checked : Option FileStat
  failure : Option ℤ
  loaded : Option FileStat

/-- The credentials of the child, as `spawn_process` computes them. -/
def spawnCred (parent : Cred) (file : Option FileStat) : Cred :=
  let c :=
    match file with
    | some f =>
      if f.isSetuid then { parent with euid := f.uid, egid := if f.uid = 0 then 0 else parent.egid }
      else parent
    | none => parent
  { c with suid := c.euid, sgid := c.egid }

def spawnProcess (parent : Cred) (x : Exec) : Except ℤ Cred :=
  if !x.copied then throw (-14)
  else if x.checked.any fun f => !credCheck parent f.uid f.gid f.mode 1 then throw (-13)
  else
    match x.failure with
    | some e => throw e
    | none => pure (spawnCred parent x.loaded)

/-! ## Calls of the processes in a tree -/

/-- The credentials of the processes in a tree; `none` for a record outside of it. -/
abbrev CredTree := ℕ → Option Cred

inductive CredCall where
  | setuid (p : ℕ) (uid : UInt64)
  | seteuid (p : ℕ) (uid : UInt64)
  | setgid (p : ℕ) (gid : UInt64)
  | setegid (p : ℕ) (gid : UInt64)
  | spawn (p child : ℕ) (x : Exec)
  | spawnAs (p child : ℕ) (x : Exec) (uid gid : UInt64)

/-- `sys_setuid` and its siblings on the credentials of `p`; the argument is cut to 32 bits. -/
def CredTree.setIds (t : CredTree) (p : ℕ) (rule : Cred → UInt32 → Bool × Cred) (id : UInt64) : CredTree :=
  match t p with
  | none => t
  | some c => update t p (some (rule c id.toUInt32).2)

def sysSpawn (t : CredTree) (p child : ℕ) (x : Exec) : CredTree :=
  match t p with
  | none => t
  | some c =>
    match spawnProcess c x with
    | .error _ => t
    | .ok d => update t child (some d)

def sysSpawnAs (t : CredTree) (p child : ℕ) (x : Exec) (uid gid : UInt64) : CredTree :=
  match t p with
  | none => t
  | some c =>
    if c.euid ≠ 0 then t
    else
      match spawnProcess c x with
      | .error _ => t
      | .ok _ => update t child (some (credInit uid.toUInt32 gid.toUInt32))

def CredTree.handle (t : CredTree) : CredCall → CredTree
  | .setuid p uid => t.setIds p credSetuid uid
  | .seteuid p uid => t.setIds p credSeteuid uid
  | .setgid p gid => t.setIds p credSetgid gid
  | .setegid p gid => t.setIds p credSetegid gid
  | .spawn p child x => sysSpawn t p child x
  | .spawnAs p child x uid gid => sysSpawnAs t p child x uid gid

/-- A child gets a new record, and `sys_spawn` runs an executable without the setuid bit. -/
def CredTree.Allowed (t : CredTree) : CredCall → Prop
  | .spawn _ child x => t child = none ∧ ∀ f ∈ x.loaded, f.isSetuid = false
  | .spawnAs _ child _ _ _ => t child = none
  | _ => True

def credStep (t : CredTree) (call : CredCall) (t' : CredTree) : Prop := t.Allowed call ∧ t' = t.handle call

/-- One process and no descendants. -/
def CredTree.single (root : ℕ) (c : Cred) : CredTree := update (fun _ => none) root (some c)

/-! ## Ids stay within those of the first process -/

def Cred.uids (c : Cred) : Finset UInt32 := {c.uid, c.euid, c.suid}

def Cred.gids (c : Cred) : Finset UInt32 := {c.gid, c.egid, c.sgid}

/-- Every id of `d` is one of `c`. -/
structure Cred.Within (d c : Cred) : Prop where
  uids : d.uids ⊆ c.uids
  gids : d.gids ⊆ c.gids

namespace Cred.Within

variable {b c d : Cred}

lemma refl (c : Cred) : c.Within c := ⟨Finset.Subset.refl _, Finset.Subset.refl _⟩

lemma trans (h : d.Within c) (h' : c.Within b) : d.Within b :=
  ⟨h.uids.trans h'.uids, h.gids.trans h'.gids⟩

lemma euid_ne_zero (h : d.Within c) (hc : (0 : UInt32) ∉ c.uids) : d.euid ≠ 0 := by
  intro h0
  apply hc
  apply h.uids
  simp [Cred.uids, h0]

end Cred.Within

lemma within_setEuid (c : Cred) {u : UInt32} (hu : u ∈ c.uids) : Cred.Within { c with euid := u } c := by
  refine ⟨?_, Finset.Subset.refl _⟩
  simp only [Cred.uids, mem_insert, mem_singleton, insert_subset_iff,
    singleton_subset_iff, true_or, or_true, true_and, and_true] at hu ⊢
  exact hu

lemma within_setEgid (c : Cred) {g : UInt32} (hg : g ∈ c.gids) : Cred.Within { c with egid := g } c := by
  refine ⟨Finset.Subset.refl _, ?_⟩
  simp only [Cred.gids, mem_insert, mem_singleton, insert_subset_iff,
    singleton_subset_iff, true_or, or_true, true_and, and_true] at hg ⊢
  exact hg

section

variable {c : Cred} (hroot : c.euid ≠ 0)
include hroot

lemma credSetuid_within (u : UInt32) : (credSetuid c u).2.Within c := by
  unfold credSetuid
  rw [if_neg hroot]
  split
  next hu => exact within_setEuid c (by simp only [Cred.uids, mem_insert, mem_singleton]; tauto)
  · exact .refl c

lemma credSeteuid_within (u : UInt32) : (credSeteuid c u).2.Within c := by
  unfold credSeteuid
  split
  next hu =>
    have hu := hu.resolve_left hroot
    exact within_setEuid c (by simpa only [Cred.uids, mem_insert, mem_singleton] using hu)
  · exact .refl c

lemma credSetgid_within (g : UInt32) : (credSetgid c g).2.Within c := by
  unfold credSetgid
  rw [if_neg hroot]
  split
  next hg => exact within_setEgid c (by simp only [Cred.gids, mem_insert, mem_singleton]; tauto)
  · exact .refl c

lemma credSetegid_within (g : UInt32) : (credSetegid c g).2.Within c := by
  unfold credSetegid
  split
  next hg =>
    have hg := hg.resolve_left hroot
    exact within_setEgid c (by simpa only [Cred.gids, mem_insert, mem_singleton] using hg)
  · exact .refl c

end

/-- Without the setuid bit a child has the ids of its parent, the saved ones being the
effective ones. -/
lemma spawnCred_within (parent : Cred) {file : Option FileStat} (h : ∀ f ∈ file, f.isSetuid = false) :
    (spawnCred parent file).Within parent := by
  have heq : spawnCred parent file = { parent with suid := parent.euid, sgid := parent.egid } := by
    cases file with
    | none => rfl
    | some f => simp [spawnCred, h f rfl]
  rw [heq]
  constructor
  · intro u hu
    simp only [Cred.uids, mem_insert, mem_singleton] at hu ⊢
    tauto
  intro g hg
  simp only [Cred.gids, mem_insert, mem_singleton] at hg ⊢
  tauto

lemma spawnProcess_within {parent d : Cred} {x : Exec} (h : ∀ f ∈ x.loaded, f.isSetuid = false)
    (hd : spawnProcess parent x = .ok d) : d.Within parent := by
  unfold spawnProcess at hd
  split at hd
  · cases hd
  split at hd
  · cases hd
  split at hd
  · cases hd
  · cases hd
    exact spawnCred_within parent h

/-- Every process of the tree stays within `c`. -/
def Confined (c : Cred) (t : CredTree) : Prop := ∀ p d, t p = some d → d.Within c

section

variable {c : Cred} {t : CredTree}

lemma Confined.update (h : Confined c t) {d : Cred} (hd : d.Within c) (p : ℕ) : Confined c (update t p (some d)) := by
  exact fun q e => update_cases q (fun he => Option.some.inj he ▸ hd) fun _ => h q e

lemma Confined.setIds (h : Confined c t) (hc : (0 : UInt32) ∉ c.uids) {rule : Cred → UInt32 → Bool × Cred}
    (hrule : ∀ {d : Cred}, d.euid ≠ 0 → ∀ id, (rule d id).2.Within d) (p : ℕ) (id : UInt64) :
    Confined c (t.setIds p rule id) := by
  unfold CredTree.setIds
  split
  · exact h
  next d hd =>
    have hwithin := h p d hd
    exact h.update ((hrule (hwithin.euid_ne_zero hc) _).trans hwithin) p

theorem Confined.step {call : CredCall} {t' : CredTree} (h : Confined c t) (hc : (0 : UInt32) ∉ c.uids)
    (hs : credStep t call t') : Confined c t' := by
  obtain ⟨hallowed, rfl⟩ := hs
  cases call with
  | setuid p uid => exact h.setIds hc credSetuid_within p uid
  | seteuid p uid => exact h.setIds hc credSeteuid_within p uid
  | setgid p gid => exact h.setIds hc credSetgid_within p gid
  | setegid p gid => exact h.setIds hc credSetegid_within p gid
  | spawn p child x =>
    simp only [CredTree.handle, sysSpawn]
    split
    · exact h
    next d hd =>
      split
      · exact h
      next e he => exact h.update ((spawnProcess_within hallowed.2 he).trans (h p d hd)) child
  | spawnAs p child x uid gid =>
    -- only root gets past the first check
    simp only [CredTree.handle, sysSpawnAs]
    split
    · exact h
    next d hd =>
      rw [if_pos ((h p d hd).euid_ne_zero hc)]
      exact h

end

/-- In every state that a process without the user id 0 and its descendants reach by these
calls, the ids of every process are ids of the first one; no effective user id is 0. -/
theorem ids_within_of_reachable {c : Cred} {root : ℕ} {t : CredTree} (huid : c.uid ≠ 0) (heuid : c.euid ≠ 0)
    (hsuid : c.suid ≠ 0) (hr : Reachable credStep (· = CredTree.single root c) t) :
    ∀ p d, t p = some d → d.uids ⊆ c.uids ∧ d.gids ⊆ c.gids ∧ d.euid ≠ 0 := by
  have hc : (0 : UInt32) ∉ c.uids := by
    simp only [Cred.uids, mem_insert, mem_singleton, not_or]
    exact ⟨huid.symm, heuid.symm, hsuid.symm⟩
  have hinv : Confined c t := by
    refine hr.invariant ?_ fun s call s' h hs => h.step hc hs
    rintro s rfl
    have hnone : Confined c fun _ => none := fun p d h => by cases h
    exact hnone.update (.refl c) root
  intro p d hd
  have hwithin := hinv p d hd
  exact ⟨hwithin.uids, hwithin.gids, hwithin.euid_ne_zero hc⟩

/-- A program of root that everybody may execute, without the setuid bit. -/
def plainProgram : Exec := ⟨true, some ⟨0o100755, 0, 0⟩, none, some ⟨0o100755, 0, 0⟩⟩

/-- The user 1000 starts a shell. -/
def shellTree : CredTree := (CredTree.single 1 (credInit 1000 1000)).handle (.spawn 1 2 plainProgram)

/-- The shell asks for the user id 0, in vain. -/
theorem ids_within_shell :
    shellTree 2 = some (credInit 1000 1000) ∧ ∀ d, shellTree.handle (.setuid 2 0) 2 = some d →
      d.uids ⊆ (credInit 1000 1000).uids ∧ d.gids ⊆ (credInit 1000 1000).gids ∧ d.euid ≠ 0 := by
  have hrun : Run credStep (CredTree.single 1 (credInit 1000 1000)) [.spawn 1 2 plainProgram, .setuid 2 0]
      (shellTree.handle (.setuid 2 0)) :=
    .cons ⟨⟨by decide, by decide⟩, rfl⟩ (.cons ⟨trivial, rfl⟩ (.nil _))
  exact ⟨by decide, ids_within_of_reachable (by decide) (by decide) (by decide) ⟨_, _, rfl, hrun⟩ 2⟩

end AetherOS.Security
