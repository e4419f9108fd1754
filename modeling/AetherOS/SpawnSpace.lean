import AetherOS.ByteMemory
import AetherOS.Credentials

/-!
# The address space a spawn runs in

`spawn_process` loads the program into a space of its own, switches to that space to
write the arguments onto the new stack, and switches back. The root it switches back
to is the kernel's, not the one that was loaded when it was called.
-/
namespace AetherOS.Spawn
open ByteMemory Security Function

/-- The root in `cr3`, the interrupt flag, the root that `vmm_init` recorded, and below
each root the user addresses that are mapped and their contents. -/
structure Machine where
  cr3 : ℕ
  interrupts : Bool
  activePml4Phys : ℕ
  mapped : ℕ → ℕ → Bool
  spaces : ℕ → Mem

/-- What `sched_tick` loads into `cr3` when it enters a thread. -/
def threadRoot (isUser : Bool) (cr3 activePml4Phys : ℕ) : ℕ :=
  if isUser ∧ cr3 ≠ 0 then cr3 else activePml4Phys

def vmmSpaceSwitch (m : Machine) (root : ℕ) : Machine := { m with cr3 := root }

def userTop : UInt64 := 0x800000000000

/-- One byte of the space that is loaded. -/
def copyByteFromUser (m : Machine) (a : UInt64) : Option UInt8 :=
  if a < userTop ∧ m.mapped m.cr3 a.toNat then some (m.spaces m.cr3 a.toNat) else none

/-- `strncpy_from_user`: the bytes before the terminator. -/
def strncpyFromUser (m : Machine) : ℕ → UInt64 → Option (List UInt8)
  | 0, _ => none
  | n + 1, a =>
    match copyByteFromUser m a with
    | none => none
    | some 0 => some []
    | some c => (strncpyFromUser m n (a + 1)).map (c :: ·)

def pointerFromUser (m : Machine) (a : UInt64) : Option UInt64 :=
  if a ≤ userTop - 8 ∧ (List.range 8).all fun i => m.mapped m.cr3 (a.toNat + i) then
    some (UInt64.ofNat (readLE (m.spaces m.cr3) 8 a.toNat))
  else none

def maxSpawnArgs : ℕ := 16
def maxArgLen : ℕ := 256

/-- The loop that copies the argument strings, for the next `n` arguments. -/
def readArgs (m : Machine) (argv : UInt64) : ℕ → List (List UInt8)
  | 0 => []
  | n + 1 =>
    match pointerFromUser m argv with
    | none => []
    | some p =>
      if p = 0 then []
      else
        match strncpyFromUser m maxArgLen p with
        | none => []
        | some arg => arg :: readArgs m (argv + 8) n

/-- Store into the space that is loaded. -/
def Machine.store (m : Machine) (n : ℕ) (a : UInt64) (f : ℕ → UInt8) : Machine :=
  { m with spaces := update m.spaces m.cr3 (blit (m.spaces m.cr3) n a.toNat f) }

def Machine.storeWord (m : Machine) (a v : UInt64) : Machine :=
  { m with spaces := update m.spaces m.cr3 (writeLE (m.spaces m.cr3) 8 a.toNat v.toNat) }

/-- The strings from the top downward, the last one first; also their addresses. -/
def packStrings (m : Machine) (sp : UInt64) : List (List UInt8) → List UInt64 × UInt64 × Machine
  | [] => ([], sp, m)
  | arg :: args =>
    let (ptrs, sp, m) := packStrings m sp args
    let len := arg.length + 1
    let sp := (sp - UInt64.ofNat len) &&& ~~~7
    (sp :: ptrs, sp, m.store len sp fun i => arg.getD i 0)

/-- The pointers below them, the last one first. -/
def pushPointers (m : Machine) (sp : UInt64) : List UInt64 → UInt64 × Machine
  | [] => (sp, m)
  | p :: ps =>
    let (sp, m) := pushPointers m sp ps
    (sp - 8, m.storeWord (sp - 8) p)

/-- The initial stack in the space that is loaded, and the stack pointer. -/
def writeStack (m : Machine) (sp : UInt64) (args : List (List UInt8)) : UInt64 × Machine :=
  let (ptrs, sp, m) := packStrings m sp args
  let sp := (sp &&& ~~~0xf) - 8
  let m := m.storeWord sp 0
  let (sp, m) := pushPointers m sp ptrs
  (sp - 8, m.storeWord (sp - 8) (UInt64.ofNat args.length))

/-- `elf_load_result_t` -/
structure LoadResult where
  entry : UInt64
  userSp : UInt64
  cr3 : ℕ

/-- What the rest of the kernel answers: the permissions and the size of the file,
whether there is a buffer for it and a descriptor, the program as `elf_load` loads it
and the record made for it. -/
structure Callees where
  stat : Option FileStat
  fileSize : UInt64
  buffer : Bool
  opened : Bool
  load : Option LoadResult
  record : LoadResult → Option ℕ

def eacces (cred : Option Cred) (c : Callees) : Bool :=
  match cred, c.stat with
  | some cred, some f => !credCheck cred f.uid f.gid f.mode 1
  | _, _ => false

def badSize (fsize : UInt64) : Prop :=
  fsize = 0xffffffffffffffff ∨ fsize = 0 ∨ fsize > 4 * 1024 * 1024

instance (fsize : UInt64) : Decidable (badSize fsize) := by
  unfold badSize
  infer_instance

/-- The part with the interrupts off: the stack is written in the space of the child. -/
def writeChildStack (m : Machine) (result : LoadResult) (args : List (List UInt8)) : UInt64 × Machine :=
  let m := { m with interrupts := false }
  let oldCr3 := m.activePml4Phys
  let m := vmmSpaceSwitch m result.cr3
  let (sp, m) := writeStack m result.userSp args
  let m := vmmSpaceSwitch m oldCr3
  (sp, { m with interrupts := true })

/-- `spawn_process` for a caller with the credentials `cred`: the error, or the record of
the child. -/
def spawnProcess (m : Machine) (cred : Option Cred) (path argv : UInt64) (c : Callees) :
    Except ℤ ℕ × Machine :=
  match strncpyFromUser m 512 path with
  | none => (throw (-14), m)
  | some _ =>
    if eacces cred c then (throw (-13), m)
    else if badSize c.fileSize then (throw (-2), m)
    else if !c.buffer then (throw (-12), m)
    else if !c.opened then (throw (-2), m)
    else
      match c.load with
      | none => (throw (-1), m)
      | some result =>
        let args := if argv ≠ 0 ∧ argv < userTop then readArgs m argv maxSpawnArgs else []
        let (sp, m) := writeChildStack m result args
        match c.record { result with userSp := sp } with
        | none => (throw (-1), m)
        | some proc => (pure proc, m)

/-- The program is loaded: the path is readable, the file may be executed, has an
accepted size, a buffer and a descriptor are there, and it is an image that loads. -/
structure Loads (m : Machine) (cred : Option Cred) (path : UInt64) (c : Callees) : Prop where
  path : strncpyFromUser m 512 path ≠ none
  permitted : eacces cred c = false
  size : ¬badSize c.fileSize
  buffer : c.buffer = true
  opened : c.opened = true
  load : c.load ≠ none

section

variable {m m' : Machine}

/-- Only the memory below `root` differs, and `root` is loaded in both. -/
structure WritesIn (root : ℕ) (m m' : Machine) : Prop where
  cr3 : m'.cr3 = m.cr3
  active : m'.activePml4Phys = m.activePml4Phys
  others : ∀ r, r ≠ root → m'.spaces r = m.spaces r

lemma WritesIn.refl (root : ℕ) (m : Machine) : WritesIn root m m := ⟨rfl, rfl, fun _ _ => rfl⟩

lemma WritesIn.trans {root : ℕ} {m'' : Machine} (h1 : WritesIn root m m') (h2 : WritesIn root m' m'') :
    WritesIn root m m'' where
  cr3 := h2.cr3.trans h1.cr3
  active := h2.active.trans h1.active
  others r hr := (h2.others r hr).trans (h1.others r hr)

lemma store_writesIn (m : Machine) (n : ℕ) (a : UInt64) (f : ℕ → UInt8) : WritesIn m.cr3 m (m.store n a f) :=
  ⟨rfl, rfl, fun _ hr => update_of_ne hr _ _⟩

lemma storeWord_writesIn (m : Machine) (a v : UInt64) : WritesIn m.cr3 m (m.storeWord a v) :=
  ⟨rfl, rfl, fun _ hr => update_of_ne hr _ _⟩

lemma WritesIn.store (h : WritesIn m.cr3 m m') (n : ℕ) (a : UInt64) (f : ℕ → UInt8) :
    WritesIn m.cr3 m (m'.store n a f) := by
  refine h.trans ?_
  rw [← h.cr3]
  exact store_writesIn m' n a f

lemma WritesIn.storeWord (h : WritesIn m.cr3 m m') (a v : UInt64) : WritesIn m.cr3 m (m'.storeWord a v) := by
  refine h.trans ?_
  rw [← h.cr3]
  exact storeWord_writesIn m' a v

lemma packStrings_writesIn (m : Machine) (sp : UInt64) (args : List (List UInt8)) :
    WritesIn m.cr3 m (packStrings m sp args).2.2 := by
  induction args with
  | nil => exact .refl _ _
  | cons arg args ih => exact ih.store _ _ _

lemma pushPointers_writesIn (h : WritesIn m.cr3 m m') (sp : UInt64) (ps : List UInt64) :
    WritesIn m.cr3 m (pushPointers m' sp ps).2 := by
  induction ps with
  | nil => exact h
  | cons p ps ih => exact ih.storeWord _ _

lemma writeStack_writesIn (m : Machine) (sp : UInt64) (args : List (List UInt8)) :
    WritesIn m.cr3 m (writeStack m sp args).2 := by
  have hpack := packStrings_writesIn m sp args
  have hpush := pushPointers_writesIn (hpack.storeWord (((packStrings m sp args).2.1 &&& ~~~0xf) - 8) 0)
    (((packStrings m sp args).2.1 &&& ~~~0xf) - 8) (packStrings m sp args).1
  exact hpush.storeWord _ _

/-- The stack is written below the root of the child alone, and the root recorded by
`vmm_init` is loaded at the end. -/
lemma writeChildStack_spec (m : Machine) (result : LoadResult) (args : List (List UInt8)) :
    (writeChildStack m result args).2.cr3 = m.activePml4Phys ∧
      (writeChildStack m result args).2.activePml4Phys = m.activePml4Phys ∧
      ∀ r, r ≠ result.cr3 → (writeChildStack m result args).2.spaces r = m.spaces r := by
  have hw := writeStack_writesIn (vmmSpaceSwitch { m with interrupts := false } result.cr3)
    result.userSp args
  exact ⟨rfl, hw.active, hw.others⟩

end

/-- A program that is not loaded leaves the machine as it was; for one that is loaded,
the kernel's root ends up in `cr3`. -/
lemma spawnProcess_cases (m : Machine) (cred : Option Cred) (path argv : UInt64) (c : Callees) :
    (¬Loads m cred path c ∧ (spawnProcess m cred path argv c).2 = m) ∨
      (Loads m cred path c ∧ ∃ result args, c.load = some result ∧
        (spawnProcess m cred path argv c).2 = (writeChildStack m result args).2) := by
  rw [spawnProcess]
  rcases hp : strncpyFromUser m 512 path with _ | name
  · exact .inl ⟨fun h => h.path hp, rfl⟩
  dsimp only
  by_cases hperm : eacces cred c = true
  · rw [if_pos hperm]
    exact .inl ⟨fun h => by simp [h.permitted] at hperm, rfl⟩
  rw [if_neg hperm]
  by_cases hsize : badSize c.fileSize
  · rw [if_pos hsize]
    exact .inl ⟨fun h => h.size hsize, rfl⟩
  rw [if_neg hsize]
  by_cases hbuf : (!c.buffer) = true
  · rw [if_pos hbuf]
    exact .inl ⟨fun h => by simp [h.buffer] at hbuf, rfl⟩
  rw [if_neg hbuf]
  by_cases hopen : (!c.opened) = true
  · rw [if_pos hopen]
    exact .inl ⟨fun h => by simp [h.opened] at hopen, rfl⟩
  rw [if_neg hopen]
  rcases hload : c.load with _ | result
  · exact .inl ⟨fun h => h.load hload, rfl⟩
  refine .inr ⟨⟨by simp [hp], by simpa using hperm, hsize, by simpa using hbuf, by simpa using hopen,
    by simp [hload]⟩, result, if argv ≠ 0 ∧ argv < userTop then readArgs m argv maxSpawnArgs else [], rfl, ?_⟩
  dsimp only
  split <;> rfl

/-- The root that is loaded when `spawn_process` returns is the one that was loaded
before exactly if the program was not loaded, or the caller runs on the kernel's root. -/
theorem spawnProcess_cr3_iff (m : Machine) (cred : Option Cred) (path argv : UInt64) (c : Callees) :
    (spawnProcess m cred path argv c).2.cr3 = m.cr3 ↔ ¬Loads m cred path c ∨ m.cr3 = m.activePml4Phys := by
  rcases spawnProcess_cases m cred path argv c with ⟨hno, hm⟩ | ⟨hyes, result, args, -, hm⟩
  · rw [hm]
    exact iff_of_true rfl (.inl hno)
  rw [hm, (writeChildStack_spec m result args).1]
  constructor
  · exact fun h => .inr h.symm
  · exact fun h => (h.resolve_left (not_not.mpr hyes)).symm

/-- A user thread on the root 0x5000, entered by the scheduler; the kernel's is 0x1000. The
page at 0x400000 starts with the path `/a`. -/
def callerMachine : Machine where
  cr3 := threadRoot true 0x5000 0x1000
  interrupts := true
  activePml4Phys := 0x1000
  mapped r a := r == 0x5000 && a / 4096 == 0x400
  spaces r a := if r = 0x5000 ∧ a = 0x400000 then 47 else if r = 0x5000 ∧ a = 0x400001 then 97 else 0

/-- A file of one page that everybody may execute, and that loads into the space 0x9000. -/
def onePageProgram : Callees where
  stat := some ⟨0o755, 0, 0⟩
  fileSize := 4096
  buffer := true
  opened := true
  load := some ⟨0x401000, 0x7ffffffffff0, 0x9000⟩
  record _ := some 7

/-- The caller ran on 0x5000 and returns on 0x1000. -/
theorem spawnProcess_switches_root : callerMachine.cr3 = 0x5000 ∧
    strncpyFromUser callerMachine 512 0x400000 = some [47, 97] ∧
    (spawnProcess callerMachine (some (credInit 1 1)) 0x400000 0 onePageProgram).1 = .ok 7 ∧
    (spawnProcess callerMachine (some (credInit 1 1)) 0x400000 0 onePageProgram).2.cr3 = 0x1000 := by
  refine ⟨rfl, by decide, ?_, ?_⟩
  · rfl
  · rfl

end AetherOS.Spawn
