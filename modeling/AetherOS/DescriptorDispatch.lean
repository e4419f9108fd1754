import AetherOS.DescriptorRuns

/-!
# Reading and writing through descriptors

`sys_read` and `sys_write` choose what they act on from the number of the descriptor and
from its entry in the table. The numbers 0, 1 and 2 are the console unless a pipe was put
there for a child; from 3 on files and sockets are known, pipes are not. The three
allocators hand out numbers from different places on. What the layers below answer is
arbitrary; the calls into them are recorded.
-/
namespace AetherOS.Proc
open Runs Function List Option

/-! ## The two calls -/

/-- What a read or a write acts on; files, sockets and pipes by their index. -/
inductive Target where
  | console
  | file (vfd : ℤ)
  | socket (idx : ℤ)
  | pipe (idx : ℤ)
  deriving DecidableEq, Repr

/-- A call into a layer below. -/
inductive Access where
  | write (t : Target) (bytes : List UInt8)
  | read (t : Target) (n : ℕ)
  deriving DecidableEq, Repr

def Access.target : Access → Target
  | .write t _ => t
  | .read t _ => t

/-- Whether the buffer is in user space, what the layers below return to the `n`-th call into
them, and whether the chunk after the first `n` bytes can be copied. -/
structure Env where
  rangeOk : Bool
  answer : ℕ → ℤ
  copied : ℕ → Bool

/-- The cast `(int)fd`. -/
def cInt (fd : UInt64) : ℤ := (fd.toBitVec.setWidth 32).toInt

/-- The size of the bounce buffer. -/
def kbufSize : ℕ := 512

/-- The sink that `sys_write` resolves, `none` for the result -9. -/
def writeSink (fds : Option FdTable) (fd : UInt64) : Option Target :=
  if fd = 1 ∨ fd = 2 then
    match fds with
    | some t => if fd = 1 ∧ fdType t 1 = .pipeWrite then some (.pipe (fdId t 1)) else some .console
    | none => some .console
  else
    match fds with
    | none => none
    | some t =>
      if fdType t (cInt fd) = .socket then some (.socket (fdId t (cInt fd)))
      else if fdToVfs t (cInt fd) < 0 then none
      else some (.file (fdToVfs t (cInt fd)))

/-- How the transfer of a chunk ends: the loop goes on, the call returns, or it still waits. -/
inductive Outcome where
  | next
  | ret (r : ℤ)
  | waiting

/-- Write a chunk to a pipe, `w` bytes of it being written. -/
def pipeChunk (env : Env) (idx : ℤ) (done : ℕ) : ℕ → ℕ → List UInt8 → List Access → Outcome × List Access
  | 0, _, _, log => (.waiting, log)
  | fuel + 1, w, rest, log =>
    if rest.length = 0 then (.next, log)
    else
      let n := env.answer log.length
      let log := log ++ [.write (.pipe idx) rest]
      if n < 0 then (.ret (if done + w ≠ 0 then done + w else 0), log)
      else pipeChunk env idx done fuel (w + n.toNat) (rest.drop n.toNat) log

def writeChunk (env : Env) (fuel done : ℕ) (chunk : List UInt8) (log : List Access) :
    Target → Outcome × List Access
  | .console => (.next, log ++ [.write .console chunk])
  | .pipe idx => pipeChunk env idx done fuel 0 chunk log
  | .socket idx =>
    let n := env.answer log.length
    let log := log ++ [.write (.socket idx) chunk]
    if n < 0 then (.ret (if done ≠ 0 then done else -1), log) else (.next, log)
  | .file vfd =>
    let n := env.answer log.length
    let log := log ++ [.write (.file vfd) chunk]
    if n < 0 then (.ret (if done ≠ 0 then done else n), log) else (.next, log)

def writeLoop (env : Env) (t : Target) : ℕ → ℕ → List UInt8 → List Access → Option ℤ × List Access
  | 0, _, _, log => (none, log)
  | fuel + 1, done, data, log =>
    if data.length = 0 then (some done, log)
    else if !env.copied done then (some (if done ≠ 0 then done else -14), log)
    else
      match writeChunk env (fuel + 1) done (data.take kbufSize) log t with
      | (.next, log) => writeLoop env t fuel (done + (data.take kbufSize).length) (data.drop kbufSize) log
      | (.ret r, log) => (some r, log)
      | (.waiting, log) => (none, log)

/-- `sys_write`; the result is `none` while the call waits, or when the fuel does not suffice. -/
def sysWrite (env : Env) (fuel : ℕ) (fds : Option FdTable) (fd : UInt64) (data : List UInt8) :
    Option ℤ × List Access :=
  if !env.rangeOk then (some (-14), [])
  else
    match writeSink fds fd with
    | none => (some (-9), [])
    | some t => writeLoop env t fuel 0 data []

/-- What `sys_read` reads from, `none` for the result -9. -/
def readSource (fds : Option FdTable) (fd : UInt64) : Option Target :=
  if fd = 0 then
    match fds with
    | some t => if fdType t 0 = .pipeRead then some (.pipe (fdId t 0)) else some .console
    | none => some .console
  else
    match fds with
    | none => none
    | some t =>
      if fdType t (cInt fd) = .socket then some (.socket (fdId t (cInt fd)))
      else if fdToVfs t (cInt fd) < 0 then none
      else some (.file (fdToVfs t (cInt fd)))

/-- Repeat a read while it answers `again`. -/
def retry (env : Env) (again : ℤ) (a : Access) : ℕ → List Access → Option ℤ × List Access
  | 0, log => (none, log)
  | fuel + 1, log =>
    let n := env.answer log.length
    if n = again then retry env again a fuel (log ++ [a]) else (some n, log ++ [a])

/-- The loop that reads a file, `done` bytes being read. -/
def fileLoop (env : Env) (vfd : ℤ) : ℕ → ℕ → ℕ → List Access → Option ℤ × List Access
  | 0, _, _, log => (none, log)
  | fuel + 1, done, count, log =>
    if count = 0 then (some done, log)
    else
      let chunk := min kbufSize count
      let n := env.answer log.length
      let log := log ++ [.read (.file vfd) chunk]
      if n ≤ 0 then (some done, log)
      else if !env.copied done then (some (if done ≠ 0 then done else -14), log)
      else if n < chunk then (some (done + n), log)
      else fileLoop env vfd fuel (done + n.toNat) (count - n.toNat) log

/-- What is left to do with the answer to a read: return it, or copy the bytes. -/
def deliver (env : Env) (n : ℤ) : ℤ := if n ≤ 0 then n else if !env.copied 0 then -14 else n

def readTarget (env : Env) (fuel count : ℕ) : Target → Option ℤ × List Access
  | .console => (some (deliver env (env.answer 0)), [.read .console (min kbufSize count)])
  | .pipe idx =>
    let r := retry env (-2) (.read (.pipe idx) (min kbufSize count)) fuel []
    (r.1.map fun n => if n < 0 then -1 else deliver env n, r.2)
  | .socket idx =>
    let r := retry env 0 (.read (.socket idx) (min kbufSize count)) fuel []
    (r.1.map fun n => if n < 0 then 0 else deliver env n, r.2)
  | .file vfd => fileLoop env vfd fuel 0 count []

/-- `sys_read`; the result is `none` while the call waits, or when the fuel does not suffice. -/
def sysRead (env : Env) (fuel : ℕ) (fds : Option FdTable) (fd : UInt64) (count : ℕ) :
    Option ℤ × List Access :=
  if !env.rangeOk then (some (-14), [])
  else if count = 0 then (some 0, [])
  else
    match readSource fds fd with
    | none => (some (-9), [])
    | some t => readTarget env fuel count t

/-! ## What the calls act on -/

/-- All accesses are to the target, and there is one if the request asks for something;
without a target there is none. -/
def ActsOn (log : List Access) (request : Prop) : Option Target → Prop
  | none => log = []
  | some t => (∀ a ∈ log, a.target = t) ∧ (request → log ≠ [])

/-- A log that grew by accesses to the target. -/
def Grows (t : Target) (log log' : List Access) : Prop :=
  ∃ new, log' = log ++ new ∧ ∀ a ∈ new, a.target = t

section

variable {t : Target} {log log' log'' : List Access} {env : Env} {data : List UInt8} {a : Access}

lemma Grows.refl (t : Target) (log : List Access) : Grows t log log := ⟨[], by simp⟩

lemma Grows.trans (h : Grows t log log') (h' : Grows t log' log'') : Grows t log log'' := by
  obtain ⟨new, rfl, hnew⟩ := h
  obtain ⟨new', rfl, hnew'⟩ := h'
  refine ⟨new ++ new', append_assoc _ _ _, fun a ha => ?_⟩
  exact (mem_append.mp ha).elim (hnew a) (hnew' a)

lemma Grows.push (ha : a.target = t) : Grows t log (log ++ [a]) :=
  ⟨[a], rfl, fun b hb => by rw [mem_singleton.mp hb, ha]⟩

lemma Grows.length_le (h : Grows t log log') : log.length ≤ log'.length := by
  obtain ⟨new, rfl, -⟩ := h
  simp

/-- A log that has grown, by one access at least. -/
def GrowsBy (t : Target) (log log' : List Access) : Prop := Grows t log log' ∧ log.length < log'.length

lemma GrowsBy.trans (h : GrowsBy t log log') (h' : Grows t log' log'') : GrowsBy t log log'' :=
  ⟨h.1.trans h', Nat.lt_of_lt_of_le h.2 h'.length_le⟩

lemma GrowsBy.push (ha : a.target = t) : GrowsBy t log (log ++ [a]) :=
  ⟨.push ha, by simp⟩

lemma GrowsBy.actsOn (h : GrowsBy t [] log) (request : Prop) : ActsOn log request (some t) := by
  obtain ⟨⟨new, rfl, hnew⟩, hlt⟩ := h
  exact ⟨hnew, fun _ => ne_nil_of_length_pos hlt⟩

lemma pipeChunk_grows (idx : ℤ) (done fuel w : ℕ) (rest : List UInt8) (log : List Access) :
    Grows (.pipe idx) log (pipeChunk env idx done fuel w rest log).2 := by
  induction fuel generalizing w rest log with
  | zero => exact .refl _ log
  | succ fuel ih =>
    rw [pipeChunk]
    split
    · exact .refl _ log
    simp only
    split
    · exact .push rfl
    · exact Grows.trans (.push rfl) (ih _ _ _)

lemma writeChunk_grows (env : Env) (fuel done : ℕ) {chunk : List UInt8} (hchunk : chunk.length ≠ 0) (log : List Access)
    (t : Target) : GrowsBy t log (writeChunk env (fuel + 1) done chunk log t).2 := by
  cases t with
  | console => exact .push rfl
  | pipe idx =>
    rw [writeChunk, pipeChunk, if_neg hchunk]
    simp only
    split
    · exact .push rfl
    · exact GrowsBy.trans (.push rfl) (pipeChunk_grows _ _ _ _ _ _)
  | socket idx | file vfd =>
    simp only [writeChunk]
    split <;> exact .push rfl

lemma length_take_kbufSize (h : data.length ≠ 0) : (data.take kbufSize).length ≠ 0 := by
  rw [length_take, kbufSize]
  omega

lemma writeLoop_round {fuel done : ℕ} (hdata : data.length ≠ 0) (hcopied : env.copied done = true)
    (hrest : ∀ done data log, Grows t log (writeLoop env t fuel done data log).2) :
    GrowsBy t log (writeLoop env t (fuel + 1) done data log).2 := by
  have hchunk := writeChunk_grows env fuel done (length_take_kbufSize hdata) log t
  rw [writeLoop, if_neg hdata, hcopied]
  simp only [Bool.not_true, Bool.false_eq_true, if_false]
  split
  next heq =>
    rw [heq] at hchunk
    exact hchunk.trans (hrest _ _ _)
  next heq =>
    rw [heq] at hchunk
    exact hchunk
  next heq =>
    rw [heq] at hchunk
    exact hchunk

lemma writeLoop_grows (env : Env) (t : Target) (fuel done : ℕ) (data : List UInt8) (log : List Access) :
    Grows t log (writeLoop env t fuel done data log).2 := by
  induction fuel generalizing done data log with
  | zero => exact .refl t log
  | succ fuel ih =>
    by_cases hdata : data.length = 0
    · rw [writeLoop, if_pos hdata]
      exact .refl t log
    cases hcopied : env.copied done with
    | false =>
      rw [writeLoop, if_neg hdata, hcopied]
      exact .refl t log
    | true => exact (writeLoop_round hdata hcopied ih).1

/-- `sys_write` acts on the sink it resolved. -/
theorem sysWrite_actsOn (env : Env) (fuel : ℕ) (fds : Option FdTable) (fd : UInt64) (data : List UInt8) :
    ActsOn (sysWrite env (fuel + 1) fds fd data).2
      (env.rangeOk = true ∧ env.copied 0 = true ∧ data ≠ []) (writeSink fds fd) := by
  unfold sysWrite
  cases hsink : writeSink fds fd with
  | none =>
    simp only [ActsOn]
    split <;> rfl
  | some t =>
    cases hrange : env.rangeOk with
    | false => simp [ActsOn]
    | true =>
      simp only [Bool.not_true, Bool.false_eq_true, if_false, true_and]
      obtain ⟨new, hnew, htarget⟩ := writeLoop_grows env t (fuel + 1) 0 data []
      rw [nil_append] at hnew
      refine ⟨fun a ha => htarget a (hnew ▸ ha), fun hreq => ?_⟩
      have hlen : data.length ≠ 0 := mt length_eq_zero_iff.mp hreq.2
      have hround : GrowsBy t [] _ := writeLoop_round hlen hreq.1 (writeLoop_grows env t fuel)
      exact ne_nil_of_length_pos hround.2

lemma retry_grows (again : ℤ) (ha : a.target = t) (fuel : ℕ) (log : List Access) :
    Grows t log (retry env again a fuel log).2 := by
  induction fuel generalizing log with
  | zero => exact .refl t log
  | succ fuel ih =>
    rw [retry]
    split
    · exact Grows.trans (.push ha) (ih _)
    · exact .push ha

lemma retry_growsBy (again : ℤ) (ha : a.target = t) (fuel : ℕ) (log : List Access) :
    GrowsBy t log (retry env again a (fuel + 1) log).2 := by
  rw [retry]
  split
  · exact GrowsBy.trans (.push ha) (retry_grows again ha fuel _)
  · exact .push ha

lemma fileLoop_grows (vfd : ℤ) (fuel done count : ℕ) (log : List Access) :
    Grows (.file vfd) log (fileLoop env vfd fuel done count log).2 := by
  induction fuel generalizing done count log with
  | zero => exact .refl _ log
  | succ fuel ih =>
    rw [fileLoop]
    split
    · exact .refl _ log
    simp only
    split
    · exact .push rfl
    split
    · exact .push rfl
    split
    · exact .push rfl
    · exact Grows.trans (.push rfl) (ih _ _ _)

lemma readTarget_grows (fuel : ℕ) {count : ℕ} (hcount : count ≠ 0) (t : Target) :
    GrowsBy t [] (readTarget env (fuel + 1) count t).2 := by
  cases t with
  | console => exact .push rfl
  | pipe idx | socket idx => exact retry_growsBy _ rfl _ _
  | file vfd =>
    rw [readTarget, fileLoop, if_neg hcount]
    simp only
    split
    · exact .push rfl
    split
    · exact .push rfl
    split
    · exact .push rfl
    · exact GrowsBy.trans (.push rfl) (fileLoop_grows _ _ _ _ _)

/-- `sys_read` acts on the source it chose. -/
theorem sysRead_actsOn (env : Env) (fuel : ℕ) (fds : Option FdTable) (fd : UInt64) (count : ℕ) :
    ActsOn (sysRead env (fuel + 1) fds fd count).2 (env.rangeOk = true ∧ count ≠ 0) (readSource fds fd) := by
  unfold sysRead
  cases hsource : readSource fds fd with
  | none =>
    simp only [ActsOn]
    split
    · rfl
    · split <;> rfl
  | some t =>
    cases hrange : env.rangeOk with
    | false => simp [ActsOn]
    | true =>
      by_cases hcount : count = 0
      · simp [ActsOn, hcount]
      · simp only [Bool.not_true, Bool.false_eq_true, if_false, hcount]
        exact (readTarget_grows fuel hcount t).actsOn _

lemma ActsOn.unique {o o' : Option Target} {request request' : Prop} (h : ActsOn log request o)
    (h' : ActsOn log request' o') (hr : request) (hr' : request') : o = o' := by
  cases o with
  | none =>
    cases o' with
    | none => rfl
    | some t' => exact absurd h (h'.2 hr')
  | some t =>
    cases o' with
    | none => exact absurd h' (h.2 hr)
    | some t' =>
      obtain ⟨a, ha⟩ := exists_mem_of_ne_nil _ (h.2 hr)
      rw [← h.1 a ha, ← h'.1 a ha]

end

/-! ## Objects of descriptors -/

/-- What a descriptor is allocated for. -/
inductive Obj where
  | file (vfd : Fin vfsMaxOpen)
  | socket (idx : Fin maxSockets)
  | pipeRead (idx : Fin maxPipes)
  | pipeWrite (idx : Fin maxPipes)
  deriving DecidableEq, Repr

/-- The entry that the allocators make for an object. -/
def Obj.entry : Obj → FdEntry
  | .file vfd => ⟨true, .file, vfd.val⟩
  | .socket idx => ⟨true, .socket, idx.val⟩
  | .pipeRead idx => ⟨true, .pipeRead, idx.val⟩
  | .pipeWrite idx => ⟨true, .pipeWrite, idx.val⟩

/-- What a read through the descriptor has to act on; the write end of a pipe cannot be read. -/
def Obj.source : Obj → Option Target
  | .file vfd => some (.file vfd.val)
  | .socket idx => some (.socket idx.val)
  | .pipeRead idx => some (.pipe idx.val)
  | .pipeWrite _ => none

/-- What a write through the descriptor has to act on; the read end of a pipe cannot be
written. -/
def Obj.sink : Obj → Option Target
  | .file vfd => some (.file vfd.val)
  | .socket idx => some (.socket idx.val)
  | .pipeRead _ => none
  | .pipeWrite idx => some (.pipe idx.val)

def Obj.isFile : Obj → Bool
  | .file _ => true
  | _ => false

def Obj.isSocket : Obj → Bool
  | .socket _ => true
  | _ => false

/-- The number of a descriptor as an argument of a system call. -/
def fdArg (fd : Fin maxFds) : UInt64 := UInt64.ofNat fd.val

/-- Reads and writes through the descriptor act on exactly the object. -/
structure Faithful (t : FdTable) (fd : Fin maxFds) (o : Obj) : Prop where
  read : ∀ env fuel count, ActsOn (sysRead env (fuel + 1) (some t) (fdArg fd) count).2
    (env.rangeOk = true ∧ count ≠ 0) o.source
  write : ∀ env fuel data, ActsOn (sysWrite env (fuel + 1) (some t) (fdArg fd) data).2
    (env.rangeOk = true ∧ env.copied 0 = true ∧ data ≠ []) o.sink

section

variable {t : FdTable} {fd : Fin maxFds} {o : Obj}

/-- Buffers that can be copied, and layers below that have nothing to do. -/
def calmEnv : Env := ⟨true, fun _ => 0, fun _ => true⟩

lemma faithful_iff_routes :
    Faithful t fd o ↔ readSource (some t) (fdArg fd) = o.source ∧ writeSink (some t) (fdArg fd) = o.sink := by
  constructor
  · intro h
    exact ⟨(sysRead_actsOn calmEnv 0 _ _ 1).unique (h.read calmEnv 0 1) ⟨rfl, by decide⟩ ⟨rfl, by decide⟩,
      (sysWrite_actsOn calmEnv 0 _ _ [0]).unique (h.write calmEnv 0 [0]) ⟨rfl, rfl, by decide⟩
        ⟨rfl, rfl, by decide⟩⟩
  rintro ⟨hread, hwrite⟩
  exact ⟨fun env fuel count => hread ▸ sysRead_actsOn env fuel _ _ count,
    fun env fuel data => hwrite ▸ sysWrite_actsOn env fuel _ _ data⟩

lemma cInt_fdArg : ∀ fd : Fin maxFds, cInt (fdArg fd) = fd.val := by decide

lemma fdArg_eq_zero : ∀ fd : Fin maxFds, fdArg fd = 0 ↔ fd.val = 0 := by decide

lemma fdArg_eq_out : ∀ fd : Fin maxFds, fdArg fd = 1 ∨ fdArg fd = 2 ↔ fd.val = 1 ∨ fd.val = 2 := by decide

section

variable (h : t fd = o.entry)
include h

lemma fdEntry_obj : fdEntry t fd.val = some o.entry := by
  have hopen : o.entry.isOpen = true := by cases o <;> rfl
  rw [fdEntry, fdSlot_val, bind_some, h, if_pos hopen]

lemma fdType_obj : fdType t fd.val = o.entry.type := by
  rw [fdType, fdEntry_obj h]
  rfl

lemma fdId_obj : fdId t fd.val = o.entry.id := by
  rw [fdId, fdEntry_obj h]
  rfl

/-- From 3 on the entry decides, in the same way for both calls: pipes are refused. -/
lemma routes_from_three (h3 : 3 ≤ fd.val) :
    readSource (some t) (fdArg fd) = (if o.isFile ∨ o.isSocket then o.source else none) ∧
      writeSink (some t) (fdArg fd) = (if o.isFile ∨ o.isSocket then o.sink else none) := by
  have h0 : ¬fdArg fd = 0 := by
    rw [fdArg_eq_zero]
    omega
  have h12 : ¬(fdArg fd = 1 ∨ fdArg fd = 2) := by
    rw [fdArg_eq_out]
    omega
  rw [readSource, if_neg h0, writeSink, if_neg h12]
  simp only [cInt_fdArg, fdToVfs, fdType_obj h, fdId_obj h]
  cases o <;> simp [Obj.entry, Obj.source, Obj.sink, Obj.isFile, Obj.isSocket]

end

lemma socket_below_three {idx : Fin maxSockets} (h : t fd = Obj.entry (.socket idx)) (h3 : fd.val < 3) :
    readSource (some t) (fdArg fd) = some .console ∨ writeSink (some t) (fdArg fd) = some .console := by
  have htype : fdType t fd.val = .socket := fdType_obj h
  by_cases h0 : fd.val = 0
  · left
    have htype0 : fdType t 0 ≠ .pipeRead := by
      have hfd : (fd.val : ℤ) = 0 := by omega
      rw [← hfd, htype]
      decide
    rw [readSource, if_pos ((fdArg_eq_zero fd).mpr h0)]
    exact if_neg htype0
  right
  rw [writeSink, if_pos ((fdArg_eq_out fd).mpr (by omega))]
  apply if_neg
  rintro ⟨h1, hpipe⟩
  have hfd : (fd.val : ℤ) = 1 := by
    have harg : ∀ fd : Fin maxFds, fdArg fd = 1 → (fd.val : ℤ) = 1 := by decide
    exact harg fd h1
  rw [← hfd, htype] at hpipe
  cases hpipe

/-- Files, and sockets from 3 on, are what the calls route right. -/
theorem faithful_iff (h : t fd = o.entry) (h3 : o.isSocket = false → 3 ≤ fd.val) :
    Faithful t fd o ↔ o.isFile = true ∨ o.isSocket = true ∧ 3 ≤ fd.val := by
  rw [faithful_iff_routes]
  by_cases hfd : 3 ≤ fd.val
  · obtain ⟨hread, hwrite⟩ := routes_from_three h hfd
    rw [hread, hwrite]
    cases o <;> simp [Obj.source, Obj.sink, Obj.isFile, Obj.isSocket, hfd]
  cases o with
  | socket idx =>
    refine iff_of_false ?_ ?_
    · rintro ⟨hread, hwrite⟩
      rcases socket_below_three h (by omega) with hc | hc
      · rw [hc] at hread
        cases hread
      · rw [hc] at hwrite
        cases hwrite
    · rintro (hf | ⟨-, hs⟩)
      · cases hf
      · exact hfd hs
  | _ => exact absurd (h3 rfl) hfd

end

/-! ## Descriptors that were handed out -/

/-- The descriptors a call returns to its process, and what they were allocated for. -/
def granted (w : World) : Call → List ((ℕ × Fin maxFds) × Obj)
  | .openFile p found =>
    match found with
    | none => []
    | some (inode, offset) =>
      match vfsOpenSlot w.files inode offset with
      | (none, _) => []
      | (some vfd, _) =>
        match fdAlloc (w.fds p) vfd.val with
        | (none, _) => []
        | (some fd, _) => [((p, fd), .file vfd)]
  | .socket p =>
    match sockAlloc w.socks with
    | (none, _) => []
    | (some idx, _) =>
      match fdAllocSocket (w.fds p) idx.val with
      | (none, _) => []
      | (some fd, _) => [((p, fd), .socket idx)]
  | .pipe p copied =>
    match allocPipe w.sys.pipes with
    | (none, _) => []
    | (some idx, _) =>
      match fdAllocPipe (w.fds p) idx.val .pipeRead with
      | (none, _) => []
      | (some rfd, t) =>
        match fdAllocPipe t idx.val .pipeWrite with
        | (none, _) => []
        | (some wfd, _) => if copied then [((p, rfd), .pipeRead idx), ((p, wfd), .pipeWrite idx)] else []
  | _ => []

/-- The descriptors a call takes away: closed, of a process that ends, or of the record that
a child gets. -/
def dropped (w : World) : Call → ℕ → Fin maxFds → Bool
  | .close p fd, q, k => decide (q = p ∧ fdSlot fd = some k)
  | .exit _ p _, q, _ => decide (q = p)
  | .kill p, q, _ => decide (q = p) && decide (p ≠ 0) && !(w.sys.procs p).exited
  | .spawn _ child _ _ _, q, _ => decide (q = child)
  | _, _, _ => false

/-- The system, and for each descriptor that a process was given and did not lose again,
what it was allocated for. -/
structure Handing where
  world : World
  handed : ℕ → Fin maxFds → Option Obj

/-- The objects after a call. -/
def Handing.after (s : Handing) (c : Call) (q : ℕ) (k : Fin maxFds) : Option Obj :=
  match (granted s.world c).lookup (q, k) with
  | some o => some o
  | none => if dropped s.world c q k then none else s.handed q k

def handingStep (fuel : ℕ) (s : Handing) (c : Call) (s' : Handing) : Prop :=
  callStep fuel s.world c s'.world ∧ s'.handed = s.after c

def HandingStart (s : Handing) : Prop := WorldStart s.world ∧ ∀ p k, s.handed p k = none

section

variable {w w' : World} {p q : ℕ} {k : Fin maxFds} {o : Obj} {c : Call} {fuel : ℕ} {t : FdTable}

/-- Entries that are open stay as they are. -/
def KeepsOpen (t t' : FdTable) : Prop := ∀ k, (t k).isOpen = true → t' k = t k

lemma KeepsOpen.update (h : (t k).isOpen = false) (e : FdEntry) : KeepsOpen t (update t k e) := by
  intro j hj
  apply update_of_ne
  intro hjk
  rw [hjk, h] at hj
  cases hj

lemma KeepsOpen.trans {t' t'' : FdTable} (h : KeepsOpen t t') (h' : KeepsOpen t' t'') : KeepsOpen t t'' := by
  intro j hj
  have hj' : (t' j).isOpen = true := by rw [h j hj, hj]
  rw [h' j hj', h j hj]

/-- The call changed entries of `p` only, none of them open, and wrote what it gave out. -/
structure Allocates (w w' : World) (p : ℕ) (given : List ((ℕ × Fin maxFds) × Obj)) : Prop where
  others : ∀ q, q ≠ p → w'.fds q = w.fds q
  keeps : KeepsOpen (w.fds p) (w'.fds p)
  entries : ∀ x ∈ given, x.1.1 = p ∧ w'.fds p x.1.2 = x.2.entry ∧ (x.2.isSocket = false → 3 ≤ x.1.2.val)

lemma Allocates.of_fds {given : List ((ℕ × Fin maxFds) × Obj)}
    (hfds : w'.fds = update w.fds p t) (hkeeps : KeepsOpen (w.fds p) t)
    (hgiven : ∀ x ∈ given, x.1.1 = p ∧ t x.1.2 = x.2.entry ∧ (x.2.isSocket = false → 3 ≤ x.1.2.val)) :
    Allocates w w' p given := by
  have hself : w'.fds p = t := by rw [hfds, update_self]
  constructor
  · intro q hq
    rw [hfds, update_of_ne hq]
  · rw [hself]
    exact hkeeps
  · rw [hself]
    exact hgiven

lemma Allocates.of_same (hfds : w'.fds = w.fds) : Allocates w w' p [] :=
  .of_fds (hfds.trans (update_eq_self p w.fds).symm) (fun _ _ => rfl) (by simp)

lemma sysOpen_allocates (w : World) (p : ℕ) (found : Option (ℕ × ℕ)) :
    Allocates w (sysOpen w p found).2 p (granted w (.openFile p found)) ∧
      ∀ x ∈ granted w (.openFile p found), (sysOpen w p found).1 = x.1.2.val := by
  cases found with
  | none => exact ⟨.of_same rfl, by simp [granted]⟩
  | some f =>
    simp only [sysOpen, granted]
    rcases hslot : vfsOpenSlot w.files f.1 f.2 with ⟨_ | vfd, files⟩
    · simp only
      exact ⟨.of_same rfl, by simp⟩
    simp only
    rcases halloc : fdAlloc (w.fds p) vfd.val with ⟨_ | fd, t⟩
    · simp only
      exact ⟨.of_same rfl, by simp⟩
    simp only
    obtain ⟨h3, hfree, rfl⟩ := fdAllocFrom_spec halloc
    refine ⟨.of_fds (setFds_fds _ p _) (.update hfree _) ?_, by simp⟩
    intro x hx
    obtain rfl := mem_singleton.mp hx
    exact ⟨rfl, update_self .., fun _ => h3⟩

lemma sysSocket_allocates (w : World) (p : ℕ) :
    Allocates w (sysSocket w p).2 p (granted w (.socket p)) ∧
      ∀ x ∈ granted w (.socket p), (sysSocket w p).1 = x.1.2.val := by
  simp only [sysSocket, granted]
  rcases hslot : sockAlloc w.socks with ⟨_ | idx, socks⟩
  · simp only
    exact ⟨.of_same rfl, by simp⟩
  simp only
  rcases halloc : fdAllocSocket (w.fds p) idx.val with ⟨_ | fd, t⟩
  · simp only
    exact ⟨.of_same rfl, by simp⟩
  simp only
  obtain ⟨hfree, rfl⟩ := fdAllocFrom_eq halloc
  refine ⟨.of_fds (setFds_fds _ p _) (.update hfree _) ?_, by simp⟩
  intro x hx
  obtain rfl := mem_singleton.mp hx
  exact ⟨rfl, update_self .., fun h => Bool.noConfusion h⟩

/-- A pipe whose descriptors were given back leaves no trace in entries that were open. -/
lemma sysPipe_allocates (w : World) (p : ℕ) (copied : Bool) :
    Allocates w (sysPipe w p copied).2 p (granted w (.pipe p copied)) ∧
      ∀ x ∈ granted w (.pipe p copied), (sysPipe w p copied).1 = 0 := by
  simp only [sysPipe, granted]
  rcases hslot : allocPipe w.sys.pipes with ⟨_ | idx, pipes⟩
  · simp only
    exact ⟨.of_same rfl, by simp⟩
  simp only
  rcases hread : fdAllocPipe (w.fds p) idx.val .pipeRead with ⟨_ | rfd, t⟩
  · simp only
    exact ⟨.of_same rfl, by simp⟩
  obtain ⟨hr3, hrfree, rfl⟩ := fdAllocFrom_spec hread
  have hrkeeps := KeepsOpen.update hrfree ⟨true, .pipeRead, idx.val⟩
  simp only
  rcases hwrite : fdAllocPipe (update (w.fds p) rfd ⟨true, .pipeRead, idx.val⟩) idx.val .pipeWrite
    with ⟨_ | wfd, t⟩
  · simp only [fdFree_val, update_idem]
    exact ⟨.of_fds (setFds_fds _ p _) (.update hrfree _) (by simp), by simp⟩
  obtain ⟨hw3, hwfree, rfl⟩ := fdAllocFrom_spec hwrite
  have hne : wfd ≠ rfd := by
    rintro rfl
    rw [update_self] at hwfree
    cases hwfree
  cases copied with
  | true =>
    refine ⟨.of_fds (setFds_fds _ p _) (hrkeeps.trans (.update hwfree _)) ?_, by simp⟩
    intro x hx
    rcases mem_cons.mp hx with rfl | hx
    · refine ⟨rfl, ?_, fun _ => hr3⟩
      rw [update_of_ne hne.symm, update_self]
      rfl
    · obtain rfl := mem_singleton.mp hx
      exact ⟨rfl, update_self .., fun _ => hw3⟩
  | false =>
    simp only [fdFree_val]
    refine ⟨.of_fds (setFds_fds _ p _) ?_ (by simp), by simp⟩
    intro j hj
    have hjr : j ≠ rfd := by
      rintro rfl
      rw [hrfree] at hj
      cases hj
    have hjw : j ≠ wfd := by
      rintro rfl
      rw [update_of_ne hne, hj] at hwfree
      cases hwfree
    rw [update_of_ne hjw, update_of_ne hjr, update_of_ne hjw, update_of_ne hjr]

lemma sysClose_fds (w : World) (p : ℕ) (fd : ℤ) (h : ¬(q = p ∧ fdSlot fd = some k)) :
    (sysClose w p fd).2.fds q k = w.fds q k := by
  have hfree : ∀ w' : World, w'.fds = w.fds → (w'.setFds p (fdFree (w.fds p) fd)).fds q k = w.fds q k := by
    intro w' hw'
    rw [setFds_fds, hw']
    by_cases hq : q = p
    · subst hq
      rw [update_self, fdFree]
      cases hi : fdSlot fd with
      | none => rfl
      | some i =>
        have hik : k ≠ i := fun hki => h ⟨rfl, hki ▸ hi⟩
        simp only [update_of_ne hik]
    · rw [update_of_ne hq]
  have hsock : (sockClose w (fdId (w.fds p) fd)).fds = w.fds := by
    funext r
    rw [World.fds, sockClose_sys, World.fds]
  unfold sysClose
  cases fdType (w.fds p) fd with
  | socket => exact hfree _ hsock
  | pipeRead | pipeWrite => exact hfree _ rfl
  | _ =>
    simp only
    split
    · rfl
    · exact hfree _ rfl

lemma callStep_fds (h : callStep fuel w c w') (hopen : (w.fds q k).isOpen = true)
    (hdrop : dropped w c q k = false) : w'.fds q k = w.fds q k := by
  have halloc : ∀ {p given}, Allocates w w' p given → w'.fds q k = w.fds q k := by
    intro p given ha
    by_cases hq : q = p
    · subst hq
      exact ha.keeps k hopen
    · rw [ha.others q hq]
  have hclosed : ∀ {p}, q ≠ p → ((closeFds w.sys p).procs q).fds k = w.fds q k := by
    intro p hq
    rw [(closeFds_fds w.sys p).2 q hq, World.fds]
  cases c with
  | pipe p copied =>
    cases h
    exact halloc (sysPipe_allocates w p copied).1
  | openFile p found =>
    cases h
    exact halloc (sysOpen_allocates w p found).1
  | socket p =>
    cases h
    exact halloc (sysSocket_allocates w p).1
  | connect p fd addr polls =>
    cases h
    rw [World.fds, sysConnect_sys, World.fds]
  | close p fd =>
    cases h
    exact sysClose_fds w p fd (of_decide_eq_false hdrop)
  | spawn p child th stdinFd stdoutFd =>
    have hq : q ≠ child := of_decide_eq_false hdrop
    rw [callStep, World.handle] at h
    split at h
    · cases h
    · cases h
      simp [sysSpawn, World.fds, update_of_ne hq]
  | exit cpu p status =>
    have hq : q ≠ p := of_decide_eq_false hdrop
    rw [(sysExit_frame h).2.1, hclosed hq]
  | kill p =>
    obtain ⟨sys, hsys, rfl⟩ := map_eq_some_iff.mp h
    rcases processKill_frame hsys with rfl | ⟨-, hfds⟩
    · rfl
    by_cases hq : q = p
    · subst hq
      have hnoop : q = 0 ∨ (w.sys.procs q).exited = true := by
        by_contra hc
        rw [not_or] at hc
        simp [dropped, hc.1, hc.2] at hdrop
      rw [processKill, if_pos hnoop] at hsys
      cases hsys
      rfl
    · exact (congrFun (hfds q) k).trans (hclosed hq)
  | reap p | schedule sched =>
    cases h
    rfl

lemma callStep_granted (h : callStep fuel w c w') (hx : ((q, k), o) ∈ granted w c) :
    w'.fds q k = o.entry ∧ (o.isSocket = false → 3 ≤ k.val) := by
  have halloc : ∀ {p}, Allocates w w' p (granted w c) → w'.fds q k = o.entry ∧ (o.isSocket = false → 3 ≤ k.val) := by
    intro p ha
    obtain ⟨rfl, hentry, h3⟩ := ha.entries _ hx
    exact ⟨hentry, h3⟩
  cases c with
  | pipe p copied =>
    cases h
    exact halloc (sysPipe_allocates w p copied).1
  | openFile p found =>
    cases h
    exact halloc (sysOpen_allocates w p found).1
  | socket p =>
    cases h
    exact halloc (sysSocket_allocates w p).1
  | _ => simp [granted] at hx

/-- The table has the entry that was made for the object. -/
def Recorded (s : Handing) : Prop :=
  ∀ p k o, s.handed p k = some o → s.world.fds p k = o.entry ∧ (o.isSocket = false → 3 ≤ k.val)

lemma Recorded.step {s s' : Handing} (h : Recorded s) (hs : handingStep fuel s c s') : Recorded s' := by
  obtain ⟨hstep, hafter⟩ := hs
  intro p k o ho
  rw [hafter, Handing.after] at ho
  split at ho
  next o' hlookup =>
    obtain rfl := some.inj ho
    have hmem : ((p, k), o') ∈ granted s.world c := by
      obtain ⟨l₁, l₂, hl, -⟩ := lookup_eq_some_iff.mp hlookup
      rw [hl]
      simp
    exact callStep_granted hstep hmem
  split at ho
  · cases ho
  rename_i hdrop
  obtain ⟨hentry, h3⟩ := h p k o ho
  have hopen : (s.world.fds p k).isOpen = true := by
    rw [hentry]
    cases o <;> rfl
  rw [callStep_fds hstep hopen (Bool.not_eq_true _ ▸ hdrop)]
  exact ⟨hentry, h3⟩

/-- In every state that is reached, a descriptor that was handed out leads both calls to its
object exactly when it is of a file, or of a socket and above the numbers of the console. -/
theorem handed_faithful_iff {s : Handing} (hr : Reachable (handingStep fuel) HandingStart s)
    (ho : s.handed p k = some o) :
    Faithful (s.world.fds p) k o ↔ o.isFile = true ∨ o.isSocket = true ∧ 3 ≤ k.val := by
  have hrec : Recorded s := by
    apply hr.invariant
    · intro s hs p k o ho
      rw [hs.2] at ho
      cases ho
    · intro s c s' h hs
      exact h.step hs
  obtain ⟨hentry, h3⟩ := hrec p k o ho
  exact faithful_iff hentry h3

end

/-- No descriptor was handed out. -/
def quietHanding : Handing := ⟨quietWorld, fun _ _ => none⟩

lemma quietHanding_start : HandingStart quietHanding := ⟨quietWorld_start, fun _ _ => rfl⟩

lemma quietHanding_call {c : Call} {w' : World} (h : callStep 1 quietWorld c w') :
    Reachable (handingStep 1) HandingStart ⟨w', quietHanding.after c⟩ := by
  have hs : handingStep 1 quietHanding c ⟨w', quietHanding.after c⟩ := ⟨h, rfl⟩
  exact ⟨quietHanding, [c], quietHanding_start, .cons hs (.nil _)⟩

def quietOpened : Handing :=
  ⟨(sysOpen quietWorld 1 (some (12, 0))).2, quietHanding.after (.openFile 1 (some (12, 0)))⟩

/-- The first file that a process opens gets descriptor 3. -/
theorem handed_faithful_first_file : quietOpened.handed 1 3 = some (.file 0) ∧
    Faithful (quietOpened.world.fds 1) 3 (.file 0) := by
  have hr : Reachable (handingStep 1) HandingStart quietOpened := quietHanding_call rfl
  have ho : quietOpened.handed 1 3 = some (.file 0) := by decide +kernel
  exact ⟨ho, (handed_faithful_iff hr ho).mpr (.inl rfl)⟩

def quietSocket : Handing := ⟨(sysSocket quietWorld 1).2, quietHanding.after (.socket 1)⟩

def quietPipe : Handing := ⟨(sysPipe quietWorld 1 true).2, quietHanding.after (.pipe 1 true)⟩

/-- The first socket of a process gets descriptor 0, from which `sys_read` reads the console;
the read end of its first pipe gets descriptor 3, which `sys_read` refuses. -/
theorem socket_reads_console : Reachable (handingStep 1) HandingStart quietSocket ∧
    (sysSocket quietWorld 1).1 = 0 ∧ quietSocket.handed 1 0 = some (.socket 0) ∧
      (sysRead calmEnv 1 (some (quietSocket.world.fds 1)) 0 1).2 = [.read .console 1] ∧
    Reachable (handingStep 1) HandingStart quietPipe ∧ quietPipe.handed 1 3 = some (.pipeRead 0) ∧
      sysRead calmEnv 1 (some (quietPipe.world.fds 1)) 3 1 = (some (-9), []) := by
  refine ⟨quietHanding_call rfl, ?_, ?_, ?_, quietHanding_call rfl, ?_, ?_⟩
  · decide +kernel
  · decide +kernel
  · decide +kernel
  · decide +kernel
  · decide +kernel

end AetherOS.Proc
