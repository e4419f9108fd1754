import AetherOS.Descriptors

/-!
# What open descriptors refer to

Two facts about every run. The ends of a pipe carry no count of the descriptors that refer
to them, so a pipe outlives its descriptors' use only if each end is closed through its last
descriptor. And a process that ends closes its pipes only: files and sockets that are still
open stay in their tables.
-/
namespace AetherOS.Proc
open Sched Runs Function Option

/-! ## How the calls change the descriptors -/

section

variable {t t' : FdTable} {type : FdType} {id fd : ℤ} {start : ℕ} {j k : Fin maxFds}

/-- The slot that a search has found is taken. -/
lemma found_slot {α : Type} {n : ℕ} {u : Fin n → Bool} {t t' : Fin n → α} {x : α} {i j : Fin n}
    (hi : (List.finRange n).find? u = some i) (h : (some i, update t i x) = (some j, t')) :
    u j = true ∧ t' = update t j x := by
  obtain ⟨hj, ht⟩ := Prod.mk.inj h
  cases hj
  exact ⟨List.find?_some hi, ht.symm⟩

lemma fdAllocFrom_spec (h : fdAllocFrom start type t id = (some k, t')) :
    start ≤ k.val ∧ (t k).isOpen = false ∧ t' = update t k ⟨true, type, id⟩ := by
  unfold fdAllocFrom at h
  split at h
  · cases h
  next hi => simpa [and_assoc] using found_slot hi h

lemma fdAllocFrom_eq (h : fdAllocFrom start type t id = (some k, t')) :
    (t k).isOpen = false ∧ t' = update t k ⟨true, type, id⟩ := (fdAllocFrom_spec h).2

@[simp] lemma fdSlot_val (k : Fin maxFds) : fdSlot (k.val : ℤ) = some k := by
  have hk := k.isLt
  rw [fdSlot, dif_pos (by omega)]
  rfl

lemma fdFree_val : fdFree t (k.val : ℤ) = update t k closedFd := by rw [fdFree, fdSlot_val]

lemma fdType_ne_none (h : fdType t fd ≠ .none) :
    ∃ k, fdSlot fd = some k ∧ (t k).isOpen = true ∧ fdType t fd = (t k).type ∧ fdId t fd = (t k).id := by
  cases hk : fdSlot fd with
  | none => simp [fdType, fdEntry, hk] at h
  | some k =>
    by_cases hopen : (t k).isOpen = true
    · exact ⟨k, rfl, hopen, by simp [fdType, fdEntry, hk, hopen], by simp [fdId, fdEntry, hk, hopen]⟩
    · simp [fdType, fdEntry, hk, hopen] at h

end

section

variable {w w' : World} {p q : ℕ} {t : FdTable}

@[simp] lemma setFds_self : (w.setFds p t).fds p = t := by simp [World.setFds, World.fds, System.editProc]

lemma setFds_of_ne (h : q ≠ p) : (w.setFds p t).fds q = w.fds q := by
  simp [World.setFds, World.fds, System.editProc, h]

lemma setFds_fds (w : World) (p : ℕ) (t : FdTable) : (w.setFds p t).fds = update w.fds p t := by
  funext q
  refine update_cases q ?_ fun hq => setFds_of_ne hq
  exact setFds_self ..

@[simp] lemma setFds_pipes : (w.setFds p t).sys.pipes = w.sys.pipes := rfl

@[simp] lemma setPipes_pipes (pipes : Fin maxPipes → Pipe) : (w.setPipes pipes).sys.pipes = pipes := rfl

end

/-! ## Ending a process -/

section

variable {s s' : System} {p q fuel : ℕ}

lemma killFd_fds (p : ℕ) (s : System) (i k : Fin maxFds) : ((killFd p s i).procs p).fds k =
    if k = i then { (s.procs p).fds k with isOpen := false } else (s.procs p).fds k := by
  unfold killFd
  by_cases ho : ((s.procs p).fds i).isOpen = true
  · by_cases hk : k = i
    · subst hk
      simp [ho, System.editProc]
    · simp [ho, System.editProc, hk]
  by_cases hk : k = i
  · subst hk
    rw [if_neg ho, if_pos rfl]
    cases he : (s.procs p).fds k
    simp_all
  · rw [if_neg ho, if_neg hk]

lemma killFd_fds_of_ne (h : q ≠ p) (i : Fin maxFds) : ((killFd p s i).procs q).fds = (s.procs q).fds := by
  unfold killFd
  simp only
  split
  · simp [System.editProc, h]
  · rfl

lemma killFd_closed (i : Fin maxFds) {k : Fin maxFds} (h : ((s.procs p).fds k).isOpen = false) :
    (((killFd p s i).procs p).fds k).isOpen = false := by
  rw [killFd_fds]
  split
  · rfl
  · exact h

/-- Descriptors of the process are closed, all others stay. -/
theorem closeFds_fds (s : System) (p : ℕ) :
    (∀ k, (((closeFds s p).procs p).fds k).isOpen = false) ∧
      ∀ q, q ≠ p → ((closeFds s p).procs q).fds = (s.procs q).fds := by
  have hfold : ∀ (l : List (Fin maxFds)) (s : System), (∀ k, k ∈ l ∨ ((s.procs p).fds k).isOpen = false →
        (((l.foldl (killFd p) s).procs p).fds k).isOpen = false) ∧
      ∀ q, q ≠ p → ((l.foldl (killFd p) s).procs q).fds = (s.procs q).fds := by
    intro l
    induction l with
    | nil => exact fun s => ⟨fun k hk => hk.resolve_left (by simp), fun _ _ => rfl⟩
    | cons i l ih =>
      intro s
      obtain ⟨ih1, ih2⟩ := ih (killFd p s i)
      refine ⟨fun k hk => ih1 k ?_, fun q hq => (ih2 q hq).trans (killFd_fds_of_ne hq i)⟩
      rcases hk with hk | hk
      · rcases List.mem_cons.mp hk with rfl | hk
        · right
          rw [killFd_fds, if_pos rfl]
        · exact .inl hk
      · exact .inr (killFd_closed i hk)
  obtain ⟨h1, h2⟩ := hfold (List.finRange maxFds) s
  exact ⟨fun k => h1 k (.inl (List.mem_finRange k)), h2⟩

lemma processMarkExited_frame {status : ℤ} (h : processMarkExited fuel s p status = some s') :
    s'.pipes = s.pipes ∧ ∀ q, (s'.procs q).fds = (s.procs q).fds := by
  unfold processMarkExited at h
  simp only at h
  split at h
  · cases h
  cases h
  refine ⟨rfl, fun q => ?_⟩
  simp only [System.editProc]
  exact update_cases q rfl fun _ => rfl

lemma processKill_frame (h : processKill fuel s p = some s') :
    s' = s ∨ s'.pipes = (closeFds s p).pipes ∧ ∀ q, (s'.procs q).fds = ((closeFds s p).procs q).fds := by
  unfold processKill at h
  split at h
  · exact .inl (some.inj h).symm
  right
  split at h
  · cases h
  rename_i s1 hs1
  have hframe := processMarkExited_frame hs1
  simp only at h
  split at h
  · cases h
    exact hframe
  · cases h
    exact hframe

lemma sysExit_frame {w w' : World} {c : Fin maxCpus} {status : ℕ} (h : sysExit fuel w c p status = some w') :
    w'.sys.pipes = (closeFds w.sys p).pipes ∧ (∀ q, w'.fds q = ((closeFds w.sys p).procs q).fds) ∧
      w'.files = w.files ∧ w'.socks = w.socks ∧ w'.tcp = w.tcp := by
  unfold sysExit at h
  split at h
  · cases h
  next sys hsys =>
    obtain ⟨h1, h2⟩ := processMarkExited_frame hsys
    cases h
    exact ⟨h1, h2, rfl, rfl, rfl⟩

end

/-! ## The life time of pipes -/

/-- The process has an open descriptor of the type for the slot. -/
def Holds (fds : ℕ → FdTable) (p : ℕ) (type : FdType) (id : ℤ) : Prop :=
  ∃ k, (fds p k).isOpen = true ∧ (fds p k).type = type ∧ (fds p k).id = id

/-- The descriptor type of an end. -/
def endType (read : Bool) : FdType := if read then .pipeRead else .pipeWrite

/-- The pipe is in use and the end is not marked closed. -/
def EndOpen (pipes : Fin maxPipes → Pipe) (read : Bool) (i : Fin maxPipes) : Prop :=
  (pipes i).inUse = true ∧ (if read then (pipes i).readClosed else (pipes i).writeClosed) = false

/-- The ends to which the processes have descriptors are open. -/
def AliveFor (who : ℕ → Prop) (fds : ℕ → FdTable) (pipes : Fin maxPipes → Pipe) : Prop :=
  ∀ p read (i : Fin maxPipes), who p → Holds fds p (endType read) i.val → EndOpen pipes read i

section

variable {who who' : ℕ → Prop} {fds fds' : ℕ → FdTable} {pipes pipes' : Fin maxPipes → Pipe}
  {i j : Fin maxPipes} {p : ℕ} {read : Bool} {idx : ℤ}

lemma AliveFor.mono (h : AliveFor who fds pipes)
    (hsub : ∀ p read (i : Fin maxPipes), who' p → Holds fds' p (endType read) i.val →
      ∃ q, who q ∧ Holds fds q (endType read) i.val) : AliveFor who' fds' pipes := by
  intro p read i hp hh
  obtain ⟨q, hq, hold⟩ := hsub p read i hp hh
  exact h q read i hq hold

lemma pipeClose_of_ne (h : (i.val : ℤ) ≠ idx) : pipeClose read pipes idx i = pipes i :=
  if_neg fun hc => h hc.1

lemma EndOpen.pipeClose_other {other : Bool} (h : EndOpen pipes other i) (hne : other ≠ read) :
    EndOpen (pipeClose read pipes idx) other i := by
  by_cases hi : (i.val : ℤ) = idx
  · obtain ⟨huse, hopen⟩ := h
    cases other <;> cases read
    · exact absurd rfl hne
    · simp only [Bool.false_eq_true, if_false] at hopen
      simp [EndOpen, pipeClose, hi, huse, hopen]
    · simp only [if_true] at hopen
      simp [EndOpen, pipeClose, hi, huse, hopen]
    · exact absurd rfl hne
  · rw [EndOpen, pipeClose_of_ne hi]
    exact h

lemma AliveFor.pipeClose (h : AliveFor who fds pipes) (hlast : ∀ p, who p → ¬Holds fds p (endType read) idx) :
    AliveFor who fds (pipeClose read pipes idx) := by
  intro p other i hp hh
  have hopen := h p other i hp hh
  by_cases hne : other = read
  · subst hne
    have hi : (i.val : ℤ) ≠ idx := by
      rintro rfl
      exact hlast p hp hh
    rw [EndOpen, pipeClose_of_ne hi]
    exact hopen
  · exact hopen.pipeClose_other hne

lemma allocPipe_eq (h : allocPipe pipes = (some i, pipes')) :
    (pipes i).inUse = false ∧ pipes' = update pipes i ⟨true, false, false⟩ := by
  unfold allocPipe at h
  split at h
  · cases h
  next hi => simpa using found_slot hi h

lemma AliveFor.update (h : AliveFor who fds pipes) (hfree : (pipes i).inUse = false) (x : Pipe) :
    AliveFor who fds (update pipes i x) := by
  intro p read j hp hh
  have hopen := h p read j hp hh
  have hji : j ≠ i := by
    rintro rfl
    rw [EndOpen, hfree] at hopen
    cases hopen.1
  rw [EndOpen, update_of_ne hji]
  exact hopen

end

section

variable {s : System} {p : ℕ}

/-- The descriptor tables of all processes. -/
def System.fds (s : System) (q : ℕ) : FdTable := (s.procs q).fds

/-- No other process has a descriptor for an end to which `p` has one. -/
def NotShared (fds : ℕ → FdTable) (p : ℕ) : Prop :=
  ∀ read id, Holds fds p (endType read) id → ∀ q, q ≠ p → ¬Holds fds q (endType read) id

lemma killFd_pipes (i : Fin maxFds) :
    (killFd p s i).pipes = s.pipes ∨ ∃ read, ((s.procs p).fds i).isOpen = true ∧
      ((s.procs p).fds i).type = endType read ∧
      (killFd p s i).pipes = pipeClose read s.pipes ((s.procs p).fds i).id := by
  unfold killFd
  by_cases ho : ((s.procs p).fds i).isOpen = true
  · simp only [ho, if_true]
    cases ht : ((s.procs p).fds i).type with
    | pipeRead => exact .inr ⟨true, trivial, rfl, rfl⟩
    | pipeWrite => exact .inr ⟨false, trivial, rfl, rfl⟩
    | _ => exact .inl rfl
  · simp only [ho]
    exact .inl rfl

section

variable (h : AliveFor (· ≠ p) s.fds s.pipes) (hns : NotShared s.fds p)
include h hns

lemma killFd_alive (i : Fin maxFds) :
    AliveFor (· ≠ p) (killFd p s i).fds (killFd p s i).pipes ∧ NotShared (killFd p s i).fds p := by
  have hfds : ∀ q, q ≠ p → (killFd p s i).fds q = s.fds q := fun q hq => killFd_fds_of_ne hq i
  have hholds : ∀ q type id, q ≠ p → (Holds (killFd p s i).fds q type id ↔ Holds s.fds q type id) := by
    intro q type id hq
    unfold Holds
    rw [hfds q hq]
  have hself : ∀ type id, Holds (killFd p s i).fds p type id → Holds s.fds p type id := by
    rintro type id ⟨k, hk⟩
    refine ⟨k, ?_⟩
    unfold System.fds at hk ⊢
    rw [killFd_fds] at hk
    split at hk
    · cases hk.1
    · exact hk
  refine ⟨?_, fun read id hp q hq hh => hns read id (hself _ _ hp) q hq ((hholds q _ _ hq).mp hh)⟩
  have hsame : AliveFor (· ≠ p) (killFd p s i).fds s.pipes :=
    h.mono fun q read j hq hh => ⟨q, hq, (hholds q _ _ hq).mp hh⟩
  rcases killFd_pipes i with hp | ⟨read, ho, ht, hp⟩
  · rw [hp]
    exact hsame
  rw [hp]
  apply hsame.pipeClose
  intro q hq hh
  exact hns read _ ⟨i, ho, ht, rfl⟩ q hq ((hholds q _ _ hq).mp hh)

lemma closeFds_alive : AliveFor (fun _ => True) (closeFds s p).fds (closeFds s p).pipes := by
  have hfold : ∀ (l : List (Fin maxFds)) (s : System), AliveFor (· ≠ p) s.fds s.pipes → NotShared s.fds p →
      AliveFor (· ≠ p) (l.foldl (killFd p) s).fds (l.foldl (killFd p) s).pipes := by
    intro l
    induction l with
    | nil => exact fun s h _ => h
    | cons i l ih =>
      intro s h hns
      obtain ⟨h1, h2⟩ := killFd_alive h hns i
      exact ih (killFd p s i) h1 h2
  have halive := hfold (List.finRange maxFds) s h hns
  -- the process itself has no descriptors left
  intro q read i _ hh
  apply halive q read i ?_ hh
  rintro rfl
  obtain ⟨k, ho, -⟩ := hh
  have hclosed := (closeFds_fds s q).1 k
  unfold System.fds at ho
  rw [hclosed] at ho
  cases ho

end

end

/-- In every state: a pipe is in use while some process has a descriptor for it, and an end
is marked closed only when no process has a descriptor for this end. -/
def PipesAlive (w : World) : Prop := AliveFor (fun _ => True) w.fds w.sys.pipes

/-- Ends of pipes are closed through their last descriptor. -/
def LastDescriptor (w : World) : Call → Prop
  | .close p fd => ∀ read, fdType (w.fds p) fd = endType read → ∀ q k, (w.fds q k).isOpen = true →
      (w.fds q k).type = endType read → (w.fds q k).id = fdId (w.fds p) fd → q = p ∧ fdSlot fd = some k
  | .exit _ p _ => NotShared w.fds p
  | .kill p => NotShared w.fds p
  | _ => True

section

variable {w w' : World} {p : ℕ} {t : FdTable} {k : Fin maxFds} {fd : ℤ} {type : FdType} {read : Bool}

lemma PipesAlive.setFds (h : PipesAlive w) (hw : w'.fds = w.fds) (hp : w'.sys.pipes = w.sys.pipes)
    (ht : ∀ k read, (t k).isOpen = true → (t k).type = endType read → t k = w.fds p k) :
    PipesAlive (w'.setFds p t) := by
  have h' : AliveFor (fun _ => True) w.fds w'.sys.pipes := hp ▸ h
  refine h'.mono fun q read i _ hh => ⟨q, trivial, ?_⟩
  by_cases hq : q = p
  · subst hq
    obtain ⟨k, h1, h2, h3⟩ := hh
    rw [setFds_self] at h1 h2 h3
    have hk := ht k read h1 h2
    exact ⟨k, hk ▸ h1, hk ▸ h2, hk ▸ h3⟩
  · rw [Holds, setFds_of_ne hq, hw] at hh
    exact hh

lemma endType_ne_file (read : Bool) : endType read ≠ .file := by cases read <;> decide

lemma endType_ne_socket (read : Bool) : endType read ≠ .socket := by cases read <;> decide

lemma update_not_pipe {id : ℤ} (hne : ∀ read, type ≠ endType read)
    (j k : Fin maxFds) (read : Bool) (ht : (update t j ⟨true, type, id⟩ k).type = endType read) :
    update t j ⟨true, type, id⟩ k = t k := by
  revert ht
  exact update_cases k (fun ht => absurd ht (hne read)) fun _ _ => rfl

lemma fdFree_eq (ho : (fdFree t fd k).isOpen = true) : fdFree t fd k = t k ∧ fdSlot fd ≠ some k := by
  unfold fdFree at ho ⊢
  cases hs : fdSlot fd with
  | none => exact ⟨rfl, by simp⟩
  | some j =>
    rw [hs] at ho
    have hk : k ≠ j := by
      rintro rfl
      simp only [update_self, closedFd] at ho
      cases ho
    refine ⟨update_of_ne hk _ _, ?_⟩
    simpa using Ne.symm hk

lemma sysConnect_sys (fd : ℤ) (addr : Option (UInt32 × UInt16)) (polls : List (Option (List UInt8))) :
    (sysConnect w p fd addr polls).2.sys = w.sys := by
  unfold sysConnect
  split
  · rfl
  split
  · rfl
  unfold sockConnect
  split
  · rfl
  split
  · rfl
  · simp only
    split <;> rfl

lemma sockClose_sys (w : World) (idx : ℤ) : (sockClose w idx).sys = w.sys := by
  unfold sockClose
  split
  · rfl
  · simp only
    split <;> rfl

lemma inherit_holds {parent child : FdTable} {slot : Fin maxFds}
    (ht : type ≠ .none) (ho : (inherit parent child slot type fd k).isOpen = true) :
    inherit parent child slot type fd k = child k ∨
      ∃ j, (parent j).isOpen = true ∧ (parent j).type = (inherit parent child slot type fd k).type ∧
        (parent j).id = (inherit parent child slot type fd k).id := by
  unfold inherit at ho ⊢
  split
  next hc =>
    rw [if_pos hc] at ho
    by_cases hk : k = slot
    · subst hk
      have hne : fdType parent fd ≠ .none := hc.2 ▸ ht
      obtain ⟨j, -, hopen, htype, hid⟩ := fdType_ne_none hne
      right
      simp only [fdSet, update_self]
      exact ⟨j, hopen, htype.symm.trans hc.2, hid.symm⟩
    · left
      exact update_of_ne hk _ _
  · exact .inl rfl

lemma setFds_setFds (t t' : FdTable) : (w.setFds p t).setFds p t' = w.setFds p t' := by
  simp [World.setFds, System.editProc]

lemma endType_injective {read' : Bool} (h : endType read = endType read') : read = read' := by
  cases read <;> cases read' <;> first | rfl | cases h

section

variable (h : PipesAlive w)
include h

lemma PipesAlive.sysOpen (found : Option (ℕ × ℕ)) : PipesAlive (sysOpen w p found).2 := by
  unfold Proc.sysOpen
  split
  · exact h
  split
  · exact h
  split
  · exact h
  next hfd =>
    obtain ⟨-, rfl⟩ := fdAllocFrom_eq hfd
    exact h.setFds rfl rfl fun k read _ ht => update_not_pipe (fun r => (endType_ne_file r).symm) _ k read ht

lemma PipesAlive.sysSocket : PipesAlive (sysSocket w p).2 := by
  unfold Proc.sysSocket
  split
  · exact h
  split
  · exact h
  next hfd =>
    obtain ⟨-, rfl⟩ := fdAllocFrom_eq hfd
    exact h.setFds rfl rfl fun k read _ ht =>
      update_not_pipe (fun r => (endType_ne_socket r).symm) _ k read ht

lemma PipesAlive.closeEnd (ht : fdType (w.fds p) fd = endType read) (hl : LastDescriptor w (.close p fd)) :
    PipesAlive ((w.setPipes (pipeClose read w.sys.pipes (fdId (w.fds p) fd))).setFds p
      (fdFree (w.fds p) fd)) := by
  have hfree : PipesAlive (w.setFds p (fdFree (w.fds p) fd)) :=
    h.setFds rfl rfl fun k _ ho _ => (fdFree_eq ho).1
  apply AliveFor.pipeClose hfree
  rintro q - ⟨k, h1, h2, h3⟩
  by_cases hq : q = p
  · subst hq
    rw [setFds_self] at h1 h2 h3
    obtain ⟨heq, hslot⟩ := fdFree_eq h1
    rw [heq] at h1 h2 h3
    exact hslot (hl read ht q k h1 h2 h3).2
  · rw [setFds_of_ne hq] at h1 h2 h3
    exact hq (hl read ht q k h1 h2 h3).1

lemma PipesAlive.sysClose (fd : ℤ) (hl : LastDescriptor w (.close p fd)) : PipesAlive (sysClose w p fd).2 := by
  have hfree : ∀ w' : World, w'.sys = w.sys → PipesAlive (w'.setFds p (fdFree (w.fds p) fd)) := by
    intro w' hw
    have hfds : w'.fds = w.fds := by
      funext q
      rw [World.fds, World.fds, hw]
    exact h.setFds hfds (by rw [hw]) fun k _ ho _ => (fdFree_eq ho).1
  have hfile : PipesAlive (if fdToVfs (w.fds p) fd < 0 then ((-9 : ℤ), w)
      else (0, { w with files := vfsClose w.files (fdToVfs (w.fds p) fd) }.setFds p
        (fdFree (w.fds p) fd))).2 := by
    split
    · exact h
    · exact hfree _ rfl
  unfold Proc.sysClose
  cases ht : fdType (w.fds p) fd with
  | socket => exact hfree _ (sockClose_sys w _)
  | pipeRead =>
    have hend : fdType (w.fds p) fd = endType true := ht
    exact h.closeEnd hend hl
  | pipeWrite =>
    have hend : fdType (w.fds p) fd = endType false := ht
    exact h.closeEnd hend hl
  | none | file => exact hfile

lemma PipesAlive.sysSpawn (child t : ℕ) (stdinFd stdoutFd : ℤ) :
    PipesAlive (sysSpawn w p child t stdinFd stdoutFd) := by
  refine AliveFor.mono h fun q read i _ hh => ?_
  obtain ⟨k, h1, h2, h3⟩ := hh
  by_cases hq : q = child
  · subst hq
    refine ⟨p, trivial, ?_⟩
    simp only [World.fds, Proc.sysSpawn, update_self] at h1 h2 h3
    rcases inherit_holds (by decide) h1 with heq | ⟨j, hj, hty, hid⟩
    · rw [heq] at h1 h2 h3
      rcases inherit_holds (by decide) h1 with heq' | ⟨j, hj, hty, hid⟩
      · rw [heq'] at h1
        cases h1
      · exact ⟨j, hj, hty.trans h2, hid.trans h3⟩
    · exact ⟨j, hj, hty.trans h2, hid.trans h3⟩
  · refine ⟨q, trivial, k, ?_⟩
    simp only [World.fds, Proc.sysSpawn, update_of_ne hq] at h1 h2 h3
    exact ⟨h1, h2, h3⟩

lemma PipesAlive.addEnd (p : ℕ) (j : Fin maxFds) (read : Bool) {i : Fin maxPipes}
    (hopen : EndOpen w.sys.pipes read i) :
    PipesAlive (w.setFds p (update (w.fds p) j ⟨true, endType read, i.val⟩)) := by
  intro q other i' _ hh
  by_cases hq : q = p
  · subst hq
    obtain ⟨k, h1, h2, h3⟩ := hh
    rw [setFds_self] at h1 h2 h3
    by_cases hk : k = j
    · subst hk
      rw [update_self] at h2 h3
      obtain rfl := endType_injective h2
      have h3 : (i.val : ℤ) = i'.val := h3
      obtain rfl : i = i' := Fin.ext (by omega)
      exact hopen
    · rw [update_of_ne hk] at h1 h2 h3
      exact h q other i' trivial ⟨k, h1, h2, h3⟩
  · rw [Holds, setFds_of_ne hq] at hh
    exact h q other i' trivial hh

lemma PipesAlive.sysPipe (copied : Bool) : PipesAlive (sysPipe w p copied).2 := by
  unfold Proc.sysPipe
  split
  · exact h
  rename_i idx pipes halloc
  obtain ⟨hfree, rfl⟩ := allocPipe_eq halloc
  -- the slot may be taken or given back, nobody refers to it
  have hback : PipesAlive (w.setPipes
      (freePipe (update w.sys.pipes idx ⟨true, false, false⟩) idx)) := by
    rw [freePipe, update_self, update_idem]
    exact AliveFor.update h hfree _
  have htake : PipesAlive (w.setPipes (update w.sys.pipes idx ⟨true, false, false⟩)) :=
    AliveFor.update h hfree _
  split
  · exact hback
  rename_i rfd t hrfd
  obtain ⟨hr, rfl⟩ := fdAllocFrom_eq hrfd
  split
  · refine hback.setFds rfl rfl fun k read ho _ => ?_
    obtain ⟨heq, hk⟩ := fdFree_eq ho
    rw [fdSlot_val] at hk
    rw [heq, update_of_ne (by rintro rfl; exact hk rfl)]
    rfl
  next wfd t2 hwfd =>
    obtain ⟨hw, rfl⟩ := fdAllocFrom_eq hwfd
    split
    · have hread := htake.addEnd p rfd true (i := idx) (by simp [EndOpen])
      have hboth := hread.addEnd p wfd false (i := idx) (by simp [EndOpen])
      rw [setFds_self, setFds_setFds] at hboth
      exact hboth
    refine hback.setFds rfl rfl fun k read ho _ => ?_
    obtain ⟨heq, hk⟩ := fdFree_eq ho
    rw [heq] at ho ⊢
    obtain ⟨heq', hk'⟩ := fdFree_eq ho
    rw [fdSlot_val] at hk hk'
    rw [heq', update_of_ne (by rintro rfl; exact hk rfl), update_of_ne (by rintro rfl; exact hk' rfl)]
    rfl

/-- One step keeps the pipes alive. -/
theorem PipesAlive.step {fuel : ℕ} {c : Call} (hl : LastDescriptor w c)
    (hs : callStep fuel w c w') : PipesAlive w' := by
  have hend : ∀ p, NotShared w.fds p → AliveFor (fun _ => True) (closeFds w.sys p).fds (closeFds w.sys p).pipes := by
    intro p hns
    have hothers : AliveFor (· ≠ p) w.sys.fds w.sys.pipes :=
      AliveFor.mono h fun q _ _ _ hh => ⟨q, trivial, hh⟩
    exact closeFds_alive hothers hns
  unfold callStep at hs
  cases c with
  | pipe p copied => exact some.inj hs ▸ h.sysPipe copied
  | openFile p found => exact some.inj hs ▸ h.sysOpen found
  | socket p => exact some.inj hs ▸ h.sysSocket
  | connect p fd addr polls =>
    cases hs
    have hsys := sysConnect_sys (w := w) (p := p) fd addr polls
    unfold PipesAlive World.fds
    rw [hsys]
    exact h
  | close p fd => exact some.inj hs ▸ h.sysClose fd hl
  | spawn p child t stdinFd stdoutFd =>
    simp only [World.handle] at hs
    split at hs
    · cases hs
    · exact some.inj hs ▸ h.sysSpawn child t stdinFd stdoutFd
  | exit c p status =>
    obtain ⟨hpipes, hfds, -⟩ := sysExit_frame hs
    have hw : w'.fds = (closeFds w.sys p).fds := funext hfds
    unfold PipesAlive
    rw [hpipes, hw]
    exact hend p hl
  | kill p =>
    obtain ⟨sys, hk, rfl⟩ := map_eq_some_iff.mp hs
    rcases processKill_frame hk with rfl | ⟨hpipes, hfds⟩
    · exact h
    have hw : System.fds sys = (closeFds w.sys p).fds := funext hfds
    change AliveFor (fun _ => True) sys.fds sys.pipes
    rw [hpipes, hw]
    exact hend p hl
  | reap p | schedule sched => exact some.inj hs ▸ h

end

end

/-- In every run in which ends of pipes are closed through their last descriptor only, in
every state: a pipe to which a process has a descriptor is in use, so that `pipe_alloc` does
not return it; its write end is marked closed only when no process has a descriptor for the
write end, and its read end only when none has one for the read end. -/
theorem pipes_alive_of_lastDescriptor (fuel : ℕ) (w : World)
    (hr : Reachable (fun w c w' => callStep fuel w c w' ∧ LastDescriptor w c) WorldStart w) (i : Fin maxPipes) :
    (∀ p, Holds w.fds p .pipeRead i.val ∨ Holds w.fds p .pipeWrite i.val →
        (w.sys.pipes i).inUse = true ∧ (allocPipe w.sys.pipes).1 ≠ some i) ∧
      ((w.sys.pipes i).writeClosed = true → ∀ p, ¬Holds w.fds p .pipeWrite i.val) ∧
      ((w.sys.pipes i).readClosed = true → ∀ p, ¬Holds w.fds p .pipeRead i.val) := by
  have hstart : ∀ w, WorldStart w → PipesAlive w := by
    rintro w hw p read i - ⟨k, ho, -⟩
    rw [hw.fds p k] at ho
    cases ho
  have h : PipesAlive w := hr.invariant hstart fun _ _ _ h hs => h.step hs.2 hs.1
  have hinUse : ∀ p, Holds w.fds p .pipeRead i.val ∨ Holds w.fds p .pipeWrite i.val →
      (w.sys.pipes i).inUse = true := by
    rintro p (hp | hp)
    · exact (h p true i trivial hp).1
    · exact (h p false i trivial hp).1
  refine ⟨fun p hp => ⟨hinUse p hp, fun ha => ?_⟩, fun hc p hp => ?_, fun hc p hp => ?_⟩
  · have hfree := (allocPipe_eq (Prod.ext ha rfl)).1
    rw [hinUse p hp] at hfree
    cases hfree
  · have hopen := (h p false i trivial hp).2
    simp only [Bool.false_eq_true, if_false, hc] at hopen
    cases hopen
  have hopen := (h p true i trivial hp).2
  simp only [if_true, hc] at hopen
  cases hopen

/-- One CPU runs the thread of process 1, nothing else is ready. -/
def quietSched : State where
  threads t := ⟨0, if t = 1 then .running else .ready, false, t = 1, 0, 0, 0, 0⟩
  rqHead := 0
  rqTail := 0
  sleepHead := 0
  ticks := 0
  cpus c := if c = 0 then ⟨1, 0, 0, 1, .running⟩ else ⟨0, 0, 0, 0, .running⟩
  freed := []

/-- Process 1 exists and no slot is in use. -/
def quietWorld : World where
  sys :=
    { sched := quietSched
      procs := fun p => ⟨p, false, 0, 0, fun _ => closedFd⟩
      pipes := fun _ => ⟨false, false, false⟩ }
  live p := p = 1
  files _ := ⟨false, 0, 0⟩
  socks _ := ⟨false, none⟩
  tcp := Tcp.openSession.stack
  nextPort := 49152

lemma quietWorld_start : WorldStart quietWorld := ⟨fun _ _ => rfl, fun _ => rfl, fun _ => rfl⟩

/-- A process that made a pipe has both ends. -/
theorem pipes_alive_first_pipe : ∃ w, Reachable (fun w c w' => callStep 1 w c w' ∧ LastDescriptor w c) WorldStart w ∧
      Holds w.fds 1 .pipeRead 0 ∧ (w.sys.pipes 0).inUse = true := by
  have hr : Reachable (fun w c w' => callStep 1 w c w' ∧ LastDescriptor w c) WorldStart
      (sysPipe quietWorld 1 true).2 :=
    ⟨quietWorld, [.pipe 1 true], quietWorld_start, .cons ⟨rfl, trivial⟩ (.nil _)⟩
  have hh : Holds (sysPipe quietWorld 1 true).2.fds 1 .pipeRead 0 := ⟨3, by decide +kernel⟩
  exact ⟨_, hr, hh, ((pipes_alive_of_lastDescriptor 1 _ hr 0).1 1 (.inl hh)).1⟩

/-- The caller of a pipeline: it makes a pipe, starts a child that reads from it, and closes
its own copies of both ends. -/
def pipelineCalls : List Call :=
  [.pipe 1 true, .spawn 1 2 2 3 (-1), .close 1 3, .close 1 4]

/-- The child still has its end, but the pipe is no longer in use and its read end closed. -/
theorem pipelineCalls_release_pipe : ∃ w, Run (callStep 1) quietWorld pipelineCalls w ∧
    WorldStart quietWorld ∧ Holds w.fds 2 .pipeRead 0 ∧ (w.sys.pipes 0).inUse = false ∧
      (w.sys.pipes 0).readClosed = true := by
  refine ⟨_, .cons rfl (.cons rfl (.cons rfl (.cons rfl (.nil _)))), quietWorld_start, ⟨0, ?_⟩, ?_, ?_⟩
  · decide +kernel
  · decide +kernel
  · decide +kernel

/-! ## Pipes that are not made -/

/-- `sys_pipe` with the checks it starts with: the range of the pointer, and the caller's
descriptor table. -/
def sysPipeChecked (w : World) (p : ℕ) (rangeOk hasFds copied : Bool) : ℤ × World :=
  if rangeOk = false then (-14, w)
  else if hasFds = false then (-9, w)
  else sysPipe w p copied

/-- The open descriptors of every process with their types and ids, and the pipes in use. -/
def SameUse (w w' : World) : Prop :=
  (∀ q, fdEntry (w'.fds q) = fdEntry (w.fds q)) ∧ ∀ i, (w'.sys.pipes i).inUse = (w.sys.pipes i).inUse

section

variable {w w' : World} {p : ℕ} {t : FdTable} {k : Fin maxFds}

lemma SameUse.refl (w : World) : SameUse w w := ⟨fun _ => rfl, fun _ => rfl⟩

lemma fdEntry_update_closed (hk : (t k).isOpen = false) : fdEntry (update t k closedFd) = fdEntry t := by
  funext fd
  unfold fdEntry
  congr 1
  funext i
  by_cases hi : i = k
  · subst hi
    simp [closedFd, hk]
  · rw [update_of_ne hi]

lemma SameUse.setFds (h : SameUse w w') (ht : fdEntry t = fdEntry (w.fds p)) : SameUse w (w'.setFds p t) := by
  refine ⟨fun q => ?_, h.2⟩
  by_cases hq : q = p
  · rw [hq, setFds_self, ht]
  · rw [setFds_of_ne hq, h.1]

lemma SameUse.freePipe {i : Fin maxPipes} (hfree : (w.sys.pipes i).inUse = false) :
    SameUse w (w.setPipes (freePipe (update w.sys.pipes i ⟨true, false, false⟩) i)) := by
  refine ⟨fun _ => rfl, fun j => ?_⟩
  rw [setPipes_pipes, Proc.freePipe, update_self, update_idem]
  exact update_cases j hfree.symm fun _ => rfl

/-- Whatever was acquired before the failure is given back. -/
theorem sysPipe_failed (w : World) (p : ℕ) (rangeOk hasFds copied : Bool)
    (h : (sysPipeChecked w p rangeOk hasFds copied).1 < 0) :
    SameUse w (sysPipeChecked w p rangeOk hasFds copied).2 := by
  unfold sysPipeChecked at h ⊢
  split_ifs at h ⊢
  · exact .refl w
  · exact .refl w
  unfold sysPipe at h ⊢
  split at h
  · exact .refl w
  rename_i idx pipes halloc
  obtain ⟨hfree, rfl⟩ := allocPipe_eq halloc
  have hpipe := SameUse.freePipe hfree
  split at h
  · exact hpipe
  rename_i rfd t hrfd
  obtain ⟨hr, rfl⟩ := fdAllocFrom_eq hrfd
  split at h
  · refine hpipe.setFds ?_
    rw [fdFree_val, update_idem, fdEntry_update_closed hr]
  rename_i wfd t2 hwfd
  obtain ⟨hw, rfl⟩ := fdAllocFrom_eq hwfd
  have hne : wfd ≠ rfd := by
    rintro rfl
    rw [update_self] at hw
    cases hw
  rw [update_of_ne hne] at hw
  split_ifs at h ⊢
  · exact absurd h (Int.lt_irrefl 0)
  refine hpipe.setFds ?_
  rw [fdFree_val, fdFree_val, update_comm hne, update_idem, update_idem, fdEntry_update_closed,
    fdEntry_update_closed hr]
  rwa [update_of_ne hne]

end

/-- Both descriptors were taken when the copy to the caller fails. -/
theorem sysPipe_failed_copy : SameUse quietWorld (sysPipeChecked quietWorld 1 true true false).2 :=
  sysPipe_failed quietWorld 1 true true false (by decide +kernel)

end AetherOS.Proc
