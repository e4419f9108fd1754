import AetherOS.DescriptorRuns

/-!
# What a process leaves behind

Slots of the file and the socket table belong to one descriptor each. Both ways to end a
process go through its descriptors and close the pipes only, so a slot that belongs to one
of its descriptors stays in use.
-/
namespace AetherOS.Proc
open Sched Runs Function Option

/-- Descriptors of the type refer to slots in use, and no two of them to the same slot. -/
structure Owned (fds : ℕ → FdTable) (type : FdType) (used : ℤ → Prop) : Prop where
  used : ∀ p k, (fds p k).isOpen = true → (fds p k).type = type → used (fds p k).id
  unique : ∀ p k q j, (fds p k).isOpen = true → (fds p k).type = type → (fds q j).isOpen = true →
    (fds q j).type = type → (fds p k).id = (fds q j).id → p = q ∧ k = j

/-- The descriptors of the type were there before. -/
def NoNew (type : FdType) (fds fds' : ℕ → FdTable) : Prop :=
  ∀ p k, (fds' p k).isOpen = true → (fds' p k).type = type → fds' p k = fds p k

section

variable {fds fds' : ℕ → FdTable} {type : FdType} {used used' : ℤ → Prop} {p : ℕ} {k : Fin maxFds} {id : ℤ}

lemma Owned.mono (h : Owned fds type used) (hsub : NoNew type fds fds')
    (hused : ∀ p k, (fds' p k).isOpen = true → (fds' p k).type = type → used' (fds' p k).id) :
    Owned fds' type used' where
  used := hused
  unique p k q j h1 h2 h3 h4 he := by
    have hp := hsub p k h1 h2
    have hq := hsub q j h3 h4
    rw [hp] at h1 h2 he
    rw [hq] at h3 h4 he
    exact h.unique p k q j h1 h2 h3 h4 he

lemma Owned.alloc (h : Owned fds type used) (hfree : ¬used id) (hkeep : ∀ x, used x → used' x) (hid : used' id) :
    Owned (update fds p (update (fds p) k ⟨true, type, id⟩)) type used' := by
  have hcases : ∀ q j, (q = p ∧ j = k ∧ update fds p (update (fds p) k ⟨true, type, id⟩) q j = ⟨true, type, id⟩) ∨
      (¬(q = p ∧ j = k) ∧ update fds p (update (fds p) k ⟨true, type, id⟩) q j = fds q j) := by
    intro q j
    by_cases hq : q = p
    · subst hq
      by_cases hj : j = k
      · subst hj
        exact .inl ⟨rfl, rfl, by simp⟩
      · exact .inr ⟨fun hc => hj hc.2, by simp [hj]⟩
    · exact .inr ⟨fun hc => hq hc.1, by simp [hq]⟩
  constructor
  · intro q j ho ht
    rcases hcases q j with ⟨-, -, he⟩ | ⟨-, he⟩
    · rw [he]
      exact hid
    · rw [he] at ho ht ⊢
      exact hkeep _ (h.used q j ho ht)
  intro q j q' j' h1 h2 h3 h4 heq
  rcases hcases q j with ⟨rfl, rfl, he⟩ | ⟨hn, he⟩
  · rcases hcases q' j' with ⟨rfl, rfl, he'⟩ | ⟨hn', he'⟩
    · exact ⟨rfl, rfl⟩
    rw [he'] at h3 h4 heq
    rw [he] at heq
    have hused := h.used q' j' h3 h4
    rw [← heq] at hused
    exact absurd hused hfree
  rw [he] at h1 h2 heq
  rcases hcases q' j' with ⟨rfl, rfl, he'⟩ | ⟨hn', he'⟩
  · rw [he'] at heq
    have hused := h.used q j h1 h2
    rw [heq] at hused
    exact absurd hused hfree
  · rw [he'] at h3 h4 heq
    exact h.unique q j q' j' h1 h2 h3 h4 heq

end

/-! ## Calls that add no descriptor of a type -/

section

variable {w : World} {p : ℕ} {type : FdType} {t t' : FdTable}

/-- The descriptors of the type in `t` are in `t'` as well. -/
def SubTable (type : FdType) (t t' : FdTable) : Prop :=
  ∀ k, (t k).isOpen = true → (t k).type = type → t k = t' k

lemma noNew_update {fds : ℕ → FdTable} (ht : SubTable type t (fds p)) : NoNew type fds (update fds p t) := by
  exact fun q => update_cases q ht fun _ _ _ _ => rfl

/-- A file or a socket. -/
def NotPipe (type : FdType) : Prop := type = .file ∨ type = .socket

lemma NotPipe.ne_endType (h : NotPipe type) (read : Bool) : type ≠ endType read := by
  rcases h with rfl | rfl
  · exact (endType_ne_file read).symm
  · exact (endType_ne_socket read).symm

lemma NotPipe.update (h : NotPipe type) (j : Fin maxFds) (read : Bool) (id : ℤ)
    (ht : SubTable type t t') : SubTable type (update t j ⟨true, endType read, id⟩) t' := by
  exact fun k => update_cases k (fun _ hty => absurd hty.symm (h.ne_endType read)) fun _ => ht k

lemma SubTable.fdFree (ht : SubTable type t t') (fd : ℤ) : SubTable type (fdFree t fd) t' := by
  intro k ho hty
  have he := (fdFree_eq ho).1
  rw [he] at ho hty ⊢
  exact ht k ho hty

lemma sysPipe_noNew (h : NotPipe type) (copied : Bool) : NoNew type w.fds (sysPipe w p copied).2.fds := by
  have hrefl : NoNew type w.fds w.fds := fun _ _ _ _ => rfl
  unfold sysPipe
  split
  · exact hrefl
  rename_i idx _ _
  split
  · exact hrefl
  rename_i rfd _ hrfd
  obtain ⟨-, rfl⟩ := fdAllocFrom_eq hrfd
  have hread := h.update rfd true idx.val fun k (_ : (w.fds p k).isOpen = true) _ => rfl
  split
  · rw [setFds_fds]
    exact noNew_update (hread.fdFree _)
  rename_i wfd _ hwfd
  obtain ⟨-, rfl⟩ := fdAllocFrom_eq hwfd
  have hboth := h.update wfd false idx.val hread
  split
  · rw [setFds_fds]
    exact noNew_update hboth
  · rw [setFds_fds]
    exact noNew_update ((hboth.fdFree _).fdFree _)

lemma sysSpawn_noNew (h : NotPipe type) (child t : ℕ) (stdinFd stdoutFd : ℤ) :
    NoNew type w.fds (sysSpawn w p child t stdinFd stdoutFd).fds := by
  intro q k ho hty
  by_cases hq : q = child
  · subst hq
    simp only [World.fds, sysSpawn, update_self] at ho hty
    -- the child has pipe ends only
    have hinherit : ∀ (t' : FdTable) slot read fd, (∀ k, (t' k).isOpen = true → (t' k).type ≠ type) →
        ∀ k, (inherit (w.fds p) t' slot (endType read) fd k).isOpen = true →
          (inherit (w.fds p) t' slot (endType read) fd k).type ≠ type := by
      intro t' slot read fd ht' k ho
      unfold inherit at ho ⊢
      split
      next hc =>
        rw [if_pos hc, fdSet] at ho
        rw [fdSet]
        revert ho
        exact update_cases k (fun _ => (h.ne_endType read).symm) fun _ => ht' k
      next hc =>
        rw [if_neg hc] at ho
        exact ht' k ho
    have hnone := hinherit (fun _ => closedFd) 0 true stdinFd fun _ hc => by cases hc
    exact absurd hty (hinherit _ 1 false stdoutFd hnone k ho)
  · simp [World.fds, sysSpawn, update_of_ne hq]

lemma closeFds_noNew (type : FdType) (s : System) (p : ℕ) : NoNew type s.fds (closeFds s p).fds := by
  obtain ⟨hself, hothers⟩ := closeFds_fds s p
  intro q k ho _
  by_cases hq : q = p
  · subst hq
    unfold System.fds at ho
    rw [hself k] at ho
    cases ho
  · unfold System.fds
    rw [hothers q hq]

end

/-! ## Files and sockets -/

/-- The index names a slot that is in use. -/
def Used {n : ℕ} (inUse : Fin n → Bool) (id : ℤ) : Prop := ∃ j, id = (j.val : ℤ) ∧ inUse j = true

def FileUsed (w : World) : ℤ → Prop := Used fun j => (w.files j).inUse

def SockUsed (w : World) : ℤ → Prop := Used fun j => (w.socks j).used

/-- Files and sockets belong to one descriptor each. -/
structure Tidy (w : World) : Prop where
  files : Owned w.fds .file (FileUsed w)
  socks : Owned w.fds .socket (SockUsed w)

section

variable {w w' : World} {p : ℕ} {fds : ℕ → FdTable} {used used' : ℤ → Prop} {type : FdType}

lemma Owned.of_noNew {fds' : ℕ → FdTable}
    (h : Owned fds type used) (hsub : NoNew type fds fds') (hused : ∀ x, used x → used' x) :
    Owned fds' type used' := by
  refine h.mono hsub fun q k ho hty => ?_
  have he := hsub q k ho hty
  rw [he] at ho hty ⊢
  exact hused _ (h.used q k ho hty)

section

variable {n : ℕ} {u u' : Fin n → Bool} {j : Fin n} {x : ℤ}

lemma not_used (h : u j = false) : ¬Used u j.val := by
  rintro ⟨i, hi, hu⟩
  obtain rfl : j = i := Fin.ext (by omega)
  rw [h] at hu
  cases hu

lemma Used.of_ne (h : Used u x) (hx : x ≠ j.val) (hu : ∀ i, i ≠ j → u' i = u i) : Used u' x := by
  obtain ⟨i, rfl, hi⟩ := h
  refine ⟨i, rfl, ?_⟩
  rw [hu i fun hc => hx (by rw [hc])]
  exact hi

lemma Used.of_set (h : Used u x) (hj : u' j = true) (hu : ∀ i, i ≠ j → u' i = u i) : Used u' x := by
  by_cases hx : x = j.val
  · exact ⟨j, hx, hj⟩
  · exact h.of_ne hx hu

end

lemma Owned.close {fd : ℤ} {k : Fin maxFds}
    (h : Owned fds type used) (hk : fdSlot fd = some k) (ho : (fds p k).isOpen = true)
    (ht : (fds p k).type = type) (hused : ∀ x, used x → x ≠ (fds p k).id → used' x) :
    Owned (update fds p (fdFree (fds p) fd)) type used' := by
  have hsub : NoNew type fds (update fds p (fdFree (fds p) fd)) :=
    noNew_update (SubTable.fdFree (fun _ _ _ => rfl) fd)
  refine h.mono hsub fun q j hqo hqt => ?_
  have he := hsub q j hqo hqt
  -- this is another descriptor, so it has another slot
  have hne : ¬(q = p ∧ j = k) := by
    rintro ⟨rfl, rfl⟩
    rw [update_self] at hqo
    exact (fdFree_eq hqo).2 hk
  rw [he] at hqo hqt ⊢
  exact hused _ (h.used q j hqo hqt) fun hid => hne (h.unique q j p k hqo hqt ho ht hid)

lemma Tidy.same (h : Tidy w) (hfiles : w'.files = w.files) (hsocks : ∀ j, (w'.socks j).used = (w.socks j).used)
    (hsub : ∀ type, NotPipe type → NoNew type w.fds w'.fds) : Tidy w' where
  files := h.files.of_noNew (hsub _ (.inl rfl)) fun x hx => by
    unfold FileUsed at hx ⊢
    rw [hfiles]
    exact hx
  socks := h.socks.of_noNew (hsub _ (.inr rfl)) fun x hx => by
    unfold SockUsed at hx ⊢
    simp only [hsocks]
    exact hx

lemma vfsOpenSlot_eq {files files' : Fin vfsMaxOpen → VfsFile} {inode offset : ℕ} {j : Fin vfsMaxOpen}
    (h : vfsOpenSlot files inode offset = (some j, files')) :
    (files j).inUse = false ∧ files' = update files j ⟨true, inode, offset⟩ := by
  unfold vfsOpenSlot at h
  split at h
  · cases h
  next hi => simpa using found_slot hi h

lemma sockAlloc_eq {socks socks' : Fin maxSockets → Socket} {j : Fin maxSockets}
    (h : sockAlloc socks = (some j, socks')) : (socks j).used = false ∧ socks' = update socks j ⟨true, none⟩ := by
  unfold sockAlloc at h
  split at h
  · cases h
  next hi => simpa using found_slot hi h

lemma subTable_update {t : FdTable} {type' : FdType} (hne : type' ≠ type) (j : Fin maxFds) (id : ℤ) :
    SubTable type (update t j ⟨true, type', id⟩) t := by
  exact fun k => update_cases k (fun _ hty => absurd hty hne) fun _ _ _ => rfl

lemma Tidy.sysOpen (h : Tidy w) (found : Option (ℕ × ℕ)) : Tidy (sysOpen w p found).2 := by
  unfold Proc.sysOpen
  split
  · exact h
  split
  · exact h
  rename_i vfd files hslot
  obtain ⟨hfree, rfl⟩ := vfsOpenSlot_eq hslot
  split
  · -- the slot is given back
    refine ⟨h.files.of_noNew (fun _ _ _ _ => rfl) fun x hx => ?_, h.socks⟩
    have hne : x ≠ vfd.val := by
      rintro rfl
      exact not_used hfree hx
    refine hx.of_ne hne fun i hi => ?_
    have hval : ¬((i.val : ℤ) = vfd.val) := fun hc => hi (Fin.ext (by omega))
    simp only [vfsClose, if_neg hval, update_of_ne hi]
  next fd t hfd =>
    obtain ⟨-, rfl⟩ := fdAllocFrom_eq hfd
    constructor
    · rw [setFds_fds]
      refine h.files.alloc (not_used hfree) (fun x hx => ?_) ⟨vfd, rfl, ?_⟩
      · refine hx.of_set (j := vfd) ?_ fun i hi => ?_
        · simp only [World.setFds, update_self]
        · simp [World.setFds, update_of_ne hi]
      · simp [World.setFds]
    · rw [setFds_fds]
      exact h.socks.of_noNew (noNew_update (subTable_update (by decide) _ _)) fun x hx => hx

lemma Tidy.sysSocket (h : Tidy w) : Tidy (sysSocket w p).2 := by
  unfold Proc.sysSocket
  split
  · exact h
  rename_i idx socks hslot
  obtain ⟨hfree, rfl⟩ := sockAlloc_eq hslot
  split
  · -- the slot is given back
    refine ⟨h.files, h.socks.of_noNew (fun _ _ _ _ => rfl) fun x hx => ?_⟩
    have hne : x ≠ idx.val := by
      rintro rfl
      exact not_used hfree hx
    refine hx.of_ne hne fun i hi => ?_
    simp [sockFree, update_of_ne hi]
  next fd t hfd =>
    obtain ⟨-, rfl⟩ := fdAllocFrom_eq hfd
    constructor
    · rw [setFds_fds]
      exact h.files.of_noNew (noNew_update (subTable_update (by decide) _ _)) fun x hx => hx
    rw [setFds_fds]
    refine h.socks.alloc (not_used hfree) (fun x hx => ?_) ⟨idx, rfl, ?_⟩
    · refine hx.of_set (j := idx) ?_ fun i hi => ?_
      · simp only [World.setFds, update_self]
      · simp [World.setFds, update_of_ne hi]
    · simp [World.setFds]

lemma sysConnect_tables (fd : ℤ) (addr : Option (UInt32 × UInt16)) (polls : List (Option (List UInt8))) :
    (sysConnect w p fd addr polls).2.files = w.files ∧
      ∀ j, ((sysConnect w p fd addr polls).2.socks j).used = (w.socks j).used := by
  unfold sysConnect
  split
  · exact ⟨rfl, fun _ => rfl⟩
  split
  · exact ⟨rfl, fun _ => rfl⟩
  unfold sockConnect
  split
  · exact ⟨rfl, fun _ => rfl⟩
  rename_i i hi
  split
  · exact ⟨rfl, fun _ => rfl⟩
  simp only
  split
  · exact ⟨rfl, fun _ => rfl⟩
  refine ⟨rfl, fun j => ?_⟩
  dsimp only
  exact update_cases j rfl fun _ => rfl

lemma sockClose_tables (w : World) (idx : ℤ) : (sockClose w idx).files = w.files ∧
    ∀ j : Fin maxSockets, (j.val : ℤ) ≠ idx → (sockClose w idx).socks j = w.socks j := by
  unfold sockClose
  split
  · exact ⟨rfl, fun _ _ => rfl⟩
  rename_i i hi
  have hval : (i.val : ℤ) = idx := by
    unfold sockSlot at hi
    split at hi
    next hrange =>
      cases hi
      simp only
      omega
    · cases hi
  have hfree : ∀ j : Fin maxSockets, (j.val : ℤ) ≠ idx → sockFree w.socks i j = w.socks j := by
    intro j hj
    have hji : j ≠ i := by
      rintro rfl
      exact hj hval
    exact update_of_ne hji _ _
  simp only
  split <;> exact ⟨rfl, hfree⟩

lemma noNew_fdFree (type : FdType) (fds : ℕ → FdTable) (p : ℕ) (fd : ℤ) :
    NoNew type fds (update fds p (fdFree (fds p) fd)) :=
  noNew_update (SubTable.fdFree (fun _ _ _ => rfl) fd)

lemma Tidy.sysClose (h : Tidy w) (fd : ℤ) : Tidy (sysClose w p fd).2 := by
  have hpipe : ∀ pipes, Tidy ((w.setPipes pipes).setFds p (fdFree (w.fds p) fd)) := by
    intro pipes
    refine h.same rfl (fun _ => rfl) fun type _ => ?_
    rw [setFds_fds]
    exact noNew_fdFree type w.fds p fd
  unfold Proc.sysClose
  cases ht : fdType (w.fds p) fd with
  | pipeRead | pipeWrite => exact hpipe _
  | none =>
    have hneg : fdToVfs (w.fds p) fd = -1 := if_neg (by rw [ht]; decide)
    simp only [hneg]
    exact h
  | file =>
    obtain ⟨k, hk, ho, htype, hid⟩ := fdType_ne_none (ht.trans_ne (by decide))
    have hvfd : fdToVfs (w.fds p) fd = (w.fds p k).id := (if_pos ht).trans hid
    simp only
    split
    · exact h
    constructor
    · rw [setFds_fds]
      refine h.files.close hk ho (htype.symm.trans ht) fun x hx hne => ?_
      obtain ⟨j, rfl, hj⟩ := hx
      refine ⟨j, rfl, ?_⟩
      simp only [World.setFds, vfsClose, hvfd, if_neg hne]
      exact hj
    · rw [setFds_fds]
      exact h.socks.of_noNew (noNew_fdFree _ w.fds p fd) fun x hx => hx
  | socket =>
    obtain ⟨k, hk, ho, htype, hid⟩ := fdType_ne_none (ht.trans_ne (by decide))
    obtain ⟨hfiles, hsocks⟩ := sockClose_tables w (fdId (w.fds p) fd)
    have hfds : (sockClose w (fdId (w.fds p) fd)).fds = w.fds := by
      funext q
      unfold World.fds
      rw [sockClose_sys]
    constructor
    · rw [setFds_fds, hfds]
      refine h.files.of_noNew (noNew_fdFree _ w.fds p fd) fun x hx => ?_
      simp only [FileUsed, World.setFds, hfiles]
      exact hx
    rw [setFds_fds, hfds]
    refine h.socks.close hk ho (htype.symm.trans ht) fun x hx hne => ?_
    obtain ⟨j, rfl, hj⟩ := hx
    refine ⟨j, rfl, ?_⟩
    simp only [World.setFds]
    rw [hsocks j (hid ▸ hne)]
    exact hj

theorem Tidy.step {fuel : ℕ} {c : Call} (h : Tidy w) (hs : callStep fuel w c w') : Tidy w' := by
  unfold callStep at hs
  cases c with
  | pipe p copied =>
    cases hs
    have htables : ∀ r, r = sysPipe w p copied → r.2.files = w.files ∧ r.2.socks = w.socks := by
      rintro r rfl
      unfold Proc.sysPipe
      repeat' split
      all_goals exact ⟨rfl, rfl⟩
    obtain ⟨hf, hk⟩ := htables _ rfl
    exact h.same hf (fun _ => by rw [hk]) fun type ht => sysPipe_noNew ht copied
  | openFile p found => exact some.inj hs ▸ h.sysOpen found
  | socket p => exact some.inj hs ▸ h.sysSocket
  | connect p fd addr polls =>
    cases hs
    obtain ⟨hf, hk⟩ := sysConnect_tables (w := w) (p := p) fd addr polls
    refine h.same hf hk fun type _ q k _ _ => ?_
    rw [World.fds, World.fds, sysConnect_sys]
  | close p fd => exact some.inj hs ▸ h.sysClose fd
  | spawn p child t stdinFd stdoutFd =>
    simp only [World.handle] at hs
    split at hs
    · cases hs
    · cases hs
      exact h.same rfl (fun _ => rfl) fun type ht => sysSpawn_noNew ht child t stdinFd stdoutFd
  | exit c p status =>
    obtain ⟨-, hfds, hf, hk, -⟩ := sysExit_frame hs
    refine h.same hf (fun _ => by rw [hk]) fun type _ => ?_
    have hw : w'.fds = (closeFds w.sys p).fds := funext hfds
    rw [hw]
    exact closeFds_noNew type w.sys p
  | kill p =>
    obtain ⟨sys, hk, rfl⟩ := map_eq_some_iff.mp hs
    rcases processKill_frame hk with rfl | ⟨-, hfds⟩
    · exact h
    refine h.same rfl (fun _ => rfl) fun type _ => ?_
    have hw : System.fds sys = (closeFds w.sys p).fds := funext hfds
    have hnew := closeFds_noNew type w.sys p
    rw [← hw] at hnew
    exact hnew
  | reap p | schedule sched => exact some.inj hs ▸ ⟨h.files, h.socks⟩

end

/-! ## Ending a process -/

/-- The slot is referred to by descriptors of this process only. -/
def OnlyHolder (w : World) (p : ℕ) (type : FdType) (id : ℤ) : Prop :=
  Holds w.fds p type id ∧ ∀ q, q ≠ p → ¬Holds w.fds q type id

/-- What `p` alone referred to in `w` is free in `w'`: files, sockets, and the connections of
such sockets that no other socket refers to. -/
structure Released (w w' : World) (p : ℕ) : Prop where
  files : ∀ j, OnlyHolder w p .file j.val → (w'.files j).inUse = false
  socks : ∀ j, OnlyHolder w p .socket j.val → (w'.socks j).used = false
  conns : ∀ c, (∃ j, (w.socks j).used = true ∧ (w.socks j).conn = some c) →
    (∀ j : Fin maxSockets, (w.socks j).used = true → (w.socks j).conn = some c →
      OnlyHolder w p .socket j.val) → (w'.tcp.conns c).inUse = false

lemma end_tables {fuel : ℕ} {w w' : World} {c : Fin maxCpus} {p status : ℕ}
    (h : callStep fuel w (.exit c p status) w' ∨ callStep fuel w (.kill p) w') :
    w'.files = w.files ∧ w'.socks = w.socks ∧ w'.tcp = w.tcp := by
  rcases h with h | h
  · exact (sysExit_frame h).2.2
  · obtain ⟨sys, -, rfl⟩ := map_eq_some_iff.mp h
    exact ⟨rfl, rfl, rfl⟩

/-- In every state that any calls of any processes lead to: when a process ends by `sys_exit`
or by `process_kill`, everything that only its descriptors referred to is released if and only
if it has no file and no socket open. -/
theorem end_releases_iff (fuel : ℕ) (w w' : World) (c : Fin maxCpus) (p status : ℕ)
    (hr : Reachable (callStep fuel) WorldStart w)
    (hs : callStep fuel w (.exit c p status) w' ∨ callStep fuel w (.kill p) w') :
    Released w w' p ↔ ∀ k, (w.fds p k).isOpen = true → (w.fds p k).type ≠ .file ∧ (w.fds p k).type ≠ .socket := by
  have hstart : ∀ w, WorldStart w → Tidy w := by
    intro w hw
    have hclosed : ∀ q k, ¬(w.fds q k).isOpen = true := fun q k ho => by
      rw [hw.fds q k] at ho
      cases ho
    have hnone : ∀ type used, Owned w.fds type used := fun type used =>
      ⟨fun q k ho => absurd ho (hclosed q k), fun q k _ _ ho => absurd ho (hclosed q k)⟩
    exact ⟨hnone _ _, hnone _ _⟩
  have h : Tidy w := hr.invariant hstart fun _ _ _ h hs => h.step hs
  obtain ⟨hfiles, hsocks, -⟩ := end_tables hs
  -- a slot belongs to one descriptor, so no other process refers to it
  have honly : ∀ {type used} k, Owned w.fds type used → (w.fds p k).isOpen = true → (w.fds p k).type = type →
      OnlyHolder w p type (w.fds p k).id := by
    intro type used k hown ho ht
    refine ⟨⟨k, ho, ht, rfl⟩, ?_⟩
    rintro q hq ⟨j, hjo, hjt, hjid⟩
    exact hq (hown.unique q j p k hjo hjt ho ht hjid).1
  constructor
  · intro hrel k ho
    constructor
    · intro ht
      obtain ⟨j, hid, huse⟩ := h.files.used p k ho ht
      have hfree := hrel.files j (hid ▸ honly k h.files ho ht)
      rw [hfiles] at hfree
      exact absurd huse (by simp only [hfree]; decide)
    intro ht
    obtain ⟨j, hid, huse⟩ := h.socks.used p k ho ht
    have hfree := hrel.socks j (hid ▸ honly k h.socks ho ht)
    rw [hsocks] at hfree
    exact absurd huse (by simp only [hfree]; decide)
  intro hnone
  have hnot : ∀ type, NotPipe type → ∀ id, ¬OnlyHolder w p type id := by
    rintro type hty id ⟨⟨k, ho, ht, -⟩, -⟩
    obtain ⟨h1, h2⟩ := hnone k ho
    rcases hty with rfl | rfl
    · exact h1 ht
    · exact h2 ht
  refine ⟨fun j hj => absurd hj (hnot _ (.inl rfl) _), fun j hj => absurd hj (hnot _ (.inr rfl) _), ?_⟩
  rintro c ⟨j, huse, hconn⟩ hall
  exact absurd (hall j huse hconn) (hnot _ (.inr rfl) _)

/-- A process with a pipe only. -/
theorem end_releases_pipe : ∃ w w', Reachable (callStep 1) WorldStart w ∧
    callStep 1 w (.kill 1) w' ∧ Holds w.fds 1 .pipeRead 0 ∧ Released w w' 1 := by
  have hr : Reachable (callStep 1) WorldStart (sysPipe quietWorld 1 true).2 :=
    ⟨quietWorld, [.pipe 1 true], quietWorld_start, .cons rfl (.nil _)⟩
  have hs : callStep 1 (sysPipe quietWorld 1 true).2 (.kill 1) _ := rfl
  refine ⟨_, _, hr, hs, ⟨3, by decide +kernel⟩, ?_⟩
  exact (end_releases_iff 1 _ _ 0 1 0 hr (.inr hs)).mpr (by decide +kernel)

lemma sysOpen_fds_of_ne {w : World} {p q : ℕ} {found : Option (ℕ × ℕ)} (hq : q ≠ p) :
    (sysOpen w p found).2.fds q = w.fds q := by
  unfold sysOpen
  split
  · rfl
  split
  · rfl
  split
  · rfl
  · rw [setFds_of_ne hq]
    rfl

/-- A process that opened a file and ends: the slot of the file stays in use. -/
theorem end_leaks_file : ∃ w w', Reachable (callStep 1) WorldStart w ∧
    callStep 1 w (.exit 0 1 0) w' ∧ OnlyHolder w 1 .file 0 ∧ (w'.files 0).inUse = true ∧
      (∀ k, (w'.fds 1 k).isOpen = false) := by
  have hr : Reachable (callStep 1) WorldStart (sysOpen quietWorld 1 (some (12, 0))).2 :=
    ⟨quietWorld, [.openFile 1 (some (12, 0))], quietWorld_start, .cons rfl (.nil _)⟩
  have hends : (sysExit 1 (sysOpen quietWorld 1 (some (12, 0))).2 0 1 0).isSome = true := by decide +kernel
  obtain ⟨w', hs⟩ := isSome_iff_exists.mp hends
  have hstep : callStep 1 (sysOpen quietWorld 1 (some (12, 0))).2 (.exit 0 1 0) w' := hs
  refine ⟨_, w', hr, hstep, ⟨⟨3, by decide +kernel⟩, ?_⟩, ?_, fun k => ?_⟩
  · rintro q hq ⟨k, ho, -⟩
    rw [sysOpen_fds_of_ne hq] at ho
    cases ho
  · rw [(end_tables (.inl hstep)).1]
    decide +kernel
  · rw [(sysExit_frame hs).2.1 1]
    exact (closeFds_fds _ 1).1 k

end AetherOS.Proc
