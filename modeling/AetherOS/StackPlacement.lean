import AetherOS.SchedTick

/-!
# Where the threads are

Every thread in use is in one of the lists of the scheduler or on one CPU, except in
two windows: a tick gives the queue lock back while its CPU is still on the stack of
the thread it leaves, and a thread that goes to sleep is in the sleep list before it
has left its CPU. `Placed` says where threads are, and each operation keeps it that
does not reach into such a window.
-/
namespace AetherOS.Sched
open List

/-- No thread is current on two CPUs, and no two CPUs are on one stack. -/
def OneCpuPerStack (s : State) : Prop :=
  ∀ c d, c ≠ d → ((s.cpus c).current ≠ 0 → (s.cpus c).current ≠ (s.cpus d).current) ∧
    ((s.cpus c).stack ≠ 0 → (s.cpus c).stack ≠ (s.cpus d).stack)

/-- `x` points into the stack of `t`, or is the pointer 0 of a thread that never ran. -/
def OwnStack (t x : ℕ) : Prop := x = t ∨ x = 0

instance (t x : ℕ) : Decidable (OwnStack t x) := inferInstanceAs (Decidable (_ ∨ _))

/-- CPU `d` has given up `t` but has not left its stack. -/
def InWindow (s : State) (d : Fin maxCpus) (t : ℕ) : Prop :=
  match (s.cpus d).phase with
  | .running => False
  | .yielding => (s.cpus d).current = t
  | .switching _ => (s.cpus d).stack = t

/-- A thread in a list can be entered when its turn comes. -/
structure Parked (s : State) (t : ℕ) : Prop where
  ne_zero : t ≠ 0
  state : (s.threads t).state ≠ .running
  isIdle : (s.threads t).isIdle = false

/-- The stack pointer in the record is the right one, or the thread is still on a CPU
that will save it. -/
def Saved (s : State) (t : ℕ) : Prop :=
  OwnStack t (s.threads t).rsp ∨ ∃ d, (s.cpus d).current = t ∧ OwnStack t (s.cpus d).stack

def PhaseOk (s : State) (L : List ℕ) (c : Fin maxCpus) : Prop :=
  match (s.cpus c).phase with
  | .running => OwnStack (s.cpus c).current (s.cpus c).stack ∧ (s.cpus c).current ∉ L
  | .yielding => OwnStack (s.cpus c).current (s.cpus c).stack ∧ (s.threads (s.cpus c).current).state ≠ .running
  | .switching n => n = (s.cpus c).current ∧ n ∉ L ∧ OwnStack n (s.threads n).rsp

/-- The threads of `L` are in the lists, all other threads in use are on the CPUs. -/
structure Placed (s : State) (L : List ℕ) : Prop where
  offline : ∀ c, (s.cpus c).current = 0 → (s.cpus c).stack = 0 ∧ (s.cpus c).phase = .running
  idle : ∀ c, (s.cpus c).current ≠ 0 → (s.cpus c).idle ≠ 0 ∧
    (s.threads (s.cpus c).idle).isIdle = true ∧ Saved s (s.cpus c).idle
  idles : ∀ c d, c ≠ d → (s.cpus c).current ≠ 0 → (s.cpus d).current ≠ 0 → (s.cpus c).idle ≠ (s.cpus d).idle
  home : ∀ c, (s.cpus c).current ≠ 0 →
    ((s.threads (s.cpus c).current).isIdle = true → (s.cpus c).current = (s.cpus c).idle) ∧
    ((s.cpus c).stack ≠ 0 → (s.threads (s.cpus c).stack).isIdle = true → (s.cpus c).stack = (s.cpus c).idle)
  apart : ∀ c d, c ≠ d → (s.cpus c).current ≠ 0 → (s.cpus d).current ≠ 0 →
    (s.cpus c).current ≠ (s.cpus d).current ∧ (s.cpus c).current ≠ (s.cpus d).stack ∧
    ((s.cpus c).stack ≠ 0 → (s.cpus c).stack ≠ (s.cpus d).stack)
  phase : ∀ c, (s.cpus c).current ≠ 0 → PhaseOk s L c
  parked : ∀ t ∈ L, Parked s t
  saved : ∀ t ∈ L, Saved s t

/-- A change of a record that keeps the thread's stack and does not start it. -/
structure Calmer (x y : Thread) : Prop where
  rsp : y.rsp = x.rsp
  isIdle : y.isIdle = x.isIdle
  running : y.state = .running → x.state = .running

lemma Calmer.refl (x : Thread) : Calmer x x := ⟨rfl, rfl, id⟩

namespace Placed

variable {s s' : State} {L L' q sl q' w : List ℕ} {c d : Fin maxCpus} {n t : ℕ}

section

variable (h : Placed s L)
include h

lemma oneCpuPerStack : OneCpuPerStack s := by
  intro c d hcd
  refine ⟨fun hc => ?_, fun hc => ?_⟩
  · by_cases hd : (s.cpus d).current = 0
    · rw [hd]
      exact hc
    · exact (h.apart c d hcd hc hd).1
  by_cases hd : (s.cpus d).current = 0
  · rw [(h.offline d hd).1]
    exact hc
  · exact (h.apart c d hcd (fun h0 => hc (h.offline c h0).1) hd).2.2 hc

lemma not_on_cpu (ht : t ∈ L) (hd : (s.cpus d).current ≠ 0)
    (hw : ¬InWindow s d t) : (s.cpus d).current ≠ t ∧ (s.cpus d).stack ≠ t := by
  have hp := h.phase d hd
  have hown : OwnStack (s.cpus d).current (s.cpus d).stack → (s.cpus d).current ≠ t → (s.cpus d).stack ≠ t := by
    rintro (he | he) hne
    · rw [he]
      exact hne
    · rw [he]
      exact Ne.symm (h.parked t ht).ne_zero
  unfold PhaseOk at hp
  unfold InWindow at hw
  split at hp
  · have hne : (s.cpus d).current ≠ t := fun he => hp.2 (he ▸ ht)
    exact ⟨hne, hown hp.1 hne⟩
  next hphase =>
    rw [hphase] at hw
    exact ⟨hw, hown hp.1 hw⟩
  next m hphase =>
    rw [hphase] at hw
    obtain ⟨rfl, hm, -⟩ := hp
    exact ⟨fun he => hm (he ▸ ht), hw⟩

lemma phase_keep (hd : (s.cpus d).current ≠ 0) (hcpu : SameCpu (s.cpus d) (s'.cpus d))
    (hcurL : (s.cpus d).current ∉ L → (s.cpus d).current ∉ L')
    (hrsp : (s'.threads (s.cpus d).current).rsp = (s.threads (s.cpus d).current).rsp)
    (hrun : (s'.threads (s.cpus d).current).state = .running →
      (s.threads (s.cpus d).current).state = .running) : PhaseOk s' L' d := by
  have hp := h.phase d hd
  unfold PhaseOk at hp ⊢
  rw [hcpu.phase, hcpu.current, hcpu.stack]
  split at hp
  · exact ⟨hp.1, hcurL hp.2⟩
  · exact ⟨hp.1, fun hr => hp.2 (hrun hr)⟩
  obtain ⟨rfl, h1, h2⟩ := hp
  rw [← hrsp] at h2
  exact ⟨rfl, hcurL h1, h2⟩

/-- Moving threads that are not on a CPU between the lists, and starting to use a
record. -/
lemma relist (hcpus : s'.cpus = s.cpus) (hthreads : ∀ u, Calmer (s.threads u) (s'.threads u) ∨
      u ∉ L ∧ ∀ c, (s.cpus c).current ≠ u ∧ (s.cpus c).stack ≠ u ∧ (s.cpus c).idle ≠ u)
    (hL : ∀ t ∈ L', t ∈ L ∨ Parked s' t ∧ OwnStack t (s'.threads t).rsp ∧ ∀ d, (s.cpus d).current ≠ t) :
    Placed s' L' := by
  have hon : ∀ u, (u ∈ L ∨ ∃ c, (s.cpus c).current = u ∨ (s.cpus c).stack = u ∨
      (s.cpus c).idle = u) → Calmer (s.threads u) (s'.threads u) := by
    rintro u hu
    rcases hthreads u with hc | ⟨hnot, hcpu⟩
    · exact hc
    rcases hu with hu | ⟨c, hu | hu | hu⟩
    · exact absurd hu hnot
    · exact absurd hu (hcpu c).1
    · exact absurd hu (hcpu c).2.1
    · exact absurd hu (hcpu c).2.2
  have hcur : ∀ c, Calmer (s.threads (s.cpus c).current) (s'.threads (s.cpus c).current) :=
    fun c => hon _ (.inr ⟨c, .inl rfl⟩)
  have hstack : ∀ c, Calmer (s.threads (s.cpus c).stack) (s'.threads (s.cpus c).stack) :=
    fun c => hon _ (.inr ⟨c, .inr (.inl rfl)⟩)
  have hidle : ∀ c, Calmer (s.threads (s.cpus c).idle) (s'.threads (s.cpus c).idle) :=
    fun c => hon _ (.inr ⟨c, .inr (.inr rfl)⟩)
  have hsaved : ∀ u, Calmer (s.threads u) (s'.threads u) → Saved s u → Saved s' u := by
    intro u hu hs
    unfold Saved at hs ⊢
    rw [hcpus, hu.rsp]
    exact hs
  have hcurL : ∀ c, (s.cpus c).current ∉ L → (s.cpus c).current ∉ L' := by
    intro c hc hm
    rcases hL _ hm with hm | ⟨-, -, hne⟩
    · exact hc hm
    · exact hne c rfl
  refine ⟨?_, ?_, ?_, ?_, ?_, fun c hc => ?_, fun t ht => ?_, fun t ht => ?_⟩
  · rw [hcpus]
    exact h.offline
  · rw [hcpus]
    intro c hc
    obtain ⟨h1, h2, h3⟩ := h.idle c hc
    exact ⟨h1, (hidle c).isIdle.trans h2, hsaved _ (hidle c) h3⟩
  · rw [hcpus]
    exact h.idles
  · rw [hcpus]
    intro c hc
    rw [(hcur c).isIdle, (hstack c).isIdle]
    exact h.home c hc
  · rw [hcpus]
    exact h.apart
  · rw [hcpus] at hc
    exact h.phase_keep hc (hcpus ▸ SameCpu.refl _) (hcurL c) (hcur c).rsp (hcur c).running
  · rcases hL t ht with hm | ⟨hp, -, -⟩
    · have hk := hon t (.inl hm)
      obtain ⟨h1, h2, h3⟩ := h.parked t hm
      exact ⟨h1, fun hr => h2 (hk.running hr), hk.isIdle.trans h3⟩
    · exact hp
  · rcases hL t ht with hm | ⟨-, hr, -⟩
    · exact hsaved t (hon t (.inl hm)) (h.saved t hm)
    · exact .inl hr

section

variable (hc : (s.cpus c).current ≠ 0)
include hc

/-- A step of CPU `c` alone: what is to be shown about the thread and the stack that `c`
uses afterwards. -/
lemma atCpu (hc' : (s'.cpus c).current ≠ 0)
    (hidle : (s'.cpus c).idle = (s.cpus c).idle) (hother : ∀ d, d ≠ c → SameCpu (s.cpus d) (s'.cpus d))
    (hisIdle : ∀ u, (s'.threads u).isIdle = (s.threads u).isIdle) (hsaved : ∀ u, Saved s u → Saved s' u)
    (hhome : ((s.threads (s'.cpus c).current).isIdle = true → (s'.cpus c).current = (s.cpus c).idle) ∧
      ((s'.cpus c).stack ≠ 0 → (s.threads (s'.cpus c).stack).isIdle = true → (s'.cpus c).stack = (s.cpus c).idle))
    (hapart : ∀ d, d ≠ c → (s.cpus d).current ≠ 0 →
      ((s.cpus d).current ≠ (s'.cpus c).current ∧ (s.cpus d).stack ≠ (s'.cpus c).current) ∧
      (s.cpus d).current ≠ (s'.cpus c).stack ∧
      ((s'.cpus c).stack ≠ 0 → (s'.cpus c).stack ≠ (s.cpus d).stack)) (hphase : PhaseOk s' L' c)
    (hphases : ∀ d, d ≠ c → (s.cpus d).current ≠ 0 → PhaseOk s' L' d)
    (hlisted : ∀ t ∈ L', Parked s' t ∧ Saved s' t) : Placed s' L' := by
  have hon : ∀ d, (s'.cpus d).current ≠ 0 → (s.cpus d).current ≠ 0 ∧ (s'.cpus d).idle = (s.cpus d).idle := by
    intro d hd
    by_cases hdc : d = c
    · subst hdc
      exact ⟨hc, hidle⟩
    · rw [(hother d hdc).current] at hd
      exact ⟨hd, (hother d hdc).idle⟩
  refine ⟨fun d hd => ?_, fun d hd => ?_, fun d e hde hd he => ?_, fun d hd => ?_,
    fun d e hde hd he => ?_, fun d hd => ?_, fun t ht => (hlisted t ht).1,
    fun t ht => (hlisted t ht).2⟩
  · have hdc : d ≠ c := by
      rintro rfl
      exact hc' hd
    rw [(hother d hdc).current] at hd
    rw [(hother d hdc).stack, (hother d hdc).phase]
    exact h.offline d hd
  · obtain ⟨h1, h2, h3⟩ := h.idle d (hon d hd).1
    rw [(hon d hd).2, hisIdle]
    exact ⟨h1, h2, hsaved _ h3⟩
  · rw [(hon d hd).2, (hon e he).2]
    exact h.idles d e hde (hon d hd).1 (hon e he).1
  · rw [(hon d hd).2, hisIdle, hisIdle]
    by_cases hdc : d = c
    · subst hdc
      exact hhome
    · rw [(hother d hdc).current, (hother d hdc).stack]
      exact h.home d (hon d hd).1
  · by_cases hdc : d = c
    · subst hdc
      have hec := Ne.symm hde
      obtain ⟨h1, -, h2⟩ := hapart e hec (hon e he).1
      rw [(hother e hec).current, (hother e hec).stack]
      exact ⟨Ne.symm h1.1, Ne.symm h1.2, h2⟩
    rw [(hother d hdc).current, (hother d hdc).stack]
    by_cases hec : e = c
    · subst hec
      obtain ⟨h1, h2, h3⟩ := hapart d hdc (hon d hd).1
      exact ⟨h1.1, h2, fun h0 he => h3 (he ▸ h0) he.symm⟩
    · rw [(hother e hec).current, (hother e hec).stack]
      exact h.apart d e hde (hon d hd).1 (hon e he).1
  · by_cases hdc : d = c
    · subst hdc
      exact hphase
    · exact hphases d hdc (hon d hd).1

lemma stop (hrun : (s.cpus c).phase = .running)
    (hidle : (s.threads (s.cpus c).current).isIdle = false) (hthreads : ∀ u, Calmer (s.threads u) (s'.threads u))
    (hstate : (s'.threads (s.cpus c).current).state ≠ .running)
    (hcpus : s'.cpus = (s.editCpu c fun x => { x with phase := .yielding }).cpus)
    (hL : ∀ t ∈ L', t ∈ L ∨ t = (s.cpus c).current) : Placed s' L' := by
  have hself : s'.cpus c = { s.cpus c with phase := .yielding } := by rw [hcpus, editCpu_self]
  have hother : ∀ d, d ≠ c → s'.cpus d = s.cpus d := by
    intro d hd
    rw [hcpus, editCpu_of_ne _ _ _ hd]
  have hstack : OwnStack (s.cpus c).current (s.cpus c).stack := by
    have hp := h.phase c hc
    unfold PhaseOk at hp
    rw [hrun] at hp
    exact hp.1
  have hsaved : ∀ u, Saved s u → Saved s' u := by
    intro u hs
    unfold Saved at hs ⊢
    rw [(hthreads u).rsp]
    refine hs.imp_right fun ⟨d, hd⟩ => ⟨d, ?_⟩
    rw [hcpus]
    revert hd
    exact editCpu_cases d id fun _ => id
  have hsame : ∀ d, d ≠ c → SameCpu (s.cpus d) (s'.cpus d) := fun d hd => hother d hd ▸ SameCpu.refl _
  refine h.atCpu hc (hself ▸ hc) (hself ▸ rfl) hsame (fun u => (hthreads u).isIdle) hsaved
    (hself ▸ h.home c hc) (fun d hdc hd => ?_) ?_ (fun d hdc hd => ?_) fun t ht => ?_
  · have ha := h.apart c d (Ne.symm hdc) hc hd
    rw [hself]
    exact ⟨⟨Ne.symm ha.1, Ne.symm ha.2.1⟩, (h.apart d c hdc hd hc).2.1, ha.2.2⟩
  · unfold PhaseOk
    rw [hself]
    exact ⟨hstack, hstate⟩
  · refine h.phase_keep hd (hsame d hdc) (fun hn hm => ?_) (hthreads _).rsp (hthreads _).running
    rcases hL _ hm with hm | hm
    · exact hn hm
    · exact (h.apart d c hdc hd hc).1 hm
  rcases hL t ht with hm | rfl
  · obtain ⟨h1, h2, h3⟩ := h.parked t hm
    exact ⟨⟨h1, fun hr => h2 ((hthreads t).running hr), (hthreads t).isIdle.trans h3⟩, hsaved t (h.saved t hm)⟩
  · exact ⟨⟨hc, hstate, (hthreads _).isIdle.trans hidle⟩, hsaved _ (.inr ⟨c, rfl, hstack⟩)⟩

lemma switchStack (hphase : (s.cpus c).phase = .switching n) : Placed (switchStack s c n) L := by
  have hp := h.phase c hc
  unfold PhaseOk at hp
  rw [hphase] at hp
  obtain ⟨rfl, hL, hrsp⟩ := hp
  have hself : (Sched.switchStack s c (s.cpus c).current).cpus c =
      { s.cpus c with stack := (s.threads (s.cpus c).current).rsp, phase := .running } :=
    editCpu_self _ _ _
  have hother : ∀ d, d ≠ c → (Sched.switchStack s c (s.cpus c).current).cpus d = s.cpus d := by
    intro d hd
    exact editCpu_of_ne _ _ _ hd
  have hsaved : ∀ u, Saved s u → Saved (Sched.switchStack s c (s.cpus c).current) u := by
    rintro u (hu | ⟨d, hd⟩)
    · exact .inl hu
    refine .inr ⟨d, ?_⟩
    rw [Sched.switchStack]
    revert hd
    exact editCpu_cases d (fun hd => ⟨hd.1, hd.1 ▸ hrsp⟩) fun _ => id
  have hsame : ∀ d, d ≠ c → SameCpu (s.cpus d) ((Sched.switchStack s c (s.cpus c).current).cpus d) :=
    fun d hd => hother d hd ▸ SameCpu.refl _
  refine h.atCpu hc (hself ▸ hc) (hself ▸ rfl) hsame (fun _ => rfl) hsaved ?_ (fun d hdc hd => ?_) ?_
    (fun d hdc hd => h.phase_keep hd (hsame d hdc) id rfl id)
    fun t ht => ⟨⟨(h.parked t ht).ne_zero, (h.parked t ht).state, (h.parked t ht).isIdle⟩, hsaved t (h.saved t ht)⟩
  · rw [hself]
    refine ⟨(h.home c hc).1, fun h0 hidle => ?_⟩
    rcases hrsp with he | he
    · rw [he] at hidle ⊢
      exact (h.home c hc).1 hidle
    · exact absurd he h0
  · have ha := h.apart c d (Ne.symm hdc) hc hd
    rw [hself]
    refine ⟨⟨Ne.symm ha.1, Ne.symm ha.2.1⟩, ?_⟩
    rcases hrsp with hr | hr
    · rw [hr]
      exact ⟨Ne.symm ha.1, fun _ => ha.2.1⟩
    · rw [hr]
      exact ⟨hd, fun h0 => absurd rfl h0⟩
  · unfold PhaseOk
    rw [hself]
    exact ⟨hrsp, hL⟩

end

end

lemma lineUp_perm (s : State) (c : Fin maxCpus) (q sl w : List ℕ) :
    (lineUp s c q sl ++ sl.filter (fun t => !dueNext s t) ++ w).Perm
      ((if Preempted s (s.cpus c).current then [(s.cpus c).current] else []) ++ (q ++ sl ++ w)) := by
  have hsplit := filter_append_perm (dueNext s) sl
  have hmove : (lineUp s c q sl ++ sl.filter (fun t => !dueNext s t)).Perm
      ((if Preempted s (s.cpus c).current then [(s.cpus c).current] else []) ++
        (q ++ sl.filter (dueNext s)) ++ sl.filter (fun t => !dueNext s t)) :=
    perm_append_comm.append_right _
  refine (hmove.append_right w).trans ?_
  rw [append_assoc _ (q ++ _), append_assoc q, append_assoc _ _ w]
  exact ((hsplit.append_left q).append_right w).append_left _

/-- The thread a tick enters: the first in line, the preempted thread itself, or the
idle thread. -/
lemma next_cases (ht : Ticked s s' c q sl q' n) :
    n = (s.cpus c).idle ∨ (n ∈ q ++ sl ∧ ∃ l, q ++ sl.filter (dueNext s) = n :: l) ∨
      (n = (s.cpus c).current ∧ Preempted s (s.cpus c).current) := by
  rcases ht.next with ⟨-, hn, -⟩ | hline
  · exact .inl hn
  right
  unfold lineUp at hline
  rcases hqd : q ++ sl.filter (dueNext s) with _ | ⟨x, l⟩
  · rw [hqd, nil_append] at hline
    split at hline
    next hp =>
      right
      simp only [List.cons.injEq] at hline
      exact ⟨hline.1.symm, hp⟩
    · cases hline
  · left
    rw [hqd, cons_append, List.cons.injEq] at hline
    have hn : n ∈ q ++ sl.filter (dueNext s) := by simp [hqd, hline.1]
    exact ⟨mem_append.mpr ((mem_append.mp hn).imp_right mem_of_mem_filter), l, by rw [hline.1]⟩

section

variable (h : Placed s (q ++ sl ++ w)) (ht : Ticked s s' c q sl q' n) (hc : (s.cpus c).current ≠ 0)
include h ht hc

lemma next_apart (hwin : ∀ t l, q ++ sl.filter (dueNext s) = t :: l → ∀ d, d ≠ c → ¬InWindow s d t)
    (hdc : d ≠ c) (hd : (s.cpus d).current ≠ 0) : (s.cpus d).current ≠ n ∧ (s.cpus d).stack ≠ n := by
  rcases next_cases ht with rfl | ⟨hm, l, hl⟩ | ⟨rfl, -⟩
  · obtain ⟨h0, hidle, -⟩ := h.idle c hc
    have hne := h.idles d c hdc hd hc
    refine ⟨fun he => ?_, fun he => ?_⟩
    · rw [← he] at hidle
      exact hne (((h.home d hd).1 hidle).symm.trans he)
    · rw [← he] at hidle h0
      exact hne (((h.home d hd).2 h0 hidle).symm.trans he)
  · have hm : n ∈ q ++ sl ++ w := mem_append_left w hm
    exact h.not_on_cpu hm hd (hwin n l hl d hdc)
  · exact ⟨(h.apart d c hdc hd hc).1, Ne.symm (h.apart c d (Ne.symm hdc) hc hd).2.1⟩

lemma next_home :
    n ≠ 0 ∧ ((s.threads n).isIdle = true → n = (s.cpus c).idle) ∧ (n = (s.cpus c).current ∨ Saved s n) := by
  rcases next_cases ht with rfl | ⟨hm, -⟩ | ⟨rfl, hp⟩
  · obtain ⟨h0, -, hs⟩ := h.idle c hc
    exact ⟨h0, fun _ => rfl, .inr hs⟩
  · have hm : n ∈ q ++ sl ++ w := mem_append_left w hm
    obtain ⟨h0, -, hi⟩ := h.parked n hm
    exact ⟨h0, fun hidle => by simp [hi] at hidle, .inr (h.saved n hm)⟩
  · exact ⟨hc, fun hidle => by simp [hp.2] at hidle, .inl rfl⟩

/-- After a tick the lists hold what they held before and perhaps the preempted thread,
without the thread that was entered. -/
lemma tick_lists (hnodup : (q ++ sl ++ w).Nodup) :
    (q' ++ sl.filter (fun t => !dueNext s t) ++ w).Nodup ∧ n ∉ q' ++ sl.filter (fun t => !dueNext s t) ++ w ∧
      ∀ t ∈ q' ++ sl.filter (fun t => !dueNext s t) ++ w,
        t ∈ q ++ sl ++ w ∨ (t = (s.cpus c).current ∧ Preempted s (s.cpus c).current) := by
  have hperm := lineUp_perm s c q sl w
  have hfrom : ∀ t ∈ lineUp s c q sl ++ sl.filter (fun t => !dueNext s t) ++ w,
      t ∈ q ++ sl ++ w ∨ (t = (s.cpus c).current ∧ Preempted s (s.cpus c).current) := by
    intro t hm
    rcases mem_append.mp (hperm.mem_iff.mp hm) with hm | hm
    · right
      split at hm
      next hp => exact ⟨mem_singleton.mp hm, hp⟩
      · cases hm
    · exact .inl hm
  have hall : (lineUp s c q sl ++ sl.filter (fun t => !dueNext s t) ++ w).Nodup := by
    refine hperm.nodup_iff.mpr ?_
    split
    next hp =>
      refine nodup_cons.mpr ⟨fun hm => ?_, hnodup⟩
      exact (h.parked _ hm).state hp.1
    · exact hnodup
  rcases ht.next with ⟨hnil, hn, rfl⟩ | hline
  · rw [hnil] at hall hfrom
    refine ⟨hall, fun hm => ?_, hfrom⟩
    have hidle := (h.idle c hc).2.1
    rw [← hn] at hidle
    rcases hfrom n hm with hm | ⟨he, hp⟩
    · rw [(h.parked n hm).isIdle] at hidle
      cases hidle
    · rw [he, hp.2] at hidle
      cases hidle
  · rw [hline, cons_append, cons_append] at hall hfrom
    obtain ⟨hn, hrest⟩ := nodup_cons.mp hall
    exact ⟨hrest, hn, fun t hm => hfrom t (mem_cons_of_mem _ hm)⟩

lemma tick (hnodup : (q ++ sl ++ w).Nodup) (hphase : ∀ m, (s.cpus c).phase ≠ .switching m)
    (hwin : ∀ t l, q ++ sl.filter (dueNext s) = t :: l → ∀ d, d ≠ c → ¬InWindow s d t) :
    Placed s' (q' ++ sl.filter (fun t => !dueNext s t) ++ w) := by
  obtain ⟨-, hnL, hfrom⟩ := h.tick_lists ht hc hnodup
  obtain ⟨hn0, hnidle, hnsaved⟩ := h.next_home ht hc
  have hnapart := fun {d} => h.next_apart (d := d) ht hc hwin
  have hstack : OwnStack (s.cpus c).current (s.cpus c).stack := by
    have hp := h.phase c hc
    unfold PhaseOk at hp
    split at hp
    · exact hp.1
    · exact hp.1
    next m hm => exact absurd hm (hphase m)
  have hother : ∀ d, d ≠ c → SameCpu (s.cpus d) (s'.cpus d) := ht.entered.others
  -- the context of the thread that leaves is in its record now
  have hleft : OwnStack (s.cpus c).current (s'.threads (s.cpus c).current).rsp := by
    rw [ht.rsp, if_pos rfl]
    exact hstack
  have hkept : ∀ u, u ≠ (s.cpus c).current → (s'.threads u).rsp = (s.threads u).rsp := by
    intro u hu
    rw [ht.rsp, if_neg hu]
  have hsaved : ∀ u, Saved s u → Saved s' u := by
    intro u hs
    by_cases hu : u = (s.cpus c).current
    · rw [hu]
      exact .inl hleft
    rcases hs with hs | ⟨d, hd, hds⟩
    · rw [← hkept u hu] at hs
      exact .inl hs
    have hdc : d ≠ c := by
      rintro rfl
      exact hu hd.symm
    rw [← (hother d hdc).stack] at hds
    exact .inr ⟨d, (hother d hdc).current.trans hd, hds⟩
  have hnrsp : OwnStack n (s'.threads n).rsp := by
    by_cases hu : n = (s.cpus c).current
    · rw [hu]
      exact hleft
    rw [hkept n hu]
    rcases hnsaved with he | hs | ⟨d, hd, -⟩
    · exact absurd he hu
    · exact hs
    have hdc : d ≠ c := by
      rintro rfl
      exact hu hd.symm
    exact absurd hd (hnapart hdc (hd ▸ hn0)).1
  refine h.atCpu hc (ht.entered.current ▸ hn0) ht.entered.idle hother ht.isIdle hsaved ?_
    (fun d hdc hd => ?_) ?_ (fun d hdc hd => ?_) fun t hm => ?_
  · rw [ht.entered.current, ht.entered.stack]
    exact ⟨hnidle, (h.home c hc).2⟩
  · rw [ht.entered.current, ht.entered.stack]
    exact ⟨hnapart hdc hd, (h.apart d c hdc hd hc).2.1, (h.apart c d (Ne.symm hdc) hc hd).2.2⟩
  · unfold PhaseOk
    rw [ht.entered.phase, ht.entered.current]
    exact ⟨rfl, hnL, hnrsp⟩
  · have hne := (h.apart d c hdc hd hc).1
    refine h.phase_keep hd (hother d hdc) (fun hnot hm => ?_) (hkept _ hne)
      fun hr => (ht.running _ (hnapart hdc hd).1 hr).1
    rcases hfrom _ hm with hm | ⟨he, -⟩
    · exact hnot hm
    · exact hne he
  have htn : t ≠ n := by
    rintro rfl
    exact hnL hm
  rcases hfrom t hm with hm | ⟨rfl, hp⟩
  · obtain ⟨h1, h2, h3⟩ := h.parked t hm
    exact ⟨⟨h1, fun hr => h2 (ht.running t htn hr).1, (ht.isIdle t).trans h3⟩, hsaved t (h.saved t hm)⟩
  · exact ⟨⟨hc, fun hr => (ht.running _ htn hr).2 ⟨hp, rfl⟩, (ht.isIdle _).trans hp.2⟩, .inl hleft⟩

end

end Placed

end AetherOS.Sched
