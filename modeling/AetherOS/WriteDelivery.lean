import AetherOS.DescriptorDispatch

/-!
# What a write delivers

The sinks of `sys_write` answer in different ways: a pipe says how many bytes it took, a socket
takes a chunk or fails, and a file may take a part of a chunk. The loop counts a chunk as written
unless the answer is negative.
-/
namespace AetherOS.Proc
open List

/-- The bytes that the sink took of a write to which it answered `n`. -/
def Access.accepted (n : ℤ) : Access → List UInt8
  | .write .console bytes => bytes
  | .write (.socket _) bytes => if n < 0 then [] else bytes
  | .write (.pipe _) bytes => bytes.take n.toNat
  | .write (.file _) bytes => bytes.take n.toNat
  | .read _ _ => []

/-- The bytes that were accepted, in the order of the calls. -/
def accepted (env : Env) (log : List Access) : List UInt8 :=
  log.zipIdx.flatMap fun a => a.1.accepted (env.answer a.2)

/-- A file takes all of a chunk or fails. -/
def Access.Whole (n : ℤ) : Access → Prop
  | .write (.file _) bytes => n < 0 ∨ bytes.length ≤ n
  | _ => True

def WholeChunks (env : Env) (log : List Access) : Prop :=
  ∀ (k : ℕ) (a : Access), log[k]? = some a → a.Whole (env.answer k)

/-- The first `m` of the bytes were accepted since the calls `log`. -/
def Since (env : Env) (log log' : List Access) (bytes : List UInt8) (m : ℕ) : Prop :=
  m ≤ bytes.length ∧ accepted env log' = accepted env log ++ bytes.take m

/-- What the transfer of a chunk means when `done` bytes were accepted before. -/
def Delivered (env : Env) (done : ℕ) (chunk : List UInt8) (log : List Access) : Outcome × List Access → Prop
  | (.next, log') => Since env log log' chunk chunk.length
  | (.ret r, log') => r < 0 ∨ ∃ m : ℕ, r = done + m ∧ Since env log log' chunk m
  | (.waiting, _) => True

section

variable {env : Env} {log log' : List Access} {m : ℕ} {a : Access} {bytes : List UInt8} {t : Target}

lemma accepted_push (env : Env) (log : List Access) (a : Access) :
    accepted env (log ++ [a]) = accepted env log ++ a.accepted (env.answer log.length) := by
  simp [accepted, zipIdx_append]

lemma Since.refl (env : Env) (log : List Access) (bytes : List UInt8) : Since env log log bytes 0 :=
  ⟨Nat.zero_le _, by rw [take_zero, append_nil]⟩

lemma Since.trans {log'' : List Access} {n : ℕ} (h : Since env log log' bytes n)
    (h' : Since env log' log'' (bytes.drop n) m) : Since env log log'' bytes (n + m) := by
  have hle := h'.1
  rw [length_drop] at hle
  refine ⟨by have := h.1; omega, ?_⟩
  rw [h'.2, h.2, append_assoc, take_add]

lemma Since.of_take {k : ℕ} (h : Since env log log' (bytes.take k) m) : Since env log log' bytes m := by
  obtain ⟨hle, heq⟩ := h
  rw [length_take] at hle
  rw [take_take, Nat.min_eq_left (by omega)] at heq
  exact ⟨by omega, heq⟩

lemma drop_length_take (bytes : List UInt8) (k : ℕ) : bytes.drop k = bytes.drop (bytes.take k).length := by
  rw [length_take]
  rcases Nat.le_total k bytes.length with hle | hle
  · rw [Nat.min_eq_left hle]
  · rw [Nat.min_eq_right hle, drop_of_length_le hle, drop_length]

lemma since_push (hm : m ≤ bytes.length)
    (ha : a.accepted (env.answer log.length) = bytes.take m) : Since env log (log ++ [a]) bytes m :=
  ⟨hm, by rw [accepted_push, ha]⟩

lemma WholeChunks.of_grows (h : WholeChunks env log') (hgrows : Grows t log log') : WholeChunks env log := by
  obtain ⟨new, rfl, -⟩ := hgrows
  intro k a ha
  obtain ⟨hlt, -⟩ := List.getElem?_eq_some_iff.mp ha
  exact h k a (by rw [getElem?_append_left hlt, ha])

lemma WholeChunks.at_length (h : WholeChunks env log')
    (hgrows : Grows t (log ++ [a]) log') : a.Whole (env.answer log.length) :=
  h.of_grows hgrows log.length a (by simp)

lemma WholeChunks.push (h : WholeChunks env log) (ha : a.Whole (env.answer log.length)) :
    WholeChunks env (log ++ [a]) := by
  intro k b hb
  rcases Nat.lt_trichotomy k log.length with hk | rfl | hk
  · exact h k b (by rwa [getElem?_append_left hk] at hb)
  · simp only [getElem?_concat_length, Option.some.injEq] at hb
    exact hb ▸ ha
  · rw [getElem?_eq_none (by rw [length_append, length_singleton]; omega)] at hb
    cases hb

lemma pipeChunk_delivered (idx : ℤ) (done fuel w : ℕ) (rest : List UInt8) (log : List Access) :
    Delivered env (done + w) rest log (pipeChunk env idx done fuel w rest log) := by
  induction fuel generalizing w rest log with
  | zero => trivial
  | succ fuel ih =>
    rw [pipeChunk]
    split
    next hempty =>
      rw [length_eq_zero_iff] at hempty
      subst hempty
      exact .refl env log []
    simp only
    split
    next hneg =>
      refine .inr ⟨0, ?_, since_push (Nat.zero_le _) ?_⟩
      · split <;> omega
      · rw [Access.accepted, Int.toNat_of_nonpos (by omega)]
    rcases Nat.lt_or_ge rest.length (env.answer log.length).toNat with hgt | hle
    · -- nothing is left of the chunk
      rw [drop_of_length_le hgt.le]
      cases fuel with
      | zero => trivial
      | succ fuel =>
        exact since_push (Nat.le_refl _) (by rw [Access.accepted, take_of_length_le hgt.le, take_length])
    have hpart : Since env log (log ++ [.write (.pipe idx) rest]) rest (env.answer log.length).toNat :=
      since_push hle rfl
    have hrest := ih (w + (env.answer log.length).toNat) (rest.drop (env.answer log.length).toNat)
      (log ++ [.write (.pipe idx) rest])
    generalize (env.answer log.length).toNat = n at hpart hrest ⊢
    generalize pipeChunk env idx done fuel (w + n) (rest.drop n) (log ++ [.write (.pipe idx) rest]) = r at hrest ⊢
    rcases r with ⟨_ | r | _, log'⟩
    · have hall := hpart.trans hrest
      rwa [length_drop, Nat.add_sub_cancel' hpart.1] at hall
    · rcases hrest with hneg | ⟨m, hm, hsince⟩
      · exact .inl hneg
      · exact .inr ⟨n + m, by omega, hpart.trans hsince⟩
    · trivial

lemma writeChunk_delivered (fuel done : ℕ) (chunk : List UInt8) (log : List Access) (t : Target)
    (h : WholeChunks env (writeChunk env fuel done chunk log t).2) :
    Delivered env done chunk log (writeChunk env fuel done chunk log t) := by
  cases t with
  | console => exact since_push (Nat.le_refl _) take_length.symm
  | pipe idx => exact pipeChunk_delivered idx done fuel 0 chunk log
  | socket idx =>
    simp only [writeChunk]
    split
    next hneg =>
      by_cases hdone : done = 0
      · exact .inl (by rw [if_neg (not_not.mpr hdone)]; decide)
      · refine .inr ⟨0, by rw [if_pos hdone]; omega, since_push (Nat.zero_le _) (if_pos hneg)⟩
    next hpos => exact since_push (Nat.le_refl _) ((if_neg hpos).trans take_length.symm)
  | file vfd =>
    simp only [writeChunk] at h ⊢
    split
    next hneg =>
      by_cases hdone : done = 0
      · exact .inl (by rw [if_neg (not_not.mpr hdone)]; exact hneg)
      · refine .inr ⟨0, by rw [if_pos hdone]; omega, since_push (Nat.zero_le _) ?_⟩
        rw [Access.accepted, Int.toNat_of_nonpos (by omega)]
    next hpos =>
      rw [if_neg hpos] at h
      have hwhole := h.at_length (Grows.refl (.file vfd) _)
      refine since_push (Nat.le_refl _) ?_
      have hle := hwhole.resolve_left hpos
      rw [Access.accepted, take_of_length_le (by omega), take_length]

lemma writeLoop_delivered {r : ℤ} (fuel done : ℕ) (data : List UInt8) (log : List Access)
    (h : WholeChunks env (writeLoop env t fuel done data log).2)
    (hr : (writeLoop env t fuel done data log).1 = some r) (h0 : 0 ≤ r) :
    ∃ m : ℕ, r = done + m ∧ Since env log (writeLoop env t fuel done data log).2 data m := by
  induction fuel generalizing done data log with
  | zero => cases hr
  | succ fuel ih =>
    rw [writeLoop] at h hr ⊢
    split at hr
    next hempty =>
      rw [if_pos hempty]
      exact ⟨0, (Option.some.inj hr).symm, .refl env log data⟩
    rename_i hne
    rw [if_neg hne] at h ⊢
    split at hr
    next hcopied =>
      rw [if_pos hcopied]
      cases hr
      refine ⟨0, ?_, .refl env log data⟩
      split at h0 <;> omega
    next hcopied =>
      rw [if_neg hcopied] at h ⊢
      have hchunk : _ → Delivered env done _ log _ := writeChunk_delivered (fuel + 1) done (data.take kbufSize) log t
      rcases hc : writeChunk env (fuel + 1) done (data.take kbufSize) log t with ⟨_ | r' | _, log1⟩
      · simp only [hc] at h hr hchunk ⊢
        rw [drop_length_take] at h hr ⊢
        obtain ⟨m, hm, hrest⟩ := ih _ _ _ h hr
        have hfirst := hchunk (h.of_grows (writeLoop_grows env t fuel _ _ log1))
        exact ⟨(data.take kbufSize).length + m, by omega, hfirst.of_take.trans hrest⟩
      · simp only [hc] at h hr hchunk ⊢
        cases hr
        obtain ⟨m, hm, hsince⟩ := (hchunk h).resolve_left (by omega)
        exact ⟨m, hm, hsince.of_take⟩
      · rw [hc] at hr
        cases hr

/-- A file accepts at most what is counted, and all of it only in whole chunks. -/
lemma writeLoop_counts {r : ℤ} (vfd : ℤ) (fuel done : ℕ) (data : List UInt8)
    (log : List Access) (hr : (writeLoop env (.file vfd) fuel done data log).1 = some r) (h0 : 0 ≤ r) :
    (accepted env (writeLoop env (.file vfd) fuel done data log).2).length + done ≤
      (accepted env log).length + r ∧
    ((accepted env (writeLoop env (.file vfd) fuel done data log).2).length + done =
      (accepted env log).length + r → WholeChunks env log →
        WholeChunks env (writeLoop env (.file vfd) fuel done data log).2) := by
  induction fuel generalizing done data log with
  | zero => cases hr
  | succ fuel ih =>
    rw [writeLoop] at hr ⊢
    by_cases hempty : data.length = 0
    · rw [if_pos hempty] at hr ⊢
      cases hr
      exact ⟨le_refl _, fun _ h => h⟩
    rw [if_neg hempty] at hr ⊢
    by_cases hcopied : (!env.copied done) = true
    · rw [if_pos hcopied] at hr ⊢
      cases hr
      refine ⟨?_, fun _ h => h⟩
      revert h0
      dsimp only
      split <;> omega
    rw [if_neg hcopied] at hr ⊢
    simp only [writeChunk] at hr ⊢
    have hpush := congrArg length
      (accepted_push env log (.write (.file vfd) (data.take kbufSize)))
    rw [length_append, Access.accepted, length_take] at hpush
    by_cases hneg : env.answer log.length < 0
    · simp only [if_pos hneg] at hr ⊢
      cases hr
      refine ⟨?_, fun _ h => h.push (.inl hneg)⟩
      revert h0
      split <;> omega
    · simp only [if_neg hneg] at hr ⊢
      obtain ⟨hle, hwhole⟩ := ih _ _ _ hr
      refine ⟨by omega, fun heq h => hwhole (by omega) (h.push (.inr ?_))⟩
      omega

end

/-- A descriptor table with a file. -/
def oneFile : FdTable := fun fd => ⟨decide (fd.val = 3), .file, 0⟩

/-- The sinks answer 1 to every call. -/
def oneByte : Env := ⟨true, fun _ => 1, fun _ => true⟩

end AetherOS.Proc
