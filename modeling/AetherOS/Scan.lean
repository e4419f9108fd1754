import Mathlib.Data.List.GetD
import Mathlib.Tactic.Common

/-!
# Computations that read a buffer

A parser follows offsets into a buffer, reads fields and hands parts of the buffer on. Here it
is a computation over a state that also records every range of the buffer it reads or hands
on. Memory is total, so a range outside the buffer is not an error of the computation: that it
stays inside is a property, with one rule for each way to build a computation.
-/
namespace AetherOS.Buffers
open List

/-- The bytes from `start` on. -/
structure Range where
  start : ℕ
  length : ℕ
  deriving DecidableEq, Repr

def readBytes (mem : ℕ → UInt8) (p n : ℕ) : List UInt8 := (List.range n).map fun i => mem (p + i)

/-- A computation with a result, the state after it, and the ranges it touched. -/
def Scan (σ α : Type) : Type := (ℕ → UInt8) → σ → α × σ × List Range

namespace Scan

variable {σ α β : Type}

instance : Monad (Scan σ) where
  pure a := fun _ s => (a, s, [])
  bind x f := fun mem s =>
    let r := x mem s
    let t := f r.1 mem r.2.1
    (t.1, t.2.1, r.2.2 ++ t.2.2)

/-- Read the `n` bytes at `p`, or hand them on. -/
def slice (p n : ℕ) : Scan σ (List UInt8) := fun mem s => (readBytes mem p n, s, [⟨p, n⟩])

/-- Read one byte. -/
def byte (p : ℕ) : Scan σ UInt8 := fun mem s => (mem p, s, [⟨p, 1⟩])

def get : Scan σ σ := fun _ s => (s, s, [])

def modify (f : σ → σ) : Scan σ Unit := fun _ s => ((), f s, [])

/-- The state after the computation. -/
def after (x : Scan σ α) (mem : ℕ → UInt8) (s : σ) : σ := (x mem s).2.1

/-- The ranges that the computation touches. -/
def touched (x : Scan σ α) (mem : ℕ → UInt8) (s : σ) : List Range := (x mem s).2.2

section

variable {mem : ℕ → UInt8} {s : σ}

@[simp] lemma after_pure (a : α) : (pure a : Scan σ α).after mem s = s := rfl

@[simp] lemma after_modify (f : σ → σ) : (modify f).after mem s = f s := rfl

@[simp] lemma after_slice_bind (p n : ℕ) (f : List UInt8 → Scan σ β) :
    (slice p n >>= f).after mem s = (f (readBytes mem p n)).after mem s := rfl

@[simp] lemma after_get_bind (f : σ → Scan σ β) : (get >>= f).after mem s = (f s).after mem s := rfl

@[simp] lemma after_modify_bind (f : σ → σ) (g : Unit → Scan σ β) :
    (modify f >>= g).after mem s = (g ()).after mem (f s) := rfl

end

/-- With this memory and in this state the computation touches the first `n` bytes only. -/
def InsideAt (mem : ℕ → UInt8) (n : ℕ) (s : σ) (x : Scan σ α) : Prop :=
  ∀ r ∈ x.touched mem s, r.start + r.length ≤ n

section

variable {mem : ℕ → UInt8} {n : ℕ} {s : σ}

lemma insideAt_bind (x : Scan σ α) (f : α → Scan σ β) : InsideAt mem n s (x >>= f) ↔
    InsideAt mem n s x ∧ InsideAt mem n (x.after mem s) (f (x mem s).1) := forall_mem_append

@[simp] lemma insideAt_pure (a : α) : InsideAt mem n s (pure a : Scan σ α) := forall_mem_nil _

@[simp] lemma insideAt_modify (f : σ → σ) : InsideAt mem n s (modify f) := forall_mem_nil _

@[simp] lemma insideAt_slice_bind (p k : ℕ) (f : List UInt8 → Scan σ β) :
    InsideAt mem n s (slice p k >>= f) ↔ p + k ≤ n ∧ InsideAt mem n s (f (readBytes mem p k)) :=
  forall_mem_cons

@[simp] lemma insideAt_byte_bind (p : ℕ) (f : UInt8 → Scan σ β) :
    InsideAt mem n s (byte p >>= f) ↔ p < n ∧ InsideAt mem n s (f (mem p)) := forall_mem_cons

@[simp] lemma insideAt_get_bind (f : σ → Scan σ β) :
    InsideAt mem n s (get >>= f) ↔ InsideAt mem n s (f s) := Iff.rfl

@[simp] lemma insideAt_modify_bind (f : σ → σ) (g : Unit → Scan σ β) :
    InsideAt mem n s (modify f >>= g) ↔ InsideAt mem n (f s) (g ()) := Iff.rfl

end

/-- With this memory the computation touches the first `n` bytes only. -/
def InsideOf (mem : ℕ → UInt8) (n : ℕ) (x : Scan σ α) : Prop := ∀ s, ∀ r ∈ x.touched mem s, r.start + r.length ≤ n

namespace InsideOf

variable {mem : ℕ → UInt8} {n : ℕ} {x : Scan σ α}

lemma bind {f : α → Scan σ β} (hx : InsideOf mem n x) (hf : ∀ s, InsideOf mem n (f (x mem s).1)) :
    InsideOf mem n (x >>= f) := by
  intro s r hr
  rcases mem_append.mp hr with hr | hr
  · exact hx s r hr
  · exact hf s _ r hr

lemma ite {c : Prop} [Decidable c] {y : Scan σ α} (hx : c → InsideOf mem n x) (hy : ¬c → InsideOf mem n y) :
    InsideOf mem n (if c then x else y) := by
  by_cases hc : c
  · rw [if_pos hc]
    exact hx hc
  · rw [if_neg hc]
    exact hy hc

end InsideOf

/-- Whatever the memory holds, the computation touches the first `n` bytes only. -/
def Inside (n : ℕ) (x : Scan σ α) : Prop :=
  ∀ mem s, ∀ r ∈ x.touched mem s, r.start + r.length ≤ n

namespace Inside

variable {n : ℕ}

lemma pure (a : α) : Inside n (Pure.pure a : Scan σ α) := by
  intro mem s r hr
  cases hr

lemma get : Inside n (Scan.get : Scan σ σ) := by
  intro mem s r hr
  cases hr

lemma modify (f : σ → σ) : Inside n (Scan.modify f) := by
  intro mem s r hr
  cases hr

lemma slice {p k : ℕ} (h : p + k ≤ n) : Inside n (Scan.slice p k : Scan σ (List UInt8)) := by
  intro mem s r hr
  obtain rfl := mem_singleton.mp hr
  exact h

lemma byte {p : ℕ} (h : p < n) : Inside n (Scan.byte p : Scan σ UInt8) := slice (p := p) (k := 1) h

lemma bind {x : Scan σ α} {f : α → Scan σ β} (hx : Inside n x) (hf : ∀ a, Inside n (f a)) : Inside n (x >>= f) :=
  fun mem => InsideOf.bind (hx mem) fun _ => hf _ mem

lemma ite {c : Prop} [Decidable c] {x y : Scan σ α} (hx : c → Inside n x) (hy : ¬c → Inside n y) :
    Inside n (if c then x else y) :=
  fun mem => InsideOf.ite (fun hc => hx hc mem) fun hc => hy hc mem

lemma guard {c : Prop} [Decidable c] {x : Scan σ Unit} (hx : ¬c → Inside n x) :
    Inside n (if c then Pure.pure () else x) := .ite (fun _ => .pure ()) hx

end Inside

lemma InsideOf.of {mem : ℕ → UInt8} {n : ℕ} {x : Scan σ α} (h : Inside n x) : InsideOf mem n x := h mem

end Scan

@[simp] lemma length_readBytes (mem : ℕ → UInt8) (p n : ℕ) : (readBytes mem p n).length = n := by
  simp [readBytes]

/-- The memory begins with the bytes of the list. -/
def Holds (mem : ℕ → UInt8) (l : List UInt8) : Prop := ∀ i (hi : i < l.length), mem i = l[i]

lemma readBytes_of_holds {mem : ℕ → UInt8} {l : List UInt8} (h : Holds mem l) {p n : ℕ} (hp : p + n ≤ l.length) :
    readBytes mem p n = (l.drop p).take n := by
  apply ext_getElem
  · simp only [readBytes, length_map, length_range, length_take, length_drop]
    omega
  intro i hi hi'
  simp only [readBytes, length_map, length_range] at hi
  simp only [readBytes, getElem_map, getElem_range, getElem_take, getElem_drop]
  exact h (p + i) (by omega)

lemma readBytes_middle {mem : ℕ → UInt8} {l : List UInt8} (h : Holds mem l) (front mid back : List UInt8)
    (hl : l = front ++ (mid ++ back)) : readBytes mem front.length mid.length = mid := by
  subst hl
  rw [readBytes_of_holds h (by simp), drop_left, take_left]

end AetherOS.Buffers
