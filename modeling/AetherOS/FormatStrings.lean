import AetherOS.Scan
import Mathlib

/-!
# Format strings

`vfmt` of the C library walks over the format with one cursor. Its loop moves the cursor on
after every piece, also after a conversion that stopped at the terminator.
-/
namespace AetherOS.Libc
open Buffers Buffers.Scan List

/-- `fmt_ctx_t`, without a capacity for the standard output, with the characters put and the
number of arguments taken. -/
structure FmtCtx where
  cap : Option ℕ
  out : List Char
  ended : Bool
  taken : ℕ

/-- The words that `va_arg` takes, and the strings they may point to. -/
structure Args where
  word : ℕ → UInt64
  str : UInt64 → List Char

def ctxPutc (x : FmtCtx) (c : Char) : FmtCtx :=
  if x.cap.all (x.out.length + 1 < ·) then { x with out := x.out ++ [c] } else x

def ctxPuts (x : FmtCtx) (s : List Char) : FmtCtx := s.foldl ctxPutc x

def ctxUintW (x : FmtCtx) (v base : ℕ) (upper : Bool) (width : ℤ) : FmtCtx :=
  let digit i := if upper then i.digitChar.toUpper else i.digitChar
  let buf := if v = 0 then ['0'] else (Nat.digits base v).map digit
  ctxPuts x (replicate (width - buf.length).toNat ' ' ++ buf.reverse)

def ctxLongW (x : FmtCtx) (v width : ℤ) : FmtCtx :=
  if v < 0 then ctxUintW (ctxPutc x '-') (-v).toNat 10 false (width - 1) else ctxUintW x v.toNat 10 false width

def char (p : ℕ) : Scan FmtCtx Char := do
  let b ← byte p
  pure (Char.ofUInt8 b)

/-- The loop over the digits of a width. -/
def parseWidth : ℕ → ℤ → ℕ → Scan FmtCtx (Option (ℤ × ℕ))
  | 0, _, _ => pure none
  | fuel + 1, width, p => do
    let c ← char p
    if c.isDigit then parseWidth fuel ((width * 10 + (c.toNat - 48)).bmod (2 ^ 32)) (p + 1)
    else pure (some (width, p))

/-- Put characters; the cursor stays. -/
def put (p : ℕ) (f : FmtCtx → FmtCtx) : Scan FmtCtx ℕ := do
  modify f
  pure p

def putArg (a : Args) (p : ℕ) (f : FmtCtx → UInt64 → FmtCtx) : Scan FmtCtx ℕ :=
  put p fun x => f { x with taken := x.taken + 1 } (a.word x.taken)

/-- What follows `%l`, `%ll` included. -/
def convertLong (a : Args) (width : ℤ) (p : ℕ) : Scan FmtCtx ℕ := do
  let l ← char p
  let p := if l = 'l' then p + 1 else p
  let c ← char p
  if c = 'd' then putArg a p fun x v => ctxLongW x v.toInt64.toInt width
  else if c = 'u' then putArg a p fun x v => ctxUintW x v.toNat 10 false width
  else if c = 'x' then putArg a p fun x v => ctxUintW x v.toNat 16 false width
  else put p (ctxPuts · ['%', 'l', c])

/-- The `switch`, with the cursor where it leaves it. -/
def convert (a : Args) (width : ℤ) (p : ℕ) : Scan FmtCtx ℕ := do
  let c ← char p
  if c = 's' then putArg a p fun x v => ctxPuts x (if v = 0 then "(null)".toList else a.str v)
  else if c = 'd' then putArg a p fun x v => ctxLongW x v.toUInt32.toInt32.toInt width
  else if c = 'u' then putArg a p fun x v => ctxUintW x v.toUInt32.toNat 10 false width
  else if c = 'x' then putArg a p fun x v => ctxUintW x v.toUInt32.toNat 16 false width
  else if c = 'X' then putArg a p fun x v => ctxUintW x v.toUInt32.toNat 16 true width
  else if c = 'l' then convertLong a width (p + 1)
  else if c = 'c' then putArg a p fun x v => ctxPutc x (Char.ofUInt8 v.toUInt8)
  else if c = '%' then put p (ctxPutc · c)
  else put p (ctxPuts · ['%', c])

/-- `vfmt` from the cursor on; there is no result when the fuel runs out. -/
def vfmt (a : Args) : ℕ → ℕ → Scan FmtCtx (Option ℤ)
  | 0, _ => pure none
  | fuel + 1, p => do
    let c ← char p
    if c = '\x00' then do
      modify fun x => { x with ended := x.cap.any (x.out.length < ·) }
      let x ← get
      pure (some (x.cap.elim 0 fun _ => (x.out.length : ℤ).bmod (2 ^ 32)))
    else if c ≠ '%' then do
      let p ← put p (ctxPutc · c)
      vfmt a fuel (p + 1)
    else do
      match ← parseWidth fuel 0 (p + 1) with
      | none => pure none
      | some (width, p) => do
        let p ← convert a width p
        vfmt a fuel (p + 1)

/-- Where a format stands: outside of conversions, in front of or inside a width, behind an `l`
or behind two. -/
inductive Mode
  | text | width | long | longLong

def Mode.next : Mode → Char → Mode
  | .text, c => if c = '%' then .width else .text
  | .width, c => if c.isDigit then .width else if c = 'l' then .long else .text
  | .long, c => if c = 'l' then .longLong else .text
  | .longLong, _ => .text

/-- The format does not end inside of a conversion. -/
def Complete (fmt : List Char) : Prop := fmt.foldl Mode.next .text = .text

/-- The characters of the list stand at `p`. -/
def TextAt (mem : ℕ → UInt8) : ℕ → List Char → Prop
  | _, [] => True
  | p, c :: l => Char.ofUInt8 (mem p) = c ∧ TextAt mem (p + 1) l

/-- The rest of a format from `p` on, which ends in the mode `e`, with a terminator in front of
`n`. -/
def Rest (mem : ℕ → UInt8) (n : ℕ) (e m : Mode) (p : ℕ) : Prop :=
  ∃ l, '\x00' ∉ l ∧ l.foldl Mode.next m = e ∧ TextAt mem p (l ++ ['\x00']) ∧ p + l.length + 1 = n

/-- A conversion from `p` leaves the cursor at `q`: the rest of the format follows, or the
conversion stopped at the terminator. -/
def Behind (mem : ℕ → UInt8) (n : ℕ) (e : Mode) (p q : ℕ) : Prop :=
  p ≤ q ∧ (Rest mem n e .text (q + 1) ∨ q + 1 = n ∧ e ≠ .text)

/-- The computation stays within the first `n` bytes, with a result as in `P`. -/
def Yields {α : Type} (mem : ℕ → UInt8) (n : ℕ) (x : Scan FmtCtx α) (P : α → Prop) : Prop :=
  ∀ s, InsideAt mem n s x ∧ P (x mem s).1

section

variable {a : Args} {mem : ℕ → UInt8} {p fuel n : ℕ} {e m : Mode} {width : ℤ} {α : Type}
  {P : α → Prop} {f : Char → Scan FmtCtx α}

lemma insideAt_char_bind (s : FmtCtx) : InsideAt mem n s (char p >>= f) ↔
    p < n ∧ InsideAt mem n s (f (Char.ofUInt8 (mem p))) := insideAt_byte_bind p (f ∘ Char.ofUInt8)

lemma insideAt_put (f : FmtCtx → FmtCtx) (s : FmtCtx) : InsideAt mem n s (put p f) :=
  (insideAt_modify_bind f _).mpr (insideAt_pure p)

namespace Yields

lemma pure {v : α} (hv : P v) : Yields mem n (Pure.pure v) P := fun _ => ⟨insideAt_pure v, hv⟩

lemma char_bind (hp : p < n) (hf : Yields mem n (f (Char.ofUInt8 (mem p))) P) :
    Yields mem n (char p >>= f) P :=
  fun s => ⟨(insideAt_char_bind s).mpr ⟨hp, (hf s).1⟩, (hf s).2⟩

lemma put {f : FmtCtx → FmtCtx} {P : ℕ → Prop} (hp : P p) : Yields mem n (Libc.put p f) P :=
  fun s => ⟨insideAt_put f s, hp⟩

end Yields

namespace Rest

lemma lt (h : Rest mem n e m p) : p < n := by
  obtain ⟨l, -, -, -, hn⟩ := h
  omega

/-- A character that is not the terminator is read. -/
lemma step (h : Rest mem n e m p) (hc : Char.ofUInt8 (mem p) ≠ '\x00') :
    Rest mem n e (m.next (Char.ofUInt8 (mem p))) (p + 1) := by
  obtain ⟨l, h0, hl, ht, hn⟩ := h
  cases l with
  | nil => exact absurd ht.1 hc
  | cons c l =>
    rw [length_cons] at hn
    rw [ht.1]
    exact ⟨l, not_mem_of_not_mem_cons h0, hl, ht.2, by omega⟩

lemma at_end (h : Rest mem n e m p) (hc : Char.ofUInt8 (mem p) = '\x00') : m = e ∧ p + 1 = n := by
  obtain ⟨l, h0, hl, ht, hn⟩ := h
  cases l with
  | nil => exact ⟨hl, hn⟩
  | cons c l => exact absurd (mem_cons.mpr (.inl (hc.symm.trans ht.1))) h0

/-- The last character of a conversion, or the terminator in its place. -/
lemma behind {q : ℕ} (h : Rest mem n e m q) (hpq : p ≤ q) (hm : m ≠ .text)
    (hlast : m.next (Char.ofUInt8 (mem q)) = .text) : Behind mem n e p q := by
  by_cases hc : Char.ofUInt8 (mem q) = '\x00'
  · obtain ⟨rfl, hn⟩ := h.at_end hc
    exact ⟨hpq, .inr ⟨hn, hm⟩⟩
  · exact ⟨hpq, .inl (hlast ▸ h.step hc)⟩

/-- The loop over the digits stops before a character that is none. -/
lemma parseWidth (h : Rest mem n e .width p) : Yields mem n (parseWidth fuel width p) fun r =>
    (n ≤ p + fuel → r ≠ none) ∧
      ∀ x ∈ r, p ≤ x.2 ∧ Rest mem n e .width x.2 ∧ (Char.ofUInt8 (mem x.2)).isDigit = false := by
  induction fuel generalizing p width with
  | zero =>
    have hlt := h.lt
    exact .pure ⟨fun hle => by omega, by simp⟩
  | succ fuel ih =>
    refine .char_bind h.lt ?_
    cases hd : (Char.ofUInt8 (mem p)).isDigit with
    | false => exact .pure (by simp [h, hd])
    | true =>
      have hnext := h.step fun h0 => by simp [h0] at hd
      rw [Mode.next, if_pos hd] at hnext
      intro s
      obtain ⟨hin, hsome, hr⟩ := ih hnext s
      refine ⟨hin, fun hle => hsome (by omega), fun x hx => ?_⟩
      obtain ⟨hle, hx⟩ := hr x hx
      exact ⟨by omega, hx⟩

lemma convertLong (h : Rest mem n e .long p) : Yields mem n (convertLong a width p) (Behind mem n e p) := by
  refine .char_bind h.lt ?_
  by_cases hl : Char.ofUInt8 (mem p) = 'l'
  · have hnext := h.step (by rw [hl]; decide)
    rw [hl] at hnext
    simp only [if_pos hl]
    refine .char_bind hnext.lt ?_
    split_ifs <;> exact .put (hnext.behind (Nat.le_succ p) Mode.noConfusion rfl)
  · simp only [if_neg hl]
    refine .char_bind h.lt ?_
    split_ifs <;> exact .put (h.behind (Nat.le_refl p) Mode.noConfusion (if_neg hl))

lemma convert (h : Rest mem n e .width p) (hd : (Char.ofUInt8 (mem p)).isDigit = false) :
    Yields mem n (convert a width p) (Behind mem n e p) := by
  refine .char_bind h.lt ?_
  by_cases hl : Char.ofUInt8 (mem p) = 'l'
  · have hnext := h.step (by rw [hl]; decide)
    rw [hl] at hnext ⊢
    intro s
    obtain ⟨hin, hle, hr⟩ : InsideAt mem n s (Libc.convertLong a width (p + 1)) ∧ _ := convertLong hnext s
    exact ⟨hin, Nat.le_of_succ_le hle, hr⟩
  · have hput := h.behind (Nat.le_refl p) Mode.noConfusion (by rw [Mode.next, hd]; exact if_neg hl)
    split_ifs <;> exact .put hput

/-- The loop stays inside of a complete format; a format that ends inside of a conversion makes it
step over the terminator. -/
lemma vfmt {s : FmtCtx} (h : Rest mem n e .text p) :
    (e = .text → InsideAt mem n s (Libc.vfmt a fuel p)) ∧
      (n < p + fuel → InsideAt mem n s (Libc.vfmt a fuel p) → e = .text) := by
  induction fuel generalizing p s with
  | zero =>
    have hlt := h.lt
    exact ⟨fun _ => insideAt_pure none, fun hfuel => by omega⟩
  | succ fuel ih =>
    rw [Libc.vfmt, insideAt_char_bind, and_iff_right h.lt]
    by_cases h0 : Char.ofUInt8 (mem p) = '\x00'
    · rw [if_pos h0]
      exact ⟨fun _ => by simp, fun _ _ => (h.at_end h0).1.symm⟩
    have hnext := h.step h0
    rw [if_neg h0]
    by_cases hc : Char.ofUInt8 (mem p) = '%'
    · rw [hc] at hnext ⊢
      obtain ⟨hin, hsome, hwidth⟩ : InsideAt mem n s (Libc.parseWidth fuel 0 (p + 1)) ∧ _ :=
        hnext.parseWidth s
      rw [if_neg (not_not.mpr rfl), insideAt_bind, and_iff_right hin]
      generalize (Libc.parseWidth fuel 0 (p + 1)).after mem s = s'
      cases hr : (Libc.parseWidth fuel 0 (p + 1) mem s).1 with
      | none => exact ⟨fun _ => insideAt_pure none, fun hfuel => absurd hr (hsome (by omega))⟩
      | some r =>
        obtain ⟨hle, hrest, hd⟩ := hwidth r hr
        obtain ⟨hin, hcursor, hconv⟩ : InsideAt mem n s' (Libc.convert a r.1 r.2) ∧ _ := hrest.convert hd s'
        simp only [insideAt_bind, hin, true_and]
        rcases hconv with hrest | ⟨hend, he⟩
        · exact ⟨(ih hrest).1, fun hfuel => (ih hrest).2 (by omega)⟩
        refine ⟨fun htext => absurd htext he, fun hfuel hin => ?_⟩
        -- the next round reads the byte behind the terminator
        rw [hend] at hin
        cases fuel with
        | zero => omega
        | succ fuel => exact absurd ((insideAt_char_bind _).mp hin).1 (Nat.lt_irrefl n)
    · rw [Mode.next, if_neg hc] at hnext
      rw [if_pos hc, insideAt_bind, and_iff_right (insideAt_put _ s)]
      exact ⟨(ih hnext).1, fun hfuel => (ih hnext).2 (by omega)⟩

end Rest

end

/-- Exactly for the formats that do not end inside of a conversion, `vfmt` reads the format and
its terminator only. -/
theorem vfmt_inside_iff {mem : ℕ → UInt8} {p : ℕ} {fmt : List Char} (h0 : '\x00' ∉ fmt)
    (ht : TextAt mem p (fmt ++ ['\x00'])) (a : Args) :
    (∀ fuel, InsideOf mem (p + fmt.length + 1) (vfmt a fuel p)) ↔ Complete fmt := by
  have hrest : Rest mem (p + fmt.length + 1) (fmt.foldl Mode.next .text) .text p := ⟨fmt, h0, rfl, ht, rfl⟩
  constructor
  · intro hin
    exact hrest.vfmt.2 (by omega) (hin (fmt.length + 2) ⟨none, [], false, 0⟩)
  · intro hf fuel s
    exact hrest.vfmt.1 hf

/-- A string in memory. -/
def stringAt (l : List Char) (i : ℕ) : UInt8 := (l.getD i '\x00').toUInt8

theorem vfmt_inside_plain : InsideOf (stringAt ['%', 'd']) 3 (vfmt ⟨0, fun _ => []⟩ 9 0) := by
  have htext : TextAt (stringAt ['%', 'd']) 0 (['%', 'd'] ++ ['\x00']) := ⟨rfl, rfl, rfl, trivial⟩
  exact (vfmt_inside_iff (by decide) htext _).mpr rfl 9

/-- The byte behind the terminator of the format is read. -/
def ReadBeyond (fmt : List Char) : Prop :=
  ⟨fmt.length + 1, 1⟩ ∈ (vfmt ⟨0, fun _ => []⟩ 4 0).touched (stringAt fmt) ⟨none, [], false, 0⟩

/-- The terminator is passed by a format that ends after a percent sign, a width or an `l`. -/
theorem vfmt_overreads : ReadBeyond ['%'] ∧ ReadBeyond ['%', '5'] ∧ ReadBeyond ['%', 'l'] := by
  unfold ReadBeyond
  decide +kernel

end AetherOS.Libc
