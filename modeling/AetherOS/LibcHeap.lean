import Mathlib
import AetherOS.ByteMemory
import AetherOS.Runs
import AetherOS.Tiling

/-!
# The heap of the C library

`malloc` and `free` of the user library work in a static arena of 256 KiB. A block
starts with its total size and a flag; the only way from one block to the next is
to add the size. Addresses are offsets into the arena, and a null pointer is `none`.
-/
namespace AetherOS.Libc
open ByteMemory Tiling Runs Function Option Nat

def heapSz : ℕ := 256 * 1024
def hdrSz : ℕ := 16
def align : ℕ := 16

/-- `s_heap` and `s_init` -/
structure Arena where
  mem : Mem
  init : Bool

namespace Arena

def total (a : Arena) (b : ℕ) : ℕ := readLE a.mem 8 b
def used (a : Arena) (b : ℕ) : ℕ := readLE a.mem 8 (b + 8)
def setTotal (a : Arena) (b v : ℕ) : Arena := { a with mem := writeLE a.mem 8 b v }
def setUsed (a : Arena) (b v : ℕ) : Arena := { a with mem := writeLE a.mem 8 (b + 8) v }

end Arena

def heapInit (a : Arena) : Arena := { (a.setTotal 0 heapSz).setUsed 0 0 with init := true }

/-- `ALIGN_UP`, in the arithmetic of `size_t`. -/
def alignUp (n : ℕ) : ℕ := (n + align - 1) % 2 ^ 64 / align * align

/-- The total size a request asks for. -/
def needOf (n : ℕ) : ℕ :=
  let need := alignUp ((n + hdrSz) % 2 ^ 64)
  if need < hdrSz + align then hdrSz + align else need

/-- Cut the block `b` after `need` bytes; what is left becomes a free block. -/
def cut (a : Arena) (b need : ℕ) : Arena :=
  let rest := b + need
  let left := a.total b - need
  ((a.setTotal rest left).setUsed rest 0).setTotal b need

/-- Mark the free block `b` as used, cut if there is room for a second block. -/
def take (a : Arena) (b need : ℕ) : Arena :=
  let a := if a.total b ≥ (need + hdrSz + align) % 2 ^ 64 then cut a b need else a
  a.setUsed b 1

/-- The scan of `malloc` from `p` on; `none` when the fuel does not suffice. -/
def scan (a : Arena) (need : ℕ) : ℕ → ℕ → Option (Option ℕ × Arena)
  | 0, _ => none
  | fuel + 1, p =>
    if p < heapSz then
      if a.used p = 0 ∧ a.total p ≥ need then some (some (p + hdrSz), take a p need)
      else scan a need fuel (p + a.total p)
    else some (none, a)

/-- More steps than there can be blocks. -/
def scanFuel : ℕ := heapSz + 1

def malloc (a : Arena) (n : ℕ) : Option (Option ℕ × Arena) :=
  let a := if a.init then a else heapInit a
  if n = 0 then some (none, a) else scan a (needOf n) scanFuel 0

/-- The loop of `free` that takes over the free blocks behind `b`. -/
def coalesce (b : ℕ) : ℕ → Arena → Option Arena
  | 0, _ => none
  | fuel + 1, a =>
    let next := b + a.total b
    if next < heapSz then
      if a.used next ≠ 0 then some a
      else coalesce b fuel (a.setTotal b ((a.total b + a.total next) % 2 ^ 64))
    else some a

def free (a : Arena) : Option ℕ → Option Arena
  | none => some a
  | some ptr => coalesce (ptr - hdrSz) scanFuel (a.setUsed (ptr - hdrSz) 0)

/-! ## Runs of a program that uses the heap -/

/-- The arena and the pointers that were handed out and not freed. -/
structure Client where
  arena : Arena
  live : List ℕ

inductive Call where
  | malloc (n : ℕ)
  | free (ptr : Option ℕ)
  | store (ptr i : ℕ) (v : UInt8)

/-- Programs free null or a live pointer, and store into the payload of a live one. -/
def clientStep (c : Client) : Call → Client → Prop
  | .malloc n, c' => n < 2 ^ 64 ∧ ∃ p a, malloc c.arena n = some (p, a) ∧ c' = ⟨a, p.toList ++ c.live⟩
  | .free ptr, c' => (∀ p ∈ ptr, p ∈ c.live) ∧ ∃ a, free c.arena ptr = some a ∧
      c' = ⟨a, c.live.filter fun p => some p ≠ ptr⟩
  | .store ptr i v, c' => ptr ∈ c.live ∧ i + hdrSz < c.arena.total (ptr - hdrSz) ∧
      c' = { c with arena := { c.arena with mem := update c.arena.mem (ptr + i) v } }

/-- Before the first call; the arena holds anything. -/
def clientStart (c : Client) : Prop := c.arena.init = false ∧ c.live = []

/-! ## The invariant -/

/-- A multiple of 16, and room for a header and a payload. -/
def BlockSize (n : ℕ) : Prop := n % 16 = 0 ∧ 32 ≤ n

/-- The headers at `bs` tile the arena. -/
structure Tiled (a : Arena) (bs : List ℕ) : Prop where
  tiles : Tiles a.total BlockSize 0 bs heapSz
  flags : ∀ b ∈ bs, a.used b = 0 ∨ a.used b = 1

/-- The addresses behind the header of a block. -/
def payload (a : Arena) (b : ℕ) : Set ℕ := Set.Ico (b + hdrSz) (b + a.total b)

/-- From `a` to `a'` the used blocks that satisfy `P` keep their header and their payload. -/
def Keeps (P : ℕ → Prop) (a : Arena) (bs : List ℕ) (a' : Arena) (bs' : List ℕ) : Prop :=
  ∀ b ∈ bs, P b → a.used b = 1 → b ∈ bs' ∧ a'.total b = a.total b ∧ a'.used b = 1 ∧
    ∀ y, b + hdrSz ≤ y → y < b + a.total b → a'.mem y = a.mem y

section

variable (a : Arena) {b c y : ℕ} (v : ℕ)

lemma total_lt (b : ℕ) : a.total b < 2 ^ 64 := by
  have h := readLE_lt a.mem 8 b
  exact h

@[simp] lemma total_setTotal_same (b : ℕ) : (a.setTotal b v).total b = v % 2 ^ 64 :=
  readLE_writeLE_same _ _ _ _

@[simp] lemma used_setUsed_same (b : ℕ) : (a.setUsed b v).used b = v % 2 ^ 64 :=
  readLE_writeLE_same _ _ _ _

@[simp] lemma used_setTotal_same (b : ℕ) : (a.setTotal b v).used b = a.used b :=
  readLE_outside _ (.inl le_rfl)

@[simp] lemma total_setUsed_same (b : ℕ) : (a.setUsed b v).total b = a.total b :=
  readLE_outside _ (.inr le_rfl)

section

variable (h : b + hdrSz ≤ c ∨ c + hdrSz ≤ b)
include h

lemma total_setTotal : (a.setTotal b v).total c = a.total c :=
  readLE_outside _ (by simp only [hdrSz] at h; omega)

lemma used_setTotal : (a.setTotal b v).used c = a.used c :=
  readLE_outside _ (by simp only [hdrSz] at h; omega)

lemma total_setUsed : (a.setUsed b v).total c = a.total c :=
  readLE_outside _ (by simp only [hdrSz] at h; omega)

lemma used_setUsed : (a.setUsed b v).used c = a.used c :=
  readLE_outside _ (by simp only [hdrSz] at h; omega)

end

lemma mem_setTotal (h : y < b ∨ b + hdrSz ≤ y) : (a.setTotal b v).mem y = a.mem y :=
  writeLE_outside _ (by simp only [hdrSz] at h; omega)

lemma mem_setUsed (h : y < b ∨ b + hdrSz ≤ y) : (a.setUsed b v).mem y = a.mem y :=
  writeLE_outside _ (by simp only [hdrSz] at h; omega)

end

section

variable {a a' : Arena} {bs bs' l r : List ℕ} {b c n need y : ℕ}

lemma Keeps.refl (P : ℕ → Prop) (a : Arena) (bs : List ℕ) : Keeps P a bs a bs :=
  fun _ hb _ hu => ⟨hb, rfl, hu, fun _ _ _ => rfl⟩

lemma Keeps.trans {P : ℕ → Prop} {a'' : Arena} {bs'' : List ℕ} (h1 : Keeps P a bs a' bs')
    (h2 : Keeps P a' bs' a'' bs'') : Keeps P a bs a'' bs'' := by
  intro b hb hP hu
  obtain ⟨hb', ht', hu', hm'⟩ := h1 b hb hP hu
  obtain ⟨hb'', ht'', hu'', hm''⟩ := h2 b hb' hP hu'
  refine ⟨hb'', ht''.trans ht', hu'', fun y hy1 hy2 => ?_⟩
  rw [hm'' y hy1 (by omega), hm' y hy1 hy2]

lemma needOf_blockSize (n : ℕ) : BlockSize (needOf n) := by
  simp only [needOf]
  split_ifs with hsmall
  · exact ⟨rfl, le_rfl⟩
  · simp only [alignUp, hdrSz, align] at hsmall ⊢
    exact ⟨by omega, by omega⟩

-- a request near 2^64 wraps and gets the smallest block
example : needOf (2 ^ 64 - 16) = 32 := by decide

lemma Tiled.sep (h : Tiled a bs) (hb : b ∈ bs) (hc : c ∈ bs) (hne : b ≠ c) : b + hdrSz ≤ c ∨ c + hdrSz ≤ b := by
  have hb32 := (h.tiles.bounds b hb).2.2.2
  have hc32 := (h.tiles.bounds c hc).2.2.2
  have hap := h.tiles.apart hb hc hne
  simp only [hdrSz]
  omega

lemma Tiled.payload_apart (h : Tiled a bs) (hb : b ∈ bs) (hy1 : b + hdrSz ≤ y)
    (hy2 : y < b + a.total b) (hc : c ∈ bs) : y < c ∨ c + hdrSz ≤ y := by
  by_cases hne : b = c
  · rw [← hne]
    exact .inr hy1
  have hap := h.tiles.apart hb hc hne
  have hc32 := (h.tiles.bounds c hc).2.2.2
  simp only [hdrSz] at hy1 ⊢
  omega

lemma ne_of_mem_sides (h : Tiled a (l ++ b :: r)) (hc : c ∈ l ++ r) : b ≠ c := by
  have hnd : (l ++ b :: r).Nodup := by
    refine h.tiles.pairwise.imp_of_mem fun {x y} hx _ hxy => ?_
    have := (h.tiles.bounds x hx).2.2.2
    omega
  rw [List.nodup_middle, List.nodup_cons] at hnd
  rintro rfl
  exact hnd.1 hc

lemma scan_spec (a : Arena) (need : ℕ) {p : ℕ} {r : List ℕ} {fuel : ℕ} (ht : Tiles a.total BlockSize p r heapSz)
    (hf : r.length < fuel) : scan a need fuel p = some (none, a) ∨ ∃ b ∈ r, a.used b = 0 ∧ need ≤ a.total b ∧
      scan a need fuel p = some (some (b + hdrSz), take a b need) := by
  induction fuel generalizing p r with
  | zero => omega
  | succ fuel ih =>
    cases r with
    | nil =>
      have hp : p = heapSz := ht
      exact .inl (by simp [scan, hp])
    | cons b r =>
      have hb := ht.bounds b (by simp)
      obtain ⟨rfl, hok, hrest⟩ := ht
      have hlt : b < heapSz := by
        have := hok.2
        omega
      by_cases hfit : a.used b = 0 ∧ a.total b ≥ need
      · exact .inr ⟨b, by simp, hfit.1, hfit.2, by rw [scan, if_pos hlt, if_pos hfit]⟩
      rw [scan, if_pos hlt, if_neg hfit]
      rcases ih hrest (by simpa using hf) with h0 | ⟨c, hc, hcs⟩
      · exact .inl h0
      · exact .inr ⟨c, by simp [hc], hcs⟩

lemma Tiled.setUsed (h : Tiled a bs) (hb : b ∈ bs) {v : ℕ} (hv : v = 0 ∨ v = 1) :
    Tiled (a.setUsed b v) bs ∧ (a.setUsed b v).used b = v ∧ Keeps (· ≠ b) a bs (a.setUsed b v) bs := by
  have hmod : v % 2 ^ 64 = v := by omega
  have htotal : ∀ c ∈ bs, (a.setUsed b v).total c = a.total c := by
    intro c hc
    by_cases hne : b = c
    · rw [← hne, total_setUsed_same]
    · exact total_setUsed a v (h.sep hb hc hne)
  have hself : (a.setUsed b v).used b = v := by rw [used_setUsed_same, hmod]
  refine ⟨⟨h.tiles.congr htotal, fun c hc => ?_⟩, hself, fun c hc hP hu => ?_⟩
  · by_cases hne : b = c
    · rw [← hne, hself]
      exact hv
    · rw [used_setUsed a v (h.sep hb hc hne)]
      exact h.flags c hc
  · refine ⟨hc, htotal c hc, ?_, fun y hy1 hy2 => ?_⟩
    · rw [used_setUsed a v (h.sep hb hc (Ne.symm hP)), hu]
    · exact mem_setUsed a v (h.payload_apart hc hy1 hy2 hb)

section

variable (h : Tiled a (l ++ b :: r))
include h

lemma Tiled.inner_sep (hneed : 32 ≤ need) (hfit : need + 32 ≤ a.total b)
    (hc : c ∈ l ++ b :: r) : b + need + hdrSz ≤ c ∨ c + hdrSz ≤ b + need := by
  by_cases hne : b = c
  · subst hne
    simp only [hdrSz]
    omega
  have hap := h.tiles.apart (by simp) hc hne
  have hc32 := (h.tiles.bounds c hc).2.2.2
  simp only [hdrSz]
  omega

lemma cut_fields (hneed : BlockSize need) (hfit : need + 32 ≤ a.total b) :
    (cut a b need).total b = need ∧ (cut a b need).used b = a.used b ∧
      (cut a b need).total (b + need) = a.total b - need ∧ (cut a b need).used (b + need) = 0 ∧
      ∀ c ∈ l ++ r, (cut a b need).total c = a.total c ∧ (cut a b need).used c = a.used c := by
  have hbm : b ∈ l ++ b :: r := by simp
  have hlt := total_lt a b
  have haway := fun c hc => h.inner_sep (c := c) hneed.2 hfit hc
  have hrest := (haway b hbm).symm
  simp only [cut]
  refine ⟨?_, ?_, ?_, ?_, fun c hc => ?_⟩
  · rw [total_setTotal_same]
    omega
  · rw [used_setTotal_same, used_setUsed _ _ (haway b hbm), used_setTotal _ _ (haway b hbm)]
  · rw [total_setTotal _ _ hrest, total_setUsed_same, total_setTotal_same]
    omega
  · rw [used_setTotal _ _ hrest, used_setUsed_same]
    rfl
  have hcm := mem_middle.mpr (.inr hc : c = b ∨ c ∈ l ++ r)
  have hs := h.sep hbm hcm (ne_of_mem_sides h hc)
  constructor
  · rw [total_setTotal _ _ hs, total_setUsed _ _ (haway c hcm), total_setTotal _ _ (haway c hcm)]
  · rw [used_setTotal _ _ hs, used_setUsed _ _ (haway c hcm), used_setTotal _ _ (haway c hcm)]

lemma Tiled.cut (hfree : a.used b = 0) (hneed : BlockSize need)
    (hfit : need + 32 ≤ a.total b) : Tiled (cut a b need) (l ++ b :: (b + need) :: r) ∧
      Keeps (fun _ => True) a (l ++ b :: r) (cut a b need) (l ++ b :: (b + need) :: r) := by
  have hbm : b ∈ l ++ b :: r := by simp
  have hb16 := (h.tiles.bounds b hbm).2.2.1
  obtain ⟨htb, hub, htr, hur, hother⟩ := cut_fields h hneed hfit
  refine ⟨⟨?_, fun c hc => ?_⟩, fun c hc _ hu => ?_⟩
  · refine h.tiles.split (fun c hc => (hother c (by simp [hc])).1) (fun c hc => (hother c (by simp [hc])).1)
      htb ?_ hneed ?_
    · rw [htr]
      omega
    rw [htr]
    have h16 := hneed.1
    exact ⟨by omega, by omega⟩
  · rcases mem_middle.mp hc with rfl | hc
    · exact .inl (hub.trans hfree)
    rcases mem_middle.mp hc with rfl | hc
    · exact .inl hur
    · rw [(hother c hc).2]
      exact h.flags c (mem_middle.mpr (.inr hc))
  have hcb : c ≠ b := by
    rintro rfl
    omega
  have hside := (mem_middle.mp hc).resolve_left hcb
  refine ⟨mem_middle.mpr (.inr (mem_middle.mpr (.inr hside))), (hother c hside).1,
    by rw [(hother c hside).2, hu], fun y hy1 hy2 => ?_⟩
  have hyb := h.payload_apart hc hy1 hy2 hbm
  have hyr : y < b + need ∨ b + need + hdrSz ≤ y := by
    have hap := h.tiles.apart hbm hc (Ne.symm hcb)
    have h32 := hneed.2
    simp only [hdrSz] at hy1 ⊢
    omega
  simp only [Libc.cut]
  rw [mem_setTotal _ _ hyb, mem_setUsed _ _ hyr, mem_setTotal _ _ hyr]

end

lemma take_spec (h : Tiled a bs) (hb : b ∈ bs) (hfree : a.used b = 0) (hneed : BlockSize need)
    (hfit : need ≤ a.total b) : ∃ bs', Tiled (take a b need) bs' ∧ b ∈ bs' ∧ (take a b need).used b = 1 ∧
      need ≤ (take a b need).total b ∧ Keeps (fun _ => True) a bs (take a b need) bs' := by
  obtain ⟨l, r, rfl⟩ := List.append_of_mem hb
  obtain ⟨-, htop, -⟩ := h.tiles.bounds b hb
  have hwrap : (need + hdrSz + align) % 2 ^ 64 = need + 32 := by
    simp only [hdrSz, align, heapSz] at htop ⊢
    omega
  -- a block that is not in use in `a` is not among those to be kept
  have hnot : ∀ {x}, a.used x = 1 → x ≠ b := by
    rintro x hx rfl
    omega
  simp only [take, hwrap]
  split_ifs with hroom
  · obtain ⟨hcut, hk⟩ := h.cut hfree hneed hroom
    obtain ⟨hset, hu, hk'⟩ := hcut.setUsed (b := b) (by simp) (.inr rfl)
    refine ⟨_, hset, by simp, hu, ?_, fun x hx _ hux => ?_⟩
    · rw [total_setUsed_same, (cut_fields h hneed hroom).1]
    exact (Keeps.trans (fun x hx hP hu => hk x hx trivial hu) hk') x hx (hnot hux) hux
  · obtain ⟨hset, hu, hk'⟩ := h.setUsed (b := b) (by simp) (.inr rfl)
    exact ⟨_, hset, by simp, hu, by rwa [total_setUsed_same], fun x hx _ hux => hk' x hx (hnot hux) hux⟩

lemma coalesce_spec : ∀ {r : List ℕ} {fuel : ℕ} {a : Arena}, Tiled a (l ++ b :: r) → a.used b = 0 →
    r.length < fuel → ∃ a' bs', coalesce b fuel a = some a' ∧ Tiled a' bs' ∧
      Keeps (fun _ => True) a (l ++ b :: r) a' bs' := by
  intro r
  induction r with
  | nil =>
    intro fuel a h _ hf
    obtain ⟨k, rfl⟩ := exists_eq_succ_of_ne_zero (by omega : fuel ≠ 0)
    have hend := h.tiles.next_end
    exact ⟨a, _, by simp [coalesce, hend], h, .refl _ _ _⟩
  | cons c r ih =>
    intro fuel a h hfree hf
    obtain ⟨k, rfl⟩ := exists_eq_succ_of_ne_zero (by omega : fuel ≠ 0)
    have hc := h.tiles.next
    have hbm : b ∈ l ++ b :: c :: r := by simp
    have hcm : c ∈ l ++ b :: c :: r := by simp
    obtain ⟨-, hctop, hc16, hc32⟩ := h.tiles.bounds c hcm
    obtain ⟨-, -, hb16, hb32⟩ := h.tiles.bounds b hbm
    by_cases hu : a.used c ≠ 0
    · exact ⟨a, _, by simp [coalesce, ← hc, hu], h, .refl _ _ _⟩
    let m := a.setTotal b (a.total b + a.total c)
    have hstep : coalesce b (k + 1) a = coalesce b k m := by
      have hsum : (a.total b + a.total c) % 2 ^ 64 = a.total b + a.total c := by
        simp only [heapSz] at hctop
        omega
      rw [coalesce]
      simp only [← hc]
      rw [if_pos (by omega), if_neg hu, hsum]
    have hbt : m.total b = a.total b + a.total c := by
      rw [total_setTotal_same]
      simp only [heapSz] at hctop
      omega
    have hother : ∀ x ∈ l ++ r, m.total x = a.total x ∧ m.used x = a.used x := by
      intro x hx
      have hx' : x ∈ l ++ c :: r := mem_middle.mpr (.inr hx)
      have hs := h.sep hbm (mem_middle.mpr (.inr hx')) (ne_of_mem_sides h hx')
      exact ⟨total_setTotal a _ hs, used_setTotal a _ hs⟩
    have hjoin : Tiled m (l ++ b :: r) := by
      refine ⟨h.tiles.join (fun x hx => (hother x (by simp [hx])).1) (fun x hx => (hother x (by simp [hx])).1)
        hbt ⟨by omega, by omega⟩, fun x hx => ?_⟩
      rcases mem_middle.mp hx with rfl | hx
      · rw [used_setTotal_same]
        exact .inl hfree
      · rw [(hother x hx).2]
        exact h.flags x (mem_middle.mpr (.inr (mem_middle.mpr (.inr hx))))
    have hkeep : Keeps (fun _ => True) a (l ++ b :: c :: r) m (l ++ b :: r) := by
      intro x hx _ hux
      have hxb : x ≠ b := by
        rintro rfl
        omega
      have hxc : x ≠ c := by
        rintro rfl
        omega
      have hx' : x ∈ l ++ r := (mem_middle.mp ((mem_middle.mp hx).resolve_left hxb)).resolve_left hxc
      refine ⟨mem_middle.mpr (.inr hx'), (hother x hx').1, by rw [(hother x hx').2, hux], fun y hy1 hy2 => ?_⟩
      exact mem_setTotal a _ (h.payload_apart hx hy1 hy2 hbm)
    obtain ⟨a', bs', he, ht, hk⟩ := ih hjoin (by rw [used_setTotal_same, hfree]) (by simpa using hf)
    exact ⟨a', bs', by rw [succ_eq_add_one, hstep, he], ht, hkeep.trans hk⟩

lemma heapInit_tiled (a : Arena) : Tiled (heapInit a) [0] := by
  have htotal : (heapInit a).total 0 = heapSz := by
    have hsame : (heapInit a).total 0 = ((a.setTotal 0 heapSz).setUsed 0 0).total 0 := rfl
    rw [hsame, total_setUsed_same, total_setTotal_same]
    rfl
  have hused : (heapInit a).used 0 = 0 := by
    have hsame : (heapInit a).used 0 = ((a.setTotal 0 heapSz).setUsed 0 0).used 0 := rfl
    rw [hsame, used_setUsed_same]
    rfl
  refine ⟨⟨rfl, ?_, ?_⟩, ?_⟩
  · rw [htotal]
    exact ⟨rfl, by decide⟩
  · show 0 + (heapInit a).total 0 = heapSz
    rw [htotal, zero_add]
  intro b hb
  rw [List.mem_singleton.mp hb]
  exact .inl hused

lemma Tiled.length_lt (h : Tiled a bs) : bs.length < scanFuel := by
  have hlen := h.tiles.length_le fun n hn => by have := hn.2; omega
  simp only [scanFuel]
  omega

lemma Tiled.store (h : Tiled a bs) (hb : b ∈ bs) (hy1 : b + hdrSz ≤ y) (hy2 : y < b + a.total b)
    (v : UInt8) : Tiled { a with mem := update a.mem y v } bs ∧
      ∀ c ∈ bs, Arena.used { a with mem := update a.mem y v } c = a.used c := by
  have hfield : ∀ c ∈ bs, ∀ k ≤ 8, readLE (update a.mem y v) 8 (c + k) = readLE a.mem 8 (c + k) := by
    intro c hc k hk
    have hout := h.payload_apart hb hy1 hy2 hc
    simp only [hdrSz] at hout
    exact readLE_congr fun x hx1 hx2 => update_of_ne (by omega) _ _
  have hused := fun c hc => hfield c hc 8 le_rfl
  refine ⟨⟨h.tiles.congr fun c hc => hfield c hc 0 (Nat.zero_le _), fun c hc => ?_⟩, hused⟩
  have hflag : Arena.used { a with mem := update a.mem y v } c = a.used c := hused c hc
  rw [hflag]
  exact h.flags c hc

end

/-! ## Whole runs -/

/-- Live pointers are the payloads of used blocks, each of its own. -/
structure ClientInv (c : Client) (bs : List ℕ) : Prop where
  tiled : Tiled c.arena bs
  live : ∀ p ∈ c.live, ∃ b ∈ bs, p = b + hdrSz ∧ c.arena.used b = 1
  distinct : c.live.Nodup

/-- Nothing is live before the arena is set up. -/
def ClientOk (c : Client) : Prop :=
  if c.arena.init then ∃ bs, ClientInv c bs else c.live = []

section

variable {c c' : Client} {bs : List ℕ} {p : ℕ} {a : Arena}

lemma ClientInv.malloc (h : ClientInv c bs) (hinit : c.arena.init = true) (n : ℕ) :
    ∃ p a bs', malloc c.arena n = some (p, a) ∧ a.init = true ∧ ClientInv ⟨a, p.toList ++ c.live⟩ bs' := by
  by_cases hn : n = 0
  · exact ⟨none, c.arena, bs, by simp [Libc.malloc, hinit, hn], hinit, h⟩
  have hcall : Libc.malloc c.arena n = scan c.arena (needOf n) scanFuel 0 := by simp [Libc.malloc, hinit, hn]
  rcases scan_spec c.arena (needOf n) h.tiled.tiles h.tiled.length_lt with he | ⟨b, hb, hfree, hfit, he⟩
  · exact ⟨none, c.arena, bs, hcall.trans he, hinit, h⟩
  obtain ⟨bs', ht, hb', hu, -, hk⟩ := take_spec h.tiled hb hfree (needOf_blockSize n) hfit
  have hnew : b + hdrSz ∉ c.live := by
    intro hq
    obtain ⟨x, -, hx, hux⟩ := h.live _ hq
    obtain rfl : b = x := Nat.add_right_cancel hx
    omega
  refine ⟨_, _, bs', hcall.trans he, ?_, ⟨ht, fun p hp => ?_, List.nodup_cons.mpr ⟨hnew, h.distinct⟩⟩⟩
  · simp only [take]
    split_ifs <;> exact hinit
  · rcases List.mem_cons.mp hp with rfl | hp
    · exact ⟨b, hb', rfl, hu⟩
    obtain ⟨x, hx, hpx, hux⟩ := h.live p hp
    obtain ⟨hx', -, hux', -⟩ := hk x hx trivial hux
    exact ⟨x, hx', hpx, hux'⟩

lemma coalesce_init {b fuel : ℕ} {a' : Arena} (h : coalesce b fuel a = some a') : a'.init = a.init := by
  induction fuel generalizing a with
  | zero => cases h
  | succ k ih =>
    rw [coalesce] at h
    split_ifs at h
    · rw [← some.inj h]
    · have hnext := ih h
      exact hnext
    · rw [← some.inj h]

lemma free_payload (a : Arena) (b : ℕ) : free a (some (b + hdrSz)) = coalesce b scanFuel (a.setUsed b 0) := by
  rw [free, Nat.add_sub_cancel]

lemma ClientInv.free_live (h : ClientInv c bs) (hp : p ∈ c.live) :
    ∃ a bs', free c.arena (some p) = some a ∧ a.init = c.arena.init ∧ Tiled a bs' ∧
      Keeps (fun b => b + hdrSz ≠ p) c.arena bs a bs' := by
  obtain ⟨b, hb, rfl, hu⟩ := h.live p hp
  obtain ⟨hset, hfree, hk⟩ := h.tiled.setUsed hb (.inl rfl)
  obtain ⟨l, r, rfl⟩ := List.append_of_mem hb
  have hlen : r.length < scanFuel := by
    have := h.tiled.length_lt
    simp only [List.length_append, List.length_cons] at this
    omega
  obtain ⟨a, bs', he, ht, hk'⟩ := coalesce_spec hset hfree hlen
  have hinit := coalesce_init he
  have hcall := (free_payload c.arena b).trans he
  refine ⟨a, bs', hcall, hinit, ht, fun x hx hxb hux => ?_⟩
  have hne : x ≠ b := by
    rintro rfl
    exact hxb rfl
  have hk2 : Keeps (· ≠ b) (c.arena.setUsed b 0) (l ++ b :: r) a bs' :=
    fun x hx _ hux => hk' x hx trivial hux
  exact hk.trans hk2 x hx hne hux

lemma ClientInv.free (h : ClientInv c bs) (hp : p ∈ c.live) (he : Libc.free c.arena (some p) = some a) :
    ∃ bs', ClientInv ⟨a, c.live.filter fun q => some q ≠ some p⟩ bs' ∧ a.init = c.arena.init := by
  obtain ⟨a', bs', he', hinit, ht, hk⟩ := h.free_live hp
  obtain rfl := some.inj (he'.symm.trans he)
  refine ⟨bs', ⟨ht, fun q hq => ?_, h.distinct.filter _⟩, hinit⟩
  obtain ⟨hq, hne⟩ := List.mem_filter.mp hq
  obtain ⟨x, hx, rfl, hux⟩ := h.live q hq
  obtain ⟨hx', -, hux', -⟩ := hk x hx (by simpa using hne) hux
  exact ⟨x, hx', rfl, hux'⟩

lemma malloc_first (hinit : a.init = false) (n : ℕ) : malloc a n = malloc (heapInit a) n := by
  simp [malloc, hinit, heapInit]

lemma ClientOk.of_live (h : ClientOk c) (hp : p ∈ c.live) : c.arena.init = true ∧ ∃ bs, ClientInv c bs := by
  rw [ClientOk] at h
  split_ifs at h with hinit
  · exact ⟨hinit, h⟩
  · rw [h] at hp
    cases hp

/-- The arena that `malloc` scans. -/
lemma ClientOk.ready (h : ClientOk c) : ∃ a bs, a.init = true ∧ ClientInv ⟨a, c.live⟩ bs ∧
    ∀ n, malloc c.arena n = malloc a n := by
  cases hinit : c.arena.init with
  | true =>
    rw [ClientOk, hinit] at h
    obtain ⟨bs, hbs⟩ := h
    exact ⟨c.arena, bs, hinit, hbs, fun _ => rfl⟩
  | false =>
    have hlive : c.live = [] := by simpa [ClientOk, hinit] using h
    exact ⟨heapInit c.arena, [0], rfl, ⟨heapInit_tiled c.arena, by simp [hlive], by simp [hlive]⟩, malloc_first hinit⟩

lemma ClientOk.step {call : Call} (h : ClientOk c) (hs : clientStep c call c') : ClientOk c' := by
  cases call with
  | malloc n =>
    obtain ⟨-, p, a, he, rfl⟩ := hs
    obtain ⟨a0, bs, hinit, hbs, hsame⟩ := h.ready
    obtain ⟨p', a', bs', he', hinit', hinv⟩ := hbs.malloc hinit n
    obtain ⟨rfl, rfl⟩ := Prod.mk.inj (some.inj (he'.symm.trans ((hsame n).symm.trans he)))
    rw [ClientOk, if_pos hinit']
    exact ⟨bs', hinv⟩
  | free ptr =>
    obtain ⟨hptr, a, he, rfl⟩ := hs
    cases ptr with
    | none =>
      cases he
      simpa using h
    | some p =>
      have hp := hptr p rfl
      obtain ⟨hinit, bs, hbs⟩ := h.of_live hp
      obtain ⟨bs', hinv, hinit'⟩ := hbs.free hp he
      rw [ClientOk, if_pos (hinit'.trans hinit)]
      exact ⟨bs', hinv⟩
  | store ptr i v =>
    obtain ⟨hp, hi, rfl⟩ := hs
    obtain ⟨hinit, bs, hbs⟩ := h.of_live hp
    obtain ⟨b, hb, rfl, hu⟩ := hbs.live ptr hp
    rw [Nat.add_sub_cancel] at hi
    obtain ⟨ht, hused⟩ := hbs.tiled.store hb (y := b + hdrSz + i) (by omega) (by omega) v
    rw [ClientOk, if_pos hinit]
    refine ⟨bs, ht, fun q hq => ?_, hbs.distinct⟩
    obtain ⟨x, hx, hqx, hux⟩ := hbs.live q hq
    exact ⟨x, hx, hqx, (hused x hx).trans hux⟩

end

lemma payload_disjoint {a : Arena} {b d : ℕ} (h : b + a.total b ≤ d) : Disjoint (payload a b) (payload a d) := by
  rw [Set.disjoint_left]
  rintro y ⟨-, hy⟩ ⟨hy', -⟩
  simp only [hdrSz] at hy'
  omega

/-- The invariant holds in every state of every run. -/
lemma ClientOk.of_reachable {c : Client} (hr : Reachable clientStep clientStart c) : ClientOk c := by
  refine hr.invariant (fun s hs => ?_) fun s call t h hs => h.step hs
  rw [ClientOk, hs.1]
  exact hs.2

/-- In every state of every run the headers tile the arena, the live pointers belong to
different used blocks, the payloads of the used blocks lie in the arena apart from each other,
and both functions return; `free` keeps every used block but the one in front of its pointer. -/
theorem libc_heap_tiled {c : Client} (hr : Reachable clientStep clientStart c) :
    (∀ n < 2 ^ 64, ∃ r, malloc c.arena n = some r) ∧
    (c.arena.init = true → ∃ bs, Tiles c.arena.total BlockSize 0 bs heapSz ∧
      (∀ b ∈ bs, c.arena.used b = 0 ∨ c.arena.used b = 1) ∧
      (∀ p ∈ c.live, ∃ b ∈ bs, p = b + hdrSz ∧ c.arena.used b = 1) ∧ c.live.Nodup ∧
      (∀ b ∈ bs, c.arena.used b = 1 → payload c.arena b ⊆ Set.Ico 0 heapSz) ∧
      bs.Pairwise (fun b d => c.arena.used b = 1 → c.arena.used d = 1 →
        Disjoint (payload c.arena b) (payload c.arena d)) ∧
      ∀ p ∈ c.live, ∃ a bs', free c.arena (some p) = some a ∧ Tiled a bs' ∧
        Keeps (fun b => b + hdrSz ≠ p) c.arena bs a bs') := by
  have hok := ClientOk.of_reachable hr
  constructor
  · intro n _
    obtain ⟨a, bs, hinit, hbs, hsame⟩ := hok.ready
    obtain ⟨p, a', bs', he, -⟩ := hbs.malloc hinit n
    exact ⟨_, (hsame n).trans he⟩
  intro hinit
  rw [ClientOk, if_pos hinit] at hok
  obtain ⟨bs, hbs⟩ := hok
  refine ⟨bs, hbs.tiled.tiles, hbs.tiled.flags, hbs.live, hbs.distinct, fun b hb _ y hy => ?_, ?_, fun p hp => ?_⟩
  · have htop := (hbs.tiled.tiles.bounds b hb).2.1
    exact ⟨Nat.zero_le y, lt_of_lt_of_le hy.2 htop⟩
  · exact hbs.tiled.tiles.pairwise.imp fun h _ _ => payload_disjoint h
  · obtain ⟨a, bs', he, -, ht, hk⟩ := hbs.free_live hp
    exact ⟨a, bs', he, ht, hk⟩

/-- After a first request for 100 bytes its pointer can be freed. -/
theorem libc_heap_tiled_first : ∃ c, Reachable clientStep clientStart c ∧ c.live = [16] ∧
    ∃ a, free c.arena (some 16) = some a := by
  have hptr : (malloc ⟨fun _ => 0, false⟩ 100).map Prod.fst = some (some 16) := by decide +kernel
  obtain ⟨⟨p, a⟩, he, rfl⟩ := map_eq_some_iff.mp hptr
  have hr : Reachable clientStep clientStart ⟨a, [16]⟩ :=
    ⟨⟨⟨fun _ => 0, false⟩, []⟩, [.malloc 100], ⟨rfl, rfl⟩, .cons ⟨by decide, some 16, a, he, rfl⟩ (.nil _)⟩
  have hinit := ((ClientOk.of_reachable hr).of_live (List.mem_singleton_self 16)).1
  obtain ⟨bs, -, -, -, -, -, -, hfree⟩ := (libc_heap_tiled hr).2 hinit
  obtain ⟨a', bs', hcall, -⟩ := hfree 16 (by simp)
  exact ⟨_, hr, rfl, a', hcall⟩

end AetherOS.Libc
