import Mathlib.Tactic

/-!
# Linked lists over pointer fields

A list is threaded through its nodes by one or two pointer fields, given here as the
functions `next` and `prev` on node addresses, with a distinguished null pointer.
The laws are stated for new field functions that agree with the old ones except
where an insertion or a removal writes them, and only on the nodes involved:
the value of a pointer field at an address that holds no node does not matter.
-/
namespace AetherOS.LinkedList
open List

variable {α : Type*} {null b h m p : α} {next prev next' prev' : α → α} {l xs ys : List α}

/-- Starting at `h`, the nodes `l` follow each other and `next` ends in null.
Each node points back to its predecessor, the first one to `p`. -/
def Dll (null : α) (next prev : α → α) : α → α → List α → Prop
  | _, h, [] => h = null
  | p, h, b :: l => h = b ∧ b ≠ null ∧ prev b = p ∧ Dll null next prev b (next b) l

lemma Dll.congr (hd : Dll null next prev p h l) (hn : ∀ x ∈ l, next' x = next x) (hp : ∀ x ∈ l, prev' x = prev x) :
    Dll null next' prev' p h l := by
  induction l generalizing p h with
  | nil => exact hd
  | cons b l ih =>
    obtain ⟨hb, hb0, hbp, htail⟩ := hd
    refine ⟨hb, hb0, ?_, ?_⟩
    · rw [hp b (by simp), hbp]
    · rw [hn b (by simp)]
      exact ih htail (fun x hx => hn x (by simp [hx])) (fun x hx => hp x (by simp [hx]))

lemma Dll.head_cases (hd : Dll null next prev p h l) : (h = null ∧ l = []) ∨ (h ≠ null ∧ ∃ t, l = h :: t) := by
  cases l with
  | nil => exact .inl ⟨hd, rfl⟩
  | cons b l =>
    obtain ⟨rfl, hb0, _, _⟩ := hd
    exact .inr ⟨hb0, l, rfl⟩

/-- The back pointer of an inner node: the entry value `p` for the first node,
else some node before it. -/
lemma Dll.prev_of_mem (hd : Dll null next prev p h (xs ++ b :: ys)) :
    (xs = [] ∧ prev b = p) ∨ (xs ≠ [] ∧ prev b ∈ xs) := by
  induction xs generalizing p h with
  | nil =>
    obtain ⟨_, _, hbp, _⟩ := hd
    exact .inl ⟨rfl, hbp⟩
  | cons a xs ih =>
    obtain ⟨_, _, _, htail⟩ := hd
    right
    rcases ih htail with ⟨_, hb⟩ | ⟨_, hb⟩
    · exact ⟨by simp, by simp [hb]⟩
    · exact ⟨by simp, by simp [hb]⟩

lemma Dll.next_of_mem (hd : Dll null next prev p h (xs ++ b :: ys)) :
    (next b = null ∧ ys = []) ∨ (next b ≠ null ∧ next b ∈ ys) := by
  induction xs generalizing p h with
  | nil =>
    obtain ⟨_, _, _, htail⟩ := hd
    rcases htail.head_cases with hh | ⟨hn, t, ht⟩
    · exact .inl hh
    · exact .inr ⟨hn, by rw [ht]; simp⟩
  | cons a xs ih =>
    obtain ⟨_, _, _, htail⟩ := hd
    exact ih htail

/-- From `h` the pointers lead through the nodes `l` to `m`. -/
def Links (null : α) (next : α → α) : α → List α → α → Prop
  | h, [], m => h = m
  | h, x :: l, m => h = x ∧ x ≠ null ∧ Links null next (next x) l m

lemma Links.congr (hp : Links null next h l m) (hn : ∀ x ∈ l, next' x = next x) : Links null next' h l m := by
  induction l generalizing h with
  | nil => exact hp
  | cons x l ih =>
    obtain ⟨hx, hx0, htail⟩ := hp
    refine ⟨hx, hx0, ?_⟩
    rw [hn x (by simp)]
    exact ih htail fun y hy => hn y (by simp [hy])

lemma links_append : Links null next h (xs ++ ys) m ↔ ∃ k, Links null next h xs k ∧ Links null next k ys m := by
  induction xs generalizing h with
  | nil => simp [Links]
  | cons x xs ih => simp [Links, ih, ← exists_and_left, and_assoc]

lemma Links.ne_null (hp : Links null next h l m) : ∀ x ∈ l, x ≠ null := by
  induction l generalizing h with
  | nil => simp
  | cons x l ih =>
    obtain ⟨_, hx0, htail⟩ := hp
    intro y hy
    rcases mem_cons.mp hy with rfl | hy
    · exact hx0
    · exact ih htail y hy

/-- A list to null that starts at null is empty, and any other one starts with its
first node. -/
lemma Links.head_cases (hp : Links null next h l null) :
    (h = null ∧ l = []) ∨ (h ≠ null ∧ ∃ t, l = h :: t ∧ Links null next (next h) t null) := by
  cases l with
  | nil => exact .inl ⟨hp, rfl⟩
  | cons x l =>
    obtain ⟨rfl, hx0, htail⟩ := hp
    exact .inr ⟨hx0, l, rfl, htail⟩

lemma Links.eq_nil (hp : Links null next h l null) (h0 : h = null) : l = [] := by
  rcases hp.head_cases with ⟨-, hl⟩ | ⟨hne, -⟩
  · exact hl
  · exact absurd h0 hne

lemma Links.snoc {x t : α} (hp : Links null next h (xs ++ [x]) null)
    (hlast : x ∉ xs) (ht : t ∉ xs ++ [x]) (ht0 : t ≠ null)
    (hx : next' x = t) (hnull : next' t = null) (hn : ∀ y, y ≠ x → y ≠ t → next' y = next y) :
    Links null next' h (xs ++ [x] ++ [t]) null := by
  obtain ⟨k, hxs, rfl, hk0, _⟩ := links_append.mp hp
  rw [append_assoc]
  refine links_append.mpr ⟨k, hxs.congr fun y hy => hn y ?_ ?_, rfl, hk0, hx, ht0, hnull⟩
  · rintro rfl
    exact hlast hy
  · rintro rfl
    exact ht (by simp [hy])

variable [DecidableEq α]

/-- Pushing a new node in front writes its own two fields and the back pointer
of the old first node. -/
theorem Dll.push (hd : Dll null next prev null h l) (hb : b ≠ null) (hl : l.Nodup)
    (hnb : next' b = h) (hpb : prev' b = null) (hn : ∀ x ∈ l, next' x = next x)
    (hp : ∀ x ∈ l, prev' x = if x = h then b else prev x) : Dll null next' prev' null b (b :: l) := by
  refine ⟨rfl, hb, hpb, ?_⟩
  rw [hnb]
  cases l with
  | nil => exact hd
  | cons c l =>
    obtain ⟨rfl, hc0, _, htail⟩ := hd
    refine ⟨rfl, hc0, ?_, ?_⟩
    · rw [hp h (by simp), if_pos rfl]
    rw [hn h (by simp)]
    refine htail.congr (fun x hx => hn x (by simp [hx])) (fun x hx => ?_)
    have hne : x ≠ h := fun he => (nodup_cons.mp hl).1 (he ▸ hx)
    rw [hp x (by simp [hx]), if_neg hne]

/-- Unlinking a node writes the forward pointer of its predecessor, or the head
when it has none, and the back pointer of its successor. -/
theorem Dll.unlink (hd : Dll null next prev p h (xs ++ b :: ys))
    (hl : (xs ++ b :: ys).Nodup) (hp0 : p ∉ xs ++ b :: ys)
    (hn : ∀ x ∈ xs ++ ys, next' x = if x = prev b then next b else next x)
    (hp : ∀ x ∈ xs ++ ys, prev' x = if x = next b then prev b else prev x) :
    Dll null next' prev' p (if xs = [] then next b else h) (xs ++ ys) := by
  induction xs generalizing p h with
  | nil =>
    obtain ⟨_, _, hbp, htail⟩ := hd
    simp only [nil_append, mem_cons, not_or] at hn hp hp0 hl ⊢
    rw [if_pos trivial]
    cases ys with
    | nil => exact htail
    | cons c ys =>
      obtain ⟨hc, hc0, _, hrest⟩ := htail
      have hcys : c ∉ ys := (nodup_cons.mp (nodup_cons.mp hl).2).1
      have hpne : ∀ x ∈ c :: ys, x ≠ prev b := by
        intro x hx he
        rw [hbp] at he
        exact hp0.2 (he ▸ hx)
      refine ⟨hc, hc0, ?_, ?_⟩
      · rw [hp c (by simp), if_pos hc.symm, hbp]
      rw [hn c (by simp), if_neg (hpne c (by simp))]
      refine hrest.congr (fun x hx => ?_) (fun x hx => ?_)
      · rw [hn x (by simp [hx]), if_neg (hpne x (by simp [hx]))]
      have hne : x ≠ next b := by
        intro he
        rw [hc] at he
        exact hcys (he ▸ hx)
      rw [hp x (by simp [hx]), if_neg hne]
  | cons a xs ih =>
    obtain ⟨hha, ha0, hap, htail⟩ := hd
    simp only [cons_append] at hl hp0 hn hp ⊢
    obtain ⟨ha, hl'⟩ := nodup_cons.mp hl
    have hrec := ih htail hl' ha (fun x hx => hn x (by simp only [mem_cons]; exact .inr hx))
      (fun x hx => hp x (by simp only [mem_cons]; exact .inr hx))
    have hanext : a ≠ next b := by
      intro he
      rcases htail.next_of_mem with ⟨hnull, _⟩ | ⟨_, hmem⟩
      · exact ha0 (he.trans hnull)
      · exact ha (by rw [he]; simp [hmem])
    rw [if_neg (by simp)]
    refine ⟨hha, ha0, ?_, ?_⟩
    · rw [hp a (by simp), if_neg hanext, hap]
    have hna : next' a = if xs = [] then next b else next a := by
      rw [hn a (by simp)]
      rcases htail.prev_of_mem with ⟨hx, hb⟩ | ⟨hx, hb⟩
      · rw [if_pos hb.symm, if_pos hx]
      · have hne : a ≠ prev b := fun he => ha (by rw [he]; simp [hb])
        rw [if_neg hne, if_neg hx]
    rw [hna]
    exact hrec

end AetherOS.LinkedList
