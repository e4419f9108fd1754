import AetherOS.ByteMemory

/-!
# Directory blocks

A directory block is a chain of records of varying length: the inode, the length of the
record, the length of the name, the type, and the name. A record whose inode is zero is
deleted; its name is stale. Adding a name reuses a deleted record or splits the last one.
-/
namespace AetherOS.Ext2
open ByteMemory List Option Nat

abbrev Name := List UInt8

section

variable {fin p : ℕ} {blk : Mem}

def deInode (blk : Mem) (p : ℕ) : ℕ := readLE blk 4 p
def deRecLen (blk : Mem) (p : ℕ) : ℕ := readLE blk 2 (p + 4)
def deNameLen (blk : Mem) (p : ℕ) : ℕ := readLE blk 1 (p + 6)
def deName (blk : Mem) (p : ℕ) : Name := bytes blk (p + 8) (deNameLen blk p)

/-- The header and the name, rounded up to a multiple of four. -/
def direntLen (nameLen : ℕ) : ℕ := 8 + (nameLen + 3) / 4 * 4

/-- The record at `p` lies in the block that ends at `fin`, and its name in the record. -/
def direntValid (blk : Mem) (p fin : ℕ) : Bool :=
  decide (p + 8 ≤ fin ∧ direntLen (deNameLen blk p) ≤ deRecLen blk p ∧ deRecLen blk p ≤ fin - p)

lemma direntValid_iff : direntValid blk p fin = true ↔
    p + 8 ≤ fin ∧ direntLen (deNameLen blk p) ≤ deRecLen blk p ∧ deRecLen blk p ≤ fin - p :=
  decide_eq_true_iff

lemma lt_add_recLen (h : direntValid blk p fin = true) : p < fin ∧ fin - (p + deRecLen blk p) < fin - p := by
  obtain ⟨h1, h2, h3⟩ := direntValid_iff.mp h
  unfold direntLen at h2
  omega

/-- The inode of the first record with the given name from `p` on, or 0. -/
def dirFindInBlock (blk : Mem) (fin : ℕ) (name : Name) (p : ℕ) : ℕ :=
  if _h : p < fin ∧ direntValid blk p fin = true then
    if deInode blk p ≠ 0 ∧ deNameLen blk p = name.length ∧ bytes blk (p + 8) name.length = name then
      deInode blk p
    else dirFindInBlock blk fin name (p + deRecLen blk p)
  else 0
termination_by fin - p
decreasing_by exact (lt_add_recLen _h.2).2

/-- Fill in the fields of the record at `p` other than its length. -/
def putEntry (blk : Mem) (p ino : ℕ) (name : Name) (ftype : ℕ) : Mem :=
  blit (writeLE (writeLE (writeLE blk 4 p ino) 1 (p + 6) name.length) 1 (p + 7) ftype)
    name.length (p + 8) fun i => name.getD i 0

/-- The block with the entry added in a record from `p` on, if there is room. -/
def addInBlock (blk : Mem) (fin : ℕ) (name : Name) (ino ftype p : ℕ) : Option Mem :=
  if _h : p < fin ∧ direntValid blk p fin = true then
    let actual := direntLen (deNameLen blk p)
    let slack := deRecLen blk p - actual
    if deInode blk p = 0 ∧ direntLen name.length ≤ deRecLen blk p then
      some (putEntry blk p ino name ftype)
    else if fin ≤ p + deRecLen blk p ∧ deInode blk p ≠ 0 ∧ direntLen name.length ≤ slack then
      some (putEntry (writeLE (writeLE blk 2 (p + 4) actual) 2 (p + actual + 4) slack) (p + actual)
        ino name ftype)
    else addInBlock blk fin name ino ftype (p + deRecLen blk p)
  else none
termination_by fin - p
decreasing_by exact (lt_add_recLen _h.2).2

/-- The block with the first record with the given name from `p` on deleted. -/
def removeInBlock (blk : Mem) (fin : ℕ) (name : Name) (p : ℕ) : Option Mem :=
  if _h : p < fin ∧ direntValid blk p fin = true then
    if deInode blk p ≠ 0 ∧ deNameLen blk p = name.length ∧ bytes blk (p + 8) name.length = name then
      some (writeLE blk 4 p 0)
    else removeInBlock blk fin name (p + deRecLen blk p)
  else none
termination_by fin - p
decreasing_by exact (lt_add_recLen _h.2).2

/-- The block with the inode of the first record with the given name replaced. -/
def retargetInBlock (blk : Mem) (fin : ℕ) (name : Name) (target p : ℕ) : Option Mem :=
  if _h : p < fin ∧ direntValid blk p fin = true then
    if deInode blk p ≠ 0 ∧ deNameLen blk p = name.length ∧ bytes blk (p + 8) name.length = name then
      some (writeLE blk 4 p target)
    else retargetInBlock blk fin name target (p + deRecLen blk p)
  else none
termination_by fin - p
decreasing_by exact (lt_add_recLen _h.2).2

/-- The records from `p` on, if they end exactly at the end of the block. -/
def chain (blk : Mem) (fin p : ℕ) : Option (List (Name × ℕ)) :=
  if p = fin then some []
  else if _h : direntValid blk p fin = true then
    (chain blk fin (p + deRecLen blk p)).map ((deName blk p, deInode blk p) :: ·)
  else none
termination_by fin - p
decreasing_by exact (lt_add_recLen _h).2

end

/-- The entries that are not deleted. -/
def liveEntries (es : List (Name × ℕ)) : List (Name × ℕ) := es.filter fun e => e.2 ≠ 0

section

variable {blk blk' : Mem} {fin p ino ftype : ℕ} {es : List (Name × ℕ)} {name : Name}

/-- The chain of records from `p` to the end of the block. -/
inductive Chain (blk : Mem) (fin : ℕ) : ℕ → List (Name × ℕ) → Prop
  | done : Chain blk fin fin []
  | record {p : ℕ} {es : List (Name × ℕ)} : direntValid blk p fin = true →
      Chain blk fin (p + deRecLen blk p) es → Chain blk fin p ((deName blk p, deInode blk p) :: es)

theorem chain_iff : chain blk fin p = some es ↔ Chain blk fin p es := by
  constructor
  · intro h
    fun_induction chain blk fin p generalizing es with
    | case1 =>
      cases h
      exact .done
    | case2 p hp hv ih =>
      obtain ⟨rest, hrest, rfl⟩ := map_eq_some_iff.mp h
      exact .record hv (ih hrest)
    | case3 => cases h
  · intro h
    induction h with
    | done => rw [chain, if_pos rfl]
    | record hv _ ih =>
      have hlt := (lt_add_recLen hv).1
      rw [chain, if_neg (by omega), dif_pos hv, ih]
      rfl

lemma Chain.eq_nil (h : Chain blk fin fin es) : es = [] := by
  cases h with
  | done => rfl
  | record hv _ => exact absurd (lt_add_recLen hv).1 (lt_irrefl _)

lemma le_direntLen (n : ℕ) : 8 + n ≤ direntLen n := by
  unfold direntLen
  omega

/-- A record whose bytes are kept stays in front of the others. -/
lemma Chain.kept (hv : direntValid blk p fin = true)
    (h : ∀ x, p ≤ x → x < p + direntLen (deNameLen blk p) → blk' x = blk x)
    (hc : Chain blk' fin (p + deRecLen blk p) es) : Chain blk' fin p ((deName blk p, deInode blk p) :: es) := by
  have hle := le_direntLen (deNameLen blk p)
  have hlen : deNameLen blk' p = deNameLen blk p := readLE_congr fun x h1 h2 => h x (by omega) (by omega)
  have hrec : deRecLen blk' p = deRecLen blk p := readLE_congr fun x h1 h2 => h x (by omega) (by omega)
  have hino : deInode blk' p = deInode blk p := readLE_congr fun x h1 h2 => h x (by omega) (by omega)
  have hname : deName blk' p = deName blk p := by
    rw [deName, deName, hlen]
    refine map_congr_left fun i hi => h _ (by omega) ?_
    have := mem_range.mp hi
    omega
  rw [← hino, ← hname]
  rw [direntValid_iff, ← hlen, ← hrec, ← direntValid_iff] at hv
  exact .record hv (hrec ▸ hc)

lemma Chain.congr (hc : Chain blk fin p es) (h : ∀ x, p ≤ x → x < fin → blk' x = blk x) : Chain blk' fin p es := by
  induction hc with
  | done => exact .done
  | record hv _ ih =>
    obtain ⟨h1, h2, h3⟩ := direntValid_iff.mp hv
    exact .kept hv (fun x hx hx' => h x hx (by omega)) (ih fun x hx hx' => h x (by omega) hx')

lemma name_match_iff : (deNameLen blk p = name.length ∧ bytes blk (p + 8) name.length = name) ↔
    deName blk p = name := by
  constructor
  · rintro ⟨hlen, hbytes⟩
    rw [deName, hlen, hbytes]
  intro h
  have hlen : deNameLen blk p = name.length := by rw [← h, deName, bytes, length_map, length_range]
  rw [← hlen]
  exact ⟨rfl, h⟩

lemma liveEntries_cons_dead (es : List (Name × ℕ)) : liveEntries ((name, 0) :: es) = liveEntries es :=
  filter_cons_of_neg (by simp)

lemma liveEntries_cons_live (h : ino ≠ 0) (es : List (Name × ℕ)) :
    liveEntries ((name, ino) :: es) = (name, ino) :: liveEntries es :=
  filter_cons_of_pos (by simp [h])

/-- What a search for the name does at one record. -/
lemma lookup_record (blk : Mem) (p : ℕ) (name : Name) (es : List (Name × ℕ)) :
    (liveEntries ((deName blk p, deInode blk p) :: es)).lookup name =
      if deInode blk p ≠ 0 ∧ deNameLen blk p = name.length ∧ bytes blk (p + 8) name.length = name then
        some (deInode blk p) else (liveEntries es).lookup name := by
  by_cases h0 : deInode blk p = 0
  · rw [if_neg (by simp [h0]), h0, liveEntries_cons_dead]
  rw [liveEntries_cons_live h0]
  by_cases hname : deName blk p = name
  · rw [if_pos ⟨h0, name_match_iff.mpr hname⟩, hname, lookup_cons_self]
  rw [if_neg fun hc => hname (name_match_iff.mp hc.2), lookup_cons]
  have hne : (name == deName blk p) = false := beq_false_of_ne (Ne.symm hname)
  rw [hne]

/-- The search finds the first live entry with the name. -/
theorem dirFindInBlock_eq (hc : Chain blk fin p es) (name : Name) :
    dirFindInBlock blk fin name p = ((liveEntries es).lookup name).getD 0 := by
  induction hc with
  | done =>
    rw [dirFindInBlock, dif_neg (by omega)]
    rfl
  | @record p es hv _ ih =>
    rw [dirFindInBlock, dif_pos ⟨(lt_add_recLen hv).1, hv⟩, lookup_record]
    split
    · rfl
    · exact ih

end

section

variable {blk blk' : Mem} {fin p ino ftype : ℕ} {es l l' : List (Name × ℕ)} {name : Name} {e : Name × ℕ}

/-- The entry `e` was put somewhere between the others. -/
def Inserted (l : List (Name × ℕ)) (e : Name × ℕ) (l' : List (Name × ℕ)) : Prop :=
  ∃ l1 l2, l = l1 ++ l2 ∧ l' = l1 ++ e :: l2

lemma Inserted.cons (h : Inserted l e l') (d : Name × ℕ) : Inserted (d :: l) e (d :: l') := by
  obtain ⟨l1, l2, rfl, rfl⟩ := h
  exact ⟨d :: l1, l2, rfl, rfl⟩

lemma Inserted.append_left (h : Inserted l e l') (k : List (Name × ℕ)) : Inserted (k ++ l) e (k ++ l') := by
  obtain ⟨l1, l2, rfl, rfl⟩ := h
  exact ⟨k ++ l1, l2, (append_assoc ..).symm, (append_assoc ..).symm⟩

lemma Inserted.append_right (h : Inserted l e l') (k : List (Name × ℕ)) : Inserted (l ++ k) e (l' ++ k) := by
  obtain ⟨l1, l2, rfl, rfl⟩ := h
  exact ⟨l1, l2 ++ k, append_assoc .., append_assoc ..⟩

/-- A live entry that goes in front of a chain is inserted into the live ones, a deleted one
changes nothing. -/
lemma inserted_live_cons (h : Inserted (liveEntries l) e (liveEntries l')) (d : Name × ℕ) :
    Inserted (liveEntries (d :: l)) e (liveEntries (d :: l')) := by
  obtain ⟨n, i⟩ := d
  by_cases h0 : i = 0
  · subst h0
    rw [liveEntries_cons_dead, liveEntries_cons_dead]
    exact h
  · rw [liveEntries_cons_live h0, liveEntries_cons_live h0]
    exact h.cons _

lemma map_getD_range (l : Name) : (List.range l.length).map (fun i => l.getD i 0) = l := by
  apply ext_getElem
  · rw [length_map, length_range]
  · intro i h1 h2
    rw [getElem_map, getElem_range, getD_eq_getElem?_getD, getElem?_eq_getElem h2, getD_some]

section

variable (blk p ino name ftype)

lemma putEntry_outside {x : ℕ} (h : x < p ∨ p + 8 + name.length ≤ x) : putEntry blk p ino name ftype x = blk x := by
  rw [putEntry, blit_outside _ _ (by omega), writeLE_outside _ (by omega), writeLE_outside _ (by omega),
    writeLE_outside _ (by omega)]

lemma deInode_putEntry : deInode (putEntry blk p ino name ftype) p = ino % 2 ^ 32 := by
  rw [deInode, putEntry, readLE_blit_disjoint _ _ (by omega), readLE_outside _ (by omega),
    readLE_outside _ (by omega), readLE_writeLE_same]
  rfl

lemma deRecLen_putEntry : deRecLen (putEntry blk p ino name ftype) p = deRecLen blk p := by
  rw [deRecLen, putEntry, readLE_blit_disjoint _ _ (by omega), readLE_outside _ (by omega),
    readLE_outside _ (by omega), readLE_outside _ (by omega), deRecLen]

variable {name}

lemma deNameLen_putEntry (h : name.length < 256) : deNameLen (putEntry blk p ino name ftype) p = name.length := by
  rw [deNameLen, putEntry, readLE_blit_disjoint _ _ (by omega), readLE_outside _ (by omega),
    readLE_writeLE_same]
  exact mod_eq_of_lt h

lemma deName_putEntry (h : name.length < 256) : deName (putEntry blk p ino name ftype) p = name := by
  rw [deName, deNameLen_putEntry _ _ _ _ h]
  conv_rhs => rw [← map_getD_range name]
  refine map_congr_left fun i hi => ?_
  exact blit_inside _ _ (mem_range.mp hi)

end

lemma Chain.putEntry (hlen : name.length < 256) (hino : ino < 2 ^ 32) (hp : p + 8 ≤ fin)
    (hfit : direntLen name.length ≤ deRecLen blk p) (hle : deRecLen blk p ≤ fin - p)
    (hc : Chain blk fin (p + deRecLen blk p) es) :
    Chain (putEntry blk p ino name ftype) fin p ((name, ino) :: es) := by
  have hrest : Chain (Ext2.putEntry blk p ino name ftype) fin (p + deRecLen blk p) es :=
    hc.congr fun x hx _ => putEntry_outside _ _ _ _ _ (by unfold direntLen at hfit; omega)
  have hv : direntValid (Ext2.putEntry blk p ino name ftype) p fin = true := by
    rw [direntValid_iff, deNameLen_putEntry _ _ _ _ hlen, deRecLen_putEntry]
    exact ⟨hp, hfit, hle⟩
  rw [← deRecLen_putEntry blk p ino ftype name] at hrest
  have hchain := Chain.record hv hrest
  rw [deName_putEntry _ _ _ _ hlen, deInode_putEntry, mod_eq_of_lt hino] at hchain
  exact hchain

/-- The last record is cut after its name, and the rest becomes a record of its own. -/
lemma chain_split (hv : direntValid blk p fin = true) (hlast : p + deRecLen blk p = fin)
    (hlen : name.length < 256) (hino : ino < 2 ^ 32)
    (hfit : direntLen name.length ≤ deRecLen blk p - direntLen (deNameLen blk p)) :
    Chain (putEntry (writeLE (writeLE blk 2 (p + 4) (direntLen (deNameLen blk p))) 2
        (p + direntLen (deNameLen blk p) + 4) (deRecLen blk p - direntLen (deNameLen blk p)))
      (p + direntLen (deNameLen blk p)) ino name ftype) fin p
      [(deName blk p, deInode blk p), (name, ino)] := by
  obtain ⟨h1, h2, -⟩ := direntValid_iff.mp hv
  have hrec : deRecLen blk p < 2 ^ 16 := readLE_lt _ 2 _
  have hactual := le_direntLen (deNameLen blk p)
  generalize ha : direntLen (deNameLen blk p) = actual at *
  generalize hblk1 : writeLE (writeLE blk 2 (p + 4) actual) 2 (p + actual + 4)
    (deRecLen blk p - actual) = blk1
  have hrec1 : deRecLen blk1 (p + actual) = deRecLen blk p - actual := by
    rw [← hblk1, deRecLen, readLE_writeLE_same]
    exact mod_eq_of_lt (by omega)
  have hsecond : Chain (putEntry blk1 (p + actual) ino name ftype) fin (p + actual) [(name, ino)] := by
    have hneeded := le_direntLen name.length
    have hend : p + actual + deRecLen blk1 (p + actual) = fin := by
      rw [hrec1]
      omega
    refine Chain.putEntry hlen hino (by omega) (by omega) (by omega) ?_
    rw [hend]
    exact .done
  generalize hblk2 : putEntry blk1 (p + actual) ino name ftype = blk2 at hsecond
  -- the first record keeps everything but its length
  have hkeep : ∀ x, p ≤ x → x < p + actual → ¬(p + 4 ≤ x ∧ x < p + 6) → blk2 x = blk x := by
    intro x hx hx' hne
    rw [← hblk2, putEntry_outside _ _ _ _ _ (by omega), ← hblk1, writeLE_outside _ (by omega),
      writeLE_outside _ (by omega)]
  have hino2 : deInode blk2 p = deInode blk p :=
    readLE_congr fun x hx hx' => hkeep x (by omega) (by omega) (by omega)
  have hlen2 : deNameLen blk2 p = deNameLen blk p :=
    readLE_congr fun x hx hx' => hkeep x (by omega) (by omega) (by omega)
  have hname2 : deName blk2 p = deName blk p := by
    rw [deName, deName, hlen2]
    refine map_congr_left fun i hi => hkeep _ (by omega) ?_ (by omega)
    have := mem_range.mp hi
    omega
  have hrec2 : deRecLen blk2 p = actual := by
    have hfield : deRecLen blk2 p = readLE (writeLE blk 2 (p + 4) actual) 2 (p + 4) := by
      refine readLE_congr fun x hx hx' => ?_
      rw [← hblk2, putEntry_outside _ _ _ _ _ (by omega), ← hblk1, writeLE_outside _ (by omega)]
    rw [hfield, readLE_writeLE_same]
    exact mod_eq_of_lt (by omega)
  rw [← hino2, ← hname2]
  refine .record ?_ ?_
  · rw [direntValid_iff, hlen2, hrec2, ha]
    exact ⟨h1, le_refl _, by omega⟩
  · rw [hrec2]
    exact hsecond

lemma removeInBlock_eq (blk : Mem) (fin : ℕ) (name : Name) (p : ℕ) :
    removeInBlock blk fin name p = retargetInBlock blk fin name 0 p := by
  fun_induction removeInBlock blk fin name p with
  | case1 p hv hmatch => rw [retargetInBlock, dif_pos hv, if_pos hmatch]
  | case2 p hv hne ih => rw [retargetInBlock, dif_pos hv, if_neg hne, ih]
  | case3 p hv => rw [retargetInBlock, dif_neg hv]

lemma liveEntries_append (l l' : List (Name × ℕ)) : liveEntries (l ++ l') = liveEntries l ++ liveEntries l' :=
  filter_append ..

section

variable (hc : Chain blk fin p es)
include hc

/-- Adding an entry keeps the chain and inserts the entry. -/
theorem addInBlock_spec (hlen : name.length < 256) (hino : ino < 2 ^ 32)
    (h0 : ino ≠ 0) (hadd : addInBlock blk fin name ino ftype p = some blk') :
    (∀ x, x < p ∨ fin ≤ x → blk' x = blk x) ∧
      ∃ es', Chain blk' fin p es' ∧ Inserted (liveEntries es) (name, ino) (liveEntries es') := by
  induction hc with
  | done =>
    rw [addInBlock, dif_neg (by omega)] at hadd
    cases hadd
  | @record p es hv hrest ih =>
    obtain ⟨h1, h2, h3⟩ := direntValid_iff.mp hv
    have hactual := le_direntLen (deNameLen blk p)
    have hneeded := le_direntLen name.length
    rw [addInBlock, dif_pos ⟨(lt_add_recLen hv).1, hv⟩] at hadd
    simp only at hadd
    split at hadd
    · -- a deleted record is reused
      rename_i hreuse
      cases hadd
      refine ⟨fun x hx => putEntry_outside _ _ _ _ _ (by omega), (name, ino) :: es,
        Chain.putEntry hlen hino h1 hreuse.2 h3 hrest, ?_⟩
      rw [hreuse.1, liveEntries_cons_dead, liveEntries_cons_live h0]
      exact ⟨[], _, rfl, rfl⟩
    split at hadd
    · -- the last record is split
      rename_i hsplit
      cases hadd
      have hlast : p + deRecLen blk p = fin := by omega
      rw [hlast] at hrest
      obtain rfl := hrest.eq_nil
      refine ⟨fun x hx => ?_, _, chain_split hv hlast hlen hino hsplit.2.2, ?_⟩
      · rw [putEntry_outside _ _ _ _ _ (by omega), writeLE_outside _ (by omega), writeLE_outside _ (by omega)]
      · rw [liveEntries_cons_live hsplit.2.1, liveEntries_cons_live hsplit.2.1, liveEntries_cons_live h0]
        exact ⟨[_], [], rfl, rfl⟩
    · obtain ⟨hout, es', hc', hins⟩ := ih hadd
      exact ⟨fun x hx => hout x (by omega), _, .kept hv (fun x hx hx' => hout x (by omega)) hc',
        inserted_live_cons hins _⟩

/-- Replacing the inode of an entry keeps the chain and the other entries. -/
theorem retargetInBlock_spec {target : ℕ} (ht : target < 2 ^ 32)
    (h : retargetInBlock blk fin name target p = some blk') :
    (∀ x, x < p ∨ fin ≤ x → blk' x = blk x) ∧
      ∃ es1 es2 i, i ≠ 0 ∧ es = es1 ++ (name, i) :: es2 ∧ Chain blk' fin p (es1 ++ (name, target) :: es2) := by
  induction hc with
  | done =>
    rw [retargetInBlock, dif_neg (by omega)] at h
    cases h
  | @record p es hv hrest ih =>
    obtain ⟨h1, h2, h3⟩ := direntValid_iff.mp hv
    have hactual := le_direntLen (deNameLen blk p)
    rw [retargetInBlock, dif_pos ⟨(lt_add_recLen hv).1, hv⟩] at h
    split at h
    next hmatch =>
      cases h
      let w := writeLE blk 4 p target
      have hout : ∀ x, x < p ∨ p + 4 ≤ x → w x = blk x := fun x hx =>
        writeLE_outside _ (by omega)
      have hname := name_match_iff.mp hmatch.2
      have hino : deInode w p = target := (readLE_writeLE_same _ _ _ _).trans (mod_eq_of_lt ht)
      have hlen' : deNameLen w p = deNameLen blk p := readLE_outside _ (by omega)
      have hrec' : deRecLen w p = deRecLen blk p := readLE_outside _ (by omega)
      have hname' : deName w p = name := by
        rw [← hname, deName, deName, hlen']
        exact map_congr_left fun i _ => hout _ (by omega)
      have hrest' := hrest.congr fun x hx _ => hout x (by omega)
      rw [← hrec'] at hrest'
      have hv' : direntValid w p fin = true := by
        rw [direntValid_iff, hlen', hrec']
        exact ⟨h1, h2, h3⟩
      have hchain := Chain.record hv' hrest'
      rw [hino, hname'] at hchain
      refine ⟨fun x hx => hout x (by omega), [], es, deInode blk p, hmatch.1, ?_, hchain⟩
      rw [hname]
      rfl
    · obtain ⟨hout, es1, es2, i, h0, rfl, hc'⟩ := ih h
      exact ⟨fun x hx => hout x (by omega), (deName blk p, deInode blk p) :: es1, es2, i, h0, rfl,
        .kept hv (fun x hx hx' => hout x (by omega)) hc'⟩

/-- Nothing is replaced where the search finds nothing. -/
theorem retargetInBlock_none (target : ℕ) :
    retargetInBlock blk fin name target p = none ↔ (liveEntries es).lookup name = none := by
  induction hc with
  | done =>
    rw [retargetInBlock, dif_neg (by omega)]
    simp [liveEntries]
  | @record p es hv _ ih =>
    rw [retargetInBlock, dif_pos ⟨(lt_add_recLen hv).1, hv⟩, lookup_record]
    split
    · simp
    · exact ih

/-- Removing an entry keeps the chain and removes the entry. -/
theorem removeInBlock_spec (hrem : removeInBlock blk fin name p = some blk') :
    (∀ x, x < p ∨ fin ≤ x → blk' x = blk x) ∧
      ∃ es' i, i ≠ 0 ∧ Chain blk' fin p es' ∧ Inserted (liveEntries es') (name, i) (liveEntries es) := by
  rw [removeInBlock_eq] at hrem
  obtain ⟨hout, es1, es2, i, h0, rfl, hc'⟩ := retargetInBlock_spec hc (by decide) hrem
  refine ⟨hout, _, i, h0, hc', liveEntries es1, liveEntries es2, ?_, ?_⟩
  · rw [liveEntries_append, liveEntries_cons_dead]
  · rw [liveEntries_append, liveEntries_cons_live h0]

/-- Nothing is removed where the search finds nothing. -/
theorem removeInBlock_none : removeInBlock blk fin name p = none ↔ (liveEntries es).lookup name = none := by
  rw [removeInBlock_eq]
  exact retargetInBlock_none hc 0

end

end

end AetherOS.Ext2
