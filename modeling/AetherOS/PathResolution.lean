import AetherOS.Vfs
import AetherOS.Ext2Lookup

/-!
# Resolved paths in smaller buffers

The result of `vfs_resolve` has up to 511 bytes. `path_split` and `vfs_chdir` copy it, or a part
of it, to buffers of 256 bytes.
-/
namespace AetherOS.Vfs
open Ext2 List

section

variable {cwd : CString} {names : List Name}

lemma resolved_clean (cwd path : CString) : ∀ c ∈ resolvedNames cwd path, Clean c :=
  resolveLoop_clean _ [] (absolute_noEnd cwd path) (by simp)

lemma resolved_noEnd (cwd path : CString) : 0 ∉ vfsResolve cwd path := by
  rw [vfsResolve, pathString]
  split
  · decide
  intro h0
  obtain ⟨c, hc, h0⟩ := mem_flatMap.mp h0
  rcases mem_cons.mp h0 with h0 | h0
  · cases h0
  · exact (resolved_clean cwd path c hc).noEnd h0

lemma resolveLoop_slash (tmp : Path) (out : List Name) : resolveLoop (47 :: tmp) out = resolveLoop tmp out := by
  rw [resolveLoop, dif_neg (cons_ne_nil _ _), if_pos head?_cons, tail_cons]

/-- A normalized path with the component `.` behind it, as far as the output has room. -/
lemma resolveLoop_dot (hnames : ∀ c ∈ names, Clean c) (out : List Name) (hlen : outLength (out ++ names) ≤ 511) :
    resolveLoop (names.flatMap (47 :: ·) ++ [47, 46]) out = out ++ names := by
  induction names generalizing out with
  | nil =>
    rw [flatMap_nil, nil_append, resolveLoop_slash, append_nil, resolveLoop, dif_neg (by decide),
      if_neg (by decide), if_pos (by decide), resolveLoop]
    rfl
  | cons c names ih =>
    have hc := hnames c mem_cons_self
    -- what follows the component starts with a slash
    obtain ⟨rest, hrest⟩ : ∃ rest, names.flatMap (47 :: ·) ++ [47, 46] = 47 :: rest := by
      cases names with
      | nil => exact ⟨[46], rfl⟩
      | cons d names => exact ⟨_, by rw [flatMap_cons, cons_append, cons_append]⟩
    have htake : (c ++ 47 :: rest).takeWhile (· ≠ 47) = c ∧ (c ++ 47 :: rest).dropWhile (· ≠ 47) = 47 :: rest := by
      have hall : ∀ b ∈ c, decide (b ≠ 47) = true := fun b hb => decide_eq_true fun h => hc.noSlash (h ▸ hb)
      rw [takeWhile_append_of_pos hall, dropWhile_append_of_pos hall]
      simp
    have hne : c ++ 47 :: rest ≠ [] := by simp
    have hhead : (c ++ 47 :: rest).head? ≠ some 47 := by
      obtain ⟨b, c', rfl⟩ := exists_cons_of_ne_nil hc.ne_nil
      intro h
      exact hc.noSlash (Option.some.inj h ▸ mem_cons_self)
    have hroom : ¬512 ≤ outLength out + c.length + 1 := by
      simp only [outLength, flatMap_append, flatMap_cons, length_append, length_cons] at hlen ⊢
      omega
    have hstep : resolveLoop (c ++ 47 :: rest) out = resolveLoop rest (out ++ [c]) := by
      rw [resolveLoop, dif_neg hne, if_neg hhead]
      simp only [htake.1, htake.2, if_neg hc.notDot, if_neg hc.notDotDot, if_neg hroom, drop_one, tail_cons]
    have hih := ih (fun d hd => hnames d (mem_cons_of_mem c hd)) (out ++ [c]) (by simpa using hlen)
    rw [hrest, resolveLoop_slash] at hih
    rw [flatMap_cons, cons_append, cons_append, append_assoc, hrest, resolveLoop_slash, hstep, hih,
      append_assoc, singleton_append]

/-- The path of the working directory itself. -/
def dot : CString := ⟨[46], by decide⟩

lemma vfsResolve_dot (hnames : ∀ c ∈ names, Clean c) (hcwd : cwd.val = pathString names)
    (hlen : (pathString names).length ≤ 255) : vfsResolve cwd dot = pathString names := by
  have habsolute : absolute cwd dot = names.flatMap (47 :: ·) ++ [47, 46] := by
    rw [absolute, if_neg (by decide), hcwd, take_of_length_le (hlen.trans (by decide))]
    cases names using List.reverseRecOn with
    | nil => rfl
    | append_singleton ps c =>
      have hc := hnames c (by simp)
      have hlast : (pathString (ps ++ [c])).getLast? ≠ some 47 := by
        intro hlast
        rw [pathString_concat, append_cons, getLast?_append_of_ne_nil _ hc.ne_nil] at hlast
        exact hc.noSlash (mem_of_getLast? hlast)
      have htake : dot.val.take (511 - (pathString (ps ++ [c]) ++ [47]).length) = [46] := by
        rw [take_of_length_le]
        · rfl
        · rw [length_append, length_singleton]
          exact Nat.le_sub_of_add_le (by simp only [dot, length_singleton]; omega)
      have hslash : (pathString (ps ++ [c]) = [] ∨ (pathString (ps ++ [c])).getLast? ≠ some 47) ∧
          (pathString (ps ++ [c])).length < 511 := ⟨.inr hlast, lt_of_le_of_lt hlen (by decide)⟩
      simp only [if_pos hslash, htake]
      rw [pathString, if_neg (by simp), append_assoc]
      rfl
  have hfits : outLength names ≤ 511 := by
    rw [pathString] at hlen
    split at hlen
    next hnil =>
      rw [hnil]
      decide
    · exact hlen.trans (by decide)
  rw [vfsResolve, resolvedNames, habsolute, resolveLoop_dot hnames [] hfits, nil_append]

end

/-- The bytes that `path_split` stores in `parent` and in `name`, each from index 0 on. -/
def pathSplitStores (path : Path) : Path × Path :=
  match pathSplit path with
  | none => ([], [])
  | some (parent, name) => (parent ++ [0], name ++ [0])

lemma resolveLoop_fits (tmp : Path) (out : List Name) (hout : outLength out ≤ 511) :
    outLength (resolveLoop tmp out) ≤ 511 := by
  fun_induction resolveLoop tmp out with
  | case1 | case5 => exact hout
  | case2 tmp out hne hhead ih => exact ih hout
  | case3 tmp out hne hhead comp rest hdot ih => exact ih hout
  | case4 tmp out hne hhead comp rest hdot hdots ih =>
    exact ih (((dropLast_sublist out).flatMap _).length_le.trans hout)
  | case6 tmp out hne hhead comp rest hdot hdots hfull ih =>
    refine ih ?_
    simp only [outLength, flatMap_append, flatMap_singleton, length_append, length_cons] at hfull ⊢
    omega

/-- `path_split` stays in its two buffers of 256 bytes, and its two parts make up the path,
exactly if the last slash of the resolved path is among the first 256 bytes. -/
theorem pathSplitStores_fit_iff (cwd path : CString) :
    ((pathSplitStores (vfsResolve cwd path)).1.length ≤ 256 ∧
      (pathSplitStores (vfsResolve cwd path)).2.length ≤ 256 ∧
      ∀ parent name, pathSplit (vfsResolve cwd path) = some (parent, name) →
        (if parent = [47] then [] else parent) ++ 47 :: name = vfsResolve cwd path) ↔
      lastSlash (vfsResolve cwd path) 0 0 ≤ 255 := by
  have hclean := resolved_clean cwd path
  have hfits : outLength (resolvedNames cwd path) ≤ 511 := resolveLoop_fits _ [] (by decide)
  rw [vfsResolve, pathSplitStores]
  cases hnames : resolvedNames cwd path using List.reverseRecOn with
  | nil =>
    rw [pathSplit_root]
    exact iff_of_true ⟨by simp, by simp, fun _ _ hsome => by cases hsome⟩ (by decide)
  | append_singleton ps c =>
    rw [hnames] at hclean hfits
    have hc : Clean c := hclean c (by simp)
    have hlast : lastSlash (pathString (ps ++ [c])) 0 0 = (ps.flatMap (47 :: ·)).length := by
      rw [pathString_concat, lastSlash_append hc.noSlash, zero_add]
    rw [hlast]
    by_cases hle : c.length ≤ 254
    · have hcomp : Component c :=
        ⟨length_pos_iff.mpr hc.ne_nil, hle, hc.noSlash, hc.noEnd, hc.notDot, hc.notDotDot⟩
      rw [pathSplit_pathString ps hcomp]
      have hparent : (if pathString ps = [47] then [] else pathString ps) = ps.flatMap (47 :: ·) ∧
          ((pathString ps).length ≤ 255 ↔ (ps.flatMap (47 :: ·)).length ≤ 255) := by
        cases ps with
        | nil => exact ⟨rfl, by decide⟩
        | cons d ps =>
          have hd := length_pos_iff.mpr (hclean d (by simp)).ne_nil
          have hne : pathString (d :: ps) ≠ [47] := by
            intro heq
            have hlength := congrArg List.length heq
            rw [pathString_cons, length_cons, length_append, length_singleton] at hlength
            omega
          rw [if_neg hne, pathString, if_neg (by simp)]
          exact ⟨rfl, Iff.rfl⟩
      rw [← hparent.2]
      dsimp only
      rw [length_append, length_append, length_singleton]
      constructor
      · rintro ⟨hfirst, -⟩
        omega
      · intro hfirst
        refine ⟨by omega, by omega, fun parent name hsome => ?_⟩
        obtain ⟨rfl, rfl⟩ := Prod.mk.inj (Option.some.inj hsome)
        rw [hparent.1, pathString_concat]
    · -- a name that is too long is refused before anything is stored, and leaves no room
      have hnone : pathSplit (pathString (ps ++ [c])) = none := by
        rw [pathSplit, hlast, pathString_concat]
        exact if_pos (.inr (by rw [length_drop, length_append, length_cons]; omega))
      rw [hnone]
      refine iff_of_true ⟨by simp, by simp, fun _ _ hsome => by cases hsome⟩ ?_
      simp only [outLength, flatMap_append, flatMap_singleton, length_append, length_cons] at hfits
      omega

/-- A directory of 255 bytes and a file in it: the end of the string is stored at index 256. -/
theorem pathSplitStores_overflow : 256 < (pathSplitStores (vfsResolve ⟨[47], by decide⟩
      ⟨47 :: (List.replicate 255 97 ++ [47, 98]), by decide +kernel⟩)).1.length := by decide +kernel

/-- The result, the working directory afterwards, and the filesystem. A lookup that runs over the
end of its path is no success; it needs a component of 256 bytes. -/
def vfsChdir (g : Geometry) (fs : Fs) (cwd path : CString) : ℤ × CString × Fs :=
  match lookupPath g fs (vfsResolve cwd path) with
  | (.found _, fs) => (0, ⟨(vfsResolve cwd path).take 255, fun h0 =>
      resolved_noEnd cwd path (mem_of_mem_take h0)⟩, fs)
  | (_, fs) => (-1, cwd, fs)

/-- The directory that `vfs_chdir` keeps is the path that it verified exactly if that path has
at most 255 bytes; then the path `.` leads to the inode that was found in the call. -/
theorem vfsChdir_remembers (g : Geometry) (fs : Fs) (cwd path : CString)
    (hok : (vfsChdir g fs cwd path).1 = 0) :
    ((vfsChdir g fs cwd path).2.1.val = vfsResolve cwd path ↔ (vfsResolve cwd path).length ≤ 255) ∧
      ((vfsResolve cwd path).length ≤ 255 →
        ∃ ino, (lookupPath g fs (vfsResolve cwd path)).1 = .found ino ∧
          (lookupPath g fs (vfsResolve (vfsChdir g fs cwd path).2.1 dot)).1 = .found ino) := by
  rw [vfsChdir] at hok ⊢
  rcases hfound : lookupPath g fs (vfsResolve cwd path) with ⟨ino | _ | _, fs'⟩
  case found =>
    refine ⟨take_eq_self_iff _, fun hlen => ⟨ino, rfl, ?_⟩⟩
    have hdot : ∀ c : CString, c.val = (vfsResolve cwd path).take 255 →
        vfsResolve c dot = vfsResolve cwd path := by
      intro c hc
      rw [take_of_length_le hlen] at hc
      exact vfsResolve_dot (resolved_clean cwd path) hc hlen
    rw [hdot _ rfl, hfound]
  case failed | overrun =>
    rw [hfound] at hok
    exact absurd hok (show (-1 : ℤ) ≠ 0 by decide)

/-- A root directory with one entry, a directory with a name of 255 bytes. -/
def longVolume : Fs where
  disk a :=
    if a = 2056 then 5 else if a = 5249 then 0x41 else if a = 5288 then 6
    else if a = 6144 then 3 else if a = 6149 then 4 else if a = 6150 then 255 else if a = 6151 then 2
    else if 6152 ≤ a ∧ a < 6407 then 97 else 0
  sb a := if a = 4 then 16 else 0
  outcomes _ := true

/-- The same directory with the name `a`. -/
def shortVolume : Fs := { longVolume with disk := Function.update longVolume.disk 6150 1 }

theorem vfsChdir_remembers_directory :
    let after := vfsChdir smallGeometry shortVolume ⟨[47], by decide⟩ ⟨[97], by decide⟩
    after.1 = 0 ∧ after.2.1.val = [47, 97] ∧
      (lookupPath smallGeometry shortVolume (vfsResolve after.2.1 dot)).1 = .found 3 := by
  intro after
  have hok : after.1 = 0 := by decide +kernel
  have hpath : vfsResolve ⟨[47], by decide⟩ ⟨[97], by decide⟩ = [47, 97] := by decide +kernel
  obtain ⟨hkept, hdot⟩ := vfsChdir_remembers _ _ _ _ hok
  rw [hpath] at hkept hdot
  obtain ⟨ino, hfound, hino⟩ := hdot (by decide)
  have hthree : (lookupPath smallGeometry shortVolume [47, 97]).1 = .found 3 := by decide +kernel
  exact ⟨hok, hkept.mpr (by decide), hino.trans (hfound.symm.trans hthree)⟩

/-- The last byte of the path is cut off, and the path `.` leads nowhere. -/
theorem vfsChdir_forgets :
    let path : CString := ⟨47 :: List.replicate 255 97, by decide +kernel⟩
    let after := vfsChdir smallGeometry longVolume ⟨[47], by decide⟩ path
    after.1 = 0 ∧ (lookupPath smallGeometry longVolume (vfsResolve ⟨[47], by decide⟩ path)).1 = .found 3 ∧
      (lookupPath smallGeometry longVolume (vfsResolve after.2.1 dot)).1 = .failed := by decide +kernel

end AetherOS.Vfs
