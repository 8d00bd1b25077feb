import Mender.Proofs.Selection

/-! Where paths lead. A path leads to its last name from where its directory is, and it leads there
still when directories have been added. So the files below a directory and those below the directory
whose name has an addition never share a place, unless the addition stands in their own paths. -/
namespace Mender
open Text

namespace Path
variable {path t : String}

private theorem reverse_append (ht : '/' ∉ t.toList) :
    (path ++ t).toList.reverse.takeWhile (· != '/') =
        t.toList.reverse ++ path.toList.reverse.takeWhile (· != '/') ∧
      (path ++ t).toList.reverse.dropWhile (· != '/') =
        path.toList.reverse.dropWhile (· != '/') := by
  have hall : ∀ c ∈ t.toList.reverse, (c != '/') = true := by
    intro c hc
    rw [bne_iff_ne]
    rintro rfl
    exact ht (List.mem_reverse.mp hc)
  rw [String.toList_append, List.reverse_append]
  exact ⟨List.takeWhile_append_of_pos hall, List.dropWhile_append_of_pos hall⟩

theorem baseName_append (ht : '/' ∉ t.toList) : baseName (path ++ t) = baseName path ++ t := by
  rw [baseName, (reverse_append ht).1, List.reverse_append, List.reverse_reverse,
    String.ofList_append, String.ofList_toList]
  rfl

theorem dirName_append (ht : '/' ∉ t.toList) : dirName (path ++ t) = dirName path := by
  rw [dirName, (reverse_append ht).2]
  rfl

private theorem toList_eq (path : String) : path.toList =
    (path.toList.reverse.dropWhile (· != '/')).reverse ++ (baseName path).toList := by
  rw [baseName, String.toList_ofList, ← List.reverse_append, List.takeWhile_append_dropWhile,
    List.reverse_reverse]

private theorem head_dropWhile {c : Char} (mark : Char) (cs : List Char)
    (h : (cs.dropWhile (· != mark)).head? = some c) : c = mark := by
  simpa [h] using List.head?_dropWhile_not (· != mark) cs

private theorem dropEndWhile_slashes (cs : List Char) :
    ∃ k, cs = dropEndWhile (· == '/') cs ++ List.replicate k '/' := by
  have hall : cs.reverse.takeWhile (· == '/') =
      List.replicate (cs.reverse.takeWhile (· == '/')).length '/' := by
    refine List.eq_replicate_of_mem fun c hc => ?_
    simpa using List.all_eq_true.mp List.all_takeWhile c hc
  refine ⟨(cs.reverse.takeWhile (· == '/')).length, ?_⟩
  rw [dropEndWhile, ← List.reverse_replicate, ← hall, ← List.reverse_append,
    List.takeWhile_append_dropWhile, List.reverse_reverse]

/-- Slashes stand between a directory and a name in it; a path may also have no directory, or
nothing but slashes before the name. -/
theorem dirName_cases (path : String) :
    (dirName path = "" ∧ path = baseName path) ∨
      (∃ k, (dirName path).toList = List.replicate (k + 1) '/' ∧
        path.toList = List.replicate (k + 1) '/' ++ (baseName path).toList) ∨
      (dirName path ≠ "" ∧ ∃ k, path.toList =
        (dirName path).toList ++ '/' :: (List.replicate k '/' ++ (baseName path).toList)) := by
  have hpath := toList_eq path
  have hslash {c : Char} := head_dropWhile (c := c) '/' path.toList.reverse
  have hdir : (dirName path).toList = _ := String.toList_ofList
  generalize path.toList.reverse.dropWhile (· != '/') = back at *
  cases back with
  | nil =>
    left
    rw [List.reverse_nil, List.nil_append] at hpath
    exact ⟨by simpa [dropEndWhile] using hdir, String.toList_inj.mp hpath⟩
  | cons c back =>
    right
    obtain rfl := hslash rfl
    obtain ⟨k, hk⟩ := dropEndWhile_slashes back.reverse
    have hbare : dropEndWhile (· == '/') ('/' :: back).reverse =
        dropEndWhile (· == '/') back.reverse := by
      simp [dropEndWhile]
    have hhead : ('/' :: back).reverse =
        dropEndWhile (· == '/') back.reverse ++ List.replicate (k + 1) '/' := by
      rw [List.reverse_cons, List.replicate_succ', ← List.append_assoc, ← hk]
    rw [hbare, hhead] at hdir
    rw [hhead] at hpath
    generalize dropEndWhile (· == '/') back.reverse = bare at *
    cases bare with
    | nil =>
      left
      rw [List.nil_append] at hdir hpath
      exact ⟨k, hdir, hpath⟩
    | cons c bare =>
      right
      have hdir : (dirName path).toList = c :: bare := hdir
      refine ⟨fun h => ?_, k, ?_⟩
      · rw [h] at hdir
        cases hdir
      · rw [hdir, hpath, List.replicate_succ, List.append_assoc]
        rfl

theorem baseName_eq_empty (h : baseName path = "") : path = "" ∨ endsWith path "/" = true := by
  have ends_slash (front : List Char) {k : Nat}
      (hp : path.toList = front ++ List.replicate (k + 1) '/') : endsWith path "/" = true := by
    rw [endsWith, List.isSuffixOf_iff_suffix, hp, List.replicate_succ', ← List.append_assoc]
    exact List.suffix_append _ _
  rcases dirName_cases path with ⟨-, hp⟩ | ⟨k, -, hp⟩ | ⟨-, k, hp⟩
  · exact .inl (hp.trans h)
  · rw [h, String.toList_empty, List.append_nil] at hp
    exact .inr (ends_slash [] hp)
  · rw [h, String.toList_empty, List.append_nil, ← List.replicate_succ] at hp
    exact .inr (ends_slash _ hp)

theorem splitExtension_append (path : String) :
    (splitExtension path).1 ++ (splitExtension path).2 = path ∧
      '/' ∉ (splitExtension path).2.toList := by
  unfold splitExtension
  dsimp only
  split
  · rename_i h
    have hlen := of_decide_eq_true (Bool.and_eq_true _ _ ▸ h).1
    -- the extension is what follows the last dot of the last name
    have hspan := List.takeWhile_append_dropWhile (p := (· != '.'))
      (l := (baseName path).toList.reverse)
    have hdot {c : Char} := head_dropWhile (c := c) '.' (baseName path).toList.reverse
    generalize (baseName path).toList.reverse.takeWhile (· != '.') = ext at *
    generalize (baseName path).toList.reverse.dropWhile (· != '.') = back at *
    cases back with
    | nil =>
      rw [List.append_nil] at hspan
      rw [hspan, List.length_reverse] at hlen
      exact absurd hlen (lt_irrefl _)
    | cons c rest =>
      obtain rfl := hdot rfl
      have hbase : (baseName path).toList = rest.reverse ++ '.' :: ext.reverse := by
        rw [← List.reverse_reverse (baseName path).toList, ← hspan]
        simp
      have hpath := toList_eq path
      rw [hbase, ← List.append_assoc] at hpath
      constructor
      · rw [← String.toList_inj, String.toList_append, Text.take, String.toList_ofList,
          String.toList_ofList, Text.length, Text.length, String.toList_ofList, hpath,
          List.length_append, Nat.add_sub_cancel, List.take_left]
      · intro hm
        rw [String.toList_ofList] at hm
        exact baseName_unslashed path (hbase ▸ List.mem_append_right _ hm)
  · simp

end Path

namespace Disk
variable {d e : Disk} {path : String} {seen names p : List String}

def base? (d : Disk) (dir : String) : Option (List String) :=
  if dir = "" then some [] else d.locate? dir

theorem base_of_ne {dir : String} (h : dir ≠ "") : d.base? dir = d.locate? dir := if_neg h

theorem base_of_locate (h : d.locate? path = some p) : d.base? path = some p := by
  have hne : path ≠ "" := by
    rintro rfl
    cases h
  rw [base_of_ne hne, h]

private theorem walk_slashes (seen : List String) (k : Nat) {base : List Char} (h : '/' ∉ base) :
    d.walk seen ((splitChars '/' (List.replicate k '/' ++ base)).map String.ofList) =
      d.walk seen [String.ofList base] := by
  induction k with
  | zero => rw [List.replicate_zero, List.nil_append, splitChars_of_not_mem h]; rfl
  | succ k ih =>
    rw [List.replicate_succ, List.cons_append, splitChars, if_pos rfl, List.map_cons, walk_cons,
      if_pos rfl, ih]

theorem base_eq (d : Disk) (path : String) : d.base? path =
    (d.base? (Path.dirName path)).bind fun q => d.walk q.reverse [Path.baseName path] := by
  have hbase := Path.baseName_unslashed path
  have rooted {p : String} {cs : List Char} (hp : p.toList = '/' :: cs) : d.base? p = none := by
    have hne : p ≠ "" := by
      rintro rfl
      cases hp
    rw [base_of_ne hne, locate?, if_pos]
    simp [startsWith, hp]
  rcases Path.dirName_cases path with ⟨hdir, hpath⟩ | ⟨k, hdir, hpath⟩ | ⟨hdir, k, hpath⟩
  · rw [← hpath] at hbase
    rw [hdir, ← hpath]
    by_cases he : path = ""
    · subst he
      rfl
    · have hroot : startsWith path "/" = false := by
        rw [startsWith, Bool.eq_false_iff, ne_eq, List.isPrefixOf_iff_prefix]
        exact fun hp => hbase (hp.subset (by simp))
      rw [base_of_ne he, locate?, hroot, splitOn, splitChars_of_not_mem hbase]
      simp [he, base?]
  · rw [rooted hpath, rooted hdir]
    rfl
  · generalize Path.dirName path = dir at *
    obtain ⟨c, front, hfront⟩ := List.exists_cons_of_ne_nil (l := dir.toList) (by simpa using hdir)
    have hne : path ≠ "" := by
      rintro rfl
      simp at hpath
    have hroot : startsWith path "/" = startsWith dir "/" := by
      simp [startsWith, hpath, hfront, List.isPrefixOf]
    rw [base_of_ne hne, base_of_ne hdir, locate?, locate?, hroot, splitOn, hpath, splitChars_append,
      List.map_append, walk_append]
    simp only [hne, hdir, decide_false, Bool.false_or, walk_slashes _ _ hbase,
      String.ofList_toList]
    split <;> rfl

private theorem base_join {dir name : String} (h : '/' ∉ name.toList) : d.base?
    (Path.join dir name) = (d.base? dir).bind fun q => d.walk q.reverse [name] := by
  by_cases hdir : dir = ""
  · rw [base_eq, hdir, Path.baseName_join h]
    have hjoin : Path.join "" name = name := by simp [Path.join_eq h, Path.lead_empty]
    have hempty : Path.dirName ("" ++ name) = Path.dirName "" := Path.dirName_append h
    rw [hjoin, ← String.empty_append (s := name), hempty]
    rfl
  · have hne : Path.join dir name ≠ "" := by
      obtain ⟨front, hf, -⟩ := Path.lead_cases hdir
      rw [Path.join_eq h, ne_eq, ← String.toList_inj, String.toList_append, hf]
      simp
    rw [base_of_ne hne, base_of_ne hdir, locate_join_of_unslashed hdir h]

theorem base_join_proper {dir name : String} (h : IsProper name) :
    d.base? (Path.join dir name) = (d.base? dir).map (· ++ [name]) := by
  rw [base_join h.unslashed]
  simp only [walk_proper h]
  cases d.base? dir <;> rfl

theorem walk_cons_eq_some {name : String} : d.walk seen (name :: names) = some p ↔
      (name = "" ∧ d.walk seen names = some p) ∨
      (name = "." ∧ d.isDirAt seen.reverse = true ∧ d.walk seen names = some p) ∨
      (name = ".." ∧ seen ≠ [] ∧ d.isDirAt seen.reverse = true ∧
        d.walk seen.tail names = some p) ∨
      (name ≠ "" ∧ name ≠ "." ∧ name ≠ ".." ∧ d.walk (name :: seen) names = some p) := by
  rw [walk_cons]
  by_cases hempty : name = ""
  · simp [hempty]
  by_cases hhere : name = "."
  · simp [hhere]
  by_cases hup : name = ".."
  · simp [hup, and_assoc]
  · simp [hempty, hhere, hup]

theorem walk_one {q p : List String} {name : String} (h : d.walk q.reverse [name] = some p) :
    (name = "" ∧ p = q) ∨ (d.isDirAt q = true ∧ p <+: q) ∨
      (p = q ++ [name] ∧ name ≠ "" ∧ name ≠ "." ∧ name ≠ "..") := by
  have ends_here {seen : List String} (h : d.walk seen [] = some p) : p = seen.reverse :=
    (Option.some.inj h).symm
  rcases walk_cons_eq_some.mp h with ⟨hn, h⟩ | ⟨-, hq, h⟩ | ⟨-, -, hq, h⟩ | ⟨h1, h2, h3, h⟩
  · exact .inl ⟨hn, by simp [ends_here h]⟩
  · rw [List.reverse_reverse] at hq
    exact .inr (.inl ⟨hq, by simp [ends_here h]⟩)
  · rw [List.reverse_reverse] at hq
    refine .inr (.inl ⟨hq, ?_⟩)
    rw [ends_here h, List.tail_reverse, List.reverse_reverse]
    exact List.dropLast_prefix q
  · exact .inr (.inr ⟨by simp [ends_here h], h1, h2, h3⟩)

private theorem walkNames_of_walk (h : d.walk seen names = some p) :
    Path.walkNames seen names = some p := by
  induction names generalizing seen with
  | nil => exact h
  | cons name names ih =>
    rcases walk_cons_eq_some.mp h with ⟨rfl, h⟩ | ⟨rfl, -, h⟩ | ⟨rfl, hs, -, h⟩ | ⟨h1, h2, h3, h⟩
    · exact ih h
    · exact ih h
    · obtain ⟨last, up, rfl⟩ := List.exists_cons_of_ne_nil hs
      exact ih h
    · simpa [Path.walkNames, h1, h2, h3] using ih h

private theorem locate_agree {p q : List String} (hd : d.locate? path = some p)
    (he : e.locate? path = some q) : p = q := by
  rw [locate?] at hd he
  split at hd
  · cases hd
  · rename_i hn
    rw [if_neg hn] at he
    exact Option.some.inj ((walkNames_of_walk hd).symm.trans (walkNames_of_walk he))

theorem base_agree {p q : List String} (hd : d.base? path = some p)
    (he : e.base? path = some q) : p = q := by
  by_cases h : path = ""
  · subst h
    exact (Option.some.inj hd).symm.trans (Option.some.inj he)
  · rw [base_of_ne h] at hd he
    exact locate_agree hd he

private theorem walk_mono (hsub : d.dirs ⊆ e.dirs)
    (h : d.walk seen names = some p) : e.walk seen names = some p := by
  have hdir {q : List String} (hq : d.isDirAt q = true) : e.isDirAt q = true := by
    rw [isDirAt, Bool.or_eq_true, List.contains_iff_mem] at hq ⊢
    exact hq.imp_right fun hm => hsub hm
  induction names generalizing seen with
  | nil => exact h
  | cons name names ih =>
    rw [walk_cons_eq_some] at h ⊢
    rcases h with ⟨hn, h⟩ | ⟨hn, hq, h⟩ | ⟨hn, hs, hq, h⟩ | ⟨h1, h2, h3, h⟩
    · exact .inl ⟨hn, ih h⟩
    · exact .inr (.inl ⟨hn, hdir hq, ih h⟩)
    · exact .inr (.inr (.inl ⟨hn, hs, hdir hq, ih h⟩))
    · exact .inr (.inr (.inr ⟨h1, h2, h3, ih h⟩))

theorem locate_mono (hsub : d.dirs ⊆ e.dirs)
    (h : d.locate? path = some p) : e.locate? path = some p := by
  rw [locate?] at h ⊢
  split at h
  · cases h
  · rename_i hn
    rw [if_neg hn]
    exact walk_mono hsub h

theorem makeDirs_dirs (h : d.makeDirs path = .ok e) : d.dirs ⊆ e.dirs := by
  have from_ {typed seen names : List String} {d : Disk}
      (h : makeFrom path d typed seen names = .ok e) : d.dirs ⊆ e.dirs := by
    induction names generalizing d typed seen with
    | nil =>
      unfold makeFrom at h
      rw [Except.ok.inj h]
      exact List.Subset.refl _
    | cons name names ih =>
      unfold makeFrom at h
      dsimp only at h
      split at h
      · exact ih h
      split at h
      · split at h
        · cases h
        · exact ih h
      split at h
      · split at h <;> cases h
      · exact List.Subset.trans (List.subset_append_left _ _) (ih h)
  unfold makeDirs at h
  split at h
  · cases h
  · exact from_ h

/-- What stands below a directory is not below the directory with an addition to its name, unless
a directory on the way to it has the addition. -/
theorem beside {dir : String} {p xs ys : List String} (hp : (d.base? dir).map (· ++ xs) = some p)
    (hxs : ∀ name ∈ xs.dropLast, endsWith name "_fixed" = false) (hys : ys ≠ []) :
    (e.base? (dir ++ "_fixed")).map (· ++ ys) ≠ some p := by
  intro hq
  rw [Option.map_eq_some_iff] at hp hq
  obtain ⟨p, hp, rfl⟩ := hp
  obtain ⟨q, hq, h⟩ := hq
  have hadd : '/' ∉ "_fixed".toList := by decide
  rw [base_eq, Option.bind_eq_some_iff] at hp hq
  rw [Path.baseName_append hadd, Path.dirName_append hadd] at hq
  obtain ⟨b, hb, hp⟩ := hp
  obtain ⟨b', hb', hq⟩ := hq
  obtain rfl := base_agree hb hb'
  have hends : endsWith (Path.baseName dir ++ "_fixed") "_fixed" = true := by
    rw [endsWith, List.isSuffixOf_iff_suffix, String.toList_append]
    exact List.suffix_append _ _
  have hproper : IsProper (Path.baseName dir ++ "_fixed") := by
    have differs {name : String} (hn : endsWith name "_fixed" = false) :
        Path.baseName dir ++ "_fixed" ≠ name := by
      rintro rfl
      rw [hends] at hn
      cases hn
    refine ⟨differs (by decide), differs (by decide), differs (by decide), ?_⟩
    rw [String.toList_append, List.mem_append, not_or]
    exact ⟨Path.baseName_unslashed dir, hadd⟩
  obtain rfl := Option.some.inj ((walk_proper hproper b).symm.trans hq)
  have hor : p <+: b ∨ p = b ++ [Path.baseName dir] := by
    rcases walk_one hp with ⟨-, rfl⟩ | ⟨-, hpre⟩ | ⟨he, -⟩
    · exact .inl (List.prefix_refl p)
    · exact .inl hpre
    · exact .inr he
  rcases hor with ⟨more, rfl⟩ | rfl
  · rw [List.append_assoc, List.append_assoc, List.append_cancel_left_eq] at h
    have hm : Path.baseName dir ++ "_fixed" ∈ xs.dropLast := by
      rw [← h, ← List.append_assoc, List.dropLast_append_of_ne_nil hys]
      simp
    exact Bool.false_ne_true ((hxs _ hm).symm.trans hends)
  · rw [List.append_assoc, List.append_assoc, List.append_cancel_left_eq] at h
    have hsame := (List.cons.inj h).1
    have hlen := congrArg (fun s : String => s.toList.length) hsame
    simp at hlen

/-- No file stands where a directory is or on the way to one. -/
def Apart (d : Disk) : Prop := ∀ q ∈ [] :: d.dirs, ∀ p ∈ q.inits, d.fileAt? p = none

instance (d : Disk) : Decidable d.Apart :=
  inferInstanceAs (Decidable (∀ q ∈ [] :: d.dirs, ∀ p ∈ q.inits, d.fileAt? p = none))

private theorem Apart.fileAt_eq_none (h : d.Apart) {p q : List String} (hq : d.isDirAt q = true)
    (hp : p <+: q) : d.fileAt? p = none := by
  rw [isDirAt, Bool.or_eq_true, List.isEmpty_iff, List.contains_iff_mem] at hq
  exact h q (List.mem_cons.mpr hq) p ((List.mem_inits p q).mpr hp)

theorem file_eq_some {c : FileContent} (h : d.file? path = some c) :
    endsWith path "/" = false ∧ ∃ p, d.locate? path = some p ∧ d.fileAt? p = some c := by
  rw [file?] at h
  split at h
  · cases h
  · rename_i hs
    exact ⟨by simpa using hs, Option.bind_eq_some_iff.mp h⟩

theorem file_makeDirs {dir path : String} (h : d.makeDirs dir = .ok e)
    (hp : d.locate? path = some p) : e.file? path = d.file? path := by
  have hfiles (q : List String) : e.fileAt? q = d.fileAt? q := by
    rw [fileAt?, fileAt?, makeDirs_files h]
  rw [file?, file?, hp, locate_mono (makeDirs_dirs h) hp, Option.bind_some, Option.bind_some,
    hfiles]

theorem read_of_file_eq {path text : String} {strict : Bool} (h : d.file? path = e.file? path)
    (hr : e.read path strict = .ok text) : d.read path strict = .ok text := by
  unfold read at hr ⊢
  rw [h]
  cases hf : e.file? path with
  | some c =>
    rw [hf] at hr
    exact hr
  | none =>
    rw [hf] at hr
    dsimp only at hr
    split at hr
    · cases hr
    · split at hr
      · cases hr
      · split at hr <;> cases hr

theorem Apart.file_proper (h : d.Apart) {c : FileContent}
    (hf : d.file? path = some c) : IsProper (Path.baseName path) ∧
      d.base? path = (d.base? (Path.dirName path)).map (· ++ [Path.baseName path]) := by
  obtain ⟨hslash, p, hp, hc⟩ := file_eq_some hf
  have hbase := base_of_locate hp
  rw [base_eq, Option.bind_eq_some_iff] at hbase
  obtain ⟨q, hq, hw⟩ := hbase
  rcases walk_one hw with ⟨hn, -⟩ | ⟨hdir, hpre⟩ | ⟨rfl, h1, h2, h3⟩
  · rcases Path.baseName_eq_empty hn with rfl | he
    · cases hp
    · rw [hslash] at he
      cases he
  · rw [h.fileAt_eq_none hdir hpre] at hc
    cases hc
  · refine ⟨⟨h1, h2, h3, Path.baseName_unslashed path⟩, ?_⟩
    rw [base_of_locate hp, hq]
    rfl

end Disk

namespace Glob
variable {d : Disk} {input path : String}

private theorem base_searched (d : Disk) (input : String) (l : Language) :
    d.base? (searched input l) = d.base? input := by
  have hpattern : Disk.IsProper ("*" ++ l.profile.suffix) :=
    ⟨by cases l <;> decide, by cases l <;> decide, by cases l <;> decide, suffix_unslashed l⟩
  have hdir := d.base_eq (Path.join input ("*" ++ l.profile.suffix))
  rw [Path.baseName_join hpattern.unslashed, Disk.base_join_proper hpattern] at hdir
  simp only [Disk.walk_proper hpattern] at hdir
  rw [← searched] at hdir
  cases hs : d.base? (searched input l) <;> cases hi : d.base? input <;> simp_all

private theorem base_of_mem_namesIn {dir name pattern : String} {dirsOnly : Bool}
    (h : name ∈ namesIn d dirsOnly dir pattern) : ∃ q, d.base? dir = some q := by
  unfold namesIn at h
  split at h
  · cases h
  · rename_i q hq
    by_cases hdir : dir = ""
    · exact ⟨[], if_pos hdir⟩
    · rw [if_neg hdir] at hq
      exact ⟨q, (Disk.base_of_ne hdir).trans hq⟩

theorem base_selected {l : Language} (hd : d.Named) (h : hasWildcard input = false)
    (hp : path ∈ withSuffix d input l.profile.suffix) : Disk.IsProper (Path.baseName path) ∧
      ∃ q, d.base? input = some q ∧ d.base? path = some (q ++ [Path.baseName path]) := by
  rw [withSuffix_eq d l h, Arrangement.mem_arrange, Text.mem_sorted] at hp
  obtain ⟨name, hn, rfl⟩ := List.mem_map.mp hp
  have hname := proper_of_mem_namesIn hd hn
  obtain ⟨q, hq⟩ := base_of_mem_namesIn hn
  rw [Path.baseName_join hname.unslashed, Disk.base_join_proper hname, ← base_searched d input l,
    hq]
  exact ⟨hname, q, rfl, rfl⟩

theorem locate_selected {l : Language} (hd : d.Named) (h : hasWildcard input = false)
    (hp : path ∈ withSuffix d input l.profile.suffix) : ∃ p, d.locate? path = some p := by
  obtain ⟨hproper, q, -, hat⟩ := base_selected hd h hp
  have hne : path ≠ "" := by
    rintro rfl
    exact hproper.nonempty rfl
  exact ⟨_, (Disk.base_of_ne hne).symm.trans hat⟩

end Glob
end Mender
