import Mender.Proofs.Copies
import Mender.Proofs.Revision
import Mender.Proofs.Selection

/-! The files of a project are saved as the container holds them: through every round of repairs the
container holds the texts in hand, and these are the texts that are saved. -/
namespace Mender.Workflow
open Run World Sandbox
variable {u v w : World} {m : Model} {l : Language} {code name output path : String}

namespace Texts
variable {ts : Texts}

theorem names_put (ts : Texts) (name code : String) : (ts.put name code).map Prod.fst =
    if name ∈ ts.map Prod.fst then ts.map Prod.fst else ts.map Prod.fst ++ [name] := by
  have hany : (ts.any fun t => t.1 = name) = true ↔ name ∈ ts.map Prod.fst := by simp
  unfold put
  split
  · rename_i h
    rw [if_pos (hany.mp h), List.map_map]
    refine List.map_congr_left fun t _ => ?_
    by_cases ht : t.1 = name <;> simp [ht]
  · rename_i h
    rw [if_neg (mt hany.mpr h), List.map_append]
    rfl

theorem mem_put {t : String × String} (h : t ∈ ts.put name code) :
    t = (name, code) ∨ t ∈ ts ∧ t.1 ≠ name := by
  unfold put at h
  split at h
  · obtain ⟨s, hs, rfl⟩ := List.mem_map.mp h
    by_cases hn : s.1 = name
    · exact .inl (if_pos hn)
    · rw [if_neg hn]
      exact .inr ⟨hs, hn⟩
  · rename_i hany
    rcases List.mem_append.mp h with h | h
    · exact .inr ⟨h, fun hn => hany (List.any_eq_true.mpr ⟨t, h, decide_eq_true hn⟩)⟩
    · exact .inl (List.mem_singleton.mp h)

theorem mem_of_lookup (h : ts.lookup name = some code) : name ∈ ts.map Prod.fst := by
  obtain ⟨_, _, rfl, -⟩ := List.lookup_eq_some_iff.mp h
  simp

/-- What holds of texts under some names, and still with one more name after a file was taken in,
holds of them when files with names of their own have been taken in one after the other. -/
theorem ends_foldlM {I : List String → World → Texts → Prop} {f : Texts → String → Run Texts}
    (step : ∀ {names path ts ts' w v}, Path.baseName path ∉ names → I names w ts →
      Ends (f ts path) w ts' v → I (names ++ [Path.baseName path]) v ts')
    {names files : List String} {ts' : Texts} (hw : I names w ts)
    (hnodup : (names ++ files.map Path.baseName).Nodup)
    (h : Ends (files.foldlM f ts) w ts' v) : I (names ++ files.map Path.baseName) v ts' := by
  induction files generalizing names w ts with
  | nil =>
    obtain ⟨rfl, rfl⟩ := h.of_pure
    simpa using hw
  | cons path files ih =>
    rw [List.foldlM_cons] at h
    obtain ⟨_, _, hf, h⟩ := h.of_bind
    have hnew : Path.baseName path ∉ names := fun hm =>
      (List.nodup_append.mp hnodup).2.2 _ hm _ (by simp) rfl
    simpa using ih (step hnew hw hf) (by simpa using hnodup) h

end Texts

section Saving
variable {ts : Texts} {names : List String} {x : Unit}

/-- The container holds texts under the given names. -/
structure Loaded (names : List String) (u w : World) (ts : Texts) : Prop where
  since : grown.rel u w
  names : ts.map Prod.fst = names
  held : ∀ t ∈ ts, u.Holds w (inWorkspace t.1) t.2

theorem Loaded.idle (h : Loaded names u w ts) (k : copyless.rel w v) : Loaded names u v ts where
  since := grown.trans h.since (grown_of_sparing k)
  names := h.names
  held t ht := (h.held t ht).idle k

theorem Loaded.put (h : Loaded names u w ts) (hc : Ends (copyFile code name) w x v) :
    Loaded (if name ∈ names then names else names ++ [name]) u v (ts.put name code) where
  since := grown.trans h.since (hc.keeps grown)
  names := by rw [Texts.names_put, h.names]
  held t ht := by
    rcases Texts.mem_put ht with rfl | ⟨ht, hne⟩
    · exact (holds_copyFile hc).of_grown h.since
    · exact (h.held t ht).past (hc.keeps _ (k := sparing_copyFile hne.symm)) rfl

private theorem undisturbed_saveFiles (hout : output ≠ "") (ho : '/' ∉ name.toList)
    (hproper : ∀ t ∈ ts, Disk.IsProper t.1) (hne : name ∉ ts.map Prod.fst) :
    Keeps (undisturbed output name) (saveFiles output ts) := by
  induction ts with
  | nil => exact keeps_pure _
  | cons t ts ih =>
    obtain ⟨ht, hproper⟩ := List.forall_mem_cons.mp hproper
    rw [List.map_cons, List.mem_cons, not_or] at hne
    exact keeps_bind (h := undisturbed_writeFile hout ho ht hne.1)
      (k := fun _ => ih hproper hne.2)

private theorem inStep_saveFiles (hout : output ≠ "") (hplain : ∀ t ∈ ts, '/' ∉ t.1.toList)
    (hproper : ∀ t ∈ ts.tail, Disk.IsProper t.1) (hnodup : (ts.map Prod.fst).Nodup)
    (hheld : ∀ t ∈ ts, u.Holds w (inWorkspace t.1) t.2)
    (h : Ends (saveFiles output ts) w x v) : ∀ t ∈ ts, u.InStep v output t.1 t.2 := by
  induction ts generalizing w with
  | nil => simp
  | cons t ts ih =>
    obtain ⟨_, _, hw, h⟩ := Ends.of_bind h
    have hidle := hw.keeps copyless
    obtain ⟨d, hwrite, rfl⟩ := hw.of_writeFile
    obtain ⟨hnew, hnodup⟩ := List.nodup_cons.mp hnodup
    obtain ⟨ht, hplain⟩ := List.forall_mem_cons.mp hplain
    obtain ⟨hh, hheld⟩ := List.forall_mem_cons.mp hheld
    have hrest := ih hplain (fun t ht => hproper t (List.mem_of_mem_tail ht)) hnodup
      (fun t ht => (hheld t ht).idle hidle) h
    refine List.forall_mem_cons.mpr ⟨?_, hrest⟩
    have hstep : u.InStep _ output t.1 t.2 := ⟨hh.idle hidle, Disk.file_write hwrite⟩
    exact hstep.past (Ends.keeps h _ (k := undisturbed_saveFiles hout ht hproper hnew))

theorem inStep_saveFiles_of_mem {files : List String} (hout : output ≠ "")
    (hproper : ∀ path ∈ files.tail, Disk.IsProper (Path.baseName path))
    (hnodup : (files.map Path.baseName).Nodup)
    (hnames : ts.map Prod.fst = files.map Path.baseName)
    (hheld : ∀ t ∈ ts, u.Holds w (inWorkspace t.1) t.2) (h : Ends (saveFiles output ts) w x v) :
    ∀ t ∈ ts, u.InStep v output t.1 t.2 := by
  have hplain (t : String × String) (ht : t ∈ ts) : '/' ∉ t.1.toList := by
    have hm := List.mem_map_of_mem (f := Prod.fst) ht
    rw [hnames] at hm
    obtain ⟨path, -, he⟩ := List.mem_map.mp hm
    exact he ▸ Path.baseName_unslashed path
  have htail (t : String × String) (ht : t ∈ ts.tail) : Disk.IsProper t.1 := by
    have hm := List.mem_map_of_mem (f := Prod.fst) ht
    rw [List.map_tail, hnames, ← List.map_tail] at hm
    obtain ⟨path, hp, he⟩ := List.mem_map.mp hm
    exact he ▸ hproper path hp
  exact inStep_saveFiles hout hplain htail (hnames ▸ hnodup) hheld h

theorem inStep_saveFiles_of_names {files : List String} (hout : output ≠ "")
    (hproper : ∀ path ∈ files.tail, Disk.IsProper (Path.baseName path))
    (hnodup : (files.map Path.baseName).Nodup)
    (hnames : ts.map Prod.fst = files.map Path.baseName)
    (hheld : ∀ t ∈ ts, u.Holds w (inWorkspace t.1) t.2) (h : Ends (saveFiles output ts) w x v)
    (hp : path ∈ files) : ∃ text, u.InStep v output (Path.baseName path) text := by
  have hname : Path.baseName path ∈ ts.map Prod.fst := hnames ▸ List.mem_map_of_mem hp
  obtain ⟨t, ht, he⟩ := List.mem_map.mp hname
  exact ⟨t.2, he ▸ inStep_saveFiles_of_mem hout hproper hnodup hnames hheld h t ht⟩

end Saving

section Project
variable {names files : List String} {p : Project} {input message : String} {r : Round}

theorem loaded_loadFiles {ts : Texts} (hnodup : (files.map Path.baseName).Nodup)
    (h : Ends (loadFiles files) w ts v) : Loaded (files.map Path.baseName) w v ts := by
  have hempty : Loaded [] w w [] := ⟨List.prefix_refl _, rfl, by simp⟩
  refine Texts.ends_foldlM (I := fun names => Loaded names w) (fun hnew hw h => ?_) hempty hnodup h
  obtain ⟨code, _, hr, h⟩ := h.of_bind
  obtain ⟨_, _, hc, h⟩ := h.of_bind
  obtain ⟨rfl, rfl⟩ := h.of_pure
  have hput := (hw.idle (hr.keeps copyless)).put hc
  rwa [if_neg hnew] at hput

def Round.project (p : Project) : Round → Project
  | .again q => q
  | .stop => p

theorem loaded_said {r next : Round} {line : String} (hnext : next.project p = p)
    (hp : Loaded names u w p.texts) (h : Ends (say line >>= fun _ => pure next) w r v) :
    Loaded names u v (r.project p).texts := by
  obtain ⟨_, _, hs, h⟩ := h.past copyless
  obtain ⟨rfl, rfl⟩ := h.of_pure
  rw [hnext]
  exact hp.idle hs

theorem loaded_adopt {note : String} (hp : Loaded names u w p.texts)
    (hn : name ∈ names) (h : Ends (adopt p name code note) w r v) :
    Loaded names u v (r.project p).texts := by
  obtain ⟨_, _, hc, h⟩ := h.of_bind
  have hput := hp.put hc
  rw [if_pos hn] at hput
  obtain ⟨_, _, hs, h⟩ := h.of_bind
  obtain ⟨rfl, rfl⟩ := h.of_pure
  exact hput.idle (hs.keeps copyless)

theorem loaded_reviseByModel {t : Diagnostic.Target} {failure : String}
    (hp : Loaded names u w p.texts) (hn : t.file ∈ names)
    (h : Ends (reviseByModel m l p t code message failure) w r v) :
    Loaded names u v (r.project p).texts := by
  obtain ⟨q, _, hq, h⟩ := h.of_bind
  replace hp := hp.idle (hq.keeps copyless)
  split at h
  · obtain ⟨new, _, hk, h⟩ := h.of_bind
    exact loaded_adopt (hp.idle (hk.keeps copyless)) hn h
  · exact loaded_said rfl hp h

private theorem loaded_reviseCompile (hp : Loaded names u w p.texts)
    (h : Ends (reviseCompile m l input p message) w r v) :
    Loaded names u v (r.project p).texts := by
  obtain ⟨_, _, hs, h⟩ := h.past copyless
  obtain ⟨targets, _, ht, h⟩ := h.past copyless
  replace hp := (hp.idle hs).idle ht
  split at h
  · exact loaded_said rfl hp h
  · obtain ⟨_, _, hs, h⟩ := h.past copyless
    replace hp := hp.idle hs
    split at h
    · exact loaded_said rfl hp h
    · rename_i hlookup
      have hn := hp.names ▸ Texts.mem_of_lookup hlookup
      obtain ⟨⟨new, fixed⟩, _, hl, h⟩ := h.past copyless
      replace hp := hp.idle hl
      dsimp only at h
      split at h
      · exact loaded_adopt hp hn h
      · exact loaded_reviseByModel hp hn h

private theorem loaded_reviseRun (hp : Loaded names u w p.texts)
    (h : Ends (reviseRun m l input p message) w r v) : Loaded names u v (r.project p).texts := by
  obtain ⟨_, _, hs, h⟩ := h.past copyless
  obtain ⟨targets, _, ht, h⟩ := h.past copyless
  replace hp := (hp.idle hs).idle ht
  split at h
  · exact loaded_said rfl hp h
  · obtain ⟨_, _, hs, h⟩ := h.past copyless
    replace hp := hp.idle hs
    split at h
    · exact loaded_said rfl hp h
    · rename_i hlookup
      exact loaded_reviseByModel hp (hp.names ▸ Texts.mem_of_lookup hlookup) h

private theorem loaded_projectRound {main : Option String} (hp : Loaded names u w p.texts)
    (h : Ends (projectRound m l input main files p) w r v) :
    Loaded names u v (r.project p).texts := by
  obtain ⟨compiled, _, hc, h⟩ := h.past copyless
  replace hp := hp.idle hc
  split at h
  · exact loaded_reviseCompile hp h
  · obtain ⟨_, _, hs, h⟩ := h.past copyless
    obtain ⟨o, _, ho, h⟩ := h.past copyless
    replace hp := (hp.idle hs).idle ho
    split at h
    · exact loaded_said rfl hp h
    · exact loaded_reviseRun hp h

theorem loaded_projectLoop {main : Option String} {limit : Int} {left : Nat} {q : Project}
    (hp : Loaded names u w p.texts)
    (h : Ends (projectLoop m l input main files limit left p) w q v) :
    Loaded names u v q.texts := by
  induction left generalizing p w with
  | zero =>
    obtain ⟨rfl, rfl⟩ := h.of_pure
    exact hp
  | succ left ih =>
    obtain ⟨_, _, hs, h⟩ := h.past copyless
    obtain ⟨r, _, hr, h⟩ := h.of_bind
    have hround := loaded_projectRound (hp.idle hs) hr
    cases r with
    | again p' => exact ih hround h
    | stop =>
      obtain ⟨rfl, rfl⟩ := h.of_pure
      exact hround

/-- The language of a project: the one that is named, or else that of its files. -/
def projectLanguage (d : Disk) (input : String) (lang : Option String) : Option Language :=
  ((lang.filter (· ≠ "")) <|> (languageIn d input projectSuffixes).map Language.name <|> lang).bind
    Language.ofName?

theorem inStep_project {output lang : Option String} {limit : Option Int}
    (hinput : Glob.hasWildcard input = false) (hnamed : w.disk.Named)
    (h : Ends (project input output lang limit) w true v) : ∃ l,
      projectLanguage w.disk input lang = some l ∧
      Glob.withSuffix w.disk input l.profile.suffix ≠ [] ∧
      ∀ path ∈ Glob.withSuffix w.disk input l.profile.suffix,
        ∃ text, w.InStep v (outputDir input output) (Path.baseName path) text := by
  obtain ⟨d, _, hd, h⟩ := h.of_bind
  obtain ⟨rfl, rfl⟩ := hd.of_disk
  dsimp only at h
  split at h
  · obtain ⟨_, _, -, h⟩ := h.of_bind
    cases h.of_pure.1
  rename_i l hl
  obtain ⟨hproper, hnodup⟩ := Glob.selected hnamed l hinput
  split at h
  · obtain ⟨_, _, -, h⟩ := h.of_bind
    cases h.of_pure.1
  rename_i hfiles
  refine ⟨l, hl, by simpa using hfiles, fun path hp => ?_⟩
  generalize Glob.withSuffix w.disk input l.profile.suffix = files at *
  obtain ⟨_, _, hr, h⟩ := h.of_bind
  obtain ⟨-, rfl⟩ := h.of_pure
  obtain ⟨_, _, hm, h⟩ := hr.of_bind
  have hu := hm.keeps grown
  obtain ⟨d, hmake, rfl⟩ := hm.of_makeDirs
  have hout := Disk.makeDirs_path hmake
  obtain ⟨main, _, hu, h⟩ := h.pass hu
  iterate 6 obtain ⟨_, _, hu, h⟩ := h.pass hu
  obtain ⟨_, _, hu, h⟩ := h.pass hu
  obtain ⟨m, _, hu, h⟩ := h.pass hu
  obtain ⟨ts, _, hload, h⟩ := h.of_bind
  cases limit with
  | none => cases h
  | some limit =>
    obtain ⟨p, _, hloop, h⟩ := h.of_bind
    have hloaded : Loaded _ _ _ p.texts := loaded_projectLoop (loaded_loadFiles hnodup hload) hloop
    obtain ⟨_, _, hsave, h⟩ := h.of_bind
    obtain ⟨text, hstep⟩ := inStep_saveFiles_of_names hout
      (fun path hp => hproper path (List.mem_of_mem_tail hp)) hnodup hloaded.names hloaded.held
      hsave hp
    exact ⟨text, (hstep.past (h.keeps _)).of_grown hu⟩

end Project

end Mender.Workflow
