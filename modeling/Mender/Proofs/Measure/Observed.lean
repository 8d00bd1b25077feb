import Mender.Measure.Round
import Mender.Proofs.Fault
import Mender.Proofs.Run
import Mender.Proofs.Storable
import Mender.Proofs.Trim

/-! What a measuring round observes and shows. What it observes is read from JSON, so it can be
written as JSON again, and observing leaves the files alone. What it shows are the tables, a summary
and the advice, in this order. -/
namespace Mender
open Json

namespace Datum
variable {n : Nat} {d empty value : Datum} {key : String}

private theorem storable_of_get (h : Storable (n + 1) d) (hv : d.get? key = some value) :
    Storable n value := by
  cases d with
  | dict es =>
    simp only [Storable] at h
    obtain ⟨e, he, rfl⟩ := Option.map_eq_some_iff.mp hv
    exact (h e (List.mem_of_find?_eq_some he)).2
  | _ => cases hv

theorem storable_of_field (h : Storable (n + 1) d) (hempty : Storable n empty)
    (hv : d.field key empty = .ok value) : Storable n value := by
  cases d with
  | dict es =>
    cases hv
    cases hg : Datum.get? (.dict es) key with
    | none => exact hempty
    | some v =>
      rw [Option.filter_some]
      split
      · exact storable_of_get h hg
      · exact hempty
  | _ => cases hv

theorem storable_of_entries {es : List (Datum × Datum)} (h : Storable (n + 1) d)
    (he : d.entries = .ok es) : ∀ e ∈ es, IsText e.1 ∧ Storable n e.2 := by
  cases d with
  | dict fs =>
    cases he
    simpa only [Storable] using h
  | _ => cases he

theorem storable_of_read {s : String} (h : Datum.read s = .ok d) : Storable maxDepth d := by
  unfold Datum.read at h
  split at h
  · cases h
    exact storable_of_parse ‹_›
  · cases h

end Datum

namespace Measure
open Text

section Rows

private theorem rowsFrom_cons (row cs : List Char) {c : Char} (h : c ≠ '\r') :
    rowsFrom row (c :: cs) = if isRowEnd c then String.ofList row.reverse :: rowsFrom [] cs
      else rowsFrom (c :: row) cs := by
  conv_lhs => unfold rowsFrom
  split
  · rename_i he
    cases he
  · rename_i he
    exact absurd (List.cons.inj he).1 h
  · rename_i he
    obtain ⟨rfl, rfl⟩ := List.cons.inj he
    rfl

private theorem rowsFrom_append (row cs more : List Char) (h : ∀ c ∈ cs, isRowEnd c = false) :
    rowsFrom row (cs ++ more) = rowsFrom (cs.reverse ++ row) more := by
  induction cs generalizing row with
  | nil => rfl
  | cons c cs ih =>
    obtain ⟨hc, hcs⟩ := List.forall_mem_cons.mp h
    have hreturn : c ≠ '\r' := by
      rintro rfl
      cases hc
    rw [List.cons_append, rowsFrom_cons _ _ hreturn, hc, if_neg (by decide), ih (c :: row) hcs,
      List.reverse_cons, List.append_assoc, List.singleton_append]

private theorem rowsFrom_line (cs more : List Char) (h : ∀ c ∈ cs, isRowEnd c = false) :
    rowsFrom [] (cs ++ '\n' :: more) = String.ofList cs :: rowsFrom [] more := by
  rw [rowsFrom_append [] cs _ h, rowsFrom_cons _ _ (by decide), if_pos (by decide), List.append_nil,
    List.reverse_reverse]

theorem rows_lines {ls : List String} (h : ∀ l ∈ ls, ∀ c ∈ l.toList, isRowEnd c = false) :
    rows (String.join (ls.map (· ++ "\n"))) = ls := by
  induction ls with
  | nil => rfl
  | cons l ls ih =>
    obtain ⟨hl, hls⟩ := List.forall_mem_cons.mp h
    have htext : (String.join ((l :: ls).map (· ++ "\n"))).toList =
        l.toList ++ '\n' :: (String.join (ls.map (· ++ "\n"))).toList := by
      simp [String.join_cons]
    rw [rows, htext, rowsFrom_line _ _ hl, String.ofList_toList]
    exact congrArg (l :: ·) (ih hls)

end Rows

/-- What was observed came from JSON. -/
structure Observation.Stored (o : Observation) : Prop where
  percent : Storable 987 o.coverage.percent
  covered : Legible o.coverage.covered
  statements : Legible o.coverage.statements
  shares : ∀ s ∈ o.repoTime.shares, IsText s.1
  checks : ∀ c ∈ o.checks, IsText c.name

section Parts
variable {n : Nat} {d : Datum}

private theorem storable_noEntries (n : Nat) : Storable (n + 1) (.dict []) := by
  simp [Storable]

private theorem legible_number {key : String} {i : Int} (h : Storable (n + 1) d)
    (hi : Coverage.number d key = .ok i) : Legible i := by
  obtain ⟨v, hv, hi⟩ := bind_eq_ok.mp hi
  have hzero : Storable n (.int 0) := by
    simp only [Storable]
    decide
  have hs := Datum.storable_of_field h hzero hv
  cases v with
  | int j =>
    cases hi
    simpa only [Storable] using hs
  | _ => cases hi

private theorem coverage_stored {c : Coverage} (h : Storable (n + 3) d)
    (hc : Coverage.ofDatum d = .ok c) :
    Storable (n + 1) c.percent ∧ Legible c.covered ∧ Legible c.statements := by
  obtain ⟨totals, htotals, hc⟩ := bind_eq_ok.mp hc
  obtain ⟨notes, -, hc⟩ := bind_eq_ok.mp hc
  obtain ⟨_, -, hc⟩ := bind_eq_ok.mp hc
  obtain ⟨_, -, hc⟩ := bind_eq_ok.mp hc
  obtain ⟨_, -, hc⟩ := bind_eq_ok.mp hc
  obtain ⟨_, -, hc⟩ := bind_eq_ok.mp hc
  obtain ⟨percent, hpercent, hc⟩ := bind_eq_ok.mp hc
  obtain ⟨covered, hcovered, hc⟩ := bind_eq_ok.mp hc
  obtain ⟨statements, hstatements, hc⟩ := bind_eq_ok.mp hc
  obtain ⟨_, -, hc⟩ := bind_eq_ok.mp hc
  have ht : Storable (n + 2) totals := Datum.storable_of_field h (storable_noEntries _) htotals
  have hfloat : Storable (n + 1) (.float 0.0) := by simp only [Storable]
  cases hc
  exact ⟨Datum.storable_of_field ht hfloat hpercent, legible_number ht hcovered,
    legible_number ht hstatements⟩

private theorem shares_stored {t : RepoTime} (h : Storable (n + 2) d)
    (ht : RepoTime.ofDatum d = .ok t) : ∀ s ∈ t.shares, IsText s.1 := by
  obtain ⟨field, hfield, ht⟩ := bind_eq_ok.mp ht
  obtain ⟨entries, hentries, ht⟩ := bind_eq_ok.mp ht
  obtain ⟨_, -, ht⟩ := bind_eq_ok.mp ht
  obtain ⟨_, -, ht⟩ := bind_eq_ok.mp ht
  obtain ⟨shares, hshares, ht⟩ := bind_eq_ok.mp ht
  obtain ⟨_, -, ht⟩ := bind_eq_ok.mp ht
  have hnames := Datum.storable_of_entries
    (Datum.storable_of_field h (storable_noEntries n) hfield) hentries
  cases ht
  intro s hs
  obtain ⟨e, he, hes⟩ := exists_of_mem_mapM hshares hs
  obtain ⟨x, -, hx⟩ := bind_eq_ok.mp hes
  cases hx
  exact (hnames e he).1

private theorem ofDatum_name {modified : Bool} {name : Datum} {c : SelfCheck}
    (h : SelfCheck.ofDatum modified name d = .ok c) : c.name = name := by
  simp only [SelfCheck.ofDatum, bind_eq_ok] at h
  obtain ⟨_, -, _, -, _, -, _, -, _, -, _, -, _, -, _, -, _, -, _, -, _, -, _, -, _, -, _, -,
    h⟩ := h
  cases h
  rfl

private theorem judgeAll_names (modified : Bool) (es : List (Datum × Datum)) :
    ∀ c ∈ (SelfCheck.judgeAll modified es).1, ∃ e ∈ es, c.name = e.1 := by
  induction es with
  | nil => exact fun c hc => by cases hc
  | cons e es ih =>
    have hrest (c : SelfCheck) (hc : c ∈ (SelfCheck.judgeAll modified es).1) :
        ∃ f ∈ e :: es, c.name = f.1 := by
      obtain ⟨f, hf, hname⟩ := ih c hc
      exact ⟨f, List.mem_cons_of_mem e hf, hname⟩
    obtain ⟨name, d⟩ := e
    intro c hc
    unfold SelfCheck.judgeAll at hc
    split at hc
    · cases hc
    · rename_i he
      cases he
      split at hc
      · cases hc
      · rename_i first hfirst
        rcases List.mem_cons.mp hc with rfl | hc
        · exact ⟨_, List.mem_cons_self, ofDatum_name hfirst⟩
        · exact hrest c hc
    · rename_i he
      cases he
      exact hrest c hc

private theorem checks_stored {modified : Bool} (h : Storable (n + 2) d) :
    ∀ c ∈ (SelfCheck.all modified d).1, IsText c.name := by
  intro c hc
  unfold SelfCheck.all at hc
  split at hc
  · cases hc
  · rename_i entries hentries
    obtain ⟨field, hfield, hentries⟩ := bind_eq_ok.mp hentries
    obtain ⟨e, he, hname⟩ := judgeAll_names modified entries c hc
    rw [hname]
    exact (Datum.storable_of_entries
      (Datum.storable_of_field h (storable_noEntries n) hfield) hentries e he).1

private theorem storable_of_lastRow {stdout : String} (h : lastRow stdout = .ok d) :
    Storable maxDepth d := by
  unfold lastRow at h
  split at h
  · cases h
    exact storable_noEntries _
  · exact Datum.storable_of_read h

end Parts

section Runs
variable {w v : World} {d : Datum}

instance keeps_output {F : World.Frame} [F.Issues] (name : String) (timeout : Int) :
    Run.Keeps F (output name timeout) := by
  unfold output
  infer_instance

private theorem storable_of_output {name : String} {timeout : Int}
    (h : (output name timeout).result w = .ok d) : Storable maxDepth d := by
  obtain ⟨_, _, -, h⟩ := (Run.ends_of_result h).of_bind
  obtain ⟨_, _, -, h⟩ := h.of_bind
  exact storable_of_lastRow h.of_ofExcept.1

private theorem measureCoverage_stored {c : Coverage} (h : Run.Ends measureCoverage w (.ok c) v) :
    Storable 987 c.percent ∧ Legible c.covered ∧ Legible c.statements := by
  obtain ⟨_, _, -, h⟩ := h.of_bind
  obtain ⟨_, _, -, h⟩ := h.of_bind
  obtain ⟨_, _, -, h⟩ := h.of_bind
  split at h
  · obtain ⟨_, _, -, h⟩ := h.of_bind
    obtain ⟨_, _, -, h⟩ := h.of_bind
    cases h.of_pure.1
  · obtain ⟨_, _, -, h⟩ := h.of_bind
    obtain ⟨d, _, hd, h⟩ := h.of_bind
    obtain ⟨c', _, hc, h⟩ := h.of_bind
    cases h.of_pure.1
    exact coverage_stored (n := 986) (Datum.storable_of_read hd.of_ofExcept.1) hc.of_ofExcept.1

private theorem measureRepoTime_stored {t : RepoTime} (h : Run.Ends measureRepoTime w t v) :
    ∀ s ∈ t.shares, IsText s.1 := by
  obtain ⟨_, _, -, h⟩ := h.of_bind
  split at h
  · obtain ⟨r, u, hr, h⟩ := h.of_bind
    obtain ⟨hr, -⟩ := hr.of_caught
    cases r with
    | ok t' =>
      obtain ⟨rfl, -⟩ := h.of_pure
      obtain ⟨d, _, hd, hr⟩ := (Run.ends_of_result hr).of_bind
      exact shares_stored (n := 987) (storable_of_output (congrArg Prod.fst hd)) hr.of_ofExcept.1
    | error e =>
      obtain ⟨_, _, -, h⟩ := h.of_bind
      obtain ⟨rfl, -⟩ := h.of_pure
      exact fun s hs => by cases hs
  · obtain ⟨rfl, -⟩ := h.of_pure
    exact fun s hs => by cases hs

private theorem selfChecks_stored {modified : Bool} {cs : List SelfCheck}
    (h : Run.Ends (selfChecks modified) w cs v) : ∀ c ∈ cs, IsText c.name := by
  obtain ⟨r, u, hr, h⟩ := h.of_bind
  obtain ⟨hr, -⟩ := hr.of_caught
  cases r with
  | ok d =>
    obtain ⟨_, _, -, h⟩ := h.of_bind
    obtain ⟨rfl, -⟩ := h.of_pure
    exact checks_stored (n := 987) (storable_of_output hr)
  | error e =>
    obtain ⟨_, _, -, h⟩ := h.of_bind
    obtain ⟨rfl, -⟩ := h.of_pure
    exact fun c hc => by cases hc

private theorem checkBenchmarks_stored {r : List String × List SelfCheck}
    (h : Run.Ends checkBenchmarks w r v) : ∀ c ∈ r.2, IsText c.name := by
  obtain ⟨_, _, -, h⟩ := h.of_bind
  split at h
  · obtain ⟨_, _, -, h⟩ := h.of_bind
    obtain ⟨cs, _, hcs, h⟩ := h.of_bind
    obtain ⟨rfl, -⟩ := h.of_pure
    exact selfChecks_stored hcs
  · obtain ⟨rfl, -⟩ := h.of_pure
    exact fun c hc => by cases hc

theorem observe_stored {o : Observation} (h : observe.result w = .ok (.ok o)) : o.Stored := by
  obtain ⟨r, _, hr, h⟩ := (Run.ends_of_result h).of_bind
  cases r with
  | error status => cases h.of_pure.1
  | ok c =>
    obtain ⟨t, _, ht, h⟩ := h.of_bind
    obtain ⟨checked, _, hchecked, h⟩ := h.of_bind
    obtain ⟨_, _, -, h⟩ := h.of_bind
    cases h.of_pure.1
    obtain ⟨hpercent, hcovered, hstatements⟩ := measureCoverage_stored hr
    exact ⟨hpercent, hcovered, hstatements, measureRepoTime_stored ht,
      checkBenchmarks_stored hchecked⟩

end Runs

section Frames
variable {F : World.Frame} [F.Issues] [F.Reads]

instance keeps_measureCoverage : Run.Keeps F measureCoverage := by
  unfold measureCoverage
  infer_instance

instance keeps_warnOf (runner : String) (e : Fault) : Run.Keeps F (warnOf runner e) :=
  Run.keeps_warn _

instance keeps_measureRepoTime : Run.Keeps F measureRepoTime := by
  unfold measureRepoTime
  infer_instance

instance keeps_changedFiles : Run.Keeps F changedFiles := by
  unfold changedFiles
  infer_instance

instance keeps_selfChecks (modified : Bool) : Run.Keeps F (selfChecks modified) := by
  have hwarn (fault : Option Fault) : Run.Keeps F (fault.forM (warnOf "semcheck")) := by
    cases fault with
    | none => exact Run.keeps_pure _
    | some e => exact keeps_warnOf "semcheck" e
  refine Run.keeps_bind_except (k := fun d => ?_) (l := fun e => ?_)
  · exact Run.keeps_bind (h := hwarn (SelfCheck.all modified d).2)
  · exact Run.keeps_bind

instance keeps_checkBenchmarks : Run.Keeps F checkBenchmarks := by
  unfold checkBenchmarks
  infer_instance

instance keeps_benchCount : Run.Keeps F benchCount := by
  unfold benchCount
  refine Run.keeps_bind (k := fun d => ?_)
  split <;> infer_instance

instance keeps_observe : Run.Keeps F observe := by
  unfold observe
  infer_instance

end Frames

section Report
variable {w v : World} {u : PUnit}

def shown (lines : List String) : String := String.join (lines.map (· ++ "\n"))

/-- The lines of a report: three tables, a summary and the advice. -/
structure Report (clock : Clock) (o : Observation) (earlier : List Int) (n : Nat) where
  rate : Float
  coverage : List String
  repoTime : List String
  checks : List String
  rate_eq : o.coverage.rate = .ok rate
  coverage_eq : o.coverage.table rate = coverage.map .ok
  repoTime_eq : o.repoTime.table = repoTime.map .ok
  checks_eq : SelfCheck.table o.changed o.checks = checks.map .ok

variable {clock : Clock} {o : Observation} {earlier : List Int} {n : Nat}

def Report.advice (r : Report clock o earlier n) : List String :=
  stopAdvice earlier r.rate o.repoTime

def Report.lines (r : Report clock o earlier n) : List String :=
  r.coverage ++ r.repoTime ++ r.checks ++ [summaryLine n r.rate (clock.stop - clock.start) o] ++
    r.advice

private theorem ends_sayAll (texts : List String) (w : World) :
    ∃ v, Run.Ends (sayAll (texts.map .ok)) w ⟨⟩ v := by
  refine Run.ends_forM (List.forall_mem_map.mpr fun text _ w => ?_) w
  exact ⟨(Run.say text).after w, rfl⟩

theorem Report.ends (r : Report clock o earlier n) (w : World) :
    ∃ v, Run.Ends (report clock o earlier n) w ⟨⟩ v := by
  have hcoverage := ends_sayAll r.coverage w
  rw [← r.coverage_eq] at hcoverage
  obtain ⟨w₁, hw₁⟩ := hcoverage
  have hrepoTime := ends_sayAll r.repoTime w₁
  rw [← r.repoTime_eq] at hrepoTime
  obtain ⟨w₂, hw₂⟩ := hrepoTime
  have hchecks := ends_sayAll r.checks w₂
  rw [← r.checks_eq] at hchecks
  obtain ⟨w₃, hw₃⟩ := hchecks
  have hsummary (line : String) : Run.Ends (Run.say line) w₃ ⟨⟩ ((Run.say line).after w₃) := rfl
  have hadvice (w : World) : ∃ v, Run.Ends (r.advice.forM Run.say) w ⟨⟩ v :=
    Run.ends_forM (fun line _ w => ⟨(Run.say line).after w, rfl⟩) w
  obtain ⟨v, hv⟩ := hadvice _
  exact ⟨v, (Run.ends_ofExcept r.rate_eq).bind
    (hw₁.bind (hw₂.bind (hw₃.bind ((hsummary _).bind hv))))⟩

end Report

end Measure
end Mender
