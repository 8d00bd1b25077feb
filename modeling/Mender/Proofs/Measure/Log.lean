import Mender.Proofs.Disk
import Mender.Proofs.JsonLine
import Mender.Proofs.Measure.Observed

/-! The log of measuring rounds. As long as only rounds write it, it holds a line for each round
that found something out, numbered from one on, and every later round can read it. -/
namespace Mender.Measure
open Text Json

theorem not_rowEnd_of_printable {c : Char} (h : Printable c) : isRowEnd c = false := by
  simp only [isRowEnd, Bool.or_eq_false_iff, beq_eq_false_iff_ne]
  refine ⟨⟨⟨⟨⟨⟨⟨⟨⟨?_, ?_⟩, ?_⟩, ?_⟩, ?_⟩, ?_⟩, ?_⟩, ?_⟩, ?_⟩, ?_⟩ <;>
    (rintro rfl; exact absurd h (by decide))

theorem brace_mem_render (es : List (Datum × Datum)) : '\x7b' ∈ (render (.dict es)).toList := by
  rw [render, String.toList_append, String.toList_append]
  simp

/-- No count of what was observed has more digits than are read. -/
structure Observation.Counted (o : Observation) : Prop where
  benchmarks : Legible o.benchmarks
  failures : Legible o.coverage.failures
  low : Legible o.repoTime.low
  checks : Legible (SelfCheck.failures o.checks)

namespace Record
variable {r : Record}

/-- What a later round learns from a record that it reads. -/
structure Recalled (r : Record) (d : Datum) : Prop where
  round : d.get? "round" = some (.int r.round)
  time : ∃ x, d.get? "ts" = some (.float x)
  low : d.get? "n_below_repo_time" =
    some ((r.found.repoTime.low?.map fun n : Nat => .int n).getD .null)

/-- A record that can be written and read. -/
structure Sound (r : Record) : Prop where
  stored : r.found.Stored
  counted : r.found.Counted
  round : Legible r.round

private theorem Sound.storable (h : r.Sound) : Storable maxDepth r.toDatum := by
  have hshares : Storable 988
      (.dict (r.found.repoTime.shares.map fun s => (s.1, .float s.2))) := by
    simp only [Storable, List.forall_mem_map]
    exact fun s hs => ⟨h.stored.shares s hs, trivial⟩
  have hchecks : Storable 988
      (.dict (r.found.checks.map fun c => (c.name, .text c.verdict.name))) := by
    simp only [Storable, List.forall_mem_map]
    exact fun c hc => ⟨h.stored.checks c hc, trivial⟩
  have hlow : Storable 988 ((r.found.repoTime.low?.map fun n : Nat => Datum.int n).getD .null) := by
    unfold RepoTime.low?
    split
    · simp only [Option.map_none, Option.getD_none, Storable]
    · simpa only [Option.map_some, Option.getD_some, Storable] using h.counted.low
  have hpercent := h.stored.percent.succ
  simp only [toDatum, maxDepth, Storable, List.forall_mem_cons]
  exact ⟨⟨trivial, h.round⟩, ⟨trivial, trivial⟩, ⟨trivial, trivial⟩, ⟨trivial, hpercent⟩,
    ⟨trivial, h.stored.covered⟩, ⟨trivial, h.stored.statements⟩, ⟨trivial, h.counted.benchmarks⟩,
    ⟨trivial, h.counted.failures⟩, ⟨trivial, trivial⟩, ⟨trivial, hshares⟩, ⟨trivial, hlow⟩,
    ⟨trivial, hchecks⟩, ⟨trivial, h.counted.checks⟩, fun e he => by cases he⟩

private def keys : List String :=
  ["round", "ts", "wall_since_prev_s", "coverage_pct", "covered_lines", "num_statements",
   "n_bench_fns", "n_bench_errors", "cov_measure_s", "repo_time_pct", "n_below_repo_time",
   "semcheck", "n_not_self_checking"]

private theorem toDatum_keys (r : Record) :
    ∃ es, r.toDatum = .dict es ∧ es.map (·.1) = keys.map .text := ⟨_, rfl, rfl⟩

theorem Sound.read_line (h : r.Sound) : (∀ c ∈ (render r.toDatum).toList, Printable c) ∧
    ∃ d, Datum.read (render r.toDatum) = .ok d ∧ r.Recalled d := by
  obtain ⟨hprint, d, hback, hparse⟩ := parse_render h.storable
  refine ⟨hprint, d, by rw [Datum.read, hparse], ?_⟩
  obtain ⟨es, hes, hkeys⟩ := r.toDatum_keys
  rw [hes] at hback
  have hget (key : String) {v : Datum} (hv : r.toDatum.get? key = some v) :
      ∃ v', Back v v' ∧ d.get? key = some v' :=
    get_of_back hkeys (by decide) hback (hes ▸ hv)
  obtain ⟨_, hround, hr⟩ := hget "round" rfl
  obtain ⟨_, htime, ht⟩ := hget "ts" rfl
  obtain ⟨_, hlow, hl⟩ := hget "n_below_repo_time" rfl
  cases hround
  cases htime
  refine ⟨hr, ⟨_, ht⟩, ?_⟩
  rw [hl]
  change Back ((r.found.repoTime.low?.map fun n : Nat => Datum.int n).getD .null) _ at hlow
  cases hn : r.found.repoTime.low? with
  | none =>
    rw [hn] at hlow
    cases hlow
    rfl
  | some n =>
    rw [hn] at hlow
    cases hlow
    rfl

end Record

section Reading
variable {rs : List Record} {d : Disk}

def logText (rs : List Record) : String := String.join (rs.map Record.line)

private theorem logText_eq (rs : List Record) :
    logText rs = String.join ((rs.map fun r => render r.toDatum).map (· ++ "\n")) := by
  rw [List.map_map]
  rfl

private theorem history_logText (h : ∀ r ∈ rs, r.Sound) :
    ∃ ds, history (logText rs) = .ok ds ∧ List.Forall₂ Record.Recalled rs ds := by
  have hrows : rows (logText rs) = rs.map fun r => render r.toDatum := by
    rw [logText_eq, rows_lines]
    rw [List.forall_mem_map]
    exact fun r hr c hc => not_rowEnd_of_printable ((h r hr).read_line.1 c hc)
  have hfull : ((rows (logText rs)).filter fun row => trim row ≠ "") =
      rs.map fun r => render r.toDatum := by
    rw [hrows, List.filter_eq_self, List.forall_mem_map]
    exact fun r hr => decide_eq_true (trim_ne_empty (brace_mem_render _) (by decide))
  have hread : ∃ ds, List.Forall₂
      (fun r d => Datum.read (render r.toDatum) = .ok d ∧ r.Recalled d) rs ds := by
    clear hrows hfull
    induction rs with
    | nil => exact ⟨[], .nil⟩
    | cons r rs ih =>
      obtain ⟨hr, hrs⟩ := List.forall_mem_cons.mp h
      obtain ⟨-, d, hd⟩ := hr.read_line
      obtain ⟨ds, hds⟩ := ih hrs
      exact ⟨d :: ds, .cons hd hds⟩
  obtain ⟨ds, hds⟩ := hread
  refine ⟨ds, ?_, hds.imp fun _ _ h => h.2⟩
  rw [history, hfull, mapM_eq_ok_iff, List.forall₂_map_left_iff]
  exact hds.imp fun _ _ h => h.1

def logOfRecords (rs : List Record) : Option FileContent :=
  if rs = [] then none else some ⟨logText rs, true⟩

private theorem mem_logText {c : Char} (h : ∀ r ∈ rs, r.Sound) (hc : c ∈ (logText rs).toList) :
    Printable c ∨ c = '\n' := by
  rw [logText_eq, String.toList_join, List.mem_flatMap] at hc
  obtain ⟨l, hl, hc⟩ := hc
  rw [List.map_map] at hl
  obtain ⟨r, hr, rfl⟩ := List.mem_map.mp hl
  rcases List.mem_append.mp (String.toList_append .. ▸ hc) with hc | hc
  · exact .inl ((h r hr).read_line.1 c hc)
  · exact .inr (List.mem_singleton.mp hc)

private theorem pastRecords_of_log (hfile : d.file? logFile = logOfRecords rs)
    (hdir : d.isDir logFile = false) (h : ∀ r ∈ rs, r.Sound) : logOf d = logText rs ∧
      ∃ ds, pastRecords d = .ok ds ∧ List.Forall₂ Record.Recalled rs ds := by
  unfold logOfRecords at hfile
  split at hfile
  · rename_i hnone
    subst hnone
    refine ⟨by rw [logOf, hfile]; rfl, [], ?_, .nil⟩
    rw [pastRecords, Disk.exists?, Disk.isFile, hfile, hdir]
    rfl
  · obtain ⟨ds, hds, hrecalled⟩ := history_logText h
    refine ⟨by rw [logOf, hfile]; rfl, ds, ?_, hrecalled⟩
    have hreturn : '\r' ∉ (logText rs).toList := by
      intro hc
      rcases mem_logText h hc with hp | he
      · exact absurd hp (by decide)
      · cases he
    have hread : d.read logFile true = .ok (logText rs) := by
      rw [Disk.read, hfile]
      simp only [Bool.not_true, Bool.and_false, Bool.false_eq_true, if_false]
      rw [Disk.feedLines_eq_self hreturn, String.ofList_toList]
    rw [pastRecords, Disk.exists?, Disk.isFile, hfile, hread]
    exact hds

private theorem sinceLast_of_recalled {ds : List Datum} (h : List.Forall₂ Record.Recalled rs ds)
    (now : Float) : ∃ x, sinceLast ds now = .ok x := by
  unfold sinceLast
  split
  · exact ⟨_, rfl⟩
  · rename_i d hlast
    obtain ⟨r, -, hr⟩ := exists_related h (List.mem_of_getLast? hlast)
    obtain ⟨x, hx⟩ := hr.time
    rw [hx]
    exact ⟨_, rfl⟩

private theorem write_log (hdir : d.isDir logFile = false) (text : String) :
    ∃ e, d.write logFile text = .ok e := by
  have hplace : d.locate? logFile = some [logFile] := rfl
  have hd : d.isDirAt [logFile] = false := by
    rw [Disk.isDir, hplace] at hdir
    exact hdir
  have hslash : endsWith logFile "/" = false := by decide +kernel
  refine ⟨{ d with files := Disk.putFile d.files [logFile] ⟨text, true⟩ }, ?_⟩
  rw [Disk.write, hplace]
  simp only [hd, hslash]
  rfl

end Reading

section Visits

/-- A round with the times that it is given and the surroundings that it finds. -/
structure Visit where
  clock : Clock
  world : World

namespace Visit
variable {v : Visit} {o : Observation}

def after (v : Visit) : World := (round v.clock).after v.world

/-- What a round finds out; nothing if it ends before. -/
def found? (v : Visit) : Option Observation :=
  match observe.result v.world with
  | .ok (.ok o) => some o
  | _ => none

theorem observe_of_found (h : v.found? = some o) : observe.result v.world = .ok (.ok o) := by
  unfold found? at h
  split at h
  · rw [‹observe.result v.world = _›, Option.some.inj h]
  · cases h

private theorem observe_disk (w : World) : (observe.after w).disk = w.disk :=
  (inferInstance : Run.Keeps World.unwritten observe).keeps w

instance keeps_sayAll {F : World.Frame} (lines : List (Except Fault String)) :
    Run.Keeps F (sayAll lines) := by
  unfold sayAll
  infer_instance

instance keeps_report {F : World.Frame} (clock : Clock) (found : Observation) (earlier : List Int)
    (n : Nat) : Run.Keeps F (report clock found earlier n) := by
  unfold report
  infer_instance

theorem after_of_none (h : v.found? = none) : v.after.disk = v.world.disk := by
  rw [after, ← observe_disk v.world, round]
  unfold found? at h
  cases hr : observe.result v.world with
  | error e => rw [(Run.bind_error hr).2]
  | ok r =>
    rw [(Run.bind_ok hr).2]
    cases r with
    | error status => rfl
    | ok o =>
      rw [hr] at h
      cases h

private theorem ends_record {w : World} {clock : Clock} {records : List Datum} {since : Float}
    {d : Disk}
    (hp : pastRecords w.disk = .ok records) (hs : sinceLast records clock.now = .ok since)
    (hw : w.disk.write logFile (logOf w.disk ++ Record.line
      ⟨records.length + 1, clock.now, since, clock.stop - clock.start, o⟩) = .ok d) :
    Run.Ends (record clock o) w (lowCounts records, records.length + 1)
      { w with disk := d, accesses := w.accesses ++ [.write logFile] } := by
  have hdisk : Run.Ends Run.disk w w.disk w := rfl
  refine hdisk.bind ?_
  simp only [hp, hs]
  have hwrite := Run.ends_caught (Run.ends_writeFile hw)
  have hdiscard : Run.Ends (discard (Run.caught (Run.writeFile logFile _))) w ⟨⟩ _ :=
    hwrite.bind rfl
  exact hdiscard.bind rfl

/-- What is left to do for a round that found something out. -/
def conclude (clock : Clock) (o : Observation) (records : List Datum) : Run Ending := do
  report clock o (lowCounts records) (records.length + 1)
  return .reported

theorem round_of_found {records : List Datum} {since : Float} {d : Disk} (h : v.found? = some o)
    (hp : pastRecords v.world.disk = .ok records) (hs : sinceLast records v.clock.now = .ok since)
    (hw : v.world.disk.write logFile (logOf v.world.disk ++ Record.line
      ⟨records.length + 1, v.clock.now, since, v.clock.stop - v.clock.start, o⟩) = .ok d) :
    ∃ u : World, u.disk = d ∧
      (round v.clock).result v.world = (conclude v.clock o records).result u ∧
      v.after = (conclude v.clock o records).after u := by
  have hobserve := observe_of_found h
  rw [← observe_disk v.world] at hp hw
  have hrecord := ends_record hp hs hw
  have hresult : (record v.clock o).result (observe.after v.world) =
      .ok (lowCounts records, records.length + 1) := congrArg Prod.fst hrecord
  have hafter : (record v.clock o).after (observe.after v.world) = _ := congrArg Prod.snd hrecord
  refine ⟨(record v.clock o).after (observe.after v.world), by rw [hafter], ?_, ?_⟩
  · rw [round, (Run.bind_ok hobserve).1]
    exact (Run.bind_ok hresult).1
  · rw [after, round, (Run.bind_ok hobserve).2]
    exact (Run.bind_ok hresult).2

theorem conclude_disk (clock : Clock) (records : List Datum) (u : World) :
    ((conclude clock o records).after u).disk = u.disk := by
  have hkeeps : Run.Keeps World.unwritten (conclude clock o records) := by
    unfold conclude
    infer_instance
  exact hkeeps.keeps u

end Visit

def logAfter (vs : List Visit) : Option FileContent :=
  vs.getLast?.bind fun v => v.after.disk.file? logFile

/-- What the coverage notes of failed benchmarks is an object, if it is there. -/
def FailuresNoted (d : Disk) : Prop :=
  ∀ text report notes errors, d.read coverageFile true = .ok text → Datum.read text = .ok report →
    report.get? "meta" = some notes → notes.get? "_pti_bench_errors" = some errors →
    ∃ es, errors = .dict es

/-- A round that comes after others: it finds the log that they left behind, and at first none. All
else may have changed. No count has more digits than are read. -/
structure Visit.Follows (v : Visit) (vs : List Visit) : Prop where
  log : v.world.disk.file? logFile = logAfter vs
  dir : v.world.disk.isDir logFile = false
  noted : FailuresNoted v.world.disk
  counted : ∀ o ∈ v.found?, o.Counted
  short : Legible (vs.length + 1)

/-- Rounds one after the other. -/
inductive Series : List Visit → Prop
  | nil : Series []
  | next {vs : List Visit} {v : Visit} (earlier : Series vs) (last : v.Follows vs) :
    Series (vs ++ [v])

private theorem legible_of_le {m n : Nat} (h : m ≤ n) (hn : Legible n) : Legible m := by
  unfold Legible Number.digitCount at hn ⊢
  rw [Nat.length_toDigits_le_iff (by decide) (by decide)] at hn ⊢
  exact Nat.lt_of_le_of_lt h hn

section Step
variable {v : Visit} {o : Observation} {rs : List Record}

private theorem logOfRecords_concat (rs : List Record) (r : Record) :
    logOfRecords (rs ++ [r]) = some ⟨logText rs ++ r.line, true⟩ := by
  rw [logOfRecords, if_neg (by simp), logText, logText, List.map_append, String.join_append]
  simp [String.join_cons]

/-- The record of a round that follows those with the given records. -/
def Visit.record (v : Visit) (rs : List Record) (since : Float) (o : Observation) : Record :=
  ⟨rs.length + 1, v.clock.now, since, v.clock.stop - v.clock.start, o⟩

private theorem Visit.Follows.sound {vs : List Visit} (h : v.Follows vs) (hv : v.found? = some o)
    (hle : rs.length ≤ vs.length) (since : Float) : (v.record rs since o).Sound :=
  ⟨observe_stored (observe_of_found hv), h.counted o hv,
    legible_of_le (Nat.succ_le_succ hle) h.short⟩

/-- A round after those with the given records: it reads them, adds its own, and reports. -/
theorem Visit.step (hfile : v.world.disk.file? logFile = logOfRecords rs)
    (hdir : v.world.disk.isDir logFile = false) (hsound : ∀ r ∈ rs, r.Sound)
    (hv : v.found? = some o) : ∃ (ds : List Datum) (since : Float) (u : World),
      List.Forall₂ Record.Recalled rs ds ∧
      u.disk.file? logFile = logOfRecords (rs ++ [v.record rs since o]) ∧
      (round v.clock).result v.world = (conclude v.clock o ds).result u ∧
      v.after = (conclude v.clock o ds).after u := by
  obtain ⟨htext, ds, hpast, hrecalled⟩ := pastRecords_of_log hfile hdir hsound
  obtain ⟨since, hsince⟩ := sinceLast_of_recalled hrecalled v.clock.now
  obtain ⟨d, hd⟩ := write_log hdir (logOf v.world.disk ++ (v.record rs since o).line)
  have hwrite := Disk.file_write hd
  rw [Visit.record, hrecalled.length_eq] at hd
  obtain ⟨u, rfl, hresult, hafter⟩ := round_of_found hv hpast hsince hd
  refine ⟨ds, since, u, hrecalled, ?_, hresult, hafter⟩
  rw [hwrite, htext, logOfRecords_concat]

end Step

variable {rs : List Record} {vs : List Visit}

/-- The records that rounds leave behind, one for each that found something out. -/
structure Recorded (vs : List Visit) (rs : List Record) : Prop where
  log : logAfter vs = logOfRecords rs
  found : rs.map (·.found) = vs.filterMap Visit.found?
  round : rs.map (·.round) = List.range' 1 rs.length
  sound : ∀ r ∈ rs, r.Sound

theorem Recorded.length_eq (h : Recorded vs rs) :
    rs.length = (vs.filterMap Visit.found?).length := by
  rw [← h.found, List.length_map]

theorem Recorded.length_le (h : Recorded vs rs) :
    rs.length ≤ vs.length := h.length_eq ▸ List.length_filterMap_le ..

private theorem logAfter_concat (vs : List Visit) (v : Visit) :
    logAfter (vs ++ [v]) = v.after.disk.file? logFile := by
  rw [logAfter, List.getLast?_concat]
  rfl

private theorem Recorded.next {v : Visit}
    (h : Recorded vs rs) (hv : v.Follows vs) : ∃ rs, Recorded (vs ++ [v]) rs := by
  cases hfound : v.found? with
  | none =>
    refine ⟨rs, ?_, ?_, h.round, h.sound⟩
    · rw [logAfter_concat, Visit.after_of_none hfound, hv.log, h.log]
    · rw [List.filterMap_append, h.found]
      simp [hfound]
  | some o =>
    obtain ⟨_, since, u, -, hu, -, hafter⟩ :=
      Visit.step (hv.log.trans h.log) hv.dir h.sound hfound
    refine ⟨rs ++ [v.record rs since o], ?_, ?_, ?_, ?_⟩
    · rw [logAfter_concat, hafter, Visit.conclude_disk, hu]
    · rw [List.map_append, h.found, List.filterMap_append]
      simp [hfound, Visit.record]
    · rw [List.map_append, h.round, List.length_append, List.length_singleton, List.range'_concat]
      simp [Visit.record, Nat.add_comm]
    · intro r hr
      rcases List.mem_append.mp hr with hr | hr
      · exact h.sound r hr
      · exact List.mem_singleton.mp hr ▸ hv.sound hfound h.length_le since

theorem Series.recorded (h : Series vs) : ∃ rs, Recorded vs rs := by
  induction h with
  | nil => exact ⟨[], rfl, rfl, rfl, fun r hr => by cases hr⟩
  | next _ last ih =>
    obtain ⟨rs, hrs⟩ := ih
    exact hrs.next last

/-- How a round keeps the log that earlier rounds wrote, `n` of which found something out. -/
structure Visit.Logged (v : Visit) (n : Nat) : Prop where
  /-- Every line can be read, and the lines are numbered from one on. -/
  read : ∃ ds since, pastRecords v.world.disk = .ok ds ∧ sinceLast ds v.clock.now = .ok since ∧
    ds.map (·.get? "round") = (List.range' 1 n).map fun k : Nat => some (.int k)
  /-- Without anything found out the log stays as it is. -/
  idle : v.found? = none → v.after.disk.file? logFile = v.world.disk.file? logFile
  /-- Otherwise one line is added, which has the next number and can be read too. -/
  line : ∀ o, v.found? = some o → ∃ r : Record, r.found = o ∧ r.round = n + 1 ∧
    (∀ c ∈ (render r.toDatum).toList, Printable c) ∧
    (∃ d, Datum.read (render r.toDatum) = .ok d ∧ d.get? "round" = some (.int r.round)) ∧
    v.after.disk.file? logFile =
      some ⟨logOf v.world.disk ++ render r.toDatum ++ "\n", true⟩

private theorem Record.Recalled.rounds {ds : List Datum} (h : List.Forall₂ Record.Recalled rs ds) :
    ds.map (·.get? "round") = (rs.map (·.round)).map fun k : Nat => some (.int k) := by
  induction h with
  | nil => rfl
  | cons hr _ ih => rw [List.map_cons, List.map_cons, List.map_cons, hr.round, ih]

private theorem Visit.Follows.logged {v : Visit}
    (hv : v.Follows vs) (h : Recorded vs rs) : v.Logged (vs.filterMap Visit.found?).length := by
  rw [← h.length_eq]
  obtain ⟨htext, ds, hpast, hrecalled⟩ := pastRecords_of_log (hv.log.trans h.log) hv.dir h.sound
  obtain ⟨since, hsince⟩ := sinceLast_of_recalled hrecalled v.clock.now
  refine ⟨⟨ds, since, hpast, hsince, ?_⟩, fun hnone => by rw [after_of_none hnone],
    fun o hfound => ?_⟩
  · rw [Record.Recalled.rounds hrecalled, h.round]
  · obtain ⟨_, since, u, -, hu, -, hafter⟩ :=
      Visit.step (hv.log.trans h.log) hv.dir h.sound hfound
    obtain ⟨hprint, d, hd, hrecord⟩ := (hv.sound hfound h.length_le since).read_line
    refine ⟨v.record rs since o, rfl, rfl, hprint, ⟨d, hd, hrecord.round⟩, ?_⟩
    rw [hafter, conclude_disk, hu, logOfRecords_concat, htext, String.append_assoc]
    rfl

section Steady

end Steady

end Visits

end Mender.Measure
