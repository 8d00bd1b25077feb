import Mender.Workflow.Step

/-! What a run does to its surroundings. A relation between the surroundings before and after that
holds over two runs in a row is kept by every run whose parts keep it. One such relation is that the
record of revisions stays in order: a run takes its proposals from the model's replies and goes on
with exactly those that change a text. -/
namespace Mender

/-- A reply of the model asks for a revision as it is read. -/
def Revision.AskedBy (r : Revision) (reader : Answer.Reader) (reply : String) : Prop :=
  ∃ d, Answer.parse? (Answer.payload reply) reader = some d ∧ d.truthy = true ∧
    (Replacement.applyDatum r.before (Model.replacements d)).outcome.1 = .ok r.after

structure Talk where
  replies : List Reply
  reader : Answer.Reader

def Revision.changes (r : Revision) : Bool := r.before ≠ r.after

def Command.answer (c : Command) (rules : List CommandRule) : Response × List CommandRule :=
  (respond (Text.join " " c.words) rules).getD (defaultResponse c.words, rules)

def Command.removes (c : Command) : Bool := c.words.take 2 = ["docker", "rm"]

def Response.isDone : Response → Bool
  | .done _ _ _ => true
  | _ => false

namespace World

def talk (w : World) : Talk := ⟨w.replies, w.reader⟩

def Within (w : World) (t : Talk) : Prop := w.replies ⊆ t.replies ∧ w.reader = t.reader

theorem within_talk (w : World) : w.Within w.talk := ⟨List.Subset.refl _, rfl⟩

/-- The second record goes on from the first one: proposals come from the given replies, and those
that change a text are kept. -/
def Follows (rs : Talk) (w v : World) : Prop :=
  ∃ ps : List Revision, v.proposed = w.proposed ++ ps ∧
    v.kept = w.kept ++ ps.filter Revision.changes ∧
    ∀ p ∈ ps, ∃ s, Reply.text s ∈ rs.replies ∧ p.AskedBy rs.reader s

theorem Follows.refl (rs : Talk) (w : World) : w.Follows rs w := ⟨[], by simp⟩

theorem Follows.of_eq {rs : Talk} {w v : World} (hp : v.proposed = w.proposed)
    (hk : v.kept = w.kept) : w.Follows rs v := ⟨[], by simp [hp, hk]⟩

theorem Follows.trans {rs : Talk} {u v w : World} (h : u.Follows rs v)
    (k : v.Follows rs w) : u.Follows rs w := by
  obtain ⟨ps, hp, hk, ha⟩ := h
  obtain ⟨qs, kp, kk, ka⟩ := k
  refine ⟨ps ++ qs, by rw [kp, hp, List.append_assoc], ?_, ?_⟩
  · rw [kk, hk, List.filter_append, List.append_assoc]
  · intro p hm
    obtain hm | hm := List.mem_append.mp hm
    · exact ha p hm
    · exact ka p hm

/-- Surroundings that differ in neither files nor replies nor prompts nor commands nor the record of
them. -/
structure Quiet (w v : World) : Prop where
  disk : v.disk = w.disk
  accesses : v.accesses = w.accesses
  replies : v.replies = w.replies
  reader : v.reader = w.reader
  prompts : v.prompts = w.prompts
  proposed : v.proposed = w.proposed
  kept : v.kept = w.kept
  commands : v.commands = w.commands
  commandRules : v.commandRules = w.commandRules

theorem Quiet.refl (w : World) : w.Quiet w := ⟨rfl, rfl, rfl, rfl, rfl, rfl, rfl, rfl, rfl⟩

def issued (w : World) (c : Command) : World :=
  { w with commands := w.commands ++ [c], commandRules := (c.answer w.commandRules).2 }

/-- A relation between surroundings before and after: it holds over two runs in a row, and over
whatever leaves files, replies, prompts and commands alone. -/
structure Frame where
  rel : World → World → Prop
  trans {u v w : World} : rel u v → rel v w → rel u w
  quiet {w v : World} : w.Quiet v → rel w v

namespace Frame
variable (F : Frame)

/-- The relation holds over every command that copies nothing. -/
class Executes : Prop where
  exec (w : World) (words : List String) (timeout : Option Int) :
    F.rel w (w.issued ⟨words, timeout, none⟩)

class Issues : Prop where
  issue (w : World) (c : Command) : F.rel w (w.issued c)

/-- The relation holds over every command that neither copies nor removes anything, over a command
that is not carried out, and over one with such a command behind it. -/
class Operates : Prop where
  exec (w : World) {c : Command} (hc : c.content = none) (hr : c.removes = false) :
    F.rel w (w.issued c)
  refused (w : World) {c : Command} (hc : c.content = none)
    (hd : (c.answer w.commandRules).1.isDone = false) : F.rel w (w.issued c)
  behind (w : World) {b c : Command} (hb : b.content = none) (hc : c.content = none)
    (hr : c.removes = false) : F.rel w ((w.issued b).issued c)

/-- The relation also holds over every command that copies something. -/
class Handles : Prop extends F.Operates where
  copy (w : World) {c : Command} (hr : c.removes = false) : F.rel w (w.issued c)

class Reads : Prop where
  read (w : World) (as : List Access) : F.rel w { w with accesses := w.accesses ++ as }

/-- The relation holds over files being read and written. -/
class Stores : Prop where
  store (w : World) (d : Disk) (as : List Access) :
    F.rel w { w with disk := d, accesses := w.accesses ++ as }

/-- The relation holds over the model being asked, whatever becomes of its revisions. -/
class Asks : Prop where
  ask (w : World) (replies : List Reply) (prompts : List String) (proposed kept : List Revision) :
    F.rel w { w with replies := replies, prompts := prompts, proposed := proposed, kept := kept }

instance [F.Issues] : F.Executes := ⟨fun w _ _ => Issues.issue w _⟩

instance [h : F.Executes] : F.Operates := by
  have exec (w : World) (c : Command) (hc : c.content = none) : F.rel w (w.issued c) := by
    obtain ⟨words, timeout, content⟩ := c
    obtain rfl : content = none := hc
    exact h.exec w words timeout
  exact ⟨fun w c hc _ => exec w c hc, fun w c hc _ => exec w c hc,
    fun w b c hb hc _ => F.trans (exec w b hb) (exec _ c hc)⟩

instance [F.Issues] : F.Handles := ⟨fun w _ _ => Issues.issue w _⟩

instance [F.Stores] : F.Reads := ⟨fun w as => Stores.store w w.disk as⟩

end Frame

def recorded (rs : Talk) : Frame where
  rel w v := w.Within rs → v.Within rs ∧ w.Follows rs v
  trans h k hr := by
    obtain ⟨hr, hf⟩ := h hr
    obtain ⟨kr, kf⟩ := k hr
    exact ⟨kr, hf.trans kf⟩
  quiet h hr := ⟨⟨h.replies ▸ hr.1, h.reader.trans hr.2⟩, .of_eq h.proposed h.kept⟩

instance (rs : Talk) : (recorded rs).Issues := ⟨fun _ _ hr => ⟨hr, .of_eq rfl rfl⟩⟩

instance (rs : Talk) : (recorded rs).Stores := ⟨fun _ _ _ hr => ⟨hr, .of_eq rfl rfl⟩⟩

def untouched : Frame where
  rel w v := v.disk = w.disk ∧ v.accesses = w.accesses
  trans h k := ⟨k.1.trans h.1, k.2.trans h.2⟩
  quiet h := ⟨h.disk, h.accesses⟩

instance : untouched.Issues := ⟨fun _ _ => ⟨rfl, rfl⟩⟩

instance : untouched.Asks := ⟨fun _ _ _ _ _ => ⟨rfl, rfl⟩⟩

def unwritten : Frame where
  rel w v := v.disk = w.disk
  trans h k := k.trans h
  quiet h := h.disk

instance : unwritten.Issues := ⟨fun _ _ => rfl⟩

instance : unwritten.Asks := ⟨fun _ _ _ _ _ => rfl⟩

instance : unwritten.Reads := ⟨fun _ _ => rfl⟩

end World

namespace Run
open World
variable {α β γ δ : Type} {rs : Talk} {F : Frame} {f : α → Run β} {x : Run α} {w : World}

def result (x : Run α) (w : World) : Except Fault α := (x.run.run w).1

def after (x : Run α) (w : World) : World := (x.run.run w).2

/-- Started with no other replies than the given ones, a run keeps the record in order, and a
value that it gives has a property. -/
def Ensures (rs : Talk) (x : Run α) (P : α → Prop) : Prop :=
  ∀ w : World, w.Within rs → (x.after w).Within rs ∧ w.Follows rs (x.after w) ∧
    ∀ a, x.result w = .ok a → P a

/-- The surroundings before and after a run stand in a relation. -/
class Keeps (F : Frame) (x : Run α) : Prop where
  keeps (w : World) : F.rel w (x.after w)

abbrev Faithful (rs : Talk) (x : Run α) : Prop := Keeps (recorded rs) x

theorem Keeps.ensures (h : Faithful rs x) : Ensures rs x fun _ => True := by
  intro w hw
  obtain ⟨hr, hf⟩ := h.keeps w hw
  exact ⟨hr, hf, fun _ _ => trivial⟩

private theorem run_bind (x : Run α) (f : α → Run β) (w : World) :
    (x >>= f).run.run w = match x.result w with
      | .ok a => (f a).run.run (x.after w)
      | .error e => (.error e, x.after w) := by
  change ExceptT.bindCont f (x.result w) (x.after w) = _
  cases x.result w with
  | ok a => rfl
  | error e => rfl

theorem bind_ok {a : α} (h : x.result w = .ok a) : (x >>= f).result w = (f a).result (x.after w) ∧
      (x >>= f).after w = (f a).after (x.after w) := by
  have hb := run_bind x f w
  rw [h] at hb
  exact ⟨congrArg Prod.fst hb, congrArg Prod.snd hb⟩

theorem bind_error {e : Fault} (h : x.result w = .error e) :
    (x >>= f).result w = .error e ∧ (x >>= f).after w = x.after w := by
  have hb := run_bind x f w
  rw [h] at hb
  exact ⟨congrArg Prod.fst hb, congrArg Prod.snd hb⟩

def Ends (x : Run α) (w : World) (a : α) (v : World) : Prop := x.run.run w = (.ok a, v)

theorem ends_of_result {a : α} (h : x.result w = .ok a) : Ends x w a (x.after w) := Prod.ext h rfl

theorem Ends.bind {u v w : World} {a : α} {b : β} (h : Ends x u a v)
    (k : Ends (f a) v b w) : Ends (x >>= f) u b w := by
  rw [Ends, run_bind, result, after, h]
  exact k

theorem Ends.of_bind {w v : World} {b : β} (h : Ends (x >>= f) w b v) :
    ∃ a u, Ends x w a u ∧ Ends (f a) u b v := by
  rw [Ends, run_bind] at h
  cases hx : x.result w with
  | error e =>
    rw [hx] at h
    cases h
  | ok a =>
    rw [hx] at h
    exact ⟨a, x.after w, ends_of_result hx, h⟩

section Completion
variable {x : Run α} {f : α → Run β} {w : World}

def Completes (x : Run α) (w : World) : Prop := ∃ a, x.result w = .ok a

theorem completes_bind {a : α} (h : x.result w = .ok a) :
    (x >>= f).Completes w ↔ (f a).Completes (x.after w) := by
  rw [Completes, Completes, (bind_ok h).1]

theorem not_completes_bind {e : Fault} (h : x.result w = .error e) : ¬ (x >>= f).Completes w := by
  rintro ⟨b, hb⟩
  rw [(bind_error h).1] at hb
  cases hb

theorem Completes.of_bind (h : (x >>= f).Completes w) : x.Completes w := by
  obtain ⟨b, hb⟩ := h
  obtain ⟨a, _, ha, -⟩ := (ends_of_result hb).of_bind
  exact ⟨a, congrArg Prod.fst ha⟩

theorem after_discard : (discard x).after w = x.after w := by
  change (x >>= fun _ => pure PUnit.unit).after w = _
  cases hr : x.result w with
  | error e => exact (bind_error hr).2
  | ok a => exact (bind_ok hr).2

theorem completes_discard : (discard x).Completes w ↔ x.Completes w := by
  refine ⟨Completes.of_bind, fun ⟨a, ha⟩ => ?_⟩
  exact (completes_bind ha).mpr ⟨_, rfl⟩

end Completion

section Leading
variable {P Q R : World → Prop} {a : α} {b : β}

/-- From surroundings of one kind, a run gives a value and leads to surroundings of another kind. -/
def Leads (P : World → Prop) (x : Run α) (a : α) (Q : World → Prop) : Prop :=
  ∀ w, P w → x.result w = .ok a ∧ Q (x.after w)

theorem Leads.bind (h : Leads P x a Q) (k : Leads Q (f a) b R) : Leads P (x >>= f) b R := by
  intro w hw
  obtain ⟨hr, hq⟩ := h w hw
  rw [(bind_ok hr).1, (bind_ok hr).2]
  exact k _ hq

theorem Leads.pure (a : α) : Leads P (pure a) a P := fun _ hw => ⟨rfl, hw⟩

theorem Leads.caught (h : Leads P x a Q) : Leads P (caught x) (.ok a) Q := by
  intro w hw
  obtain ⟨hr, hq⟩ := h w hw
  exact ⟨congrArg Except.ok hr, hq⟩

theorem Leads.discard (h : Leads P x a Q) : Leads P (discard x) ⟨⟩ Q :=
  h.bind (.pure _)

theorem Leads.get_bind {f : World → Run β} (h : ∀ w, P w → Leads P (f w) b Q) :
    Leads P (get >>= f) b Q := by
  intro w hw
  have hg : (get : Run World).result w = .ok w := rfl
  rw [(bind_ok hg).1, (bind_ok hg).2]
  exact h w hw w hw

theorem leads_ofExcept {x : Except Fault α} (h : x = .ok a) : Leads P (ofExcept x) a P := by
  subst h
  exact .pure a

end Leading

variable {w v : World}

theorem Ends.of_pure {a b : α} (h : Ends (pure a) w b v) : a = b ∧ w = v :=
  ⟨Except.ok.inj (congrArg Prod.fst h), congrArg Prod.snd h⟩

theorem Ends.of_modify {f : World → World} {u : PUnit}
    (h : Ends (modify f) w u v) : f w = v := congrArg Prod.snd h

theorem Ends.of_ofExcept {x : Except Fault α} {a : α} (h : Ends (ofExcept x) w a v) :
    x = .ok a ∧ w = v := by
  cases x with
  | error e => cases h
  | ok b =>
    obtain ⟨rfl, rfl⟩ := Ends.of_pure h
    exact ⟨rfl, rfl⟩

theorem ends_ofExcept {x : Except Fault α} {a : α} (h : x = .ok a) : Ends (ofExcept x) w a w := by
  rw [h]
  rfl

theorem Ends.keeps {a : α} (h : Ends x w a v) (F : Frame) [k : Keeps F x] : F.rel w v := by
  have := k.keeps w
  rwa [after, h] at this

theorem Ends.past {b : β} (h : Ends (x >>= f) w b v)
    (F : Frame) [Keeps F x] : ∃ a u, F.rel w u ∧ Ends (f a) u b v := by
  obtain ⟨a, u, hx, h⟩ := h.of_bind
  exact ⟨a, u, hx.keeps F, h⟩

theorem Ends.pass {u w v : World} {b : β} (h : Ends (x >>= f) w b v)
    (hu : F.rel u w) [Keeps F x] : ∃ a w', F.rel u w' ∧ Ends (f a) w' b v := by
  obtain ⟨a, w', hx, h⟩ := h.past F
  exact ⟨a, w', F.trans hu hx, h⟩

theorem Ends.of_disk {d : Disk} (h : Ends disk w d v) : w.disk = d ∧ w = v :=
  ⟨Except.ok.inj (congrArg Prod.fst h), congrArg Prod.snd h⟩

section Files
variable {w v : World} {path text : String} {u : Unit}

theorem Ends.of_readFile {strict : Bool} (h : Ends (readFile path strict) w text v) :
    w.disk.read path strict = .ok text ∧
      v = { w with accesses := w.accesses ++ [.read path] } := by
  obtain ⟨d, _, hd, h⟩ := h.of_bind
  obtain ⟨rfl, rfl⟩ := hd.of_disk
  obtain ⟨t, _, ht, h⟩ := h.of_bind
  obtain ⟨hread, rfl⟩ := ht.of_ofExcept
  obtain ⟨_, _, hr, h⟩ := h.of_bind
  obtain ⟨rfl, rfl⟩ := h.of_pure
  exact ⟨hread, hr.of_modify.symm⟩

theorem Ends.of_writeFile (h : Ends (writeFile path text) w u v) : ∃ d,
    w.disk.write path text = .ok d ∧
      v = { w with disk := d, accesses := w.accesses ++ [.write path] } := by
  obtain ⟨d, _, hd, h⟩ := h.of_bind
  obtain ⟨rfl, rfl⟩ := hd.of_disk
  obtain ⟨e, _, he, h⟩ := h.of_bind
  obtain ⟨hwrite, rfl⟩ := he.of_ofExcept
  obtain ⟨_, _, hm, h⟩ := h.of_bind
  refine ⟨e, hwrite, ?_⟩
  rw [← Ends.of_modify h, ← hm.of_modify]

theorem ends_writeFile {d : Disk} (h : w.disk.write path text = .ok d) :
    Ends (writeFile path text) w ⟨⟩
      { w with disk := d, accesses := w.accesses ++ [.write path] } := by
  have hdisk : Ends disk w w.disk w := rfl
  exact hdisk.bind ((ends_ofExcept h).bind rfl)

theorem Ends.of_makeDirs (h : Ends (makeDirs path) w u v) : ∃ d,
    w.disk.makeDirs path = .ok d ∧ v = { w with disk := d } := by
  obtain ⟨d, _, hd, h⟩ := h.of_bind
  obtain ⟨rfl, rfl⟩ := hd.of_disk
  obtain ⟨e, _, he, h⟩ := h.of_bind
  obtain ⟨hmake, rfl⟩ := he.of_ofExcept
  exact ⟨e, hmake, (Ends.of_modify h).symm⟩

end Files

variable {P : α → Prop} {x : Run α} {w v : World}

theorem Ensures.bind {Q : β → Prop}
    (h : Ensures rs x P) (k : ∀ a, P a → Ensures rs (f a) Q) : Ensures rs (x >>= f) Q := by
  intro w hw
  obtain ⟨hr, hf, hp⟩ := h w hw
  cases hx : x.result w with
  | error e =>
    obtain ⟨he, ha⟩ := bind_error (f := f) hx
    rw [ha, he]
    exact ⟨hr, hf, fun a h => by cases h⟩
  | ok a =>
    obtain ⟨he, ha⟩ := bind_ok (f := f) hx
    obtain ⟨kr, kf, kq⟩ := k a (hp a hx) (x.after w) hr
    rw [ha, he]
    exact ⟨kr, hf.trans kf, kq⟩

theorem Ensures.get_bind {f : World → Run α}
    (h : ∀ w : World, w.Within rs → Ensures rs (f w) P) : Ensures rs (get >>= f) P :=
  fun w hw => h w hw w hw

theorem Ensures.pure {a : α} (h : P a) : Ensures rs (pure a : Run α) P := by
  intro w hw
  refine ⟨hw, .refl rs w, fun b hb => ?_⟩
  cases hb
  exact h

theorem Ensures.faithful (h : Ensures rs x P) : Faithful rs x where
  keeps w hw := by
    obtain ⟨hr, hf, -⟩ := h w hw
    exact ⟨hr, hf⟩

theorem Keeps.of_quiet (h : ∀ w : World, w.Quiet (x.after w)) : Keeps F x :=
  ⟨fun w => F.quiet (h w)⟩

theorem Keeps.modify {f : World → World} (h : ∀ w : World, w.Quiet (f w)) :
    Keeps F (modify f : Run PUnit) := .of_quiet h

instance keeps_bind {x : Run α} {f : α → Run β} [h : Keeps F x] [k : ∀ a, Keeps F (f a)] :
    Keeps F (x >>= f) where
  keeps w := by
    cases hx : x.result w with
    | error e =>
      rw [(bind_error hx).2]
      exact h.keeps w
    | ok a =>
      rw [(bind_ok hx).2]
      exact F.trans (h.keeps w) ((k a).keeps _)

instance (priority := 1100) keeps_bind_pair {x : Run (α × β)} {f : α × β → Run γ}
    [h : Keeps F x] [k : ∀ a b, Keeps F (f (a, b))] : Keeps F (x >>= f) :=
  keeps_bind (k := fun p => k p.1 p.2)

instance (priority := 1200) keeps_bind_triple {x : Run (α × β × γ)} {f : α × β × γ → Run δ}
    [h : Keeps F x] [k : ∀ a b c, Keeps F (f (a, b, c))] : Keeps F (x >>= f) :=
  keeps_bind (k := fun p => k p.1 p.2.1 p.2.2)

instance (priority := 1100) keeps_bind_except {x : Run (Except γ α)} {f : Except γ α → Run β}
    [h : Keeps F x] [k : ∀ a, Keeps F (f (.ok a))] [l : ∀ e, Keeps F (f (.error e))] :
    Keeps F (x >>= f) :=
  keeps_bind (k := fun r => by
    cases r with
    | ok a => exact k a
    | error e => exact l e)

instance keeps_pure (a : α) : Keeps F (pure a : Run α) :=
  .of_quiet .refl

instance keeps_throw (e : Fault) : Keeps F (throw e : Run α) :=
  .of_quiet .refl

instance (priority := 1300) keeps_throw_bind (e : Fault) (f : α → Run β) :
    Keeps F (throw e >>= f) := .of_quiet .refl

instance keeps_ite {c : Prop} [Decidable c] {x y : Run α} [h : Keeps F x] [k : Keeps F y] :
    Keeps F (if c then x else y) := by
  split
  · exact h
  · exact k

instance keeps_discard {x : Run α} [h : Keeps F x] : Keeps F (discard x) := by
  have he : discard x = (x >>= fun _ => pure PUnit.unit) := rfl
  rw [he]
  infer_instance

instance keeps_get : Keeps F (get : Run World) := .of_quiet .refl

instance keeps_say (line : String) : Keeps F (say line) :=
  .modify fun _ => ⟨rfl, rfl, rfl, rfl, rfl, rfl, rfl, rfl, rfl⟩

instance keeps_warn (text : String) : Keeps F (warn text) :=
  .modify fun _ => ⟨rfl, rfl, rfl, rfl, rfl, rfl, rfl, rfl, rfl⟩

instance (priority := 1200) keeps_say_bind (line : String) (f : PUnit → Run α)
    [h : Keeps F (f ⟨⟩)] : Keeps F (say line >>= f) := keeps_bind (k := fun _ => h)

instance keeps_ofExcept (x : Except Fault α) : Keeps F (ofExcept x) := by
  cases x with
  | error e => exact keeps_throw e
  | ok a => exact keeps_pure a

instance keeps_forM (xs : List α) (f : α → Run PUnit) [h : ∀ a, Keeps F (f a)] :
    Keeps F (xs.forM f) := by
  induction xs with
  | nil => exact keeps_pure _
  | cons a xs ih => exact inferInstanceAs (Keeps F (f a >>= fun _ => xs.forM f))

theorem ends_forM {xs : List α} {f : α → Run PUnit}
    (h : ∀ a ∈ xs, ∀ w, ∃ v, Ends (f a) w ⟨⟩ v) (w : World) : ∃ v, Ends (xs.forM f) w ⟨⟩ v := by
  induction xs generalizing w with
  | nil => exact ⟨w, rfl⟩
  | cons a xs ih =>
    obtain ⟨ha, hxs⟩ := List.forall_mem_cons.mp h
    obtain ⟨u, hu⟩ := ha w
    obtain ⟨v, hv⟩ := ih hxs u
    exact ⟨v, hu.bind hv⟩

instance keeps_foldlM (xs : List α) (f : β → α → Run β) (b : β) [h : ∀ b a, Keeps F (f b a)] :
    Keeps F (xs.foldlM f b) := by
  induction xs generalizing b with
  | nil => exact keeps_pure _
  | cons a xs ih =>
    rw [List.foldlM_cons]
    infer_instance

instance keeps_mapM (xs : List α) (f : α → Run β) [h : ∀ a, Keeps F (f a)] :
    Keeps F (xs.mapM f) := by
  induction xs with
  | nil => exact keeps_pure _
  | cons a xs ih =>
    rw [List.mapM_cons]
    infer_instance

instance keeps_ofNoted (x : Noted α) : Keeps F (ofNoted x) :=
  inferInstanceAs (Keeps F (x.outcome.2.forM say >>= fun _ => Run.ofExcept x.outcome.1))

instance keeps_caught (x : Run α) [h : Keeps F x] : Keeps F (caught x) := ⟨h.keeps⟩

instance keeps_disk : Keeps F disk := inferInstanceAs (Keeps F (get >>= fun w => pure w.disk))

theorem Ends.of_caught {r : Except Fault α} (h : Ends (caught x) w r v) :
    x.result w = r ∧ x.after w = v :=
  ⟨Except.ok.inj (congrArg Prod.fst h), congrArg Prod.snd h⟩

theorem ends_caught {a : α} (h : Ends x w a v) : Ends (caught x) w (.ok a) v := by
  rw [Ends] at h ⊢
  change (Except.ok (x.run.run w).1, (x.run.run w).2) = _
  rw [h]

private theorem Ensures.ofExcept (x : Except Fault α) : Ensures rs
    (ofExcept x) fun a => x = .ok a := by
  cases x with
  | error e => exact fun w hw => ⟨hw, .refl rs w, fun a h => by cases h⟩
  | ok a => exact .pure rfl

theorem Ensures.ofNoted (x : Noted α) : Ensures rs (ofNoted x) fun a => x.outcome.1 = .ok a :=
  (keeps_forM x.outcome.2 say).ensures.bind fun _ _ => .ofExcept x.outcome.1

theorem result_ofNoted (x : Noted α) (w : World) : (ofNoted x).result w = x.outcome.1 := by
  have said (notes : List String) (w : World) : (notes.forM say).result w = .ok ⟨⟩ := by
    induction notes generalizing w with
    | nil => rfl
    | cons note notes ih => exact ih _
  change (x.outcome.2.forM say >>= fun _ => Run.ofExcept x.outcome.1).result w = _
  rw [(bind_ok (said _ w)).1]
  cases x.outcome.1 <;> rfl

theorem Ends.of_ofNoted {x : Noted α} {a : α} (h : Ends (ofNoted x) w a v) :
    x.outcome.1 = .ok a := by
  rw [← result_ofNoted x w]
  exact congrArg Prod.fst h

theorem Ensures.caught (h : Ensures rs x P) :
    Ensures rs (caught x) fun r => ∀ a, r = .ok a → P a := by
  intro w hw
  obtain ⟨hr, hf, hp⟩ := h w hw
  refine ⟨hr, hf, fun r hc a ha => hp a ?_⟩
  cases hc
  exact ha

instance keeps_recordAccess [h : F.Reads] (a : Access) : Keeps F (recordAccess a) :=
  ⟨fun w => h.read w _⟩

instance keeps_readFile [F.Reads] (path : String) (strict : Bool) :
    Keeps F (readFile path strict) := by
  unfold readFile
  infer_instance

instance keeps_setDisk [h : F.Stores] (d : Disk) :
    Keeps F (modify fun w => { w with disk := d } : Run PUnit) where
  keeps w := by
    have hs := h.store w d []
    rwa [List.append_nil] at hs

instance keeps_writeFile [F.Stores] (path text : String) : Keeps F (writeFile path text) := by
  unfold writeFile
  infer_instance

instance keeps_makeDirs [F.Stores] (path : String) : Keeps F (makeDirs path) := by
  unfold makeDirs
  infer_instance

def outcome (c : Command) : Response → Except Fault (Int × String × String)
  | .done status stdout stderr => .ok (status, stdout, stderr)
  | .timeout => .error (.timedOut c.words c.timeout)
  | .failure reason => .error (.system reason)

theorem run_command (c : Command) (w : World) :
    (command c).result w = outcome c (c.answer w.commandRules).1 ∧
      (command c).after w = w.issued c := by
  have h : (command c).run.run w = (outcome c (c.answer w.commandRules).1, w.issued c) := by
    change StateT.run (ExceptT.run (match (c.answer w.commandRules).1 with
      | .done status stdout stderr => pure (status, stdout, stderr)
      | .timeout => throw (.timedOut c.words c.timeout)
      | .failure reason => throw (.system reason) : Run _)) _ = _
    cases (c.answer w.commandRules).1 with
    | done status stdout stderr => rfl
    | timeout => rfl
    | failure reason => rfl
  exact ⟨congrArg Prod.fst h, congrArg Prod.snd h⟩

instance keeps_command [h : F.Issues] (c : Command) : Keeps F (command c) where
  keeps w := by
    rw [(run_command c w).2]
    exact h.issue w c

theorem Ends.of_command {c : Command} {a : Int × String × String}
    (h : Ends (command c) w a v) : v = w.issued c := by
  rw [← (run_command c w).2]
  exact (congrArg Prod.snd h).symm

private theorem after_modules (key : Option String) (w : World) :
    ∃ cache, (modules key).after w = { w with moduleCache := cache } := by
  have hg : (get : Run World).result w = .ok w := rfl
  unfold modules
  rw [(bind_ok hg).2]
  change ∃ cache, after _ w = _
  cases w.moduleCache.lookup key with
  | some index => exact ⟨w.moduleCache, rfl⟩
  | none => exact ⟨_, rfl⟩

instance keeps_modules (key : Option String) : Keeps F (modules key) := by
  refine .of_quiet fun w => ?_
  obtain ⟨cache, h⟩ := after_modules key w
  rw [h]
  exact ⟨rfl, rfl, rfl, rfl, rfl, rfl, rfl, rfl, rfl⟩

end Run
end Mender
