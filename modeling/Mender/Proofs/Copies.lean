import Mender.Proofs.Disk
import Mender.Proofs.Revision

/-! What the container holds: at each path the text of the last copy to it. A text that is saved
under a name is in step with the container as long as nothing else is copied or saved under that
name. -/
namespace Mender
open Run Sandbox

def Command.copied? (c : Command) (path : String) : Option String :=
  match c.words with
  | ["docker", "cp", _, target] => if target = container ++ ":" ++ path then c.content else none
  | _ => none

theorem Command.copied_eq_none {c : Command} (h : c.content = none) (path : String) :
    c.copied? path = none := by
  unfold copied?
  split
  · simp [h]
  · rfl

def held (cs : List Command) (path : String) : Option String :=
  (cs.filterMap (·.copied? path)).getLast?

theorem held_append (cs ds : List Command) (path : String) :
    held (cs ++ ds) path = (held ds path).or (held cs path) := by
  rw [held, List.filterMap_append, List.getLast?_append]
  rfl

theorem held_singleton (c : Command) (path : String) : held [c] path = c.copied? path := by
  cases h : c.copied? path <;> simp [held, h]

theorem inWorkspace_inj {a b : String} : inWorkspace a = inWorkspace b ↔ a = b := by
  simp [inWorkspace]

namespace World
variable {u v w : World} {P : String → Prop} {path text output name : String}

def grown : Frame where
  rel w v := w.commands <+: v.commands
  trans h k := h.trans k
  quiet h := h.commands ▸ List.prefix_refl _

instance : grown.Issues := ⟨fun _ _ => List.prefix_append ..⟩

instance : grown.Stores := ⟨fun _ _ _ => List.prefix_refl _⟩

instance : grown.Asks := ⟨fun _ _ _ _ _ => List.prefix_refl _⟩

/-- Between two surroundings the last copy to a path was of a text. -/
def Holds (w v : World) (path text : String) : Prop :=
  ∃ cs, v.commands = w.commands ++ cs ∧ held cs path = some text

def sparing (P : String → Prop) : Frame where
  rel w v := ∃ cs, v.commands = w.commands ++ cs ∧ ∀ path, P path → held cs path = none
  trans := fun ⟨cs, hc, hn⟩ ⟨ds, kc, kn⟩ =>
    ⟨cs ++ ds, by rw [kc, hc, List.append_assoc], fun path hp => by
      rw [held_append, hn path hp, kn path hp, Option.or_none]⟩
  quiet h := ⟨[], by simp [h.commands], fun _ _ => rfl⟩

instance : (sparing P).Executes where
  exec w words timeout := ⟨[⟨words, timeout, none⟩], rfl, fun path _ => by
    rw [held_singleton, Command.copied_eq_none rfl]⟩

instance : (sparing P).Stores := ⟨fun w _ _ => ⟨[], by simp, fun _ _ => rfl⟩⟩

instance : (sparing P).Asks := ⟨fun w _ _ _ _ => ⟨[], by simp, fun _ _ => rfl⟩⟩

abbrev copyless : Frame := sparing fun _ => True

theorem Holds.past (h : u.Holds w path text) (k : (sparing P).rel w v) (hp : P path) :
    u.Holds v path text := by
  obtain ⟨cs, hc, hh⟩ := h
  obtain ⟨ds, kc, kn⟩ := k
  exact ⟨cs ++ ds, by rw [kc, hc, List.append_assoc], by rw [held_append, kn path hp, hh]; rfl⟩

theorem Holds.idle (h : u.Holds w path text) (k : copyless.rel w v) : u.Holds v path text :=
  h.past k trivial

theorem Holds.of_grown (k : w.Holds v path text) (h : grown.rel u w) : u.Holds v path text := by
  obtain ⟨cs, hc⟩ := h
  obtain ⟨ds, kc, kh⟩ := k
  exact ⟨cs ++ ds, by rw [kc, ← hc, List.append_assoc], by rw [held_append, kh]; rfl⟩

theorem Holds.trans {path' text' : String} (h : u.Holds w path text) (k : w.Holds v path' text') :
    u.Holds v path' text' := by
  obtain ⟨cs, hc, -⟩ := h
  exact k.of_grown ⟨cs, hc.symm⟩

theorem grown_of_sparing (h : (sparing P).rel u w) : grown.rel u w := by
  obtain ⟨cs, hc, -⟩ := h
  exact ⟨cs, hc.symm⟩

/-- What is copied under a name and what is saved under it in a directory stay as they are. -/
def undisturbed (output name : String) : Frame where
  rel w v := (sparing (· = inWorkspace name)).rel w v ∧ v.disk.dirs = w.disk.dirs ∧
    v.disk.file? (Path.join output name) = w.disk.file? (Path.join output name)
  trans := fun ⟨h, hd, hf⟩ ⟨k, kd, kf⟩ => ⟨Frame.trans _ h k, kd.trans hd, kf.trans hf⟩
  quiet h := ⟨Frame.quiet _ h, by rw [h.disk], by rw [h.disk]⟩

instance : (undisturbed output name).Executes :=
  ⟨fun w words timeout => ⟨Frame.Executes.exec w words timeout, rfl, rfl⟩⟩

instance : (undisturbed output name).Asks :=
  ⟨fun w rs ps qs ks => ⟨Frame.Asks.ask w rs ps qs ks, rfl, rfl⟩⟩

instance : (undisturbed output name).Reads :=
  ⟨fun w as => ⟨Frame.Reads.read w as, rfl, rfl⟩⟩

/-- The container and a directory hold the same text under a name. -/
structure InStep (u w : World) (output name text : String) : Prop where
  held : u.Holds w (inWorkspace name) text
  saved : w.disk.file? (Path.join output name) = some ⟨text, true⟩

theorem InStep.past (h : u.InStep w output name text) (k : (undisturbed output name).rel w v) :
    u.InStep v output name text :=
  ⟨h.held.past k.1 rfl, k.2.2.trans h.saved⟩

theorem InStep.of_grown (k : w.InStep v output name text) (h : grown.rel u w) :
    u.InStep v output name text := ⟨k.held.of_grown h, k.saved⟩

end World

namespace Sandbox
open World
variable {u v w : World} {code name other output : String}

theorem copied_copyFile (code name other : String) :
    (Command.mk ["docker", "cp", "<tmp>" ++ Path.extension name,
      container ++ ":" ++ inWorkspace name] none (some code)).copied? (inWorkspace other) =
      if name = other then some code else none := by
  simp [Command.copied?, inWorkspace_inj]

theorem holds_copyFile {x : Unit} (h : Ends (copyFile code name) w x v) :
    w.Holds v (inWorkspace name) code := by
  obtain ⟨_, _, hc, h⟩ := Ends.of_bind h
  obtain ⟨-, rfl⟩ := h.of_pure
  obtain rfl := hc.of_command
  refine ⟨_, rfl, ?_⟩
  rw [held_singleton, copied_copyFile, if_pos rfl]

theorem sparing_copyFile (h : name ≠ other) :
    Keeps (sparing (· = inWorkspace other)) (copyFile code name) := by
  refine keeps_discard (h := ⟨fun w => ?_⟩)
  rw [copy, (run_command _ w).2]
  refine ⟨[_], rfl, fun path hp => ?_⟩
  rw [hp, held_singleton, copied_copyFile, if_neg h]

theorem undisturbed_copyFile (h : name ≠ other) :
    Keeps (undisturbed output other) (copyFile code name) := by
  refine ⟨fun w => ?_⟩
  obtain ⟨hdisk, -⟩ := (keeps_copyFile code name).keeps (F := untouched) w
  exact ⟨(sparing_copyFile h).keeps w, by rw [hdisk], by rw [hdisk]⟩

end Sandbox

namespace Run
open World
variable {w v : World} {path text output name other : String}

theorem after_writeFile (path text : String) (w : World) : (writeFile path text).after w =
    match w.disk.write path text with
    | .ok d => { w with disk := d, accesses := w.accesses ++ [.write path] }
    | .error _ => w := by
  have hd : disk.result w = .ok w.disk := rfl
  unfold writeFile
  rw [(bind_ok hd).2]
  change (ofExcept (w.disk.write path text) >>= _).after w = _
  cases w.disk.write path text <;> rfl

theorem undisturbed_writeFile (hout : output ≠ "") (ho : '/' ∉ other.toList)
    (hn : Disk.IsProper name) (hne : other ≠ name) :
    Keeps (undisturbed output other) (writeFile (Path.join output name) text) := by
  refine ⟨fun w => ⟨(keeps_writeFile _ _).keeps w, ?_⟩⟩
  rw [after_writeFile]
  cases hw : w.disk.write (Path.join output name) text with
  | error e => exact ⟨rfl, rfl⟩
  | ok d =>
    obtain ⟨q, -, -, hdirs, -⟩ := Disk.write_join hout hn hw
    exact ⟨hdirs, Disk.file_write_join hout ho hn hne hw⟩

end Run

end Mender
