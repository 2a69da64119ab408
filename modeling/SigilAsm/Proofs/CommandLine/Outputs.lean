import SigilAsm.Proofs.Elaboration.Firsts
import SigilAsm.Proofs.FileTree.Places

/-! # Outputs

What is left when files were written one after the other.  A file that is written
can only get in the way of another if it stands where the way to that one passes,
so where none does, each file is written and found at its path.
-/

namespace SigilAsm

theorem Path.Ends.leads_above {path name : String} {above : List String}
    (ends : Path.Ends path above name) : ∀ n ∈ above, Path.leads n = true := by
  obtain ⟨before, -, rfl⟩ := ends.split
  exact fun n member => (List.mem_filter.mp member).2

/-- A file to be written: the names on its path before the last, the directory they lead to, and the
last name. -/
structure Output where
  path : String
  above : List String
  directory : Location
  name : String
  bytes : List UInt8

namespace Output

def place (w : Output) : Location := w.directory ++ [w.name]

def action (w : Output) : Action := .write w.path w.bytes

/-- The places that are passed on the way to a file, that of its directory included. -/
def Passes (w : Output) (place : Location) : Prop := Location.Visits [] w.above place

structure Sound (w : Output) : Prop where
  ends : Path.Ends w.path w.above w.name
  reached : Location.walk [] w.above = some w.directory

theorem Sound.passes_directory {w : Output} (sound : w.Sound) : w.Passes w.directory :=
  Location.visits_of_walk sound.reached

/-- What a file lies below is passed on the way to it. -/
theorem Sound.passes_above {w : Output} (sound : w.Sound) {place : Location}
    (above : place <+: w.place) (apart : place ≠ w.place) : w.Passes place := by
  rcases List.prefix_concat_iff.mp above with rfl | higher
  · exact absurd rfl apart
  · exact sound.passes_directory.upwards higher

end Output

/-- A tree with some outputs more, and with directories at the places that are passed on the way to
them. -/
structure FileTree.Written (t t' : FileTree) (outputs : List Output) : Prop where
  files : t'.files = t.files ++ outputs.map fun w => (w.place, w.bytes)
  directories : ∀ place, t'.isDirectoryAt place = true ↔
    t.isDirectoryAt place = true ∨ ∃ w ∈ outputs, w.Passes place

namespace FileTree

variable {t u t' : FileTree} {w : Output} {outputs : List Output}

theorem Written.nil (t : FileTree) : Written t t [] where
  files := (List.append_nil t.files).symm
  directories place := by simp

theorem Written.cons (first : Written t u [w]) (others : Written u t' outputs) :
    Written t t' (w :: outputs) where
  files := by
    rw [others.files, first.files, List.append_assoc]
    rfl
  directories place := by
    rw [others.directories, first.directories, or_assoc]
    simp

theorem Written.lookup_eq_none {place : Location} (written : Written t t' outputs)
    (free : t.files.lookup place = none) (apart : ∀ w ∈ outputs, w.place ≠ place) :
    t'.files.lookup place = none := by
  rw [written.files, List.lookup_append, free, Option.none_or, List.lookup_eq_none_iff]
  intro file member
  obtain ⟨w, inside, rfl⟩ := List.mem_map.mp member
  simpa using (apart w inside).symm

/-- What a tree needs for outputs to be written.  Nothing stands at their places and no file in the
way to them, and none of them is in the way to another or to itself. -/
structure Admits (t : FileTree) (outputs : List Output) : Prop where
  sound : ∀ w ∈ outputs, w.Sound
  new : ∀ w ∈ outputs, t.nodeAt? w.place = none
  free : ∀ w ∈ outputs, ∀ place, w.Passes place → t.files.lookup place = none
  clear : ∀ w ∈ outputs, ∀ v ∈ outputs, ¬ v.Passes w.place
  distinct : (outputs.map Output.place).Nodup

/-! ## One output -/

theorem Admits.exists_write (admits : Admits t (w :: outputs)) :
    ∃ u, Session.write t w.path w.bytes = .ok u ∧ Written t u [w] := by
  have first := List.mem_cons_self (a := w) (l := outputs)
  have sound := admits.sound w first
  have leads := sound.ends.leads_above
  obtain ⟨u, made, opened⟩ := exists_makeDirectories leads sound.reached (admits.free w first)
  have free (place : Location) (passed : w.Passes place) : u.files.lookup place = none := by
    rw [opened.files]
    exact admits.free w first place passed
  have there (place : Location) (passed : w.Passes place) : u.isDirectoryAt place = true :=
    (opened.directories place).mpr (.inr passed)
  have followed := follow_of_directories leads sound.reached free there
  have new : u.nodeAt? w.place = none := by
    obtain ⟨absent, nothing⟩ := nodeAt?_eq_none_iff.mp (admits.new w first)
    refine nodeAt?_eq_none_iff.mpr ⟨by rw [opened.files, absent], Bool.eq_false_iff.mpr ?_⟩
    rw [Ne, opened.directories]
    exact not_or.mpr ⟨Bool.eq_false_iff.mp nothing, admits.clear w first w first⟩
  refine ⟨{ u with files := u.files ++ [(w.place, w.bytes)] }, ?_, ?_⟩
  · rw [Session.write, Path.namesUpwards_eq, sound.ends.names_parent]
    simp only [made, writeFile_of_new sound.ends followed new]
    rfl
  · refine ⟨by rw [opened.files]; rfl, fun place => ?_⟩
    have above : place <+: w.place ∧ place ≠ w.place → u.isDirectoryAt place = true :=
      fun ⟨higher, apart⟩ => there place (sound.passes_above higher apart)
    rw [isDirectoryAt_append_file, or_iff_left_of_imp above, opened.directories]
    simp [Output.Passes]

/-- After the first of some outputs was written there is place for the others. -/
theorem Admits.of_written (admits : Admits t (w :: outputs)) (written : Written t u [w]) :
    Admits u outputs := by
  have first := List.mem_cons_self (a := w) (l := outputs)
  have later {v : Output} (member : v ∈ outputs) : v ∈ w :: outputs := List.mem_cons_of_mem w member
  obtain ⟨apart, distinct⟩ := List.nodup_cons.mp admits.distinct
  have absent {place : Location} (free : t.files.lookup place = none) (other : w.place ≠ place) :
      u.files.lookup place = none := by
    refine written.lookup_eq_none free fun v one => ?_
    rw [List.mem_singleton.mp one]
    exact other
  refine ⟨fun v member => admits.sound v (later member), fun v member => ?_,
    fun v member place passed => ?_,
    fun v member v' member' => admits.clear v (later member) v' (later member'), distinct⟩
  · obtain ⟨free, nothing⟩ := nodeAt?_eq_none_iff.mp (admits.new v (later member))
    refine nodeAt?_eq_none_iff.mpr ⟨absent free fun same => ?_, Bool.eq_false_iff.mpr ?_⟩
    · exact apart (same ▸ List.mem_map_of_mem member)
    · rw [Ne, written.directories]
      refine not_or.mpr ⟨Bool.eq_false_iff.mp nothing, ?_⟩
      rintro ⟨_, one, passed⟩
      obtain rfl := List.mem_singleton.mp one
      exact admits.clear v (later member) _ first passed
  · refine absent (admits.free v (later member) place passed) ?_
    rintro rfl
    exact admits.clear w first v (later member) passed

/-! ## All outputs -/

/-- Files are written one after the other where there is place for them. -/
theorem Admits.exists_performAll (admits : Admits t outputs) (stdout : List UInt8) (stderr : String)
    (ending : Option Abort) :
    ∃ t', Session.performAll ⟨t, stdout, stderr⟩ ending (outputs.map Output.action) =
        (⟨t', stdout, stderr⟩, ending) ∧ Written t t' outputs := by
  induction outputs generalizing t with
  | nil => exact ⟨t, rfl, .nil t⟩
  | cons w outputs ih =>
    obtain ⟨u, done, one⟩ := admits.exists_write
    obtain ⟨t', rest, others⟩ := ih (admits.of_written one)
    refine ⟨t', ?_, one.cons others⟩
    rw [List.map_cons, Session.performAll, Output.action]
    simp only [Session.perform, done]
    exact rest

theorem map_fst_outputs (outputs : List Output) :
    (outputs.map fun w => (w.place, w.bytes)).map Prod.fst = outputs.map Output.place :=
  List.map_map

theorem lookup_of_distinct (distinct : (outputs.map Output.place).Nodup) (member : w ∈ outputs) :
    (outputs.map fun w => (w.place, w.bytes)).lookup w.place = some w.bytes := by
  have here := List.mem_map_of_mem (f := fun w : Output => (w.place, w.bytes)) member
  exact lookup_of_nodup (map_fst_outputs outputs ▸ distinct) here

/-- There is still one file at a place. -/
theorem Written.distinct (written : Written t t' outputs) (admits : Admits t outputs)
    (distinct : (t.files.map Prod.fst).Nodup) : (t'.files.map Prod.fst).Nodup := by
  rw [written.files, List.map_append, map_fst_outputs]
  refine List.nodup_append.mpr ⟨distinct, admits.distinct, fun place before place' new same => ?_⟩
  obtain ⟨file, member, rfl⟩ := List.mem_map.mp before
  obtain ⟨w, inside, rfl⟩ := List.mem_map.mp new
  have free := (nodeAt?_eq_none_iff.mp (admits.new w inside)).1
  have apart : w.place ≠ file.1 := by simpa using List.lookup_eq_none_iff.mp free file member
  exact apart same.symm

/-- Each file that was written is found at its path. -/
theorem Written.resolve (written : Written t t' outputs) (admits : Admits t outputs)
    (member : w ∈ outputs) : t'.resolve w.path = .ok (.file w.place w.bytes) := by
  have sound := admits.sound w member
  have free (place : Location) (passed : w.Passes place) : t'.files.lookup place = none := by
    refine written.lookup_eq_none (admits.free w member place passed) ?_
    rintro v inside rfl
    exact admits.clear v inside w member passed
  have there (place : Location) (passed : w.Passes place) : t'.isDirectoryAt place = true :=
    (written.directories place).mpr (.inr ⟨w, member, passed⟩)
  have followed := follow_of_directories sound.ends.leads_above sound.reached free there
  have here : t'.files.lookup w.place = some w.bytes := by
    rw [written.files, List.lookup_append, (nodeAt?_eq_none_iff.mp (admits.new w member)).1,
      Option.none_or, lookup_of_distinct admits.distinct member]
  exact resolve_of_file sound.ends followed here

end FileTree

end SigilAsm
