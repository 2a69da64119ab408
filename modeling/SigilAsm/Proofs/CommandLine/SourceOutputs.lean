import SigilAsm.Proofs.CommandLine.Obstacles
import SigilAsm.Proofs.CommandLine.Plans

/-! # Outputs of sources

The output of a source goes to the place that the source has in its directory,
below the output path and with another extension.  Different sources have their
outputs at different places.
-/

namespace SigilAsm

/-! ## Locations with another extension -/

namespace Location

variable {l l' : Location}

/-- The location with the extension of its last name replaced. -/
def withExtension (l : Location) (extension : String) : Location :=
  l.dropLast ++ [Path.withExtension (l.getLast?.getD "") extension]

theorem exists_stem (isSource : Found.isSource l = true) : ∃ stem,
    Path.splitExtension (l.getLast?.getD "") = (stem, some sourceExtension) ∧
      l = l.dropLast ++ [stem ++ "." ++ sourceExtension] := by
  unfold Found.isSource at isSource
  split at isSource
  next name last =>
    obtain ⟨stem, split⟩ : ∃ stem, Path.splitExtension name = (stem, some sourceExtension) :=
      ⟨(Path.splitExtension name).1, Prod.ext rfl (beq_iff_eq.mp isSource)⟩
    rw [last, Option.getD_some]
    refine ⟨stem, split, ?_⟩
    rw [← Path.splitExtension_eq split]
    exact (List.dropLast_append_getLast? name last).symm
  next => cases isSource

theorem withExtension_injective {extension : String} (isSource : Found.isSource l = true)
    (isSource' : Found.isSource l' = true)
    (same : l.withExtension extension = l'.withExtension extension) : l = l' := by
  obtain ⟨stem, split, l_eq⟩ := exists_stem isSource
  obtain ⟨stem', split', l'_eq⟩ := exists_stem isSource'
  rw [withExtension, withExtension, Path.withExtension, Path.withExtension, split, split'] at same
  obtain ⟨above, last⟩ := List.append_inj' same rfl
  have stems : stem = stem' := by simpa [String.append_left_inj] using last
  rw [l_eq, l'_eq, above, stems]

theorem isName_withExtension {extension : String} {c : Char} (isSource : Found.isSource l = true)
    (isNames : ∀ name ∈ l, Path.IsName name) (plain : '/' ∉ extension.toList)
    (last : extension.toList.getLast? = some c) (letter : c ≠ '.') :
    ∀ name ∈ l.withExtension extension, Path.IsName name := by
  obtain ⟨stem, split, l_eq⟩ := exists_stem isSource
  have noSlash : '/' ∉ stem.toList := by
    have whole := (isNames (stem ++ "." ++ sourceExtension) (by rw [l_eq]; simp)).noSlash
    simp only [String.toList_append, List.mem_append, not_or] at whole
    exact whole.1.1
  intro name member
  rw [withExtension, Path.withExtension, split] at member
  rcases List.mem_append.mp member with above | here
  · exact isNames name ((List.dropLast_subset l) above)
  · rw [List.mem_singleton.mp here]
    exact Path.isName_of_extension noSlash plain last letter

end Location

/-- An output goes where its source lies, except that one of a source `..ira` has no name. -/
theorem outputPath_eq {l : Location} (isSource : Found.isSource l = true)
    (named : l.getLast? ≠ some "..ira") (out : String) (format : OutputFormat) :
    outputPath (some out) (some l) format =
      some (Path.join out (Path.ofNames (l.withExtension format.extension))) := by
  obtain ⟨stem, split, l_eq⟩ := Location.exists_stem isSource
  have other : stem ≠ "." := by
    rintro rfl
    rw [l_eq, List.getLast?_append] at named
    exact named rfl
  rw [outputPath, Path.replaceExtension_eq _ split other]
  rfl

theorem OutputFormat.exists_last (format : OutputFormat) : '/' ∉ format.extension.toList ∧
    ∃ c, format.extension.toList.getLast? = some c ∧ c ≠ '.' := by
  cases format <;> exact ⟨by decide, _, rfl, by decide⟩

/-! ## Trees -/

namespace FileTree

/-- The files below a directory that are sources. -/
def sourcesBelow (t : FileTree) (l : Location) : List (Location × List UInt8) :=
  (t.filesBelow l).filter fun (file, _) => Found.isSource file

/-- A path leads to a place in the tree where nothing stands, and passes no file. -/
structure Vacant (t : FileTree) (path : String) (l : Location) : Prop where
  leads : Location.walk [] (Path.names path) = some l
  new : t.nodeAt? l = none
  free : ∀ place, Location.Visits [] (Path.names path) place → t.files.lookup place = none

variable {t : FileTree} {l : Location} {file : Location × List UInt8}

theorem mem_sourcesBelow_iff :
    file ∈ t.sourcesBelow l ↔ file ∈ t.filesBelow l ∧ Found.isSource file.1 = true :=
  List.mem_filter

end FileTree

section Collected

variable {t : FileTree} {l : Location} {sources : List SourceFile}

theorem Collected.exists_below (collected : Collected (t.filesBelow l) sources) {s : SourceFile}
    (member : s ∈ sources) : ∃ file ∈ t.sourcesBelow l, file.1 = s.location :=
  List.mem_map.mp (collected.perm_locations.subset (List.mem_map_of_mem member))

theorem Collected.exists_of_below (collected : Collected (t.filesBelow l) sources)
    {file : Location × List UInt8} (member : file ∈ t.sourcesBelow l) :
    ∃ s ∈ sources, s.location = file.1 :=
  List.mem_map.mp (collected.perm_locations.symm.subset (List.mem_map_of_mem member))

/-- What is collected are sources, and their locations are made of names. -/
theorem Collected.isSource (collected : Collected (t.filesBelow l) sources) {s : SourceFile}
    (member : s ∈ sources) : Found.isSource s.location = true := by
  obtain ⟨file, inside, same⟩ := collected.exists_below member
  exact same ▸ (FileTree.mem_sourcesBelow_iff.mp inside).2

theorem Collected.isName (collected : Collected (t.filesBelow l) sources) (sound : t.Sound)
    {s : SourceFile} (member : s ∈ sources) : ∀ name ∈ s.location, Path.IsName name := by
  obtain ⟨file, inside, same⟩ := collected.exists_below member
  exact same ▸ sound.isName_below (FileTree.mem_sourcesBelow_iff.mp inside).1

end Collected

/-! ## Writing all -/

/-- What the contents of a source have to be for it to get an output. -/
def Options.Accepts (o : Options) (format : OutputFormat) (contents : List UInt8) : Prop :=
  ∃ text a, textOf contents = .ok text ∧ assemble o.settings text = .ok a ∧ a.diagnostics = [] ∧
    (format = .wasm → a.program.dataLayout.total ≤ Program.maxLayoutBytes)

/-- The output of a source, for an output path that leads to a place. -/
def SourceFile.output (s : SourceFile) (out : String) (l : Location) (format : OutputFormat)
    (bytes : List UInt8) : Output where
  path := Path.join out (Path.ofNames (s.location.withExtension format.extension))
  above := Path.names out ++ s.location.dropLast
  directory := l ++ s.location.dropLast
  name := Path.withExtension (s.location.getLast?.getD "") format.extension
  bytes := bytes

/-- What is done about a source for its output. -/
def SourceFile.action (s : SourceFile) (out : String) (format : OutputFormat)
    (bytes : List UInt8) : Action :=
  .write (Path.join out (Path.ofNames (s.location.dropLast ++
    [Path.replaceExtension (s.location.getLast?.getD "") format.extension]))) bytes

section Source

variable {s : SourceFile} {o : Options} {format : OutputFormat} {path out : String} {l : Location}
  {bytes : List UInt8}

theorem SourceFile.place_output :
    (s.output out l format bytes).place = l ++ s.location.withExtension format.extension :=
  List.append_assoc _ _ _

theorem SourceFile.passes_output (leads : Location.walk [] (Path.names out) = some l)
    (isNames : ∀ name ∈ s.location, Path.IsName name) {place : Location} :
    (s.output out l format bytes).Passes place ↔
      Location.Visits [] (Path.names out) place ∨
        ∃ above, above <+: s.location.dropLast ∧ place = l ++ above := by
  have below (name : String) (member : name ∈ s.location.dropLast) : Path.IsName name :=
    isNames name (List.dropLast_subset _ member)
  rw [Output.Passes, output, Location.visits_append, leads]
  simp only [Option.some.injEq, exists_eq_left', Location.visits_of_isName below]

theorem SourceFile.sound_output (leads : Location.walk [] (Path.names out) = some l)
    (isNames : ∀ name ∈ s.location, Path.IsName name)
    (isSource : Found.isSource s.location = true) : (s.output out l format bytes).Sound := by
  obtain ⟨plain, c, last, letter⟩ := format.exists_last
  refine ⟨Path.ends_join (Location.isName_withExtension isSource isNames plain last letter), ?_⟩
  have below (name : String) (member : name ∈ s.location.dropLast) : Path.IsName name :=
    isNames name (List.dropLast_subset _ member)
  rw [output, Location.walk_append, leads, Option.bind_some, Location.walk_of_isName below]

theorem SourceFile.action_eq (isSource : Found.isSource s.location = true)
    (named : s.location.getLast? ≠ some "..ira") :
    s.action out format bytes = (s.output out l format bytes).action := by
  have path_eq := outputPath_eq isSource named out format
  rw [outputPath] at path_eq
  exact congrArg (Action.write · bytes) (Option.some.inj path_eq)

/-- What stands before the extension of `..ira` leads up, and nothing can be written there. -/
theorem SourceFile.not_perform_action (isNames : ∀ name ∈ s.location, Path.IsName name)
    (up : s.location.getLast? = some "..ira") {before after : Session} :
    Session.perform before (s.action out format bytes) ≠ .ok after := by
  have name : Path.replaceExtension "..ira" format.extension = ".." := by
    cases format <;> decide +kernel
  have noSlash : ∀ name ∈ s.location.dropLast ++ [".."], '/' ∉ name.toList := by
    intro name member
    rcases List.mem_append.mp member with above | here
    · exact (isNames name (List.dropLast_subset _ above)).noSlash
    · rw [List.mem_singleton.mp here]
      decide
  obtain ⟨front, split, -⟩ :=
    Path.exists_pieces_join out (Path.ofNames (s.location.dropLast ++ [".."]))
  rw [Path.pieces_ofNames noSlash (by simp), ← List.append_assoc] at split
  rw [action, up, Option.getD_some, name]
  exact Session.not_perform_up split

theorem exists_emit {text : String} {contents : List UInt8} (accepted : o.Accepts format contents)
    (read : textOf contents = .ok text) : ∃ a bytes, assemble o.settings text = .ok a ∧
      a.diagnostics = [] ∧ a.emit format o.settings.vocabulary = .ok bytes := by
  obtain ⟨_, a, same, assembled, clean, room⟩ := accepted
  rw [read] at same
  cases same
  have none : a.outline.errorCount = 0 := by
    obtain ⟨b, accepted, rfl⟩ := exists_attempt_of_assemble assembled
    exact (errorCount_of_attempt accepted).trans (List.length_eq_zero_iff.mpr clean)
  suffices ∃ bytes, a.emit format o.settings.vocabulary = .ok bytes by
    obtain ⟨bytes, made⟩ := this
    exact ⟨a, bytes, assembled, clean, made⟩
  cases format with
  | listing => exact ⟨_, Assembly.emit_listing_of_clean none _⟩
  | check => exact ⟨_, Assembly.emit_check_of_clean none _⟩
  | wasm =>
    obtain ⟨m, lowered⟩ := Program.exists_lower (room rfl)
    exact ⟨m.encode, by rw [Assembly.emit_wasm_of_clean none, lowered]; rfl⟩

theorem plan_of_source {a : Assembly} (output : o.output = some out) (asked : format ≠ .check)
    (assembled : assemble o.settings s.text = .ok a) (clean : a.diagnostics = [])
    (made : a.emit format o.settings.vocabulary = .ok bytes) (path : String) :
    (s.input path).plan o format = ⟨[s.action out format bytes], 0, none⟩ := by
  obtain ⟨b, outcome, rfl⟩ := exists_attempt_of_assemble assembled
  have accepted : ((s.input path).attempt o).outcome = .ok b := outcome
  have none : b.outline.errorCount = 0 :=
    (errorCount_of_attempt outcome).trans (List.length_eq_zero_iff.mpr clean)
  refine Input.plan_of_write accepted none asked ?_ made
  rw [output]
  rfl

end Source

variable {format : OutputFormat} {t : FileTree} {out : String} {l target : Location}

/-! ## All sources -/

/-- No source is called `..ira`, and no output stands where the path to one passes. -/
structure FileTree.Unobstructed (t : FileTree) (out : String) (l target : Location)
    (format : OutputFormat) : Prop where
  stems : ∀ file ∈ t.sourcesBelow l, file.1.getLast? ≠ some "..ira"
  clear : ∀ file ∈ t.sourcesBelow l, ∀ other ∈ t.sourcesBelow l,
    ¬ Location.Visits [] (Path.names out ++ other.1.dropLast)
      (target ++ file.1.withExtension format.extension)

section Outputs

variable {sources : List SourceFile} {bytes : SourceFile → List UInt8}

theorem sound_of_mem_outputs (collected : Collected (t.filesBelow l) sources) (sound : t.Sound)
    (vacant : t.Vacant out target) {w : Output}
    (member : w ∈ sources.map fun s => s.output out target format (bytes s)) : w.Sound := by
  obtain ⟨s, inside, rfl⟩ := List.mem_map.mp member
  exact SourceFile.sound_output vacant.leads (collected.isName sound inside)
    (collected.isSource inside)

theorem nodeAt?_of_mem_outputs (vacant : t.Vacant out target) {w : Output}
    (member : w ∈ sources.map fun s => s.output out target format (bytes s)) :
    t.nodeAt? w.place = none := by
  obtain ⟨s, inside, rfl⟩ := List.mem_map.mp member
  rw [SourceFile.place_output]
  exact FileTree.nodeAt?_append vacant.new _

/-- The outputs of different sources have different places. -/
theorem distinct_outputs (collected : Collected (t.filesBelow l) sources) (sound : t.Sound)
    (out : String) (target : Location) (format : OutputFormat) (bytes : SourceFile → List UInt8) :
    ((sources.map fun s => s.output out target format (bytes s)).map Output.place).Nodup := by
  have places : (sources.map fun s => s.output out target format (bytes s)).map Output.place =
      (sources.map SourceFile.location).map fun l =>
        target ++ l.withExtension format.extension := by
    rw [List.map_map, List.map_map]
    exact List.map_congr_left fun s _ => SourceFile.place_output
  rw [places]
  refine (collected.nodup_locations (sound.distinct_below l)).map_on ?_
  intro l member l' member' same
  obtain ⟨s, inside, rfl⟩ := List.mem_map.mp member
  obtain ⟨other, inside', rfl⟩ := List.mem_map.mp member'
  exact Location.withExtension_injective (collected.isSource inside) (collected.isSource inside')
    (List.append_cancel_left same)

theorem admits_outputs (collected : Collected (t.filesBelow l) sources) (sound : t.Sound)
    (vacant : t.Vacant out target) (free : t.Unobstructed out l target format)
    (bytes : SourceFile → List UInt8) :
    t.Admits (sources.map fun s => s.output out target format (bytes s)) := by
  refine ⟨fun w => sound_of_mem_outputs collected sound vacant,
    fun w => nodeAt?_of_mem_outputs vacant, fun w member place passed => ?_,
    fun w member v member' passed => ?_, distinct_outputs collected sound out target format bytes⟩
  · obtain ⟨s, inside, rfl⟩ := List.mem_map.mp member
    rcases (SourceFile.passes_output vacant.leads (collected.isName sound inside)).mp passed with
      earlier | ⟨above, -, rfl⟩
    · exact vacant.free place earlier
    · exact (FileTree.nodeAt?_eq_none_iff.mp (FileTree.nodeAt?_append vacant.new above)).1
  · obtain ⟨s, inside, rfl⟩ := List.mem_map.mp member
    obtain ⟨other, inside', rfl⟩ := List.mem_map.mp member'
    obtain ⟨file, below, same⟩ := collected.exists_below inside
    obtain ⟨file', below', same'⟩ := collected.exists_below inside'
    rw [SourceFile.place_output, ← same] at passed
    refine free.clear file below file' below' ?_
    rw [same']
    exact passed

theorem clear_of_admits (collected : Collected (t.filesBelow l) sources)
    (admits : t.Admits (sources.map fun s => s.output out target format (bytes s))) :
    ∀ file ∈ t.sourcesBelow l, ∀ other ∈ t.sourcesBelow l,
      ¬ Location.Visits [] (Path.names out ++ other.1.dropLast)
        (target ++ file.1.withExtension format.extension) := by
  intro file below other below' passed
  obtain ⟨s, inside, same⟩ := collected.exists_of_below below
  obtain ⟨s', inside', same'⟩ := collected.exists_of_below below'
  refine admits.clear _ (List.mem_map_of_mem inside) _ (List.mem_map_of_mem inside') ?_
  rw [SourceFile.place_output, same]
  rw [← same'] at passed
  exact passed

/-- Where each source has a stem, what is done is to write the outputs. -/
theorem map_action_eq (collected : Collected (t.filesBelow l) sources)
    (stems : ∀ file ∈ t.sourcesBelow l, file.1.getLast? ≠ some "..ira") (out : String)
    (target : Location) (format : OutputFormat) (bytes : SourceFile → List UInt8) :
    (sources.map fun s => s.action out format (bytes s)) =
      (sources.map fun s => s.output out target format (bytes s)).map Output.action := by
  rw [List.map_map]
  refine List.map_congr_left fun s member => ?_
  obtain ⟨file, below, same⟩ := collected.exists_below member
  exact SourceFile.action_eq (collected.isSource member) (same ▸ stems file below)

end Outputs

end SigilAsm
