import Mathlib.Data.List.Induction
import Mathlib.Data.List.Nodup
import SigilAsm.CommandLine.Session
import SigilAsm.Proofs.FileTree.Paths

/-! # Places

Names lead from place to place, `..` one place up and any other name one down,
whether anything is there or not.  A tree in which no file stands in the way of
some names has a directory at each place they pass once the directories that are
missing were made, and only there is anything new.
-/

namespace SigilAsm

/-! ## Walking -/

namespace Location

/-- Where a name leads; not out of the tree. -/
def step (l : Location) (name : String) : Option Location :=
  if name = ".." then if l.isEmpty then none else some l.dropLast
  else some (l ++ [name])

/-- Where names lead, one after the other. -/
def walk (l : Location) (names : List String) : Option Location := names.foldlM step l

/-- The places that names pass, the first and the last included. -/
def Visits (l : Location) (names : List String) (place : Location) : Prop :=
  ∃ before, before <+: names ∧ l.walk before = some place

variable {l l' place : Location} {name : String} {names more : List String}

theorem step_of_name (isName : Path.IsName name) : l.step name = some (l ++ [name]) :=
  if_neg isName.notUp

theorem walk_nil (l : Location) : l.walk [] = some l := rfl

theorem walk_cons : l.walk (name :: names) = (l.step name).bind (·.walk names) := rfl

theorem walk_append : l.walk (names ++ more) = (l.walk names).bind (·.walk more) :=
  List.foldlM_append

theorem walk_singleton : l.walk [name] = l.step name := by
  rw [walk_cons]
  cases l.step name <;> rfl

/-- Names lead down one place each. -/
theorem walk_of_isName (isNames : ∀ n ∈ names, Path.IsName n) :
    l.walk names = some (l ++ names) := by
  induction names generalizing l with
  | nil => rw [walk_nil, List.append_nil]
  | cons name names ih =>
    rw [walk_cons, step_of_name (isNames name List.mem_cons_self), Option.bind_some,
      ih fun n member => isNames n (List.mem_cons_of_mem _ member), List.append_assoc]
    rfl

theorem visits_nil : l.Visits [] place ↔ place = l := by
  constructor
  · rintro ⟨before, inside, reached⟩
    rw [List.prefix_nil.mp inside, walk_nil] at reached
    exact (Option.some.inj reached).symm
  · rintro rfl
    exact ⟨[], List.prefix_rfl, rfl⟩

theorem visits_cons : l.Visits (name :: names) place ↔
    place = l ∨ ∃ l', l.step name = some l' ∧ l'.Visits names place := by
  constructor
  · rintro ⟨before, inside, reached⟩
    cases before with
    | nil => exact .inl (Option.some.inj reached).symm
    | cons first before =>
      obtain ⟨rfl, shorter⟩ := List.cons_prefix_cons.mp inside
      obtain ⟨l', stepped, reached⟩ := Option.bind_eq_some_iff.mp (walk_cons ▸ reached)
      exact .inr ⟨l', stepped, before, shorter, reached⟩
  · rintro (rfl | ⟨l', stepped, before, inside, reached⟩)
    · exact ⟨[], List.nil_prefix, rfl⟩
    · refine ⟨name :: before, List.cons_prefix_cons.mpr ⟨rfl, inside⟩, ?_⟩
      rw [walk_cons, stepped]
      exact reached

theorem visits_append : l.Visits (names ++ more) place ↔
    l.Visits names place ∨ ∃ l', l.walk names = some l' ∧ l'.Visits more place := by
  induction names generalizing l with
  | nil =>
    have start : (∃ l', l.walk [] = some l' ∧ l'.Visits more place) ↔ l.Visits more place := by
      simp [walk_nil]
    rw [start, visits_nil, List.nil_append]
    constructor
    · exact .inr
    · rintro (rfl | passed)
      · exact ⟨[], List.nil_prefix, rfl⟩
      · exact passed
  | cons name names ih =>
    rw [List.cons_append, visits_cons, visits_cons, walk_cons]
    cases l.step name with
    | none => simp
    | some l' => simp [ih, or_assoc]

theorem visits_concat : l.Visits (names ++ [name]) place ↔
    l.Visits names place ∨ l.walk (names ++ [name]) = some place := by
  rw [visits_append, walk_append]
  cases reached : l.walk names with
  | none => simp
  | some l' =>
    have last : l.Visits names l' := ⟨names, List.prefix_rfl, reached⟩
    simp only [Option.some.injEq, exists_eq_left', Option.bind_some, visits_cons, visits_nil,
      walk_singleton]
    constructor
    · rintro (passed | rfl | ⟨l'', stepped, rfl⟩)
      · exact .inl passed
      · exact .inl last
      · exact .inr stepped
    · rintro (passed | stepped)
      · exact .inl passed
      · exact .inr (.inr ⟨place, stepped, rfl⟩)

theorem visits_self : l.Visits names l := ⟨[], List.nil_prefix, rfl⟩

theorem visits_of_walk (reached : l.walk names = some place) : l.Visits names place :=
  ⟨names, List.prefix_rfl, reached⟩

/-- Below a place, names pass those above the one they lead to. -/
theorem visits_of_isName (isNames : ∀ n ∈ names, Path.IsName n) :
    l.Visits names place ↔ ∃ before, before <+: names ∧ place = l ++ before := by
  refine exists_congr fun before => and_congr_right fun inside => ?_
  rw [walk_of_isName fun n member => isNames n (inside.subset member)]
  exact ⟨fun same => (Option.some.inj same).symm, fun same => congrArg some same.symm⟩

theorem visits_iff_above (isNames : ∀ n ∈ names, Path.IsName n) :
    Visits [] names place ↔ place <+: names := by
  rw [visits_of_isName isNames]
  exact ⟨fun ⟨_, higher, same⟩ => same ▸ higher, fun higher => ⟨place, higher, rfl⟩⟩

/-- From the top, whatever lies above a place that was passed was passed too. -/
theorem Visits.upwards {above : Location} (passed : Visits [] names place)
    (higher : above <+: place) : Visits [] names above := by
  induction names using List.reverseRecOn generalizing place above with
  | nil =>
    obtain rfl := visits_nil.mp passed
    exact visits_nil.mpr (List.prefix_nil.mp higher)
  | append_singleton names name ih =>
    rw [visits_concat]
    rcases visits_concat.mp passed with passed | reached
    · exact .inl (ih passed higher)
    · obtain ⟨l', before, stepped⟩ := Option.bind_eq_some_iff.mp (walk_append ▸ reached)
      rw [walk_singleton, step] at stepped
      have earlier := visits_of_walk before
      split at stepped
      · split at stepped
        · cases stepped
        · obtain rfl := Option.some.inj stepped
          exact .inl (ih earlier (higher.trans (List.dropLast_prefix l')))
      · obtain rfl := Option.some.inj stepped
        rcases List.prefix_concat_iff.mp higher with rfl | higher
        · exact .inr reached
        · exact .inl (ih earlier higher)

end Location

/-! ## What stands at a place -/

namespace FileTree

open Location (step walk Visits)

variable {t t' : FileTree} {l l' : Location} {name : String} {names up : List String}

theorem isDirectoryAt_iff : t.isDirectoryAt l = true ↔
    l = [] ∨ (∃ d ∈ t.directories, l <+: d) ∨ ∃ file ∈ t.files, l <+: file.1 ∧ l ≠ file.1 := by
  simp [isDirectoryAt, or_assoc]

theorem isDirectoryAt_above {above : Location} (here : t.isDirectoryAt l = true)
    (higher : above <+: l) : t.isDirectoryAt above = true := by
  rw [isDirectoryAt_iff] at here ⊢
  rcases here with rfl | ⟨d, member, below⟩ | ⟨file, member, below, apart⟩
  · exact .inl (List.prefix_nil.mp higher)
  · exact .inr (.inl ⟨d, member, higher.trans below⟩)
  · refine .inr (.inr ⟨file, member, higher.trans below, ?_⟩)
    rintro rfl
    exact apart (below.eq_of_length_le higher.length_le)

theorem nodeAt?_eq_none_iff :
    t.nodeAt? l = none ↔ t.files.lookup l = none ∧ t.isDirectoryAt l = false := by
  unfold nodeAt?
  cases t.files.lookup l with
  | some contents => simp
  | none => simp

/-- Where nothing stands, nothing stands below. -/
theorem nodeAt?_append (new : t.nodeAt? l = none) (below : Location) :
    t.nodeAt? (l ++ below) = none := by
  obtain ⟨free, nothing⟩ := nodeAt?_eq_none_iff.mp new
  refine nodeAt?_eq_none_iff.mpr ⟨List.lookup_eq_none_iff.mpr fun file member => ?_, ?_⟩
  · suffices file.1 ≠ l ++ below by simpa using this.symm
    intro here
    have apart : l ≠ file.1 := by simpa using List.lookup_eq_none_iff.mp free file member
    have below_l : l <+: file.1 := here ▸ List.prefix_append l below
    exact Bool.eq_false_iff.mp nothing
      (isDirectoryAt_iff.mpr (.inr (.inr ⟨file, member, below_l, apart⟩)))
  · refine Bool.eq_false_iff.mpr fun here => Bool.eq_false_iff.mp nothing ?_
    exact isDirectoryAt_above here (List.prefix_append l below)

theorem nodeAt?_of_directory (free : t.files.lookup l = none) (here : t.isDirectoryAt l = true) :
    t.nodeAt? l = some (.directory l) := by
  rw [nodeAt?, free]
  exact if_pos here

/-! ## Sound trees -/

/-- Files have names, and there is one file at a place. -/
structure Sound (t : FileTree) : Prop where
  isName : ∀ file ∈ t.files, ∀ name ∈ file.1, Path.IsName name
  distinct : (t.files.map Prod.fst).Nodup

theorem Sound.isName_below (sound : t.Sound) {file : Location × List UInt8}
    (member : file ∈ t.filesBelow l) :
    ∀ name ∈ file.1, Path.IsName name := by
  obtain ⟨listed, inside, rfl⟩ := List.mem_map.mp member
  obtain ⟨here, -⟩ := List.mem_filter.mp inside
  exact fun name among => sound.isName listed here name (List.mem_of_mem_drop among)

theorem Sound.distinct_below (sound : t.Sound) (l : Location) :
    ((t.filesBelow l).map Prod.fst).Nodup := by
  have listed : ((t.files.filter fun file => l.isPrefixOf file.1).map Prod.fst).Nodup :=
    sound.distinct.sublist (List.filter_sublist.map _)
  have below : (t.filesBelow l).map Prod.fst =
      ((t.files.filter fun file => l.isPrefixOf file.1).map Prod.fst).map (·.drop l.length) := by
    rw [filesBelow, List.map_map, List.map_map]
    rfl
  rw [below]
  refine listed.map_on fun a memberA b memberB same => ?_
  obtain ⟨file, inside, rfl⟩ := List.mem_map.mp memberA
  obtain ⟨file', inside', rfl⟩ := List.mem_map.mp memberB
  obtain ⟨rest, whole⟩ := List.isPrefixOf_iff_prefix.mp (List.mem_filter.mp inside).2
  obtain ⟨rest', whole'⟩ := List.isPrefixOf_iff_prefix.mp (List.mem_filter.mp inside').2
  rw [← whole, ← whole', List.drop_left, List.drop_left] at same
  rw [← whole, ← whole', same]

/-! ## Following names -/

theorem follow_cons_of_not_leads {piece : String} (nowhere : Path.leads piece = false)
    (rest : List String) : t.follow l (piece :: rest) = t.follow l rest := by
  have skipped : piece = "" ∨ piece = "." := by
    simpa [Path.leads, or_iff_not_imp_left] using nowhere
  rw [follow, if_pos skipped]

theorem follow_cons_of_leads (leads : Path.leads name = true) (rest : List String) :
    t.follow l (name :: rest) =
      if name = ".." then if l.isEmpty then .error .notFound else t.follow l.dropLast rest
      else match t.nodeAt? (l ++ [name]) with
        | none => .error .notFound
        | some (.directory below) => t.follow below rest
        | some (.file file contents) =>
          if rest.isEmpty then .ok (.file file contents) else .error .notDirectory := by
  have named : ¬(name = "" ∨ name = ".") := by simpa [Path.leads] using leads
  exact if_neg named

/-- On the way to a directory each piece leads to a directory, whatever comes after it. -/
theorem exists_follow_cons {piece : String} {rest : List String}
    (followed : t.follow l (piece :: rest) = .ok (.directory l')) :
    ∃ next, t.follow next rest = .ok (.directory l') ∧
      ∀ more, t.follow l (piece :: more) = t.follow next more := by
  cases leads : Path.leads piece with
  | false =>
    rw [follow_cons_of_not_leads leads] at followed
    exact ⟨l, followed, follow_cons_of_not_leads leads⟩
  | true =>
    rw [follow_cons_of_leads leads] at followed
    split at followed
    next up =>
      split at followed
      · cases followed
      next below =>
        refine ⟨l.dropLast, followed, fun more => ?_⟩
        rw [follow_cons_of_leads leads, if_pos up, if_neg below]
    next down =>
      split at followed
      · cases followed
      next below here =>
        refine ⟨below, followed, fun more => ?_⟩
        rw [follow_cons_of_leads leads, if_neg down, here]
      · split at followed <;> cases followed

/-- Pieces that lead nowhere are passed over on the way to a directory. -/
theorem follow_filter_iff {pieces : List String} :
    t.follow l (pieces.filter Path.leads) = .ok (.directory l') ↔
      t.follow l pieces = .ok (.directory l') := by
  induction pieces generalizing l with
  | nil => rfl
  | cons piece rest ih =>
    cases leads : Path.leads piece with
    | false =>
      rw [List.filter_cons_of_neg (by simp [leads]), follow_cons_of_not_leads leads]
      exact ih
    | true =>
      rw [List.filter_cons_of_pos leads]
      constructor
      · intro followed
        obtain ⟨next, followed, onward⟩ := exists_follow_cons followed
        rw [onward]
        exact ih.mp followed
      · intro followed
        obtain ⟨next, followed, onward⟩ := exists_follow_cons followed
        rw [onward]
        exact ih.mpr followed

theorem follow_append_of_directory {more : List String}
    (followed : t.follow l names = .ok (.directory l')) :
    t.follow l (names ++ more) = t.follow l' more := by
  induction names generalizing l with
  | nil =>
    cases followed
    rfl
  | cons name names ih =>
    obtain ⟨next, followed, onward⟩ := exists_follow_cons followed
    rw [List.cons_append, onward]
    exact ih followed

/-- A name leads on to the place it leads to if a directory is there and no file. -/
theorem follow_cons_of_step (leads : Path.leads name = true) (stepped : l.step name = some l')
    (free : t.files.lookup l' = none) (here : t.isDirectoryAt l' = true) (rest : List String) :
    t.follow l (name :: rest) = t.follow l' rest := by
  rw [follow_cons_of_leads leads]
  rw [step] at stepped
  split at stepped
  next up =>
    rw [if_pos up]
    split at stepped
    · cases stepped
    next below =>
      cases stepped
      rw [if_neg below]
  next down =>
    cases stepped
    rw [if_neg down, nodeAt?_of_directory free here]

theorem follow_of_directories (leads : ∀ n ∈ names, Path.leads n = true)
    (reached : l.walk names = some l')
    (free : ∀ place, l.Visits names place → t.files.lookup place = none)
    (there : ∀ place, l.Visits names place → t.isDirectoryAt place = true) :
    t.follow l names = .ok (.directory l') := by
  induction names generalizing l with
  | nil =>
    cases reached
    rfl
  | cons name names ih =>
    obtain ⟨next, stepped, reached⟩ := Option.bind_eq_some_iff.mp (Location.walk_cons ▸ reached)
    have onward {place : Location} (passed : next.Visits names place) :
        l.Visits (name :: names) place := Location.visits_cons.mpr (.inr ⟨next, stepped, passed⟩)
    have first := onward Location.visits_self
    rw [follow_cons_of_step (leads name List.mem_cons_self) stepped (free next first)
      (there next first)]
    exact ih (fun n member => leads n (List.mem_cons_of_mem _ member)) reached
      (fun place passed => free place (onward passed))
      fun place passed => there place (onward passed)

/-- Where no file stands in the way, the way ends at the first place where nothing is. -/
theorem follow_of_missing (leads : ∀ n ∈ names, Path.leads n = true)
    (reached : l.walk names = some l')
    (free : ∀ place, l.Visits names place → t.files.lookup place = none)
    (here : t.isDirectoryAt l = true)
    (missing : ∃ place, l.Visits names place ∧ t.isDirectoryAt place = false) :
    t.follow l names = .error .notFound := by
  obtain ⟨place, passed, gone⟩ := missing
  induction names generalizing l with
  | nil =>
    rw [Location.visits_nil.mp passed, here] at gone
    cases gone
  | cons name names ih =>
    obtain ⟨next, stepped, reached⟩ := Option.bind_eq_some_iff.mp (Location.walk_cons ▸ reached)
    have onward {place : Location} (passed : next.Visits names place) :
        l.Visits (name :: names) place := Location.visits_cons.mpr (.inr ⟨next, stepped, passed⟩)
    have first := free next (onward Location.visits_self)
    have named := leads name List.mem_cons_self
    cases there : t.isDirectoryAt next with
    | true =>
      rw [follow_cons_of_step named stepped first there]
      refine ih (fun n member => leads n (List.mem_cons_of_mem _ member)) reached
        (fun place passed => free place (onward passed)) there ?_
      rcases Location.visits_cons.mp passed with rfl | ⟨other, again, passed⟩
      · rw [here] at gone
        cases gone
      · rw [stepped] at again
        cases again
        exact passed
    | false =>
      -- Above a directory there are only directories, so the name leads down.
      rw [step] at stepped
      split at stepped
      · split at stepped
        · cases stepped
        · cases stepped
          rw [isDirectoryAt_above here (List.dropLast_prefix l)] at there
          cases there
      next down =>
        cases stepped
        rw [follow_cons_of_leads named, if_neg down, nodeAt?_eq_none_iff.mpr ⟨first, there⟩]

/-! ## Making directories -/

/-- A tree with the same files, and with directories at some places more. -/
structure Opened (t t' : FileTree) (opened : Location → Prop) : Prop where
  files : t'.files = t.files
  directories : ∀ place,
    t'.isDirectoryAt place = true ↔ t.isDirectoryAt place = true ∨ opened place

theorem isDirectoryAt_top (t : FileTree) : t.isDirectoryAt [] = true := rfl

theorem makeDirectory_of_follow (followed : t.follow [] up.reverse = .ok (.directory l)) :
    t.makeDirectory up name =
      if name = ".." ∨ (t.nodeAt? (l ++ [name])).isSome then .error .alreadyExists
      else .ok { t with directories := t.directories ++ [l ++ [name]] } := by
  rw [makeDirectory, followed]

theorem leadsToDirectory_of_follow {upwards : List String}
    (followed : t.follow [] upwards.reverse = .ok (.directory l)) :
    t.leadsToDirectory upwards = true := by
  rw [leadsToDirectory, followed]

theorem isDirectoryAt_append {place : Location} :
    ({ t with directories := t.directories ++ [l] } : FileTree).isDirectoryAt place = true ↔
      t.isDirectoryAt place = true ∨ place <+: l := by
  simp only [isDirectoryAt_iff, List.mem_append, List.mem_singleton, or_and_right, exists_or,
    exists_eq_left, or_assoc]
  exact or_congr_right (or_congr_right or_comm)

/-- What is made in a directory is one directory more. -/
theorem opened_append (here : t.isDirectoryAt l = true) (name : String) :
    Opened t { t with directories := t.directories ++ [l ++ [name]] } (· = l ++ [name]) where
  files := rfl
  directories place := by
    rw [isDirectoryAt_append, List.prefix_concat_iff, or_left_comm]
    constructor
    · rintro (same | there | above)
      · exact .inr same
      · exact .inl there
      · exact .inl (isDirectoryAt_above here above)
    · rintro (there | same)
      · exact .inr (.inl there)
      · exact .inl same

/-- Making a directory where a name leads that is there already changes nothing, and the fault does
not matter. -/
theorem makeDirectory_of_step (leads : Path.leads name = true)
    (followed : t.follow [] up.reverse = .ok (.directory l)) (here : t.isDirectoryAt l = true)
    (stepped : l.step name = some l') (free : t.files.lookup l' = none) :
    (t.makeDirectory up name = .error .alreadyExists ∧ t.isDirectoryAt l' = true ∧
        t.leadsToDirectory (name :: up) = true) ∨
      ∃ t', t.makeDirectory up name = .ok t' ∧ Opened t t' (· = l') := by
  have onward (there : t.isDirectoryAt l' = true) : t.leadsToDirectory (name :: up) = true := by
    refine leadsToDirectory_of_follow (l := l') ?_
    rw [List.reverse_cons, follow_append_of_directory followed,
      follow_cons_of_step leads stepped free there]
    rfl
  rw [makeDirectory_of_follow followed]
  by_cases there : t.isDirectoryAt l' = true
  · refine .inl ⟨if_pos ?_, there, onward there⟩
    rw [step] at stepped
    split at stepped
    next up => exact .inl up
    next =>
      cases stepped
      exact .inr (by rw [nodeAt?_of_directory free there]; rfl)
  · rw [step] at stepped
    split at stepped
    · split at stepped
      · cases stepped
      · cases stepped
        exact absurd (isDirectoryAt_above here (List.dropLast_prefix l)) there
    next down =>
      cases stepped
      have nothing := nodeAt?_eq_none_iff.mpr ⟨free, Bool.eq_false_iff.mpr there⟩
      exact .inr ⟨_, if_neg (by simp [down, nothing]), opened_append here name⟩

/-- Where there are directories at all places that names pass, one more name takes one more
directory, if that is not there. -/
theorem Opened.step {u : FileTree} (opened : Opened t u (Visits [] names))
    (leads : ∀ n ∈ names ++ [name], Path.leads n = true)
    (reached : walk [] (names ++ [name]) = some l)
    (free : ∀ place, Visits [] (names ++ [name]) place → t.files.lookup place = none) :
    (u.makeDirectory names.reverse name = .error .alreadyExists ∧
        u.leadsToDirectory (name :: names.reverse) = true ∧
        Opened t u (Visits [] (names ++ [name]))) ∨
      ∃ t', u.makeDirectory names.reverse name = .ok t' ∧
        Opened t t' (Visits [] (names ++ [name])) := by
  obtain ⟨above, before, last⟩ := Option.bind_eq_some_iff.mp (Location.walk_append ▸ reached)
  rw [Location.walk_singleton] at last
  have there (place : Location) (passed : Visits [] names place) : u.isDirectoryAt place = true :=
    (opened.directories place).mpr (.inr passed)
  have followed : u.follow [] names.reverse.reverse = .ok (.directory above) := by
    rw [List.reverse_reverse]
    refine follow_of_directories (fun n member => leads n (List.mem_append_left _ member)) before
      (fun place passed => ?_) there
    rw [opened.files]
    exact free place (Location.visits_concat.mpr (.inl passed))
  have freeHere : u.files.lookup l = none := by
    rw [opened.files]
    exact free l (Location.visits_of_walk reached)
  have onward (place : Location) : Visits [] (names ++ [name]) place ↔
      Visits [] names place ∨ place = l := by
    rw [Location.visits_concat, reached, Option.some.injEq, eq_comm (a := l)]
  have hereAbove := there above (Location.visits_of_walk before)
  rcases makeDirectory_of_step (leads name (by simp)) followed hereAbove last freeHere with
    ⟨refused, here, leadsOn⟩ | ⟨t', made, more⟩
  · refine .inl ⟨refused, leadsOn, opened.files, fun place => ?_⟩
    rw [opened.directories, onward, ← or_assoc, ← opened.directories]
    refine ⟨.inl, ?_⟩
    rintro (there | rfl)
    · exact there
    · exact here
  · refine .inr ⟨t', made, more.files.trans opened.files, fun place => ?_⟩
    rw [more.directories, opened.directories, onward, or_assoc]

/-- Directories are made at all places that names pass, unless a file stands there. -/
theorem exists_makeDirectories (leads : ∀ n ∈ names, Path.leads n = true)
    (reached : walk [] names = some l)
    (free : ∀ place, Visits [] names place → t.files.lookup place = none) :
    ∃ t', t.makeDirectories names.reverse = .ok t' ∧ Opened t t' (Visits [] names) := by
  induction names using List.reverseRecOn generalizing l with
  | nil =>
    refine ⟨t, rfl, rfl, fun place => ⟨.inl, ?_⟩⟩
    rintro (there | passed)
    · exact there
    · rw [Location.visits_nil.mp passed]
      exact t.isDirectoryAt_top
  | append_singleton names name ih =>
    obtain ⟨above, before, -⟩ := Option.bind_eq_some_iff.mp (Location.walk_append ▸ reached)
    have leadsAbove (n : String) (member : n ∈ names) : Path.leads n = true :=
      leads n (List.mem_append_left _ member)
    have freeAbove (place : Location) (passed : Visits [] names place) :
        t.files.lookup place = none := free place (Location.visits_concat.mpr (.inl passed))
    rw [List.reverse_append, List.reverse_singleton, List.singleton_append]
    by_cases there : ∀ place, Visits [] names place → t.isDirectoryAt place = true
    · have opened : Opened t t (Visits [] names) :=
        ⟨rfl, fun place => ⟨.inl, fun h => h.elim id (there place)⟩⟩
      rcases opened.step leads reached free with ⟨refused, leadsOn, opened⟩ | ⟨t', made, opened⟩
      · exact ⟨t, by simp only [makeDirectories, refused, leadsOn, if_true], opened⟩
      · exact ⟨t', by simp only [makeDirectories, made], opened⟩
    · -- The first attempt fails, and the next one is made when those above are there.
      have missing : ∃ place, Visits [] names place ∧ t.isDirectoryAt place = false := by
        simpa using there
      have first : t.makeDirectory names.reverse name = .error .notFound := by
        rw [makeDirectory, List.reverse_reverse,
          follow_of_missing leadsAbove before freeAbove t.isDirectoryAt_top missing]
      obtain ⟨u, made, opened⟩ := ih leadsAbove before freeAbove
      rcases opened.step leads reached free with ⟨refused, leadsOn, opened⟩ | ⟨t', last, opened⟩
      · exact ⟨u, by simp only [makeDirectories, first, made, refused, leadsOn, if_true], opened⟩
      · exact ⟨t', by simp only [makeDirectories, first, made, last], opened⟩

/-! ## Writing files -/

theorem setFile_of_free (free : t.files.lookup l = none) (contents : List UInt8) :
    t.setFile l contents = { t with files := t.files ++ [(l, contents)] } := by
  rw [setFile, free]
  rfl

theorem isDirectoryAt_append_file {place : Location} {contents : List UInt8} :
    ({ t with files := t.files ++ [(l, contents)] } : FileTree).isDirectoryAt place = true ↔
      t.isDirectoryAt place = true ∨ place <+: l ∧ place ≠ l := by
  simp only [isDirectoryAt_iff, List.mem_append, List.mem_singleton, or_and_right, exists_or,
    exists_eq_left, or_assoc]

/-- A file is written at a path that ends in a name if its directory is there and nothing else. -/
theorem writeFile_of_new {path : String} {above : List String} (ends : Path.Ends path above name)
    (followed : t.follow [] above = .ok (.directory l)) (new : t.nodeAt? (l ++ [name]) = none)
    (contents : List UInt8) :
    t.writeFile path contents = .ok { t with files := t.files ++ [(l ++ [name], contents)] } := by
  obtain ⟨before, split, rfl⟩ := ends.split
  have isName := ends.isName
  obtain ⟨full, other⟩ : name ≠ "" ∧ name ≠ "." := by simpa [Path.leads] using isName.leads
  have backwards : (Path.pieces path).reverse = name :: before.reverse := by
    rw [split, List.reverse_append, List.reverse_singleton, List.singleton_append]
  have last : (name :: before.reverse).dropWhile (· == "") = name :: before.reverse :=
    List.dropWhile_cons_of_neg (by simpa using full)
  simp only [writeFile, backwards, last, List.reverse_reverse, follow_filter_iff.mp followed,
    List.head?_cons, Option.some.injEq, other, isName.notUp, full, or_self, if_false, new,
    setFile_of_free (nodeAt?_eq_none_iff.mp new).1]

/-- A file that is there is found at its path. -/
theorem resolve_of_file {path : String} {above : List String} {contents : List UInt8}
    (ends : Path.Ends path above name) (followed : t.follow [] above = .ok (.directory l))
    (here : t.files.lookup (l ++ [name]) = some contents) :
    t.resolve path = .ok (.file (l ++ [name]) contents) := by
  have some : path.isEmpty = false := by simpa using ends.ne_empty
  obtain ⟨before, split, rfl⟩ := ends.split
  rw [resolve, some, split, follow_append_of_directory (follow_filter_iff.mp followed),
    follow_cons_of_leads ends.isName.leads, if_neg ends.isName.notUp, nodeAt?, here]
  rfl

end FileTree

end SigilAsm
