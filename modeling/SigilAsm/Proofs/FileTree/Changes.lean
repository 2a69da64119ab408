import SigilAsm.Proofs.FileTree.Places

/-! # What was there before a write

Directories that were made and a file that was written tell what the tree was like
before.  All files and directories that there were are still there, and where a
way leads to a directory it passes directories alone.
-/

namespace SigilAsm.FileTree

open Location (step walk Visits)

variable {t u t' : FileTree} {l l' place : Location} {name path : String}
  {names more up upwards above : List String} {contents : List UInt8}

/-! ## Ways that were followed -/

theorem exists_follow_append (followed : t.follow l (names ++ more) = .ok (.directory l')) :
    ∃ next, t.follow l names = .ok (.directory next) ∧
      t.follow next more = .ok (.directory l') := by
  induction names generalizing l with
  | nil => exact ⟨l, rfl, followed⟩
  | cons name names ih =>
    obtain ⟨next, followed, onward⟩ := exists_follow_cons followed
    obtain ⟨last, first, second⟩ := ih followed
    exact ⟨last, (onward names).trans first, second⟩

theorem eq_of_nodeAt?_eq_directory (here : t.nodeAt? l = some (.directory l')) :
    l' = l ∧ t.isDirectoryAt l = true ∧ t.files.lookup l = none := by
  unfold nodeAt? at here
  split at here
  · cases here
  next free =>
    split at here
    next there =>
      cases here
      exact ⟨rfl, there, free⟩
    · cases here

/-- A name that was followed to a directory leads there.  Unless it leads up, this was looked at. -/
theorem step_of_follow (leads : Path.leads name = true)
    (followed : t.follow l [name] = .ok (.directory l')) : l.step name = some l' ∧
      (l' <+: l ∨ t.isDirectoryAt l' = true ∧ t.files.lookup l' = none) := by
  rw [follow_cons_of_leads leads] at followed
  rw [step]
  split at followed
  next up =>
    split at followed
    · cases followed
    next below =>
      cases followed
      exact ⟨by rw [if_pos up, if_neg below], .inl (List.dropLast_prefix l)⟩
  next down =>
    rw [if_neg down]
    split at followed
    · cases followed
    next here =>
      cases followed
      obtain ⟨rfl, there⟩ := eq_of_nodeAt?_eq_directory here
      exact ⟨rfl, .inr there⟩
    · split at followed <;> cases followed

/-- Names that were followed to a directory lead there, and pass directories alone. -/
theorem walk_of_follow (leads : ∀ n ∈ names, Path.leads n = true)
    (followed : t.follow [] names = .ok (.directory l)) : walk [] names = some l ∧
      ∀ place, Visits [] names place →
        t.isDirectoryAt place = true ∧ (place ≠ [] → t.files.lookup place = none) := by
  induction names using List.reverseRecOn generalizing l with
  | nil =>
    cases followed
    refine ⟨rfl, fun place passed => ?_⟩
    obtain rfl := Location.visits_nil.mp passed
    exact ⟨t.isDirectoryAt_top, fun none => absurd rfl none⟩
  | append_singleton names name ih =>
    obtain ⟨next, first, last⟩ := exists_follow_append followed
    obtain ⟨before, there⟩ := ih (fun n member => leads n (List.mem_append_left _ member)) first
    obtain ⟨stepped, here⟩ := step_of_follow (leads name (by simp)) last
    have reached : walk [] (names ++ [name]) = some l := by
      rw [Location.walk_append, before, Option.bind_some, Location.walk_singleton, stepped]
    refine ⟨reached, fun place passed => ?_⟩
    rcases Location.visits_concat.mp passed with earlier | same
    · exact there place earlier
    · obtain rfl := Option.some.inj (reached.symm.trans same)
      rcases here with above | ⟨directory, free⟩
      · exact there _ ((Location.visits_of_walk before).upwards above)
      · exact ⟨directory, fun _ => free⟩

/-! ## Directories that were made -/

theorem Opened.refl (t : FileTree) : Opened t t fun _ => False where
  files := rfl
  directories := by simp

theorem Opened.trans {opened more : Location → Prop} (first : Opened t u opened)
    (second : Opened u t' more) : Opened t t' fun place => opened place ∨ more place where
  files := second.files.trans first.files
  directories place := by rw [second.directories, first.directories, or_assoc]

theorem exists_opened_of_makeDirectory (made : t.makeDirectory up name = .ok t') :
    ∃ opened, Opened t t' opened := by
  unfold makeDirectory at made
  split at made
  · cases made
  · cases made
  · split at made
    · cases made
    · cases made
      exact ⟨_, rfl, fun _ => isDirectoryAt_append⟩

theorem exists_opened_of_makeDirectories (made : t.makeDirectories upwards = .ok t') :
    ∃ opened, Opened t t' opened := by
  induction upwards generalizing t' with
  | nil =>
    cases made
    exact ⟨_, .refl t⟩
  | cons name up ih =>
    simp only [makeDirectories] at made
    split at made
    · split at made
      next u below =>
        obtain ⟨opened, first⟩ := ih below
        split at made
        next v last =>
          cases made
          obtain ⟨more, second⟩ := exists_opened_of_makeDirectory last
          exact ⟨_, first.trans second⟩
        · split at made
          · cases made
            exact ⟨_, first⟩
          · cases made
      · cases made
    · split at made
      next v last =>
        cases made
        exact exists_opened_of_makeDirectory last
      · split at made
        · cases made
          exact ⟨_, .refl t⟩
        · cases made

/-! ## A file that was written -/

theorem exists_follow_of_writeFile (ends : Path.Ends path above name)
    (written : t.writeFile path contents = .ok t') :
    ∃ l, t.follow [] above = .ok (.directory l) ∧
      (∀ below, t.nodeAt? (l ++ [name]) ≠ some (.directory below)) ∧
      t' = t.setFile (l ++ [name]) contents := by
  obtain ⟨before, split, rfl⟩ := ends.split
  have full : name ≠ "" := fun empty => absurd ends.isName.leads (by rw [empty]; decide)
  have backwards : (Path.pieces path).reverse = name :: before.reverse := by
    rw [split, List.reverse_append, List.reverse_singleton, List.singleton_append]
  have last : (name :: before.reverse).dropWhile (· == "") = name :: before.reverse :=
    List.dropWhile_cons_of_neg (by simpa using full)
  simp only [writeFile, backwards, last, List.reverse_reverse] at written
  split at written
  · cases written
  · cases written
  next l followed =>
    split at written
    · cases written
    · split at written
      · cases written
      next other =>
        cases written
        exact ⟨l, follow_filter_iff.mpr followed, fun below here => other below here, rfl⟩

/-- Nothing is written at a path that ends by leading up. -/
theorem writeFile_up {before : List String} (split : Path.pieces path = before ++ [".."]) :
    t.writeFile path contents ≠ .ok t' := by
  have backwards : (Path.pieces path).reverse = ".." :: before.reverse := by
    rw [split, List.reverse_append, List.reverse_singleton, List.singleton_append]
  have last : (".." :: before.reverse).dropWhile (· == "") = ".." :: before.reverse :=
    List.dropWhile_cons_of_neg (by decide)
  intro written
  simp only [writeFile, backwards, last, or_true, true_or, if_true] at written
  split at written <;> cases written

end SigilAsm.FileTree
