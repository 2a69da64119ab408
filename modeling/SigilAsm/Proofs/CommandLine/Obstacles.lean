import SigilAsm.Proofs.CommandLine.Outputs
import SigilAsm.Proofs.FileTree.Changes

/-! # Obstacles

Files that were all written were not in the way of one another: one that was
written first is no directory, and what was a directory for the first is not
written over.  So a tree in which there is no place for some outputs does not take
them all, in whatever order they come.
-/

namespace SigilAsm

/-- What a write that succeeded tells of an output and of the tree before and after it. -/
structure FileTree.Took (t u : FileTree) (w : Output) : Prop where
  files : u.files = t.files ++ [(w.place, w.bytes)]
  kept : ∀ place, t.isDirectoryAt place = true → u.isDirectoryAt place = true
  new : t.isDirectoryAt w.place = false
  passed : ∀ place, w.Passes place → u.isDirectoryAt place = true ∧ place ≠ w.place ∧
    (place ≠ [] → t.files.lookup place = none)

namespace FileTree

variable {t u : FileTree} {w : Output} {outputs : List Output}

theorem took_of_write (sound : w.Sound) (absent : t.files.lookup w.place = none)
    (done : Session.write t w.path w.bytes = .ok u) : Took t u w := by
  rw [Session.write, Path.namesUpwards_eq, sound.ends.names_parent] at done
  split at done
  · cases done
  next v made =>
    obtain ⟨opened, more⟩ := exists_opened_of_makeDirectories made
    split at done
    · cases done
    next written =>
      cases done
      obtain ⟨l, followed, other, rfl⟩ := exists_follow_of_writeFile sound.ends written
      obtain ⟨reached, there⟩ := walk_of_follow sound.ends.leads_above followed
      obtain rfl : w.directory = l := Option.some.inj (sound.reached.symm.trans reached)
      have absentAfter : v.files.lookup w.place = none := by rw [more.files, absent]
      have new : v.isDirectoryAt w.place = false := by
        refine Bool.eq_false_iff.mpr fun here => ?_
        exact other _ (nodeAt?_of_directory absentAfter here)
      have kept (place : Location) (here : t.isDirectoryAt place = true) :
          v.isDirectoryAt place = true := (more.directories place).mpr (.inl here)
      rw [← Output.place, setFile_of_free absentAfter]
      refine ⟨by rw [more.files],
        fun place here => isDirectoryAt_append_file.mpr (.inl (kept place here)), ?_,
        fun place passed => ⟨isDirectoryAt_append_file.mpr (.inl (there place passed).1), ?_, ?_⟩⟩
      · exact Bool.eq_false_iff.mpr fun here => Bool.eq_false_iff.mp new (kept _ here)
      · rintro rfl
        exact Bool.eq_false_iff.mp new (there _ passed).1
      · rw [← more.files]
        exact (there place passed).2

theorem Took.absent {place : Location} (took : Took t u w) (absent : u.files.lookup place = none) :
    t.files.lookup place = none ∧ place ≠ w.place := by
  rw [took.files, List.lookup_append, Option.or_eq_none_iff] at absent
  refine ⟨absent.1, ?_⟩
  rintro rfl
  exact absurd absent.2 (by rw [List.lookup_cons_self]; nofun)

/-- If there is place for the later outputs after the first was written, there was place for all. -/
theorem Took.admits (took : Took t u w) (sound : w.Sound) (top : t.files.lookup [] = none)
    (absent : t.files.lookup w.place = none)
    (distinct : ((w :: outputs).map Output.place).Nodup) (others : Admits u outputs) :
    Admits t (w :: outputs) := by
  have new (v : Output) (member : v ∈ w :: outputs) : t.nodeAt? v.place = none := by
    rcases List.mem_cons.mp member with rfl | later
    · exact nodeAt?_eq_none_iff.mpr ⟨absent, took.new⟩
    · obtain ⟨free, nothing⟩ := nodeAt?_eq_none_iff.mp (others.new v later)
      refine nodeAt?_eq_none_iff.mpr ⟨(took.absent free).1, Bool.eq_false_iff.mpr fun here => ?_⟩
      exact Bool.eq_false_iff.mp nothing (took.kept _ here)
  have free (v : Output) (member : v ∈ w :: outputs) (place : Location) (passed : v.Passes place) :
      t.files.lookup place = none := by
    rcases List.mem_cons.mp member with rfl | later
    · by_cases first : place = []
      · rw [first, top]
      · exact (took.passed place passed).2.2 first
    · exact (took.absent (others.free v later place passed)).1
  have clear (x : Output) (memberX : x ∈ w :: outputs) (v : Output) (memberV : v ∈ w :: outputs) :
      ¬ v.Passes x.place := by
    intro passed
    rcases List.mem_cons.mp memberX with rfl | laterX
    · rcases List.mem_cons.mp memberV with rfl | laterV
      · exact (took.passed _ passed).2.1 rfl
      · -- The first output is a file by now.
        exact (took.absent (others.free v laterV _ passed)).2 rfl
    · rcases List.mem_cons.mp memberV with rfl | laterV
      · -- The way to the first output went through a directory that still is one.
        have there := (took.passed _ passed).1
        rw [(nodeAt?_eq_none_iff.mp (others.new x laterX)).2] at there
        cases there
      · exact others.clear x laterX v laterV passed
  refine ⟨fun v member => ?_, new, free, clear, distinct⟩
  rcases List.mem_cons.mp member with rfl | later
  · exact sound
  · exact others.sound v later

/-- Outputs that were all written had their place, unless one replaced a file that there was. -/
theorem admits_of_performAll {stdout : List UInt8} {stderr : String}
    (sound : ∀ w ∈ outputs, w.Sound) (top : t.files.lookup [] = none)
    (absent : ∀ w ∈ outputs, t.files.lookup w.place = none)
    (distinct : (outputs.map Output.place).Nodup)
    (done : (Session.performAll ⟨t, stdout, stderr⟩ none (outputs.map Output.action)).2 = none) :
    Admits t outputs := by
  induction outputs generalizing t with
  | nil =>
    exact ⟨nofun, nofun, nofun, nofun, List.nodup_nil⟩
  | cons w outputs ih =>
    have first := List.mem_cons_self (a := w) (l := outputs)
    have later {v : Output} (member : v ∈ outputs) : v ∈ w :: outputs :=
      List.mem_cons_of_mem w member
    obtain ⟨apart, others⟩ := List.nodup_cons.mp distinct
    rw [List.map_cons, Session.performAll, Output.action] at done
    simp only [Session.perform] at done
    cases written : Session.write t w.path w.bytes with
    | error abort => simp only [written, reduceCtorEq] at done
    | ok u =>
      simp only [written] at done
      have took := took_of_write (sound w first) (absent w first) written
      have absentAfter (place : Location) (free : t.files.lookup place = none)
          (other : place ≠ w.place) : u.files.lookup place = none := by
        rw [took.files, List.lookup_append, free, Option.none_or, List.lookup_cons,
          beq_false_of_ne other]
        rfl
      refine took.admits (sound w first) top (absent w first) distinct
        (ih (fun v member => sound v (later member)) (absentAfter [] top ?_) ?_ others done)
      · exact (List.append_ne_nil_of_right_ne_nil _ (List.cons_ne_nil _ _)).symm
      · intro v member
        refine absentAfter v.place (absent v (later member)) fun same => apart ?_
        rw [← same]
        exact List.mem_map_of_mem member

end FileTree

/-- A file is not written at a path that ends by leading up. -/
theorem Session.not_perform_up {before after : Session} {path : String} {pieces : List String}
    {bytes : List UInt8} (up : Path.pieces path = pieces ++ [".."]) :
    Session.perform before (.write path bytes) ≠ .ok after := by
  intro performed
  rw [perform] at performed
  split at performed
  next written =>
    rw [write] at written
    split at written
    · cases written
    · split at written
      · cases written
      next file => exact FileTree.writeFile_up up file
  · cases performed

/-- The exit code tells whether all was done without a failure. -/
theorem Session.fst_run (o : Options) (stdin : List UInt8) (t : FileTree) :
    (run o stdin t).1 = if (performAll ⟨t, [], ""⟩ (o.plan stdin t.find).abort
      (o.plan stdin t.find).actions).2 = none then 0 else 1 := by
  rw [run]
  split
  next ended => rw [ended, if_pos rfl]
  next ended => rw [ended, if_neg nofun]

/-- Where all was done without a failure, each action succeeded when it was its turn. -/
theorem Session.exists_perform {s : Session} {ending : Option Abort} {actions : List Action}
    {action : Action} (done : (s.performAll ending actions).2 = none) (member : action ∈ actions) :
    ∃ before after, Session.perform before action = .ok after := by
  induction actions generalizing s with
  | nil => cases member
  | cons first actions ih =>
    rw [performAll] at done
    cases performed : s.perform first with
    | error abort => simp only [performed, reduceCtorEq] at done
    | ok after =>
      simp only [performed] at done
      rcases List.mem_cons.mp member with rfl | later
      · exact ⟨s, after, performed⟩
      · exact ih done later

end SigilAsm
