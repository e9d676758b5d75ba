import TinyCompiler.CommandLine.FilePath
import TinyCompiler.CommandLine.Folder
import Mathlib.Data.List.Basic

/-!
# What a write leaves as it is

A write puts one file into a folder, in a place where no directory was.  So what
was a directory stays one, every other file keeps its contents, and a path that
led to a file leads there as before: a file that can be read has other contents
afterwards only if the path that was written leads to the same place.
-/

namespace TinyCompiler.Folder

variable {folder changed : Folder}

/-! ## Files and directories -/

theorem lookup?_put (location other : Location) (contents : ByteArray) :
    (folder.put location contents).lookup? other =
      if other = location then some contents else folder.lookup? other := by
  by_cases hold : (folder.lookup? location).isSome
  · -- The entry of the location is exchanged where it stands.
    have hkeys :
        ((fun file : Location × ByteArray =>
        decide (file.1 = other)) ∘ fun file =>
        if file.1 = location then (location, contents) else file) =
        fun file => decide (file.1 = other) := by
      funext file
      by_cases hfile : file.1 = location
      · simp [hfile]
      · simp [hfile]
    rw [put, if_pos hold, lookup?, List.find?_map, hkeys]
    by_cases hother : other = location
    · subst hother
      obtain ⟨file, hfound, -⟩ :=
        Option.map_eq_some_iff.mp (Option.eq_some_of_isSome hold)
      have hfile : file.1 = other := by simpa using List.find?_some hfound
      simp [hfound, hfile]
    · cases hfound : folder.files.find? fun file => decide (file.1 = other) with
      | none => simp [hother, lookup?, hfound]
      | some file =>
          have hfile : file.1 = other := by simpa using List.find?_some hfound
          simp [hother, lookup?, hfound, hfile]
  · rw [put, if_neg hold, lookup?, List.find?_append]
    by_cases hother : other = location
    · subst hother
      rw [lookup?, Option.isSome_map, Bool.not_eq_true,
        Option.isSome_eq_false_iff, Option.isNone_iff_eq_none] at hold
      simp [hold]
    · have hlast : (location = other) = False := eq_false (Ne.symm hother)
      simp [hother, hlast, lookup?]

theorem any_isPrefixOf_iff (location : Location) :
    (folder.files.any fun file => location.isPrefixOf file.1) = true ↔
      ∃ other, (folder.lookup? other).isSome ∧ location <+: other := by
  simp only [List.any_eq_true, List.isPrefixOf_iff_prefix]
  constructor
  · rintro ⟨file, hfile, hprefix⟩
    refine ⟨file.1, ?_, hprefix⟩
    rw [lookup?, Option.isSome_map, List.find?_isSome]
    exact ⟨file, hfile, decide_eq_true rfl⟩
  · rintro ⟨other, hother, hprefix⟩
    rw [lookup?, Option.isSome_map, List.find?_isSome] at hother
    obtain ⟨file, hfile, hname⟩ := hother
    exact ⟨file, hfile, of_decide_eq_true hname ▸ hprefix⟩

theorem place_eq_file_iff {spot : Whereabouts} {contents : ByteArray} :
    folder.place spot = .file contents ↔
      ∃ location, spot = .inside location ∧
        folder.lookup? location = some contents := by
  cases spot with
  | above => simp [place]
  | beyond => simp [place]
  | inside location =>
      cases hlookup : folder.lookup? location with
      | none => simp only [place, hlookup]; split <;> simp [hlookup]
      | some found => simp [place, hlookup]

theorem place_inside_eq_directory_iff {location : Location} :
    folder.place (.inside location) = .directory ↔
      folder.lookup? location = none ∧
        (location = [] ∨ ∃ other,
          (folder.lookup? other).isSome ∧ location <+: other) := by
  rw [← any_isPrefixOf_iff]
  cases hlookup : folder.lookup? location with
  | none =>
      simp only [place, hlookup, true_and, Bool.or_eq_true, decide_eq_true_eq]
      split
      case isTrue hbelow => exact iff_of_true rfl hbelow
      case isFalse hbelow => exact iff_of_false nofun hbelow
  | some found => simp [place, hlookup]

/-! ## Putting a file where no directory is -/

section Put

variable {location : Location} {contents : ByteArray}
  (hplace : folder.place (.inside location) ≠ .directory)

theorem place_put_file {spot : Whereabouts} {old : ByteArray}
    (hspot : spot ≠ .inside location) (hfile : folder.place spot = .file old) :
    (folder.put location contents).place spot = .file old := by
  obtain ⟨other, rfl, hlookup⟩ := place_eq_file_iff.mp hfile
  have hother : other ≠ location := fun heq => hspot (heq ▸ rfl)
  exact place_eq_file_iff.mpr
    ⟨other, rfl, by rw [lookup?_put, if_neg hother, hlookup]⟩

include hplace in
theorem place_put_directory {spot : Whereabouts}
    (hdirectory : folder.place spot = .directory) :
    (folder.put location contents).place spot = .directory := by
  cases spot with
  | above => rfl
  | beyond => cases hdirectory
  | inside other =>
      have hother : other ≠ location := by
        rintro rfl
        exact hplace hdirectory
      rw [place_inside_eq_directory_iff] at hdirectory ⊢
      obtain ⟨hnone, hbelow⟩ := hdirectory
      refine ⟨by rw [lookup?_put, if_neg hother, hnone], hbelow.imp_right ?_⟩
      rintro ⟨file, hfile, hprefix⟩
      refine ⟨file, ?_, hprefix⟩
      rw [lookup?_put]
      split
      · rfl
      · exact hfile

end Put

/-! ## Walks -/

/-- Where one component leads from a directory. -/
def Whereabouts.next? (component : List Char) (spot : Whereabouts) :
    Option Whereabouts :=
  if component = [] || component = ['.'] then some spot
  else if component = ['.', '.'] then some spot.parent
  else if maxNameBytes < (String.ofList component).utf8ByteSize then none
  else some (spot.child component)

theorem walk_cons_eq_ok {start stop : Whereabouts} {component : List Char}
    {rest : List (List Char)} :
    folder.walk start (component :: rest) = .ok stop ↔
      folder.place start = .directory ∧
        ∃ next, start.next? component = some next ∧
          folder.walk next rest = .ok stop := by
  rw [walk]
  cases folder.place start with
  | file contents => simp
  | vacant => simp
  | directory =>
      dsimp only [Whereabouts.next?]
      split_ifs
      all_goals simp

theorem walk_append_eq_ok {start stop : Whereabouts}
    {first second : List (List Char)} :
    folder.walk start (first ++ second) = .ok stop ↔
      ∃ middle, folder.walk start first = .ok middle ∧
        folder.walk middle second = .ok stop := by
  induction first generalizing start with
  | nil => simp [walk]
  | cons component rest ih =>
      simp only [List.cons_append, walk_cons_eq_ok, ih]
      constructor
      · rintro ⟨hstart, next, hnext, middle, hmiddle, hstop⟩
        exact ⟨middle, ⟨hstart, next, hnext, hmiddle⟩, hstop⟩
      · rintro ⟨middle, ⟨hstart, next, hnext, hmiddle⟩, hstop⟩
        exact ⟨hstart, next, hnext, middle, hmiddle, hstop⟩

theorem walk_put {location : Location} {contents : ByteArray}
    {start stop : Whereabouts} {way : List (List Char)}
    (hplace : folder.place (.inside location) ≠ .directory)
    (hwalk : folder.walk start way = .ok stop) :
    (folder.put location contents).walk start way = .ok stop := by
  induction way generalizing start with
  | nil => exact hwalk
  | cons component rest ih =>
      obtain ⟨hstart, next, hnext, hrest⟩ := walk_cons_eq_ok.mp hwalk
      exact walk_cons_eq_ok.mpr
        ⟨place_put_directory hplace hstart, next, hnext, ih hrest⟩

/-- All that encloses a place in the folder is a directory. -/
def Enclosed (folder : Folder) (spot : Whereabouts) : Prop :=
  ∀ outer name inner, spot = .inside (outer ++ name :: inner) →
    folder.place (.inside outer) = .directory

theorem enclosed_outermost (folder : Folder) :
    folder.Enclosed (.inside []) := by
  intro outer name inner heq
  exact absurd (Whereabouts.inside.inj heq).symm (by simp)

theorem enclosed_above (folder : Folder) : folder.Enclosed .above :=
  fun _ _ _ heq => nomatch heq

theorem Whereabouts.parent_concat (outer : Location) (name : List Char) :
    (Whereabouts.inside (outer ++ [name])).parent = .inside outer := by
  rw [parent, List.dropLast_concat]
  simp

theorem Enclosed.place_parent {spot : Whereabouts}
    (henclosed : folder.Enclosed spot)
    (hspot : folder.place spot = .directory) :
    folder.place spot.parent = .directory := by
  cases spot with
  | above => rfl
  | beyond => cases hspot
  | inside here =>
      rcases List.eq_nil_or_concat' here with rfl | ⟨outer, name, rfl⟩
      · rfl
      · rw [Whereabouts.parent_concat]
        exact henclosed outer name [] rfl

theorem Enclosed.parent {spot : Whereabouts}
    (henclosed : folder.Enclosed spot) :
    folder.Enclosed spot.parent := by
  cases spot with
  | above => exact henclosed
  | beyond => exact henclosed
  | inside here =>
      rcases List.eq_nil_or_concat' here with rfl | ⟨holder, last, rfl⟩
      · exact enclosed_above folder
      · rw [Whereabouts.parent_concat]
        intro outer name inner heq
        rw [Whereabouts.inside.inj heq] at henclosed
        exact henclosed outer name (inner ++ [last]) (by simp)

theorem Enclosed.child {spot : Whereabouts} (henclosed : folder.Enclosed spot)
    (hspot : folder.place spot = .directory) (component : List Char) :
    folder.Enclosed (spot.child component) := by
  cases spot with
  | above => exact fun _ _ _ heq => nomatch heq
  | beyond => cases hspot
  | inside here =>
      intro outer name inner heq
      replace heq : here ++ [component] = outer ++ name :: inner :=
        Whereabouts.inside.inj heq
      rcases List.eq_nil_or_concat' inner with rfl | ⟨between, last, rfl⟩
      · obtain ⟨rfl, -⟩ := List.append_inj' heq rfl
        exact hspot
      · rw [← List.cons_append, ← List.append_assoc] at heq
        obtain ⟨rfl, -⟩ := List.append_inj' heq rfl
        exact henclosed outer name between rfl

theorem Enclosed.next {spot next : Whereabouts} {component : List Char}
    (henclosed : folder.Enclosed spot) (hspot : folder.place spot = .directory)
    (hnext : spot.next? component = some next) : folder.Enclosed next := by
  rw [Whereabouts.next?] at hnext
  split_ifs at hnext
  · exact Option.some.inj hnext ▸ henclosed
  · exact Option.some.inj hnext ▸ henclosed.parent
  · exact Option.some.inj hnext ▸ henclosed.child hspot component

theorem Enclosed.walk {start stop : Whereabouts} {way : List (List Char)}
    (henclosed : folder.Enclosed start)
    (hwalk : folder.walk start way = .ok stop) :
    folder.Enclosed stop := by
  induction way generalizing start with
  | nil => exact Except.ok.inj hwalk ▸ henclosed
  | cons component rest ih =>
      obtain ⟨hstart, next, hnext, hrest⟩ := walk_cons_eq_ok.mp hwalk
      exact ih (henclosed.next hstart hnext) hrest

/-! ## Components -/

theorem components_ne_nil (path : List Char) : components path ≠ [] := by
  fun_cases components path <;> simp

theorem components_of_unslashed {name : List Char} (hname : '/' ∉ name) :
    components name = [name] := by
  induction name with
  | nil => rfl
  | cons c rest ih =>
      simp only [List.mem_cons, not_or] at hname
      obtain ⟨hc, hrest⟩ := hname
      rw [components, ih hrest]
      exact fun heq => hc heq.symm

theorem components_append_slash (directory rest : List Char) :
    components (directory ++ '/' :: rest) =
      components directory ++ components rest := by
  induction directory with
  | nil => simp [components]
  | cons c directory ih =>
      by_cases hc : c = '/'
      · subst hc
        rw [List.cons_append, components, components, ih, List.cons_append]
      · obtain ⟨first, others, hfirst⟩ :=
          List.exists_cons_of_ne_nil (components_ne_nil directory)
        rw [List.cons_append, components, components, ih, hfirst]
        · rfl
        · exact hc
        · exact hc

/-! ## Where paths lead -/

/-- Where the walk along a path begins. -/
def start (path : String) : Whereabouts :=
  if path.toList.head? = some '/' then .above else .inside []

/-- A path leads to a place along its components. -/
def LeadsTo (folder : Folder) (path : String) (spot : Whereabouts) : Prop :=
  folder.follow path (components path.toList) = .ok spot

theorem enclosed_start (folder : Folder) (path : String) :
    folder.Enclosed (start path) := by
  rw [start]
  split
  · exact enclosed_above folder
  · exact enclosed_outermost folder

theorem follow_eq_ok {path : String} {way : List (List Char)}
    {spot : Whereabouts} :
    folder.follow path way = .ok spot ↔
      path ≠ "" ∧ path.utf8ByteSize ≤ maxPathBytes ∧
        folder.walk (start path) way = .ok spot := by
  have hfollow : folder.follow path way =
      if path = "" then .error .noSuchFile
      else if maxPathBytes < path.utf8ByteSize then .error .nameTooLong
      else folder.walk (start path) way := rfl
  rw [hfollow]
  split_ifs with hempty hlong
  · simp [hempty]
  · simp [Nat.not_le_of_lt hlong]
  · simp [hempty, Nat.le_of_not_lt hlong]

theorem LeadsTo.walk {path : String} {spot : Whereabouts}
    (hleads : folder.LeadsTo path spot) :
    folder.walk (start path) (components path.toList) = .ok spot :=
  (follow_eq_ok.mp hleads).2.2

theorem LeadsTo.put {path : String} {spot : Whereabouts} {location : Location}
    {contents : ByteArray} (hleads : folder.LeadsTo path spot)
    (hplace : folder.place (.inside location) ≠ .directory) :
    (folder.put location contents).LeadsTo path spot := by
  obtain ⟨hempty, hlong, hwalk⟩ := follow_eq_ok.mp hleads
  exact follow_eq_ok.mpr ⟨hempty, hlong, walk_put hplace hwalk⟩

section Last

variable {path : String} {spot : Whereabouts} {way : List (List Char)}
  {last : List Char} (hleads : folder.LeadsTo path spot)
  (hway : components path.toList = way ++ [last])
include hleads hway

/-- The last component is looked up in the directory that the others lead to. -/
theorem LeadsTo.exists_holder :
    ∃ holder, folder.walk (start path) way = .ok holder ∧
      folder.place holder = .directory ∧
      holder.next? last = some spot := by
  have hwalk := hleads.walk
  rw [hway] at hwalk
  obtain ⟨holder, hholder, hstep⟩ := walk_append_eq_ok.mp hwalk
  obtain ⟨hdirectory, next, hnext, hstop⟩ := walk_cons_eq_ok.mp hstep
  obtain rfl := Except.ok.inj hstop
  exact ⟨holder, hholder, hdirectory, hnext⟩

theorem LeadsTo.directory_of_no_name (hlast : FilePath.isName last = false) :
    folder.place spot = .directory := by
  obtain ⟨holder, hholder, hdirectory, hnext⟩ := hleads.exists_holder hway
  rw [Whereabouts.next?] at hnext
  split_ifs at hnext with hsame hup
  · exact Option.some.inj hnext ▸ hdirectory
  · have henclosed := (enclosed_start folder path).walk hholder
    exact Option.some.inj hnext ▸ henclosed.place_parent hdirectory
  · -- What is no name is one of the components above.
    simp only [Bool.or_eq_true, decide_eq_true_eq, not_or] at hsame
    simp [FilePath.isName, hsame, hup] at hlast

theorem LeadsTo.child_of_name (hlast : FilePath.isName last) :
    ∃ holder, folder.walk (start path) way = .ok holder ∧
      spot = holder.child last := by
  obtain ⟨holder, hholder, -, hnext⟩ := hleads.exists_holder hway
  simp only [FilePath.isName, Bool.and_eq_true, decide_eq_true_eq] at hlast
  rw [Whereabouts.next?, if_neg (by simp [hlast]), if_neg hlast.2] at hnext
  split_ifs at hnext
  exact ⟨holder, hholder, (Option.some.inj hnext).symm⟩

end Last

/-! ## Reads and writes -/

theorem read_eq_ok {path : String} {contents : ByteArray} :
    folder.read path = .ok contents ↔
      ∃ spot, folder.LeadsTo path spot ∧
        folder.place spot = .file contents := by
  rw [read]
  cases hfollow : folder.follow path (components path.toList) with
  | error error => simp [LeadsTo, hfollow, bind, Except.bind]
  | ok spot =>
      simp only [LeadsTo, hfollow, bind, Except.bind, Except.ok.injEq,
        exists_eq_left']
      cases folder.place spot <;> simp

theorem write_eq_ok {path text : String} :
    folder.write path text = .ok changed ↔
      (components path.toList).getLast? ≠ some [] ∧
        ∃ spot, folder.LeadsTo path spot ∧ folder.place spot ≠ .directory ∧
          changed = match spot with
            | .inside location => folder.put location text.toUTF8
            | _ => folder := by
  rw [write]
  by_cases hlast : (components path.toList).getLast? = some []
  · cases folder.follow path (enclosing (components path.toList)) with
    | error error => simp [hlast, bind, Except.bind]
    | ok spot => simp [hlast, bind, Except.bind]
  · cases hfollow : folder.follow path (components path.toList) with
    | error error => simp [hlast, LeadsTo, hfollow, bind, Except.bind]
    | ok spot =>
        simp only [hlast, LeadsTo, hfollow, bind, Except.bind, Except.ok.injEq,
          exists_eq_left', if_false, ne_eq, not_false_eq_true, true_and]
        cases folder.place spot with
        | directory => simp
        | file contents => cases spot <;> simp [eq_comm]
        | vacant => cases spot <;> simp [eq_comm]

/-- What can be read before a write is there afterwards, unless the path of the
write leads to the same place. -/
theorem read_of_write {target source text : String} {contents : ByteArray}
    (hwrite : folder.write target text = .ok changed)
    (hread : folder.read source = .ok contents) :
    changed.read source = .ok contents ∨
      ∃ spot, folder.LeadsTo target spot ∧ folder.LeadsTo source spot ∧
        folder.place spot = .file contents := by
  obtain ⟨-, written, htarget, hplace, rfl⟩ := write_eq_ok.mp hwrite
  obtain ⟨spot, hsource, hfile⟩ := read_eq_ok.mp hread
  rcases eq_or_ne spot written with rfl | hspot
  · exact .inr ⟨spot, htarget, hsource, hfile⟩
  refine .inl ?_
  cases written with
  | above => exact hread
  | beyond => exact hread
  | inside location =>
      exact read_eq_ok.mpr
        ⟨spot, hsource.put hplace, place_put_file hspot hfile⟩

/-- A file that can be read can be written, and then read. -/
theorem write_of_read {path : String} {contents : ByteArray} (text : String)
    (hread : folder.read path = .ok contents) :
    ∃ changed, folder.write path text = .ok changed ∧
      changed.read path = .ok text.toUTF8 := by
  obtain ⟨spot, hleads, hfile⟩ := read_eq_ok.mp hread
  obtain ⟨location, rfl, hlookup⟩ := place_eq_file_iff.mp hfile
  have hplace : folder.place (.inside location) ≠ .directory := by
    rw [hfile]; nofun
  have hlast : (components path.toList).getLast? ≠ some [] := by
    intro hslash
    obtain ⟨way, hway⟩ := List.getLast?_eq_some_iff.mp hslash
    exact hplace (hleads.directory_of_no_name hway rfl)
  refine ⟨folder.put location text.toUTF8,
    write_eq_ok.mpr ⟨hlast, _, hleads, hplace, rfl⟩,
    read_eq_ok.mpr ⟨_, hleads.put hplace, ?_⟩⟩
  exact place_eq_file_iff.mpr ⟨location, rfl, by rw [lookup?_put, if_pos rfl]⟩

end TinyCompiler.Folder
