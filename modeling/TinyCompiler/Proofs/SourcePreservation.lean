import TinyCompiler.Proofs.FolderWrites
import TinyCompiler.Proofs.SessionOutcome

/-!
# What becomes of the source

A session reads its source and writes its listing beside it: the two paths
differ in the last component at most, and there they agree only if the source
has the name of a listing.  So a source with any other name is what it was when
the session is over, and one with the name of a listing is exchanged for its own
listing.
-/

namespace TinyCompiler

/-! ## Paths by their last component -/

namespace FilePath

open Folder (components components_append_slash components_of_unslashed)

/-- What stands in front of the last component of a path, and that component. -/
structure Splits (front last : List Char) : Prop where
  unslashed : '/' ∉ last
  slashed : front = [] ∨ ∃ directory, front = directory ++ ['/']

theorem exists_splits (path : List Char) :
    ∃ front last, path = front ++ last ∧ Splits front last := by
  induction path using List.reverseRecOn with
  | nil => exact ⟨[], [], rfl, by simp, .inl rfl⟩
  | append_singleton path c ih =>
      obtain ⟨front, last, rfl, hlast, hfront⟩ := ih
      by_cases hc : c = '/'
      · subst hc
        exact ⟨front ++ last ++ ['/'], [], by simp, by simp, .inr ⟨_, rfl⟩⟩
      · exact ⟨front, last ++ [c], by simp, by simp [hlast, Ne.symm hc], hfront⟩

/-- Read from its end, a text without a separator goes up to the separator
before it. -/
theorem span_reverse {c : Char} {text rest : List Char} (htext : c ∉ text)
    (hrest : rest = [] ∨ ∃ behind, rest = c :: behind) :
    (text.reverse ++ rest).takeWhile (· ≠ c) = text.reverse ∧
      (text.reverse ++ rest).dropWhile (· ≠ c) = rest := by
  have hothers : ∀ d ∈ text.reverse, decide (d ≠ c) = true := by
    intro d hd
    refine decide_eq_true fun heq => htext ?_
    exact heq ▸ List.mem_reverse.mp hd
  rw [List.takeWhile_append_of_pos hothers,
    List.dropWhile_append_of_pos hothers]
  rcases hrest with rfl | ⟨behind, rfl⟩
  · simp
  · simp

section Splits

variable {front last : List Char} (hsplits : Splits front last)
include hsplits

theorem Splits.components_eq :
    components (front ++ last) = (components front).dropLast ++ [last] := by
  rcases hsplits.slashed with rfl | ⟨directory, rfl⟩
  · exact components_of_unslashed hsplits.unslashed
  · rw [List.append_assoc, List.singleton_append, components_append_slash,
      components_append_slash, components_of_unslashed hsplits.unslashed,
      components, List.dropLast_concat]

theorem Splits.start_eq :
    Folder.start (String.ofList (front ++ last)) =
      Folder.start (String.ofList front) := by
  rcases hsplits.slashed with rfl | ⟨_ | ⟨c, directory⟩, rfl⟩
  · cases last with
    | nil => rfl
    | cons c rest =>
        have hc : c ≠ '/' :=
          fun heq => hsplits.unslashed (heq ▸ List.mem_cons_self)
        simp [Folder.start, hc]
  · simp [Folder.start]
  · simp [Folder.start]

theorem Splits.skipTrail_eq (hname : isName last) :
    skipTrail (last.reverse ++ front.reverse) =
      last.reverse ++ front.reverse := by
  have hunslashed := hsplits.unslashed
  rcases List.eq_nil_or_concat' last with rfl | ⟨before, c, rfl⟩
  · cases hname
  rw [List.reverse_concat, List.cons_append, skipTrail]
  · intro rest heq
    obtain ⟨rfl, -⟩ := List.cons.inj heq
    simp at hunslashed
  · intro rest heq
    obtain ⟨rfl, hbehind⟩ := List.cons.inj heq
    rcases List.eq_nil_or_concat' before with rfl | ⟨before, d, rfl⟩
    · cases hname
    · rw [List.reverse_concat, List.cons_append] at hbehind
      obtain ⟨rfl, -⟩ := List.cons.inj hbehind
      simp at hunslashed

theorem Splits.splitLast_eq (hname : isName last) :
    splitLast (front ++ last) = (front, last) := by
  have hfront : front.reverse = [] ∨ ∃ before,
      front.reverse = '/' :: before := by
    rcases hsplits.slashed with rfl | ⟨directory, rfl⟩
    · exact .inl rfl
    · exact .inr ⟨directory.reverse, List.reverse_concat⟩
  obtain ⟨htake, hdrop⟩ := span_reverse hsplits.unslashed hfront
  simp only [splitLast, List.reverse_append,
    hsplits.skipTrail_eq hname, htake, hdrop, List.reverse_reverse]

end Splits

/-! ## Other extensions -/

/-- A name with another extension. -/
def renamed (last extension : List Char) : List Char :=
  let stem := (splitExtension last).1
  if isName (stem ++ ['.']) then stem ++ '.' :: extension else stem ++ ['.']

theorem splitExtension_append {stem extension : List Char} (hstem : stem ≠ [])
    (hextension : '.' ∉ extension) :
    splitExtension (stem ++ '.' :: extension) = (stem, some extension) := by
  have hreverse : (stem ++ '.' :: extension).reverse =
      extension.reverse ++ '.' :: stem.reverse := by simp
  obtain ⟨htake, hdrop⟩ := span_reverse hextension (.inr ⟨stem.reverse, rfl⟩)
  simp only [splitExtension, hreverse, htake, hdrop, List.reverse_reverse]
  -- A dot at the very front would begin a name without an extension.
  cases hbefore : stem.reverse with
  | nil => exact absurd (List.reverse_eq_nil_iff.mp hbefore) hstem
  | cons c before => simp [← hbefore]

theorem splitExtension_subset (name : List Char) :
    (splitExtension name).1 ⊆ name := by
  rw [splitExtension]
  split
  · exact List.Subset.refl name
  · exact List.Subset.refl name
  · rename_i dot before _ hrest
    intro c hc
    have hmem : c ∈ name.reverse.dropWhile (· ≠ '.') :=
      hrest ▸ List.mem_cons_of_mem dot (List.mem_reverse.mp hc)
    exact List.mem_reverse.mp ((List.dropWhile_suffix _).subset hmem)

theorem Splits.renamed {front last extension : List Char}
    (hsplits : Splits front last) (hextension : '/' ∉ extension) :
    Splits front (renamed last extension) := by
  have hstem : '/' ∉ (splitExtension last).1 :=
    fun hslash => hsplits.unslashed (splitExtension_subset last hslash)
  refine ⟨?_, hsplits.slashed⟩
  rw [FilePath.renamed]
  split
  · simp [hstem, hextension]
  · simp [hstem]

theorem Splits.withExtension_eq {front last : List Char}
    (hsplits : Splits front last) (hname : isName last) (extension : String) :
    withExtension (String.ofList (front ++ last)) extension =
      String.ofList (front ++ FilePath.renamed last extension.toList) := by
  simp only [withExtension, String.toList_ofList,
    hsplits.splitLast_eq hname, hname, FilePath.renamed, Bool.not_true,
    Bool.false_eq_true, if_false]
  split_ifs
  all_goals simp

theorem isName_append_dot {stem : List Char} :
    isName (stem ++ ['.']) ↔ stem ≠ [] ∧ stem ≠ ['.'] := by
  rcases stem with _ | ⟨c, _ | ⟨d, rest⟩⟩
  · simp [isName]
  · simp [isName]
  · simp [isName]

/-- A path with the name of a listing: the extension of listings behind a stem
that can take an extension. -/
def NamesListing (path : String) : Prop :=
  ∃ stem, name? path = some (String.ofList (stem ++ ".tm".toList)) ∧
    stem ≠ [] ∧ stem ≠ ['.']

theorem renamed_eq_self_iff {last : List Char} (hname : isName last) :
    renamed last "tm".toList = last ↔
      ∃ stem, last = stem ++ ".tm".toList ∧ stem ≠ [] ∧ stem ≠ ['.'] := by
  have hdotted : ".tm".toList = '.' :: "tm".toList := rfl
  rw [hdotted]
  constructor
  · intro heq
    rw [renamed] at heq
    split at heq
    case isTrue hstem => exact ⟨_, heq.symm, isName_append_dot.mp hstem⟩
    case isFalse hstem =>
      rw [heq] at hstem
      exact absurd hname hstem
  · rintro ⟨stem, rfl, hstem⟩
    rw [renamed, splitExtension_append hstem.1 (by decide)]
    exact if_pos (isName_append_dot.mpr hstem)

theorem Splits.withExtension_eq_self_iff {front last : List Char}
    (hsplits : Splits front last) (hname : isName last) :
    withExtension (String.ofList (front ++ last)) "tm" =
      String.ofList (front ++ last) ↔
      NamesListing (String.ofList (front ++ last)) := by
  rw [hsplits.withExtension_eq hname, String.ofList_inj,
    List.append_cancel_left_eq, renamed_eq_self_iff hname, NamesListing]
  simp only [name?, String.toList_ofList, hsplits.splitLast_eq hname,
    hname, if_true, Option.some.injEq, String.ofList_inj]

end FilePath

/-! ## Two paths to one file -/

namespace Folder

variable {folder : Folder}

theorem splits_of_read {path : String} {contents : ByteArray}
    (hread : folder.read path = .ok contents) :
    ∃ front last,
      path = String.ofList (front ++ last) ∧ FilePath.Splits front last ∧
      FilePath.isName last := by
  obtain ⟨front, last, hpath, hsplits⟩ := FilePath.exists_splits path.toList
  obtain ⟨spot, hleads, hfile⟩ := read_eq_ok.mp hread
  refine ⟨front, last, by rw [← hpath, String.ofList_toList], hsplits, ?_⟩
  by_contra hname
  rw [Bool.not_eq_true] at hname
  have hdirectory :=
    hleads.directory_of_no_name (hpath ▸ hsplits.components_eq) hname
  rw [hfile] at hdirectory
  cases hdirectory

/-- Beside one another, two paths lead to one file only if they are the same. -/
theorem last_eq_of_leadsTo {front last other : List Char} {spot : Whereabouts}
    {contents : ByteArray} (hlast : FilePath.Splits front last)
    (hother : FilePath.Splits front other) (hname : FilePath.isName last)
    (hleads : folder.LeadsTo (String.ofList (front ++ last)) spot)
    (hleads' : folder.LeadsTo (String.ofList (front ++ other)) spot)
    (hfile : folder.place spot = .file contents) : other = last := by
  have hway := hlast.components_eq
  have hway' := hother.components_eq
  rw [← String.toList_ofList (l := front ++ last)] at hway
  rw [← String.toList_ofList (l := front ++ other)] at hway'
  have hname' : FilePath.isName other := by
    by_contra hname'
    have hdirectory :=
      hleads'.directory_of_no_name hway' (Bool.not_eq_true _ ▸ hname')
    rw [hfile] at hdirectory
    cases hdirectory
  obtain ⟨holder, hholder, rfl⟩ := hleads.child_of_name hway hname
  obtain ⟨holder', hholder', hspot⟩ := hleads'.child_of_name hway' hname'
  rw [hlast.start_eq] at hholder
  rw [hother.start_eq, hholder] at hholder'
  obtain rfl := Except.ok.inj hholder'
  cases holder with
  | above => cases hfile
  | beyond => cases hfile
  | inside location =>
      exact (List.singleton_inj.mp
        (List.append_cancel_left (Whereabouts.inside.inj hspot))).symm

/-- A folder after an attempt to write. -/
def afterWrite (folder : Folder) (path text : String) : Folder :=
  match folder.write path text with
  | .ok changed => changed
  | .error _ => folder

theorem read_afterWrite_self {path : String} {contents : ByteArray}
    (text : String) (hread : folder.read path = .ok contents) :
    (folder.afterWrite path text).read path = .ok text.toUTF8 := by
  obtain ⟨changed, hwrite, hchanged⟩ := write_of_read text hread
  rw [afterWrite, hwrite]
  exact hchanged

/-- What is written beside a file under the extension of listings leaves the
file as it is, unless that has the name of a listing. -/
theorem read_afterWrite_listing {source : String} {contents : ByteArray}
    (text : String) (hread : folder.read source = .ok contents)
    (hsource : ¬ FilePath.NamesListing source) :
    (folder.afterWrite (FilePath.withExtension source "tm") text).read source =
      .ok contents := by
  rw [afterWrite]
  cases hwrite : folder.write (FilePath.withExtension source "tm") text with
  | error error => exact hread
  | ok changed =>
      rcases read_of_write hwrite hread
        with hkept | ⟨spot, htarget, hleads, hfile⟩
      · exact hkept
      · obtain ⟨front, last, rfl, hsplits, hname⟩ := splits_of_read hread
        rw [← hsplits.withExtension_eq_self_iff hname,
          hsplits.withExtension_eq hname] at hsource
        rw [hsplits.withExtension_eq hname] at htarget
        have hrenamed :
            FilePath.Splits front (FilePath.renamed last "tm".toList) :=
          hsplits.renamed (by decide)
        refine absurd ?_ hsource
        rw [last_eq_of_leadsTo hsplits hrenamed hname hleads htarget hfile]

theorem withExtension_of_namesListing {source : String} {contents : ByteArray}
    (hread : folder.read source = .ok contents)
    (hsource : FilePath.NamesListing source) :
    FilePath.withExtension source "tm" = source := by
  obtain ⟨front, last, rfl, hsplits, hname⟩ := splits_of_read hread
  exact (hsplits.withExtension_eq_self_iff hname).mpr hsource

end Folder

/-! ## Sessions -/

namespace CommandLine

/-- The listing that a session on a source comes to. -/
def Request.listing? (request : Request) (contents : ByteArray) :
    Option String :=
  match decode contents with
  | .ok source => (prepare request source).2.map Program.listing
  | .error _ => none

theorem eq_toUTF8_of_decode {contents : ByteArray} {source : String}
    (hdecode : decode contents = .ok source) : contents = source.toUTF8 := by
  rw [decode, String.fromUTF8?] at hdecode
  split at hdecode
  case h_1 text htext =>
    split at htext
    · obtain rfl := Except.ok.inj hdecode
      obtain rfl := Option.some.inj htext
      rfl
    · cases htext
  case h_2 => cases hdecode

section Folder

variable {folder : Folder} {input : ByteArray} {request : Request}

theorem writeFile_failed {path text : String} {error : FileError}
    (hwrite : folder.write path text = .error error) :
    ((folderWorld input).writeFile path text).run folder =
    (.error error, folder) := by
  have hget : StateT.run (get : StateM Folder Folder) folder =
    (folder, folder) := rfl
  simp only [folderWorld, run_bind, hget, hwrite]
  rfl

theorem folder_after_delivery {program : Program} :
    ((deliver (folderWorld input) request program).run folder).2 =
      folder.afterWrite request.target program.listing := by
  rw [Folder.afterWrite]
  cases hwrite : folder.write request.target program.listing with
  | ok changed =>
      rw [deliver_run (writeFile_run hwrite)]
      split
      · rfl
      · rfl
  | error error =>
      rw [deliver, run_bind, writeFile_failed hwrite]
      rfl

/-- A session changes the folder by writing its listing only. -/
theorem folder_after_session {contents : ByteArray}
    (hread : folder.read request.source = .ok contents) :
    ((session (folderWorld input) request).run folder).2 =
      match request.listing? contents with
      | some listing => folder.afterWrite request.target listing
      | none => folder := by
  rw [Request.listing?]
  cases hdecode : decode contents with
  | error error =>
      have hfailed :
        (Except.ok contents : Except FileError ByteArray).bind decode =
        .error error := hdecode
      rw [session, run_bind, readFile_run, hread]
      dsimp only
      rw [hfailed]
      rfl
  | ok source =>
      obtain rfl := eq_toUTF8_of_decode hdecode
      rw [session_run (readFile_run.trans (by rw [hread]))]
      dsimp only
      rcases prepare request source with ⟨report, _ | program⟩
      · rfl
      · exact folder_after_delivery

end Folder

/-- When a session without `--output` is over, its source is what it was, unless
it has the name of a listing.  Then the listing stands in its place if there is
one. -/
theorem source_kept_unless_named_as_listing (arguments : List String)
    (request : Request) (folder : Folder) (input contents : ByteArray)
    (hrequest : invocation arguments = .session request)
    (houtput : request.output = none)
    (hread : folder.read request.source = .ok contents) :
    (¬ FilePath.NamesListing request.source →
      (runInFolder arguments folder input).2.read request.source =
        .ok contents) ∧
    (FilePath.NamesListing request.source →
      (runInFolder arguments folder input).2.read request.source =
        .ok (((request.listing? contents).map String.toUTF8).getD
          contents)) := by
  have htarget : request.target =
      FilePath.withExtension request.source "tm" := by
    rw [Request.target, houtput, Option.getD_none]
  have hafter : (runInFolder arguments folder input).2 =
      match request.listing? contents with
      | some listing =>
          folder.afterWrite (FilePath.withExtension request.source "tm") listing
      | none => folder := by
    rw [runInFolder, invoke, hrequest, ← htarget]
    exact folder_after_session hread
  rw [hafter]
  cases request.listing? contents with
  | none => exact ⟨fun _ => hread, fun _ => hread⟩
  | some listing =>
      refine ⟨Folder.read_afterWrite_listing listing hread, fun hnames => ?_⟩
      dsimp only
      rw [Folder.withExtension_of_namesListing hread hnames]
      exact Folder.read_afterWrite_self listing hread

def doublyExtended : Location × ByteArray :=
  (["x.tm.tny".toList], "write 1".toUTF8)

def doublyExtendedRequest : Request :=
  ⟨"x.tm.tny", [.run], none⟩

theorem doubly_extended_source_kept :
    doublyExtendedRequest.target = "x.tm.tm" ∧
    (runInFolder ["--run", "x.tm.tny"] ⟨[doublyExtended]⟩ "".toUTF8).2.read
      "x.tm.tny" =
      .ok "write 1".toUTF8 := by
  have hrequest : invocation ["--run", "x.tm.tny"] =
    .session doublyExtendedRequest := rfl
  have hsource : doublyExtendedRequest.source = "x.tm.tny" := rfl
  have hread : Folder.read ⟨[doublyExtended]⟩ "x.tm.tny" =
    .ok "write 1".toUTF8 := rfl
  have hother : ¬ FilePath.NamesListing "x.tm.tny" := by
    rintro ⟨stem, hstem, -⟩
    have hname : FilePath.name? "x.tm.tny" = some "x.tm.tny" := rfl
    rw [hname] at hstem
    have hlast :=
      congrArg (fun name => name.toList.getLast?) (Option.some.inj hstem)
    simp at hlast
  have hkept :=
    source_kept_unless_named_as_listing _ _ ⟨[doublyExtended]⟩ "".toUTF8 _
    hrequest rfl (by rw [hsource, hread])
  exact ⟨rfl, hkept.1 (hsource ▸ hother)⟩

def ownListing : Location × ByteArray :=
  (["x.tm".toList], "write 1".toUTF8)

def ownListingRequest : Request :=
  ⟨"x.tm", [], none⟩

/-- The listing of a program that writes one. -/
def oneWritten : String :=
  "  0: LDC #1\n  1: OUT\n  2: HALT\n"

theorem source_overwritten_by_own_listing :
    invocation ["x.tm"] = .session ownListingRequest ∧
    ownListingRequest.source = "x.tm" ∧
    Folder.read ⟨[ownListing]⟩ "x.tm" = .ok "write 1".toUTF8 ∧
    (runInFolder ["x.tm"] ⟨[ownListing]⟩ "".toUTF8).2.read "x.tm" =
      .ok oneWritten.toUTF8 ∧
    oneWritten.toUTF8 ≠ "write 1".toUTF8 := by
  have hrequest : invocation ["x.tm"] = .session ownListingRequest := rfl
  have hsource : ownListingRequest.source = "x.tm" := rfl
  have hread : Folder.read ⟨[ownListing]⟩ "x.tm" = .ok "write 1".toUTF8 := rfl
  have huntraced : ownListingRequest.Untraced := by
    simp [ownListingRequest, Request.Untraced]
  have hscan : Scanner.tokenize "write 1" (some "x.tm") =
      .ok [⟨.writeWord, "write", 1⟩, ⟨.number, "1", 1⟩,
        Token.endOfInput 1] := by
    with_unfolding_all rfl
  have hprogram : (compile "write 1" (some "x.tm")).map Compilation.program =
      .ok ⟨#[.loadImmediate 1, .write, .halt], 0⟩ := by
    rw [compile_eq, typedTree, hscan]
    decide +kernel
  obtain ⟨compilation, hcompile, hcode⟩ := except_map_eq_ok.mp hprogram
  have hlisting : ownListingRequest.listing? "write 1".toUTF8 =
      some oneWritten := by
    rw [Request.listing?, decode_toUTF8]
    dsimp only
    rw [prepare_of_compiled huntraced "write 1" hcompile, hcode]
    rfl
  refine ⟨hrequest, hsource, hread, ?_, ?_⟩
  · rw [runInFolder, invoke, hrequest]
    dsimp only
    rw [folder_after_session (by rw [hsource, hread]), hlisting]
    rfl
  · decide +kernel

end CommandLine

end TinyCompiler
