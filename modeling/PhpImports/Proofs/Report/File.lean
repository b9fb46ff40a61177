import PhpImports.Proofs.Text.Utf8
import PhpImports.Report
import PhpImports.Source.Tree

/-!
# Reports on files

A file has the reports of the text that its bytes are decoded into, whichever report is asked for,
and where there is no file each of them fails in the same way (`file_reports_agree`). A file in
UTF-8 is decoded into the text it holds.
-/

namespace PhpImports

variable {fs : FileSystem} {path : Text} {bytes : List UInt8}

theorem Source.read_of_file (h : fs path = .file bytes) :
    read fs path = .ok (.ofText path (Text.decode bytes)) := by
  rw [read, h]
  rfl

theorem TokenReport.ofFile_of_file (shortTags : Bool) (h : fs path = .file bytes) :
    ofFile shortTags fs path = .ok (.ofText shortTags path (Text.decode bytes)) := by
  rw [ofFile, Source.read_of_file h]
  rfl

theorem ImportReport.ofFile_of_file (shortTags : Bool) (h : fs path = .file bytes) :
    ofFile shortTags fs path = .ok (.ofText shortTags path (Text.decode bytes)) := by
  rw [ofFile, Source.read_of_file h]
  rfl

theorem AliasTable.ofFile_of_file (shortTags : Bool) (h : fs path = .file bytes) :
    ofFile shortTags fs path =
      .ok (ImportReport.ofText shortTags path (Text.decode bytes)).table := by
  rw [ofFile, ImportReport.ofFile_of_file shortTags h]
  rfl

/-- What is read for its imports is what is read for its tokens, and more is reported of it. -/
theorem ImportReport.extends_ofSource (shortTags : Bool) (source : Source) :
    let lexed := TokenReport.ofSource shortTags source
    let scanned := ImportReport.ofSource shortTags source
    scanned.source = lexed.source ∧ scanned.pieces = lexed.pieces ∧
      lexed.diagnostics <+: scanned.diagnostics :=
  ⟨rfl, rfl, List.prefix_append _ _⟩

/-- The failure says what was found: a directory in words of its own, anything else in those of the
system, which come with its reason. -/
structure ReadFailure.Describes (e : ReadFailure) (path : Text) (found : Found) : Prop where
  path_eq : e.path = path
  hasReason_iff : e.hasReason = false ↔ found = .directory
  directory : found = .directory →
    e.message = "Failed read file \"".toList ++ path ++ "\".".toList
  unreadable : ∀ reason, found = .unreadable reason → e.message = reason

theorem Source.exists_failure (h : ∀ bytes, fs path ≠ .file bytes) :
    ∃ e, read fs path = .error e ∧ e.Describes path (fs path) := by
  rw [read]
  cases hfound : fs path with
  | file bytes => exact absurd hfound (h bytes)
  | directory => exact ⟨_, rfl, rfl, by simp [ReadFailure.hasReason], fun _ => rfl, by simp⟩
  | unreadable reason =>
    refine ⟨_, rfl, rfl, by simp [ReadFailure.hasReason], by simp, ?_⟩
    rintro _ ⟨⟩
    rfl

/-- If there is a file at the path, whatever its bytes are, its tokens, its imports and its alias
table are those of the text that it is decoded into, which is the text it holds if it is in UTF-8.
If there is none, all three fail alike, and the failure says what is there instead. -/
theorem file_reports_agree (shortTags : Bool) (fs : FileSystem) (path : Text) :
    (∀ bytes, fs path = .file bytes → ∃ lexed scanned,
      TokenReport.ofFile shortTags fs path = .ok lexed ∧
      ImportReport.ofFile shortTags fs path = .ok scanned ∧
      AliasTable.ofFile shortTags fs path = .ok scanned.table ∧
      lexed = .ofText shortTags path (Text.decode bytes) ∧
      scanned = .ofText shortTags path (Text.decode bytes) ∧
      (∀ t : Text, bytes = t.bytes → Text.decode bytes = t) ∧
      scanned.source = lexed.source ∧ scanned.pieces = lexed.pieces ∧
      lexed.diagnostics <+: scanned.diagnostics) ∧
    ((∀ bytes, fs path ≠ .file bytes) → ∃ e : ReadFailure, e.Describes path (fs path) ∧
      TokenReport.ofFile shortTags fs path = .error e ∧
      ImportReport.ofFile shortTags fs path = .error e ∧
      AliasTable.ofFile shortTags fs path = .error e) := by
  constructor
  · intro bytes h
    refine ⟨_, _, TokenReport.ofFile_of_file shortTags h, ImportReport.ofFile_of_file shortTags h,
      AliasTable.ofFile_of_file shortTags h, rfl, rfl, ?_, ImportReport.extends_ofSource _ _⟩
    rintro t rfl
    exact Text.decode_bytes t
  · intro h
    obtain ⟨e, hread, hdescribes⟩ := Source.exists_failure h
    refine ⟨e, hdescribes, ?_, ?_, ?_⟩
    · rw [TokenReport.ofFile, hread]
      rfl
    · rw [ImportReport.ofFile, hread]
      rfl
    · rw [AliasTable.ofFile, ImportReport.ofFile, hread]
      rfl

/-- A file that is not in UTF-8, a directory, and nothing at all. -/
theorem file_reports_agree_tree :
    let bytes := [60, 63, 112, 104, 112, 32, 117, 115, 101, 32, 65, 59, 35, 233]
    let tree : Tree := (Tree.add {} "a.php".toList (.file bytes)).add "d".toList .directory
    tree.find "a.php".toList = .file bytes ∧
      (∃ lexed, TokenReport.ofFile false tree.find "a.php".toList = .ok lexed ∧
        lexed = .ofText false "a.php".toList "<?php use A;#\uFFFD".toList) ∧
      (∃ e, AliasTable.ofFile false tree.find "d".toList = .error e ∧
        e.message = "Failed read file \"d\".".toList) ∧
      ∃ e, AliasTable.ofFile false tree.find "x".toList = .error e ∧ e.hasReason = true ∧
        e.message = "No such file or directory (os error 2)".toList := by
  intro bytes tree
  have hfile : tree.find "a.php".toList = .file bytes := by decide +kernel
  have hdirectory : tree.find "d".toList = .directory := by decide +kernel
  have hnothing : tree.find "x".toList =
      .unreadable "No such file or directory (os error 2)".toList := by decide +kernel
  have htext : Text.decode bytes = "<?php use A;#\uFFFD".toList := by decide +kernel
  obtain ⟨lexed, scanned, hlexed, -, -, hsame, -⟩ :=
    (file_reports_agree false tree.find "a.php".toList).1 bytes hfile
  obtain ⟨e, he, -, -, htable⟩ := (file_reports_agree false tree.find "d".toList).2
    fun bytes h => by cases hdirectory.symm.trans h
  obtain ⟨e', he', -, -, htable'⟩ := (file_reports_agree false tree.find "x".toList).2
    fun bytes h => by cases hnothing.symm.trans h
  refine ⟨hfile, ⟨lexed, hlexed, htext ▸ hsame⟩, ⟨e, htable, he.directory hdirectory⟩, e', htable',
    ?_, he'.unreadable _ hnothing⟩
  have hiff := he'.hasReason_iff
  rw [hnothing] at hiff
  simpa using hiff

end PhpImports
