import CodexAgents.ApplyPatch.FileUpdate
import CodexAgents.Lib.Outcome

/-!
# Applying hunks to files

`apply-patch/src/lib.rs`: the hunks of a patch are carried out one after the other on a file system,
and what has been done so far is recorded in an `AppliedPatchDelta`.  A hunk that fails ends the
loop, and the delta says what had been done by then.  Its `exact` flag is cleared whenever something
may have happened that it does not describe.

The file system is a record of operations on a state (`ExecutorFileSystem`), any of which can fail
and leave the state changed; what they do is a matter of laws, which the results ask for.  The same
goes for paths (`PathUris`): how a path of the patch is resolved against the working directory is
left open.  The sandbox context is handed through to every operation unchanged and is part of the
file system here; contents are written as texts, which are their UTF-8 bytes.

Programs are `EStateM`: the delta is a `&mut` argument, so it is part of the state and survives a
failure.
-/

namespace ApplyPatch

open Text Outcome

/-! ## File systems and paths -/

/-- The fields of `FileMetadata` that are looked at. -/
structure FileMetadata where
  isDirectory : Bool
  isFile : Bool
  isSymlink : Bool

/-- `ExecutorFileSystem`, as far as patches use it.  Directories are created recursively; `remove`
is neither recursive nor forced. -/
structure ExecutorFileSystem (σ P : Type) where
  readFileText : P → EStateM StdIoError σ Str
  writeFile : P → Str → EStateM StdIoError σ Unit
  createDirectory : P → EStateM StdIoError σ Unit
  getMetadata : P → EStateM StdIoError σ FileMetadata
  remove : P → EStateM StdIoError σ Unit

/-- `PathUri`.  A `PathUriParseError` is the text it is displayed as. -/
structure PathUris (P : Type) where
  join : P → Str → Except Str P
  parent : P → Option P
  inferredNativePathString : P → Str

/-- `Hunk::path`: for a rename, the destination. -/
def Hunk.path : Hunk → Str
  | .addFile path _ => path
  | .deleteFile path => path
  | .updateFile _ (some path) _ => path
  | .updateFile path none _ => path

/-- The text `Hunk::resolve_path` resolves: for a rename, the source. -/
def Hunk.sourcePath : Hunk → Str
  | .addFile path _ => path
  | .deleteFile path => path
  | .updateFile path _ _ => path

/-! ## The delta -/

/-- What was done to a file, with what is needed to take it back. -/
inductive AppliedPatchFileChange (P : Type) where
  | add (content : Str) (overwrittenContent : Option Str)
  | delete (content : Str)
  | update (movePath : Option P) (oldContent : Str) (overwrittenMoveContent : Option Str)
      (newContent : Str)

/-- A change and its file. -/
structure AppliedPatchChange (P : Type) where
  path : P
  change : AppliedPatchFileChange P

/-- What has been done to the file system so far. -/
structure AppliedPatchDelta (P : Type) where
  changes : List (AppliedPatchChange P) := []
  exact : Bool := true

/-- The paths of the summary, as the patch spells them. -/
structure AffectedPaths where
  added : List Str := []
  modified : List Str := []
  deleted : List Str := []

/-! ## Errors -/

/-- The four things an `anyhow::Error` is made from here: a message, an I/O error with a context,
and two error types of the program. -/
inductive AnyhowError where
  | msg (message : Str)
  | io (context : Str) (source : StdIoError)
  | applyPatch (error : ApplyPatchError)
  | pathUri (message : Str)

/-- The message of an error of the parser. -/
def ParseError.display : ParseError → Str
  | .invalidPatchError message => "invalid patch: " ++ message
  | .invalidHunkError message lineNumber =>
    "invalid hunk at line " ++ (toString lineNumber).toList ++ ", " ++ message

/-- The message of an error. -/
def ApplyPatchError.display : ApplyPatchError → Str
  | .parseError error => error.display
  | .ioError error => error.context ++ ": " ++ error.source.message
  | .computeReplacements message => message
  | .pathUri message => message
  | .implicitInvocation =>
    ("patch detected without explicit call to apply_patch. " ++
      "Rerun as [\"apply_patch\", \"<patch>\"]").toList

/-- `to_string` shows the outermost context. -/
def AnyhowError.display : AnyhowError → Str
  | .msg message => message
  | .io context _ => context
  | .applyPatch error => error.display
  | .pathUri message => message

/-- `From<std::io::Error>`. -/
def ApplyPatchError.ofIo (error : StdIoError) : ApplyPatchError :=
  .ioError ⟨"I/O error", error⟩

/-- What an error of `applyHunksToFiles` is turned into: an I/O error, under whatever context, is
passed on, and everything else becomes one. -/
def AnyhowError.toApplyPatchError (error : AnyhowError) : ApplyPatchError :=
  match error with
  | .io _ source => .ofIo source
  | _ => .ioError ⟨error.display, ⟨.other, error.display⟩⟩

/-- An error, and what was done before it. -/
structure ApplyPatchFailure (P : Type) where
  error : ApplyPatchError
  delta : AppliedPatchDelta P

/-! ## Operations on the file system alone -/

section

variable {σ P : Type} (fs : ExecutorFileSystem σ P) (paths : PathUris P)

/-- Only files are removed. -/
def ensureNotDirectory (path : P) : EStateM StdIoError σ Unit := do
  let metadata ← fs.getMetadata path
  if metadata.isDirectory then throw ⟨.invalidInput, "path is a directory"⟩

/-- The two texts of `AppliedPatch`. -/
structure AppliedPatch where
  originalContents : Str
  newContents : Str

/-- The file is read, and its new contents are computed. -/
def deriveNewContentsFromChunks (path : P) (chunks : List UpdateFileChunk)
    (mode : ApplyPatchFileUpdateMode) : EStateM ApplyPatchError σ AppliedPatch := do
  match ← attempt id (fun _ t => t) (fs.readFileText path) with
  | .error source =>
    throw (.ioError ⟨"Failed to read file to update " ++ paths.inferredNativePathString path,
      source⟩)
  | .ok originalContents =>
    let pathText := paths.inferredNativePathString path
    match newContentsFromChunks pathText originalContents chunks mode with
    | .error error => throw error
    | .ok newContents => return ⟨originalContents, newContents⟩

/-! ## The loop -/

/-- The file system, the delta, and the paths for the summary. -/
structure ApplyState (σ P : Type) where
  fs : σ
  delta : AppliedPatchDelta P := {}
  affected : AffectedPaths := {}

/-- A run on the state, which may fail. -/
abbrev Apply (σ P : Type) := EStateM AnyhowError (ApplyState σ P)

namespace Apply

/-- An operation on the file system, with its failure as a value. -/
def onFs {ε α : Type} (op : EStateM ε σ α) : Apply σ P (Except ε α) :=
  attempt ApplyState.fs (fun s t => { s with fs := t }) op

/-- `delta.exact &= exact`. -/
def andExact (exact : Bool) : Apply σ P Unit :=
  modify fun s => { s with delta := { s.delta with exact := s.delta.exact && exact } }

/-- A change is recorded. -/
def pushChange (path : P) (change : AppliedPatchFileChange P) : Apply σ P Unit :=
  modify fun s => { s with delta :=
    { s.delta with changes := s.delta.changes ++ [⟨path, change⟩] } }

/-- Put a change in the place of the last one. -/
def replaceLastChange (path : P) (change : AppliedPatchFileChange P) : Apply σ P Unit :=
  modify fun s =>
    { s with delta := { s.delta with changes := s.delta.changes.dropLast ++ [⟨path, change⟩] } }

/-- A path is noted for the summary. -/
def pushAffected (f : AffectedPaths → AffectedPaths) : Apply σ P Unit :=
  modify fun s => { s with affected := f s.affected }

/-- `?` on a result, under a conversion of the error. -/
def orThrow {ε α : Type} (f : ε → AnyhowError) (result : Except ε α) : Apply σ P α :=
  match result with
  | .ok a => pure a
  | .error e => throw (f e)

/-- `try_write!`: a failed write can still have modified its target. -/
def tryWrite (write : Apply σ P Unit) : Apply σ P Unit := fun s =>
  match write s with
  | .ok a t => .ok a t
  | .error e t => .error e { t with delta := { t.delta with exact := false } }

end Apply

open Apply

variable (path : P)

/-- Only plain files and missing ones can be recorded exactly. -/
def noteExistingPathDeltaSupport : Apply σ P Unit := do
  match ← onFs (fs.getMetadata path) with
  | .ok metadata => andExact (metadata.isFile && !metadata.isSymlink)
  | .error source => andExact (source.kind = .notFound)

/-- What a path holds before it is written, if it can be read. -/
def readOptionalFileTextForDelta : Apply σ P (Option Str) := do
  noteExistingPathDeltaSupport fs path
  match ← onFs (fs.readFileText path) with
  | .ok content => return some content
  | .error source =>
    andExact (source.kind = .notFound)
    return none

/-- The file is still there as it was. -/
def removeFailureWasSideEffectFree (expectedContent : Option Str) : Apply σ P Bool := do
  match expectedContent with
  | none => return false
  | some expectedContent =>
    match ← onFs (fs.readFileText path) with
    | .ok content => return content = expectedContent
    | .error _ => return false

/-- A write that fails because something is not there is tried again once the parent directory has
been created. -/
def writeFileWithMissingParentRetry (contents : Str) : Apply σ P Unit := do
  let failed := "Failed to write file " ++ paths.inferredNativePathString path
  match ← onFs (fs.writeFile path contents) with
  | .ok () => pure ()
  | .error err =>
    if err.kind = .notFound then
      match paths.parent path with
      | some parent =>
        let created ← onFs (fs.createDirectory parent)
        orThrow (.io ("Failed to create parent directories for " ++
          paths.inferredNativePathString path)) created
      | none => pure ()
      let written ← onFs (fs.writeFile path contents)
      orThrow (.io failed) written
    else throw (.io failed err)

/-- Remove the file of a deletion or the source of a rename.  `action` begins the error messages,
and `content` is what the file is known to hold. -/
def removeFile (action : Str) (path : P) (content : Option Str) : Apply σ P Unit := do
  let context := action ++ paths.inferredNativePathString path
  let checked ← onFs (ensureNotDirectory fs path)
  orThrow (.io context) checked
  match ← onFs (fs.remove path) with
  | .ok () => pure ()
  | .error error =>
    let exact ← removeFailureWasSideEffectFree fs path content
    andExact exact
    throw (.io context error)

variable (mode : ApplyPatchFileUpdateMode) (cwd : P) (path : P)

/-- A file is written; what it overwrites is recorded. -/
def applyAddFile (affectedPath contents : Str) : Apply σ P Unit := do
  let overwrittenContent ← readOptionalFileTextForDelta fs path
  tryWrite (writeFileWithMissingParentRetry fs paths path contents)
  pushChange path (.add contents overwrittenContent)
  pushAffected fun a => { a with added := a.added ++ [affectedPath] }

/-- A file is removed; it is recorded if it could be read. -/
def applyDeleteFile (affectedPath : Str) : Apply σ P Unit := do
  noteExistingPathDeltaSupport fs path
  let read ← onFs (fs.readFileText path)
  let deletedContent := read.toOption
  andExact deletedContent.isSome
  removeFile fs paths "Failed to delete file " path deletedContent
  match deletedContent with
  | some content => pushChange path (.delete content)
  | none => pure ()
  pushAffected fun a => { a with deleted := a.deleted ++ [affectedPath] }

/-- A file is changed, and perhaps moved. -/
def applyUpdateFile (affectedPath : Str) (movePath : Option Str)
    (chunks : List UpdateFileChunk) : Apply σ P Unit := do
  noteExistingPathDeltaSupport fs path
  let derived ← onFs (deriveNewContentsFromChunks fs paths path chunks mode)
  let ⟨originalContents, newContents⟩ ← orThrow .applyPatch derived
  match movePath with
  | some dest =>
    let dest ← orThrow .pathUri (paths.join cwd dest)
    let overwrittenMoveContent ← readOptionalFileTextForDelta fs dest
    tryWrite (writeFileWithMissingParentRetry fs paths dest newContents)
    -- recorded as an addition, until the source is gone
    pushChange dest (.add newContents overwrittenMoveContent)
    removeFile fs paths "Failed to remove original " path (some originalContents)
    replaceLastChange path
      (.update (some dest) originalContents overwrittenMoveContent newContents)
  | none =>
    tryWrite (do
      let written ← onFs (fs.writeFile path newContents)
      orThrow (.io ("Failed to write file " ++ paths.inferredNativePathString path)) written)
    pushChange path (.update none originalContents none newContents)
  pushAffected fun a => { a with modified := a.modified ++ [affectedPath] }

/-- One turn of the loop of `apply_hunks_to_files`. -/
def applyHunk (hunk : Hunk) : Apply σ P Unit := do
  let path ← orThrow .pathUri (paths.join cwd hunk.sourcePath)
  match hunk with
  | .addFile _ contents => applyAddFile fs paths path hunk.path contents
  | .deleteFile _ => applyDeleteFile fs paths path hunk.path
  | .updateFile _ movePath chunks =>
    applyUpdateFile fs paths mode cwd path hunk.path movePath chunks

/-- All hunks, up to the first that fails. -/
def applyHunksToFiles (hunks : List Hunk) : Apply σ P AffectedPaths := do
  if hunks.isEmpty then throw (.msg "No files were modified.")
  hunks.forM (applyHunk fs paths mode cwd)
  return (← get).affected

/-! ## The summary -/

/-- A writer is a function that writes one line. -/
abbrev Writer (ω : Type) := Str → EStateM StdIoError ω Unit

variable {ω : Type}

/-- The files by what was done to them. -/
def printSummary (writeln : Writer ω) (affected : AffectedPaths) : EStateM StdIoError ω Unit := do
  writeln "Success. Updated the following files:"
  affected.added.forM fun path => writeln ("A " ++ path)
  affected.modified.forM fun path => writeln ("M " ++ path)
  affected.deleted.forM fun path => writeln ("D " ++ path)

/-- The file system and what has gone to the two writers. -/
structure Console (σ ω : Type) where
  fs : σ
  stdout : ω
  stderr : ω

/-- The patch is applied, and its outcome is printed. -/
def applyHunksWithMode (stdout stderr : Writer ω) (hunks : List Hunk) :
    EStateM (ApplyPatchFailure P) (Console σ ω) (AppliedPatchDelta P) := fun console =>
  match applyHunksToFiles fs paths mode cwd hunks { fs := console.fs } with
  | .ok affected s =>
    match printSummary stdout affected console.stdout with
    | .ok () out => .ok s.delta { console with fs := s.fs, stdout := out }
    | .error error out => .error ⟨.ofIo error, s.delta⟩ { console with fs := s.fs, stdout := out }
  | .error error s =>
    match stderr error.display console.stderr with
    | .ok () err =>
      .error ⟨error.toApplyPatchError, s.delta⟩ { console with fs := s.fs, stderr := err }
    | .error error err => .error ⟨.ofIo error, s.delta⟩ { console with fs := s.fs, stderr := err }

end

end ApplyPatch
