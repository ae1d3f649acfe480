import CodexAgents.Lib.Text

/-!
# The patch parser

`apply-patch/src/parser.rs` and `apply-patch/src/streaming_parser.rs`: the hunks of a patch, the
line-by-line machine `StreamingPatchParser`, and `parsePatch`, which checks the first and last line
of a complete text and then runs the same machine over it.

The machine keeps a buffer with the unfinished line, and hands every finished line to
`processLine`, which is a case analysis on the mode:

* `notStarted` wants `*** Begin Patch`;
* `startedPatch`, `addFile` and `deleteFile` want a hunk header, and `addFile` also takes `+` lines;
* `updateFile` wants a header, a `*** Move to: ` line, a `@@` line, `*** End of File`, or a body
  line, and reads its markers off `trimEnd line`, where the other modes use `trim line`;
* `endedPatch` wants nothing but blank lines.

No branch of `process_line` writes to the parser before it can fail, so `processLine` is a function
into `Except ParseError StreamingPatchParser` and a failure leaves the parser as it was.  The one
thing that is gone after a failed line is the line itself: `pushDelta` has taken the buffer and
counted the line before it calls `processLine`.

A path is the text the patch gives for it.
-/

namespace ApplyPatch

open Text

/-! ## Hunks -/

/-- Why a patch is refused. -/
inductive ParseError where
  | invalidPatchError (message : Str)
  | invalidHunkError (message : Str) (lineNumber : ℕ)
  deriving DecidableEq

/-- Lines to be replaced, and where to look for them. -/
structure UpdateFileChunk where
  /-- A line that narrows down where the chunk goes. -/
  changeContext : Option Str := none
  /-- The block of lines to be replaced by `newLines`. -/
  oldLines : List Str := []
  newLines : List Str := []
  /-- Which line of `oldLines` is which line of `newLines`: the lines parsed as context. -/
  contextLineIndices : List (ℕ × ℕ) := []
  /-- `oldLines` must occur at the end of the file. -/
  isEndOfFile : Bool := false
  deriving DecidableEq, Inhabited

/-- What is to be done to a file. -/
inductive Hunk where
  | addFile (path contents : Str)
  | deleteFile (path : Str)
  | updateFile (path : Str) (movePath : Option Str) (chunks : List UpdateFileChunk)
  deriving DecidableEq

/-- Add a context line to both sides, recording which line it is on each. -/
def UpdateFileChunk.pushContextLine (chunk : UpdateFileChunk) (line : Str) : UpdateFileChunk :=
  { chunk with
    contextLineIndices :=
      chunk.contextLineIndices ++ [(chunk.oldLines.length, chunk.newLines.length)]
    oldLines := chunk.oldLines ++ [line]
    newLines := chunk.newLines ++ [line] }

/-- The chunk has no body line yet. -/
def UpdateFileChunk.isEmpty (chunk : UpdateFileChunk) : Bool :=
  chunk.oldLines.isEmpty && chunk.newLines.isEmpty

/-! ## Markers -/

def beginPatchMarker : Str := "*** Begin Patch"
def endPatchMarker : Str := "*** End Patch"
def addFileMarker : Str := "*** Add File: "
def deleteFileMarker : Str := "*** Delete File: "
def updateFileMarker : Str := "*** Update File: "
def moveToMarker : Str := "*** Move to: "
def eofMarker : Str := "*** End of File"
def changeContextMarker : Str := "@@ "
def emptyChangeContextMarker : Str := "@@"
def environmentIdMarker : Str := "*** Environment ID:"

/-! ## The streaming machine -/

/-- What the parser is in the middle of. -/
inductive StreamingParserMode where
  | notStarted
  | startedPatch
  | addFile
  | deleteFile
  | updateFile (hunkLineNumber : ℕ)
  | endedPatch
  deriving DecidableEq

/-- What has been parsed. -/
structure StreamingParserState where
  mode : StreamingParserMode := .notStarted
  hunks : List Hunk := []
  environmentId : Option Str := none

/-- The parser, with a line that is not complete. -/
structure StreamingPatchParser where
  lineBuffer : Str := []
  state : StreamingParserState := {}
  lineNumber : ℕ := 0

namespace StreamingPatchParser

variable (p : StreamingPatchParser)

/-- The parser in another mode. -/
def setMode (mode : StreamingParserMode) : StreamingPatchParser :=
  { p with state := { p.state with mode := mode } }

/-- The parser with one more hunk, in the mode that reads it. -/
def openHunk (hunk : Hunk) (mode : StreamingParserMode) : StreamingPatchParser :=
  { p with state := { p.state with hunks := p.state.hunks ++ [hunk], mode := mode } }

/-- The parser with its last hunk changed. -/
def setLastHunk (hunk : Hunk) : StreamingPatchParser :=
  { p with state := { p.state with hunks := p.state.hunks.dropLast ++ [hunk] } }

/-! ### Messages -/

def firstLineMessage : Str := "The first line of the patch must be '*** Begin Patch'"

def lastLineMessage : Str := "The last line of the patch must be '*** End Patch'"

/-- An update without chunks. -/
def emptyHunkMessage (path : Str) : Str :=
  "Update file hunk for path '" ++ path ++ "' is empty"

def noLinesMessage : Str := "Update hunk does not contain any lines"

variable (line : Str)

/-- A line that does not belong to a chunk. -/
def unexpectedLineMessage : Str :=
  "Unexpected line found in update hunk: '" ++ line ++
    ("'. Every line should start with ' ' (context line), '+' (added line), " ++
      "or '-' (removed line)").toList

/-- A chunk that does not begin with a marker. -/
def expectedContextMessage : Str :=
  "Expected update hunk to start with a @@ context marker, got: '" ++ line ++ "'"

variable (trimmed : Str)

/-- A line that begins no hunk. -/
def invalidHeaderMessage : Str :=
  "'" ++ trimmed ++
    ("' is not a valid hunk header. Valid hunk headers: '*** Add File: \x7bpath\x7d', " ++
      "'*** Delete File: \x7bpath\x7d', '*** Update File: \x7bpath\x7d'").toList

/-! ### Headers -/

/-- An update hunk may only be left once it has a chunk and its last chunk has a line. -/
def ensureUpdateHunkIsNotEmpty : Except ParseError Unit :=
  match p.state.hunks.getLast? with
  | some (.updateFile path _ chunks) =>
    match chunks.getLast?, p.state.mode with
    | none, .updateFile hunkLineNumber =>
      .error (.invalidHunkError (emptyHunkMessage path) hunkLineNumber)
    | some chunk, _ =>
      if chunk.isEmpty then
        if line = endPatchMarker then .error (.invalidHunkError noLinesMessage p.lineNumber)
        else .error (.invalidHunkError (unexpectedLineMessage line) p.lineNumber)
      else .ok ()
    | none, _ => .ok ()
  | _ => .ok ()

/-- Read `trimmed` as a hunk header or the end of the patch: `some` parser if it was one, `none` if
the line is still to be dealt with. -/
def handleHunkHeader : Except ParseError (Option StreamingPatchParser) :=
  if trimmed = endPatchMarker then do
    p.ensureUpdateHunkIsNotEmpty trimmed
    return some (p.setMode .endedPatch)
  else match stripPrefix addFileMarker trimmed with
  | some path => do
    p.ensureUpdateHunkIsNotEmpty trimmed
    return some (p.openHunk (.addFile path []) .addFile)
  | none => match stripPrefix deleteFileMarker trimmed with
  | some path => do
    p.ensureUpdateHunkIsNotEmpty trimmed
    return some (p.openHunk (.deleteFile path) .deleteFile)
  | none => match stripPrefix updateFileMarker trimmed with
  | some path => do
    p.ensureUpdateHunkIsNotEmpty trimmed
    return some (p.openHunk (.updateFile path none []) (.updateFile p.lineNumber))
  | none => return none

/-- The same, for a line that may also be the environment id of a patch that has just started. -/
def handleHunkHeadersAndEndPatch : Except ParseError (Option StreamingPatchParser) :=
  match p.state.mode, stripPrefix environmentIdMarker trimmed with
  | .startedPatch, some environmentId =>
    if p.state.environmentId.isSome then
      .error (.invalidPatchError
        "apply_patch environment_id cannot be specified more than once")
    else if trim environmentId = [] then
      .error (.invalidPatchError "apply_patch environment_id cannot be empty")
    else .ok (some { p with state := { p.state with environmentId := some (trim environmentId) } })
  | _, _ => p.handleHunkHeader trimmed

/-! ### Lines of an update hunk -/

/-- Is the line a `@@` line? -/
def isContextMarker (updateLine : Str) : Bool :=
  updateLine = emptyChangeContextMarker || startsWith updateLine changeContextMarker

/-- Apply `f` to the last chunk, opening a first one if there is none. -/
def onLastChunk (chunks : List UpdateFileChunk) (f : UpdateFileChunk → UpdateFileChunk) :
    List UpdateFileChunk :=
  match chunks.getLast? with
  | none => [f {}]
  | some chunk => chunks.dropLast ++ [f chunk]

/-- A line of an update hunk that is not a header.  `process_line` sets the mode to `UpdateFile`
with the same `hunk_line_number` on each of these branches, which changes nothing. -/
def processUpdateLine (line path : Str) (movePath : Option Str)
    (chunks : List UpdateFileChunk) : Except ParseError StreamingPatchParser :=
  let updateLine := trimEnd line
  let withChunks (chunks : List UpdateFileChunk) := p.setLastHunk (.updateFile path movePath chunks)
  let lastIsEof := chunks.getLast?.any (·.isEndOfFile)
  let lastIsEmpty := chunks.getLast?.any (·.isEmpty)
  if lastIsEof && updateLine.isEmpty then .ok p
  else if lastIsEof && !isContextMarker updateLine then
    .error (.invalidHunkError (expectedContextMessage line) p.lineNumber)
  else match if chunks.isEmpty && movePath.isNone then stripPrefix moveToMarker updateLine
    else none with
  | some moveToPath => .ok (p.setLastHunk (.updateFile path (some moveToPath) chunks))
  | none =>
    if isContextMarker updateLine && lastIsEmpty then
      .error (.invalidHunkError (unexpectedLineMessage line) p.lineNumber)
    else if updateLine = emptyChangeContextMarker then .ok (withChunks (chunks ++ [{}]))
    else match stripPrefix changeContextMarker updateLine with
    | some changeContext => .ok (withChunks (chunks ++ [{ changeContext := some changeContext }]))
    | none =>
      if updateLine = eofMarker then
        if lastIsEmpty then .error (.invalidHunkError noLinesMessage p.lineNumber)
        else .ok (withChunks (chunks.modifyLast fun chunk => { chunk with isEndOfFile := true }))
      else match line with
      | [] => .ok (withChunks (onLastChunk chunks (·.pushContextLine [])))
      | ' ' :: text => .ok (withChunks (onLastChunk chunks (·.pushContextLine text)))
      | '+' :: text =>
        .ok (withChunks (onLastChunk chunks fun chunk =>
          { chunk with newLines := chunk.newLines ++ [text] }))
      | '-' :: text =>
        .ok (withChunks (onLastChunk chunks fun chunk =>
          { chunk with oldLines := chunk.oldLines ++ [text] }))
      | _ =>
        if chunks.getLast?.any (!·.isEmpty) then
          .error (.invalidHunkError (expectedContextMessage line) p.lineNumber)
        else .error (.invalidHunkError (unexpectedLineMessage line) p.lineNumber)

/-! ### One line, one delta, the end -/

/-- One more line, by what the parser is in the middle of. -/
def processLine : Except ParseError StreamingPatchParser :=
  let trimmed := trim line
  let notAHeader : Except ParseError StreamingPatchParser :=
    .error (.invalidHunkError (invalidHeaderMessage trimmed) p.lineNumber)
  match p.state.mode with
  | .notStarted =>
    if trimmed = beginPatchMarker then .ok (p.setMode .startedPatch)
    else .error (.invalidPatchError firstLineMessage)
  | .startedPatch => do
    match ← p.handleHunkHeadersAndEndPatch trimmed with
    | some p' => return p'
    | none => notAHeader
  | .addFile => do
    match ← p.handleHunkHeadersAndEndPatch trimmed with
    | some p' => return p'
    | none => match line, p.state.hunks.getLast? with
      | '+' :: lineToAdd, some (.addFile path contents) =>
        return p.setLastHunk (.addFile path (contents ++ lineToAdd ++ ['\n']))
      | _, _ => notAHeader
  | .deleteFile => do
    match ← p.handleHunkHeadersAndEndPatch trimmed with
    | some p' => return p'
    | none => notAHeader
  | .updateFile _ => do
    match ← p.handleHunkHeadersAndEndPatch (trimEnd line) with
    | some p' => return p'
    | none => match p.state.hunks.getLast? with
      | some (.updateFile path movePath chunks) => p.processUpdateLine line path movePath chunks
      | _ => .error (.invalidHunkError (unexpectedLineMessage line) p.lineNumber)
  | .endedPatch => if trimmed = [] then .ok p else .error (.invalidPatchError lastLineMessage)

/-- The parser once it has taken the buffered line and counted it. -/
def takeLine : StreamingPatchParser := { p with lineBuffer := [], lineNumber := p.lineNumber + 1 }

/-- Feed a piece of the text.  A failing line stops the piece there: the rest of it is lost. -/
def pushDelta (p : StreamingPatchParser) :
    Str → StreamingPatchParser × Except ParseError (List Hunk)
  | [] => (p, .ok p.state.hunks)
  | ch :: rest =>
    if ch = '\n' then
      match p.takeLine.processLine (stripCr p.lineBuffer) with
      | .ok p' => pushDelta p' rest
      | .error e => (p.takeLine, .error e)
    else pushDelta { p with lineBuffer := p.lineBuffer ++ [ch] } rest

/-- The end of the text.  An unterminated last line that is `*** End Patch` ends the patch here and
not through `processLine`. -/
def finish : StreamingPatchParser × Except ParseError (List Hunk) :=
  let ended (p : StreamingPatchParser) : StreamingPatchParser × Except ParseError (List Hunk) :=
    if p.state.mode = .endedPatch then (p, .ok p.state.hunks)
    else (p, .error (.invalidPatchError lastLineMessage))
  if p.lineBuffer = [] then ended p
  else
    let line := p.lineBuffer
    if trim line = endPatchMarker then
      match p.takeLine.ensureUpdateHunkIsNotEmpty (trim line) with
      | .ok () => ended (p.takeLine.setMode .endedPatch)
      | .error e => (p.takeLine, .error e)
    else
      match p.takeLine.processLine line with
      | .ok p' => ended p'
      | .error e => (p.takeLine, .error e)

end StreamingPatchParser

/-! ## The parser for a complete text -/

/-- A patch and its parts. -/
structure ApplyPatchArgs where
  patch : Str
  hunks : List Hunk
  workdir : Option Str
  environmentId : Option Str
  deriving DecidableEq

/-- Whether a heredoc around the patch is accepted. -/
inductive ParseMode where
  | strict
  | lenient

/-- The first and the last line are the markers. -/
def checkStartAndEndLinesStrict (firstLine lastLine : Option Str) : Except ParseError Unit :=
  match firstLine.map trim, lastLine.map trim with
  | some first, last =>
    if first = beginPatchMarker ∧ last = some endPatchMarker then .ok ()
    else if first ≠ beginPatchMarker then
      .error (.invalidPatchError StreamingPatchParser.firstLineMessage)
    else .error (.invalidPatchError StreamingPatchParser.lastLineMessage)
  | none, _ => .error (.invalidPatchError StreamingPatchParser.lastLineMessage)

/-- The lines are those of a patch. -/
def checkPatchBoundariesStrict (lines : List Str) : Except ParseError (List Str) := do
  checkStartAndEndLinesStrict lines.head? lines.getLast?
  return lines

/-- Is the line the opening of a heredoc? -/
def isHeredocStart (line : Str) : Bool :=
  line = "<<EOF" || line = "<<'EOF'" || line = "<<\"EOF\""

/-- A heredoc around the lines is taken off. -/
def checkPatchBoundariesLenient (originalLines : List Str) : Except ParseError (List Str) :=
  match checkPatchBoundariesStrict originalLines with
  | .ok lines => .ok lines
  | .error originalParseError =>
    match originalLines with
    | first :: second :: rest =>
      let last := (second :: rest).getLastD []
      if isHeredocStart first && "EOF".toList.isSuffixOf last && 4 ≤ originalLines.length then
        checkPatchBoundariesStrict (second :: rest).dropLast
      else .error originalParseError
    | _ => .error originalParseError

/-- The lines of the patch proper, by the mode the text is read in. -/
def checkPatchBoundaries (mode : ParseMode) (lines : List Str) : Except ParseError (List Str) :=
  match mode with
  | .strict => checkPatchBoundariesStrict lines
  | .lenient => checkPatchBoundariesLenient lines

/-- The lines of a patch are checked and fed to the parser. -/
def parsePatchText (patch : Str) (mode : ParseMode) : Except ParseError ApplyPatchArgs := do
  let patchLines ← checkPatchBoundaries mode (lines (trim patch))
  let patch := joinLines patchLines
  let (parser, pushed) := StreamingPatchParser.pushDelta {} patch
  let _ ← pushed
  let (parser, finished) := parser.finish
  let hunks ← finished
  return { patch := patch, hunks := hunks, workdir := none
           environmentId := parser.state.environmentId }

/-- `PARSE_IN_STRICT_MODE` is false. -/
def parsePatch (patch : Str) : Except ParseError ApplyPatchArgs := parsePatchText patch .lenient

end ApplyPatch
