import CodexAgents.ApplyPatch.Parser

/-!
# Updating a file

`apply-patch/src/file_update.rs`, `seek_sequence.rs` and `text_file.rs`: from the text of a file and
the chunks of an update hunk to the new text.

Each chunk is looked for in the lines of the file, from where the one before it ended
(`seekSequence`, four times over with ever looser notions of equality), and turned into
replacements: so many lines, from that index on, give way to these (`computeReplacements`).  The
replacements are sorted by index and carried out, in one of two ways:

* `normalizeToLf` splits the file at `\n`, carries them out from the last to the first, and joins
  with `\n`;
* `preserveLineEndings` parses the file into a `SourceFile`, whose lines have their terminators, and
  walks over it once.  Here the context lines of a chunk are not replaced by what the patch says
  they are: `contextReplacements` leaves them out.

`usize` is `ℕ`.  The subtraction in `SourceFile.applyReplacements` and the slices of
`contextReplacements` could leave the range of a `usize` or of a slice only for chunks that no
patch text gives rise to, and for replacements that overlap.
-/

namespace ApplyPatch

open Text

/-! ## Errors -/

/-- `std::io::ErrorKind`; the program tells two kinds from the others. -/
inductive ErrorKind where
  | notFound
  | invalidInput
  | other
  | unnamed (code : ℕ)
  deriving DecidableEq

/-- `std::io::Error`. -/
structure StdIoError where
  kind : ErrorKind
  message : Str
  deriving DecidableEq

/-- An error of the file system, and what was tried. -/
structure IoError where
  context : Str
  source : StdIoError
  deriving DecidableEq

/-- A `PathUriParseError` is the text it is displayed as. -/
inductive ApplyPatchError where
  | parseError (error : ParseError)
  | ioError (error : IoError)
  | computeReplacements (message : Str)
  | pathUri (message : Str)
  | implicitInvocation
  deriving DecidableEq

/-- Line ends become LF, or stay as they are. -/
inductive ApplyPatchFileUpdateMode where
  | normalizeToLf
  | preserveLineEndings

/-! ## Looking for lines -/

/-- Typographic dashes, quotes and spaces, as their plain counterparts. -/
def normaliseChar (c : Char) : Char :=
  let n := c.toNat
  if (0x2010 ≤ n && n ≤ 0x2015) || n == 0x2212 then '-'
  else if 0x2018 ≤ n && n ≤ 0x201B then '\''
  else if 0x201C ≤ n && n ≤ 0x201F then '"'
  else if n == 0xA0 || (0x2002 ≤ n && n ≤ 0x200A) || n == 0x202F || n == 0x205F || n == 0x3000 then
    ' '
  else c

/-- The last resort of a comparison: trimmed, and in plain characters. -/
def normalise (s : Str) : Str := (trim s).map normaliseChar

/-- The lines from index `i` on are those of the pattern, up to `f`. -/
def matchesAt (f : Str → Str) (lines pattern : List Str) (i : ℕ) : Bool :=
  ((lines.drop i).take pattern.length).map f = pattern.map f

/-- The first index in `searchStart ..= lines.len() - pattern.len()` with a match up to `f`. -/
def findMatch (f : Str → Str) (lines pattern : List Str) (searchStart : ℕ) : Option ℕ :=
  (List.range' searchStart (lines.length - pattern.length + 1 - searchStart)).find?
    (matchesAt f lines pattern)

/-- Where the lines are found, by comparisons that get weaker. -/
def seekSequence (lines pattern : List Str) (start : ℕ) (eof : Bool)
    (mode : ApplyPatchFileUpdateMode) : Option ℕ :=
  if pattern.isEmpty then some start
  else if lines.length < pattern.length then none
  else
    let searchStart :=
      if eof then
        let eofStart := lines.length - pattern.length
        match mode with
        | .normalizeToLf => eofStart
        | .preserveLineEndings => max eofStart start
      else start
    findMatch id lines pattern searchStart <|> findMatch trimEnd lines pattern searchStart <|>
      findMatch trim lines pattern searchStart <|> findMatch normalise lines pattern searchStart

/-! ## Replacements -/

/-- Start index, number of lines that go, lines that come. -/
abbrev Replacement := ℕ × ℕ × List Str

/-- The change after the last context line. -/
def finalReplacement (startIdx : ℕ) (pattern newSlice : List Str) (oldStart newStart : ℕ) :
    List Replacement :=
  if oldStart ≠ pattern.length ∨ newStart ≠ newSlice.length then
    [(startIdx + oldStart, pattern.length - oldStart, newSlice.drop newStart)]
  else []

/-- The changes between the context lines of a chunk found at `startIdx`.  A context line that is
on one of the slices no more ends the loop. -/
def contextReplacements (startIdx : ℕ) (pattern newSlice : List Str) :
    ℕ → ℕ → List (ℕ × ℕ) → List Replacement
  | oldStart, newStart, [] => finalReplacement startIdx pattern newSlice oldStart newStart
  | oldStart, newStart, (oldContext, newContext) :: rest =>
    if pattern.length ≤ oldContext ∨ newSlice.length ≤ newContext then
      finalReplacement startIdx pattern newSlice oldStart newStart
    else
      (if oldStart ≠ oldContext ∨ newStart ≠ newContext then
        [(startIdx + oldStart, oldContext - oldStart,
          (newSlice.drop newStart).take (newContext - newStart))]
      else []) ++
        contextReplacements startIdx pattern newSlice (oldContext + 1) (newContext + 1) rest

variable (originalLines : List Str)

/-- Where a chunk without old lines goes. -/
def insertionIdx (mode : ApplyPatchFileUpdateMode) : ℕ :=
  match mode with
  | .normalizeToLf =>
    if originalLines.getLast? = some [] then originalLines.length - 1 else originalLines.length
  | .preserveLineEndings => originalLines.length

/-- Where the old lines of a chunk are found, with the slices of old and new lines that go with it.
If they are not found and end in an empty line, they are looked for without it, and an empty line at
the end of the new lines is left out too. -/
def findChunk (chunk : UpdateFileChunk) (lineIndex : ℕ)
    (mode : ApplyPatchFileUpdateMode) : Option (ℕ × List Str × List Str) :=
  match seekSequence originalLines chunk.oldLines lineIndex chunk.isEndOfFile mode with
  | some startIdx => some (startIdx, chunk.oldLines, chunk.newLines)
  | none =>
    if chunk.oldLines.getLast? = some [] then
      let pattern := chunk.oldLines.dropLast
      let newSlice :=
        if chunk.newLines.getLast? = some [] then chunk.newLines.dropLast else chunk.newLines
      (seekSequence originalLines pattern lineIndex chunk.isEndOfFile mode).map
        fun startIdx => (startIdx, pattern, newSlice)
    else none

variable (path : Str)

/-- The line index after the `@@` line of a chunk. -/
def seekContext (chunk : UpdateFileChunk) (lineIndex : ℕ)
    (mode : ApplyPatchFileUpdateMode) : Except ApplyPatchError ℕ :=
  match chunk.changeContext with
  | none => .ok lineIndex
  | some ctxLine =>
    match seekSequence originalLines [ctxLine] lineIndex false mode with
    | some idx => .ok (idx + 1)
    | none => .error (.computeReplacements
        ("Failed to find context '" ++ ctxLine ++ "' in " ++ path))

/-- One turn of the loop of `compute_replacements`: the line index after the chunk, and the
replacements it asks for. -/
def chunkReplacements (mode : ApplyPatchFileUpdateMode)
    (lineIndex : ℕ) (chunk : UpdateFileChunk) : Except ApplyPatchError (ℕ × List Replacement) := do
  let lineIndex ← seekContext originalLines path chunk lineIndex mode
  if chunk.oldLines.isEmpty then
    return (lineIndex, [(insertionIdx originalLines mode, 0, chunk.newLines)])
  else
    match findChunk originalLines chunk lineIndex mode with
    | some (startIdx, pattern, newSlice) =>
      let replacements := match mode with
        | .normalizeToLf => [(startIdx, pattern.length, newSlice)]
        | .preserveLineEndings =>
          contextReplacements startIdx pattern newSlice 0 0 chunk.contextLineIndices
      return (startIdx + pattern.length, replacements)
    | none =>
      .error (.computeReplacements
        ("Failed to find expected lines in " ++ path ++ ":\n" ++
          joinLines chunk.oldLines))

/-- The replacements of all chunks, in the order of the chunks. -/
def collectReplacements (originalLines : List Str) (path : Str) (mode : ApplyPatchFileUpdateMode) :
    ℕ → List UpdateFileChunk → Except ApplyPatchError (List Replacement)
  | _, [] => return []
  | lineIndex, chunk :: chunks => do
    let (lineIndex, replacements) ← chunkReplacements originalLines path mode lineIndex chunk
    let rest ← collectReplacements originalLines path mode lineIndex chunks
    return replacements ++ rest

/-- `sort_by_key` is stable, and so is `insertionSort`. -/
def computeReplacements (chunks : List UpdateFileChunk)
    (mode : ApplyPatchFileUpdateMode) : Except ApplyPatchError (List Replacement) := do
  let replacements ← collectReplacements originalLines path mode 0 chunks
  return replacements.insertionSort fun r s => r.1 ≤ s.1

/-- The replacements are carried out from the last to the first, so that none moves another. -/
def applyReplacements (lines : List Str) (replacements : List Replacement) : List Str :=
  replacements.foldr (fun (startIdx, oldLen, newSegment) lines =>
    lines.take startIdx ++ newSegment ++ lines.drop (startIdx + oldLen)) lines

/-! ## Files with their line endings -/

/-- How a line ends. -/
inductive LineEnding where
  | lf
  | crLf
  | cr
  deriving DecidableEq

/-- The characters of a line end. -/
def LineEnding.asStr : LineEnding → Str
  | .lf => ['\n']
  | .crLf => ['\r', '\n']
  | .cr => ['\r']

/-- A line and its end, which the last one may not have. -/
structure SourceLine where
  text : Str
  ending : Option LineEnding
  deriving DecidableEq

/-- A line that has no ending gets this one. -/
def SourceLine.getOrInsert (line : SourceLine) (ending : LineEnding) : SourceLine :=
  { line with ending := some (line.ending.getD ending) }

/-- The lines of a file, and the line end for new ones. -/
structure SourceFile where
  lines : List SourceLine
  preferredEnding : LineEnding
  deriving DecidableEq

namespace SourceFile

/-- The lines of the rest of a text, the current line having begun with `line`. -/
def parseLines (line : Str) : Str → List SourceLine
  | [] => if line = [] then [] else [⟨line, none⟩]
  | '\r' :: '\n' :: contents => ⟨line, some .crLf⟩ :: parseLines [] contents
  | '\r' :: contents => ⟨line, some .cr⟩ :: parseLines [] contents
  | '\n' :: contents => ⟨line, some .lf⟩ :: parseLines [] contents
  | c :: contents => parseLines (line ++ [c]) contents

/-- The first line end is the one for new lines. -/
def parse (contents : Str) : SourceFile :=
  let lines := parseLines [] contents
  { lines := lines, preferredEnding := (lines.findSome? (·.ending)).getD .lf }

variable (file : SourceFile)

/-- The lines without their ends. -/
def lineTexts : List Str := file.lines.map (·.text)

/-- The walk of `apply_replacements`, from the source line with index `sourceIndex` on. -/
def replaceFrom (preferredEnding : LineEnding) :
    ℕ → List SourceLine → List Replacement → List SourceLine
  | _, sourceLines, [] => sourceLines
  | sourceIndex, sourceLines, (startIdx, oldLen, newSegment) :: rest =>
    sourceLines.take (startIdx - sourceIndex) ++
      (newSegment.map fun text => ⟨text, some preferredEnding⟩) ++
        replaceFrom preferredEnding (startIdx + oldLen)
          ((sourceLines.drop (startIdx - sourceIndex)).drop oldLen) rest

/-- The lines are replaced, and every line gets an end. -/
def applyReplacements (replacements : List Replacement) : SourceFile :=
  { file with
    lines := (replaceFrom file.preferredEnding 0 file.lines replacements).map
      (·.getOrInsert file.preferredEnding) }

/-- The text of the file. -/
def intoContents : Str :=
  file.lines.flatMap fun line => line.text ++ (line.ending.map LineEnding.asStr).getD []

end SourceFile

/-! ## The new contents -/

/-- `derive_new_contents_from_chunks` once the file has been read; `path` is its displayed path. -/
def newContentsFromChunks (path originalContents : Str) (chunks : List UpdateFileChunk)
    (mode : ApplyPatchFileUpdateMode) : Except ApplyPatchError Str :=
  match mode with
  | .normalizeToLf => do
    let split := originalContents.splitOn '\n'
    -- the element behind the final newline
    let originalLines := if split.getLast? = some [] then split.dropLast else split
    let replacements ← computeReplacements originalLines path chunks .normalizeToLf
    let newLines := applyReplacements originalLines replacements
    return joinLines (if newLines.getLast? = some [] then newLines else newLines ++ [[]])
  | .preserveLineEndings => do
    let sourceFile := SourceFile.parse originalContents
    let replacements ← computeReplacements sourceFile.lineTexts path chunks .preserveLineEndings
    return (sourceFile.applyReplacements replacements).intoContents

end ApplyPatch
