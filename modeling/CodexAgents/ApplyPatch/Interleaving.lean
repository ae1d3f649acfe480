import CodexAgents.ApplyPatch.Parser

/-!
# The body of a chunk as one list of lines

A chunk of an update hunk is written as one list of lines, each of which is context, added or
removed.  What an `UpdateFileChunk` keeps of it are three projections: the old side, the new side,
and, for each context line, its position on either side.  This file has the list itself — an
`Interleaving` — the projections, and `foldl_push`: adding the lines one by one, the way the parser
does, arrives at the projections.
-/

namespace ApplyPatch

open Text

/-- The three kinds of body line of an update hunk. -/
inductive LineKind where
  | context
  | add
  | remove
  deriving DecidableEq

/-- The character that marks a body line. -/
def LineKind.mark : LineKind → Char
  | .context => ' '
  | .add => '+'
  | .remove => '-'

/-- What a body line adds to the chunk it belongs to. -/
def LineKind.push (k : LineKind) (text : Str) (chunk : UpdateFileChunk) : UpdateFileChunk :=
  match k with
  | .context => chunk.pushContextLine text
  | .add => { chunk with newLines := chunk.newLines ++ [text] }
  | .remove => { chunk with oldLines := chunk.oldLines ++ [text] }

/-- The lines of a chunk, in the order they are written. -/
abbrev Interleaving := List (LineKind × Str)

namespace Interleaving

variable (body : Interleaving)

/-- The texts of the lines that are on the old side: context and removed lines. -/
def oldSide : List Str := (body.filter fun l => l.1 ≠ .add).map Prod.snd

/-- The texts of the lines that are on the new side: context and added lines. -/
def newSide : List Str := (body.filter fun l => l.1 ≠ .remove).map Prod.snd

/-- Where the context lines are on either side, if `i` lines precede the body on the old side and
`j` on the new one. -/
def contextIndices : ℕ → ℕ → Interleaving → List (ℕ × ℕ)
  | _, _, [] => []
  | i, j, (.context, _) :: body => (i, j) :: contextIndices (i + 1) (j + 1) body
  | i, j, (.add, _) :: body => contextIndices i (j + 1) body
  | i, j, (.remove, _) :: body => contextIndices (i + 1) j body

/-- The chunk with the given header, body and end-of-file flag. -/
def toChunk (header : Option Str) (endOfFile : Bool) : UpdateFileChunk where
  changeContext := header
  oldLines := oldSide body
  newLines := newSide body
  contextLineIndices := contextIndices 0 0 body
  isEndOfFile := endOfFile

variable (t : Str)

@[simp] lemma oldSide_nil : oldSide [] = [] := rfl

@[simp] lemma newSide_nil : newSide [] = [] := rfl

@[simp] lemma oldSide_cons_context (body : Interleaving) :
    oldSide ((.context, t) :: body) = t :: oldSide body := rfl

@[simp] lemma oldSide_cons_add (body : Interleaving) :
    oldSide ((.add, t) :: body) = oldSide body := rfl

@[simp] lemma oldSide_cons_remove (body : Interleaving) :
    oldSide ((.remove, t) :: body) = t :: oldSide body := rfl

@[simp] lemma newSide_cons_context (body : Interleaving) :
    newSide ((.context, t) :: body) = t :: newSide body := rfl

@[simp] lemma newSide_cons_add (body : Interleaving) :
    newSide ((.add, t) :: body) = t :: newSide body := rfl

@[simp] lemma newSide_cons_remove (body : Interleaving) :
    newSide ((.remove, t) :: body) = newSide body := rfl

/-- **Adding the lines of a body one by one gives its projections.** -/
theorem foldl_push (chunk : UpdateFileChunk) :
    body.foldl (fun c l => l.1.push l.2 c) chunk = { chunk with
        oldLines := chunk.oldLines ++ oldSide body
        newLines := chunk.newLines ++ newSide body
        contextLineIndices := chunk.contextLineIndices ++
          contextIndices chunk.oldLines.length chunk.newLines.length body } := by
  induction body generalizing chunk with
  | nil => simp [contextIndices]
  | cons l body ih =>
    obtain ⟨k, t⟩ := l
    rw [List.foldl_cons, ih]
    cases k <;> simp [LineKind.push, UpdateFileChunk.pushContextLine, contextIndices]

/-- The same for a chunk that has only a header so far. -/
lemma foldl_push_header (header : Option Str) :
    body.foldl (fun c l => l.1.push l.2 c) { changeContext := header } =
      body.toChunk header false := by
  rw [foldl_push]
  rfl

/-- A body with a line in it gives a chunk with a line in it. -/
lemma toChunk_isEmpty {body : Interleaving} (h : body ≠ []) (header : Option Str) (eof : Bool) :
    (body.toChunk header eof).isEmpty = false := by
  obtain ⟨⟨k, t⟩, body', rfl⟩ := List.exists_cons_of_ne_nil h
  cases k <;> simp [UpdateFileChunk.isEmpty, toChunk]

end Interleaving

/-- A chunk as it is written: its header, its lines in order, and the end-of-file flag. -/
structure WrittenChunk where
  header : Option Str
  body : Interleaving
  endOfFile : Bool

/-- What is kept of a chunk. -/
def WrittenChunk.toChunk (w : WrittenChunk) : UpdateFileChunk := w.body.toChunk w.header w.endOfFile

end ApplyPatch
