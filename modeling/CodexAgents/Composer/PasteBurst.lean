import CodexAgents.Lib.Text

/-!
# Typing and bursts of pasted text

`tui/src/bottom_pane/paste_burst.rs`, and what `chat_composer.rs` makes of it.  Some terminals
deliver a paste as a fast stream of keys.  The detector (`PasteBurst`) holds a first letter for
a moment, collects what follows fast enough in a buffer, and may take letters back out of the text
that were inserted already.  The composer applies its decisions, and inserts a buffer as it would a
paste.

The composer is its text, with the cursor at the end, and the detector.  Popups and the elements of
a text are left out.  What a large paste is replaced by, and whether a paste names an image, is
given by an environment.
-/

namespace Composer

open Text

/-! ## Detecting bursts -/

/-- A point in time, or a duration, in nanoseconds. -/
abbrev Instant := Nat

/-- Milliseconds, in nanoseconds. -/
def millis (n : Nat) : Instant := n * 1000000

/-- So many letters in a row are a paste. -/
def pasteBurstMinChars : Nat := 3

/-- How long Enter is a newline after a burst. -/
def pasteEnterSuppressWindow : Instant := millis 120

/-- The longest time between letters of a burst. -/
def pasteBurstCharInterval : Instant := millis 8

/-- How long a burst waits for the next letter. -/
def pasteBurstActiveIdleTimeout (windows : Bool) : Instant :=
  if windows then millis 60 else millis 8

/-- The largest value of a `u16`. -/
def u16Max : Nat := 2 ^ 16 - 1

/-- What is known about a burst of letters. -/
structure PasteBurst where
  lastPlainCharTime : Option Instant := none
  consecutivePlainCharBurst : Nat := 0
  burstWindowUntil : Option Instant := none
  buffer : Str := []
  active : Bool := false
  pendingFirstChar : Option (Char × Instant) := none

/-- What is done with a letter. -/
inductive CharDecision where
  | beginBuffer (retroChars : Nat)
  | bufferAppend
  | retainFirstChar
  | beginBufferFromPending

/-- What comes out of the buffer. -/
inductive FlushResult where
  | paste (text : Str)
  | typed (ch : Char)
  | none

namespace PasteBurst

variable (b : PasteBurst)

/-- Letters are being buffered. -/
def isActiveInternal : Bool := b.active || b.buffer ≠ []

/-- They are, or one is held. -/
def isActive : Bool := b.isActiveInternal || b.pendingFirstChar.isSome

variable (now : Instant)

/-- One more letter in a row, or the first of a row. -/
def notePlainChar : PasteBurst :=
  { b with
    consecutivePlainCharBurst :=
      if b.lastPlainCharTime.any fun prev => now - prev ≤ pasteBurstCharInterval then
        min (b.consecutivePlainCharBurst + 1) u16Max
      else 1
    lastPlainCharTime := some now }

/-- Enter is a newline for a while. -/
def extendWindow : PasteBurst :=
  { b with burstWindowUntil := some (now + pasteEnterSuppressWindow) }

variable (ch : Char)

/-- A letter that can be held. -/
def onPlainChar (now : Instant) : CharDecision × PasteBurst :=
  let b := b.notePlainChar now
  if b.active then (.bufferAppend, b.extendWindow now)
  else
    match b.pendingFirstChar.filter fun (_, heldAt) => now - heldAt ≤ pasteBurstCharInterval with
    | some (held, _) =>
      (.beginBufferFromPending,
        { b with active := true, pendingFirstChar := none,
                 buffer := b.buffer ++ [held] }.extendWindow now)
    | none =>
      if pasteBurstMinChars ≤ b.consecutivePlainCharBurst then
        (.beginBuffer (b.consecutivePlainCharBurst - 1), b)
      else (.retainFirstChar, { b with pendingFirstChar := some (ch, now) })

/-- A letter that is not held. -/
def onPlainCharNoHold : Option CharDecision × PasteBurst :=
  let b := b.notePlainChar now
  if b.active then (some .bufferAppend, b.extendWindow now)
  else if pasteBurstMinChars ≤ b.consecutivePlainCharBurst then
    (some (.beginBuffer (b.consecutivePlainCharBurst - 1)), b)
  else (none, b)

/-- After the timeout, what is buffered or held comes out. -/
def flushIfDue (windows : Bool) (now : Instant) : FlushResult × PasteBurst :=
  let timeout :=
    if b.isActiveInternal then pasteBurstActiveIdleTimeout windows else pasteBurstCharInterval
  if b.lastPlainCharTime.any fun t => timeout < now - t then
    if b.isActiveInternal then (.paste b.buffer, { b with active := false, buffer := [] })
    else
      match b.pendingFirstChar with
      | some (ch, _) => (.typed ch, { b with pendingFirstChar := none })
      | none => (.none, b)
  else (.none, b)

/-- The second component is unchanged if the first is false. -/
def appendNewlineIfActive : Bool × PasteBurst :=
  if b.isActive then (true, { b with buffer := b.buffer ++ ['\n'] }.extendWindow now)
  else (false, b)

/-- Enter belongs to a paste. -/
def newlineShouldInsertInsteadOfSubmit : Bool :=
  b.isActive || b.burstWindowUntil.any fun untilTime => now ≤ untilTime

/-- A letter joins the buffer. -/
def appendCharToBuffer (now : Instant) : PasteBurst :=
  { b with buffer := b.buffer ++ [ch] }.extendWindow now

/-- Nothing, if no burst is active. -/
def tryAppendCharIfActive (now : Instant) : Option PasteBurst :=
  if b.active || b.buffer ≠ [] then some (b.appendCharToBuffer ch now) else none

/-- A burst begins, with letters that were typed before. -/
def beginWithRetroGrabbed (grabbed : Str) (now : Instant) : PasteBurst :=
  { b with buffer := b.buffer ++ grabbed, active := true }.extendWindow now

/-- The index from which on the text is taken back, in letters. -/
def retroStartIndex (before : Str) (retroChars : Nat) : Nat := before.length - retroChars

/-- With the start of what is taken back. -/
def decideBeginBuffer (before : Str) (retroChars : Nat) :
    Option (Nat × PasteBurst) :=
  let start := retroStartIndex before retroChars
  let grabbed := before.drop start
  if grabbed.any isWhitespace || 16 ≤ grabbed.length then
    some (start, b.beginWithRetroGrabbed grabbed now)
  else none

/-- Everything comes out before other keys. -/
def flushBeforeModifiedInput : Option (Str × PasteBurst) :=
  if b.isActive then
    some (b.buffer ++ (b.pendingFirstChar.map Prod.fst).toList,
      { b with active := false, buffer := [], pendingFirstChar := none })
  else none

/-- A paste that is announced ends every burst. -/
def clearAfterExplicitPaste (_b : PasteBurst) : PasteBurst where
  lastPlainCharTime := none
  consecutivePlainCharBurst := 0
  burstWindowUntil := none
  buffer := []
  active := false
  pendingFirstChar := none

end PasteBurst

/-! ## Pasting -/

/-- The Unicode category `Cc`. -/
def isControl (c : Char) : Bool := c.toNat < 0x20 || (0x7F ≤ c.toNat && c.toNat < 0xA0)

/-- Line ends `\r\n` and `\r` become `\n`. -/
def normalizeLineEnds : Str → Str
  | '\r' :: '\n' :: s => '\n' :: normalizeLineEnds s
  | '\r' :: s => '\n' :: normalizeLineEnds s
  | c :: s => c :: normalizeLineEnds s
  | [] => []

/-- `sanitize_user_text`; the flag says that a CSI sequence has yet to end. -/
def sanitizeFrom : Bool → Str → Str
  | _, [] => []
  | true, c :: s => sanitizeFrom (!('@' ≤ c && c ≤ '~')) s
  | false, '\x1b' :: '[' :: s => sanitizeFrom true s
  | false, c :: s =>
    if c = '\n' ∨ c = '\t' ∨ isControl c = false then c :: sanitizeFrom false s
    else sanitizeFrom false s

/-- Without control characters and escape sequences. -/
def sanitizeUserText (s : Str) : Str := sanitizeFrom false s

/-- A longer paste becomes a placeholder. -/
def largePasteCharThreshold : Nat := 1000

/-- What the composer takes from elsewhere. -/
structure Env where
  windows : Bool
  /-- The placeholder of an image that is attached, if the paste is the path of one. -/
  handlePasteImagePath : Str → Option Str
  /-- For the number of letters, and the placeholders that there are. -/
  nextLargePastePlaceholder : Nat → List (Str × Str) → Str

/-- The text, and the burst. -/
structure ChatComposer where
  text : Str
  isBashMode : Bool := false
  pendingPastes : List (Str × Str) := []
  burst : PasteBurst := {}

namespace ChatComposer

variable (env : Env) (c : ChatComposer)

/-- A `!` in front switches to the shell. -/
def syncBashModeFromText : ChatComposer :=
  if !c.isBashMode && c.text.head? = some '!' then
    { c with text := c.text.drop 1, isBashMode := true }
  else c

/-- Text at the end. -/
def insertStr (text : Str) : ChatComposer := { c with text := c.text ++ text }.syncBashModeFromText

/-- A paste becomes a placeholder, an image, or text. -/
def handlePaste (pasted : Str) : ChatComposer :=
  let pasted := sanitizeUserText (normalizeLineEnds pasted)
  let c :=
    if largePasteCharThreshold < pasted.length then
      let placeholder := env.nextLargePastePlaceholder pasted.length c.pendingPastes
      { c with
        text := c.text ++ placeholder
        pendingPastes := c.pendingPastes ++ [(placeholder, pasted)] }
    else
      match if 1 < pasted.length then env.handlePasteImagePath pasted else none with
      | some placeholder => { c with text := c.text ++ placeholder ++ [' '] }
      | none => c.insertStr pasted
  { c with burst := c.burst.clearAfterExplicitPaste }

/-! ## Keys -/

/-- The timeout of a burst. -/
def handlePasteBurstFlush (now : Instant) : ChatComposer :=
  match c.burst.flushIfDue env.windows now with
  | (.paste pasted, burst) => { c with burst }.handlePaste env pasted
  | (.typed ch, burst) => { c with burst }.insertStr [ch]
  | (.none, burst) => { c with burst }

/-- What was buffered is pasted. -/
def flushBeforeModifiedInput : ChatComposer :=
  match c.burst.flushBeforeModifiedInput with
  | some (pasted, burst) => { c with burst }.handlePaste env pasted
  | none => c

variable (ch : Char) (now : Instant)

/-- The letters before the cursor are taken back, unless that is declined. -/
def beginBuffer (retroChars : Nat) : Option ChatComposer :=
  (c.burst.decideBeginBuffer now c.text retroChars).map fun (start, burst) =>
    { c with text := c.text.take start, burst := burst.appendCharToBuffer ch now }

/-- What the detector has is pasted first; placeholders that are not in the text are dropped. -/
def insertFlushed : ChatComposer :=
  let c := c.flushBeforeModifiedInput env
  let textAfter := c.text ++ [ch]
  { c with
    text := textAfter
    pendingPastes := c.pendingPastes.filter fun (placeholder, _) => placeholder <:+: textAfter }

/-- `handle_non_ascii_char`, after the flush. -/
def insertNonAsciiChar : ChatComposer :=
  let (decision, burst) := c.burst.onPlainCharNoHold now
  let c := { c with burst }
  match decision with
  | some .bufferAppend => { c with burst := c.burst.appendCharToBuffer ch now }
  | some (.beginBuffer retroChars) =>
    (c.beginBuffer ch now retroChars).getD (c.insertFlushed env ch)
  | _ => c.insertFlushed env ch

/-- A letter that is not held. -/
def handleNonAsciiChar : ChatComposer :=
  match c.burst.tryAppendCharIfActive ch now with
  | some burst => { c with burst }
  | none => (c.flushBeforeModifiedInput env).insertNonAsciiChar env ch now

/-- A letter that may be held. -/
def handleAsciiChar : ChatComposer :=
  let (decision, burst) := c.burst.onPlainChar ch now
  let c := { c with burst }
  match decision with
  | .bufferAppend | .beginBufferFromPending => { c with burst := c.burst.appendCharToBuffer ch now }
  | .beginBuffer retroChars =>
    (c.beginBuffer ch now retroChars).getD
      (let c := c.flushBeforeModifiedInput env
       { c with text := c.text ++ [ch] }.syncBashModeFromText)
  | .retainFirstChar => c

/-- `handle_input_basic_with_time` for a plain letter. -/
def handleChar : ChatComposer :=
  let c := c.handlePasteBurstFlush env now
  if ch.toNat < 128 then c.handleAsciiChar env ch now else c.handleNonAsciiChar env ch now

/-- `handle_input_basic_with_time` for Enter, where that is not the key to submit. -/
def handleEnter : ChatComposer :=
  let c := c.handlePasteBurstFlush env now
  match c.burst.appendNewlineIfActive now with
  | (true, burst) => { c with burst }
  | (false, _) => { c with text := c.text ++ ['\n'] }.syncBashModeFromText

/-- `handle_submission_with_time`, up to where Enter is no longer taken as a newline. -/
def handleSubmission (shouldQueue inSlashContext : Bool) (now : Instant) : Option ChatComposer :=
  if shouldQueue || inSlashContext then none
  else
    match c.burst.appendNewlineIfActive now with
    | (true, burst) => some { c with burst }
    | (false, _) =>
      if c.burst.newlineShouldInsertInsteadOfSubmit now then
        some { c with text := c.text ++ ['\n'], burst := c.burst.extendWindow now }
      else none

end ChatComposer

/-! ## Runs -/

/-- A key, or a tick of the clock. -/
inductive Event where
  | char (ch : Char) (now : Instant)
  /-- Enter, where it is not the key to submit. -/
  | enter (now : Instant)
  /-- Enter, where it is the key to submit. -/
  | submit (shouldQueue inSlashContext : Bool) (now : Instant)
  | tick (now : Instant)

namespace Event

/-- When it happens. -/
def time : Event → Instant
  | char _ now | enter now | submit _ _ now | tick now => now

/-- What is typed. -/
def typed : Event → Str
  | char ch _ => [ch]
  | enter _ | submit _ _ _ => ['\n']
  | tick _ => []

end Event

/-- The composer is not followed beyond a submission. -/
def ChatComposer.step (env : Env) (c : ChatComposer) : Event → ChatComposer
  | .char ch now => c.handleChar env ch now
  | .enter now => c.handleEnter env now
  | .submit shouldQueue inSlashContext now =>
    (c.handleSubmission shouldQueue inSlashContext now).getD c
  | .tick now => c.handlePasteBurstFlush env now

end Composer
