import CodexAgents.Composer.PasteBurst
import CodexAgents.Lib.Run

/-!
# What is typed reaches the text

The detector of bursts moves letters about: a letter is held, buffered, or taken back out of the
text.  At any time it is in one of three phases (`Phase`): it has nothing, it holds one letter, or
it fills a buffer; and in each of them the text, followed by what the detector has, is what was
typed, in order.

One step does not keep this.  `append_newline_if_active` also appends to the buffer when no burst is
active and a first letter is held: the newline is then in front of the letter.  If a burst follows
they change places, and if not the buffer is flushed as a paste, which drops the letter
(`held_letter_is_lost`).  In a run in which no Enter finds a letter held, all that is typed is in
the text in the end (`typed_text_complete`).
-/

namespace Composer

open Text List Option ChatComposer PasteBurst

/-! ## Pasting plain text -/

/-- Of what is typed after `initial`, no piece is changed when it is pasted. -/
structure Plain (env : Env) (isBashMode : Bool) (initial typed : Str) : Prop where
  letters : ∀ ch ∈ typed, ch = '\n' ∨ isControl ch = false
  size : typed.length ≤ largePasteCharThreshold
  noImage : ∀ piece, piece <:+: typed → 1 < piece.length → env.handlePasteImagePath piece = none
  noBang : isBashMode = true ∨ (initial ++ typed).head? ≠ some '!'

variable {s : Str}

lemma normalizeLineEnds_eq_self (h : '\r' ∉ s) : normalizeLineEnds s = s := by
  fun_induction normalizeLineEnds s with
  | case1 | case2 => simp at h
  | case3 c s h1 h2 ih => rw [ih (fun hs => h (mem_cons_of_mem _ hs))]
  | case4 => rfl

lemma sanitizeUserText_eq_self (h : ∀ ch ∈ s, ch = '\n' ∨ isControl ch = false) :
    sanitizeUserText s = s := by
  unfold sanitizeUserText
  induction s with
  | nil => rfl
  | cons c s ih =>
    have hc := h c mem_cons_self
    have hesc : c ≠ '\x1b' := by
      rintro rfl
      exact absurd hc (by decide)
    rw [sanitizeFrom, if_pos, ih (fun ch hch => h ch (mem_cons_of_mem _ hch))]
    · obtain hc | hc := hc
      · exact .inl hc
      · exact .inr (.inr hc)
    · intro s' hc'
      exact absurd hc' hesc

variable {env : Env} {isBashMode : Bool} {c : ChatComposer}

namespace ChatComposer

variable {initial typed flushed : Str}

/-- Text that does not begin with `!` does not turn bash mode on. -/
lemma syncBashModeFromText_eq_self (hplain : Plain env isBashMode initial typed)
    (hmode : c.isBashMode = isBashMode) (htext : c.text = initial ++ flushed)
    (hflushed : flushed <+: typed) : c.syncBashModeFromText = c := by
  unfold syncBashModeFromText
  rw [if_neg]
  intro hbang
  obtain ⟨hbash, hhead⟩ := (Bool.and_eq_true _ _).mp hbang
  obtain hnot | hnot := hplain.noBang
  · rw [hmode, hnot] at hbash
    exact absurd hbash (by decide)
  · refine hnot ?_
    obtain ⟨rest, rfl⟩ := hflushed
    rw [← append_assoc, ← htext, head?_append, of_decide_eq_true hhead, some_or]

variable {piece : Str} (hplain : Plain env isBashMode initial typed)
  (hmode : c.isBashMode = isBashMode) (htext : c.text = initial ++ flushed)
  (hpiece : flushed ++ piece <+: typed)
include hplain hmode htext hpiece

lemma insertStr_eq : c.insertStr piece = { c with text := initial ++ (flushed ++ piece) } := by
  unfold insertStr
  rw [htext, append_assoc]
  exact syncBashModeFromText_eq_self hplain hmode rfl hpiece

lemma handlePaste_eq :
    c.handlePaste env piece = { c with text := initial ++ (flushed ++ piece), burst := {} } := by
  have hwithin : piece <:+: typed := by
    obtain ⟨rest, hrest⟩ := hpiece
    exact ⟨flushed, rest, hrest⟩
  have hletters : ∀ ch ∈ piece, ch = '\n' ∨ isControl ch = false :=
    fun ch hch => hplain.letters ch (hwithin.subset hch)
  have hcr : '\r' ∉ piece := fun hmem => absurd (hletters _ hmem) (by decide)
  unfold handlePaste
  rw [normalizeLineEnds_eq_self hcr, sanitizeUserText_eq_self hletters]
  dsimp only
  rw [if_neg (Nat.not_lt.mpr (hwithin.length_le.trans hplain.size))]
  have himage : (if 1 < piece.length then env.handlePasteImagePath piece else none) = none := by
    split
    · exact hplain.noImage piece hwithin ‹_›
    · rfl
  rw [himage]
  dsimp only
  rw [insertStr_eq hplain hmode htext hpiece]
  rfl

end ChatComposer

/-! ## The phases of the detector -/

/-- The text and what the detector has is `initial ++ typed`. -/
inductive Phase (initial typed : Str) (c : ChatComposer) : Prop where
  | idle (htext : c.text = initial ++ typed) (hactive : c.burst.active = false)
      (hbuffer : c.burst.buffer = []) (hpending : c.burst.pendingFirstChar = none)
  | holding (rest : Str) (ch : Char) (heldAt : Instant) (htyped : typed = rest ++ [ch])
      (htext : c.text = initial ++ rest) (hactive : c.burst.active = false)
      (hbuffer : c.burst.buffer = []) (hpending : c.burst.pendingFirstChar = some (ch, heldAt))
      (hlast : c.burst.lastPlainCharTime = some heldAt)
  | buffering (flushed : Str) (htyped : typed = flushed ++ c.burst.buffer)
      (htext : c.text = initial ++ flushed) (hactive : c.burst.active = true)
      (hpending : c.burst.pendingFirstChar = none)
      (hlast : c.burst.lastPlainCharTime.isSome)

/-- **The invariant** of a run all of whose events are well before the deadline. -/
structure Follows (env : Env) (isBashMode : Bool) (deadline : Instant) (initial typed : Str)
    (c : ChatComposer) : Prop where
  phase : Phase initial typed c
  mode : c.isBashMode = isBashMode
  counted : c.burst.consecutivePlainCharBurst ≤ typed.length
  recent : ∀ t, c.burst.lastPlainCharTime = some t →
    t + pasteBurstActiveIdleTimeout env.windows < deadline

/-! ## What the detector decides in each phase -/

variable {heldAt : Instant}

namespace PasteBurst

variable {b : PasteBurst}

lemma consecutivePlainCharBurst_notePlainChar_le (b : PasteBurst) (now : Instant) :
    (b.notePlainChar now).consecutivePlainCharBurst ≤ b.consecutivePlainCharBurst + 1 := by
  simp only [notePlainChar]
  split
  · exact min_le_left _ _
  · exact Nat.le_add_left _ _

lemma flushIfDue_idle (hactive : b.active = false) (hbuffer : b.buffer = [])
    (hpending : b.pendingFirstChar = none) (windows : Bool) (now : Instant) :
    b.flushIfDue windows now = (.none, b) := by
  simp [flushIfDue, isActiveInternal, hactive, hbuffer, hpending]

lemma flushIfDue_holding (hactive : b.active = false) (hbuffer : b.buffer = []) {ch}
    (hpending : b.pendingFirstChar = some (ch, heldAt))
    (hlast : b.lastPlainCharTime = some heldAt) (windows : Bool) (now : Instant) :
    b.flushIfDue windows now =
      if pasteBurstCharInterval < now - heldAt then (.typed ch, { b with pendingFirstChar := none })
      else (.none, b) := by
  simp [flushIfDue, isActiveInternal, hactive, hbuffer, hpending, hlast]

lemma flushIfDue_buffering (hactive : b.active) {t}
    (hlast : b.lastPlainCharTime = some t) (windows : Bool) (now : Instant) :
    b.flushIfDue windows now = if pasteBurstActiveIdleTimeout windows < now - t then
        (.paste b.buffer, { b with active := false, buffer := [] })
      else (.none, b) := by
  simp [flushIfDue, isActiveInternal, hactive, hlast]

lemma onPlainChar_idle (hactive : b.active = false) (hpending : b.pendingFirstChar = none)
    (ch : Char) (now : Instant) :
    b.onPlainChar ch now =
      if pasteBurstMinChars ≤ (b.notePlainChar now).consecutivePlainCharBurst then
        (.beginBuffer ((b.notePlainChar now).consecutivePlainCharBurst - 1), b.notePlainChar now)
      else
        (.retainFirstChar, { b.notePlainChar now with pendingFirstChar := some (ch, now) }) := by
  have hactive' : (b.notePlainChar now).active = false := hactive
  have hpending' : (b.notePlainChar now).pendingFirstChar = none := hpending
  simp [onPlainChar, hactive', hpending']

lemma onPlainChar_holding (hactive : b.active = false) {held now}
    (hpending : b.pendingFirstChar = some (held, heldAt))
    (hfast : now - heldAt ≤ pasteBurstCharInterval) (ch : Char) :
    b.onPlainChar ch now = (.beginBufferFromPending, { b.notePlainChar now with
          active := true, pendingFirstChar := none, buffer := b.buffer ++ [held] }.extendWindow
            now) := by
  have hactive' : (b.notePlainChar now).active = false := hactive
  have hpending' : (b.notePlainChar now).pendingFirstChar = some (held, heldAt) := hpending
  simp only [onPlainChar, hactive', hpending', filter_some, decide_eq_true hfast, if_true,
    Bool.false_eq_true, if_false]
  rfl

lemma onPlainChar_buffering (hactive : b.active) (ch : Char) (now : Instant) :
    b.onPlainChar ch now = (.bufferAppend, (b.notePlainChar now).extendWindow now) := by
  have hactive' : (b.notePlainChar now).active := hactive
  simp [onPlainChar, hactive']

lemma onPlainCharNoHold_idle (hactive : b.active = false) (now : Instant) :
    b.onPlainCharNoHold now =
      (if pasteBurstMinChars ≤ (b.notePlainChar now).consecutivePlainCharBurst then
        some (.beginBuffer ((b.notePlainChar now).consecutivePlainCharBurst - 1))
      else none, b.notePlainChar now) := by
  have hactive' : (b.notePlainChar now).active = false := hactive
  simp only [onPlainCharNoHold, hactive', Bool.false_eq_true, if_false]
  split <;> rfl

lemma tryAppendCharIfActive_not (hactive : b.active = false) (hbuffer : b.buffer = []) (ch : Char)
    (now : Instant) : b.tryAppendCharIfActive ch now = none := by
  simp [tryAppendCharIfActive, hactive, hbuffer]

lemma tryAppendCharIfActive_buffering (hactive : b.active) (ch : Char) (now : Instant) :
    b.tryAppendCharIfActive ch now = some (b.appendCharToBuffer ch now) := by
  simp [tryAppendCharIfActive, hactive]

lemma isActive_idle (hactive : b.active = false) (hbuffer : b.buffer = [])
    (hpending : b.pendingFirstChar = none) : b.isActive = false := by
  simp [isActive, isActiveInternal, hactive, hbuffer, hpending]

lemma isActive_of_active (hactive : b.active) : b.isActive := by
  simp [isActive, isActiveInternal, hactive]

end PasteBurst

variable {ch : Char}

namespace ChatComposer

variable {initial typed rest flushed : Str}

lemma flushBeforeModifiedInput_idle (hactive : c.burst.active = false)
    (hbuffer : c.burst.buffer = []) (hpending : c.burst.pendingFirstChar = none) :
    c.flushBeforeModifiedInput env = c := by
  rw [flushBeforeModifiedInput, PasteBurst.flushBeforeModifiedInput,
    isActive_idle hactive hbuffer hpending]
  rfl

lemma flushBeforeModifiedInput_holding (hplain : Plain env isBashMode initial typed)
    (hmode : c.isBashMode = isBashMode) (htyped : rest ++ [ch] <+: typed)
    (htext : c.text = initial ++ rest) (hbuffer : c.burst.buffer = [])
    (hpending : c.burst.pendingFirstChar = some (ch, heldAt)) :
    c.flushBeforeModifiedInput env = { c with text := initial ++ (rest ++ [ch]), burst := {} } := by
  have hactive : c.burst.isActive := by
    rw [isActive, hpending]
    exact Bool.or_true _
  rw [flushBeforeModifiedInput, PasteBurst.flushBeforeModifiedInput, hactive, if_pos rfl, hbuffer,
    hpending]
  exact handlePaste_eq
    (c := { c with
      burst := { c.burst with active := false, buffer := [], pendingFirstChar := none } })
    hplain hmode htext htyped

lemma flush_idle (hactive : c.burst.active = false) (hbuffer : c.burst.buffer = [])
    (hpending : c.burst.pendingFirstChar = none) (now : Instant) :
    c.handlePasteBurstFlush env now = c := by
  rw [handlePasteBurstFlush, flushIfDue_idle hactive hbuffer hpending]

variable (hplain : Plain env isBashMode initial typed) (hmode : c.isBashMode = isBashMode)
include hplain hmode

lemma flush_holding (htyped : rest ++ [ch] <+: typed)
    (htext : c.text = initial ++ rest) (hactive : c.burst.active = false)
    (hbuffer : c.burst.buffer = []) (hpending : c.burst.pendingFirstChar = some (ch, heldAt))
    (hlast : c.burst.lastPlainCharTime = some heldAt) (now : Instant) :
    c.handlePasteBurstFlush env now = if pasteBurstCharInterval < now - heldAt then
        { c with text := initial ++ (rest ++ [ch])
                 burst := { c.burst with pendingFirstChar := none } }
      else c := by
  rw [handlePasteBurstFlush, flushIfDue_holding hactive hbuffer hpending hlast]
  by_cases hdue : pasteBurstCharInterval < now - heldAt
  · rw [if_pos hdue, if_pos hdue]
    exact insertStr_eq (c := { c with burst := { c.burst with pendingFirstChar := none } })
      hplain hmode htext htyped
  · rw [if_neg hdue, if_neg hdue]

lemma flush_buffering (htyped : flushed ++ c.burst.buffer <+: typed)
    (htext : c.text = initial ++ flushed) (hactive : c.burst.active) {t}
    (hlast : c.burst.lastPlainCharTime = some t) (now : Instant) :
    c.handlePasteBurstFlush env now = if pasteBurstActiveIdleTimeout env.windows < now - t then
        { c with text := initial ++ (flushed ++ c.burst.buffer), burst := {} }
      else c := by
  rw [handlePasteBurstFlush, flushIfDue_buffering hactive hlast]
  by_cases hdue : pasteBurstActiveIdleTimeout env.windows < now - t
  · rw [if_pos hdue, if_pos hdue]
    exact handlePaste_eq (c := { c with burst := { c.burst with active := false, buffer := [] } })
      hplain hmode htext htyped
  · rw [if_neg hdue, if_neg hdue]

end ChatComposer

variable {deadline : Instant} {initial typed all : Str}

namespace Follows

/-! ## Flushing -/

/-- A flush keeps the invariant, and a letter that is still held is not due. -/
lemma flush (hplain : Plain env isBashMode initial all) (htyped : typed <+: all)
    (h : Follows env isBashMode deadline initial typed c) (now : Instant) :
    Follows env isBashMode deadline initial typed (c.handlePasteBurstFlush env now) ∧
      ∀ held, (c.handlePasteBurstFlush env now).burst.pendingFirstChar = some held →
        now - held.2 ≤ pasteBurstCharInterval := by
  rcases h.phase with ⟨htext, hactive, hbuffer, hpending⟩ |
    ⟨rest, ch, heldAt, rfl, htext, hactive, hbuffer, hpending, hlast⟩ |
    ⟨flushed, rfl, htext, hactive, hpending, hlast⟩
  · rw [flush_idle hactive hbuffer hpending]
    refine ⟨h, fun held hheld => ?_⟩
    rw [hpending] at hheld
    cases hheld
  · rw [flush_holding hplain h.mode htyped htext hactive hbuffer hpending hlast]
    split
    · refine ⟨⟨.idle rfl hactive hbuffer rfl, h.mode, h.counted, h.recent⟩, fun held hheld => ?_⟩
      cases hheld
    · refine ⟨h, fun held hheld => ?_⟩
      obtain rfl := some.inj (hpending.symm.trans hheld)
      exact Nat.not_lt.mp ‹_›
  · obtain ⟨t, ht⟩ := isSome_iff_exists.mp hlast
    rw [flush_buffering hplain h.mode htyped htext hactive ht]
    split
    · refine ⟨⟨.idle rfl rfl rfl rfl, h.mode, Nat.zero_le _, fun t' ht' => ?_⟩,
        fun held hheld => ?_⟩
      · cases ht'
      · cases hheld
    · refine ⟨h, fun held hheld => ?_⟩
      rw [hpending] at hheld
      cases hheld

/-- **A flush that comes late enough leaves nothing to the detector.** -/
theorem text_flush_of_late {now} (hplain : Plain env isBashMode initial typed)
    (h : Follows env isBashMode now initial typed c) :
    (c.handlePasteBurstFlush env now).text = initial ++ typed := by
  have hinterval : pasteBurstCharInterval ≤ pasteBurstActiveIdleTimeout env.windows := by
    cases env.windows <;> decide
  rcases h.phase with ⟨htext, hactive, hbuffer, hpending⟩ |
    ⟨rest, ch, heldAt, rfl, htext, hactive, hbuffer, hpending, hlast⟩ |
    ⟨flushed, rfl, htext, hactive, hpending, hlast⟩
  · rw [flush_idle hactive hbuffer hpending]
    exact htext
  · have hlate : pasteBurstCharInterval < now - heldAt :=
      hinterval.trans_lt (Nat.lt_sub_iff_add_lt'.mpr (h.recent heldAt hlast))
    rw [flush_holding hplain h.mode prefix_rfl htext hactive hbuffer hpending
      hlast, if_pos hlate]
  · obtain ⟨t, ht⟩ := isSome_iff_exists.mp hlast
    rw [flush_buffering hplain h.mode prefix_rfl htext hactive ht,
      if_pos (Nat.lt_sub_iff_add_lt'.mpr (h.recent t ht))]

/-! ## Letters -/

variable {now : Instant} {c' : ChatComposer}

/-- Letters that were typed are taken back from the text, and none of `initial`. -/
lemma beginBuffer (htext : c.text = initial ++ typed) (hbuffer : c.burst.buffer = [])
    (hpending : c.burst.pendingFirstChar = none) (hlast : c.burst.lastPlainCharTime.isSome)
    {retroChars} (hretro : retroChars ≤ typed.length)
    (h : c.beginBuffer ch now retroChars = some c') :
    Phase initial (typed ++ [ch]) c' ∧ c'.isBashMode = c.isBashMode ∧
      c'.burst.consecutivePlainCharBurst = c.burst.consecutivePlainCharBurst ∧
      c'.burst.lastPlainCharTime = c.burst.lastPlainCharTime := by
  obtain ⟨⟨start, burst⟩, hdecide, rfl⟩ := map_eq_some_iff.mp h
  unfold decideBeginBuffer at hdecide
  obtain ⟨-, heq⟩ := ite_none_right_eq_some.mp hdecide
  obtain ⟨rfl, rfl⟩ := Prod.mk.inj (some.inj heq)
  have hstart : retroStartIndex c.text retroChars =
      initial.length + (typed.length - retroChars) := by
    rw [retroStartIndex, htext, length_append]
    omega
  refine ⟨.buffering (typed.take (typed.length - retroChars)) ?_ ?_ rfl hpending hlast, rfl, rfl,
    rfl⟩
  · show typed ++ [ch] = _ ++ (c.burst.buffer ++ drop _ c.text ++ [ch])
    rw [hbuffer, hstart, htext, drop_length_add_append, nil_append, ← append_assoc,
      take_append_drop]
  · show take _ c.text = _
    rw [hstart, htext, take_length_add_append]

lemma recent_of_noted (hnow : now + pasteBurstActiveIdleTimeout env.windows < deadline)
    {t} (ht : some now = some t) :
    t + pasteBurstActiveIdleTimeout env.windows < deadline := by
  obtain rfl := some.inj ht
  exact hnow

variable (h : Follows env isBashMode deadline initial typed c)
include h

lemma counted_append (piece : Str) :
    c.burst.consecutivePlainCharBurst ≤ (typed ++ piece).length := by
  rw [length_append]
  exact h.counted.trans (Nat.le_add_right _ _)

lemma counted_notePlainChar (ch : Char) (now : Instant) :
    (c.burst.notePlainChar now).consecutivePlainCharBurst ≤ (typed ++ [ch]).length := by
  rw [length_append]
  exact (consecutivePlainCharBurst_notePlainChar_le _ _).trans
    (Nat.add_le_add_right h.counted 1)

section

variable (hnow : now + pasteBurstActiveIdleTimeout env.windows < deadline)
include hnow

/-- A burst begins with what is taken back, unless that is declined and the letter inserted. -/
lemma beginBuffer_getD (htext : c.text = initial ++ typed) (hbuffer : c.burst.buffer = [])
    (hpending : c.burst.pendingFirstChar = none) {otherwise}
    (hotherwise : Follows env isBashMode deadline initial (typed ++ [ch]) otherwise) :
    Follows env isBashMode deadline initial (typed ++ [ch])
      ((ChatComposer.beginBuffer { c with burst := c.burst.notePlainChar now } ch now
        ((c.burst.notePlainChar now).consecutivePlainCharBurst - 1)).getD otherwise) := by
  have hcounted := h.counted_notePlainChar ch now
  rcases hbegin : ChatComposer.beginBuffer { c with burst := c.burst.notePlainChar now } ch now
    ((c.burst.notePlainChar now).consecutivePlainCharBurst - 1) with _ | c'
  · exact hotherwise
  · obtain ⟨hphase, hmode, hcount, hlast⟩ := beginBuffer
      (c := { c with burst := c.burst.notePlainChar now }) htext hbuffer hpending rfl
      (Nat.sub_le_of_le_add (hcounted.trans_eq length_append)) hbegin
    exact ⟨hphase, hmode.trans h.mode, hcount.trans_le hcounted,
      fun t ht => recent_of_noted hnow (hlast.symm.trans ht)⟩

lemma handleAsciiChar (hplain : Plain env isBashMode initial all) (htyped : typed ++ [ch] <+: all)
    (hheld : ∀ held, c.burst.pendingFirstChar = some held → now - held.2 ≤ pasteBurstCharInterval) :
    Follows env isBashMode deadline initial (typed ++ [ch]) (c.handleAsciiChar env ch now) := by
  have hcounted := h.counted_notePlainChar ch now
  have hrecent : ∀ t, some now = some t → t + pasteBurstActiveIdleTimeout env.windows < deadline :=
    fun t ht => recent_of_noted hnow ht
  unfold ChatComposer.handleAsciiChar
  rcases h.phase with ⟨htext, hactive, hbuffer, hpending⟩ |
    ⟨rest, held, heldAt, rfl, htext, hactive, hbuffer, hpending, hlast⟩ |
    ⟨flushed, rfl, htext, hactive, hpending, hlast⟩
  · rw [onPlainChar_idle hactive hpending]
    by_cases hmin : pasteBurstMinChars ≤ (c.burst.notePlainChar now).consecutivePlainCharBurst
    · rw [if_pos hmin]
      refine h.beginBuffer_getD hnow htext hbuffer hpending ?_
      rw [flushBeforeModifiedInput_idle
        (c := { c with burst := c.burst.notePlainChar now }) hactive hbuffer hpending]
      dsimp only
      rw [htext, append_assoc, syncBashModeFromText_eq_self
        (c := ⟨initial ++ (typed ++ [ch]), _, _, _⟩) hplain h.mode rfl htyped]
      exact ⟨.idle rfl hactive hbuffer hpending, h.mode, hcounted, hrecent⟩
    · rw [if_neg hmin]
      exact ⟨.holding typed ch now rfl htext hactive hbuffer rfl rfl, h.mode, hcounted, hrecent⟩
  · rw [onPlainChar_holding hactive hpending (hheld _ hpending)]
    refine ⟨.buffering rest ?_ htext rfl rfl rfl, h.mode, hcounted, hrecent⟩
    show rest ++ [held] ++ [ch] = rest ++ (c.burst.buffer ++ [held] ++ [ch])
    rw [hbuffer, nil_append, append_assoc]
  · rw [onPlainChar_buffering hactive]
    exact ⟨.buffering flushed (append_assoc _ _ _) htext hactive hpending rfl, h.mode,
      hcounted, hrecent⟩

/-- An idle composer inserts a letter that is not ASCII, or begins a burst with it. -/
lemma handleNonAsciiChar_idle (htext : c.text = initial ++ typed) (hactive : c.burst.active = false)
    (hbuffer : c.burst.buffer = []) (hpending : c.burst.pendingFirstChar = none) (ch : Char) :
    Follows env isBashMode deadline initial (typed ++ [ch])
      (c.insertNonAsciiChar env ch now) := by
  unfold insertNonAsciiChar
  rw [onPlainCharNoHold_idle hactive]
  have hinsert : Follows env isBashMode deadline initial (typed ++ [ch])
      (insertFlushed env { c with burst := c.burst.notePlainChar now } ch) := by
    unfold insertFlushed
    rw [flushBeforeModifiedInput_idle
      (c := { c with burst := c.burst.notePlainChar now }) hactive hbuffer hpending]
    refine ⟨.idle ?_ hactive hbuffer hpending, h.mode, h.counted_notePlainChar ch now,
      fun t ht => recent_of_noted hnow ht⟩
    show c.text ++ [ch] = _
    rw [htext, append_assoc]
  by_cases hmin : pasteBurstMinChars ≤ (c.burst.notePlainChar now).consecutivePlainCharBurst
  · rw [if_pos hmin]
    exact h.beginBuffer_getD hnow htext hbuffer hpending hinsert
  · rw [if_neg hmin]
    exact hinsert

variable (hplain : Plain env isBashMode initial all) (htyped : typed ++ [ch] <+: all)
include hplain htyped

lemma handleNonAsciiChar :
    Follows env isBashMode deadline initial (typed ++ [ch]) (c.handleNonAsciiChar env ch now) := by
  have htyped' : typed <+: all := (prefix_append _ _).trans htyped
  unfold ChatComposer.handleNonAsciiChar
  rcases h.phase with ⟨htext, hactive, hbuffer, hpending⟩ |
    ⟨rest, held, heldAt, rfl, htext, hactive, hbuffer, hpending, hlast⟩ |
    ⟨flushed, rfl, htext, hactive, hpending, hlast⟩
  · rw [tryAppendCharIfActive_not hactive hbuffer]
    dsimp only
    rw [flushBeforeModifiedInput_idle hactive hbuffer hpending]
    exact h.handleNonAsciiChar_idle hnow htext hactive hbuffer hpending ch
  · rw [tryAppendCharIfActive_not hactive hbuffer]
    dsimp only
    rw [flushBeforeModifiedInput_holding hplain h.mode htyped' htext hbuffer hpending]
    have hnext : Follows env isBashMode deadline initial (rest ++ [held])
        { c with text := initial ++ (rest ++ [held]), burst := {} } := by
      refine ⟨.idle rfl rfl rfl rfl, h.mode, Nat.zero_le _, fun t ht => ?_⟩
      cases ht
    exact hnext.handleNonAsciiChar_idle hnow rfl rfl rfl rfl ch
  · rw [tryAppendCharIfActive_buffering hactive]
    exact ⟨.buffering flushed (append_assoc _ _ _) htext hactive hpending hlast, h.mode,
      h.counted_append _, h.recent⟩

lemma handleChar :
    Follows env isBashMode deadline initial (typed ++ [ch]) (c.handleChar env ch now) := by
  obtain ⟨hflush, hheld⟩ := h.flush hplain ((prefix_append _ _).trans htyped) now
  unfold ChatComposer.handleChar
  dsimp only
  split
  · exact hflush.handleAsciiChar hnow hplain htyped hheld
  · exact hflush.handleNonAsciiChar hnow hplain htyped

end

/-! ## Enter -/

/-- With no letter held the composer is idle, or its burst takes the newline. -/
lemma appendNewlineIfActive (hheld : c.burst.pendingFirstChar = none) (now : Instant) :
    (c.burst.isActive = false ∧ c.text = initial ++ typed ∧ c.burst.active = false ∧
      c.burst.buffer = []) ∨
    (c.burst.isActive ∧ Follows env isBashMode deadline initial (typed ++ ['\n'])
      { c with burst := (c.burst.appendNewlineIfActive now).2 }) := by
  rcases h.phase with ⟨htext, hactive, hbuffer, hpending⟩ |
    ⟨rest, held, heldAt, rfl, htext, hactive, hbuffer, hpending, hlast⟩ |
    ⟨flushed, rfl, htext, hactive, hpending, hlast⟩
  · exact .inl ⟨isActive_idle hactive hbuffer hpending, htext, hactive, hbuffer⟩
  · rw [hheld] at hpending
    cases hpending
  · have hisActive := isActive_of_active hactive
    refine .inr ⟨hisActive, ?_⟩
    rw [appendNewlineIfActive, if_pos hisActive]
    exact ⟨.buffering flushed (append_assoc _ _ _) htext hactive hpending hlast, h.mode,
      h.counted_append _, h.recent⟩

lemma handleEnter (hplain : Plain env isBashMode initial all) (htyped : typed ++ ['\n'] <+: all)
    (hheld : (c.handlePasteBurstFlush env now).burst.pendingFirstChar = none) :
    Follows env isBashMode deadline initial (typed ++ ['\n']) (c.handleEnter env now) := by
  obtain ⟨hflush, -⟩ := h.flush hplain ((prefix_append _ _).trans htyped) now
  unfold ChatComposer.handleEnter
  dsimp only
  generalize c.handlePasteBurstFlush env now = c at hflush hheld
  rcases hflush.appendNewlineIfActive hheld now with
    ⟨hidle, htext, hactive, hbuffer⟩ | ⟨hactive, hnext⟩
  · rw [PasteBurst.appendNewlineIfActive, if_neg (Bool.eq_false_iff.mp hidle)]
    dsimp only
    rw [htext, append_assoc, syncBashModeFromText_eq_self
      (c := ⟨initial ++ (typed ++ ['\n']), _, _, _⟩) hplain hflush.mode rfl htyped]
    exact ⟨.idle rfl hactive hbuffer hheld, hflush.mode, hflush.counted_append _, hflush.recent⟩
  · rw [PasteBurst.appendNewlineIfActive, if_pos hactive] at hnext ⊢
    exact hnext

lemma handleSubmission (hheld : c.burst.pendingFirstChar = none) {shouldQueue inSlashContext}
    (hc' : c.handleSubmission shouldQueue inSlashContext now = some c') :
    Follows env isBashMode deadline initial (typed ++ ['\n']) c' := by
  unfold ChatComposer.handleSubmission at hc'
  obtain ⟨-, hc'⟩ := ite_none_left_eq_some.mp hc'
  rcases h.appendNewlineIfActive hheld now with
    ⟨hidle, htext, hactive, hbuffer⟩ | ⟨hactive, hnext⟩
  · rw [PasteBurst.appendNewlineIfActive, if_neg (Bool.eq_false_iff.mp hidle)] at hc'
    obtain ⟨-, hc'⟩ := ite_none_right_eq_some.mp hc'
    obtain rfl := some.inj hc'
    refine ⟨.idle ?_ hactive hbuffer hheld, h.mode, h.counted_append _, h.recent⟩
    show c.text ++ ['\n'] = _
    rw [htext, append_assoc]
  · rw [PasteBurst.appendNewlineIfActive, if_pos hactive] at hnext hc'
    obtain rfl := some.inj hc'
    exact hnext

end Follows

/-! ## Runs -/

/-- An Enter is taken as a newline. -/
def TakenAsNewline (c : ChatComposer) : Event → Prop
  | .submit shouldQueue inSlashContext now =>
    (c.handleSubmission shouldQueue inSlashContext now).isSome
  | _ => True

/-- An Enter finds no letter held. -/
def NothingHeld (env : Env) (c : ChatComposer) : Event → Prop
  | .enter now => (c.handlePasteBurstFlush env now).burst.pendingFirstChar = none
  | .submit _ _ _ => c.burst.pendingFirstChar = none
  | _ => True

/-- All that is typed. -/
def typedBy (events : List Event) : Str := events.flatMap Event.typed

namespace Follows

lemma step (hplain : Plain env isBashMode initial all) {event}
    (htyped : typed ++ event.typed <+: all)
    (hnow : event.time + pasteBurstActiveIdleTimeout env.windows < deadline)
    (hnewline : TakenAsNewline c event) (hheld : NothingHeld env c event)
    (h : Follows env isBashMode deadline initial typed c) :
    Follows env isBashMode deadline initial (typed ++ event.typed) (c.step env event) := by
  obtain ⟨ch, now⟩ | now | ⟨shouldQueue, inSlashContext, now⟩ | now := event
  · exact h.handleChar hnow hplain htyped
  · exact h.handleEnter hplain htyped hheld
  · obtain ⟨c', hc'⟩ := isSome_iff_exists.mp hnewline
    have hstep : c.step env (.submit shouldQueue inSlashContext now) = c' := by
      rw [ChatComposer.step, hc', getD_some]
    rw [hstep]
    exact h.handleSubmission hheld hc'
  · rw [Event.typed, append_nil] at htyped ⊢
    exact (h.flush hplain htyped now).1

lemma run (hplain : Plain env isBashMode initial all) {events}
    (htyped : typed ++ typedBy events = all)
    (hnow : ∀ event ∈ events, event.time + pasteBurstActiveIdleTimeout env.windows < deadline)
    (hnewline : Run.EachMove (ChatComposer.step env) TakenAsNewline c events)
    (hheld : Run.EachMove (ChatComposer.step env) (NothingHeld env) c events)
    (h : Follows env isBashMode deadline initial typed c) :
    Follows env isBashMode deadline initial all (events.foldl (ChatComposer.step env) c) := by
  induction events generalizing c typed with
  | nil =>
    rw [typedBy, flatMap_nil, append_nil] at htyped
    exact htyped ▸ h
  | cons event events ih =>
    obtain ⟨hnewline₁, hnewline₂⟩ := Run.eachMove_cons.mp hnewline
    obtain ⟨hheld₁, hheld₂⟩ := Run.eachMove_cons.mp hheld
    have hsplit : typed ++ event.typed ++ typedBy events = all := by
      rw [← htyped, typedBy, typedBy, flatMap_cons, append_assoc]
    have hfirst := h.step hplain ⟨_, hsplit⟩ (hnow event mem_cons_self) hnewline₁ hheld₁
    exact ih hsplit (fun e he => hnow e (mem_cons_of_mem _ he)) hnewline₂ hheld₂ hfirst

end Follows

/-- **All that is typed is in the text in the end**, if no Enter finds a letter held: letters that
are not control characters, newlines of Enters that do not submit, and any number of ticks, followed
by a tick later than all timeouts. -/
theorem typed_text_complete (env : Env) (c : ChatComposer) (hrest : c.burst = {})
    (events : List Event) (now : Instant)
    (hletters : ∀ ch t, Event.char ch t ∈ events → isControl ch = false)
    (hbang : c.isBashMode ∨ (c.text ++ typedBy events).head? ≠ some '!')
    (hsize : (typedBy events).length ≤ largePasteCharThreshold)
    (himage : ∀ piece, piece <:+: typedBy events → 1 < piece.length →
      env.handlePasteImagePath piece = none)
    (hlate : ∀ event ∈ events, event.time + pasteBurstActiveIdleTimeout env.windows < now)
    (hnewline : Run.EachMove (ChatComposer.step env) TakenAsNewline c events)
    (hheld : Run.EachMove (ChatComposer.step env) (NothingHeld env) c events) :
    ((events ++ [Event.tick now]).foldl (ChatComposer.step env) c).text =
      c.text ++ typedBy events := by
  have hplain : Plain env c.isBashMode c.text (typedBy events) := by
    refine ⟨fun ch hch => ?_, hsize, himage, hbang⟩
    obtain ⟨event, hevent, hch⟩ := mem_flatMap.mp hch
    obtain ⟨ch', t⟩ | t | ⟨_, _, t⟩ | t := event
    · obtain rfl := mem_singleton.mp hch
      exact .inr (hletters ch t hevent)
    · exact .inl (mem_singleton.mp hch)
    · exact .inl (mem_singleton.mp hch)
    · cases hch
  have hstart : Follows env c.isBashMode now c.text [] c := by
    refine ⟨.idle (append_nil _).symm ?_ ?_ ?_, rfl, ?_, ?_⟩ <;> rw [hrest]
    · exact Nat.zero_le _
    · exact by simp
  rw [foldl_append]
  exact (hstart.run hplain (nil_append _) hlate hnewline hheld).text_flush_of_late hplain

/-- An environment in which nothing names an image. -/
def noImages : Env := ⟨false, fun _ => none, fun _ _ => []⟩

/-- Two lines that come faster than anyone types. -/
def pastedLines : List Event :=
  [.char 'a' 0, .char 'b' (millis 1), .enter (millis 2), .char 'c' (millis 3)]

/-- They are in the buffer of a burst, and in the text a second later. -/
theorem typed_text_complete_burst :
    (pastedLines.foldl (step noImages) ⟨[], false, [], {}⟩).burst.buffer = "ab\nc" ∧
    ((pastedLines ++ [Event.tick (millis 1000)]).foldl (step noImages) ⟨[], false, [], {}⟩).text =
      "ab\nc" := by
  refine ⟨rfl, typed_text_complete noImages ⟨[], false, [], {}⟩ rfl pastedLines (millis 1000)
    ?_ (.inr (by decide)) (by decide) (fun _ _ _ => rfl) (by decide) ?_ ?_⟩
  · intro ch t h
    simp only [pastedLines, mem_cons, Event.char.injEq, reduceCtorEq, not_mem_nil, or_false,
      false_or] at h
    obtain ⟨rfl, -⟩ | ⟨rfl, -⟩ | ⟨rfl, -⟩ := h <;> decide
  · simp only [pastedLines, Run.eachMove_cons, Run.eachMove_nil, TakenAsNewline, and_self]
  · simp only [pastedLines, Run.eachMove_cons, Run.eachMove_nil, NothingHeld, true_and, and_true]
    rfl

/-- **A letter is lost.**  Enter comes while `a` is held: only the newline reaches the text. -/
theorem held_letter_is_lost :
    TakenAsNewline (step noImages ⟨[], false, [], {}⟩ (.char 'a' 0))
      (.submit false false (millis 1)) ∧
    (([Event.char 'a' 0, .submit false false (millis 1)] ++ [Event.tick (millis 2000)]).foldl
      (step noImages) ⟨[], false, [], {}⟩).text = "\n" := by
  exact ⟨rfl, by decide⟩

end Composer
