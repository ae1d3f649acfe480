import CodexAgents.ApplyPatch.Apply
import CodexAgents.Lib.Journal

/-!
# What an exact delta is worth

The delta of a patch can be read as a journal of the texts of the file system: every change says
what one or two paths held before and what they hold after it (`AppliedPatchChange.entries`).  As
long as its `exact` flag is set, that journal is the truth: carried out on the texts the patch began
with it gives the texts the patch ended with, and it can be taken back
(`applyHunksWithMode_exact`).  This holds after a failure too, for failures of any operation at any
point, provided no rename goes from a path to itself.

Of the file system not much is assumed (`LinkLaws`): reading changes nothing, and an operation that
fails may have done its work, part of it, or none.  What is written to a plain file, or where there
is none, changes no other path.  Through a link it may change anything; that is why the metadata of
a path are looked at before it is written (`noteExistingPathDeltaSupport`).  `FlatLaws` are the same
without links.

`move_keeps_file_iff` is about the one exception.  A rename writes the destination and then removes
the source, so that a rename from a path to itself loses the file.
-/

namespace ApplyPatch

open Text Outcome Journal Apply Function AppliedPatchDelta

/-! ## Deltas as journals -/

/-- What a change says about the texts.  A rename is the loss of one file and the gain of
another. -/
def AppliedPatchChange.entries {P : Type} : AppliedPatchChange P → List (Entry P Str)
  | ⟨path, .add content overwritten⟩ => [⟨path, overwritten, some content⟩]
  | ⟨path, .delete content⟩ => [⟨path, some content, none⟩]
  | ⟨path, .update none old _ new⟩ => [⟨path, some old, some new⟩]
  | ⟨path, .update (some dest) old overwritten new⟩ =>
    [⟨path, some old, none⟩, ⟨dest, overwritten, some new⟩]

/-- What all changes say about the texts. -/
def AppliedPatchDelta.journal {P : Type} (delta : AppliedPatchDelta P) : List (Entry P Str) :=
  delta.changes.flatMap (·.entries)

/-! ## File systems -/

/-- **A flat file system**: `texts` says which text each path holds, if any. -/
structure FlatLaws {σ P : Type} [DecidableEq P] (fs : ExecutorFileSystem σ P)
    (texts : σ → P → Option Str) : Prop where
  read_ok {p s content t} (h : fs.readFileText p s = .ok content t) :
    texts t = texts s ∧ texts s p = some content
  read_error {p s e t} (h : fs.readFileText p s = .error e t) :
    texts t = texts s ∧ (e.kind = .notFound → texts s p = none)
  metadata_ok {p s m t} (h : fs.getMetadata p s = .ok m t) : texts t = texts s
  metadata_error {p s e t} (h : fs.getMetadata p s = .error e t) : texts t = texts s
  mkdir_ok {p s t} (h : fs.createDirectory p s = .ok () t) : texts t = texts s
  mkdir_error {p s e t} (h : fs.createDirectory p s = .error e t) : texts t = texts s
  write_ok {p content s t} (h : fs.writeFile p content s = .ok () t) :
    texts t = update (texts s) p (some content)
  /-- A failed write may leave anything behind, but only where it was to write. -/
  write_error {p content s e t} (h : fs.writeFile p content s = .error e t) :
    ∃ left, texts t = update (texts s) p left
  remove_ok {p s t} (h : fs.remove p s = .ok () t) : texts t = update (texts s) p none
  /-- A failed removal may have removed the file or not. -/
  remove_error {p s e t} (h : fs.remove p s = .error e t) :
    texts t = texts s ∨ texts t = update (texts s) p none

/-- **A file system with links**: what is written to or removed from a path that is `linked` may
change any text.  The metadata show this: such a path is neither a plain file nor missing.  (This
leaves out links to nothing on a local disk, whose metadata are those of a missing file.) -/
structure LinkLaws {σ P : Type} [DecidableEq P] (fs : ExecutorFileSystem σ P)
    (texts : σ → P → Option Str) (linked : σ → P → Prop) : Prop where
  read_ok {p s content t} (h : fs.readFileText p s = .ok content t) :
    (texts t = texts s ∧ linked t = linked s) ∧ texts s p = some content
  read_error {p s e t} (h : fs.readFileText p s = .error e t) :
    (texts t = texts s ∧ linked t = linked s) ∧ (e.kind = .notFound → texts s p = none)
  metadata_ok {p s m t} (h : fs.getMetadata p s = .ok m t) :
    (texts t = texts s ∧ linked t = linked s) ∧ (m.isFile && !m.isSymlink → ¬ linked s p)
  metadata_error {p s e t} (h : fs.getMetadata p s = .error e t) :
    (texts t = texts s ∧ linked t = linked s) ∧ (e.kind = .notFound → ¬ linked s p)
  mkdir_ok {p s t} (h : fs.createDirectory p s = .ok () t) : texts t = texts s ∧ linked t = linked s
  mkdir_error {p s e t} (h : fs.createDirectory p s = .error e t) :
    texts t = texts s ∧ linked t = linked s
  write_ok {p content s t} (h : fs.writeFile p content s = .ok () t) (hp : ¬ linked s p) :
    texts t = update (texts s) p (some content) ∧ linked t = linked s
  write_error {p content s e t} (h : fs.writeFile p content s = .error e t) (hp : ¬ linked s p) :
    (∃ left, texts t = update (texts s) p left) ∧ linked t = linked s
  remove_ok {p s t} (h : fs.remove p s = .ok () t) (hp : ¬ linked s p) :
    texts t = update (texts s) p none ∧ linked t = linked s
  remove_error {p s e t} (h : fs.remove p s = .error e t) (hp : ¬ linked s p) :
    (texts t = texts s ∨ texts t = update (texts s) p none) ∧ linked t = linked s

lemma FlatLaws.linkLaws {σ P : Type} [DecidableEq P] {fs : ExecutorFileSystem σ P}
    {texts : σ → P → Option Str} (laws : FlatLaws fs texts) :
    LinkLaws fs texts fun _ _ => False where
  read_ok h := ⟨⟨(laws.read_ok h).1, rfl⟩, (laws.read_ok h).2⟩
  read_error h := ⟨⟨(laws.read_error h).1, rfl⟩, (laws.read_error h).2⟩
  metadata_ok h := ⟨⟨laws.metadata_ok h, rfl⟩, fun _ => not_false⟩
  metadata_error h := ⟨⟨laws.metadata_error h, rfl⟩, fun _ => not_false⟩
  mkdir_ok h := ⟨laws.mkdir_ok h, rfl⟩
  mkdir_error h := ⟨laws.mkdir_error h, rfl⟩
  write_ok h _ := ⟨laws.write_ok h, rfl⟩
  write_error h _ := ⟨laws.write_error h, rfl⟩
  remove_ok h _ := ⟨laws.remove_ok h, rfl⟩
  remove_error h _ := ⟨laws.remove_error h, rfl⟩

section

variable {P : Type} [DecidableEq P]

/-- The error for a missing file. -/
def missing : StdIoError := ⟨.notFound, "entity not found"⟩

/-- **A file system in memory**: its state is the texts, and nothing fails but for missing
files. -/
def memoryFs : ExecutorFileSystem (P → Option Str) P where
  readFileText p := fun s => match s p with
    | some content => .ok content s
    | none => .error missing s
  writeFile p content := fun s => .ok () (update s p (some content))
  createDirectory _ := fun s => .ok () s
  getMetadata p := fun s => match s p with
    | some _ => .ok ⟨false, true, false⟩ s
    | none => .error missing s
  remove p := fun s => match s p with
    | some _ => .ok () (update s p none)
    | none => .error missing s

lemma memoryFs_flat : FlatLaws (P := P) memoryFs id where
  read_ok h := by
    simp only [memoryFs] at h
    split at h
    · rename_i hp
      cases h
      exact ⟨rfl, hp⟩
    · cases h
  read_error h := by
    simp only [memoryFs] at h
    split at h
    · cases h
    · rename_i hp
      cases h
      exact ⟨rfl, fun _ => hp⟩
  metadata_ok h := by
    simp only [memoryFs] at h
    split at h <;> cases h
    rfl
  metadata_error h := by
    simp only [memoryFs] at h
    split at h <;> cases h
    rfl
  mkdir_ok h := by cases h; rfl
  mkdir_error h := by cases h
  write_ok h := by cases h; rfl
  write_error h := by cases h
  remove_ok h := by
    simp only [memoryFs] at h
    split at h <;> cases h
    rfl
  remove_error h := by
    simp only [memoryFs] at h
    split at h <;> cases h
    exact .inl rfl

/-- Paths that are their texts: an absolute one is taken as it is, and a relative one is appended to
the working directory. -/
def plainPaths : PathUris Str where
  join cwd path := .ok (if path.head? = some '/' then path else cwd ++ '/' :: path)
  parent path :=
    let parent := (path.reverse.dropWhile (· ≠ '/')).tail.reverse
    if parent = [] then none else some parent
  inferredNativePathString path := path

end

variable {σ P : Type} {fs : ExecutorFileSystem σ P} {texts : σ → P → Option Str}
  {linked : σ → P → Prop}

/-- The run has come from one state to another: the texts are now `F`, the links are the same,
nothing has been recorded, and exactness has not been gained. -/
structure Turns (texts : σ → P → Option Str) (linked : σ → P → Prop) (s t : ApplyState σ P)
    (F : P → Option Str) : Prop where
  texts_eq : texts t.fs = F
  links_eq : linked t.fs = linked s.fs
  changes_eq : t.delta.changes = s.delta.changes
  exact_of : t.delta.exact = true → s.delta.exact = true

variable {s : ApplyState σ P} {F : P → Option Str}

lemma Turns.trans {G t u} (h : Turns texts linked s t G) (h' : Turns texts linked t u F) :
    Turns texts linked s u F :=
  ⟨h'.texts_eq, h'.links_eq.trans h.links_eq, h'.changes_eq.trans h.changes_eq,
    fun hu => h.exact_of (h'.exact_of hu)⟩

lemma turns_andExact (s : ApplyState σ P) (b : Bool) :
    Turns texts linked s { s with delta := { s.delta with exact := s.delta.exact && b } }
      (texts s.fs) :=
  ⟨rfl, rfl, rfl, fun h => (Bool.and_eq_true_iff.mp h).1⟩

lemma ensures_orThrow {E} {ε α : Type} {f} {r : Except ε α}
    {Q} (hok : ∀ a, r = .ok a → Q a s)
    (herror : ∀ e, r = .error e → E (f e) s) :
    Ensures (orThrow f r) s Q E := by
  obtain e | a := r
  · exact herror e rfl
  · exact hok a rfl

lemma ensures_orThrow_bind {E} {ε α β : Type} {f : ε → AnyhowError} {r}
    {g : α → Apply σ P β} {Q}
    (hok : ∀ a, r = .ok a → Ensures (g a) s Q E) (herror : ∀ e, r = .error e → E (f e) s) :
    Ensures (orThrow f r >>= g) s Q E :=
  ensures_bind.mpr (ensures_orThrow hok herror)

/-- A failed write costs exactness, whatever it has done. -/
lemma ensures_tryWrite {write Q}
    (h : Ensures write s Q fun _ _ => True) :
    Ensures (tryWrite write) s Q fun _ t => t.delta.exact = false := by
  rw [Ensures] at h ⊢
  rw [tryWrite]
  rcases hw : write s with ⟨a, t⟩ | ⟨e, t⟩
  · rwa [hw] at h
  · rfl

variable {paths : PathUris P} {mode : ApplyPatchFileUpdateMode} {chunks : List UpdateFileChunk}

/-- Deriving the new contents is reading the file and computing. -/
lemma ensures_derive_iff {p s Q E} :
    Ensures (deriveNewContentsFromChunks fs paths p chunks mode) s Q E ↔
      Ensures (fs.readFileText p) s
        (fun content t =>
          match newContentsFromChunks (paths.inferredNativePathString p) content chunks mode with
          | .error e => E e t
          | .ok new => Q ⟨content, new⟩ t)
        fun e t => E (.ioError ⟨"Failed to read file to update " ++
          paths.inferredNativePathString p, e⟩) t := by
  rw [deriveNewContentsFromChunks, ensures_bind, ensures_attempt]
  simp only [ensures_throw]
  refine iff_of_eq (congrArg (fun Q => Ensures (fs.readFileText p) s Q _) ?_)
  funext content t
  cases newContentsFromChunks (paths.inferredNativePathString p) content chunks mode <;> rfl

section

variable [DecidableEq P] (laws : LinkLaws fs texts linked) {paths : PathUris P}

include laws

variable (p : P)

lemma ensures_onFs_read (s : ApplyState σ P) : Ensures (onFs (fs.readFileText p)) s
      (fun r t => Turns texts linked s t (texts s.fs) ∧
        (∀ content, r = .ok content → texts s.fs p = some content) ∧
        ∀ e, r = .error e → e.kind = .notFound → texts s.fs p = none)
      fun _ _ => False := by
  refine ensures_attempt.mpr (ensures_iff.mpr ⟨fun content t h => ?_, fun e t h => ?_⟩)
  · obtain ⟨⟨hsame, hlinks⟩, hp⟩ := laws.read_ok h
    refine ⟨⟨hsame, hlinks, rfl, id⟩, ?_, by rintro _ ⟨⟩⟩
    rintro _ ⟨⟩
    exact hp
  · obtain ⟨⟨hsame, hlinks⟩, hp⟩ := laws.read_error h
    refine ⟨⟨hsame, hlinks, rfl, id⟩, by rintro _ ⟨⟩, ?_⟩
    rintro _ ⟨⟩
    exact hp

lemma ensures_onFs_metadata (s : ApplyState σ P) : Ensures (onFs (fs.getMetadata p)) s
      (fun r t => Turns texts linked s t (texts s.fs) ∧
        (∀ m, r = .ok m → m.isFile && !m.isSymlink → ¬ linked s.fs p) ∧
        ∀ e, r = .error e → e.kind = .notFound → ¬ linked s.fs p)
      fun _ _ => False := by
  refine ensures_attempt.mpr (ensures_iff.mpr ⟨fun m t h => ?_, fun e t h => ?_⟩)
  · obtain ⟨⟨hsame, hlinks⟩, hp⟩ := laws.metadata_ok h
    refine ⟨⟨hsame, hlinks, rfl, id⟩, ?_, by rintro _ ⟨⟩⟩
    rintro _ ⟨⟩
    exact hp
  · obtain ⟨⟨hsame, hlinks⟩, hp⟩ := laws.metadata_error h
    refine ⟨⟨hsame, hlinks, rfl, id⟩, by rintro _ ⟨⟩, ?_⟩
    rintro _ ⟨⟩
    exact hp

lemma ensures_onFs_mkdir (s : ApplyState σ P) :
    Ensures (onFs (fs.createDirectory p)) s
      (fun _ t => t.delta = s.delta ∧ Turns texts linked s t (texts s.fs)) fun _ _ => False :=
  ensures_attempt.mpr (ensures_iff.mpr
    ⟨fun _ _ h => ⟨rfl, (laws.mkdir_ok h).1, (laws.mkdir_ok h).2, rfl, id⟩,
      fun _ _ h => ⟨rfl, (laws.mkdir_error h).1, (laws.mkdir_error h).2, rfl, id⟩⟩)

/-- A failed write may have left anything in its place. -/
lemma ensures_onFs_write (content : Str) (s : ApplyState σ P) :
    Ensures (onFs (fs.writeFile p content)) s
      (fun r t => t.delta = s.delta ∧ (¬ linked s.fs p →
        ∃ left, Turns texts linked s t (update (texts s.fs) p left) ∧
          (r = .ok () → left = some content)))
      fun _ _ => False := by
  refine ensures_attempt.mpr (ensures_iff.mpr ⟨fun _ t h => ?_, fun e t h => ?_⟩)
  · refine ⟨rfl, fun hp => ⟨some content, ?_, fun _ => rfl⟩⟩
    exact ⟨(laws.write_ok h hp).1, (laws.write_ok h hp).2, rfl, id⟩
  · refine ⟨rfl, fun hp => ?_⟩
    obtain ⟨⟨left, hleft⟩, hlinks⟩ := laws.write_error h hp
    exact ⟨left, ⟨hleft, hlinks, rfl, id⟩, by rintro ⟨⟩⟩

/-- **Looking at the metadata**: if the delta is still exact afterwards, the path is no link. -/
lemma ensures_noteExisting (s : ApplyState σ P) : Ensures (noteExistingPathDeltaSupport fs p) s
      (fun _ t => Turns texts linked s t (texts s.fs) ∧ (t.delta.exact = true → ¬ linked s.fs p))
      fun _ _ => False := by
  refine (ensures_onFs_metadata laws p s).bind fun r t ⟨ht, hok, herror⟩ => ?_
  obtain e | m := r
  · refine ⟨ht.trans (ht.texts_eq ▸ turns_andExact t _), fun hexact => herror e rfl ?_⟩
    exact of_decide_eq_true (Bool.and_eq_true_iff.mp hexact).2
  · refine ⟨ht.trans (ht.texts_eq ▸ turns_andExact t _), fun hexact => hok m rfl ?_⟩
    exact (Bool.and_eq_true_iff.mp hexact).2

/-- **Reading for the delta**: if the delta is still exact afterwards, this is what the path holds,
and the path is no link. -/
theorem ensures_readOptional (s : ApplyState σ P) : Ensures (readOptionalFileTextForDelta fs p) s
      (fun r t => Turns texts linked s t (texts s.fs) ∧
        (t.delta.exact = true → texts s.fs p = r ∧ ¬ linked s.fs p))
      fun _ _ => False := by
  refine (ensures_noteExisting laws p s).bind fun _ t ⟨ht, hlink⟩ => ?_
  refine (ensures_onFs_read laws p t).bind fun r u ⟨hu, hok, herror⟩ => ?_
  rw [ht.texts_eq] at hu hok herror
  obtain e | content := r
  · refine ⟨(ht.trans hu).trans (hu.texts_eq ▸ turns_andExact u _), fun hexact => ?_⟩
    obtain ⟨huexact, hkind⟩ := Bool.and_eq_true_iff.mp hexact
    exact ⟨herror e rfl (of_decide_eq_true hkind), hlink (hu.exact_of huexact)⟩
  · exact ⟨ht.trans hu, fun hexact => ⟨hok content rfl, hlink (hu.exact_of hexact)⟩⟩

lemma ensures_writeRetry (content : Str) (s : ApplyState σ P) :
    Ensures (writeFileWithMissingParentRetry fs paths p content) s
      (fun _ t => t.delta = s.delta ∧
        (¬ linked s.fs p → Turns texts linked s t (update (texts s.fs) p (some content))))
      fun _ _ => True := by
  -- the second attempt: whatever the first one has left, it is overwritten
  have hagain : ∀ {t : ApplyState σ P}, t.delta = s.delta →
      (¬ linked s.fs p → ∃ left, Turns texts linked s t (update (texts s.fs) p left)) →
      Ensures (onFs (fs.writeFile p content) >>=
          orThrow (.io ("Failed to write file " ++ paths.inferredNativePathString p))) t
        (fun _ u => u.delta = s.delta ∧
          (¬ linked s.fs p → Turns texts linked s u (update (texts s.fs) p (some content))))
        fun _ _ => True := by
    intro t hdelta ht
    refine (ensures_onFs_write laws p content t).bind_total fun r u ⟨hdelta', hu⟩ => ?_
    refine ensures_orThrow (fun a ha => ⟨hdelta'.trans hdelta, fun hp => ?_⟩) fun _ _ => trivial
    obtain ⟨left, ht⟩ := ht hp
    obtain ⟨left', hu, hleft'⟩ := hu (by rwa [ht.links_eq])
    rw [hleft' ha, ht.texts_eq, update_idem] at hu
    exact ht.trans hu
  refine (ensures_onFs_write laws p content s).bind_total fun r t ⟨hdelta, ht⟩ => ?_
  obtain err | _ := r
  · have hleft : ¬ linked s.fs p → ∃ left, Turns texts linked s t (update (texts s.fs) p left) :=
      fun hp => (ht hp).imp fun _ h => h.1
    simp only
    split
    · split
      · rename_i parent _
        refine (ensures_onFs_mkdir laws parent t).bind_total fun r u ⟨hdelta', hu⟩ => ?_
        refine ensures_orThrow_bind (fun _ _ => ?_) fun _ _ => trivial
        refine hagain (hdelta'.trans hdelta) fun hp => ?_
        obtain ⟨left, ht⟩ := hleft hp
        exact ⟨left, ht.trans (ht.texts_eq ▸ hu)⟩
      · exact hagain hdelta hleft
    · trivial
  · refine ⟨hdelta, fun hp => ?_⟩
    obtain ⟨left, ht, hleft⟩ := ht hp
    rwa [hleft rfl] at ht

lemma ensures_ensureNotDirectory (s : ApplyState σ P) :
    Ensures (onFs (ensureNotDirectory fs p)) s (fun _ t => Turns texts linked s t (texts s.fs))
      fun _ _ => False := by
  refine ensures_attempt.mpr (Ensures.bind
    (Q := fun _ t => texts t = texts s.fs ∧ linked t = linked s.fs) ?_ ?_)
  · exact ensures_iff.mpr ⟨fun _ _ h => (laws.metadata_ok h).1,
      fun _ _ h => ⟨(laws.metadata_error h).1.1, (laws.metadata_error h).1.2, rfl, id⟩⟩
  · intro m t ht
    split
    · exact ⟨ht.1, ht.2, rfl, id⟩
    · exact ⟨ht.1, ht.2, rfl, id⟩

lemma ensures_sideEffectFree (expected : Option Str) (s : ApplyState σ P) :
    Ensures (removeFailureWasSideEffectFree fs p expected) s
      (fun b t => Turns texts linked s t (texts s.fs) ∧ (b = true → texts s.fs p ≠ none))
      fun _ _ => False := by
  obtain _ | expected := expected
  · exact ⟨⟨rfl, rfl, rfl, id⟩, by rintro ⟨⟩⟩
  · refine (ensures_onFs_read laws p s).bind fun r t ⟨ht, hok, _⟩ => ?_
    obtain e | content := r
    · exact ⟨ht, by rintro ⟨⟩⟩
    · refine ⟨ht, fun _ => ?_⟩
      rw [hok content rfl]
      exact Option.some_ne_none content

/-- **Removing a file.**  If it fails and the delta is still exact, nothing has been removed. -/
theorem ensures_removeFile (action : Str) (p : P) (content : Option Str) (s : ApplyState σ P) :
    Ensures (removeFile fs paths action p content) s
      (fun _ t => (t.delta.changes = s.delta.changes ∧
        (t.delta.exact = true → s.delta.exact = true)) ∧
        (¬ linked s.fs p → Turns texts linked s t (update (texts s.fs) p none)))
      fun _ t => t.delta.changes = s.delta.changes ∧ (t.delta.exact = true →
        s.delta.exact = true ∧ (¬ linked s.fs p → texts t.fs = texts s.fs)) := by
  refine (ensures_ensureNotDirectory laws p s).bind_total fun r t ht => ?_
  refine ensures_orThrow_bind (fun _ _ => ?_) fun _ _ => ?_
  swap
  · exact ⟨ht.changes_eq, fun h => ⟨ht.exact_of h, fun _ => ht.texts_eq⟩⟩
  have hremove : Ensures (onFs (fs.remove p)) t
      (fun r u => u.delta = t.delta ∧ (¬ linked s.fs p → linked u.fs = linked t.fs ∧
        (texts u.fs = update (texts s.fs) p none ∨ (r ≠ .ok () ∧ texts u.fs = texts s.fs))))
      fun _ _ => False := by
    rw [← ht.texts_eq, ← ht.links_eq]
    refine ensures_attempt.mpr (ensures_iff.mpr ⟨fun _ u h => ?_, fun e u h => ?_⟩)
    · exact ⟨rfl, fun hp => ⟨(laws.remove_ok h hp).2, .inl (laws.remove_ok h hp).1⟩⟩
    · refine ⟨rfl, fun hp => ⟨(laws.remove_error h hp).2, ?_⟩⟩
      exact (laws.remove_error h hp).1.symm.imp_right fun h' => ⟨by simp, h'⟩
  refine hremove.bind_total fun r u ⟨hdelta, hu⟩ => ?_
  obtain error | _ := r
  · -- the removal failed: the delta stays exact only if the file can still be read
    refine (ensures_sideEffectFree laws p content u).bind_total fun b v ⟨hv, hb⟩ => ?_
    refine ⟨hv.changes_eq.trans (hdelta ▸ ht.changes_eq), fun hexact => ?_⟩
    obtain ⟨hvexact, rfl⟩ := Bool.and_eq_true_iff.mp hexact
    refine ⟨ht.exact_of (hdelta ▸ hv.exact_of hvexact), fun hp => hv.texts_eq.trans ?_⟩
    obtain htexts | ⟨-, htexts⟩ := (hu hp).2
    · exact absurd (by rw [htexts, update_self]) (hb rfl)
    · exact htexts
  · refine ⟨⟨hdelta ▸ ht.changes_eq, fun h => ht.exact_of (hdelta ▸ h)⟩, fun hp => ?_⟩
    obtain ⟨hlinks, htexts | ⟨hne, -⟩⟩ := hu hp
    · exact ⟨htexts, hlinks.trans ht.links_eq, hdelta ▸ ht.changes_eq,
        fun h => ht.exact_of (hdelta ▸ h)⟩
    · exact absurd rfl hne

lemma ensures_derive (chunks : List UpdateFileChunk) (mode : ApplyPatchFileUpdateMode)
    (s : ApplyState σ P) :
    Ensures (onFs (deriveNewContentsFromChunks fs paths p chunks mode)) s
      (fun r t => Turns texts linked s t (texts s.fs) ∧ ∀ d, r = .ok d →
        texts s.fs p = some d.originalContents ∧
        newContentsFromChunks (paths.inferredNativePathString p) d.originalContents chunks mode =
          .ok d.newContents)
      fun _ _ => False := by
  refine ensures_attempt.mpr (ensures_derive_iff.mpr (ensures_iff.mpr
    ⟨fun content t h => ?_, fun e t h => ?_⟩))
  · obtain ⟨⟨hsame, hlinks⟩, hp⟩ := laws.read_ok h
    split
    · exact ⟨⟨hsame, hlinks, rfl, id⟩, by rintro _ ⟨⟩⟩
    · rename_i new hnew
      refine ⟨⟨hsame, hlinks, rfl, id⟩, ?_⟩
      rintro _ ⟨⟩
      exact ⟨hp, hnew⟩
  · exact ⟨⟨(laws.read_error h).1.1, (laws.read_error h).1.2, rfl, id⟩, by rintro _ ⟨⟩⟩

end

/-! ## Every hunk keeps the record true -/

/-- **The record**: as long as the delta is exact, its journal is faithful to the texts in the
beginning and leads to those there are. -/
def Recorded [DecidableEq P] (texts : σ → P → Option Str) (F : P → Option Str)
    (s : ApplyState σ P) : Prop :=
  s.delta.exact = true → Faithful F s.delta.journal ∧ redo F s.delta.journal = texts s.fs

section

variable [DecidableEq P]

lemma Recorded.keep {F s t} (h : Recorded texts F s) (hchanges : t.delta.changes = s.delta.changes)
    (hexact : t.delta.exact → s.delta.exact ∧ texts t.fs = texts s.fs) :
    Recorded texts F t := by
  intro ht
  obtain ⟨hs, htexts⟩ := hexact ht
  rw [journal, hchanges, htexts]
  exact h hs

/-- A change that is faithful to the texts there are, and leads to the new ones. -/
lemma Recorded.push {F s t} (h : Recorded texts F s) {c}
    (hchanges : t.delta.changes = s.delta.changes ++ [c])
    (hexact : t.delta.exact → s.delta.exact ∧ Faithful (texts s.fs) c.entries ∧
      redo (texts s.fs) c.entries = texts t.fs) :
    Recorded texts F t := by
  intro ht
  obtain ⟨hs, hfaithful, hredo⟩ := hexact ht
  obtain ⟨hold, htexts⟩ := h hs
  have hjournal : t.delta.journal = s.delta.journal ++ c.entries := by
    rw [journal, hchanges, List.flatMap_append, journal]
    simp
  rw [hjournal, faithful_append, redo_append, htexts]
  exact ⟨⟨hold, hfaithful⟩, hredo⟩

lemma recorded_of_inexact {F t} (h : t.delta.exact = false) : Recorded texts F t := by
  intro ht
  rw [h] at ht
  cases ht

end

section

variable [DecidableEq P] (laws : LinkLaws fs texts linked) {paths : PathUris P}
  {F : P → Option Str} {s : ApplyState σ P} (hs : Recorded texts F s)

include laws hs

lemma recorded_addFile (p : P) (affectedPath contents : Str) :
    Ensures (applyAddFile fs paths p affectedPath contents) s
      (fun _ t => Recorded texts F t) fun _ t => Recorded texts F t := by
  refine (ensures_readOptional laws p s).bind_total fun r t ⟨ht, hr⟩ => ?_
  refine ((ensures_tryWrite (ensures_writeRetry laws p contents t)).mono (fun _ _ => id)
    fun _ _ h => recorded_of_inexact h).bind fun _ u ⟨hdelta, hu⟩ => ?_
  refine hs.push (c := ⟨p, .add contents r⟩) ?_ fun hexact => ?_
  · exact congrArg (· ++ [_]) (hdelta ▸ ht.changes_eq)
  · have htexact : t.delta.exact = true := hdelta ▸ hexact
    obtain ⟨hold, hlink⟩ := hr htexact
    refine ⟨ht.exact_of htexact, ⟨hold, trivial⟩, ?_⟩
    rw [(hu (by rwa [ht.links_eq])).texts_eq, ht.texts_eq]
    rfl

lemma recorded_deleteFile (p : P) (affectedPath : Str) :
    Ensures (applyDeleteFile fs paths p affectedPath) s
      (fun _ t => Recorded texts F t) fun _ t => Recorded texts F t := by
  refine (ensures_noteExisting laws p s).bind_total fun _ t ⟨ht, hlink⟩ => ?_
  refine (ensures_onFs_read laws p t).bind_total fun r u ⟨hu, hok, _⟩ => ?_
  rw [ht.texts_eq] at hu hok
  refine ensures_bind.mpr (ensures_modify.mpr ?_)
  -- the state the removal starts from; it is exact only if the file could be read
  obtain ⟨v, hv⟩ : ∃ v : ApplyState σ P, v = { u with delta :=
      { u.delta with exact := u.delta.exact && r.toOption.isSome } } := ⟨_, rfl⟩
  rw [← hv]
  have htv : Turns texts linked t v (texts s.fs) := by
    rw [hv]
    exact hu.trans (hu.texts_eq ▸ turns_andExact u _)
  have hsv := ht.trans htv
  have hplain : v.delta.exact = true → ¬ linked v.fs p := fun h => by
    rw [hsv.links_eq]
    exact hlink (htv.exact_of h)
  have hfailed : Recorded texts F v :=
    hs.keep hsv.changes_eq fun h => ⟨hsv.exact_of h, hsv.texts_eq⟩
  refine ((ensures_removeFile laws _ p r.toOption v).mono (fun _ _ => id)
    fun _ _ h => hfailed.keep h.1 fun hexact => ?_).bind fun _ w ⟨⟨hchanges, hexact_of⟩, hw⟩ => ?_
  · exact ⟨(h.2 hexact).1, (h.2 hexact).2 (hplain (h.2 hexact).1)⟩
  obtain e | content := r
  · -- the file was removed without having been read
    refine recorded_of_inexact (Bool.eq_false_iff.mpr fun hexact => ?_)
    have hvexact := hexact_of hexact
    rw [hv] at hvexact
    simp [Except.toOption] at hvexact
  · refine hs.push (c := ⟨p, .delete content⟩) ?_ fun hexact => ?_
    · exact congrArg (· ++ [_]) (hchanges.trans hsv.changes_eq)
    · have hvexact := hexact_of hexact
      refine ⟨hsv.exact_of hvexact, ⟨hok content rfl, trivial⟩, ?_⟩
      rw [← hsv.texts_eq]
      exact (hw (hplain hvexact)).texts_eq.symm

end

/-- **Updating a file**: what a successful run leaves in the file system, and that the record is
kept, by a failed run in any case and by a successful one unless it is a rename from a path to
itself. -/
theorem ensures_updateFile [DecidableEq P] (laws : LinkLaws fs texts linked)
    {cwd p affectedPath movePath} (F : P → Option Str) (s : ApplyState σ P) :
    Ensures (applyUpdateFile fs paths mode cwd p affectedPath movePath chunks) s
      (fun _ t => ((∀ dest, movePath = some dest → paths.join cwd dest ≠ .ok p) →
          Recorded texts F s → Recorded texts F t) ∧
        ∃ original new, texts s.fs p = some original ∧
          newContentsFromChunks (paths.inferredNativePathString p) original chunks mode = .ok new ∧
          match movePath with
          | none => ¬ linked s.fs p → texts t.fs = update (texts s.fs) p (some new)
          | some dest => ∃ d, paths.join cwd dest = .ok d ∧ (¬ linked s.fs p → ¬ linked s.fs d →
            texts t.fs = update (update (texts s.fs) d (some new)) p none))
      fun _ t => Recorded texts F s → Recorded texts F t := by
  refine (ensures_noteExisting laws p s).bind_total fun _ t ⟨ht, hlink⟩ => ?_
  refine (ensures_derive laws p chunks mode t).bind_total fun r u ⟨hu, hderived⟩ => ?_
  rw [ht.texts_eq] at hu hderived
  have hsu := ht.trans hu
  have hplain : u.delta.exact = true → ¬ linked s.fs p := fun h => hlink (hu.exact_of h)
  have hfailed : Recorded texts F s → Recorded texts F u :=
    fun hs => hs.keep hsu.changes_eq fun h => ⟨hsu.exact_of h, hsu.texts_eq⟩
  refine ensures_orThrow_bind (fun d hd => ?_) fun e _ => hfailed
  obtain ⟨original, new⟩ := d
  obtain ⟨hp, hnew⟩ := hderived _ hd
  obtain _ | dest := movePath
  · have hwrite : Ensures (onFs (fs.writeFile p new) >>= orThrow
        (.io ("Failed to write file " ++ paths.inferredNativePathString p))) u
        (fun _ v => v.delta = u.delta ∧ (¬ linked s.fs p →
          texts v.fs = update (texts s.fs) p (some new)))
        fun _ _ => True := by
      refine (ensures_onFs_write laws p new u).bind_total fun r v ⟨hdelta, hv⟩ => ?_
      refine ensures_orThrow (fun a ha => ⟨hdelta, fun hlink => ?_⟩) fun _ _ => trivial
      obtain ⟨left, hv, hleft⟩ := hv (by rwa [hsu.links_eq])
      rw [hv.texts_eq, hleft ha, hsu.texts_eq]
    refine ((ensures_tryWrite hwrite).mono (fun _ _ => id)
      fun _ _ h _ => recorded_of_inexact h).bind fun _ v ⟨hdelta, hv⟩ => ?_
    refine ⟨fun _ hs => hs.push (c := ⟨p, .update none original none new⟩) ?_ fun hexact => ?_,
      original, new, hp, hnew, hv⟩
    · exact congrArg (· ++ [_]) (hdelta ▸ hsu.changes_eq)
    · have huexact : u.delta.exact = true := hdelta ▸ hexact
      exact ⟨hsu.exact_of huexact, ⟨hp, trivial⟩, (hv (hplain huexact)).symm⟩
  · refine ensures_orThrow_bind (fun d hjoin => ?_) fun e _ => hfailed
    refine (ensures_readOptional laws d u).bind_total fun r v ⟨hv, hr⟩ => ?_
    rw [hsu.texts_eq] at hv hr
    rw [hsu.links_eq] at hr
    have hsv := hsu.trans hv
    refine ((ensures_tryWrite (ensures_writeRetry laws d new v)).mono (fun _ _ => id)
      fun _ _ h _ => recorded_of_inexact h).bind fun _ w ⟨hdelta, hw⟩ => ?_
    rw [hsv.texts_eq, hsv.links_eq] at hw
    refine ensures_bind.mpr (ensures_modify.mpr ?_)
    -- between the write and the removal the delta says that the destination was added
    obtain ⟨x, hx⟩ : ∃ x : ApplyState σ P, x = { w with delta :=
        { w.delta with changes := w.delta.changes ++ [⟨d, .add new r⟩] } } := ⟨_, rfl⟩
    rw [← hx]
    have hxchanges : x.delta.changes = s.delta.changes ++ [⟨d, .add new r⟩] := by
      rw [hx, ← hsv.changes_eq, ← hdelta]
    have hxtexts : ¬ linked s.fs d → texts x.fs = update (texts s.fs) d (some new) :=
      fun hlink => hx ▸ (hw hlink).texts_eq
    have hxlinks : ¬ linked s.fs d → linked x.fs = linked s.fs :=
      fun hlink => hx ▸ (hw hlink).links_eq.trans hsv.links_eq
    have hxexact : x.delta.exact = true → s.delta.exact = true ∧ texts s.fs d = r ∧
        ¬ linked s.fs d ∧ ¬ linked s.fs p := by
      intro h
      rw [hx] at h
      have hvexact : v.delta.exact = true := hdelta ▸ h
      exact ⟨hsv.exact_of hvexact, (hr hvexact).1, (hr hvexact).2, hplain (hv.exact_of hvexact)⟩
    have hadded : Recorded texts F s → Recorded texts F x := by
      refine fun hs => hs.push hxchanges fun h => ?_
      obtain ⟨hsexact, hd, hlink, -⟩ := hxexact h
      exact ⟨hsexact, ⟨hd, trivial⟩, (hxtexts hlink).symm⟩
    refine ((ensures_removeFile laws _ p (some original) x).mono (fun _ _ => id)
      fun _ _ h hs => (hadded hs).keep h.1 fun hexact => ?_).bind
        fun _ y ⟨⟨hchanges, hexact_of⟩, hy⟩ => ?_
    · obtain ⟨hxe, htexts⟩ := h.2 hexact
      obtain ⟨-, -, hdlink, hplink⟩ := hxexact hxe
      exact ⟨hxe, htexts (by rwa [hxlinks hdlink])⟩
    have hytexts : ¬ linked s.fs p → ¬ linked s.fs d →
        texts y.fs = update (update (texts s.fs) d (some new)) p none := by
      intro hplink hdlink
      rw [(hy (by rwa [hxlinks hdlink])).texts_eq, hxtexts hdlink]
    refine ⟨fun hmove hs => hs.push (c := ⟨p, .update (some d) original r new⟩) ?_ fun h => ?_,
      original, new, hp, hnew, d, hjoin, hytexts⟩
    · show y.delta.changes.dropLast ++ [_] = _
      rw [hchanges, hxchanges, List.dropLast_concat]
    · have hdp : d ≠ p := fun h => hmove dest rfl (h ▸ hjoin)
      obtain ⟨hsexact, hd, hdlink, hplink⟩ := hxexact (hexact_of h)
      refine ⟨hsexact, ⟨hp, ?_, trivial⟩, ?_⟩
      · rw [update_of_ne hdp]
        exact hd
      · exact (update_comm hdp.symm _ _ _).trans (hytexts hplink hdlink).symm

lemma recorded_applyHunk [DecidableEq P] (laws : LinkLaws fs texts linked)
    (hs : Recorded texts F s) {cwd hunk}
    (hmove : ∀ path dest chunks, hunk = .updateFile path (some dest) chunks →
      ∀ p, paths.join cwd path = .ok p → paths.join cwd dest ≠ .ok p) :
    Ensures (applyHunk fs paths mode cwd hunk) s
      (fun _ t => Recorded texts F t) fun _ t => Recorded texts F t := by
  refine ensures_orThrow_bind (fun p hp => ?_) fun _ _ => hs
  obtain ⟨path, contents⟩ | path | ⟨path, movePath, chunks⟩ := hunk
  · exact recorded_addFile laws hs p path contents
  · exact recorded_deleteFile laws hs p path
  · refine (ensures_updateFile laws F s).mono (fun _ t ht => ht.1 ?_ hs) fun _ _ ht => ht hs
    rintro dest rfl
    exact hmove path dest chunks rfl p hp

/-! ## The whole patch -/

section

variable [DecidableEq P] (laws : LinkLaws fs texts linked) {paths : PathUris P}
  (mode : ApplyPatchFileUpdateMode) {cwd : P} {hunks : List Hunk}
  (hmove : ∀ path dest chunks, Hunk.updateFile path (some dest) chunks ∈ hunks →
    ∀ p, paths.join cwd path = .ok p → paths.join cwd dest ≠ .ok p)

include laws hmove

lemma recorded_applyHunksToFiles {F s}
    (hs : Recorded texts F s) :
    Ensures (applyHunksToFiles fs paths mode cwd hunks) s
      (fun _ t => Recorded texts F t) fun _ t => Recorded texts F t := by
  rw [applyHunksToFiles]
  split
  · exact hs
  · refine Ensures.bind (ensures_forM hs fun hunk hhunk t ht => ?_) fun _ t ht => ht
    refine recorded_applyHunk laws ht ?_
    rintro path dest chunks rfl
    exact hmove path dest chunks hhunk

/-- Writing the summary or the error leaves the file system and the delta alone. -/
lemma recorded_applyHunksWithMode {ω : Type} (stdout stderr : Writer ω) (console : Console σ ω) :
    Ensures (applyHunksWithMode fs paths mode cwd stdout stderr hunks) console
      (fun delta console' => ∃ s : ApplyState σ P,
        Recorded texts (texts console.fs) s ∧ s.delta = delta ∧ s.fs = console'.fs)
      fun failure console' => ∃ s : ApplyState σ P,
        Recorded texts (texts console.fs) s ∧ s.delta = failure.delta ∧ s.fs = console'.fs := by
  have hstart : Recorded texts (texts console.fs) { fs := console.fs } := fun _ => ⟨trivial, rfl⟩
  have hall := recorded_applyHunksToFiles laws mode hmove hstart
  rw [Ensures, applyHunksWithMode]
  rcases hrun : applyHunksToFiles fs paths mode cwd hunks { fs := console.fs } with
    ⟨affected, s⟩ | ⟨error, s⟩
  · have hs : Recorded texts (texts console.fs) s := hall.of_ok hrun
    rcases hprint : printSummary stdout affected console.stdout with ⟨_, out⟩ | ⟨e, out⟩ <;>
      simp only [hprint] <;> exact ⟨s, hs, rfl, rfl⟩
  · have hs : Recorded texts (texts console.fs) s := hall.of_error hrun
    rcases hprint : stderr error.display console.stderr with ⟨_, err⟩ | ⟨e, err⟩ <;>
      simp only [hprint] <;> exact ⟨s, hs, rfl, rfl⟩

/-- **Exact deltas are exact.**  However the patch ends, if the delta it returns is exact then the
journal of the delta leads from the texts in the beginning to those in the end, and back. -/
theorem applyHunksWithMode_exact {ω : Type} {stdout stderr : Writer ω}
    {console console' : Console σ ω} {delta : AppliedPatchDelta P}
    (hrun : applyHunksWithMode fs paths mode cwd stdout stderr hunks console = .ok delta console' ∨
      ∃ error, applyHunksWithMode fs paths mode cwd stdout stderr hunks console =
        .error ⟨error, delta⟩ console')
    (hexact : delta.exact) :
    redo (texts console.fs) delta.journal = texts console'.fs ∧
      undo (texts console'.fs) delta.journal = texts console.fs := by
  have hspec := recorded_applyHunksWithMode laws mode hmove stdout stderr console
  have hend : ∃ s : ApplyState σ P, Recorded texts (texts console.fs) s ∧ s.delta = delta ∧
      s.fs = console'.fs := by
    obtain hrun | ⟨error, hrun⟩ := hrun
    · exact hspec.of_ok hrun
    · exact hspec.of_error hrun
  obtain ⟨s, hrecorded, rfl, hfs⟩ := hend
  obtain ⟨hfaithful, hredo⟩ := hrecorded hexact
  rw [← hfs, ← hredo]
  exact ⟨rfl, undo_redo hfaithful⟩

end

/-- Renames `a` to `b` and changes its one line. -/
def renameHunk : Hunk :=
  .updateFile "a" (some "b") [⟨none, ["x"], ["z"], [], false⟩]

/-- The texts of a file system with one file. -/
def oneFile (path content : Str) : Str → Option Str := update (fun _ => none) path (some content)

/-- A writer that keeps the lines. -/
def lineWriter : Writer (List Str) := fun line written => .ok () (written ++ [line])

/-- A rename in a file system in memory has an exact delta. -/
theorem applyHunksWithMode_rename :
    ∃ delta console', applyHunksWithMode memoryFs plainPaths .normalizeToLf "/w" lineWriter
        lineWriter [renameHunk] ⟨oneFile "/w/a" "x\n", [], []⟩ = .ok delta console' ∧
      delta.exact ∧
      redo (oneFile "/w/a" "x\n") delta.journal = console'.fs ∧
      undo console'.fs delta.journal = oneFile "/w/a" "x\n" := by
  have hrun : ∃ delta console', applyHunksWithMode memoryFs plainPaths .normalizeToLf "/w"
      lineWriter lineWriter [renameHunk] ⟨oneFile "/w/a" "x\n", [], []⟩ =
        .ok delta console' ∧ delta.exact := ⟨_, _, rfl, rfl⟩
  obtain ⟨delta, console', hrun, hexact⟩ := hrun
  refine ⟨delta, console', hrun, hexact,
    applyHunksWithMode_exact memoryFs_flat.linkLaws .normalizeToLf ?_ (.inl hrun) hexact⟩
  intro path dest chunks hmem
  obtain ⟨rfl, hdest, -⟩ := Hunk.updateFile.inj (List.mem_singleton.mp hmem)
  obtain rfl := Option.some.inj hdest
  rintro p ⟨⟩
  decide

/-! ## Renames -/

/-- **A rename keeps the file if and only if it goes somewhere else.** -/
theorem move_keeps_file_iff [DecidableEq P] (laws : FlatLaws fs texts) {paths : PathUris P}
    {mode : ApplyPatchFileUpdateMode} {cwd : P} {path dest : Str} {chunks : List UpdateFileChunk}
    {s t : ApplyState σ P}
    (hok : applyHunk fs paths mode cwd (.updateFile path (some dest) chunks) s = .ok () t) :
    ∃ source destination original new,
      paths.join cwd path = .ok source ∧ paths.join cwd dest = .ok destination ∧
      texts s.fs source = some original ∧
      newContentsFromChunks (paths.inferredNativePathString source) original chunks mode = .ok new ∧
      (texts t.fs destination = some new ↔ source ≠ destination) := by
  have hspec : Ensures (applyHunk fs paths mode cwd (.updateFile path (some dest) chunks)) s
      (fun _ t => ∃ source original new, paths.join cwd path = .ok source ∧
        texts s.fs source = some original ∧
        newContentsFromChunks (paths.inferredNativePathString source) original chunks mode =
          .ok new ∧ ∃ destination, paths.join cwd dest = .ok destination ∧
        texts t.fs = update (update (texts s.fs) destination (some new)) source
          none)
      fun _ _ => True := by
    refine ensures_orThrow_bind (fun source hsource => ?_) fun _ _ => trivial
    refine (ensures_updateFile laws.linkLaws (texts s.fs) s).mono ?_ fun _ _ _ => trivial
    rintro _ u ⟨-, original, new, horiginal, hnew, destination, hdestination, htexts⟩
    exact ⟨source, original, new, hsource, horiginal, hnew, destination, hdestination,
      htexts not_false not_false⟩
  obtain ⟨source, original, new, hsource, horiginal, hnew, destination, hdestination, htexts⟩ :=
    hspec.of_ok hok
  refine ⟨source, destination, original, new, hsource, hdestination, horiginal, hnew, ?_⟩
  rw [htexts]
  obtain rfl | hne := eq_or_ne source destination
  · simp
  · simp [update_of_ne hne.symm, hne]

/-- A rename to another path. -/
theorem move_keeps_file_rename :
    ∃ t, applyHunk memoryFs plainPaths .normalizeToLf "/w" renameHunk
        { fs := oneFile "/w/a" "x\n" } = .ok () t ∧
      t.fs "/w/b" = some "z\n" := by
  have hrun : ∃ t, applyHunk memoryFs plainPaths .normalizeToLf "/w" renameHunk
      { fs := oneFile "/w/a" "x\n" } = .ok () t := ⟨_, rfl⟩
  obtain ⟨t, hrun⟩ := hrun
  obtain ⟨source, destination, original, new, hsource, hdestination, horiginal, hnew, hiff⟩ :=
    move_keeps_file_iff memoryFs_flat hrun
  cases hsource
  cases hdestination
  cases horiginal
  cases hnew
  exact ⟨t, hrun, hiff.mpr (by decide)⟩

/-- Renames a file to itself. -/
def selfMovePatch : Str :=
  "*** Begin Patch\n*** Update File: a\n*** Move to: a\n@@\n-x\n+z\n*** End Patch"

/-- The hunk of this patch. -/
def selfMoveHunk : Hunk :=
  .updateFile "a" (some "a") [⟨none, ["x"], ["z"], [], false⟩]

/-- **A lost file.**  The run succeeds, and the file is gone. -/
theorem selfMove_loses_file :
    parsePatch selfMovePatch = .ok ⟨selfMovePatch, [selfMoveHunk], none, none⟩ ∧
    ∃ affected t, applyHunksToFiles memoryFs plainPaths .normalizeToLf "/w" [selfMoveHunk]
        { fs := oneFile "/w/a" "x\n" } = .ok affected t ∧
      newContentsFromChunks "/w/a" "x\n"
        [⟨none, ["x"], ["z"], [], false⟩] .normalizeToLf = .ok "z\n" ∧
      t.fs "/w/a" = none :=
  ⟨by decide, _, _, rfl, by decide, by decide⟩

end ApplyPatch
