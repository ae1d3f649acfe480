import CodexAgents.ApplyPatch.Delta
import CodexAgents.ApplyPatch.Texts

/-!
# Verifying a patch before it is applied

`apply-patch/src/invocation.rs`: before a patch is applied it is *verified*.
`tryVerifyApplyPatchArgs` goes over the hunks without changing anything and computes, for every file
a hunk is about, the change that the patch is going to make (`ApplyPatchAction`).  That is what a
user gets to approve.

Verification looks at the files as they are before the patch, and rejects two hunks for one source
path.  Applying looks at the files as the hunks before have left them.  The two come apart where the
destination of a rename is a path of another hunk, which verification does not look at.

Main results, for a file system in memory (`MemoryLaws`):

* `ensures_applyHunk`, `ensures_applyHunksToFiles` — applying hunks is running them on the texts.
* `ensures_verifyHunk` — a verified change is what the hunk does to the texts there are.
* `verify_predicts_iff` — what has been verified is what happens if and only if the hunks get along
  with each other (`Harmonious`).
-/

namespace ApplyPatch

open Text Outcome Apply List Function Option ResolvedHunk

/-! ## Verification -/

/-- What a patch is going to do to a file. -/
inductive ApplyPatchFileChange (P : Type) where
  | add (content : Str)
  | delete (content : Str)
  | update (unifiedDiff : Str) (movePath : Option P) (newContent : Str)

/-- The map of changes is the list of its entries, in the order they were inserted. -/
structure ApplyPatchAction (P : Type) where
  changes : List (P × ApplyPatchFileChange P)
  updateFileMode : ApplyPatchFileUpdateMode
  patch : Str
  cwd : P

/-- The file before and after an update. -/
structure ApplyPatchFileUpdate where
  unifiedDiff : Str
  originalContent : Str
  content : Str

variable {σ P : Type}

section

variable [DecidableEq P] (fs : ExecutorFileSystem σ P) (paths : PathUris P)
  (textDiff : ℕ → Str → Str → Str)

/-- `textDiff` is the unified diff of two texts with so many lines of context. -/
def unifiedDiffFromChunksWithMode (path : P) (chunks : List UpdateFileChunk)
    (mode : ApplyPatchFileUpdateMode) : EStateM ApplyPatchError σ ApplyPatchFileUpdate := do
  let ⟨originalContents, newContents⟩ ← deriveNewContentsFromChunks fs paths path chunks mode
  return ⟨textDiff 1 originalContents newContents, originalContents, newContents⟩

/-- `?` on a resolved path. -/
def orPathUri {α : Type} (result : Except Str α) : EStateM ApplyPatchError σ α :=
  match result with
  | .ok a => pure a
  | .error message => throw (.pathUri message)

/-- One turn of the loop of `try_verify_apply_patch_args`. -/
def verifyHunk (mode : ApplyPatchFileUpdateMode) (effectiveCwd : P)
    (changes : List (P × ApplyPatchFileChange P)) (hunk : Hunk) :
    EStateM ApplyPatchError σ (List (P × ApplyPatchFileChange P)) := do
  let path ← orPathUri (paths.join effectiveCwd hunk.sourcePath)
  if path ∈ changes.map Prod.fst then
    throw (.parseError (.invalidPatchError
      ("multiple operations target " ++ paths.inferredNativePathString path)))
  else match hunk with
  | .addFile _ contents => return changes ++ [(path, .add contents)]
  | .deleteFile _ =>
    match ← attempt id (fun _ t => t) (fs.readFileText path) with
    | .ok content => return changes ++ [(path, .delete content)]
    | .error source =>
      throw (.ioError ⟨"Failed to read " ++ paths.inferredNativePathString path, source⟩)
  | .updateFile _ movePath chunks =>
    let update ← unifiedDiffFromChunksWithMode fs paths textDiff path chunks mode
    let movePath ← match movePath with
      | some dest => some <$> orPathUri (paths.join effectiveCwd dest)
      | none => pure none
    return changes ++ [(path, .update update.unifiedDiff movePath update.content)]

/-- The directory the paths of the patch are relative to. -/
def effectiveCwd (cwd : P) (workdir : Option Str) : Except Str P :=
  match workdir with
  | some dir => paths.join cwd dir
  | none => .ok cwd

/-- What the patch is going to do, computed from the files as they are. -/
def tryVerifyApplyPatchArgs (args : ApplyPatchArgs) (cwd : P) (mode : ApplyPatchFileUpdateMode) :
    EStateM ApplyPatchError σ (ApplyPatchAction P) := do
  let cwd ← orPathUri (effectiveCwd paths cwd args.workdir)
  let changes ← args.hunks.foldlM (verifyHunk fs paths textDiff mode cwd) []
  return { changes := changes, updateFileMode := mode, patch := args.patch, cwd := cwd }

end

/-! ## File systems in memory -/

/-- **A file system of regular files in memory**: operations fail only for what is missing, which
for a write is the directory of its path. -/
structure MemoryLaws {σ P : Type} [DecidableEq P] (fs : ExecutorFileSystem σ P)
    (paths : PathUris P) (texts : σ → P → Option Str) : Prop extends FlatLaws fs texts where
  read_some {p s content} (h : texts s p = some content) : ∃ t, fs.readFileText p s = .ok content t
  metadata_some {p s content} (h : texts s p = some content) :
    ∃ t, fs.getMetadata p s = .ok ⟨false, true, false⟩ t
  mkdir_total (p s) : ∃ t, fs.createDirectory p s = .ok () t
  write_some {p s content} (h : texts s p = some content) (new : Str) :
    ∃ t, fs.writeFile p new s = .ok () t
  write_missing {p content s e t} (h : fs.writeFile p content s = .error e t) :
    e.kind = .notFound ∧ (paths.parent p).isSome = true
  write_of_mkdir {p parent s t} (hparent : paths.parent p = some parent)
    (h : fs.createDirectory parent s = .ok () t) (content : Str) :
    ∃ u, fs.writeFile p content t = .ok () u
  remove_some {p s content} (h : texts s p = some content) : ∃ t, fs.remove p s = .ok () t
  remove_missing {p s t} (h : fs.remove p s = .ok () t) : texts s p ≠ none

lemma memoryFs_memory {P : Type} [DecidableEq P] (paths : PathUris P) :
    MemoryLaws memoryFs paths id where
  toFlatLaws := memoryFs_flat
  read_some {p s content} h := ⟨s, by simp only [memoryFs, show s p = some content from h]⟩
  metadata_some {p s content} h := ⟨s, by simp only [memoryFs, show s p = some content from h]⟩
  mkdir_total _ s := ⟨s, rfl⟩
  write_some _ _ := ⟨_, rfl⟩
  write_missing h := by cases h
  write_of_mkdir _ _ _ := ⟨_, rfl⟩
  remove_some {p s content} h :=
    ⟨update s p none, by simp only [memoryFs, show s p = some content from h]⟩
  remove_missing h hnone := by
    simp only [memoryFs] at h
    split at h
    · rename_i hsome
      cases hsome.symm.trans hnone
    · cases h

/-! ## Applying hunks in memory -/

lemma eq_update_of_resolve {chunks} {P : Type} {paths} {cwd p : P} {path movePath h}
    (hp : paths.join cwd path = .ok p)
    (hresolve : resolveHunk paths cwd (.updateFile path movePath chunks) = .ok h) :
    ∃ d, h = .update p d chunks := by
  rw [resolveHunk] at hresolve
  simp only [Hunk.sourcePath, hp, bind, Except.bind] at hresolve
  obtain _ | dest := movePath
  · cases hresolve
    exact ⟨none, rfl⟩
  · simp only at hresolve
    split at hresolve
    · cases hresolve
    · cases hresolve
      exact ⟨some _, rfl⟩

lemma step_update_of_none {P : Type} [DecidableEq P] {paths mode F} {p : P} {d}
    (h : newText paths mode F p chunks = none) :
    (update p d chunks).step paths mode F = none := by
  rcases d with _ | d <;> rw [step, h, map_none]

variable {fs : ExecutorFileSystem σ P} {paths : PathUris P} {texts : σ → P → Option Str}

section

variable [DecidableEq P] (laws : MemoryLaws fs paths texts)

include laws

/-- With its directory created where it is missing, every file can be written. -/
lemma ensures_writeRetry_memory (p : P) (content : Str) (s : ApplyState σ P) :
    Ensures (tryWrite (writeFileWithMissingParentRetry fs paths p content)) s
      (fun _ t => texts t.fs = update (texts s.fs) p (some content))
      fun _ _ => False := by
  have htotal : Ensures (writeFileWithMissingParentRetry fs paths p content) s (fun _ _ => True)
      fun _ _ => False := by
    refine Ensures.bind (Q := fun r _ => ∀ e, r = .error e →
      e.kind = .notFound ∧ (paths.parent p).isSome = true) ?_ fun r t hr => ?_
    · refine ensures_attempt.mpr (ensures_iff.mpr ⟨fun _ _ _ => by rintro _ ⟨⟩, fun e u h => ?_⟩)
      rintro _ ⟨⟩
      exact laws.write_missing h
    obtain e | _ := r
    swap
    · trivial
    obtain ⟨hkind, hparent⟩ := hr e rfl
    obtain ⟨parent, hparent⟩ := isSome_iff_exists.mp hparent
    simp only [hkind, if_true, hparent]
    obtain ⟨u, hu⟩ := laws.mkdir_total parent t.fs
    obtain ⟨v, hv⟩ := laws.write_of_mkdir hparent hu content
    simp [Ensures, onFs, attempt, orThrow, hu, hv, bind, EStateM.bind, pure, EStateM.pure]
  have hboth := (ensures_writeRetry laws.linkLaws p content s).and htotal
  rw [Ensures] at hboth ⊢
  rw [tryWrite]
  rcases hw : writeFileWithMissingParentRetry fs paths p content s with ⟨_, t⟩ | ⟨e, t⟩
  · rw [hw] at hboth
    exact (hboth.1.2 not_false).texts_eq
  · rw [hw] at hboth
    exact hboth.2

/-- A file can be removed if it is there. -/
lemma ensures_removeFile_memory (action : Str) (p : P) (content : Option Str) (s : ApplyState σ P) :
    Ensures (removeFile fs paths action p content) s
      (fun _ t => texts s.fs p ≠ none ∧ texts t.fs = update (texts s.fs) p none)
      fun _ _ => texts s.fs p = none := by
  have hthere : Ensures (removeFile fs paths action p content) s
      (fun _ _ => texts s.fs p ≠ none) fun _ _ => texts s.fs p = none := by
    have hcheck : Ensures (onFs (ensureNotDirectory fs p)) s
        (fun r _ => texts s.fs p ≠ none → r = .ok ()) fun _ _ => False := by
      by_cases hp : texts s.fs p = none
      · exact (ensures_ensureNotDirectory laws.linkLaws p s).mono
          (fun _ _ _ hne => absurd hp hne) fun _ _ => id
      · obtain ⟨c, hc⟩ := ne_none_iff_exists'.mp hp
        obtain ⟨t, ht⟩ := laws.metadata_some hc
        refine ensures_attempt.mpr (ensures_bind.mpr ?_)
        rw [Ensures, ht]
        exact fun _ => rfl
    refine ((ensures_ensureNotDirectory laws.linkLaws p s).and hcheck).mono (fun _ _ => id)
      (fun _ _ h => h.1.elim) |>.bind ?_
    rintro r t ⟨ht, hr⟩
    refine ensures_orThrow_bind (fun _ _ => ?_) fun e he => ?_
    swap
    · by_contra hp
      rw [hr hp] at he
      cases he
    have hremove : Ensures (onFs (fs.remove p)) t
        (fun r _ => r = .ok () ↔ texts s.fs p ≠ none) fun _ _ => False := by
      rw [← ht.texts_eq]
      refine ensures_attempt.mpr (ensures_iff.mpr ⟨fun _ u h => ?_, fun e u h => ?_⟩)
      · exact iff_of_true rfl (laws.remove_missing h)
      · refine iff_of_false (by simp) fun hp => ?_
        obtain ⟨c, hc⟩ := ne_none_iff_exists'.mp hp
        obtain ⟨v, hv⟩ := laws.remove_some hc
        cases h.symm.trans hv
    refine hremove.bind_total fun r u hr => ?_
    obtain e | _ := r
    · refine (ensures_sideEffectFree laws.linkLaws p content u).bind_total fun b v _ => ?_
      show texts s.fs p = none
      by_contra hp
      cases hr.mpr hp
    · exact hr.mp rfl
  refine (hthere.and (ensures_removeFile laws.linkLaws action p content s)).mono ?_ ?_
  · exact fun _ t h => ⟨h.1, (h.2.2 not_false).texts_eq⟩
  · exact fun _ _ h => h.1

lemma ensures_derive_memory (p : P) (chunks : List UpdateFileChunk)
    (mode : ApplyPatchFileUpdateMode) (s : ApplyState σ P) :
    Ensures (onFs (deriveNewContentsFromChunks fs paths p chunks mode)) s
      (fun r t => texts t.fs = texts s.fs ∧
        r.toOption.map (·.newContents) = newText paths mode (texts s.fs) p chunks)
      fun _ _ => False := by
  refine ensures_attempt.mpr (ensures_derive_iff.mpr (ensures_iff.mpr
    ⟨fun content t h => ?_, fun e t h => ?_⟩))
  · obtain ⟨hsame, hp⟩ := laws.read_ok h
    split
    · rename_i e hnew
      exact ⟨hsame, by simp [newText, hp, hnew, Except.toOption]⟩
    · rename_i new hnew
      exact ⟨hsame, by simp [newText, hp, hnew, Except.toOption]⟩
  · have hp : texts s.fs p = none := by
      by_contra hp
      obtain ⟨c, hc⟩ := ne_none_iff_exists'.mp hp
      obtain ⟨u, hu⟩ := laws.read_some hc
      cases h.symm.trans hu
    exact ⟨(laws.read_error h).1, by simp [newText, hp, Except.toOption]⟩

variable (mode : ApplyPatchFileUpdateMode) (cwd : P)

/-- **Applying a hunk is a step on the texts.** -/
theorem ensures_applyHunk (hunk : Hunk) (s : ApplyState σ P) :
    Ensures (applyHunk fs paths mode cwd hunk) s
      (fun _ t => ∃ h, resolveHunk paths cwd hunk = .ok h ∧
        h.step paths mode (texts s.fs) = some (texts t.fs))
      fun _ _ => ∀ h, resolveHunk paths cwd hunk = .ok h →
        h.step paths mode (texts s.fs) = none := by
  have flat := laws.linkLaws
  refine ensures_orThrow_bind (fun p hp => ?_) fun e he => ?_
  swap
  · intro h hh
    rw [resolveHunk, he] at hh
    cases hh
  obtain ⟨path, contents⟩ | path | ⟨path, movePath, chunks⟩ := hunk
  · refine (ensures_readOptional flat p s).bind_total ?_
    rintro r t ⟨ht, -⟩
    refine (ensures_writeRetry_memory laws p contents t).bind_total fun _ u hu => ?_
    refine ⟨.add p contents, ?_, ?_⟩
    · rw [resolveHunk, hp]
      rfl
    · rw [ht.texts_eq] at hu
      exact congrArg some hu.symm
  · have hresolve : resolveHunk paths cwd (.deleteFile path) = .ok (.delete p) := by
      rw [resolveHunk, hp]
      rfl
    refine (ensures_noteExisting flat p s).bind_total fun _ t ⟨ht, _⟩ => ?_
    refine (ensures_onFs_read flat p t).bind_total ?_
    rintro r u ⟨hu, -⟩
    refine ensures_bind.mpr (ensures_modify.mpr ?_)
    have htexts : texts u.fs = texts s.fs := hu.texts_eq.trans ht.texts_eq
    have hremove := ensures_removeFile_memory laws "Failed to delete file " p r.toOption
      { u with delta := { u.delta with exact := u.delta.exact && r.toOption.isSome } }
    simp only [htexts] at hremove
    have hgone : texts s.fs p = none → ∀ h, resolveHunk paths cwd (.deleteFile path) = .ok h →
        h.step paths mode (texts s.fs) = none := by
      intro hnone h hh
      cases hresolve.symm.trans hh
      rw [step, hnone, map_none]
    refine (hremove.mono (fun _ _ => id) fun _ _ => hgone).bind ?_
    rintro _ v ⟨hne, hv⟩
    obtain ⟨c, hc⟩ := ne_none_iff_exists'.mp hne
    have hstep : ∃ h, resolveHunk paths cwd (.deleteFile path) = .ok h ∧
        h.step paths mode (texts s.fs) = some (texts v.fs) :=
      ⟨.delete p, hresolve, by rw [step, hc, hv, map_some]⟩
    rcases r with e | content <;> exact hstep
  · refine (ensures_noteExisting flat p s).bind_total fun _ t ⟨ht, _⟩ => ?_
    refine (ensures_derive_memory laws p chunks mode t).bind_total ?_
    rintro r u ⟨hu, hr⟩
    rw [ht.texts_eq] at hu hr
    refine ensures_orThrow_bind (fun d hd => ?_) fun e he => ?_
    swap
    · intro h hh
      rw [he] at hr
      obtain ⟨d, rfl⟩ := eq_update_of_resolve hp hh
      exact step_update_of_none hr.symm
    obtain ⟨original, new⟩ := d
    rw [hd] at hr
    replace hr : newText paths mode (texts s.fs) p chunks = some new := hr.symm
    obtain _ | dest := movePath
    · have hwrite : Ensures (tryWrite (onFs (fs.writeFile p new) >>= orThrow
          (.io ("Failed to write file " ++ paths.inferredNativePathString p)))) u
          (fun _ v => texts v.fs = update (texts s.fs) p (some new)) fun _ _ => False := by
        obtain ⟨c, hc, -⟩ := bind_eq_some_iff.mp hr
        obtain ⟨v, hv⟩ := laws.write_some (hu ▸ hc) new
        have htexts := laws.write_ok hv
        rw [hu] at htexts
        simpa [Ensures, tryWrite, onFs, attempt, orThrow, hv, bind, EStateM.bind, pure,
          EStateM.pure] using htexts
      refine hwrite.bind_total fun _ v hv => ⟨.update p none chunks, ?_, ?_⟩
      · rw [resolveHunk, hp]
        rfl
      · rw [step, hr, map_some]
        exact congrArg some hv.symm
    · refine ensures_orThrow_bind (fun d hjoin => ?_) fun e he => ?_
      swap
      · intro h hh
        rw [resolveHunk, hp] at hh
        simp only [bind, Except.bind, he] at hh
        cases hh
      refine (ensures_readOptional flat d u).bind_total ?_
      rintro r v ⟨hv, -⟩
      refine (ensures_writeRetry_memory laws d new v).bind_total fun _ w hw => ?_
      rw [hv.texts_eq, hu] at hw
      refine ensures_bind.mpr (ensures_modify.mpr ?_)
      have hremove := ensures_removeFile_memory laws "Failed to remove original " p
        (some original) { w with delta :=
          { w.delta with changes := w.delta.changes ++ [⟨d, .add new r⟩] } }
      simp only [hw] at hremove
      have hthere : update (texts s.fs) d (some new) p ≠ none := by
        obtain ⟨c, hc, -⟩ := bind_eq_some_iff.mp hr
        obtain rfl | hne := eq_or_ne p d
        · simp
        · rw [update_of_ne hne, hc]
          simp
      refine (hremove.mono (fun _ _ => id) fun _ _ h => absurd h hthere).bind ?_
      rintro _ x ⟨-, hx⟩
      refine ⟨.update p (some d) chunks, ?_, ?_⟩
      · rw [resolveHunk, hp]
        simp only [bind, Except.bind, hjoin]
        rfl
      · rw [step, hr, map_some]
        exact congrArg some hx.symm

lemma ensures_applyHunks (hunks : List Hunk) (s : ApplyState σ P) :
    Ensures (hunks.forM (applyHunk fs paths mode cwd)) s
      (fun _ t => ∃ hs, Resolves paths cwd hunks hs ∧
        hs.foldlM (step paths mode) (texts s.fs) = some (texts t.fs))
      fun _ _ => ∀ hs, Resolves paths cwd hunks hs →
        hs.foldlM (step paths mode) (texts s.fs) = none := by
  induction hunks generalizing s with
  | nil => exact ⟨[], .nil, rfl⟩
  | cons hunk hunks ih =>
    have hfirst := (ensures_applyHunk laws mode cwd hunk s).mono (fun _ _ => id)
      (fun _ _ hnone => (by
        rintro _ (_ | ⟨hresolve, -⟩)
        rw [foldlM_cons, hnone _ hresolve]
        rfl : ∀ hs, Resolves paths cwd (hunk :: hunks) hs →
          hs.foldlM (step paths mode) (texts s.fs) = none))
    refine hfirst.bind fun _ t ⟨h, hresolve, hstep⟩ => (ih t).mono ?_ ?_
    · rintro _ u ⟨hs, hhs, hrun⟩
      refine ⟨h :: hs, .cons hresolve hhs, ?_⟩
      rw [foldlM_cons, hstep]
      exact hrun
    · rintro _ u hnone _ (_ | ⟨hresolve', hhs⟩)
      cases hresolve.symm.trans hresolve'
      rw [foldlM_cons, hstep]
      exact hnone _ hhs

/-- **Applying a patch is a run on the texts.** -/
theorem ensures_applyHunksToFiles {hunks} (hne : hunks ≠ []) (s : ApplyState σ P) :
    Ensures (applyHunksToFiles fs paths mode cwd hunks) s
      (fun _ t => ∃ hs, Resolves paths cwd hunks hs ∧
        hs.foldlM (step paths mode) (texts s.fs) = some (texts t.fs))
      fun _ _ => ∀ hs, Resolves paths cwd hunks hs →
        hs.foldlM (step paths mode) (texts s.fs) = none := by
  rw [applyHunksToFiles]
  split_ifs with hempty
  · exact absurd (isEmpty_iff.mp hempty) hne
  · exact (ensures_applyHunks laws mode cwd hunks s).bind fun _ _ => id

end

/-! ## What verification has established -/

section

variable [DecidableEq P] {textDiff : ℕ → Str → Str → Str} (laws : FlatLaws fs texts)

/-- What a change says about the texts in the end. -/
def ApplyPatchFileChange.demands : P × ApplyPatchFileChange P → List (P × Option Str)
  | (path, .add content) => [(path, some content)]
  | (path, .delete _) => [(path, none)]
  | (path, .update _ none new) => [(path, some new)]
  | (path, .update _ (some dest) new) => [(path, none), (dest, some new)]

/-- **The changes have been made, and no others.** -/
def Performed (F : P → Option Str) (changes : List (P × ApplyPatchFileChange P))
    (F' : P → Option Str) : Prop :=
  (∀ c ∈ changes, ∀ d ∈ ApplyPatchFileChange.demands c, F' d.1 = d.2) ∧
  ∀ q, (∀ c ∈ changes, ∀ d ∈ ApplyPatchFileChange.demands c, d.1 ≠ q) → F' q = F q

/-- A change that has been verified: it is what the hunk does to the texts there are. -/
def Foresees (paths : PathUris P) (mode : ApplyPatchFileUpdateMode) (F : P → Option Str)
    (h : ResolvedHunk P) (c : P × ApplyPatchFileChange P) : Prop :=
  c.1 = h.source ∧ Applicable paths mode F h ∧
    ApplyPatchFileChange.demands c = h.demands paths mode F

omit [DecidableEq P] in
lemma ensures_orPathUri_bind {α β : Type} {r : Except Str α}
    {g s} {Q : β → σ → Prop}
    (h : ∀ a, r = .ok a → Ensures (g a) s Q fun _ _ => True) :
    Ensures (orPathUri r >>= g) s Q fun _ _ => True := by
  obtain e | a := r
  · trivial
  · exact h a rfl

include laws

lemma ensures_unifiedDiff (p : P) (chunks : List UpdateFileChunk)
    (mode : ApplyPatchFileUpdateMode) (s : σ) :
    Ensures (unifiedDiffFromChunksWithMode fs paths textDiff p chunks mode) s
      (fun update t => texts t = texts s ∧
        newText paths mode (texts s) p chunks = some update.content)
      fun _ _ => True := by
  refine ensures_bind.mpr (ensures_derive_iff.mpr (ensures_iff.mpr
    ⟨fun content t h => ?_, fun _ _ _ => trivial⟩))
  obtain ⟨hsame, hp⟩ := laws.read_ok h
  split
  · trivial
  · rename_i new hnew
    exact ⟨hsame, by simp [newText, hp, hnew, Except.toOption]⟩

lemma ensures_verifyHunk (mode : ApplyPatchFileUpdateMode) (cwd : P)
    (changes : List (P × ApplyPatchFileChange P)) (hunk : Hunk) (s : σ) :
    Ensures (verifyHunk fs paths textDiff mode cwd changes hunk) s
      (fun changes' t => texts t = texts s ∧ ∃ h c, resolveHunk paths cwd hunk = .ok h ∧
        h.source ∉ changes.map Prod.fst ∧ Foresees paths mode (texts s) h c ∧
        changes' = changes ++ [c])
      fun _ _ => True := by
  refine ensures_orPathUri_bind fun p hp => ?_
  split
  · trivial
  rename_i hnew
  obtain ⟨path, contents⟩ | path | ⟨path, movePath, chunks⟩ := hunk
  · refine ⟨rfl, .add p contents, (p, .add contents), ?_, hnew, ⟨rfl, rfl, rfl⟩, rfl⟩
    rw [resolveHunk, hp]
    rfl
  · refine ensures_bind.mpr (ensures_attempt.mpr (ensures_iff.mpr
      ⟨fun content t h => ?_, fun _ _ _ => trivial⟩))
    obtain ⟨hsame, hcontent⟩ := laws.read_ok h
    refine ⟨hsame, .delete p, (p, .delete content), ?_, hnew, ⟨rfl, ?_, rfl⟩, rfl⟩
    · rw [resolveHunk, hp]
      rfl
    · rw [Applicable, step, show texts s p = some content from hcontent]
      rfl
  · refine (ensures_unifiedDiff laws p chunks mode s).bind ?_
    rintro update t ⟨hsame, hcontent⟩
    obtain _ | dest := movePath
    · refine ⟨hsame, .update p none chunks, _, ?_, hnew, ⟨rfl, ?_, ?_⟩, rfl⟩
      · rw [resolveHunk, hp]
        rfl
      · rw [Applicable, step, hcontent]
        rfl
      · rw [demands, hcontent]
        rfl
    · rcases hd : paths.join cwd dest with e | d
      · simp only [hd]
        trivial
      · simp only [hd]
        refine ⟨hsame, .update p (some d) chunks, (p, .update update.unifiedDiff (some d)
          update.content), ?_, hnew, ⟨rfl, ?_, ?_⟩, rfl⟩
        · rw [resolveHunk, hp]
          simp only [bind, Except.bind, hd]
          rfl
        · rw [Applicable, step, hcontent]
          rfl
        · rw [demands, hcontent]
          rfl

lemma ensures_verifyHunks {changes} (mode : ApplyPatchFileUpdateMode) (cwd : P) (hunks : List Hunk)
    (hnodup : (changes.map Prod.fst).Nodup) (s : σ) :
    Ensures (hunks.foldlM (verifyHunk fs paths textDiff mode cwd) changes) s
      (fun changes' t => texts t = texts s ∧ (changes'.map Prod.fst).Nodup ∧
        ∃ hs new, Resolves paths cwd hunks hs ∧
          List.Forall₂ (Foresees paths mode (texts s)) hs new ∧ changes' = changes ++ new)
      fun _ _ => True := by
  induction hunks generalizing changes s with
  | nil => exact ⟨rfl, hnodup, [], [], .nil, .nil, (append_nil changes).symm⟩
  | cons hunk hunks ih =>
    rw [foldlM_cons]
    refine (ensures_verifyHunk laws mode cwd changes hunk s).bind ?_
    rintro _ t ⟨hsame, h, c, hresolve, hfresh, hforesees, rfl⟩
    have hnodup' : ((changes ++ [c]).map Prod.fst).Nodup := by
      rw [map_append, map_singleton, ← concat_eq_append, nodup_concat]
      exact ⟨hforesees.1 ▸ hfresh, hnodup⟩
    refine (ih hnodup' t).mono ?_ fun _ _ _ => trivial
    rintro changes' u ⟨hsame', hnodup'', hs, new, hhs, hnew, rfl⟩
    rw [hsame] at hsame' hnew
    exact ⟨hsame', hnodup'', h :: hs, c :: new, .cons hresolve hhs, .cons hforesees hnew, by simp⟩

omit laws in
/-- Verified changes have been made if and only if the hunks have left what they were to leave. -/
lemma performed_iff {changes mode F F' hs} (h : List.Forall₂ (Foresees paths mode F) hs changes) :
    Performed F changes F' ↔ (∀ h ∈ hs, ∀ d ∈ h.demands paths mode F, F' d.1 = d.2) ∧
        ∀ q, (∀ h ∈ hs, q ∉ h.names) → F' q = F q := by
  have hmap : changes.map ApplyPatchFileChange.demands = hs.map (·.demands paths mode F) := by
    induction h with
    | nil => rfl
    | cons hc _ ih => rw [map_cons, map_cons, hc.2.2, ih]
  have hall : ∀ p : List (P × Option Str) → Prop,
      (∀ c ∈ changes, p (ApplyPatchFileChange.demands c)) ↔
        ∀ h ∈ hs, p (h.demands paths mode F) := by
    intro p
    rw [← List.forall_mem_map, hmap, List.forall_mem_map]
  have hnames : ∀ q, (∀ h ∈ hs, ∀ d ∈ h.demands paths mode F, d.1 ≠ q) ↔ ∀ h ∈ hs, q ∉ h.names := by
    intro q
    refine forall₂_congr fun h _ => ?_
    rw [mem_names_iff paths mode F]
    constructor
    · rintro hne ⟨v, hv⟩
      exact hne (q, v) hv rfl
    · rintro hno ⟨_, v⟩ hv rfl
      exact hno ⟨v, hv⟩
  rw [Performed, hall fun D => ∀ d ∈ D, F' d.1 = d.2]
  refine and_congr_right' (forall_congr' fun q => imp_congr_left ?_)
  rw [hall fun D => ∀ d ∈ D, d.1 ≠ q, hnames]

omit laws in
lemma Foresees.applicable {changes mode F hs}
    (h : List.Forall₂ (Foresees paths mode F) hs changes) :
    (∀ h ∈ hs, Applicable paths mode F h) ∧ hs.map (·.source) = changes.map Prod.fst := by
  induction h with
  | nil => simp
  | cons hc _ ih =>
    refine ⟨?_, ?_⟩
    · rintro _ (_ | ⟨_, hmem⟩)
      · exact hc.2.1
      · exact ih.1 _ hmem
    · rw [map_cons, map_cons, hc.1, ih.2]

end

/-! ## Verification predicts application -/

/-- The hunks of the patch, with their paths resolved, get along with each other on these texts. -/
def Harmonious {P : Type} (paths : PathUris P) (mode : ApplyPatchFileUpdateMode) (cwd : P)
    (args : ApplyPatchArgs) (F : P → Option Str) : Prop :=
  ∀ root hs, effectiveCwd paths cwd args.workdir = .ok root →
    Resolves paths root args.hunks hs → Consistent paths mode F hs ∧ Reapplies paths mode F hs

lemma resolves_unique {P : Type} {paths} {cwd : P} {hunks hs hs'} (h : Resolves paths cwd hunks hs)
    (h' : Resolves paths cwd hunks hs') : hs = hs' := by
  induction h generalizing hs' with
  | nil => cases h'; rfl
  | cons hh _ ih =>
    obtain _ | ⟨hh', htail⟩ := h'
    cases hh.symm.trans hh'
    rw [ih htail]

/-- **When a verified patch does what it was verified to do.** -/
theorem verify_predicts_iff {σ P : Type} [DecidableEq P] {fs : ExecutorFileSystem σ P}
    {paths : PathUris P} {textDiff : ℕ → Str → Str → Str} {texts : σ → P → Option Str}
    (laws : MemoryLaws fs paths texts) {args : ApplyPatchArgs} (hne : args.hunks ≠ []) {cwd : P}
    {mode : ApplyPatchFileUpdateMode} {s t : σ} {action : ApplyPatchAction P}
    (hverify : tryVerifyApplyPatchArgs fs paths textDiff args cwd mode s = .ok action t) :
    (∃ affected u,
      applyHunksToFiles fs paths action.updateFileMode action.cwd args.hunks { fs := t } =
        .ok affected u ∧
      Performed (texts s) action.changes (texts u.fs)) ↔
    Harmonious paths mode cwd args (texts s) := by
  have hspec : Ensures (tryVerifyApplyPatchArgs fs paths textDiff args cwd mode) s
      (fun action t => texts t = texts s ∧ action.updateFileMode = mode ∧
        effectiveCwd paths cwd args.workdir = .ok action.cwd ∧
        (action.changes.map Prod.fst).Nodup ∧ ∃ hs, Resolves paths action.cwd args.hunks hs ∧
          List.Forall₂ (Foresees paths mode (texts s)) hs action.changes)
      fun _ _ => True := by
    refine ensures_orPathUri_bind fun root hroot => ?_
    have hempty : (([] : List (P × ApplyPatchFileChange P)).map Prod.fst).Nodup := nodup_nil
    refine (ensures_verifyHunks laws.toFlatLaws mode root args.hunks hempty s).bind ?_
    rintro changes t ⟨hsame, hnodup, hs, new, hhs, hnew, rfl⟩
    exact ⟨hsame, rfl, hroot, hnodup, hs, hhs, hnew⟩
  obtain ⟨hsame, hmode, hroot, hnodup, hs, hhs, hforesees⟩ := hspec.of_ok hverify
  obtain ⟨happ, hsources⟩ := Foresees.applicable hforesees
  rw [← hsources] at hnodup
  have hharm : Harmonious paths mode cwd args (texts s) ↔
      Consistent paths mode (texts s) hs ∧ Reapplies paths mode (texts s) hs := by
    refine ⟨fun h => h action.cwd hs hroot hhs, fun h root hs' hroot' hhs' => ?_⟩
    cases hroot.symm.trans hroot'
    rwa [← resolves_unique hhs hhs']
  have happly := ensures_applyHunksToFiles laws mode action.cwd hne { fs := t }
  rw [hharm, ← run_performed_iff happ hnodup, hmode]
  simp only [hsame] at happly
  constructor
  · rintro ⟨affected, u, hrun, hperformed⟩
    obtain ⟨hs', hhs', hfold⟩ := happly.of_ok hrun
    rw [← resolves_unique hhs hhs'] at hfold
    exact ⟨texts u.fs, hfold, (performed_iff hforesees).mp hperformed⟩
  · rintro ⟨F, hfold, hperformed⟩
    rcases hrun : applyHunksToFiles fs paths mode action.cwd args.hunks { fs := t } with
      ⟨affected, u⟩ | ⟨e, u⟩
    · obtain ⟨hs', hhs', hfold'⟩ := happly.of_ok hrun
      rw [← resolves_unique hhs hhs', hfold] at hfold'
      obtain rfl := some.inj hfold'
      exact ⟨affected, u, rfl, (performed_iff hforesees).mpr hperformed⟩
    · cases (happly.of_error hrun hs hhs).symm.trans hfold

/-- A patch with the one rename of `renameHunk`. -/
def renameArgs : ApplyPatchArgs := ⟨[], [renameHunk], none, none⟩

theorem verify_predicts_rename :
    ∃ action t, tryVerifyApplyPatchArgs memoryFs plainPaths (fun _ _ _ => []) renameArgs "/w"
        .normalizeToLf (oneFile "/w/a" "x\n") = .ok action t ∧
      ∃ affected u, applyHunksToFiles memoryFs plainPaths action.updateFileMode action.cwd
          renameArgs.hunks { fs := t } = .ok affected u ∧
        Performed (oneFile "/w/a" "x\n") action.changes u.fs := by
  have hverify : ∃ action t, tryVerifyApplyPatchArgs memoryFs plainPaths (fun _ _ _ => [])
      renameArgs "/w" .normalizeToLf (oneFile "/w/a" "x\n") =
        .ok action t := ⟨_, _, rfl⟩
  obtain ⟨action, t, hverify⟩ := hverify
  refine ⟨action, t, hverify, (verify_predicts_iff (memoryFs_memory plainPaths)
    (by simp [renameArgs]) hverify).mpr ?_⟩
  rintro root hs ⟨⟩ hhs
  obtain rfl := resolves_unique hhs (.cons rfl .nil)
  refine ⟨by decide, ?_⟩
  rintro (_ | ⟨_, _ | _⟩) path chunks post hsplit
  all_goals cases hsplit

/-- Renames `a` to `b`, and changes `b`. -/
def clashPatch : Str :=
  ("*** Begin Patch\n*** Update File: a\n*** Move to: b\n@@\n-x\n+z\n" ++
    "*** Update File: b\n@@\n-y\n+w\n*** End Patch").toList

/-- The hunks of this patch. -/
def clashHunks : List Hunk :=
  [renameHunk, .updateFile "b" none [⟨none, ["y"], ["w"], [], false⟩]]

/-- The texts of a file system with two files. -/
def twoFiles : Str → Option Str :=
  update (oneFile "/w/a" "x\n") "/w/b" (some "y\n")

/-- **A patch that is verified and cannot be applied.**  The rename overwrites the file that the
second hunk is about. -/
theorem verified_not_applied : parsePatch clashPatch = .ok ⟨clashPatch, clashHunks, none, none⟩ ∧
    ∃ action t, tryVerifyApplyPatchArgs memoryFs plainPaths (fun _ _ _ => [])
        ⟨clashPatch, clashHunks, none, none⟩ "/w" .normalizeToLf twoFiles = .ok action t ∧
      ∃ e u, applyHunksToFiles memoryFs plainPaths action.updateFileMode action.cwd clashHunks
        { fs := t } = .error e u :=
  ⟨by decide, _, _, rfl, _, _, rfl⟩

end ApplyPatch
